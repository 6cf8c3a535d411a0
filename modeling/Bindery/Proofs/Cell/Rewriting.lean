/-
Proofs.Cell.Rewriting -- what is replaced in a cell

Two things are replaced in a script cell: the literal that names a module in a call of
`import` or `require`, and the two words of a reference to a control.  `rewriteCalls`
and `mergeViews` say on tokens what remains.  In a cell without static imports the scan
finds the edits of the first (`Import.scan_eq`).
-/
import Bindery.Cell.ViewReference
import Bindery.Import.Scan
import Bindery.Proofs.Token.Brackets
import Bindery.Proofs.Token.Splice

namespace Bindery

open List TokenSeq Text Token Import Scan

variable {s g : List Char} {p : Option Token} {own ts r : List Token} {pos : Nat} {piece : Piece}
  {arg v : Token} {loader : Import.Loader} {tl tl' ps : List Laid}

/-! ## Calls that load a module -/

namespace Import

def loader? (t : Token) : Option Loader :=
  if t.isKeyword "import" then some .dynamicImport
  else if t.isIdent "require" then some .require
  else none

/-- The loader that is called with a literal, given the token before the call. -/
def call? (p : Option Token) (callee o arg : Token) : Option Loader :=
  if p.any selects then none
  else if o.isPunct "(" && arg.kind == .string then loader? callee
  else none

def rewrite? (loader : Loader) (arg : Token) : Option String :=
  match arg.stringValue? with
  | none => none
  | some value =>
    match Specifier.classify value with
    | .package ref wrapped => (loader.replacement? value ref wrapped).map Json.quote
    | _ => none

def argumentEdits (loader : Loader) (arg : Token) : List Edit :=
  (rewrite? loader arg).toList.map fun s => ⟨arg.start, arg.stop, s⟩

/-- The edits of the calls in a list of tokens, given the token before the list. -/
def callEdits (p : Option Token) : List Token → List Edit
  | callee :: o :: arg :: rest =>
    match call? p callee o arg with
    | some loader => argumentEdits loader arg ++ callEdits (some arg) rest
    | none => callEdits (some callee) (o :: arg :: rest)
  | _ => []

/-- Every `import` is a call, a property of `import`, or the name of a property. -/
def onlyCalls (p : Option Token) : List Token → Bool
  | [] => true
  | t :: rest =>
    (!t.isKeyword "import" || p.any selects ||
      rest.head?.any (fun next => next.isPunct "(" || next.isPunct ".")) &&
    onlyCalls (some t) rest

end Import

/-- The tokens of a list with the arguments of its calls replaced, given the token
before the list. -/
def rewriteCalls (p : Option Token) : List Token → List Key
  | callee :: o :: arg :: rest =>
    match call? p callee o arg with
    | some loader =>
      callee.key :: o.key ::
        (.string, (rewrite? loader arg).getD arg.text) ::
        rewriteCalls (some arg) rest
    | none => callee.key :: rewriteCalls (some callee) (o :: arg :: rest)
  | ts => ts.map key

namespace Import

variable {t : Token}

theorem edits_callArgument (loader : Loader) (arg : Token) :
    (callArgument loader arg).edits = argumentEdits loader arg := by
  unfold callArgument argumentEdits rewrite?
  cases arg.stringValue? with
  | none => rfl
  | some v =>
    dsimp only
    cases Specifier.classify v with
    | package ref wrapped =>
      dsimp only
      cases loader.replacement? v ref wrapped <;> rfl
    | path => rfl
    | external => rfl

theorem callEdits_cons {p : Option Token} (r : List Token)
    (plain : ∀ o ∈ r.head?, ∀ arg ∈ r.tail.head?, call? p t o arg = none) :
    callEdits p (t :: r) = callEdits (some t) r := by
  match r with
  | [] => rfl
  | [_] => rfl
  | o :: arg :: r => rw [callEdits, plain o rfl arg rfl]

theorem call?_of_loader (other : loader? t = none) (p : Option Token)
    (o arg : Token) : call? p t o arg = none := by
  unfold call?
  split
  · rfl
  split
  · exact other
  · rfl

theorem loader?_of_kind (kw : t.kind ≠ .keyword) (ident : t.kind ≠ .ident) : loader? t = none := by
  rw [loader?, if_neg (by simp [isKeyword, kw]), if_neg (by simp [isIdent, ident])]

section Scan

variable {o callee : Token} {s : String} {i : Nat}

theorem drop_of_get? (here : (ofList ts).get? i = some t) :
    ts.drop i = t :: ts.drop (i + 1) ∧ (ofList ts).prev? (i + 1) = some t := by
  refine ⟨?_, by rw [prev?, if_neg (by omega)]; exact here⟩
  rw [get?_ofList] at here
  obtain ⟨inside, rfl⟩ := List.getElem?_eq_some_iff.1 here
  exact drop_eq_getElem_cons inside

theorem loader?_of_isPunct (mark : t.isPunct s) : loader? t = none := by
  have kind : t.kind = .punct := (key_eq (key_eq_mark.2 mark)).1
  exact loader?_of_kind (by simp [kind]) (by simp [kind])

theorem callEdits_call {arg : Token} (r : List Token) (called : call? p callee o arg = some loader) :
    callEdits p (callee :: o :: arg :: r) = argumentEdits loader arg ++ callEdits (some arg) r := by
  rw [callEdits, called]

theorem call?_of_loader? (free : ¬ p.any selects) (opened : o.isPunct "(")
    (named : loader? callee = some loader) (arg : Token) :
    call? p callee o arg = if arg.kind = .string then some loader else none := by
  rw [call?, if_neg free, opened, named]
  simp

theorem call?_eq_some (called : call? p callee o arg = some loader) :
    p.any selects = false ∧ loader? callee = some loader ∧ o.key = .mark "(" ∧
      arg.kind = .string := by
  unfold call? at called
  split at called
  · cases called
  · next free =>
    split at called
    · next opened =>
      rw [Bool.and_eq_true, beq_iff_eq] at opened
      exact ⟨by simpa using free, called, key_eq_mark.2 opened.1, opened.2⟩
    · cases called

theorem call?_of_argumentAt? (missing : argumentAt? ts i = none)
    (next : arg ∈ (ts.drop i).head?) : call? p callee o arg = none := by
  rw [head?_drop] at next
  rw [argumentAt?, get?_ofList, Option.mem_def.1 next, Option.filter_eq_none_iff] at missing
  simp [call?, missing arg rfl]

theorem onlyCalls_tail (calls : onlyCalls p (t :: r)) : onlyCalls (some t) r := by
  simp only [onlyCalls, Bool.and_eq_true] at calls
  exact calls.2

/-- A static import: an `import` that is no name of a property, no call and not followed by a
dot. -/
structure StaticAt (ts : List Token) (i : Nat) (t : Token) : Prop where
  here : (ofList ts).get? i = some t
  selected : ¬ (ofList ts).prevHolds i Token.selects
  isImport : t.isKeyword "import" = true
  opened : ¬ (ofList ts).punctAt (i + 1) "("
  dotted : ¬ (ofList ts).punctAt (i + 1) "."

theorem StaticAt.refused {t : Token} (static : StaticAt ts i t) :
    ¬ onlyCalls ((ofList ts).prev? i) (ts.drop i) := by
  obtain ⟨here, selected, isImport, opened, dotted⟩ := static
  intro calls
  rw [(drop_of_get? here).1] at calls
  simp only [onlyCalls, Bool.and_eq_true, Bool.or_eq_true, Bool.not_eq_true', isImport] at calls
  rcases calls.1 with (absurd | absurd) | next
  · cases absurd
  · exact selected absurd
  · rw [head?_drop] at next
    unfold punctAt holds at opened dotted
    rw [get?_ofList] at opened dotted
    cases got : ts[i + 1]? with
    | none => rw [got] at next; cases next
    | some t => simp_all

/-- **The scan, step by step.**  It goes over a token that calls no loader, over a call as far as
its argument, or over a static import, which it reads or refuses. -/
theorem scan_induction {P : Option Token → List Token → Except Nat Found → Prop} (done : ∀ p, P p [] (.ok {}))
    (pass : ∀ {p t r res}, (∀ o ∈ r.head?, ∀ arg ∈ r.tail.head?, call? p t o arg = none) →
      P (some t) r res → P p (t :: r) res)
    (call : ∀ {p callee o arg r loader res}, call? p callee o arg = some loader → P (some o) (arg :: r) res →
      P p (callee :: o :: arg :: r) (res.map (callArgument loader arg).append))
    (refuse : ∀ {i t}, StaticAt ts i t → P ((ofList ts).prev? i) (ts.drop i) (.error t.start))
    (read : ∀ {i t stmt}, StaticAt ts i t → parse? ts i = some stmt →
      P ((ofList ts).prev? stmt.next) (ts.drop stmt.next) (scanFrom ts stmt.next) →
      P ((ofList ts).prev? i) (ts.drop i) ((scanFrom ts stmt.next).map (ofStatement t.start stmt).append))
    (i : Nat) : P ((ofList ts).prev? i) (ts.drop i) (scanFrom ts i) := by
  have skip {p : Option Token} {t : Token} {r : List Token} {res : Except Nat Found}
      (other : loader? t = none) (later : P (some t) r res) :
      P p (t :: r) res := pass (fun _ _ _ _ => call?_of_loader other _ _ _) later
  fun_induction scanFrom ts i with
  | case1 i here =>
    rw [get?_ofList, getElem?_eq_none_iff] at here
    rw [drop_eq_nil_of_le here]
    exact done _
  | case2 i t here selected ih =>
    obtain ⟨split, p⟩ := drop_of_get? here
    rw [split]
    exact pass (fun _ _ _ _ => if_pos selected) (p ▸ ih)
  | case3 i t here selected isImport opened ih =>
    obtain ⟨split, p⟩ := drop_of_get? here
    obtain ⟨o, next, mark⟩ := holds_eq_true.1 opened
    obtain ⟨split', p'⟩ := drop_of_get? next
    rw [split, split']
    rw [p'] at ih
    cases called : argumentAt? ts (i + 2) with
    | none =>
      have eq : (scanFrom ts (i + 2)).map (Found.append {}) = scanFrom ts (i + 2) := by
        cases scanFrom ts (i + 2) <;> rfl
      rw [Option.elim_none, eq]
      refine pass ?_ (skip (loader?_of_isPunct mark) ih)
      rintro _ ⟨⟩ arg there
      exact call?_of_argumentAt? called there
    | some arg =>
      obtain ⟨third, string⟩ := Option.filter_eq_some_iff.1 called
      rw [(drop_of_get? third).1] at ih ⊢
      exact call ((call?_of_loader? selected mark (if_pos isImport) arg).trans
        (if_pos (beq_iff_eq.1 string))) ih
  | case4 i t here selected isImport opened dotted ih =>
    obtain ⟨split, p⟩ := drop_of_get? here
    obtain ⟨dot, next, mark⟩ := holds_eq_true.1 dotted
    obtain ⟨split', p'⟩ := drop_of_get? next
    rw [split, split']
    refine pass ?_ (skip (loader?_of_isPunct mark) (p' ▸ ih))
    rintro _ ⟨⟩ arg _
    have other : dot.isPunct "(" = false := by
      simpa [punctAt, holds, next] using opened
    rw [call?, other]
    simp
  | case5 i t here selected isImport opened dotted failed =>
    exact refuse ⟨here, selected, isImport, opened, dotted⟩
  | case6 i t here selected isImport opened dotted stmt parsed ih =>
    exact read ⟨here, selected, isImport, opened, dotted⟩ parsed ih
  | case7 i t here selected notImport isRequire arg called ih =>
    obtain ⟨split, p⟩ := drop_of_get? here
    obtain ⟨o, next, mark⟩ := holds_eq_true.1 isRequire.2
    obtain ⟨third, string⟩ := Option.filter_eq_some_iff.1 called
    obtain ⟨split', p'⟩ := drop_of_get? third
    have named : loader? t = some .require := by rw [loader?, if_neg notImport, if_pos isRequire.1]
    rw [beq_iff_eq] at string
    rw [split, (drop_of_get? next).1, split']
    refine call ((call?_of_loader? selected mark named arg).trans (if_pos string))
      (skip (loader?_of_kind (by simp [string]) (by simp [string])) (p' ▸ ih))
  | case8 i t here selected notImport isRequire unnamed ih =>
    obtain ⟨split, p⟩ := drop_of_get? here
    rw [split]
    refine pass (fun o _ arg there => ?_) (p ▸ ih)
    rw [tail_drop] at there
    exact call?_of_argumentAt? unnamed there
  | case9 i t here selected notImport notRequire ih =>
    obtain ⟨split, p⟩ := drop_of_get? here
    rw [split]
    refine pass (fun o next arg _ => ?_) (p ▸ ih)
    rw [head?_drop] at next
    unfold punctAt holds at notRequire
    rw [get?_ofList, Option.mem_def.1 next] at notRequire
    have plain (opened : o.isPunct "(") : loader? t = none := by
      rw [loader?, if_neg notImport, if_neg fun named => notRequire ⟨named, opened⟩]
    unfold call?
    split
    · rfl
    split
    · next opened => exact plain (Bool.and_eq_true_iff.1 opened).1
    · rfl

/-- **Without static imports the scan succeeds, and its edits are those of the calls.** -/
theorem scan_eq (calls : onlyCalls none ts) : ∃ got, scan ts = .ok got ∧ got.edits = callEdits none ts := by
  refine scan_induction (P := fun p r res => onlyCalls p r →
    ∃ got, res = .ok got ∧ got.edits = callEdits p r)
    (fun _ _ => ⟨_, rfl, rfl⟩) (fun plain ih calls => ?_) (fun called ih calls => ?_)
    (fun static calls => absurd calls static.refused)
    (fun static _ _ calls => absurd calls static.refused) 0 calls
  · obtain ⟨got, rfl, edits⟩ := ih (onlyCalls_tail calls)
    exact ⟨got, rfl, by rw [edits, callEdits_cons _ plain]⟩
  · obtain ⟨got, rfl, edits⟩ := ih (onlyCalls_tail (onlyCalls_tail calls))
    obtain ⟨-, -, -, string⟩ := call?_eq_some called
    rw [callEdits_cons _ fun _ _ _ _ => call?_of_loader
      (loader?_of_kind (by simp [string]) (by simp [string])) _ _ _] at edits
    refine ⟨_, rfl, ?_⟩
    rw [callEdits_call _ called, ← edits_callArgument, ← edits]
    rfl

end Scan

end Import

/-! ## The new literal -/

def IsPlain (c : Char) : Prop :=
  c ≠ '\\' ∧ c ≠ '\x22' ∧ c ≠ '\n'

instance (c : Char) : Decidable (IsPlain c) :=
  inferInstanceAs (Decidable (_ ∧ _))

theorem stringTail_plain (plain : ∀ c ∈ s, IsPlain c) (r : List Char) :
    stringTail '\x22' (s ++ r) = (stringTail '\x22' r).map (Scan.keep s) := by
  induction s with
  | nil =>
    rw [nil_append]
    cases stringTail '\x22' r <;> rfl
  | cons c s ih =>
    obtain ⟨backslash, quote, l⟩ := plain c mem_cons_self
    rw [cons_append, stringTail_cons _ _ backslash, if_neg quote, if_neg l,
      ih fun d mem => plain d (.tail _ mem)]
    cases stringTail '\x22' r <;> rfl

theorem stringTail_escape (c : Char) (s r : List Char) (plain : ∀ c ∈ s, IsPlain c) :
    stringTail '\x22' ('\\' :: c :: s ++ r) = (stringTail '\x22' r).map (Scan.keep ('\\' :: c :: s)) := by
  rw [cons_append, cons_append, stringTail, stringTail_plain plain]
  cases stringTail '\x22' r <;> rfl

theorem stringTail_escapeChar (c : Char) (r : List Char) :
    Scan.stringTail '\x22' (Json.escapeChar c ++ r) =
      (Scan.stringTail '\x22' r).map (Scan.keep (Json.escapeChar c)) := by
  have none : ∀ d ∈ ([] : List Char), IsPlain d := nofun
  unfold Json.escapeChar
  split
  · exact stringTail_escape _ [] r none
  split
  · exact stringTail_escape _ [] r none
  split
  · next control =>
    unfold Json.controlEscape
    split
    all_goals try exact stringTail_escape _ [] r none
    have digits : ∀ digit < 16, IsPlain (Json.hexDigit digit) := by decide
    refine stringTail_escape 'u' _ r ?_
    intro d mem
    simp only [mem_cons, not_mem_nil, or_false] at mem
    rcases mem with rfl | rfl | rfl | rfl
    · decide
    · decide
    · exact digits _ (by omega)
    · exact digits _ (by omega)
  · next quote backslash vis =>
    refine stringTail_plain ?_ r
    intro d mem
    cases mem_singleton.1 mem
    refine ⟨backslash, quote, ?_⟩
    rintro rfl
    exact vis (by decide)

theorem literal_quote (s : String) : Literal (Json.quote s).toList := by
  refine ⟨'\x22', Json.escape s.toList ++ ['\x22'], by simp [Json.quote], .inl rfl, fun r => ?_⟩
  generalize s.toList = chars
  induction chars with
  | nil => rfl
  | cons c chars ih =>
    have split : Json.escape (c :: chars) = Json.escapeChar c ++ Json.escape chars := rfl
    rw [split, append_assoc, append_assoc, stringTail_escapeChar, ← append_assoc, ih]
    simp [Scan.keep]

/-! ## Calls on the text -/

theorem rewriteCalls_cons {t : Token} (r : List Token) (plain : ∀ o ∈ r.head?, ∀ arg, call? p t o arg = none) :
    rewriteCalls p (t :: r) = t.key :: rewriteCalls (some t) r := by
  match r with
  | [] => rfl
  | [_] => rfl
  | o :: arg :: r => rw [rewriteCalls, plain o rfl arg]

theorem calls_append (later : List Token) (plain : ∀ t ∈ own, loader? t = none) (p : Option Token) :
    ∃ p', callEdits p (own ++ later) = callEdits p' later ∧
      rewriteCalls p (own ++ later) = own.map key ++ rewriteCalls p' later := by
  induction own generalizing p with
  | nil => exact ⟨p, rfl, rfl⟩
  | cons t own ih =>
    obtain ⟨p', edits, ks⟩ := ih (fun t mem => plain t (.tail _ mem)) (some t)
    have none := call?_of_loader (plain t mem_cons_self) p
    refine ⟨p', ?_, ?_⟩
    · rw [cons_append, callEdits_cons _ fun o _ arg _ => none o arg, edits]
    · rw [cons_append, rewriteCalls_cons _ fun o _ => none o, ks]
      rfl

theorem calls_of_placedAt (here : piece.PlacedAt pos own) (p : Option Token) (later : List Token) :
    (∃ callee o arg r loader, own = [callee] ∧ later = o :: arg :: r ∧ call? p callee o arg = some loader) ∨
    ∃ p', callEdits p (own ++ later) = callEdits p' later ∧
      rewriteCalls p (own ++ later) = piece.keys ++ rewriteCalls p' later := by
  rw [← here.keys]
  rcases here.cases with ⟨callee, s, -, rfl, -⟩ | ⟨fst, edges, rfl, key, marks⟩
  · match later with
    | [] => exact .inr ⟨none, rfl, rfl⟩
    | [_] => exact .inr ⟨none, rfl, rfl⟩
    | o :: arg :: r =>
      cases called : call? p callee o arg with
      | some loader => exact .inl ⟨_, _, _, _, loader, rfl, rfl, called⟩
      | none =>
        refine .inr ⟨some callee, ?_, ?_⟩
        · rw [singleton_append, callEdits, called]
        · rw [singleton_append, rewriteCalls, called]
          rfl
  · refine .inr (calls_append later (fun t mem => ?_) p)
    rcases kind_of_edges key marks t mem with kind | kind
    all_goals exact loader?_of_kind (by simp [kind]) (by simp [kind])

theorem quote_of_rewrite? {s : String} (got : rewrite? loader arg = some s) : ∃ v, s = Json.quote v := by
  unfold rewrite? at got
  split at got
  · cases got
  split at got
  · obtain ⟨v, -, rfl⟩ := Option.map_eq_some_iff.1 got
    exact ⟨v, rfl⟩
  · cases got

theorem edited_argument (loader : Import.Loader) {edits : List Edit} (eq : arg.text = String.ofList s)
    (starts : arg.start = pos + byteLength g) (stops : arg.stop = arg.start + byteLength s)
    (later : Edited arg.stop tl edits tl') :
    ∃ new, Edited pos (⟨g, .plain .string s⟩ :: tl) (argumentEdits loader arg ++ edits) (⟨g, new⟩ :: tl') ∧
      new.keys = [(.string, (rewrite? loader arg).getD arg.text)] := by
  unfold argumentEdits
  cases got : rewrite? loader arg with
  | none =>
    refine ⟨.plain .string s, .keep _ ?_, by rw [eq]; rfl⟩
    rw [stops, starts] at later
    exact later
  | some literal =>
    obtain ⟨v, quoted⟩ := quote_of_rewrite? got
    have isLiteral : Literal literal.toList := quoted ▸ literal_quote v
    have ends : arg.stop =
        arg.start + byteLength ((Piece.plain .string s).text ++ written []) := by
      simpa [written, Piece.text] using stops
    have edited : Edited pos (⟨g, .plain .string s⟩ :: ([] ++ tl))
        (⟨arg.start, arg.stop, String.ofList literal.toList⟩ :: ([] ++ edits))
        (⟨g, .plain .string literal.toList⟩ :: tl') :=
      .replace g (.string isLiteral) starts ends (fun _ mem => absurd mem not_mem_nil) later
    rw [String.ofList_toList] at edited
    exact ⟨_, edited, by simp [Piece.keys]⟩

/-- **The edits of the calls replace pieces by pieces**, and what is left reads as
`rewriteCalls` says. -/
theorem edited_calls (p : Option Token) (placed : Placed pos ps ts) :
    ∃ ps', Edited pos ps (callEdits p ts) ps' ∧ keysOf ps' = rewriteCalls p ts := by
  -- on the number of pieces, since a call takes three at once
  induction size : ps.length using Nat.strongRecOn generalizing pos ps ts p with
  | ind count ih =>
  cases ps with
  | nil =>
    cases placed
    exact ⟨[], .nil _, rfl⟩
  | cons laid tl =>
    obtain ⟨own, later, rfl, here, next⟩ := placed
    rcases calls_of_placedAt here p later with
      ⟨callee, o, arg, r, loader, rfl, rfl, called⟩ | ⟨p', edits, ks⟩
    · -- a parenthesis behind a token that is no template is a piece of its own
      obtain ⟨-, -, mark, string⟩ := call?_eq_some called
      have kind : o.kind = .punct := congrArg Prod.fst mark
      obtain ⟨g₁, s₁, tl₁, rfl, eq₁, starts₁, stops₁, next₁⟩ :=
        plain_of_placed next (by simp [kind]) (by rw [mark]; decide)
      obtain ⟨g₂, s₂, tl₂, rfl, eq₂, starts₂, stops₂, next₂⟩ :=
        plain_of_placed next₁ (by simp [string]) (key_ne_mark _ (by simp [string]))
      obtain ⟨tl', edited, read⟩ := ih tl₂.length (by simp at size; omega) (some arg) next₂ rfl
      obtain ⟨new, edited', read'⟩ := edited_argument loader eq₂ starts₂ stops₂ edited
      rw [stops₁, starts₁] at edited'
      refine ⟨laid :: ⟨g₁, .plain o.kind s₁⟩ :: ⟨g₂, new⟩ :: tl', ?_, ?_⟩
      · rw [singleton_append, callEdits_call r called, string]
        exact .keep laid (.keep _ edited')
      · have opened : [o.key] = (Piece.plain o.kind s₁).keys := by
          rw [key, eq₁]
          rfl
        rw [singleton_append, rewriteCalls, called, keysOf_cons, keysOf_cons, keysOf_cons,
          read, read', ← here.keys, ← opened]
        rfl
    · obtain ⟨tl', edited, read⟩ := ih tl.length (by simp at size; omega) p' next rfl
      refine ⟨laid :: tl', ?_, by rw [keysOf_cons, read, ks]⟩
      rw [edits]
      exact .keep laid edited

/-! ## Calls in a list that goes on -/

theorem kinds_rewriteCalls (p : Option Token) (ts : List Token) :
    (rewriteCalls p ts).map Prod.fst = ts.map kind := by
  fun_induction rewriteCalls p ts with
  | case1 p callee o arg r loader called ih =>
    simp [ih, key, (call?_eq_some called).2.2.2]
  | case2 p callee o arg r called ih => simpa [key] using ih
  | case3 ts p short => rw [map_map]; rfl

theorem length_rewriteCalls (p : Option Token) (ts : List Token) : (rewriteCalls p ts).length = ts.length := by
  simpa using congrArg length (kinds_rewriteCalls p ts)

theorem calls_of_no_string (p : Option Token) (none : ∀ t ∈ ts.drop 2, t.kind ≠ .string) :
    callEdits p ts = [] ∧ rewriteCalls p ts = ts.map key := by
  induction ts generalizing p with
  | nil => exact ⟨rfl, rfl⟩
  | cons callee r ih =>
    have later : ∀ t ∈ r.drop 2, t.kind ≠ .string := by
      intro t mem
      rw [← drop_drop (i := 1) (j := 1)] at mem
      exact none t (mem_of_mem_drop mem)
    obtain ⟨edits, ks⟩ := ih (some callee) later
    match r with
    | [] => exact ⟨rfl, rfl⟩
    | [_] => exact ⟨rfl, rfl⟩
    | o :: arg :: r =>
      have other : call? p callee o arg = .none := by
        unfold call?
        split
        · rfl
        · rw [if_neg (by simp [none arg (by simp)])]
      exact ⟨by rw [callEdits, other, edits], by rw [rewriteCalls, other, ks]; rfl⟩

theorem calls_append_of_no_string {suffix : List Token} (p : Option Token) (ts : List Token)
    (none : ∀ t ∈ suffix, t.kind ≠ .string) :
    callEdits p (ts ++ suffix) = callEdits p ts ∧
      rewriteCalls p (ts ++ suffix) = rewriteCalls p ts ++ suffix.map key := by
  fun_induction rewriteCalls p ts with
  | case1 p callee o arg r loader called ih =>
    refine ⟨?_, ?_⟩
    · rw [callEdits_call _ called, ← ih.1]
      exact callEdits_call _ called
    · rw [cons_append, cons_append, cons_append, rewriteCalls, called, ih.2]
      rfl
  | case2 p callee o arg r called ih =>
    refine ⟨?_, ?_⟩
    · rw [cons_append, cons_append, cons_append, callEdits, called, callEdits, called]
      exact ih.1
    · rw [cons_append, cons_append, cons_append, rewriteCalls, called]
      exact congrArg _ ih.2
  | case3 ts p short =>
    have few : ts.drop 2 = [] := by
      match ts, short with
      | [], _ => rfl
      | [_], _ => rfl
      | [_, _], _ => rfl
      | callee :: o :: arg :: r, short =>
        exact (short callee o arg r rfl).elim
    have later : ∀ t ∈ (ts ++ suffix).drop 2, t.kind ≠ .string := by
      intro t mem
      rw [drop_append, few, nil_append] at mem
      exact none t (mem_of_mem_drop mem)
    obtain ⟨edits, ks⟩ := calls_of_no_string p later
    obtain ⟨edits', -⟩ := calls_of_no_string p (few ▸ nofun : ∀ t ∈ ts.drop 2, _)
    exact ⟨edits.trans edits'.symm, by rw [ks, map_append]⟩

/-! ## References to controls -/

def Key.selects (key : Key) : Bool :=
  key == .mark "." || key == .mark "?."

def isView (p : Option Key) (v name : Key) : Bool :=
  v == .name "viewof" && name.1 == .ident && !p.any Key.selects

/-- The tokens of a list with each reference to a control merged into one identifier,
given the token before the list. -/
def mergeViews (p : Option Key) : List Key → List Key
  | v :: name :: rest =>
    if isView p v name then
      .name (viewParameterMark ++ name.2) :: mergeViews (some name) rest
    else v :: mergeViews (some v) (name :: rest)
  | keys => keys

theorem kind_head_mergeViews (p : Option Key) (ks : List Key) :
    (mergeViews p ks).head?.map Prod.fst = ks.head?.map Prod.fst := by
  fun_induction mergeViews p ks with
  | case1 p v n r got _ =>
    have word : v = .name "viewof" := by
      simp only [isView, Bool.and_eq_true, beq_iff_eq] at got
      exact got.1.1
    rw [word]
    rfl
  | case2 => rfl
  | case3 => rfl

theorem mergeViews_eq_cons {p : Option Key} {ks tail : List Key} {key : Key}
    (merged : mergeViews p ks = key :: tail) (other : key.1 ≠ .ident) :
    ∃ rest, ks = key :: rest ∧ tail = mergeViews (some key) rest := by
  unfold mergeViews at merged
  split at merged
  · split at merged
    · cases merged
      exact absurd rfl other
    · cases merged
      exact ⟨_, rfl, rfl⟩
  · next ks short =>
    subst merged
    refine ⟨tail, rfl, ?_⟩
    cases tail with
    | nil => rfl
    | cons next rest => exact (short _ _ _ rfl).elim

theorem selects_key (t : Token) : t.key.selects = t.selects := by
  rw [Bool.eq_iff_iff]
  simp [Key.selects, selects, key_eq_mark]

theorem isView_key (p : Option Token) (v n : Token) :
    isView (p.map key) v.key n.key ↔ v.isIdent "viewof" ∧ n.kind = .ident ∧ ¬ p.any selects := by
  have selected : (p.map key).any Key.selects = p.any selects := by
    cases p with
    | none => rfl
    | some t => exact selects_key t
  simp [isView, selected, isIdent, key, Key.name, and_assoc]

theorem views_cons (r : List Token) (plain : ∀ n ∈ r.head?, ¬ isView (p.map key) v.key n.key) :
    viewEdits p (v :: r) = viewEdits (some v) r ∧
      mergeViews (p.map key) ((v :: r).map key) = v.key :: mergeViews (some v.key) (r.map key) := by
  cases r with
  | nil => exact ⟨rfl, rfl⟩
  | cons n r =>
    have none := plain n rfl
    refine ⟨?_, ?_⟩
    · rw [viewEdits]
      exact if_neg fun got => none ((isView_key p v n).2 got)
    · rw [map_cons, map_cons, mergeViews, if_neg none]

theorem views_append (later : List Token) (plain : ∀ t ∈ own, t.kind ≠ .ident) (p : Option Token) :
    ∃ p', viewEdits p (own ++ later) = viewEdits p' later ∧
      mergeViews (p.map key) ((own ++ later).map key) =
        own.map key ++ mergeViews (p'.map key) (later.map key) := by
  induction own generalizing p with
  | nil => exact ⟨p, rfl, rfl⟩
  | cons t own ih =>
    obtain ⟨p', edits, ks⟩ := ih (fun t mem => plain t (.tail _ mem)) (some t)
    have none : ∀ n ∈ (own ++ later).head?,
        ¬ isView (p.map key) t.key n.key := by
      intro n _ got
      have ident := ((isView_key p t n).1 got).1
      exact plain t mem_cons_self (by simp [isIdent] at ident; exact ident.1)
    obtain ⟨edits', ks'⟩ := views_cons (own ++ later) none
    exact ⟨p', edits'.trans edits, ks'.trans (congrArg _ ks)⟩

theorem views_of_placedAt (here : piece.PlacedAt pos own) (p : Option Token) (later : List Token) :
    (∃ v n r, own = [v] ∧ later = n :: r ∧ isView (p.map key) v.key n.key) ∨
    ∃ p', viewEdits p (own ++ later) = viewEdits p' later ∧
      mergeViews (p.map key) ((own ++ later).map key) =
        piece.keys ++ mergeViews (p'.map key) (later.map key) := by
  rw [← here.keys]
  rcases here.cases with ⟨v, s, -, rfl, -⟩ | ⟨fst, edges, rfl, key, marks⟩
  · by_cases got : ∃ n ∈ later.head?, isView (p.map key) v.key n.key
    · obtain ⟨n, head, isView⟩ := got
      obtain ⟨r, rfl⟩ := head?_eq_some_iff.1 head
      exact .inl ⟨_, _, _, rfl, rfl, isView⟩
    · obtain ⟨edits, ks⟩ := views_cons later fun n head isView => got ⟨n, head, isView⟩
      exact .inr ⟨some v, edits, ks⟩
  · refine .inr (views_append later (fun t mem => ?_) p)
    rcases kind_of_edges key marks t mem with kind | kind
    all_goals simp [kind]

/-- Behind the words of a reference there may be an edit that overlaps it: that of a
control named `viewof`. -/
theorem viewEdits_overlapping (v n : Token) (rest : List Token) :
    ∃ overlapping, viewEdits (some v) (n :: rest) = overlapping ++ viewEdits (some n) rest ∧
      ∀ edit ∈ overlapping, edit.start = n.start ∧ n.text = "viewof" ∧
        ∃ next ∈ rest.head?, next.kind = .ident ∧ edit.stop = next.stop := by
  cases rest with
  | nil => exact ⟨[], rfl, nofun⟩
  | cons next rest =>
    by_cases got : n.isIdent "viewof" ∧ next.kind = .ident ∧ ¬ (some v).any selects
    · refine ⟨[⟨n.start, next.stop, viewParameterMark ++ next.text⟩], ?_, ?_⟩
      · rw [viewEdits]
        exact if_pos got
      · intro edit mem
        cases mem_singleton.1 mem
        have named : n.text = "viewof" := by
          have := got.1
          simp only [isIdent, Bool.and_eq_true, beq_iff_eq] at this
          exact this.2
        exact ⟨rfl, named, next, rfl, got.2.1, rfl⟩
    · refine ⟨[], ?_, nofun⟩
      rw [viewEdits]
      exact if_neg got

theorem edited_view {n : Token} {g' s' : List Char} (isView : v.isIdent "viewof")
    (eq : v.text = String.ofList s) (starts : v.start = pos + byteLength g)
    (stops : v.stop = v.start + byteLength s) (eq' : n.text = String.ofList s')
    (starts' : n.start = v.stop + byteLength g') (stops' : n.stop = n.start + byteLength s')
    (placed : Placed n.stop tl r) (later : Edited n.stop tl (viewEdits (some n) r) tl') :
    Edited pos (⟨g, .plain .ident s⟩ :: ⟨g', .plain .ident s'⟩ :: tl)
      (⟨v.start, n.stop, viewParameterMark ++ n.text⟩ :: viewEdits (some v) (n :: r))
      (⟨g, .plain .ident (viewParameterMark.toList ++ s')⟩ :: tl') := by
  obtain ⟨overlapping, split, inside⟩ := viewEdits_overlapping v n r
  have viewof : s = "viewof".toList := by
    simp only [isIdent, Bool.and_eq_true, beq_iff_eq] at isView
    have := congrArg String.toList (eq.symm.trans isView.2)
    rwa [String.toList_ofList] at this
  subst viewof
  have ends : n.stop = v.start + byteLength ((Piece.plain .ident "viewof".toList).text ++
      written [⟨g', .plain .ident s'⟩]) := by
    simp only [written, Piece.text, byteLength_append, byteLength]
    omega
  -- an overlapping edit starts at the second word, so the cursor has passed it
  have bounded : ∀ edit ∈ overlapping,
      v.start ≤ edit.start ∧ edit.start < n.stop ∧ edit.start ≤ edit.stop := by
    intro edit mem
    obtain ⟨start, named, next, head, ident, stop⟩ := inside edit mem
    obtain ⟨behind, rfl⟩ := head?_eq_some_iff.1 head
    obtain ⟨_, _, _, -, -, nextStarts, nextStops, -⟩ :=
      plain_of_placed placed (by simp [ident]) (key_ne_mark _ (by simp [ident]))
    have width : s' = "viewof".toList := by
      have := congrArg String.toList (eq'.symm.trans named)
      rwa [String.toList_ofList] at this
    have size : 0 < byteLength s' := by
      rw [width]
      decide
    omega
  have new : String.ofList (Piece.plain .ident (viewParameterMark.toList ++ s')).text =
      viewParameterMark ++ n.text := by
    rw [eq', Piece.text, String.ofList_append, String.ofList_toList]
  rw [split, ← new]
  exact .replace g (.view g' s') starts ends bounded later

/-- **The edits of the references replace pieces by pieces**, and what is left reads as
`mergeViews` says. -/
theorem edited_views (p : Option Token) (placed : Placed pos ps ts) :
    ∃ ps', Edited pos ps (viewEdits p ts) ps' ∧ keysOf ps' = mergeViews (p.map key) (ts.map key) := by
  induction size : ps.length using Nat.strongRecOn generalizing pos ps ts p with
  | ind count ih =>
  cases ps with
  | nil =>
    cases placed
    exact ⟨[], .nil _, rfl⟩
  | cons laid tl =>
    have whole := placed
    obtain ⟨own, later, rfl, here, next⟩ := placed
    rcases views_of_placedAt here p later with
      ⟨v, n, r, rfl, rfl, got⟩ | ⟨p', edits, ks⟩
    · have cond := (isView_key p v n).1 got
      have kind : v.kind = .ident := by
        have := cond.1
        simp only [isIdent, Bool.and_eq_true, beq_iff_eq] at this
        exact this.1
      obtain ⟨g, s, _, split, eq, starts, stops, next⟩ :=
        plain_of_placed whole (by simp [kind]) (key_ne_mark _ (by simp [kind]))
      cases split
      obtain ⟨g', s', tl, rfl, eq', starts', stops', placed⟩ :=
        plain_of_placed next (by simp [cond.2.1]) (key_ne_mark _ (by simp [cond.2.1]))
      obtain ⟨tl', edited, read⟩ := ih tl.length (by simp at size; omega) (some n) placed rfl
      have edited' := edited_view cond.1 eq starts stops eq' starts' stops' placed edited
      refine ⟨⟨g, .plain .ident (viewParameterMark.toList ++ s')⟩ :: tl', ?_, ?_⟩
      · rw [kind, cond.2.1, singleton_append, viewEdits, if_pos cond]
        exact edited'
      · have merged : (Piece.plain .ident (viewParameterMark.toList ++ s')).keys =
            [.name (viewParameterMark ++ n.text)] := by
          rw [Piece.keys, eq', String.ofList_append, String.ofList_toList]
          rfl
        rw [keysOf_cons, read, merged, singleton_append, singleton_append, map_cons,
          map_cons, mergeViews, if_pos got]
        rfl
    · obtain ⟨tl', edited, read⟩ := ih tl.length (by simp at size; omega) p' next rfl
      refine ⟨laid :: tl', ?_, by rw [keysOf_cons, read, ks]⟩
      rw [edits]
      exact .keep laid edited

end Bindery
