/-
Proofs.Import.Trace -- the scan for imports, step by step

The scan goes over a token, over a call with its argument, or over a static import
(`Trace`).  Each step says what the scan finds there and which tokens stand there once its
edits are made.  Every scan that succeeds has a trace (`trace_scanFrom`), provided that its
static imports are detached.
-/
import Bindery.Proofs.Import.Declaration

namespace Bindery.Import

open List TokenSeq

/-! ## Static imports -/

/-- Whether an `import` stands at an index that is no call, no property of `import` and no
name of a property. -/
def isStaticAt (seq : TokenSeq) (index : Nat) : Bool :=
  seq.holds index (·.isKeyword "import") && !seq.prevHolds index Token.selects &&
    !seq.punctAt (index + 1) "(" && !seq.punctAt (index + 1) "."

/-- Every static import is detached. -/
def Separate (seq : TokenSeq) : Prop :=
  ∀ index < seq.size, isStaticAt seq index = true →
    ∀ statement ∈ parse? seq index, Detached seq index statement

instance (seq : TokenSeq) : Decidable (Separate seq) :=
  inferInstanceAs (Decidable (∀ index < seq.size, isStaticAt seq index = true →
    ∀ statement ∈ parse? seq index, Detached seq index statement))

theorem onlyCalls_drop {ts : List Token} (calls : onlyCalls none ts) (i : Nat) :
    onlyCalls ((ofList ts).prev? i) (ts.drop i) := by
  induction i with
  | zero => exact calls
  | succ i ih =>
    cases here : (ofList ts).get? i with
    | none =>
      rw [get?_ofList, getElem?_eq_none_iff] at here
      rw [drop_eq_nil_of_le (by omega)]
      rfl
    | some t =>
      obtain ⟨split, prev⟩ := drop_of_get? here
      rw [split] at ih
      rw [prev]
      exact onlyCalls_tail ih

theorem separate_of_onlyCalls {ts : List Token} (calls : onlyCalls none ts) : Separate ts := by
  intro i _ static
  simp only [isStaticAt, Bool.and_eq_true, Bool.not_eq_true'] at static
  obtain ⟨⟨⟨called, free⟩, opened⟩, dotted⟩ := static
  obtain ⟨t, here, isImport⟩ := holds_eq_true.1 called
  exact absurd (onlyCalls_drop calls i)
    (StaticAt.refused ⟨here, by simp [free], isImport, by simp [opened], by simp [dotted]⟩)

/-- A static import in its place: the tokens behind the keyword up to the last one, and what
follows. -/
structure Statement.Held (statement : Statement) (keyword : Token) (inner : List Token)
    (last : Token) (r : List Token) : Prop where
  keyword : keyword.isKeyword "import" = true
  even : Even (inner ++ [last])
  sound : statement.clause.Sound
  stop : last.stop = statement.stop
  free : last.selects = false
  followed : ∀ next ∈ r.head?, next.isPunct "/" = false ∧ next.isPunct "/=" = false
  kept : Specifier.Kept statement.specifier

theorem held_of_parse? {ts : List Token} {i : Nat} {t : Token} {stmt : Statement} (here : ts[i]? = some t)
    (legible : ∀ t ∈ ts, t.Legible) (isImport : t.isKeyword "import") (got : parse? ts i = some stmt)
    (detached : Detached ts i stmt) :
    ∃ inner last, ts.drop (i + 1) = inner ++ last :: ts.drop stmt.next ∧
      (ofList ts).prev? stmt.next = some last ∧
      stmt.Held t inner last (ts.drop stmt.next) := by
  obtain ⟨span, order, sound, last, positive, back, stop, free⟩ := parse?_sound here legible got detached
  have ending : stretch ts (i + 1) stmt.next =
      stretch ts (i + 1) (stmt.next - 1) ++ [last] := by
    have bound := span.inside
    rw [stretch_append (by omega : i + 1 ≤ stmt.next - 1) (by omega) (by omega)]
    have one := stretch_one back
    rw [Nat.sub_add_cancel positive] at one
    rw [one]
  refine ⟨stretch ts (i + 1) (stmt.next - 1), last, ?_, ?_, isImport, ?_, sound, stop,
    free, ?_, detached.kept⟩
  · have whole := take_append_drop stmt.next ts
    have split : ts.drop (i + 1) =
        stretch ts (i + 1) stmt.next ++ ts.drop stmt.next := by
      have inside : i + 1 ≤ (ts.take stmt.next).length := by
        have := span.inside
        rw [length_take]
        omega
      rw [stretch, ← drop_append_of_le_length inside, whole]
    rw [split, ending, append_assoc]
    rfl
  · rw [prev?, if_neg (by omega), get?_ofList]
    exact back
  · rw [← ending]
    exact span.even
  · intro next head
    have followed := detached.followed
    rw [TokenSeq.holds, get?_ofList, ← head?_drop, Option.mem_def.1 head] at followed
    simpa using followed

/-! ## Steps of the scan -/

/-- The scan of some tokens, given the token before them: what it finds, and the tokens that
stand there once its edits are made. -/
inductive Trace : Option Token → List Token → Found → List Key → Prop where
  | done (p : Option Token) : Trace p [] {} []
  | pass {p : Option Token} {t : Token} {r : List Token} {got : Found}
      {ks : List Key}
      (plain : ∀ opener ∈ r.head?, ∀ argument ∈ r.tail.head?,
        call? p t opener argument = none)
      (later : Trace (some t) r got ks) :
      Trace p (t :: r) got (t.key :: ks)
  | call {p : Option Token} {callee opener argument : Token} {r : List Token}
      {loader : Loader} {got : Found} {ks : List Key}
      (called : call? p callee opener argument = some loader)
      (later : Trace (some argument) r got ks) :
      Trace p (callee :: opener :: argument :: r)
        ((callArgument loader argument).append got)
        (callee.key :: opener.key ::
          (.string, (rewrite? loader argument).getD argument.text) :: ks)
  | statement {p : Option Token} {keyword last : Token} {inner r : List Token}
      {statement : Statement} {got : Found} {ks : List Key}
      (held : statement.Held keyword inner last r)
      (static : onlyCalls p (keyword :: (inner ++ last :: r)) = false)
      (later : Trace (some last) r got ks) :
      Trace p (keyword :: (inner ++ last :: r))
        ((ofStatement keyword.start statement).append got)
        (keysOf (statement.clause.pieces statement.target) ++ ks)

namespace Trace

variable {p : Option Token} {t : Token} {r : List Token} {got : Found} {ks : List Key}

theorem skip (trace : Trace p (t :: r) got ks) (other : loader? t = none) :
    ∃ ks', ks = t.key :: ks' ∧ Trace (some t) r got ks' := by
  cases trace with
  | pass plain later => exact ⟨_, rfl, later⟩
  | call called later =>
    rw [(call?_eq_some called).2.1] at other
    cases other
  | statement held static later =>
    rw [loader?, if_pos held.keyword] at other
    cases other

theorem skips {own later : List Token} (trace : Trace p (own ++ later) got ks)
    (other : ∀ t ∈ own, loader? t = none) :
    ∃ p' ks', ks = own.map Token.key ++ ks' ∧ Trace p' later got ks' := by
  induction own generalizing p ks with
  | nil => exact ⟨p, ks, rfl, trace⟩
  | cons t own ih =>
    obtain ⟨ks', rfl, next⟩ := trace.skip (other t mem_cons_self)
    obtain ⟨p', ks'', rfl, last⟩ := ih next fun t mem => other t (.tail _ mem)
    exact ⟨p', ks'', rfl, last⟩

end Trace

/-- **A scan that succeeds has a trace.** -/
theorem trace_scanFrom {ts : List Token} {i : Nat} {got : Found} (legible : ∀ t ∈ ts, t.Legible)
    (separate : Separate ts) (scanned : scanFrom ts i = .ok got) :
    ∃ ks, Trace ((ofList ts).prev? i) (ts.drop i) got ks := by
  refine scan_induction (P := fun p r res => ∀ got, res = .ok got →
    ∃ ks, Trace p r got ks) (fun p got eq => ?_)
    (fun plain ih got eq => ?_) (fun called ih got eq => ?_)
    (fun _ _ failed => by cases failed) (fun static parsed ih got eq => ?_) i got scanned
  · cases eq
    exact ⟨_, .done _⟩
  · obtain ⟨ks, trace⟩ := ih got eq
    exact ⟨_, .pass plain trace⟩
  · obtain ⟨later, rfl, rfl⟩ := Except.map_eq_ok.1 eq
    obtain ⟨ks, trace⟩ := ih later rfl
    obtain ⟨-, -, -, string⟩ := call?_eq_some called
    obtain ⟨ks', -, behind⟩ := trace.skip (loader?_of_kind (by simp [string]) (by simp [string]))
    exact ⟨_, .call called behind⟩
  · rename_i i t stmt
    obtain ⟨later, scanned', rfl⟩ := Except.map_eq_ok.1 eq
    obtain ⟨ks, trace⟩ := ih later scanned'
    have refused := static.refused
    obtain ⟨here, selected, isImport, opened, dotted⟩ := static
    have static : isStaticAt ts i := by
      simp only [isStaticAt, TokenSeq.holds, here, Option.any_some, isImport, selected, opened,
        dotted, Bool.not_false, Bool.and_self]
    have detached := separate i (lt_of_get? here) static stmt parsed
    obtain ⟨split, p⟩ := drop_of_get? here
    rw [get?_ofList] at here
    obtain ⟨inner, last, split', p', held⟩ := held_of_parse? here legible isImport parsed detached
    rw [p'] at trace
    rw [split, split'] at refused ⊢
    exact ⟨_, .statement held (by simpa using refused) trace⟩

/-! ## What a trace leaves -/

namespace Trace

variable {p : Option Token} {ts : List Token} {got : Found} {ks : List Key}

theorem of_cons {key : Key} (trace : Trace p ts got (key :: ks)) (kw : key.1 ≠ .keyword)
    (ident : key.1 ≠ .ident) : ∃ t r, ts = t :: r ∧ t.key = key ∧ Trace (some t) r got ks := by
  generalize whole : key :: ks = all at trace
  cases trace with
  | done => cases whole
  | pass plain later =>
    cases whole
    exact ⟨_, _, rfl, rfl, later⟩
  | @call _ callee _ _ _ _ _ _ called later =>
    cases whole
    have none : loader? callee = none := loader?_of_kind kw ident
    rw [(call?_eq_some called).2.1] at none
    cases none
  | @statement _ _ _ _ _ stmt _ _ held static later =>
    obtain ⟨w, next, tl, -, fst, -⟩ := pieces_eq_cons held.sound stmt.target
    rw [fst] at whole
    cases whole
    exact absurd rfl kw

/-- **What a trace leaves loads only packages that were found.** -/
theorem loads {ns : List String} (trace : Trace p ts got ks) (listed : ∀ ref ∈ got.packages, ref.name ∈ ns) :
    Loads (Resolved ns) (p.any Token.selects) ks := by
  induction trace with
  | done p => trivial
  | @pass p t rest got ks plain later ih =>
    refine ⟨fun isImport free literal tl eq => ?_, ?_⟩
    · -- a call with a literal would not have been passed over
      subst eq
      obtain ⟨o, rest, rfl, opened, later⟩ := later.of_cons (by decide) (by decide)
      obtain ⟨arg, rest, rfl, string, -⟩ := later.of_cons (fun eq => by cases eq) (fun eq => by cases eq)
      have named : loader? t = some .dynamicImport := by
        obtain ⟨kind, s⟩ := key_eq isImport
        simp [loader?, Token.isKeyword, kind, s]
      have unselected : ¬ p.any Token.selects := by simp [free]
      have called := call?_of_loader? unselected (key_eq_mark.1 opened) named arg
      have isString : arg.kind = .string := congrArg Prod.fst string
      rw [plain o rfl arg rfl, if_pos isString] at called
      cases called
    · rw [selects_key]
      exact ih listed
  | @call p callee o arg rest loader got ks called later ih =>
    obtain ⟨free, named, mark, string⟩ := call?_eq_some called
    have behind : Loads (Resolved ns) false ks := by
      have free : arg.selects = false := by simp [Token.selects, Token.isPunct, string]
      rw [← free]
      exact ih fun ref mem => listed ref (mem_append_right _ mem)
    have rest : Loads (Resolved ns) callee.key.selects
        (o.key :: (.string, (rewrite? loader arg).getD arg.text) :: ks) := by
      rw [mark]
      refine .cons_of_ne (by decide) (.cons_of_ne (fun eq => by cases congrArg Prod.fst eq) ?_)
      exact behind
    refine ⟨fun isImport _ literal tl eq => ?_, rest⟩
    have dynamic : loader = .dynamicImport := by
      obtain ⟨kind, s⟩ := key_eq isImport
      rw [loader?, if_pos (by simp [Token.isKeyword, kind, s])] at named
      exact (Option.some.inj named).symm
    subst dynamic
    have argued : (rewrite? .dynamicImport arg).getD arg.text = literal :=
      congrArg Prod.snd (List.cons.inj (List.cons.inj eq).2).1
    rw [← argued]
    exact resolved_argument string fun ref mem =>
      listed ref (mem_append_left _ mem)
  | @statement p kw last inner rest stmt got ks held static later ih =>
    have fine : Resolved ns (Json.quote stmt.target) :=
      resolved_statement held.kept fun ref mem =>
        listed ref (mem_append_left _ mem)
    refine loads_pieces stmt.clause fine ?_
    rw [← held.free]
    exact ih fun ref mem => listed ref (mem_append_right _ mem)

theorem keys_eq (trace : Trace p ts got ks) (calls : onlyCalls p ts) : ks = rewriteCalls p ts := by
  induction trace with
  | done p => rfl
  | @pass p t r got ks plain later ih =>
    have behind := ih (onlyCalls_tail calls)
    match r with
    | [] => rw [behind]; rfl
    | [_] => rw [behind]; rfl
    | o :: arg :: r =>
      rw [rewriteCalls, plain o rfl arg rfl, behind]
  | call called later ih =>
    rw [rewriteCalls, called, ih (onlyCalls_tail (onlyCalls_tail (onlyCalls_tail calls)))]
  | statement held static later ih =>
    rw [static] at calls
    cases calls

end Trace

end Bindery.Import
