/-
Proofs.Import.Moved -- imports behind a gap

A gap in front of a cell moves its tokens.  The scan then finds the same packages and the
same local names, and each of its edits is moved with the tokens it replaces
(`scanFrom_movedBy`).
-/
import Bindery.Import.Scan
import Bindery.Proofs.Token.Moved

namespace Bindery

open TokenSeq Token Text Option

variable {seq : TokenSeq} {i : Nat}

def Text.Edit.moved (bs : Nat) (edit : Edit) : Edit :=
  { edit with start := edit.start + bs, stop := edit.stop + bs }

namespace Import

def Found.moved (bs : Nat) (found : Found) : Found :=
  { found with edits := found.edits.map (Edit.moved bs) }

def Statement.moved (bs : Nat) (statement : Statement) : Statement :=
  { statement with stop := statement.stop + bs }

theorem Found.moved_append (bs : Nat) (fst later : Found) :
    (fst.append later).moved bs = (fst.moved bs).append (later.moved bs) := by
  simp [Found.moved, Found.append]

/-! ## Bindings -/

section Bindings

variable (bs : Nat) (ts : List Token)

theorem splitAtCommas_moved : splitAtCommas (ts.map (Token.moved bs false)) =
    (splitAtCommas ts).map (List.map (Token.moved bs false)) := by
  induction ts with
  | nil => rfl
  | cons t r ih =>
    rw [List.map_cons, splitAtCommas, splitAtCommas, moved_isPunct, ih]
    split
    · rfl
    · cases splitAtCommas r <;> rfl

theorem parseNamed?_moved (part : List Token) :
    parseNamed? (part.map (Token.moved bs false)) = parseNamed? part := by
  match part with
  | [] | [_] | [_, _] | [_, _, _] | _ :: _ :: _ :: _ :: _ => rfl

theorem parseBindings?_moved : parseBindings? (ts.map (Token.moved bs false)) = parseBindings? ts := by
  have eq : parseNamed? ∘ List.map (moved bs false) = parseNamed? := funext (parseNamed?_moved bs)
  rw [parseBindings?, parseBindings?, splitAtCommas_moved, List.mapM_map, eq]

end Bindings

/-! ## Statements -/

section Statements

variable (bs : Nat) (l : Bool) (ts : List Token)

theorem tokensBetween_movedBy (fst stop : Nat) :
    tokensBetween (.ofList (movedBy bs l ts)) (fst + 1) stop =
      (tokensBetween (.ofList ts) (fst + 1) stop).map (Token.moved bs false) := by
  unfold tokensBetween ofList
  cases ts with
  | nil => simp [movedBy]
  | cons t r =>
    cases stop with
    | zero => simp
    | succ stop => simp [movedBy, List.map_take, List.map_drop]

theorem parseDefault_movedBy (i : Nat) :
    parseDefault (.ofList (movedBy bs l ts)) i = parseDefault (.ofList ts) i := by
  unfold parseDefault
  rw [filter_movedBy bs l ts i fun _ _ => rfl, punctAt_movedBy]
  cases ((ofList ts).get? i).filter _ <;> rfl

theorem parseGroup?_movedBy (i : Nat) (n : Option String) :
    parseGroup? (.ofList (movedBy bs l ts)) i n = parseGroup? (.ofList ts) i n := by
  unfold parseGroup?
  rw [punctAt_movedBy, punctAt_movedBy, closer?_movedBy,
    holds_movedBy bs l ts (i + 1) fun _ _ => rfl,
    filter_movedBy bs l ts (i + 2) fun _ _ => rfl, map_map]
  simp only [tokensBetween_movedBy, parseBindings?_moved]
  rfl

theorem parseClause?_movedBy (i : Nat) :
    parseClause? (.ofList (movedBy bs l ts)) i = parseClause? (.ofList ts) i := by
  unfold parseClause?
  rw [holds_movedBy bs l ts i fun _ _ => rfl, parseDefault_movedBy]
  dsimp only
  rw [parseGroup?_movedBy]
  have linked (next : Nat) : (ofList (movedBy bs l ts)).holds next
      (·.isIdent "from") = (ofList ts).holds next (·.isIdent "from") :=
    holds_movedBy bs l ts next fun _ _ => rfl
  simp only [linked]

theorem afterAttributes_movedBy (stop i : Nat) :
    afterAttributes (.ofList (movedBy bs l ts)) (stop + bs) i =
      ((afterAttributes (.ofList ts) stop i).1 + bs, (afterAttributes (.ofList ts) stop i).2) := by
  unfold afterAttributes
  rw [holds_movedBy bs l ts i fun _ _ => rfl, punctAt_movedBy, closer?_movedBy]
  split
  · next close _ =>
    rw [get?_movedBy]
    cases (ofList ts).get? close <;> rfl
  · rfl

theorem afterSemicolon_movedBy (stop i : Nat) :
    afterSemicolon (.ofList (movedBy bs l ts)) (stop + bs) i =
      ((afterSemicolon (.ofList ts) stop i).1 + bs, (afterSemicolon (.ofList ts) stop i).2) := by
  unfold afterSemicolon
  rw [filter_movedBy bs l ts i fun _ _ => rfl]
  cases ((ofList ts).get? i).filter _ <;> rfl

theorem parse?_movedBy (i : Nat) :
    parse? (.ofList (movedBy bs l ts)) i = (parse? (.ofList ts) i).map (Statement.moved bs) := by
  unfold parse?
  rw [parseClause?_movedBy]
  cases parseClause? (ofList ts) (i + 1) with
  | none => rfl
  | some ps =>
    obtain ⟨clause, position⟩ := ps
    simp only [bind_some]
    rw [filter_movedBy bs l ts position fun _ _ => rfl]
    cases ((ofList ts).get? position).filter (·.kind == .string) with
    | none => rfl
    | some t =>
      simp only [map_some, bind_some, moved_stringValue?, moved_stop, statementEnd,
        afterAttributes_movedBy, afterSemicolon_movedBy]
      cases t.stringValue? <;> rfl

end Statements

/-! ## The scan -/

theorem callArgument_moved (bs : Nat) (l : Bool) (loader : Loader) (arg : Token) :
    callArgument loader (arg.moved bs l) = (callArgument loader arg).moved bs := by
  unfold callArgument
  rw [moved_stringValue?]
  split
  · rfl
  · split
    · simp [Found.moved, Edit.moved]
    · rfl

theorem ofStatement_moved (bs start : Nat) (stmt : Statement) :
    ofStatement (start + bs) (stmt.moved bs) = (ofStatement start stmt).moved bs := by
  unfold ofStatement Statement.moved
  dsimp only
  split <;> rfl

theorem argumentAt?_movedBy (bs : Nat) (l : Bool) (ts : List Token) (i : Nat) :
    argumentAt? (.ofList (movedBy bs l ts)) i =
      (argumentAt? (.ofList ts) i).map (Token.moved bs (l && i == 0)) :=
  filter_movedBy bs l ts i fun _ _ => rfl

theorem elim_argumentAt?_movedBy (bs : Nat) (l : Bool) (ts : List Token) (loader : Loader) (i : Nat) :
    (argumentAt? (.ofList (movedBy bs l ts)) i).elim {} (callArgument loader) =
      ((argumentAt? (.ofList ts) i).elim {} (callArgument loader)).moved bs := by
  rw [argumentAt?_movedBy]
  cases argumentAt? ts i with
  | none => rfl
  | some arg => exact callArgument_moved bs _ loader arg

theorem scanFrom_of_none (missing : seq.get? i = none) :
    scanFrom seq i = .ok {} := by
  rw [scanFrom]
  split
  · rfl
  · next got =>
    rw [missing] at got
    cases got

theorem scanFrom_of_some {t : Token}
    (here : seq.get? i = some t) :
    scanFrom seq i =
      if seq.prevHolds i Token.selects then scanFrom seq (i + 1)
      else if t.isKeyword "import" then
        if seq.punctAt (i + 1) "(" then
          (scanFrom seq (i + 2)).map
            (((argumentAt? seq (i + 2)).elim {} (callArgument .dynamicImport)).append)
        else if seq.punctAt (i + 1) "." then scanFrom seq (i + 2)
        else (parse? seq i).elim (.error t.start) fun stmt =>
          (scanFrom seq stmt.next).map ((ofStatement t.start stmt).append)
      else if t.isIdent "require" ∧ seq.punctAt (i + 1) "(" then
        (argumentAt? seq (i + 2)).elim (scanFrom seq (i + 1)) fun arg =>
          (scanFrom seq (i + 3)).map ((callArgument .require arg).append)
      else scanFrom seq (i + 1) := by
  conv => lhs; rw [scanFrom]
  split
  · next missing =>
    rw [here] at missing
    cases missing
  · next got =>
    rw [here] at got
    cases got
    refine ite_congr rfl (fun _ => rfl) fun _ => ite_congr rfl (fun _ => ?_) fun _ => ?_
    · refine ite_congr rfl (fun _ => rfl) fun _ => ite_congr rfl (fun _ => rfl) fun _ => ?_
      split
      · next failed => rw [failed]; rfl
      · next parsed => rw [parsed]; rfl
    · refine ite_congr rfl (fun _ => ?_) fun _ => rfl
      cases argumentAt? seq (i + 2) <;> rfl

/-- **The scan finds the same imports behind a gap**, at their new places. -/
theorem scanFrom_movedBy (bs : Nat) (l : Bool) (ts : List Token) (i : Nat) :
    ∀ {got : Found}, scanFrom (.ofList ts) i = .ok got →
      scanFrom (.ofList (movedBy bs l ts)) i = .ok (got.moved bs) := by
  have selects (i : Nat) := prevHolds_movedBy bs l ts i
    (fun _ _ => rfl : ∀ l t, (moved bs l t).selects = t.selects)
  have moved {i : Nat} {t : Token}
      (here : (ofList ts).get? i = some t) :
      (ofList (movedBy bs l ts)).get? i =
        some (t.moved bs (l && i == 0)) := by
    rw [get?_movedBy, here, map_some]
  intro got scanned
  fun_induction scanFrom (ofList ts) i generalizing got with
  | case1 i here =>
    cases scanned
    exact scanFrom_of_none (by rw [get?_movedBy, here, map_none])
  | case2 i t here selected ih =>
    rw [scanFrom_of_some (moved here), selects, if_pos selected]
    exact ih scanned
  | case3 i t here selected isImport opened ih =>
    obtain ⟨later, scanned', rfl⟩ := Except.map_eq_ok.1 scanned
    rw [scanFrom_of_some (moved here), selects, if_neg selected, moved_isKeyword,
      if_pos isImport, punctAt_movedBy, if_pos opened, ih scanned',
      elim_argumentAt?_movedBy, Found.moved_append]
    rfl
  | case4 i t here selected isImport opened dotted ih =>
    rw [scanFrom_of_some (moved here), selects, if_neg selected, moved_isKeyword,
      if_pos isImport, punctAt_movedBy, if_neg opened, punctAt_movedBy,
      if_pos dotted]
    exact ih scanned
  | case5 i t here selected isImport opened dotted failed => cases scanned
  | case6 i t here selected isImport opened dotted stmt parsed ih =>
    obtain ⟨later, scanned', rfl⟩ := Except.map_eq_ok.1 scanned
    rw [scanFrom_of_some (moved here), selects, if_neg selected, moved_isKeyword,
      if_pos isImport, punctAt_movedBy, if_neg opened, punctAt_movedBy,
      if_neg dotted, parse?_movedBy, parsed, map_some, elim_some, moved_start,
      ofStatement_moved, Found.moved_append]
    exact congrArg (Except.map _) (ih scanned')
  | case7 i t here selected notImport isRequire arg called ih =>
    obtain ⟨later, scanned', rfl⟩ := Except.map_eq_ok.1 scanned
    rw [scanFrom_of_some (moved here), selects, if_neg selected, moved_isKeyword,
      if_neg notImport, moved_isIdent, punctAt_movedBy, if_pos isRequire,
      argumentAt?_movedBy, called, map_some, elim_some, callArgument_moved,
      Found.moved_append]
    exact congrArg (Except.map _) (ih scanned')
  | case8 i t here selected notImport isRequire unnamed ih =>
    rw [scanFrom_of_some (moved here), selects, if_neg selected, moved_isKeyword,
      if_neg notImport, moved_isIdent, punctAt_movedBy, if_pos isRequire,
      argumentAt?_movedBy, unnamed, map_none, elim_none]
    exact ih scanned
  | case9 i t here selected notImport notRequire ih =>
    rw [scanFrom_of_some (moved here), selects, if_neg selected, moved_isKeyword,
      if_neg notImport, moved_isIdent, punctAt_movedBy, if_neg notRequire]
    exact ih scanned

end Import

end Bindery
