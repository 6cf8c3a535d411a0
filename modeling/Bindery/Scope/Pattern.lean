/-
Scope.Pattern -- what a binding pattern does

A binding pattern stands behind `const`, in a parameter list or in a `catch`.  It
is a name, or an object or array pattern with patterns, defaults and computed keys
inside.  Where a pattern ends does not depend on what is inside it
(`patternEnd`), so the reading of a pattern is a list of events: names it declares
and stretches of tokens whose identifiers it refers to.  A parameter list is read
as the inside of an array pattern.

Object and array patterns are lists of items.  `objectItem` and `arrayItem` read
one item: the events before its nested pattern, the index of that pattern, the
events of its default, and the index behind it.  An item always ends behind its
start, which bounds the recursion by the tokens that are left.
-/
import Bindery.Token.Brackets

namespace Bindery.Scope

inductive PatternEvent where
  | declare (name : String)
  /-- refer to the identifiers from one index up to another -/
  | refer (first stop : Nat)
  deriving Repr, DecidableEq

def opensPattern (token : Token) : Bool :=
  token.isPunct openBrace || token.isPunct "["

/-- The index behind the pattern at an index; the index itself when no pattern
stands there. -/
def patternEnd (seq : TokenSeq) (index : Nat) : Nat :=
  match seq.get? index with
  | none => index
  | some token =>
    if token.kind = .ident then index + 1
    else if opensPattern token then seq.skip index
    else index

/-- The index behind a default value: the next comma outside brackets, or `limit`. -/
def defaultEnd (seq : TokenSeq) (limit index : Nat) : Nat :=
  if index < limit then
    if seq.punctAt index "," then index else defaultEnd seq limit (seq.skip index)
  else index
  termination_by limit - index
  decreasing_by have := seq.lt_skip index; omega

/-- One item of an object or array pattern. -/
structure PatternItem where
  /-- what happens before the nested pattern is read -/
  leading : List PatternEvent := []
  /-- the index of the nested pattern -/
  nested : Option Nat := none
  /-- what the default value refers to -/
  trailing : List PatternEvent := []
  stop : Nat

/-- Add the default value that follows an item, if an equals sign does. -/
def PatternItem.withDefault (seq : TokenSeq) (limit : Nat) (item : PatternItem) : PatternItem :=
  if seq.punctAt item.stop "=" then
    let stop := defaultEnd seq limit (item.stop + 1)
    { item with trailing := [.refer (item.stop + 1) stop], stop := stop }
  else item

def objectEntry (seq : TokenSeq) (limit index : Nat) (token : Token) : PatternItem :=
  if token.isPunct "," then { stop := index + 1 }
  else if token.isPunct "..." then
    { nested := some (index + 1), stop := patternEnd seq (index + 1) }
  else if token.isPunct "[" then
    let close := (seq.closer? index).getD limit
    if seq.punctAt (close + 1) ":" then
      { leading := [.refer (index + 1) close], nested := some (close + 2),
        stop := patternEnd seq (close + 2) }
    else { leading := [.refer (index + 1) close], stop := close + 1 }
  else if seq.punctAt (index + 1) ":" then
    { nested := some (index + 2), stop := patternEnd seq (index + 2) }
  else if token.kind = .ident then { leading := [.declare token.text], stop := index + 1 }
  else { stop := index + 1 }

def objectItem (seq : TokenSeq) (limit index : Nat) (token : Token) : PatternItem :=
  (objectEntry seq limit index token).withDefault seq limit

def arrayEntry (seq : TokenSeq) (index : Nat) (token : Token) : PatternItem :=
  let start := if token.isPunct "..." then index + 1 else index
  let stop := patternEnd seq start
  { nested := some start, stop := if stop = index then index + 1 else stop }

def arrayItem (seq : TokenSeq) (limit index : Nat) (token : Token) : PatternItem :=
  if token.isPunct "," then { stop := index + 1 }
  else (arrayEntry seq index token).withDefault seq limit

/-! ## Items end behind their start -/

theorem le_patternEnd (seq : TokenSeq) (index : Nat) : index ≤ patternEnd seq index := by
  unfold patternEnd
  split
  · omega
  · have := seq.lt_skip index
    split
    · omega
    · split <;> omega

theorem le_defaultEnd (seq : TokenSeq) (limit index : Nat) :
    index ≤ defaultEnd seq limit index := by
  fun_induction defaultEnd seq limit index with
  | case1 => omega
  | case2 index _ _ ih => have := seq.lt_skip index; omega
  | case3 => omega

theorem PatternItem.le_stop_withDefault (seq : TokenSeq) (limit : Nat) (item : PatternItem) :
    item.stop ≤ (item.withDefault seq limit).stop := by
  unfold withDefault
  split
  · have := le_defaultEnd seq limit (item.stop + 1)
    simp only
    omega
  · omega

theorem PatternItem.nested_withDefault (seq : TokenSeq) (limit : Nat) (item : PatternItem) :
    (item.withDefault seq limit).nested = item.nested := by
  unfold withDefault
  split <;> rfl

theorem lt_stop_objectEntry (seq : TokenSeq) {limit index : Nat} (inside : index < limit)
    (token : Token) : index < (objectEntry seq limit index token).stop := by
  have behind := le_patternEnd seq (index + 1)
  have value := le_patternEnd seq (index + 2)
  have close : index < (seq.closer? index).getD limit := by
    cases found : seq.closer? index with
    | none => simpa using inside
    | some close => simpa using TokenSeq.lt_closer found
  have computed := le_patternEnd seq ((seq.closer? index).getD limit + 2)
  unfold objectEntry
  simp only
  repeat' split
  all_goals first | (simp only; omega)

theorem lt_stop_objectItem (seq : TokenSeq) {limit index : Nat} (inside : index < limit)
    (token : Token) : index < (objectItem seq limit index token).stop :=
  Nat.lt_of_lt_of_le (lt_stop_objectEntry seq inside token)
    (PatternItem.le_stop_withDefault seq limit _)

theorem le_nested_objectItem (seq : TokenSeq) {limit index start : Nat} (inside : index < limit)
    (token : Token) (found : (objectItem seq limit index token).nested = some start) :
    index ≤ start := by
  have close : index < (seq.closer? index).getD limit := by
    cases found : seq.closer? index with
    | none => simpa using inside
    | some close => simpa using TokenSeq.lt_closer found
  rw [objectItem, PatternItem.nested_withDefault] at found
  unfold objectEntry at found
  simp only at found
  repeat' split at found
  all_goals simp at found
  all_goals omega

theorem lt_stop_arrayItem (seq : TokenSeq) (limit index : Nat) (token : Token) :
    index < (arrayItem seq limit index token).stop := by
  unfold arrayItem
  split
  · simp
  · refine Nat.lt_of_lt_of_le ?_ (PatternItem.le_stop_withDefault seq limit _)
    have here := le_patternEnd seq index
    have behind := le_patternEnd seq (index + 1)
    unfold arrayEntry
    simp only
    split <;> split <;> omega

theorem le_nested_arrayItem (seq : TokenSeq) {limit index start : Nat} (token : Token)
    (found : (arrayItem seq limit index token).nested = some start) : index ≤ start := by
  unfold arrayItem at found
  split at found
  · simp at found
  · rw [PatternItem.nested_withDefault] at found
    unfold arrayEntry at found
    simp only [Option.some.injEq] at found
    split at found <;> omega

/-! ## Reading a pattern -/

inductive PatternShape where
  | object
  | array
  deriving Repr, DecidableEq

def patternItem (shape : PatternShape) (seq : TokenSeq) (limit index : Nat) (token : Token) :
    PatternItem :=
  match shape with
  | .object => objectItem seq limit index token
  | .array => arrayItem seq limit index token

theorem lt_stop_patternItem (shape : PatternShape) (seq : TokenSeq) {limit index : Nat}
    (inside : index < limit) (token : Token) :
    index < (patternItem shape seq limit index token).stop := by
  cases shape
  · exact lt_stop_objectItem seq inside token
  · exact lt_stop_arrayItem seq limit index token

theorem le_nested_patternItem (shape : PatternShape) (seq : TokenSeq) {limit index start : Nat}
    (inside : index < limit) (token : Token)
    (found : (patternItem shape seq limit index token).nested = some start) : index ≤ start := by
  cases shape
  · exact le_nested_objectItem seq inside token found
  · exact le_nested_arrayItem seq token found

mutual

def patternEvents (seq : TokenSeq) (index : Nat) : List PatternEvent :=
  match _found : seq.get? index with
  | none => []
  | some token =>
    if token.kind = .ident then [.declare token.text]
    else if opensPattern token then
      match seq.closer? index with
      | none => []
      | some close =>
        itemEvents (if token.isPunct openBrace then .object else .array) seq close (index + 1)
    else []
  termination_by 2 * (seq.size - index)
  decreasing_by
    have := TokenSeq.lt_of_get? _found
    omega

def itemEvents (shape : PatternShape) (seq : TokenSeq) (limit index : Nat) : List PatternEvent :=
  match _found : seq.get? index with
  | none => []
  | some token =>
    if _inside : index < limit then
      let item := patternItem shape seq limit index token
      let inner := match _nested : (patternItem shape seq limit index token).nested with
        | none => []
        | some start => patternEvents seq start
      item.leading ++ inner ++ item.trailing ++ itemEvents shape seq limit item.stop
    else []
  termination_by 2 * (seq.size - index) + 1
  decreasing_by
    · have := le_nested_patternItem shape seq _inside token _nested
      omega
    · have := TokenSeq.lt_of_get? _found
      have := lt_stop_patternItem shape seq _inside token
      omega

end

def parameterEvents (seq : TokenSeq) (opener closer : Nat) : List PatternEvent :=
  itemEvents .array seq closer (opener + 1)

end Bindery.Scope
