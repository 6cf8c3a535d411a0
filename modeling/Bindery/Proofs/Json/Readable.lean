/-
Proofs.Json.Readable -- the values that the reader makes

A value that is read from a text has objects with distinct names, integers of 64 bits and
containers nested no deeper than is allowed (`Readable`); `readable_of_parse?` says so of every
text.
-/
import Bindery.Proofs.Json.Scalar

namespace Bindery.Json

open List Option

variable {double : Double} {ms : Members} {v : Value} {n : String} {gathered : Gathered} {s : List Char}

/-- A value whose containers are nested at most `d` deep and can all be read, with a
condition on its doubles. -/
inductive Readable (P : Double → Prop) : Nat → Value → Prop
  | null {d : Nat} : Readable P d .null
  | bool {d : Nat} (v : Bool) : Readable P d (.bool v)
  | integer {d : Nat} {v : Int} (isWord : Number.IsWord v) :
      Readable P d (.number (.integer v))
  | double {d : Nat} {v : Double} (holds : P v) : Readable P d (.number (.double v))
  | string {d : Nat} (v : String) : Readable P d (.string v)
  | array {d : Nat} {items : List Value} (all : ∀ item ∈ items, Readable P d item) :
      Readable P (d + 1) (.array items)
  | object {d : Nat} {ms : Members} (distinct : (ms.map Prod.fst).Nodup)
      (all : ∀ member ∈ ms, Readable P d member.2) : Readable P (d + 1) (.object ms)

/-! ## Doubles -/

mutual

def Value.doubles : Value → List Double
  | .null => []
  | .bool _ => []
  | .number (.integer _) => []
  | .number (.double v) => [v]
  | .string _ => []
  | .array items => itemDoubles items
  | .object ms => memberDoubles ms

def itemDoubles : List Value → List Double
  | [] => []
  | item :: rest => item.doubles ++ itemDoubles rest

def memberDoubles : List (String × Value) → List Double
  | [] => []
  | (_, v) :: rest => v.doubles ++ memberDoubles rest

end

theorem mem_itemDoubles {item : Value} {items : List Value} (mem : item ∈ items)
    (got : double ∈ item.doubles) : double ∈ itemDoubles items := by
  induction items with
  | nil => cases mem
  | cons fst items ih =>
    rw [itemDoubles, mem_append]
    rcases mem_cons.1 mem with rfl | mem
    · exact .inl got
    · exact .inr (ih mem)

theorem mem_memberDoubles {item : String × Value} (mem : item ∈ ms)
    (got : double ∈ item.2.doubles) : double ∈ memberDoubles ms := by
  induction ms with
  | nil => cases mem
  | cons fst ms ih =>
    rw [memberDoubles, mem_append]
    rcases mem_cons.1 mem with rfl | mem
    · exact .inl got
    · exact .inr (ih mem)

theorem Readable.of_doubles {P : Double → Prop} {d : Nat} (readable : Readable (fun _ => True) d v)
    (holds : ∀ double ∈ v.doubles, P double) : Readable P d v := by
  induction readable with
  | null => exact .null
  | bool v => exact .bool v
  | integer isWord => exact .integer isWord
  | double => exact .double (holds _ mem_cons_self)
  | string v => exact .string v
  | array all ih =>
    exact .array fun item mem => ih item mem fun double got =>
      holds double (mem_itemDoubles mem got)
  | object nodup all ih =>
    exact .object nodup fun item mem => ih item mem fun double got =>
      holds double (mem_memberDoubles mem got)

/-! ## Members -/

structure ReadableMembers (P : Double → Prop) (d : Nat) (ms : Members) : Prop where
  distinct : (ms.map Prod.fst).Nodup
  all : ∀ member ∈ ms, Readable P d member.2

theorem Members.mem_insert {mem : String × Value} (got : mem ∈ ms.insert n v) : mem = (n, v) ∨ mem ∈ ms := by
  induction ms with
  | nil => exact .inl (mem_singleton.1 got)
  | cons fst ms ih =>
    unfold insert at got
    split at got
    · next eq =>
      rcases mem_cons.1 got with rfl | got
      · exact .inl (by rw [eq])
      · exact .inr (.tail _ got)
    · rcases mem_cons.1 got with rfl | got
      · exact .inr mem_cons_self
      · exact (ih got).imp_right (mem_cons_of_mem _)

theorem Members.insert_of_not_mem (unknown : n ∉ ms.map Prod.fst) : ms.insert n v = ms ++ [(n, v)] := by
  induction ms with
  | nil => rfl
  | cons mem ms ih =>
    rw [map_cons, mem_cons, not_or] at unknown
    rw [Members.insert, if_neg unknown.1, ih unknown.2, cons_append]

theorem Members.not_mem_of_find? (absent : ms.find? n = none) : n ∉ ms.map Prod.fst := by
  induction ms with
  | nil => exact not_mem_nil
  | cons mem ms ih =>
    unfold find? at absent
    split at absent
    · cases absent
    · next different =>
      rw [map_cons, mem_cons, not_or]
      exact ⟨different, ih absent⟩

section Members

variable {P : Double → Prop} {d : Nat}

theorem Members.nodup_insert (nodup : (ms.map Prod.fst).Nodup) : ((ms.insert n v).map Prod.fst).Nodup := by
  induction ms with
  | nil => exact nodup_cons.2 ⟨not_mem_nil, nodup_nil⟩
  | cons fst ms ih =>
    rw [map_cons, nodup_cons] at nodup
    unfold insert
    split
    · exact nodup_cons.2 nodup
    · next different =>
      refine nodup_cons.2 ⟨fun known => ?_, ih nodup.2⟩
      obtain ⟨mem, got, eq⟩ := List.mem_map.1 known
      rcases Members.mem_insert got with rfl | got
      · exact different eq
      · exact nodup.1 (List.mem_map.2 ⟨mem, got, eq⟩)

theorem ReadableMembers.nil : ReadableMembers P d [] := ⟨nodup_nil, nofun⟩

section

variable (readable : ReadableMembers P d ms)
include readable

theorem ReadableMembers.insert (n : String) (fits : Readable P d v) : ReadableMembers P d (ms.insert n v) := by
  refine ⟨Members.nodup_insert readable.distinct, fun mem got => ?_⟩
  rcases Members.mem_insert got with rfl | got
  · exact fits
  · exact readable.all mem got

theorem ReadableMembers.insertIfAbsent (n : String)
    (fits : Readable P d v) : ReadableMembers P d (ms.insertIfAbsent n v) := by
  unfold Members.insertIfAbsent
  split
  · exact readable
  · next absent =>
    rw [Bool.not_eq_true, isSome_eq_false_iff, isNone_iff_eq_none] at absent
    rw [← Members.insert_of_not_mem (Members.not_mem_of_find? absent)]
    exact readable.insert n fits

theorem ReadableMembers.object : Readable P (d + 1) (.object ms) := .object readable.distinct readable.all

end

theorem ReadableMembers.of_object (readable : Readable P (d + 1) (.object ms)) : ReadableMembers P d ms := by
  cases readable with
  | object nodup all => exact ⟨nodup, all⟩

end Members

/-! ## Scalars -/

theorem digits_gather (fits : gathered.digits < digitBound) (run : List Char) :
    (gather gathered run).digits < digitBound := by
  induction run generalizing gathered with
  | nil => exact fits
  | cons c run ih =>
    unfold gather
    dsimp only
    split
    · next taken => exact ih taken.2
    · exact ih fits

theorem isWord_of_integerNumber? {negative : Bool} {v : Int} (fits : gathered.digits < digitBound)
    (read : integerNumber? negative gathered = some (.integer v)) : Number.IsWord v := by
  have bound : digitBound = 18446744073709551616 := rfl
  have half : Nat.pow 2 63 = 9223372036854775808 := rfl
  unfold Number.IsWord
  unfold integerNumber? at read
  split at read
  · split at read
    · split at read
      · obtain ⟨_, -, ⟨⟩⟩ := map_eq_some_iff.1 read
      · next inside =>
        cases read
        omega
    · cases read
      omega
  · obtain ⟨_, -, ⟨⟩⟩ := map_eq_some_iff.1 read

theorem isWord_of_number? {r : List Char} {v : Int}
    (read : Gives (number? s) (.integer v) r) : Number.IsWord v := by
  have magnitude {negative : Bool} {s : List Char}
      (read : Gives (magnitude? negative s) (.integer v) r) : Number.IsWord v := by
    obtain ⟨run, _, fraction, _, exponent, -, -, -, got⟩ := magnitude?_iff.1 read
    unfold numberOf? at got
    split at got
    · exact isWord_of_integerNumber? (digits_gather (by decide) run) got
    · obtain ⟨_, -, ⟨⟩⟩ := map_eq_some_iff.1 got
  by_cases minus : s.head? = some '-'
  · obtain ⟨tl, rfl⟩ := List.head?_eq_some_iff.1 minus
    exact magnitude (number?_minus.1 read)
  · exact magnitude ((number?_plain minus).1 read)

theorem readable_of_scalar? (d : Nat) {got : Value × Shorter s}
    (read : scalar? s = some got) : Readable (fun _ => True) d got.1 := by
  have word {word : List Char} {v : Value} (read : word? word v s = some got) :
      got.1 = v := by
    unfold word? at read
    split at read
    · cases read
      rfl
    · cases read
  unfold scalar? at read
  split at read
  · obtain ⟨_, -, rfl⟩ := map_eq_some_iff.1 read
    exact .string _
  · exact word read ▸ .bool true
  · exact word read ▸ .bool false
  · exact word read ▸ .null
  · obtain ⟨⟨number, r, less⟩, inside, rfl⟩ := map_eq_some_iff.1 read
    cases number with
    | integer v => exact .integer (isWord_of_number? ⟨less, inside⟩)
    | double v => exact .double trivial

/-! ## Containers -/

def ReadsReadable (d : Nat) : Prop :=
  ∀ (s : List Char) (found : Value × Shorter s), value? d s = some found →
    Readable (fun _ => True) d found.1

section Containers

variable {d : Nat} (values : ReadsReadable d)

include values

theorem readable_of_items? (s : List Char) (got : List Value × Shorter s)
    (read : items? d s = some got) : ∀ item ∈ got.1, Readable (fun _ => True) d item := by
  unfold items? at read
  split at read
  · cases read
  · next fst r here =>
    have fits := values s _ here
    split at read
    · cases read
      intro item mem
      exact mem_singleton.1 mem ▸ fits
    · split at read
      · cases read
      · next more comma =>
        obtain ⟨later, after, rfl⟩ := map_eq_some_iff.1 read
        have less : more.val.length < s.length := Nat.lt_trans more.2 r.2
        have all := readable_of_items? more.val later after
        intro item mem
        rcases mem_cons.1 mem with rfl | mem
        · exact fits
        · exact all item mem
  termination_by s.length

theorem readable_of_members? (s : List Char) (p : Members) (got : Members × Shorter s)
    (start : ReadableMembers (fun _ => True) d p) (read : members? d p s = some got) :
    ReadableMembers (fun _ => True) d got.1 := by
  unfold members? at read
  split at read
  · cases read
  · next name afterColon named =>
    split at read
    · cases read
    · next v r here =>
      have grown := start.insert name (values afterColon.val _ here)
      dsimp only at read
      split at read
      · cases read
        exact grown
      · split at read
        · cases read
        · next more comma =>
          obtain ⟨later, after, rfl⟩ := map_eq_some_iff.1 read
          have less : more.val.length < s.length := Nat.lt_trans more.2 (Nat.lt_trans r.2 afterColon.2)
          exact readable_of_members? more.val _ later grown after
  termination_by s.length

end Containers

theorem readsReadable (d : Nat) : ReadsReadable d := by
  induction d with
  | zero =>
    intro s got read
    unfold value? at read
    split at read
    · cases read
    · next c r eq =>
      dsimp only at read
      split at read
      · cases read
      · split at read
        · cases read
        · obtain ⟨v, scalar, rfl⟩ := map_eq_some_iff.1 read
          have fits := readable_of_scalar? 0 scalar
          exact fits
  | succ d ih =>
    intro s got read
    unfold value? at read
    split at read
    · cases read
    · next c r eq =>
      dsimp only at read
      split at read
      · split at read
        · cases read
          exact .array fun item mem => absurd mem not_mem_nil
        · obtain ⟨items, inside, rfl⟩ := map_eq_some_iff.1 read
          exact .array (readable_of_items? ih r items inside)
      · split at read
        · split at read
          · cases read
            exact .object nodup_nil fun item mem => absurd mem not_mem_nil
          · obtain ⟨ms, inside, rfl⟩ := map_eq_some_iff.1 read
            exact (readable_of_members? ih r [] ms .nil inside).object
        · obtain ⟨v, scalar, rfl⟩ := map_eq_some_iff.1 read
          have fits := readable_of_scalar? (d + 1) scalar
          exact fits

/-- **Every value that is read from a text is readable.** -/
theorem readable_of_parse? {s : String} (read : parse? s = some v) : Readable (fun _ => True) maxDepth v := by
  unfold parse? at read
  split at read
  · cases read
  · next got =>
    split at read
    · cases read
      exact readsReadable maxDepth _ _ got
    · cases read

end Bindery.Json
