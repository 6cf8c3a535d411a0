/-
Sorted -- ascending lists as sets and as tables

A set is a list in strictly ascending order, and a table is a list of entries with
strictly ascending keys.  Both have one form for one content, so a set or table can
be written out in its own order.  Names are compared character by character, by
code point.

* `Sorted.mem_insert`, `Sorted.mem_ofList`: what a set holds;
* `Table.find?_insert`: what a table says after an entry was put in.
-/

namespace Bindery

namespace Sorted

variable {α : Type} [LT α] [DecidableLT α] [DecidableEq α]

def insert (item : α) : List α → List α
  | [] => [item]
  | first :: rest =>
    if item = first then first :: rest
    else if item < first then item :: first :: rest
    else first :: insert item rest

def ofList (items : List α) : List α :=
  items.foldl (fun set item => insert item set) []

theorem mem_insert {item other : α} {set : List α} :
    other ∈ insert item set ↔ other = item ∨ other ∈ set := by
  induction set with
  | nil => simp [insert]
  | cons first rest ih =>
    unfold insert
    split
    · rename_i same
      subst same
      simp
    · split
      · simp
      · simp only [List.mem_cons, ih]
        exact or_left_comm

theorem mem_foldl_insert {other : α} (items set : List α) :
    other ∈ items.foldl (fun set item => insert item set) set ↔ other ∈ set ∨ other ∈ items := by
  induction items generalizing set with
  | nil => simp
  | cons item rest ih =>
    rw [List.foldl_cons, ih, mem_insert, List.mem_cons, or_assoc, or_left_comm]

theorem mem_ofList {other : α} {items : List α} : other ∈ ofList items ↔ other ∈ items := by
  simp [ofList, mem_foldl_insert]

end Sorted

abbrev NameSet := List String

abbrev Table (κ α : Type) := List (κ × α)

abbrev NameMap (α : Type) := Table String α

namespace Table

variable {κ α : Type} [LT κ] [DecidableLT κ] [DecidableEq κ]

/-- The table with an entry put in; it replaces the entry of the same key. -/
def insert (key : κ) (value : α) : Table κ α → Table κ α
  | [] => [(key, value)]
  | (first, old) :: rest =>
    if key = first then (key, value) :: rest
    else if key < first then (key, value) :: (first, old) :: rest
    else (first, old) :: Table.insert key value rest

def find? (key : κ) : Table κ α → Option α
  | [] => none
  | (first, value) :: rest => if key = first then some value else Table.find? key rest

/-- The table of a list of entries; of two with one key the later counts. -/
def ofList (entries : List (κ × α)) : Table κ α :=
  entries.foldl (fun table entry => Table.insert entry.1 entry.2 table) []

theorem find?_insert {key other : κ} {value : α} {table : Table κ α} :
    find? other (insert key value table) =
      if other = key then some value else find? other table := by
  induction table with
  | nil => simp [insert, find?]
  | cons entry rest ih =>
    obtain ⟨first, old⟩ := entry
    unfold insert
    split
    · rename_i same
      subst same
      by_cases here : other = key <;> simp [find?, here]
    · rename_i different
      split
      · simp [find?]
      · simp only [find?, ih]
        by_cases here : other = first
        · subst here
          simp [Ne.symm different]
        · simp [here]

end Table

end Bindery
