/-
Proofs.Table -- the order of sets and tables

A set of names has one form for one content (`Sorted.eq_of_mem`).  A table is kept in the
order of its names: an entry that is put in goes where its name belongs
(`Ascending.insert`), so no name is there twice (`Ascending.nodup`).
-/
import Bindery.Sorted

namespace Bindery

open List

namespace Sorted

variable {α : Type} [LT α] [LE α] [Std.LawfulOrderLT α] {set other : List α} {key : String}

theorem nodup_of_pairwise (ascending : set.Pairwise (· < ·)) : set.Nodup := by
  refine ascending.imp fun less => ?_
  rintro rfl
  exact Std.lt_irrefl less

variable [Std.IsLinearOrder α]

/-- **A set has one form for one content.** -/
theorem eq_of_mem (ascending : set.Pairwise (· < ·)) (ascending' : other.Pairwise (· < ·))
    (eq : ∀ item, item ∈ set ↔ item ∈ other) : set = other := by
  refine Perm.eq_of_pairwise (fun a b _ _ less r => ?_) ascending ascending' ?_
  · exact absurd (Std.lt_trans less r) Std.lt_irrefl
  · exact (perm_ext_iff_of_nodup (nodup_of_pairwise ascending) (nodup_of_pairwise ascending')).2 eq

variable [DecidableLT α] [DecidableEq α]

theorem pairwise_insert (ascending : set.Pairwise (· < ·)) (item : α) : (insert item set).Pairwise (· < ·) := by
  induction set with
  | nil => exact pairwise_singleton _ _
  | cons fst r ih =>
    obtain ⟨below, later⟩ := pairwise_cons.1 ascending
    unfold insert
    split
    · exact ascending
    · next different =>
      split
      · next less =>
        refine pairwise_cons.2 ⟨fun other mem => ?_, ascending⟩
        rcases mem_cons.1 mem with rfl | mem
        · exact less
        · exact Std.lt_trans less (below other mem)
      · next notLess =>
        refine pairwise_cons.2 ⟨fun other mem => ?_, ih later⟩
        rcases mem_insert.1 mem with rfl | inside
        · exact Classical.not_not.1 fun notAbove =>
            different (Std.le_antisymm (Std.not_lt.1 notAbove) (Std.not_lt.1 notLess))
        · exact below other inside

theorem pairwise_ofList (items : List α) : (ofList items).Pairwise (· < ·) := by
  refine foldlRecOn items _ Pairwise.nil ?_
  exact fun set ascending item _ => pairwise_insert ascending item

end Sorted

namespace Table

variable {α : Type} {v : α} {table : NameMap α}

theorem mem_of_mem_insert {e : String × α} (mem : e ∈ Table.insert key v table) : e = (key, v) ∨ e ∈ table := by
  induction table with
  | nil => exact .inl (mem_singleton.1 mem)
  | cons fst r ih =>
    obtain ⟨n, old⟩ := fst
    unfold insert at mem
    split at mem
    · rcases mem_cons.1 mem with eq | mem
      · exact .inl eq
      · exact .inr (.tail _ mem)
    · split at mem
      · exact mem_cons.1 mem
      · rcases mem_cons.1 mem with eq | mem
        · exact .inr (eq ▸ mem_cons_self)
        · exact (ih mem).imp id (mem_cons_of_mem _)

theorem mem_of_mem_foldl_insert {e : String × α} (es : List (String × α)) (table : NameMap α)
    (mem : e ∈ es.foldl (fun table e => Table.insert e.1 e.2 table) table) : e ∈ table ∨ e ∈ es := by
  induction es generalizing table with
  | nil => exact .inl mem
  | cons fst r ih =>
    rcases ih (insert fst.1 fst.2 table) mem with inside | later
    · rcases mem_of_mem_insert inside with eq | inside
      · exact .inr (eq ▸ mem_cons_self)
      · exact .inl inside
    · exact .inr (.tail _ later)

theorem mem_of_find? {κ : Type} [LT κ] [DecidableLT κ] [DecidableEq κ] {key : κ} {table : Table κ α}
    (got : Table.find? key table = some v) : (key, v) ∈ table := by
  induction table with
  | nil => cases got
  | cons e r ih =>
    obtain ⟨fst, old⟩ := e
    unfold find? at got
    split at got
    · next eq =>
      cases eq
      cases got
      exact mem_cons_self
    · exact mem_cons_of_mem _ (ih got)

def Ascending (table : NameMap α) : Prop :=
  (table.map Prod.fst).Pairwise (· < ·)

instance (table : NameMap α) : Decidable (Ascending table) :=
  inferInstanceAs (Decidable (List.Pairwise _ _))

theorem Ascending.nodup (ascending : Ascending table) : (table.map Prod.fst).Nodup :=
  Sorted.nodup_of_pairwise ascending

theorem map_fst_insert (key : String) (v : α) (table : NameMap α) :
    (Table.insert key v table).map Prod.fst = Sorted.insert key (table.map Prod.fst) := by
  induction table with
  | nil => rfl
  | cons e r ih =>
    unfold Table.insert
    rw [map_cons, Sorted.insert]
    split
    · next eq => rw [map_cons, eq]
    · split
      · rfl
      · rw [map_cons, ih]

theorem Ascending.insert (ascending : Ascending table) (key : String) (v : α) :
    Ascending (Table.insert key v table) := by
  rw [Ascending, map_fst_insert]
  exact Sorted.pairwise_insert ascending key

theorem Ascending.insert_of_find? (ascending : Ascending table) (got : Table.find? key table = some v) :
    Table.insert key v table = table := by
  induction table with
  | nil => cases got
  | cons e r ih =>
    obtain ⟨fst, old⟩ := e
    obtain ⟨below, later⟩ := pairwise_cons.1 ascending
    unfold Table.find? at got
    unfold Table.insert
    split at got
    · next eq =>
      cases eq
      cases got
      exact if_pos rfl
    · next different =>
      have above : fst < key := below key (mem_map_of_mem (mem_of_find? got))
      rw [if_neg different, if_neg (String.lt_asymm above), ih later got]

end Table

end Bindery
