/-
Proofs.Text.Lowercase -- lower case is final

Lower case is taken character by character, and no character of a lower-case form has
another one.  The form of a letter or number is made of letters and numbers, but for the
combining dot behind the small i that the capital I with a dot becomes
(`lowercase_cases`).
-/
import Bindery.Notebook.Slug

namespace Bindery.Text

open List

variable {range : Nat × Nat} {start point image : Nat} {runs : List Nat} {c d : Char}

/-! ## Ranges of a table -/

theorem le_of_mem_ofRuns (listed : range ∈ Ranges.ofRuns start runs) : start ≤ range.1 := by
  fun_induction Ranges.ofRuns start runs with
  | case1 start outside inside r ih =>
    rcases mem_cons.1 listed with rfl | listed
    · exact Nat.le_add_right _ _
    · have := ih listed
      omega
  | case2 => cases listed

theorem contains_ofRuns (listed : range ∈ Ranges.ofRuns start runs) (above : range.1 ≤ point)
    (below : point ≤ range.2) : (Ranges.ofRuns start runs).contains point := by
  fun_induction Ranges.ofRuns start runs with
  | case1 start outside inside r ih =>
    rw [Ranges.contains]
    rcases mem_cons.1 listed with rfl | listed
    · rw [if_neg (Nat.not_lt.2 above), if_pos below]
    · have := le_of_mem_ofRuns listed
      rw [if_neg (by omega)]
      split
      · rfl
      · exact ih listed
  | case2 => cases listed

/-! ## The images of a run -/

namespace CaseRun

variable {run other : CaseRun}

def lastImage (run : CaseRun) : Nat := run.image + (run.last - run.first)

/-- The images are characters in one range of letters, and none is the capital I with a dot. -/
def isLettered (run : CaseRun) : Bool :=
  (Nat.ble run.lastImage 0xD7FF || Nat.ble 0xE000 run.image && Nat.ble run.lastImage 0x10FFFF) &&
    (Nat.ble 0x61 run.image && Nat.ble run.lastImage 0x7A || Nat.ble 0x131 run.image ||
      Nat.ble 0x80 run.image && Nat.ble run.lastImage 0x12F) &&
    alphabeticRanges.any fun range => Nat.ble range.1 run.image && Nat.ble run.lastImage range.2

/-- The images lie outside the other run, or between its characters. -/
def isApart (run other : CaseRun) : Bool :=
  Nat.ble (run.lastImage + 1) other.first || Nat.ble (other.last + 1) run.image ||
    (Nat.beq run.first run.last || Nat.beq run.step 2) && Nat.beq other.step 2 &&
      Nat.beq ((run.image + other.first) % 2) 1

theorem image?_eq_some (got : run.image? point = some image) :
    run.image ≤ image ∧ image ≤ run.lastImage ∧ (image - run.image) % run.step = 0 := by
  unfold image? at got
  split at got
  · cases got
    unfold lastImage
    rw [Nat.add_sub_cancel_left]
    omega
  · cases got

theorem image?_of_isApart (got : run.image? point = some image)
    (apart : run.isApart other) : other.image? image = none := by
  obtain ⟨above, below, steps⟩ := image?_eq_some got
  unfold image?
  rw [if_neg]
  rintro ⟨fst, last, inStep⟩
  simp only [isApart, Bool.or_eq_true, Bool.and_eq_true, Nat.ble_eq, Nat.beq_eq] at apart
  unfold lastImage at *
  rcases apart with (p | behind) | ⟨⟨alone | two, two'⟩, odd⟩
  · omega
  · omega
  · rw [two'] at inStep
    omega
  · rw [two] at steps
    rw [two'] at inStep
    omega

end CaseRun

/-- **The image of a character is a small letter.** -/
theorem image_final (got : lowercaseRuns.findSome? (·.image? point) = some image) :
    isAlphabetic (Char.ofNat image) ∧ lowercase (Char.ofNat image) = [Char.ofNat image] := by
  obtain ⟨run, listed, imaged⟩ := exists_of_findSome?_eq_some got
  obtain ⟨above, below, -⟩ := CaseRun.image?_eq_some imaged
  have lettered : lowercaseRuns.all (·.isLettered) := by decide +kernel
  have apart : (lowercaseRuns.all fun run => lowercaseRuns.all run.isApart) := by
    decide +kernel
  have here := all_eq_true.1 lettered run listed
  simp only [CaseRun.isLettered, Bool.or_eq_true, Bool.and_eq_true, Nat.ble_eq, any_eq_true] at here
  obtain ⟨⟨valid, place⟩, table, inTable, lower, upper⟩ := here
  have code : (Char.ofNat image).toNat = image := by
    rw [Char.ofNat, dif_pos (show image.isValidChar by unfold Nat.isValidChar; omega)]
    rfl
  by_cases small : image < 0x80
  · have letters : ((range 128).all fun n => n < 0x61 || 0x7A < n || ((Char.ofNat n).isAlpha &&
        (Char.ofNat n).toLower == Char.ofNat n)) := by decide +kernel
    have letter := all_eq_true.1 letters image (mem_range.2 small)
    simp only [Bool.or_eq_true, decide_eq_true_eq, Bool.and_eq_true, beq_iff_eq] at letter
    obtain ⟨alpha, final⟩ := letter.resolve_left (by omega)
    rw [isAlphabetic, lowercase, code, if_pos small, if_pos small]
    exact ⟨alpha, congrArg (fun letter => [letter]) final⟩
  · have none : lowercaseRuns.findSome? (·.image? image) = none := by
      rw [findSome?_eq_none_iff]
      exact fun other mem => CaseRun.image?_of_isApart imaged
        (all_eq_true.1 (all_eq_true.1 apart run listed) other mem)
    rw [isAlphabetic, lowercase, code, if_neg small, if_neg small, if_neg (by omega), none]
    exact ⟨contains_ofRuns inTable (Nat.le_trans lower above) (Nat.le_trans below upper), rfl⟩

theorem lowercase_ne_nil (c : Char) : lowercase c ≠ [] := by
  unfold lowercase
  repeat' split
  all_goals exact cons_ne_nil _ _

/-- **Lower case is final**, and that of letters and numbers is letters and numbers, but for one
dot. -/
theorem lowercase_cases (mem : d ∈ lowercase c) :
    lowercase d = [d] ∧ (isAlphanumeric c → isAlphanumeric d ∨ c = '\u0130' ∧ d = '\u0307') := by
  unfold lowercase at mem
  split at mem
  · next small =>
    have each : ((range 128).all fun n => lowercase (Char.ofNat n).toLower == [(Char.ofNat n).toLower] &&
        (!isAlphanumeric (Char.ofNat n) || isAlphanumeric (Char.ofNat n).toLower)) := by
      decide +kernel
    have here := all_eq_true.1 each c.toNat (mem_range.2 small)
    rw [Char.ofNat_toNat, ← mem_singleton.1 mem] at here
    simp only [Bool.and_eq_true, beq_iff_eq, Bool.or_eq_true, Bool.not_eq_true'] at here
    refine ⟨here.1, fun alphanumeric => .inl ?_⟩
    rcases here.2 with absurd | held
    · rw [alphanumeric] at absurd; cases absurd
    · exact held
  split at mem
  · next dotted =>
    have capital : c = '\u0130' := Char.toNat_inj.1 dotted
    rcases mem_cons.1 mem with rfl | mem
    · exact ⟨by decide +kernel, fun _ => .inl (by decide +kernel)⟩
    · rw [mem_singleton.1 mem]
      exact ⟨by decide +kernel, fun _ => .inr ⟨capital, rfl⟩⟩
  split at mem
  · next image got =>
    rw [mem_singleton.1 mem]
    obtain ⟨letter, final⟩ := image_final got
    exact ⟨final, fun _ => .inl (by rw [isAlphanumeric, letter]; rfl)⟩
  · next large other _ none =>
    cases mem_singleton.1 mem
    refine ⟨?_, .inl⟩
    rw [lowercase, if_neg large, if_neg other, none]

end Bindery.Text
