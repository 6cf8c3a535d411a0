/-
Proofs.Page.Forest -- the elements of a page as trees

What an element is, its children apart, is fixed when it is made (`Page.faces_add`), and its
children are the elements that were made below it, in order (`Page.Built`).  A parent is made
before its children unless an element was made below itself; then climbing from parent to
parent comes to an end, and finds the body exactly from the elements below it (`forest_build`).
-/
import Bindery.Page.Basic
import Mathlib.Logic.Relation
import Mathlib.Order.WellFounded

namespace Bindery

open List
open Relation (ReflTransGen)

/-- What an element is, whatever hangs below it. -/
def Node.face (node : Node) : Option ElementId × Option String × String :=
  (node.parent, node.cellName, node.label)

namespace Page

/-! ## Faces -/

def faces (page : Page) : List (Option ElementId × Option String × String) :=
  page.nodes.map Node.face

variable {page later last : Page} {element : ElementId} {steps : Nat}

theorem length_faces (page : Page) : page.faces.length = page.nodes.length := length_map _

theorem faces_add (page : Page) (parent : Option ElementId) (cellName : Option String) (label : String) :
    (page.add parent cellName label).faces = page.faces ++ [(parent, cellName, label)] := by
  cases parent with
  | none => exact map_append
  | some parent =>
    have grown : page.faces ++ [(some parent, cellName, label)] =
        (page.nodes ++ [Node.mk (some parent) [] cellName label]).map Node.face := by
      rw [map_append]
      rfl
    -- the parent gets a child, which is no part of its face
    refine ext_getElem? fun i => ?_
    rw [grown, faces, add, getElem?_map, getElem?_modify, getElem?_map]
    cases (page.nodes ++ [Node.mk (some parent) [] cellName label])[i]? with
    | none => rfl
    | some node =>
      dsimp only [Option.map_eq_map, Option.map_some]
      split <;> rfl

theorem label_eq (page : Page) (element : ElementId) :
    page.label element = (page.faces[element]?).elim "?" (·.2.2) := by
  rw [label, faces, getElem?_map]
  cases page.nodes[element]? <;> rfl

def parents (page : Page) : List (Option ElementId) :=
  page.faces.map (·.1)

theorem parent?_eq (page : Page) (element : ElementId) :
    page.parent? element = page.parents[element]?.join := by
  rw [parent?, parents, faces, map_map, getElem?_map]
  cases page.nodes[element]? <;> rfl

/-- A later page has the elements of an earlier one, with their labels. -/
def Extends (page later : Page) : Prop :=
  page.faces <+: later.faces

theorem Extends.label (grown : page.Extends later) (inside : element < page.nodes.length) :
    later.label element = page.label element := by
  obtain ⟨r, eq⟩ := grown
  rw [label_eq, label_eq, ← eq, getElem?_append_left (by rwa [length_faces])]

theorem faces_append (page : Page) (parent : ElementId) :
    (page.append parent).2.faces =
      page.faces ++ [(some parent, none, "appended #" ++ toString (page.appended + 1))] :=
  faces_add _ _ _ _

theorem label_append (page : Page) (parent : ElementId) :
    (page.append parent).2.label page.nextId = "appended #" ++ toString (page.appended + 1) := by
  rw [label_eq, faces_append, nextId, ← length_faces, getElem?_concat_length]
  rfl

/-! ## Making elements -/

/-- A call that makes an element. -/
inductive Call where
  | element (parent : Option ElementId) (label : String)
  | target (name : String)
  | append (parent : ElementId)

def Call.parent? : Call → Option ElementId
  | .element parent _ => parent
  | .target _ => some body
  | .append parent => some parent

/-- The page behind a call, unless the call fails. -/
def call? (page : Page) : Call → Option Page
  | .element parent label => (page.element? parent label).map (·.2)
  | .target name => some (page.target name).2
  | .append parent => (page.append? parent).map (·.2)

def build? (page : Page) (calls : List Call) : Option Page :=
  calls.foldlM call? page

section Add

variable (page) (parent : Option ElementId) (cellName : Option String) (label : String)

theorem length_add : (page.add parent cellName label).nodes.length = page.nodes.length + 1 := by
  rw [← length_faces, faces_add, length_append, length_faces]
  rfl

theorem parents_add : (page.add parent cellName label).parents = page.parents ++ [parent] := by
  rw [parents, faces_add, map_append]
  rfl

variable {parent}

theorem children_add (allowed : ∀ element ∈ parent, element ≤ page.nodes.length) (element : ElementId) :
    (page.add parent cellName label).children element =
      page.children element ++ if parent = some element then [page.nodes.length] else [] := by
  have grown : (page.nodes ++ [Node.mk parent [] cellName label])[element]?.elim [] (·.children) =
      page.children element := by
    rw [children, getElem?_append]
    split
    · rfl
    · next outside =>
      rw [getElem?_eq_none (Nat.le_of_not_lt outside)]
      cases element - page.nodes.length <;> rfl
  cases parent with
  | none => rw [if_neg (by simp), append_nil, ← grown]; rfl
  | some parent =>
    rw [← grown, children, add, getElem?_modify]
    by_cases eq : parent = element
    · subst eq
      have inside : parent < (page.nodes ++ [Node.mk (some parent) [] cellName label]).length := by
        rw [length_append, length_singleton]
        exact Nat.lt_succ_of_le (allowed parent rfl)
      rw [getElem?_eq_getElem inside, if_pos rfl]
      simp [nextId]
    · rw [if_neg (by simpa using eq)]
      simp [eq]

end Add

/-- **What a call does.**  It adds one element, below an element of the page or below itself. -/
theorem call?_eq_some {call : Call} (done : page.call? call = some later) :
    (∀ parent ∈ call.parent?, parent ≤ page.nodes.length) ∧ later.parents = page.parents ++ [call.parent?] ∧
      ∀ element, later.children element = page.children element ++
        if call.parent? = some element then [page.nodes.length] else [] := by
  have allowed (fits : call.parent?.all page.allowsParent) :
      ∀ parent ∈ call.parent?, parent ≤ page.nodes.length := fun parent mem =>
    of_decide_eq_true ((Option.all_eq_true _ _).1 fits parent mem)
  cases call with
  | element parent label =>
    obtain ⟨made, got, rfl⟩ := Option.map_eq_some_iff.1 done
    obtain ⟨fits, ⟨⟩⟩ := Option.ite_none_right_eq_some.1 got
    exact ⟨allowed fits, parents_add page _ _ _, children_add page _ _ (allowed fits)⟩
  | target n =>
    cases done
    exact ⟨allowed rfl, parents_add page _ _ _, children_add page _ _ (allowed rfl)⟩
  | append parent =>
    obtain ⟨made, got, rfl⟩ := Option.map_eq_some_iff.1 done
    obtain ⟨fits, ⟨⟩⟩ := Option.ite_none_right_eq_some.1 got
    exact ⟨allowed fits, parents_add { page with appended := page.appended + 1 } _ _ _,
      children_add { page with appended := page.appended + 1 } _ _ (allowed fits)⟩

/-! ## Parents and children -/

/-- A page that calls have made: parents are no later than their elements, and each element has
the children that were made below it, in order. -/
structure Built (page : Page) (calls : List Call) : Prop where
  parents_eq : page.parents = none :: calls.map Call.parent?
  parent_le : ∀ element, ∀ parent ∈ page.parent? element, parent ≤ element
  children_eq : ∀ parent, page.children parent =
    (range page.nodes.length).filter fun element => decide (page.parent? element = some parent)

variable {calls : List Call}

theorem Built.empty : Built Page.empty [] where
  parents_eq := rfl
  parent_le := fun element parent mem => by cases element <;> cases mem
  children_eq := fun parent => by cases parent <;> rfl

theorem parent?_of_le (outside : page.nodes.length ≤ element) : page.parent? element = none := by
  rw [parent?, getElem?_eq_none outside]
  rfl

theorem Built.call? {call : Call} (built : page.Built calls) (done : page.call? call = some later) :
    later.Built (calls ++ [call]) := by
  obtain ⟨allowed, parents, children⟩ := call?_eq_some done
  have length (page : Page) : page.parents.length = page.nodes.length := by
    rw [Page.parents, length_map, length_faces]
  have more : later.nodes.length = page.nodes.length + 1 := by
    rw [← length, parents, length_append, length]
    rfl
  have old (element : ElementId) (inside : element < page.nodes.length) :
      later.parent? element = page.parent? element := by
    rw [parent?_eq, parent?_eq, parents, getElem?_append_left (by rwa [length])]
  have new : later.parent? page.nodes.length = call.parent? := by
    rw [parent?_eq, parents, ← length, getElem?_concat_length]
    rfl
  refine ⟨?_, fun element parent mem => ?_, fun parent => ?_⟩
  · rw [parents, built.parents_eq, map_append]
    rfl
  · rcases Nat.lt_trichotomy element page.nodes.length with inside | rfl | outside
    · exact built.parent_le element parent (old element inside ▸ mem)
    · exact allowed parent (new ▸ mem)
    · rw [parent?_of_le (more ▸ outside)] at mem
      cases mem
  · rw [children, built.children_eq, more, range_succ, filter_append]
    refine congrArg₂ (· ++ ·) (filter_congr fun element mem => ?_) ?_
    · rw [old element (mem_range.1 mem)]
    · rw [filter_cons, new]
      simp only [decide_eq_true_eq, filter_nil]

theorem Built.build? {p : List Call} (built : page.Built p)
    (done : page.build? calls = some last) : last.Built (p ++ calls) := by
  induction calls generalizing page p with
  | nil => rwa [append_nil, ← Option.some.inj done]
  | cons call calls ih =>
    rw [Page.build?, foldlM_cons] at done
    obtain ⟨later, called, done⟩ := Option.bind_eq_some_iff.1 done
    rw [append_cons]
    exact ih (built.call? called) done

theorem Built.count_children (built : page.Built calls) (element parent : ElementId) :
    (page.children parent).count element = if page.parent? element = some parent then 1 else 0 := by
  rw [built.children_eq, Nodup.count (nodup_range.filter _)]
  simp only [mem_filter, mem_range, decide_eq_true_eq]
  refine if_congr (and_iff_right_of_imp fun below => Nat.lt_of_not_le fun outside => ?_) rfl rfl
  rw [parent?_of_le outside] at below
  cases below

theorem Built.parent?_eq_some (built : page.Built calls) {parent : ElementId} :
    page.parent? element = some parent ↔
      ∃ i call, element = i + 1 ∧ calls[i]? = some call ∧ call.parent? = some parent := by
  rw [parent?_eq, built.parents_eq]
  cases element with
  | zero => simp
  | succ i => simp [Option.join_eq_some_iff]

/-! ## Climbing -/

/-- An element hangs directly below another one. -/
def Below (page : Page) (element parent : ElementId) : Prop :=
  page.parent? element = some parent

theorem below_of_climbs (reaches : page.climbs steps element) : ReflTransGen page.Below element body := by
  induction steps generalizing element with
  | zero => rw [eq_of_beq reaches]
  | succ steps ih =>
    rw [climbs, Bool.or_eq_true, Option.any_eq_true] at reaches
    rcases reaches with here | ⟨parent, below, climbs⟩
    · rw [eq_of_beq here]
    · exact .head below (ih climbs)

theorem climbs_of_below (ordered : ∀ element parent, page.Below element parent → parent < element)
    (enough : element ≤ steps) (below : ReflTransGen page.Below element body) :
    page.climbs steps element := by
  induction below using ReflTransGen.head_induction_on generalizing steps with
  | refl => cases steps <;> rfl
  | @head element parent below _ ih =>
    have lower := ordered element parent below
    cases steps with
    | zero => exact absurd (Nat.lt_of_lt_of_le lower enough) (Nat.not_lt_zero _)
    | succ steps =>
      rw [climbs, show page.parent? element = some parent from below, Option.any_some,
        ih (Nat.le_of_lt_succ (Nat.lt_of_lt_of_le lower enough)), Bool.or_true]

theorem isConnected_iff (ordered : ∀ element parent, page.Below element parent → parent < element)
    (element : ElementId) : page.isConnected element ↔ ReflTransGen page.Below element body := by
  refine ⟨below_of_climbs, fun below => ?_⟩
  by_cases inside : element < page.nodes.length
  · exact climbs_of_below ordered (Nat.le_of_lt inside) below
  · rcases ReflTransGen.cases_head below with rfl | ⟨parent, step, -⟩
    · exact climbs_of_below ordered (Nat.zero_le _) .refl
    · rw [Below, parent?_of_le (Nat.le_of_not_lt inside)] at step
      cases step

end Page

/-- **Calls that succeed make a forest**, unless one of them names the element that it makes as
the parent.  Whatever they name, each element is a child of its parent once and of no other
element.  Parents have smaller numbers than their elements exactly if no call names its own
element; climbing ends then, and an element is attached exactly if it is the body or below it. -/
theorem forest_build {calls : List Page.Call} {page : Page}
    (built : Page.empty.build? calls = some page) :
    (∀ element parent, (page.children parent).count element =
      if page.parent? element = some parent then 1 else 0) ∧
    ((∀ element parent, page.parent? element = some parent → parent < element) ↔
      ∀ index call, calls[index]? = some call → call.parent? ≠ some (index + 1)) ∧
    ((∀ index call, calls[index]? = some call → call.parent? ≠ some (index + 1)) →
      WellFounded (fun parent element => page.parent? element = some parent) ∧
      ∀ element, page.isConnected element = true ↔ ReflTransGen page.Below element Page.body) := by
  have made : page.Built calls := Page.Built.empty.build? built
  have strict (apart : ∀ index call, calls[index]? = some call → call.parent? ≠ some (index + 1))
      (element parent : ElementId) (below : page.Below element parent) : parent < element := by
    refine Nat.lt_of_le_of_ne (made.parent_le element parent below) ?_
    rintro rfl
    obtain ⟨index, call, rfl, there, named⟩ := made.parent?_eq_some.1 below
    exact apart index call there named
  refine ⟨made.count_children, ⟨fun smaller index call there named => ?_, strict⟩, fun apart => ?_⟩
  · exact Nat.lt_irrefl _ (smaller _ _ (made.parent?_eq_some.2 ⟨index, call, rfl, there, named⟩))
  · exact ⟨Subrelation.wf (fun below => strict apart _ _ below) Nat.lt_wfRel.wf,
      Page.isConnected_iff (strict apart)⟩

/-- A page with an attached element, a detached one and an element below each. -/
theorem forest_build_detached :
    let calls : List Page.Call :=
      [.target "a", .element none "div", .append 1, .element (some 2) "span"]
    ∃ page, Page.empty.build? calls = some page ∧
      (∀ index call, calls[index]? = some call → call.parent? ≠ some (index + 1)) ∧
      ReflTransGen page.Below 3 Page.body ∧ ¬ ReflTransGen page.Below 4 Page.body := by
  intro calls
  have apart (index : Nat) (call : Page.Call) (made : calls[index]? = some call) :
      call.parent? ≠ some (index + 1) := by
    intro named
    rcases index with _ | _ | _ | _ | index <;> cases made <;> cases named
  obtain ⟨-, -, connected⟩ := forest_build (show Page.empty.build? calls = some _ from rfl)
  exact ⟨_, rfl, apart, ((connected apart).2 3).1 (by decide),
    fun below => absurd (((connected apart).2 4).2 below) (by decide)⟩

/-- An element that is made below itself is its own parent and its own child, and climbing from
it does not end. -/
theorem forest_build_itself :
    ∃ page, Page.empty.build? [.element (some 1) "div"] = some page ∧
      page.parent? 1 = some 1 ∧ page.children 1 = [1] ∧
      ¬ WellFounded (fun parent element => page.parent? element = some parent) :=
  ⟨_, rfl, rfl, rfl, fun ends => ends.asymmetric (a := 1) (b := 1) rfl rfl⟩

end Bindery
