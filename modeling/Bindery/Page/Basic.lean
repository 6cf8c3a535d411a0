/-
Page.Basic -- the page that a library is mounted on

A page is a tree of elements below a body.  Elements are numbered in the order they
were made, the body first.  An element may carry the name of a cell, and is then a
target for that cell as long as it is attached to the body.

An element is made with its parent, which is an element of the page or the new
element itself.  An element that is its own parent hangs from nothing.
-/

namespace Bindery

abbrev ElementId := Nat

structure Node where
  parent : Option ElementId
  /-- the children, in order -/
  children : List ElementId
  /-- the cell that the element is a target for -/
  cellName : Option String
  label : String
  deriving Repr, DecidableEq

structure Page where
  /-- the elements, by number -/
  nodes : List Node
  /-- how many elements were made by appending -/
  appended : Nat
  deriving Repr, DecidableEq

namespace Page

def body : ElementId := 0

def empty : Page :=
  ⟨[⟨none, [], none, "body"⟩], 0⟩

def nextId (page : Page) : ElementId :=
  page.nodes.length

def allowsParent (page : Page) (parent : ElementId) : Bool :=
  decide (parent ≤ page.nextId)

def add (page : Page) (parent : Option ElementId) (cellName : Option String)
    (label : String) : Page :=
  let grown := page.nodes ++ [⟨parent, [], cellName, label⟩]
  { page with
    nodes := match parent with
      | none => grown
      | some parent =>
        grown.modify parent fun node => { node with children := node.children ++ [page.nextId] } }

/-- A new element, detached or below a parent; none if the parent is not on the page. -/
def element? (page : Page) (parent : Option ElementId) (label : String) :
    Option (ElementId × Page) :=
  if parent.all page.allowsParent then some (page.nextId, page.add parent none label) else none

def targetLabel (name : String) : String :=
  "[data-cell=\"" ++ name ++ "\"]"

def target (page : Page) (name : String) : ElementId × Page :=
  (page.nextId, page.add (some body) (some name) (targetLabel name))

def append (page : Page) (parent : ElementId) : ElementId × Page :=
  let appended := page.appended + 1
  (page.nextId,
    { page with appended := appended }.add (some parent) none ("appended #" ++ toString appended))

/-- A new element at the end of a parent; none if the parent is not on the page. -/
def append? (page : Page) (parent : ElementId) : Option (ElementId × Page) :=
  if page.allowsParent parent then some (page.append parent) else none

def children (page : Page) (element : ElementId) : List ElementId :=
  (page.nodes[element]?).elim [] (·.children)

def label (page : Page) (element : ElementId) : String :=
  (page.nodes[element]?).elim "?" (·.label)

def parent? (page : Page) (element : ElementId) : Option ElementId :=
  (page.nodes[element]?).bind (·.parent)

def climbs (page : Page) : Nat → ElementId → Bool
  | 0, element => element == body
  | steps + 1, element =>
    element == body || (page.parent? element).any (page.climbs steps)

/-- Whether an element is attached to the body.  A path to the body passes every
element once at most, so as many steps as there are elements suffice.  An element that
is its own ancestor is not attached; climbing from it would never end. -/
def isConnected (page : Page) (element : ElementId) : Bool :=
  page.climbs page.nodes.length element

def isTargetFor (page : Page) (name : String) (element : ElementId) : Bool :=
  (page.nodes[element]?).any (·.cellName == some name) && page.isConnected element

def findTarget? (page : Page) (name : String) : Option ElementId :=
  (List.range page.nodes.length).find? (page.isTargetFor name)

end Page

end Bindery
