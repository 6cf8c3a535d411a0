/-
Page.Session -- several mounts on one page

Mounts are kept by name, each with its runtime.  The mount of a name is gone when it
was dropped or when mounting failed; its runtime is kept, so that one can still see
what was asked of it.
-/
import Bindery.Page.Mount

namespace Bindery

/-- A runtime with the mount that it belongs to, while there is one. -/
structure MountSlot where
  runtime : Runtime
  mount : Option Mount
  deriving Repr, DecidableEq

/-- Dispose of the mount of a slot; a second time changes nothing. -/
def MountSlot.dispose (slot : MountSlot) : MountSlot :=
  match slot.mount with
  | some mount =>
    match mount.phase with
    | .running =>
      { runtime := slot.runtime.dispose, mount := some { mount with phase := .disposed } }
    | .disposed => slot
  | none => slot

def MountSlot.drop (slot : MountSlot) : MountSlot :=
  { slot.dispose with mount := none }

structure Session where
  page : Page
  slots : NameMap MountSlot
  deriving Repr, DecidableEq

namespace Session

def start : Session := ⟨Page.empty, []⟩

/-- Why an operation on a mount is not possible. -/
inductive Missing where
  /-- nothing was mounted under the name -/
  | slot
  /-- the mount of the name is gone -/
  | mount
  deriving Repr, DecidableEq

def slot (session : Session) (name : String) : Except Missing MountSlot :=
  match session.slots.find? name with
  | some slot => .ok slot
  | none => .error .slot

def mounted (session : Session) (name : String) : Except Missing (MountSlot × Mount) :=
  match session.slot name with
  | .error missing => .error missing
  | .ok slot =>
    match slot.mount with
    | some mount => .ok (slot, mount)
    | none => .error .mount

def setSlot (session : Session) (name : String) (slot : MountSlot) : Session :=
  { session with slots := session.slots.insert name slot }

def mount (session : Session) (name : String) (container : Option ElementId) (runtime : Runtime)
    (module : Module) (options : MountOptions) : Option MountError × Session :=
  let attempt := Bindery.mount session.page container runtime module options
  let session := { session with page := attempt.page }
  match attempt.result with
  | .ok mount => (none, session.setSlot name ⟨attempt.runtime, some mount⟩)
  | .error error => (some error, session.setSlot name ⟨attempt.runtime, none⟩)

def observe (session : Session) (name : String) (output : Option String) :
    Except Missing (Observer × Session) :=
  match session.mounted name with
  | .error missing => .error missing
  | .ok (slot, mount) =>
    let (observer, mount, page) := mount.observe session.page output
    .ok (observer,
      { session with page := page }.setSlot name { slot with mount := some mount })

def dispose (session : Session) (name : String) : Except Missing Session :=
  match session.mounted name with
  | .error missing => .error missing
  | .ok (slot, _) => .ok (session.setSlot name slot.dispose)

def drop (session : Session) (name : String) : Except Missing Session :=
  match session.slot name with
  | .error missing => .error missing
  | .ok slot => .ok (session.setSlot name slot.drop)

end Session

end Bindery
