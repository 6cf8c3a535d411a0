/-
Disk.Path -- where a file is, as a text

A path is a text with slashes between the names.  It is kept as it was put together
and not shortened, because it is shown to the user: `.` and `..` are names like any
other until the disk is asked.  Only the parent of a path leaves out the slashes and
dots at its end.

* `length_parent_lt`: the parent is a shorter text, so there are finitely many
  ancestors.
-/
import Bindery.Text.Lines

namespace Bindery.Path

open Text

def isAbsolute (path : String) : Bool :=
  path.toList.head? == some '/'

/-- A path below a base; an absolute path replaces the base. -/
def join (base path : String) : String :=
  if isAbsolute path then path
  else if base.isEmpty || base.toList.getLast? == some '/' then base ++ path
  else base ++ "/" ++ path

def segments (path : String) : List String :=
  let names := (splitBy (· == '/') path.toList).filter (!·.isEmpty)
  names.map String.ofList ++ if path.toList.getLast? == some '/' then ["."] else []

def trimBack : List Char → List Char
  | ['/'] => ['/']
  | '/' :: rest => trimBack rest
  | '.' :: '/' :: rest => trimBack ('/' :: rest)
  | path => path

/-- The parent of a path, both written backwards; none for the root and the empty
path. -/
def parentBack? (path : List Char) : Option (List Char) :=
  match trimBack path with
  | [] => none
  | ['/'] => none
  | trimmed => some (trimBack (trimmed.dropWhile (· != '/')))

theorem length_trimBack_le (path : List Char) : (trimBack path).length ≤ path.length := by
  fun_induction trimBack path <;> simp_all <;> omega

theorem trimBack_slash {path rest : List Char} (trimmed : trimBack path = '/' :: rest) :
    rest = [] := by
  fun_induction trimBack path with
  | case1 => simpa using trimmed.symm
  | case2 rest _ ih => exact ih trimmed
  | case3 rest ih => exact ih trimmed
  | case4 path notRoot notSlash _ =>
    subst trimmed
    exact absurd rfl (notSlash rest)

theorem length_parent_lt {path parent : List Char} (found : parentBack? path = some parent) :
    parent.length < path.length := by
  unfold parentBack? at found
  split at found
  · cases found
  · cases found
  · rename_i trimmed notEmpty notRoot
    injection found with found
    rw [← found]
    have shorter := length_trimBack_le path
    have := length_trimBack_le ((trimBack path).dropWhile (· != '/'))
    match shape : trimBack path with
    | [] => exact absurd shape notEmpty
    | c :: rest =>
      rw [shape] at shorter this
      by_cases slash : c = '/'
      · subst slash
        rw [trimBack_slash shape] at shape
        exact absurd shape notRoot
      · have kept : (c :: rest).dropWhile (· != '/') = rest.dropWhile (· != '/') := by
          simp [slash]
        have := (List.dropWhile_sublist (· != '/') (l := rest)).length_le
        simp only [kept, List.length_cons] at *
        omega

def ancestorsBack (path : List Char) : List (List Char) :=
  match _found : parentBack? path with
  | none => [path]
  | some parent => path :: ancestorsBack parent
  termination_by path.length
  decreasing_by exact length_parent_lt _found

def ancestors (path : String) : List String :=
  (ancestorsBack path.toList.reverse).map fun back => String.ofList back.reverse

def fileName (path : String) : String :=
  (segments path).getLast?.getD ""

end Bindery.Path
