/-
Name.View -- the two names of a view

A view cell defines a control, named `viewof NAME`, and the control's value, named
`NAME`.  The control's name has a space in it, so inside a procedure an identifier
stands for it: the parameter of the input `viewof NAME` is `$viewof$NAME`.
-/
import Bindery.Text.Affix

namespace Bindery

open Text

def viewMark : String := "viewof "

def viewParameterMark : String := "$viewof$"

def controlName (value : String) : String :=
  viewMark ++ value

def controlledValue? (name : String) : Option String :=
  (stripStart? viewMark.toList name.toList).map String.ofList

def parameterName (input : String) : String :=
  match controlledValue? input with
  | some value => viewParameterMark ++ value
  | none => input

def inputName (reference : String) : String :=
  match stripStart? viewParameterMark.toList reference.toList with
  | some value => controlName (String.ofList value)
  | none => reference

end Bindery
