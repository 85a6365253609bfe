import SwiftMacros.Setter.Signature

/-! Fluent setters. Each eligible property with a known type gets one method that takes the new
value and answers with the changed object: a changed copy of a value, a reference itself. -/

namespace SwiftMacros

/-- A setter to be made: the property it sets and the type of its parameter. -/
structure Setter where
  name : Text
  signature : Text
  deriving DecidableEq, Repr, Inhabited

namespace Setter

/-- The setters of properties; those without any type information have none. -/
def ofProperties (ps : List Property) : List Setter :=
  ps.filterMap fun p => p.signature?.map fun s => ⟨p.name, s⟩

/-- The statements of a setter. -/
def body (kind : Composite) (name : Text) : List Text :=
  match kind with
  | .value =>
    ["var copy = self".toList, "copy.".toList ++ name ++ " = value".toList, "return copy".toList]
  | .reference => ["self.".toList ++ name ++ " = value".toList, "return self".toList]

/-- The method of a setter, without an indent of its own. -/
def method (kind : Composite) (access indent : Text) (s : Setter) : Text :=
  let lead := if access.isEmpty then [] else access ++ [' ']
  let head := lead ++ "func ".toList ++ s.name ++ "(_ value: ".toList ++ s.signature ++
    ") -> Self \x7b".toList
  Text.joinLines (head :: (body kind s.name).map (indent ++ ·) ++ ["\x7d".toList])

def methods (kind : Composite) (access indent : Text) (ss : List Setter) : List Text :=
  ss.map (method kind access indent)

/-- What is said of a setter of `group` that cannot be made. -/
def warning (group : Text) (s : Setter) : Text :=
  group ++ '.' :: s.name ++ ": cannot infer a type from a '".toList ++ s.signature ++
    "' initializer; add a type annotation to get a setter".toList

end Setter

/-- The setters of a declaration, and the warnings for the properties left out. -/
structure SetterList where
  kind : Composite
  setters : List Setter
  warnings : List Text

/-- The setters of a struct or class. A property whose type cannot be told is left out with a
warning. -/
def Group.setters (g : Group) : Except MacroError SetterList := do
  let kind ← g.composite
  let all := Setter.ofProperties (← g.eligibleProperties)
  return {
    kind
    setters := all.filter fun s => !Signature.isSentinel s.signature
    warnings := (all.filter fun s => Signature.isSentinel s.signature).map (Setter.warning g.name) }

/-- The access modifier that an attribute asks for: its first argument, if that is a string. -/
def Attribute.access (a : Attribute) : Text :=
  match a.arguments with
  | some (⟨.string value _, _, _⟩ :: _) => Text.trim value
  | _ => []

end SwiftMacros
