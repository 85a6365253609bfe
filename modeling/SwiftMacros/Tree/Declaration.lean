import SwiftMacros.Tree.Expression

/-! Declarations as trees. A type declaration is read with its members; of the members only
variables are read further, and every other one is kept as a slice. -/

namespace SwiftMacros

/-- An attribute; its arguments are none when it has no parentheses. -/
structure Attribute where
  name : Text
  arguments : Option (List Argument)
  text : Text
  start : Nat
  stop : Nat
  line : Nat
  column : Nat

/-- A modifier and its detail, as in `private(set)`. -/
structure Modifier where
  name : Text
  detail : Option Text
  text : Text
  deriving DecidableEq, Repr, Inhabited

/-- One binding of a variable declaration. A pattern that is no name has none. -/
structure Binding where
  pattern : Text
  name : Option Text
  type : Option TypeTree
  initializer : Option Expression
  accessors : Option Text
  text : Text

structure Variable where
  specifier : Text
  bindings : List Binding
  modifiers : List Modifier
  attributes : List Attribute
  text : Text

namespace Variable

def hasModifier (v : Variable) (names : List String) : Bool :=
  v.modifiers.any fun m => names.any fun n => m.name == n.toList

end Variable

inductive Member where
  | binding (decl : Variable)
  /-- A member that is not inspected, with the word it starts with. -/
  | other (keyword text : Text)

/-- The members between two braces; `stop` lies just past the closing one. -/
structure MemberBlock where
  members : List Member
  text : Text
  start : Nat
  stop : Nat

/-- A type declaration with its members. -/
structure Group where
  keyword : Text
  name : Text
  block : MemberBlock
  attributes : List Attribute
  modifiers : List Modifier
  text : Text
  start : Nat
  stop : Nat
  line : Nat
  column : Nat

namespace Group

/-- The first attribute of a name. -/
def attributeNamed? (g : Group) (name : Text) : Option Attribute :=
  g.attributes.find? fun a => a.name == name

end Group

inductive Declaration where
  | group (decl : Group)
  | member (decl : Member)

end SwiftMacros
