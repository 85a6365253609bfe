import SwiftMacros.Fault
import SwiftMacros.Tree.Declaration

/-! The properties of a struct or class: every named binding of its variables. Setters are made for
the eligible ones, the ordinary mutable stored properties. -/

namespace SwiftMacros

/-- How an annotated type behaves on assignment: a struct is a value, a class a reference. -/
inductive Composite where
  | value | reference
  deriving DecidableEq, Repr, Inhabited

def Composite.name : Composite → String
  | value => "value"
  | reference => "reference"

/-- The behaviour that a keyword declares; only structs and classes are supported. -/
def Composite.ofKeyword? (keyword : Text) : Option Composite :=
  if keyword = "struct".toList then some .value
  else if keyword = "class".toList then some .reference
  else none

def Group.composite (g : Group) : Except MacroError Composite :=
  match Composite.ofKeyword? g.keyword with
  | some kind => .ok kind
  | none => .error ⟨.unsupportedDeclaration g.keyword, some g.line, some g.column⟩

structure Property where
  name : Text
  type : Option TypeTree := none
  initializer : Option Expression := none
  isStatic : Bool := false
  isLazy : Bool := false
  isConstant : Bool := false
  isPrivate : Bool := false
  hasAccessors : Bool := false

namespace Property

def isEligible (p : Property) : Bool :=
  !(p.isStatic || p.isLazy || p.isConstant || p.isPrivate || p.hasAccessors)

/-- The property that a binding of `v` declares, if the binding has a name. -/
def ofBinding? (v : Variable) (b : Binding) : Option Property :=
  b.name.map fun name => {
    name
    type := b.type
    initializer := b.initializer
    isStatic := v.hasModifier ["static", "class"]
    isLazy := v.hasModifier ["lazy"]
    isConstant := v.specifier == "let".toList
    isPrivate := v.hasModifier ["private", "fileprivate"]
    hasAccessors := b.accessors.isSome }

end Property

/-- The properties that a member declares. -/
def Member.properties : Member → List Property
  | binding v => v.bindings.filterMap (Property.ofBinding? v)
  | other _ _ => []

namespace Group

/-- All properties of a struct or class, in source order. -/
def properties (g : Group) : Except MacroError (List Property) :=
  g.composite.map fun _ => g.block.members.flatMap Member.properties

def eligibleProperties (g : Group) : Except MacroError (List Property) :=
  g.properties.map (·.filter Property.isEligible)

end Group

end SwiftMacros
