import SwiftMacros.Setter.Property
import SwiftMacros.Tree.Render

/-! The parameter type of a setter, as text. An annotation decides; without one the initializer is
looked at, as far as literals, collections, closures, calls and casts tell their type. A `nil` and a
key path tell none and yield a sentinel. What has no rule of its own stands for itself. -/

namespace SwiftMacros

/-- The signature of a type annotation. A function behind `!` has to outlive the call. -/
def TypeTree.signature : TypeTree → Text
  | named name generics _ => name ++ generics
  | unwrapped wrapped _ =>
    match wrapped with
    | tuple _ _ | function _ _ _ _ => "@escaping ".toList ++ wrapped.signature
    | _ => wrapped.signature
  | optional wrapped _ => wrapped.signature ++ ['?']
  | tuple elements _ =>
    '(' :: Text.join ", ".toList (elements.map fun e => Text.trim e.text) ++ [')']
  | metatype base specifier _ => base.signature ++ '.' :: specifier
  | array element _ => '[' :: Text.trim element.text ++ [']']
  | dictionary key value _ => '[' :: key.signature ++ ": ".toList ++ value.signature ++ [']']
  | member _ _ text | function _ _ _ text | attributed _ _ text | constrained _ _ text
  | composition _ text | raw text => Text.trim text

namespace Signature

def nilSentinel : Text := "Nil".toList

def keyPathSentinel : Text := "KeyPath".toList

/-- Whether a signature is a sentinel for a type that cannot be told. -/
def isSentinel (s : Text) : Bool := s == nilSentinel || s == keyPathSentinel

/-- The text that all members of a list share; none for an empty list. -/
def common? : List Text → Option Text
  | [] => none
  | t :: ts => if ts.all (· == t) then some t else none

/-- The signature of a closure, from its own signature. Parameters without parentheses count as
none; a parameter without a type can be anything. -/
def ofClosure (s : Option Signature) : Text :=
  let parameters := match s.bind (·.parameters) with
    | some (.typed ps _) =>
      let types := ps.map fun p => (p.type.map TypeTree.signature).getD "Any".toList
      '(' :: Text.join ", ".toList types ++ [')']
    | _ => "()".toList
  let result := match s.bind (·.result) with
    | some r => match r.type.signature with
      | [] => "()".toList
      | type => type
    | none => "()".toList
  "@escaping ".toList ++ parameters ++ " -> ".toList ++ result

/-- The type that the first cast of a sequence names. -/
def castType? : List Expression → Option TypeTree
  | .cast _ _ :: .typeOperand type _ :: _ => some type
  | _ :: es => castType? es
  | [] => none

end Signature

open Signature

mutual

/-- The signature that an initializer tells. -/
def Expression.signature : Expression → Text
  | .integer _ => "Int".toList
  | .float _ => "CGFloat".toList
  | .string _ _ => "String".toList
  | .boolean _ _ => "Bool".toList
  | .nilLiteral _ => nilSentinel
  | .keyPath _ => keyPathSentinel
  | .closure c => ofClosure c.signature
  | .array elements _ =>
    '[' :: (common? (signatures elements)).getD "Any".toList ++ [']']
  | .dictionary entries _ =>
    let types := entrySignatures entries
    '[' :: (common? (types.map Prod.fst)).getD "AnyHashable".toList ++ ": ".toList ++
      (common? (types.map Prod.snd)).getD "Any".toList ++ [']']
  | .tuple elements _ => '(' :: Text.join ", ".toList (argumentSignatures elements) ++ [')']
  | .call called _ _ _ _ => Text.trim called.toText
  | .sequence elements _ => ((castType? elements).map TypeTree.signature).getD "Any".toList
  | e => Text.trim e.toText

def signatures : List Expression → List Text
  | [] => []
  | e :: es => e.signature :: signatures es

def entrySignatures : List Entry → List (Text × Text)
  | [] => []
  | ⟨key, value, _⟩ :: es => (key.signature, value.signature) :: entrySignatures es

def argumentSignatures : List Argument → List Text
  | [] => []
  | ⟨e, label, _⟩ :: as =>
    (match label with
      | some l => l ++ ": ".toList ++ e.signature
      | none => e.signature) :: argumentSignatures as

end

-- members that do not agree can be anything
example : (Expression.array [.integer ['1'], .float "2.5".toList] []).signature = "[Any]".toList := by cbv

/-- The signature of a property, if it has an annotation or an initializer. -/
def Property.signature? (p : Property) : Option Text :=
  (p.type.map TypeTree.signature).or (p.initializer.map Expression.signature)

end SwiftMacros
