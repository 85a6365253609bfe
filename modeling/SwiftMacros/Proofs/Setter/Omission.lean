import Mathlib
import SwiftMacros.Grammar.Closed
import SwiftMacros.Setter.Method

/-! Which properties get no setter. A signature is known to be a sentinel only by its spelling, so a
property is left out if its initializer is a `nil` or a key path, and also if what is written for its
type happens to be `Nil` or `KeyPath`. Brackets around a sentinel hide it. -/

namespace SwiftMacros

open Signature

namespace Signature

/-- A sentinel consists of letters. -/
theorem isSentinel_of_mem {s : Text} {c : Char} (hc : c ∈ s) (h : c.isAlpha = false) :
    isSentinel s = false := by
  rw [isSentinel, Bool.or_eq_false_iff, beq_eq_false_iff_ne, beq_eq_false_iff_ne]
  have hletters : (nilSentinel ++ keyPathSentinel).all Char.isAlpha = true := rfl
  have hne : c ∉ nilSentinel ++ keyPathSentinel := fun hmem => by
    rw [List.all_eq_true.mp hletters c hmem] at h
    cases h
  constructor <;> rintro rfl <;> simp [hc] at hne

end Signature

namespace TypeTree

/-- A type that can be called, so that behind `!` it has to outlive the call. -/
def isCallable : TypeTree → Bool
  | tuple _ _ | function _ _ _ _ => true
  | _ => false

section Signature

variable (T U : TypeTree) (elements : List TypeElement) (specifier text : Text)

theorem signature_optional : (optional T text).signature = T.signature ++ ['?'] := rfl

theorem signature_unwrapped : (unwrapped T text).signature =
    if T.isCallable then "@escaping ".toList ++ T.signature else T.signature := by
  cases T <;> rfl

theorem signature_tuple : (tuple elements text).signature =
    '(' :: Text.join ", ".toList (elements.map fun e => Text.trim e.text) ++ [')'] := rfl

theorem signature_metatype :
    (metatype T specifier text).signature = T.signature ++ '.' :: specifier := rfl

theorem signature_array :
    (array T text).signature = '[' :: Text.trim T.text ++ [']'] := rfl

theorem signature_dictionary : (dictionary T U text).signature =
    '[' :: T.signature ++ ": ".toList ++ U.signature ++ [']'] := rfl

end Signature

/-- What is written for a type, where that stands for its signature as it is: the types with brackets,
a `?` or a metatype suffix around their parts have nothing of the kind. -/
def spelling? : TypeTree → Option Text
  | named name generics _ => some (name ++ generics)
  | unwrapped wrapped _ => if wrapped.isCallable then none else wrapped.spelling?
  | member _ _ text | function _ _ _ text | attributed _ _ text | constrained _ _ text
  | composition _ text | raw text => some (Text.trim text)
  | optional _ _ | tuple _ _ | metatype _ _ _ | array _ _ | dictionary _ _ _ => none

/-- An annotation passes for a sentinel by its spelling only. -/
theorem isSentinel_signature (T : TypeTree) :
    isSentinel T.signature = T.spelling?.any isSentinel := by
  match T with
  | named _ _ _ | member _ _ _ | function _ _ _ _ | attributed _ _ _ | constrained _ _ _
  | composition _ _ | raw _ => rfl
  | optional wrapped text =>
    rw [signature_optional]
    exact isSentinel_of_mem (c := '?') (by simp) rfl
  | tuple elements text =>
    rw [signature_tuple]
    exact isSentinel_of_mem (c := '(') (by simp) rfl
  | metatype base specifier text =>
    rw [signature_metatype]
    exact isSentinel_of_mem (c := '.') (by simp) rfl
  | array element text =>
    rw [signature_array]
    exact isSentinel_of_mem (c := '[') (by simp) rfl
  | dictionary key value text =>
    rw [signature_dictionary]
    exact isSentinel_of_mem (c := '[') (by simp) rfl
  | unwrapped wrapped text =>
    rw [signature_unwrapped, spelling?]
    split
    · exact isSentinel_of_mem (c := '@') (by simp) rfl
    · exact isSentinel_signature wrapped

end TypeTree

namespace Expression

/-- A literal that tells no type: `nil` or a key path. -/
def isMute : Expression → Bool
  | nilLiteral _ | keyPath _ => true
  | _ => false

/-- What is written for the type of an initializer, where that stands for its signature as it is: what
a call calls, the type that the first cast names, and the whole of a form without a rule of its own.
Literals, collections and closures have nothing of the kind. -/
def spelling? : Expression → Option Text
  | call called _ _ _ _ => some (Text.trim called.toText)
  | sequence elements _ => (castType? elements).bind TypeTree.spelling?
  | integer _ | float _ | string _ _ | boolean _ _ | nilLiteral _ | keyPath _ | closure _
  | array _ _ | dictionary _ _ | tuple _ _ => none
  | e => some (Text.trim e.toText)

/-- The signature of an initializer is a sentinel if it is a mute literal, or spelled like one. -/
theorem isSentinel_signature (e : Expression) :
    isSentinel e.signature = (e.isMute || e.spelling?.any isSentinel) := by
  cases e with
  | closure c => exact isSentinel_of_mem (c := '@') (List.mem_append_left _ (by simp)) rfl
  | array _ _ | dictionary _ _ => exact isSentinel_of_mem (c := '[') List.mem_cons_self rfl
  | tuple _ _ => exact isSentinel_of_mem (c := '(') List.mem_cons_self rfl
  | sequence elements text =>
    change isSentinel (((castType? elements).map TypeTree.signature).getD "Any".toList) =
      ((castType? elements).bind TypeTree.spelling?).any isSentinel
    cases castType? elements with
    | none => rfl
    | some T => exact T.isSentinel_signature
  | _ => rfl

end Expression

mutual

/-- Whether a `nil` or a key path has left a sentinel in the signature of an initializer: as all of it,
or within array, dictionary and tuple literals. -/
def Expression.isUntold : Expression → Bool
  | .nilLiteral _ | .keyPath _ => true
  | .array elements _ => (common? (signatures elements)).isSome && anyUntold elements
  | .dictionary entries _ =>
    ((common? ((entrySignatures entries).map Prod.fst)).isSome && anyKeyUntold entries) ||
      ((common? ((entrySignatures entries).map Prod.snd)).isSome && anyValueUntold entries)
  | .tuple elements _ => anyArgumentUntold elements
  | _ => false

def anyUntold : List Expression → Bool
  | [] => false
  | e :: es => e.isUntold || anyUntold es

def anyKeyUntold : List Entry → Bool
  | [] => false
  | ⟨key, _, _⟩ :: es => key.isUntold || anyKeyUntold es

def anyValueUntold : List Entry → Bool
  | [] => false
  | ⟨_, value, _⟩ :: es => value.isUntold || anyValueUntold es

def anyArgumentUntold : List Argument → Bool
  | [] => false
  | ⟨e, _, _⟩ :: as => e.isUntold || anyArgumentUntold as

end

/-- A sentinel inside a collection is no sentinel: of the initializers that tell no type only the mute
literals themselves are recognized. -/
theorem Expression.isSentinel_of_isUntold {e : Expression} (h : e.isUntold = true) :
    isSentinel e.signature = e.isMute := by
  rw [isSentinel_signature]
  cases e with
  | nilLiteral _ | keyPath _ | array _ _ | dictionary _ _ | tuple _ _ => rfl
  | _ => cases h

namespace Property

/-- A property without a usable type: its annotation is spelled like a sentinel, or it has none and
its initializer is a mute literal or spelled like a sentinel. -/
def isOmitted (p : Property) : Bool :=
  match p.type with
  | some T => T.spelling?.any isSentinel
  | none => p.initializer.any fun e => e.isMute || e.spelling?.any isSentinel

/-- A property whose own signature holds a sentinel of a mute literal, and no annotation. -/
def isUntyped (p : Property) : Bool :=
  p.type.isNone && p.initializer.any Expression.isUntold

theorem isOmitted_eq (p : Property) : p.isOmitted = p.signature?.any isSentinel := by
  unfold isOmitted signature?
  cases p.type with
  | some T => exact T.isSentinel_signature.symm
  | none =>
    cases p.initializer with
    | none => rfl
    | some e => exact e.isSentinel_signature.symm

end Property

namespace Setter

/-- The setters with a signature of some kind are those of the properties with such a signature. -/
theorem filter_ofProperties (q : Text → Bool) (ps : List Property) :
    (ofProperties ps).filter (fun s => q s.signature) =
      ofProperties (ps.filter fun p => p.signature?.any q) := by
  induction ps with
  | nil => rfl
  | cons p ps ih =>
    simp only [ofProperties, List.filterMap_cons, List.filter_cons] at ih ⊢
    cases hs : p.signature? with
    | none => simpa [hs] using ih
    | some s =>
      cases hq : q s
      · simpa [hs, hq] using ih
      · simpa [hs, hq] using ih

theorem filter_not_ofProperties (q : Text → Bool) (ps : List Property) :
    (ofProperties ps).filter (fun s => !q s.signature) =
      ofProperties (ps.filter fun p => !p.signature?.any q) := by
  induction ps with
  | nil => rfl
  | cons p ps ih =>
    simp only [ofProperties, List.filterMap_cons, List.filter_cons] at ih ⊢
    cases hs : p.signature? with
    | none => simpa [hs] using ih
    | some s =>
      cases hq : q s
      · simpa [hs, hq] using ih
      · simpa [hs, hq] using ih

end Setter

namespace Group

/-- The ordinary mutable stored properties that the members declare. -/
def candidates (g : Group) : List Property :=
  (g.block.members.flatMap Member.properties).filter Property.isEligible

theorem eligibleProperties_eq {g : Group} {kind : Composite} (h : g.composite = .ok kind) :
    g.eligibleProperties = .ok g.candidates := by
  rw [eligibleProperties, properties, h]
  rfl

/-- A struct or class gets a setter for each property that is not omitted, and one warning for each
that is, both in source order. -/
theorem setters_omitted {g : Group} {kind : Composite} (h : g.composite = .ok kind) :
    g.setters = .ok {
      kind
      setters := Setter.ofProperties (g.candidates.filter fun p => !p.isOmitted)
      warnings := (Setter.ofProperties (g.candidates.filter Property.isOmitted)).map
        (Setter.warning g.name) } := by
  have homitted : Property.isOmitted = fun p => p.signature?.any isSentinel :=
    funext Property.isOmitted_eq
  have hsetters : g.setters = .ok {
      kind
      setters := (Setter.ofProperties g.candidates).filter fun s => !isSentinel s.signature
      warnings := ((Setter.ofProperties g.candidates).filter fun s => isSentinel s.signature).map
        (Setter.warning g.name) } := by
    rw [setters, h, eligibleProperties_eq h]
    rfl
  rw [hsetters, homitted, Setter.filter_ofProperties, Setter.filter_not_ofProperties]

/-- The property without any type in a struct is left out. -/
theorem setters_omitted_struct : ∃ g,
    Parser.runOn Parser.group "struct A \x7b var x = nil; var y: Int \x7d".toList = .ok g ∧
      g.setters = .ok {
        kind := .value
        setters := [⟨"y".toList, "Int".toList⟩]
        warnings := [Setter.warning "A".toList ⟨"x".toList, nilSentinel⟩] } := by
  have hread : ((Parser.runOn Parser.group
      "struct A \x7b var x = nil; var y: Int \x7d".toList).toOption.map fun g =>
        (g.name, g.composite.toOption, Setter.ofProperties (g.candidates.filter fun p => !p.isOmitted),
          Setter.ofProperties (g.candidates.filter Property.isOmitted))) =
      some ("A".toList, some .value, [⟨"y".toList, "Int".toList⟩], [⟨"x".toList, nilSentinel⟩]) := by
    decide +kernel
  cases hg : Parser.runOn Parser.group "struct A \x7b var x = nil; var y: Int \x7d".toList with
  | error e =>
    rw [hg] at hread
    cases hread
  | ok g =>
    rw [hg] at hread
    obtain ⟨hname, hkind, hkept, homitted⟩ : g.name = "A".toList ∧ g.composite.toOption = some .value ∧
        Setter.ofProperties (g.candidates.filter fun p => !p.isOmitted) = [⟨"y".toList, "Int".toList⟩] ∧
        Setter.ofProperties (g.candidates.filter Property.isOmitted) = [⟨"x".toList, nilSentinel⟩] := by
      simpa [Except.toOption] using hread
    have hcomposite : g.composite = .ok .value := by
      cases h : g.composite with
      | error e => rw [h] at hkind; cases hkind
      | ok kind => rw [h] at hkind; cases hkind; rfl
    refine ⟨g, rfl, ?_⟩
    rw [setters_omitted hcomposite, hkept, homitted, hname]
    rfl

/-- A name that an annotation gives is taken for a sentinel, and a sentinel in brackets for a name. -/
theorem setters_annotated : ((Parser.runOn Parser.group
    "struct A \x7b var x: Nil; var y = [nil] \x7d".toList).toOption.bind fun g =>
      g.setters.toOption.map fun l =>
        (l.setters, Setter.ofProperties (g.candidates.filter fun p => !p.isUntyped))) =
    some ([⟨"y".toList, "[Nil]".toList⟩], [⟨"x".toList, "Nil".toList⟩]) := by
  decide +kernel

end Group

end SwiftMacros
