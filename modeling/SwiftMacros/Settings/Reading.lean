import SwiftMacros.Settings.Basic
import SwiftMacros.Value.Coercion
import SwiftMacros.Text.Blank

/-! Settings from the entries of a table, whose values are coerced first. Every field can be left out; unknown keys are ignored. All
fields that are not accepted are reported together, in the order of the fields. -/

namespace SwiftMacros

namespace Settings

/-- The name of a macro, without white space around it and without the sigils it can be written
with. -/
def readName (co : Coercions) (v : Value) : Except Invalid Text := do
  let given ← co.toText v
  let name := (Text.trim given).dropWhile fun c => c == '@' || c == '#'
  if Text.isIdentifier name then return name else throw (.badName given)

/-- A number that has to be one at least. -/
def readPositive (co : Coercions) (v : Value) : Except Invalid { n : Nat // 1 ≤ n } := do
  let n ← co.toInteger v
  if h : 1 ≤ n.toNat then return ⟨n.toNat, h⟩ else throw .tooSmall

/-- The texts of a list, or the errors of its items. -/
def readTexts (co : Coercions) : Nat → List Value → Except (List (Option Nat × Invalid)) (List Text)
  | _, [] => .ok []
  | i, v :: vs =>
    match co.toText v, readTexts co (i + 1) vs with
    | .ok t, .ok ts => .ok (t :: ts)
    | .ok _, .error errors => .error errors
    | .error e, .ok _ => .error [(some i, e)]
    | .error e, .error errors => .error ((some i, e) :: errors)

/-- An extension with the dot that it starts with. -/
def dotted (t : Text) : Text := if t.head? == some '.' then t else '.' :: t

def readExtensions (co : Coercions) (v : Value) :
    Except (List (Option Nat × Invalid)) (List Text) := do
  let vs ← single co.toList v
  return (← readTexts co 0 vs).map dotted

/-- The settings that a table gives. -/
def ofEntries (co : Coercions) (es : Entries) : Except (List FieldError) Settings :=
  let defaults : Settings := default
  let fluentSetter :=
    es.read "fluent_setter_macro" defaults.fluentSetter (single (readName co))
  let weakSelf := es.read "weak_self_macro" defaults.weakSelf (single (readName co))
  let indentWidth :=
    es.read "indent_width" ⟨_, defaults.one_le_indentWidth⟩ (single (readPositive co))
  let strict := es.read "strict_mode" defaults.strict (single co.toBoolean)
  let maxPasses := es.read "max_passes" ⟨_, defaults.one_le_maxPasses⟩ (single (readPositive co))
  let fileExtensions := es.read "file_extensions" defaults.fileExtensions (readExtensions co)
  match fluentSetter, weakSelf, indentWidth, strict, maxPasses, fileExtensions with
  | .ok fluentSetter, .ok weakSelf, .ok ⟨indentWidth, hi⟩, .ok strict, .ok ⟨maxPasses, hm⟩,
      .ok fileExtensions =>
    .ok ⟨fluentSetter, weakSelf, indentWidth, strict, maxPasses, fileExtensions, hi, hm⟩
  | a, b, c, d, e, f =>
    .error (errorsOf a ++ errorsOf b ++ errorsOf c ++ errorsOf d ++ errorsOf e ++ errorsOf f)

end Settings

end SwiftMacros
