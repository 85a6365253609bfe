import SwiftMacros.Text.Basic

/-! The settings of an expansion: the names of the two macros, the layout of generated code, how
failures are met, how often nested sites are tried again, and which files of a directory count. -/

namespace SwiftMacros

structure Settings where
  fluentSetter : Text := "fluentSetterMacro".toList
  weakSelf : Text := "WeakSelfClosure".toList
  indentWidth : Nat := 4
  strict : Bool := false
  maxPasses : Nat := 4
  fileExtensions : List Text := [".swift".toList]
  one_le_indentWidth : 1 ≤ indentWidth := by decide
  one_le_maxPasses : 1 ≤ maxPasses := by decide

instance : Inhabited Settings := ⟨{}⟩

/-- One unit of indentation. -/
def Settings.indent (s : Settings) : Text := Text.spaces s.indentWidth

/-- The greatest length that a text can be asked for. -/
def Text.maxLength : Nat := 9223372036854775807

/-- Whether no text is as long as the unit of indentation. -/
def Settings.isTooWide (s : Settings) : Bool := decide (Text.maxLength < s.indentWidth)

end SwiftMacros
