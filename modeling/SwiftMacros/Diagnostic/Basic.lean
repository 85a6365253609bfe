import SwiftMacros.Text.Basic

/-! Diagnostics: what went wrong at one site, or with a whole source. -/

namespace SwiftMacros

structure Diagnostic where
  message : Text
  macroName : Text := []
  line : Option Int := none
  column : Option Int := none
  path : Option Text := none
  deriving DecidableEq, Repr, Inhabited

namespace Diagnostic

/-- A number behind a colon. -/
def position (n : Int) : Text := ':' :: (toString n).toList

/-- The place, the macro if there is one, and the message. A column counts only behind a line. -/
def format (d : Diagnostic) : Text :=
  let source := (d.path.filter (!·.isEmpty)).getD "<string>".toList
  let place := match d.line with
    | some line => position line ++ ((d.column.map position).getD [])
    | none => []
  let name := if d.macroName.isEmpty then [] else '[' :: d.macroName ++ "] ".toList
  source ++ place ++ ": ".toList ++ name ++ d.message

end Diagnostic

end SwiftMacros
