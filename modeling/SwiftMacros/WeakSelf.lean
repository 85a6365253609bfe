import SwiftMacros.Fault
import SwiftMacros.Tree.Render

/-! Closures that capture `self` weakly. The capture is added behind the others, and the body starts
with a guard that returns once `self` is gone; everything else stays. -/

namespace SwiftMacros

namespace WeakSelf

def capture : Capture := ⟨.reference "self".toList [], some "weak".toList, none, []⟩

/-- The guard, over three lines. -/
def guardStatement (indent : Text) : Statement :=
  ⟨Text.joinLines ["guard let self else \x7b".toList, indent ++ "return".toList, "\x7d".toList], []⟩

/-- A signature with the weak capture behind its own captures. -/
def addCapture : Option Signature → Signature
  | none => ⟨some ⟨[capture], []⟩, none, [], none, [], []⟩
  | some s =>
    let items := match s.capture with
      | some c => c.items
      | none => []
    { s with capture := some ⟨items ++ [capture], []⟩, text := [] }

def weakenClosure (indent : Text) (c : Closure) : Closure :=
  { signature := some (addCapture c.signature)
    statements := guardStatement indent :: c.statements
    text := []
    indentUnit := indent }

/-- The trailing closure of a macro, made to capture `self` weakly. -/
def weaken (indent : Text) (e : MacroExpansion) : Except MacroError Closure :=
  match e.trailing with
  | some c => .ok (weakenClosure indent c)
  | none => .error ⟨.missingClosure e.name, some e.line, some e.column⟩

end WeakSelf

end SwiftMacros
