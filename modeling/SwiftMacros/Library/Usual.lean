import SwiftMacros.Library.Basic
import SwiftMacros.Markup

/-! The library that the program runs with. -/

namespace SwiftMacros

/-- Messages and notices alike are markup with tags in brackets. -/
def Markup.console : Console := ⟨escape, render?, render?⟩

def Library.usual : Library :=
  { coercions := Value.lax
    console := Markup.console
    tomlFault := fun _ => "Invalid document".toList }

end SwiftMacros
