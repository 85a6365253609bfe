import SwiftMacros.Diagnostic.Basic
import SwiftMacros.Value.Coercion

/-! Diagnostics from the entries of a table. The message is required; the place can be null. -/

namespace SwiftMacros

namespace Diagnostic

/-- A reader that lets a null stand for nothing. -/
def optional {α : Type} (read : Value → Except Invalid α) : Value → Except Invalid (Option α)
  | .null => .ok none
  | v => (read v).map some

def ofEntries (co : Coercions) (es : Entries) : Except (List FieldError) Diagnostic :=
  let message : Except (List FieldError) Text :=
    match es.get? "message".toList with
    | none => .error [⟨"message".toList, none, .missing⟩]
    | some _ => es.read "message" [] (single co.toText)
  let name := es.read "macro" [] (single co.toText)
  let line := es.read "line" none (single (optional co.toInteger))
  let column := es.read "column" none (single (optional co.toInteger))
  let path := es.read "path" none (single (optional co.toText))
  match message, name, line, column, path with
  | .ok message, .ok name, .ok line, .ok column, .ok path =>
    .ok ⟨message, name, line, column, path⟩
  | a, b, c, d, e => .error (errorsOf a ++ errorsOf b ++ errorsOf c ++ errorsOf d ++ errorsOf e)

end Diagnostic

end SwiftMacros
