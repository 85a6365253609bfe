import SwiftMacros.Value.Coercion

/-! What the program leaves to others: how values are coerced, what is wrong with a text that is no
TOML, and how messages are shown. Messages are written in markup, in which tags in brackets set a style;
markup whose tags do not fit together cannot be shown. -/

namespace SwiftMacros

/-- What shows messages. -/
structure Console where
  /-- Markup that shows a text as it is. -/
  escape : Text → Text
  /-- What markup shows, if it can be shown. -/
  render : Text → Option Text
  /-- What is shown of a text that is handed over as it is, if it can be taken for markup. -/
  notice : Text → Option Text

structure Library where
  coercions : Coercions
  console : Console
  /-- What is told of a text that is no TOML. -/
  tomlFault : Text → Text

namespace Console

/-- A part of a message. -/
inductive Part where
  /-- Words of the message itself. -/
  | words (t : Text)
  /-- A text that is shown as it is. -/
  | shown (t : Text)
  /-- A path, in the style of paths. -/
  | path (t : Text)
  /-- A text that stands in the message as markup. -/
  | markup (t : Text)

variable (c : Console)

/-- The markup of a part. -/
def part : Part → Text
  | .words t | .markup t => t
  | .shown t => c.escape t
  | .path t => "[path]".toList ++ c.escape t ++ "[/path]".toList

/-- The markup of a message. -/
def message (ps : List Part) : Text := ps.flatMap c.part

end Console

end SwiftMacros
