import SwiftMacros.Path.Basic
import SwiftMacros.Settings.Load

/-! What a command shows: text on the standard output and, beside it, messages, tables and lines for
the reader, in the order in which they come. The messages of a command and the cells of its tables
are markup; they are kept as they are shown. Markup that cannot be shown breaks the command off, and so
does whatever else it does not answer to. -/

namespace SwiftMacros.Command

inductive Level where
  | info | success | warning | error
  deriving DecidableEq, Repr, Inhabited

def Level.name : Level → String
  | info => "INFO"
  | success => "SUCCESS"
  | warning => "WARNING"
  | error => "ERROR"

/-- The sign that a message of a command begins with. -/
def Level.sign : Level → String
  | info => "ℹ️  "
  | success => "✅ "
  | warning => "⚠️  "
  | error => "❌ "

inductive Shown where
  | message (level : Level) (text : Text)
  | table (title : Text) (columns : List Text) (rows : List (List Text))
  | line (text : Text)
  deriving Repr, Inhabited

/-- Text for the reader: the cells of a row stand between bars. -/
def Shown.toText : Shown → Text
  | .message level text => level.name.toList ++ ' ' :: text
  | .table title columns rows =>
    Text.join ['\n'] (title :: (columns :: rows).map (Text.join " | ".toList))
  | .line text => text

structure Output where
  stdout : Text := []
  shown : List Shown := []
  deriving Inhabited

/-- What a command does not answer to. -/
inductive Unhandled where
  /-- Settings that cannot be loaded. -/
  | settings (e : Settings.LoadError)
  /-- Markup that cannot be shown. -/
  | markup (text : Text)
  /-- A unit of indentation that is too wide for a text. -/
  | indent (width : Nat)
  /-- A source that can be read no more when it is compared with its expansion. -/
  | source (message : Text)
  deriving DecidableEq, Repr, Inhabited

/-- How a command ends. -/
inductive Ending where
  | code (n : Nat)
  /-- Ended while the arguments were read: 2 if they are wrong, 0 if only help was asked for. -/
  | usage (n : Nat)
  /-- Broken off, without a code. -/
  | unhandled (e : Unhandled)
  deriving DecidableEq, Repr, Inhabited

/-- The code that the program ends with. -/
def Ending.exitCode : Ending → Nat
  | .code n => n
  | .usage n => n
  | .unhandled _ => 1

/-- Actions of a command on files in `m` that show something and can be broken off. -/
abbrev Session (m : Type → Type) := ExceptT Unhandled (StateT Output m)

section

variable {m : Type → Type} [Monad m]

/-- How a session that answers with a code ends, and what it has shown until then. -/
def Session.finish (a : Session m Nat) : m (Ending × Output) := do
  let (answer, output) ← a.run.run {}
  return match answer with
    | .ok n => (.code n, output)
    | .error e => (.unhandled e, output)

def emit (s : Shown) : Session m Unit := modify fun o => { o with shown := o.shown ++ [s] }

/-- What is shown of markup. -/
def rendered (markup : Text) (shown : Option Text) : Session m Text :=
  match shown with
  | some t => return t
  | none => throw (.markup markup)

/-- Shows a text that a module has worded, without a sign. -/
def note (c : Console) (text : Text) : Session m Unit := do
  emit (.message .warning (← rendered text (c.notice text)))

/-- Shows a message behind the sign of its level. -/
def log (c : Console) (level : Level) (parts : List Console.Part) : Session m Unit := do
  let markup := c.message (.words level.sign.toList :: parts)
  emit (.message level (← rendered markup (c.render markup)))

/-- Shows a table whose cells hold texts as they are. -/
def tabulate (c : Console) (title : Text) (columns : List Text) (rows : List (List Text)) :
    Session m Unit := do
  let rows ← rows.mapM fun row => row.mapM fun cell =>
    let markup := c.message [.shown cell]
    rendered markup (c.render markup)
  emit (.table title columns rows)

def write (text : Text) : Session m Unit :=
  modify fun o => { o with stdout := o.stdout ++ text }

end

end SwiftMacros.Command
