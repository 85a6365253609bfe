import SwiftMacros.Setter.Method
import SwiftMacros.WeakSelf
import SwiftMacros.Settings.Basic
import SwiftMacros.Text.Quoted

/-! Macros. A macro is attached to a declaration and adds members to it, or stands in place of an
expression and is replaced. Besides the two that are built in, a macro can be any function of the
declaration or the expansion it is given and of the run that it is given it in. -/

namespace SwiftMacros

/-- Where a macro stands and what it produces. -/
inductive Role where
  | member | expression
  deriving DecidableEq, Repr, Inhabited

/-- What a macro answers at a site, and what it warns of. -/
structure Production (α : Type) where
  result : Except SiteError α
  warnings : List Text := []

namespace Production

variable {α β : Type}

def refuse (e : MacroError) : Production α := ⟨.error (.refused e), []⟩

def map (f : α → β) (p : Production α) : Production β := ⟨p.result.map f, p.warnings⟩

end Production

/-- The run that a site is met in: its settings, the path of the source if it has one, and the unit of
indentation if the site has its own. -/
structure Context where
  settings : Settings
  path : Option Text := none
  unit : Text := []

namespace Context

def indent (c : Context) : Text := if c.unit.isEmpty then c.settings.indent else c.unit

def withIndent (c : Context) (unit : Text) : Context := { c with unit }

end Context

/-- What a macro does. -/
inductive Action where
  /-- Adds a setter for each property of a struct or class. -/
  | setters
  /-- Makes the trailing closure capture `self` weakly. -/
  | weakCapture
  | members (expand : Context → Group → Attribute → Production (List Text))
  | expression (expand : Context → MacroExpansion → Production Text)

structure Macro where
  name : Text
  /-- The name of the kind of macro. -/
  kind : Text
  action : Action

namespace Macro

def fluentSetter (name : Text) : Macro := ⟨name, "FluentSetterMacro".toList, .setters⟩

def weakSelf (name : Text) : Macro := ⟨name, "WeakSelfClosureMacro".toList, .weakCapture⟩

def role (m : Macro) : Role :=
  match m.action with
  | .setters | .members _ => .member
  | .weakCapture | .expression _ => .expression

/-- A macro as messages show it: its kind and its quoted name. -/
def describe (m : Macro) : Text := m.kind ++ '(' :: Text.quoted m.name ++ [')']

/-- The members that a member macro adds to `g`. -/
def expandMember (m : Macro) (ctx : Context) (g : Group) (a : Attribute) : Production (List Text) :=
  match m.action with
  | .setters =>
    match g.setters with
    | .ok l => ⟨.ok (Setter.methods l.kind a.access ctx.indent l.setters), l.warnings⟩
    | .error e => .refuse e
  | .members expand => expand ctx g a
  | _ => ⟨.ok [], []⟩

/-- The text that an expression macro is replaced with. -/
def expandExpression (m : Macro) (ctx : Context) (e : MacroExpansion) : Production Text :=
  match m.action with
  | .weakCapture =>
    match WeakSelf.weaken ctx.indent e with
    | .ok c => ⟨.ok c.toText, []⟩
    | .error e => .refuse e
  | .expression expand => expand ctx e
  | _ => ⟨.ok e.text, []⟩

end Macro

/-! A registry of macros: each name stands for one macro, whatever its role. The order is that of
the first registration of each name. -/

structure Registry where
  entries : List (Text × Macro) := []

namespace Registry

/-- `m` in place of what `name` stands for, or behind all others. -/
def insertEntry (name : Text) (m : Macro) : List (Text × Macro) → List (Text × Macro)
  | [] => [(name, m)]
  | e :: es => if e.1 = name then (name, m) :: es else e :: insertEntry name m es

def register (r : Registry) (name : Text) (m : Macro) : Registry :=
  ⟨insertEntry name m r.entries⟩

def find? (r : Registry) (name : Text) : Option Macro :=
  (r.entries.find? fun e => e.1 == name).map Prod.snd

/-- The macro that `name` stands for, if it has the role. -/
def withRole? (r : Registry) (name : Text) (role : Role) : Option Macro :=
  (r.find? name).filter (·.role == role)

def names (r : Registry) : List Text := r.entries.map Prod.fst

def namesWithRole (r : Registry) (role : Role) : List Text :=
  (r.entries.filter (·.2.role == role)).map Prod.fst

def contains (r : Registry) (name : Text) : Bool := (r.find? name).isSome

def size (r : Registry) : Nat := r.entries.length

/-- The two macros that are built in, under the names that the settings give them. -/
def ofSettings (s : Settings) : Registry :=
  ({} : Registry)
    |>.register s.fluentSetter (Macro.fluentSetter s.fluentSetter)
    |>.register s.weakSelf (Macro.weakSelf s.weakSelf)

end Registry

end SwiftMacros
