import SwiftMacros.Expansion.Edit
import SwiftMacros.Grammar.Closed
import SwiftMacros.Macro.Basic
import SwiftMacros.Trace.Basic
import SwiftMacros.Diagnostic.Basic

/-! Sites of macros and the attempts to expand them. A member macro stands at an attribute with its
name, an expression macro at a `#` and its name. An attempt reads the source at the site, hands it
to the macro, and lays out the answer as edits; it changes nothing yet. -/

namespace SwiftMacros

/-- A macro and the token that names it. -/
structure Site where
  called : Macro
  token : Token

namespace Site

/-- The kind of the tokens at which macros of a role stand. -/
def tokenKind : Role → Token.Kind
  | .member => .atName
  | .expression => .poundName

/-- The sites of a role among tokens, in source order. -/
def all (r : Registry) (role : Role) (ts : List Token) : List Site :=
  ts.filterMap fun t =>
    if t.kind = tokenKind role then (r.withRole? (t.text.drop 1) role).map (⟨·, t⟩) else none

/-- A site as traces show it. -/
def label (s : Site) : Text :=
  (if s.called.role = .member then '@' else '#') :: s.called.name ++ " (line ".toList ++
    Text.ofNat s.token.line ++ [')']

/-- The rest of the line that a site starts on. -/
def snippet (code : Text) (s : Site) : Text :=
  Text.trim (Text.slice code s.token.start (Text.lineEnd code s.token.start))

end Site

/-- What an expansion covers, the edits it consists of, and the texts that traces show of it. -/
structure Expanded where
  span : Span
  edits : List Edit
  before : Text
  after : Text

/-- The word that a declaration without members of its own is reported by. -/
def Member.keyword : Member → Text
  | binding _ => "var".toList
  | other keyword _ => keyword

/-- The type declaration that the cursor stands before. -/
def Parser.annotatedGroup (t : Token) : Parser (Except SiteError Group) := do
  match ← Parser.declaration with
  | .group g => return .ok g
  | .member m =>
    return .error (.refused ⟨.unsupportedDeclaration m.keyword, some t.line, some t.column⟩)

namespace Expanded

/-- The members that a macro adds to a declaration, and the removal of the attribute. -/
def ofMember (ctx : Context) (code : Text) (m : Macro) (g : Group) (a : Attribute) :
    Production Expanded :=
  let outer := Text.lineIndent code g.start
  let inner := (g.block.indent? code).getD (outer ++ ctx.indent)
  (m.expandMember (ctx.withIndent (unitFor inner ctx.indent)) g a).map fun members =>
    let removal := Edit.removal code a.start a.stop
    { span := (g.start, g.stop)
      edits :=
        if members.isEmpty then [removal]
        else [removal, Edit.insertion code g.block members outer inner]
      before := Text.slice code g.start g.stop
      after := Text.join "\n\n".toList members }

/-- The text in place of a macro, continued at the indent of its line. -/
def ofExpression (ctx : Context) (code : Text) (m : Macro) (e : MacroExpansion) :
    Production Expanded :=
  let indent := Text.lineIndent code e.start
  (m.expandExpression (ctx.withIndent (unitFor indent ctx.indent)) e).map fun text =>
    let replacement := Edit.indentContinuation indent text
    { span := (e.start, e.stop)
      edits := [⟨e.start, e.stop, replacement⟩]
      before := e.text
      after := replacement }

end Expanded

/-- What came of a site. -/
structure Attempt where
  site : Site
  production : Production Expanded

namespace Attempt

def expanded? (a : Attempt) : Option Expanded := a.production.result.toOption

def failure? (a : Attempt) : Option SiteError :=
  match a.production.result with
  | .ok _ => none
  | .error e => some e

/-- The marks that an attempt leaves in the trace. -/
def marks (a : Attempt) : List Trace.Mark :=
  let outcome : Trace.Mark := match a.production.result with
    | .ok x => .mutation a.site.label x.before x.after
    | .error e => .inspection a.site.label "failed".toList e.message
  .found a.site.called.name a.site.token.text a.site.token.line ::
    a.production.warnings.map .warning ++ [outcome]

/-- The diagnostic of a failure at a site. -/
def diagnostic (s : Site) (e : SiteError) : Diagnostic :=
  { message := e.message
    macroName := s.called.name
    line := some s.token.line
    column := some s.token.column }

end Attempt

/-- What a member macro makes of the declaration that its attribute stands before. -/
def Parser.memberSite (ctx : Context) (s : Site) : Parser (Production Expanded) := do
  let code := (← get).source
  match ← Parser.annotatedGroup s.token with
  | .error e => return ⟨.error e, []⟩
  | .ok g =>
    match g.attributes with
    | [] => return .refuse ⟨.unsupportedDeclaration g.keyword, some g.line, some g.column⟩
    | a :: _ => return Expanded.ofMember ctx code s.called g a

/-- What an expression macro makes of the expression that it starts. -/
def Parser.expressionSite (ctx : Context) (s : Site) : Parser (Production Expanded) := do
  let code := (← get).source
  return Expanded.ofExpression ctx code s.called (← Parser.expansion)

/-- Whether a site is read up to where its expansion is laid out. -/
def Site.isRead (s : Site) (c : Cursor) : Bool × Cursor :=
  let p : Parser Bool := do
    Parser.seek s.token.start
    match s.called.role with
    | .member => return (← Parser.annotatedGroup s.token).toOption.isSome
    | .expression =>
      let _ ← Parser.expansion
      return true
  match p c with
  | .ok isRead c' => (isRead, c')
  | .error _ c' => (false, c')

/-- Whether some site is laid out. In strict mode none is behind one that cannot be read. -/
def Site.anyRead (strict : Bool) : List Site → Cursor → Bool × Cursor
  | [], c => (false, c)
  | s :: ss, c =>
    let (isRead, c') := s.isRead c
    if isRead || strict then (isRead, c') else anyRead strict ss c'

/-- What a site expands to; the cursor ends where reading it ended. -/
def Site.attempt (ctx : Context) (s : Site) (c : Cursor) : Attempt × Cursor :=
  let p : Parser (Production Expanded) := do
    Parser.seek s.token.start
    match s.called.role with
    | .member => Parser.memberSite ctx s
    | .expression => Parser.expressionSite ctx s
  match p c with
  | .ok production c' => (⟨s, production⟩, c')
  | .error e c' => (⟨s, ⟨.error (.unreadable e), []⟩⟩, c')

/-- The attempts at sites one after the other. -/
def Site.attemptAll (ctx : Context) : List Site → Cursor → List Attempt × Cursor
  | [], c => ([], c)
  | s :: ss, c =>
    let (a, c') := s.attempt ctx c
    let (as, c'') := attemptAll ctx ss c'
    (a :: as, c'')

end SwiftMacros
