import SwiftMacros.Expansion.Site

/-! The report on setters: those that expansion would make for each annotated declaration. The
source is read as it is and not changed; declarations that cannot be expanded are skipped with a
warning. -/

namespace SwiftMacros

namespace Expansion

/-- One setter to be made. -/
structure FieldReport where
  declaration : Text
  kind : Composite
  setter : Setter
  line : Nat

structure FieldReports where
  rows : List FieldReport := []
  warnings : List Text := []

def FieldReports.append (a b : FieldReports) : FieldReports :=
  ⟨a.rows ++ b.rows, a.warnings ++ b.warnings⟩

def skipWarning (s : Site) (e : SiteError) : FieldReports :=
  { warnings := ["Skipping @".toList ++ s.called.name ++ " at line ".toList ++
      Text.ofNat s.token.line ++ ": ".toList ++ e.message] }

/-- The report on one site, and where reading it ended. -/
def reportSite (s : Site) (c : Cursor) : FieldReports × Cursor :=
  let p : Parser (Except SiteError Group) := do
    Parser.seek s.token.start
    Parser.annotatedGroup s.token
  match p c with
  | .error e c' => (skipWarning s (.unreadable e), c')
  | .ok (.error e) c' => (skipWarning s e, c')
  | .ok (.ok g) c' =>
    match g.setters with
    | .error e => (skipWarning s (.refused e), c')
    | .ok l => (⟨l.setters.map fun f => ⟨g.name, l.kind, f, g.line⟩, l.warnings⟩, c')

def reportSites : List Site → Cursor → FieldReports
  | [], _ => {}
  | s :: ss, c =>
    let (report, c') := reportSite s c
    report.append (reportSites ss c')

/-- Whether a macro makes setters. -/
def makesSetters (m : Macro) : Bool :=
  match m.action with
  | .setters => true
  | _ => false

/-- The report on a source, in source order. -/
def collectFields (r : Registry) (code : Text) : Except SyntaxError FieldReports :=
  (Cursor.ofText code).map fun c =>
    reportSites ((Site.all r .member c.tokens).filter fun s => makesSetters s.called) c

end Expansion

end SwiftMacros
