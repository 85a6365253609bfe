import SwiftMacros.Expansion.Site

/-! One pass over a source. All sites are attempted, the expression sites first. Of the sites that
expand, those whose edits would touch each other are not taken together: an expression inside
another one that is taken, a declaration with an expression in it that is taken, and a declaration
whose edits meet a range that is taken are deferred to the next pass. -/

namespace SwiftMacros

namespace Pass

/-- A site that expands. -/
structure Candidate where
  site : Site
  expanded : Expanded

/-- The candidates among attempts. -/
def candidates (as : List Attempt) : List Candidate :=
  as.filterMap fun a => a.expanded?.map (⟨a.site, ·⟩)

/-- The sites taken so far and the ranges they occupy, and those deferred with the reasons. -/
structure Selection where
  taken : List Candidate := []
  occupied : List Span := []
  deferred : List (Candidate × Text) := []

namespace Selection

def take (s : Selection) (c : Candidate) (spans : List Span) : Selection :=
  { s with taken := s.taken ++ [c], occupied := s.occupied ++ spans }

def defer (s : Selection) (c : Candidate) (reason : String) : Selection :=
  { s with deferred := s.deferred ++ [(c, reason.toList)] }

def isOccupied (s : Selection) (spans : List Span) : Bool :=
  spans.any fun a => s.occupied.any fun b => Span.overlaps a b

/-- Takes an expression unless it lies in one that is taken. -/
def addExpression (s : Selection) (c : Candidate) : Selection :=
  if s.isOccupied [c.expanded.span] then s.defer c "nested inside another expansion"
  else s.take c [c.expanded.span]

/-- Takes a declaration unless one of `markers`, the starts of the expressions taken, lies in it, or
its edits meet a range that is occupied. -/
def addMember (markers : List Nat) (s : Selection) (c : Candidate) : Selection :=
  let spans := c.expanded.edits.map Edit.span
  if markers.any fun m => Span.holds c.expanded.span m then
    s.defer c "contains a marker expanded in this pass"
  else if s.isOccupied spans then s.defer c "overlaps another expansion"
  else s.take c spans

end Selection

/-- The selection among the candidates of both roles, each in source order. -/
def select (expressions members : List Candidate) : Selection :=
  let s := expressions.foldl Selection.addExpression {}
  let markers := s.taken.map (·.expanded.span.1)
  members.foldl (Selection.addMember markers) s

end Pass

/-- The attempts of a pass, the expression sites before the member sites. -/
structure Pass where
  code : Text
  expressions : List Attempt
  members : List Attempt

namespace Pass

/-- Attempts all sites of a source. -/
def ofCursor (ctx : Context) (r : Registry) (c : Cursor) : Pass :=
  let (expressions, c') := Site.attemptAll ctx (Site.all r .expression c.tokens) c
  let (members, _) := Site.attemptAll ctx (Site.all r .member c'.tokens) c'
  ⟨c.source, expressions, members⟩

def attempts (p : Pass) : List Attempt := p.expressions ++ p.members

def selection (p : Pass) : Selection := select (candidates p.expressions) (candidates p.members)

/-- The edits of the sites that are taken. -/
def edits (p : Pass) : List Edit := p.selection.taken.flatMap (·.expanded.edits)

def deferralMarks (p : Pass) : List Trace.Mark :=
  p.selection.deferred.map fun (c, reason) =>
    .inspection c.site.label "deferred".toList reason

/-- A failing site: its diagnostic, and the source line by which it is known again in a later pass.
-/
structure Failure where
  diagnostic : Diagnostic
  snippet : Text

/-- Two failures are of the same site if macro, message and source line agree. -/
def Failure.key (f : Failure) : Text × Text × Text :=
  (f.diagnostic.macroName, f.diagnostic.message, f.snippet)

def failures (p : Pass) : List Failure :=
  p.attempts.filterMap fun a =>
    a.failure?.map fun e => ⟨Attempt.diagnostic a.site e, a.site.snippet p.code⟩

/-- The attempts up to the first that fails, if one does, with its diagnostic. -/
def untilFailure : List Attempt → Option (List Attempt × Diagnostic)
  | [] => none
  | a :: as =>
    match a.failure? with
    | some e => some ([a], Attempt.diagnostic a.site e)
    | none => (untilFailure as).map fun (bs, d) => (a :: bs, d)

end Pass

end SwiftMacros
