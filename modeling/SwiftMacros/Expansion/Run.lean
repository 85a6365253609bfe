import SwiftMacros.Expansion.Pass
import SwiftMacros.Text.Basic

/-! The expansion of a source. Passes follow one another until one defers no site or takes none, or
their number is used up. A site that keeps failing is reported once. In strict mode the first
failure ends the run, and like a lexical error it leaves the source as it was. -/

namespace SwiftMacros

namespace Expansion

/-- The result of a run. The warnings are those of macros and of the run itself. -/
structure Result where
  code : Text := []
  diagnostics : List Diagnostic := []
  success : Bool := true
  marks : List Trace.Mark := []
  warnings : List Text := []

namespace Result

def hasErrors (r : Result) : Bool := !r.diagnostics.isEmpty

def errors (r : Result) : List Text := r.diagnostics.map Diagnostic.format

def events (r : Result) : List Trace.Event := Trace.events r.marks

end Result

/-- What a run has come to: the source, the failures reported, and the trace and warnings so far. -/
structure Progress where
  code : Text
  failures : List Pass.Failure := []
  marks : List Trace.Mark
  warnings : List Text := []

/-- The failures that are not among the known ones; each known one stands for one failure. -/
def unreported (known : List (Text × Text × Text)) : List Pass.Failure → List Pass.Failure
  | [] => []
  | f :: fs => if f.key ∈ known then unreported (known.erase f.key) fs else f :: unreported known fs

/-- How a run goes on: in strict mode with a failure, with a further pass, or to its end. -/
inductive Step where
  | aborted (d : Diagnostic) (p : Progress)
  | again (p : Progress)
  | done (p : Progress)

/-- The progress after the attempts of a pass, in strict mode only as far as the first failure. -/
def afterPass (ctx : Context) (pass : Pass) (p : Progress) : Step :=
  let record (as : List Attempt) : Progress :=
    { p with
      marks := p.marks ++ as.flatMap Attempt.marks
      warnings := p.warnings ++ as.flatMap (·.production.warnings) }
  match if ctx.settings.strict then Pass.untilFailure pass.attempts else none with
  | some (as, d) => .aborted d (record as)
  | none =>
    let recorded := record pass.attempts
    let edits := pass.edits
    let next : Progress :=
      { recorded with
        code := if edits.isEmpty then p.code else Edit.applyAll p.code edits
        failures := p.failures ++ unreported (p.failures.map Pass.Failure.key) pass.failures
        marks := recorded.marks ++ pass.deferralMarks ++ [.stop] }
    if pass.selection.deferred.isEmpty || edits.isEmpty then .done next else .again next

def passName (n : Nat) : Text := "Pass ".toList ++ Text.ofNat n

/-- What a run ends with: all passes made, or stopped by an error of the whole source. -/
inductive Ending where
  | completed (p : Progress)
  | stopped (d : Diagnostic) (p : Progress)

/-- The passes from the one numbered `n`, of which at most `left` are made. -/
def passes (ctx : Context) (r : Registry) : Nat → Nat → Progress → Ending
  | _, 0, p =>
    let limit := Text.ofNat ctx.settings.maxPasses
    .completed { p with
      marks := p.marks ++
        [.warning ("Stopped after ".toList ++ limit ++ " passes with nested sites left".toList)]
      warnings := p.warnings ++
        ["Nested macro sites remain after ".toList ++ limit ++ " passes".toList] }
  | n, left + 1, p =>
    let started := { p with marks := p.marks ++ [.start (passName n) []] }
    match Cursor.ofText p.code with
    | .error e =>
      .stopped
        { message := e.message
          line := if e.line = 0 then none else some e.line
          column := some e.column }
        started
    | .ok c =>
      match afterPass ctx (Pass.ofCursor ctx r c) started with
      | .aborted d q =>
        .stopped d
          { q with marks := q.marks ++ [.warning ("Strict mode: ".toList ++ d.message)] }
      | .again q => passes ctx r (n + 1) left q
      | .done q => .completed q

/-- Expands the sites of a source. Line ends `\r\n` are read as `\n`; if the source has one, all
line ends of the result are `\r\n`. -/
def run (s : Settings) (r : Registry) (code : Text) (path : Option Text := none) : Result :=
  let start : Progress :=
    { code := Text.unifyLineEnds code
      marks := [.start "Macro Expansion".toList
        ((path.filter (!·.isEmpty)).getD "<string>".toList)] }
  let withPath (d : Diagnostic) : Diagnostic := { d with path }
  match passes { settings := s, path } r 1 s.maxPasses start with
  | .completed p =>
    { code := if Text.hasCrLf code then Text.restoreLineEnds p.code else p.code
      diagnostics := p.failures.map fun f => withPath f.diagnostic
      success := p.failures.isEmpty
      marks := p.marks ++ [.stop]
      warnings := p.warnings }
  | .stopped d p =>
    { code
      diagnostics := [withPath d]
      success := false
      marks := p.marks ++ [.stop, .stop]
      warnings := p.warnings }

/-- Whether the first pass lays out a site. -/
def laysOut (s : Settings) (r : Registry) (code : Text) : Bool :=
  match Cursor.ofText (Text.unifyLineEnds code) with
  | .error _ => false
  | .ok c =>
    let expressions := Site.all r .expression c.tokens
    let (anyRead, c') := Site.anyRead s.strict expressions c
    if anyRead || (s.strict && !expressions.isEmpty) then anyRead
    else (Site.anyRead s.strict (Site.all r .member c'.tokens) c').1

/-- Whether a run is broken off because it needs a unit of indentation that is too wide. -/
def overflows (s : Settings) (r : Registry) (code : Text) : Bool := s.isTooWide && laysOut s r code

/-- The failure of a run that was to succeed: its diagnostics, one to a line. -/
def failureMessage (r : Result) : Text :=
  "Macro expansion failed:\n".toList ++ Text.joinLines r.errors

end Expansion

/-- The result of expanding a source under the registry of its settings, which is to have no errors.
-/
def expand (s : Settings) (strict : Bool) (code : Text) : Expansion.Result :=
  Expansion.run { s with strict } (Registry.ofSettings s) code

end SwiftMacros
