import Mathlib
import SwiftMacros.Expansion.Run

/-! Strict mode. If no macro looks at the mode, the sites of a source are attempted in the same way in both
modes, so a strict run follows the lenient one up to the first failure. A lenient run that succeeds meets none, and
the strict run is the same; of any other the strict run keeps nothing but one diagnostic. -/

namespace SwiftMacros

/-- The settings with strict mode on or off. -/
def Settings.withStrict (s : Settings) (strict : Bool) : Settings := { s with strict }

section Contexts

/-- A macro answers alike in two contexts, at whatever unit of indentation a site has. -/
def Macro.Indifferent (m : Macro) (ctx ctx' : Context) : Prop :=
  ∀ unit,
    (∀ g a, m.expandMember (ctx.withIndent unit) g a = m.expandMember (ctx'.withIndent unit) g a) ∧
      ∀ e, m.expandExpression (ctx.withIndent unit) e = m.expandExpression (ctx'.withIndent unit) e

/-- Two contexts that no macro of the registry tells apart and that indent alike. -/
structure Registry.Alike (r : Registry) (ctx ctx' : Context) : Prop where
  indent : ctx.indent = ctx'.indent
  macros : ∀ e ∈ r.entries, e.2.Indifferent ctx ctx'

/-- No macro of the registry looks at strict mode. -/
def Registry.IgnoresMode (r : Registry) : Prop :=
  ∀ e ∈ r.entries, ∀ (ctx : Context) (b : Bool),
    e.2.Indifferent ctx { ctx with settings := ctx.settings.withStrict b }

/-- The macros that are built in look at nothing but the indent. -/
theorem Registry.alike_ofSettings (s : Settings) (ctx ctx' : Context) (h : ctx.settings.indent = ctx'.settings.indent)
    (hunit : ctx.unit = ctx'.unit) : (Registry.ofSettings s).Alike ctx ctx' := by
  have hindent : ∀ unit, (ctx.withIndent unit).indent = (ctx'.withIndent unit).indent := fun unit => by
    unfold Context.indent Context.withIndent
    rw [h]
  refine ⟨by unfold Context.indent; rw [h, hunit], fun e he unit => ?_⟩
  have hbuilt : e.2.action = .setters ∨ e.2.action = .weakCapture := by
    simp only [ofSettings, register, insertEntry] at he
    split at he <;> simp at he
    · exact .inr (by simp [he, Macro.weakSelf])
    · rcases he with rfl | rfl
      · exact .inl rfl
      · exact .inr rfl
  rcases hbuilt with hm | hm <;>
    exact ⟨fun g a => by simp only [Macro.expandMember, hm, hindent],
      fun e => by simp only [Macro.expandExpression, hm, hindent]⟩

theorem Registry.ignoresMode_ofSettings (s : Settings) : (Registry.ofSettings s).IgnoresMode :=
  fun e he ctx b =>
    (Registry.alike_ofSettings s ctx { ctx with settings := ctx.settings.withStrict b } rfl rfl).macros e he

variable {r : Registry} {ctx ctx' : Context} (h : r.Alike ctx ctx')
include h

/-- What a site comes to does not depend on what its macro does not look at. -/
theorem Site.attempt_alike {x : Site} (hx : x.called.Indifferent ctx ctx') (c : Cursor) :
    x.attempt ctx c = x.attempt ctx' c := by
  have hmember : ∀ code g a, Expanded.ofMember ctx code x.called g a = Expanded.ofMember ctx' code x.called g a :=
    fun code g a => by simp only [Expanded.ofMember, h.indent, (hx _).1]
  have hexpression : ∀ code e, Expanded.ofExpression ctx code x.called e = Expanded.ofExpression ctx' code x.called e :=
    fun code e => by simp only [Expanded.ofExpression, h.indent, (hx _).2]
  simp only [Site.attempt, Parser.memberSite, Parser.expressionSite, hmember, hexpression]

theorem Site.attemptAll_alike {xs : List Site} (hxs : ∀ x ∈ xs, x.called.Indifferent ctx ctx') (c : Cursor) :
    Site.attemptAll ctx xs c = Site.attemptAll ctx' xs c := by
  induction xs generalizing c with
  | nil => rfl
  | cons x xs ih =>
    simp only [Site.attemptAll, Site.attempt_alike h (hxs x (by simp)), ih fun y hy => hxs y (by simp [hy])]

/-- A site calls a macro of the registry. -/
theorem Site.indifferent_of_mem_all {role : Role} {ts : List Token} {x : Site} (hx : x ∈ Site.all r role ts) :
    x.called.Indifferent ctx ctx' := by
  obtain ⟨t, -, ht⟩ := List.mem_filterMap.mp hx
  split at ht
  · obtain ⟨m, hm, rfl⟩ := Option.map_eq_some_iff.mp ht
    obtain ⟨e, he, rfl⟩ := Option.map_eq_some_iff.mp (Option.eq_some_of_filter_eq_some hm)
    exact h.macros e (List.mem_of_find?_eq_some he)
  · cases ht

theorem Pass.ofCursor_alike (c : Cursor) : Pass.ofCursor ctx r c = Pass.ofCursor ctx' r c := by
  have hall : ∀ role ts c, Site.attemptAll ctx (Site.all r role ts) c = Site.attemptAll ctx' (Site.all r role ts) c :=
    fun role ts c => Site.attemptAll_alike h (fun x hx => Site.indifferent_of_mem_all h hx) c
  simp only [Pass.ofCursor, hall]

end Contexts

namespace Pass

theorem untilFailure_eq_none_iff (as : List Attempt) :
    untilFailure as = none ↔ ∀ a ∈ as, a.failure? = none := by
  induction as with
  | nil => simp [untilFailure]
  | cons a as ih => cases h : a.failure? <;> simp [untilFailure, h, ih]

theorem failures_eq_nil_iff (p : Pass) :
    p.failures = [] ↔ ∀ a ∈ p.attempts, a.failure? = none := by
  simp [failures, List.filterMap_eq_nil_iff]

/-- A pass has a first failure exactly if it has any. -/
theorem untilFailure_attempts_eq_none_iff (p : Pass) :
    untilFailure p.attempts = none ↔ p.failures = [] := by
  rw [untilFailure_eq_none_iff, failures_eq_nil_iff]

end Pass

namespace Expansion

theorem unreported_nil (fs : List Pass.Failure) : unreported [] fs = fs := by
  induction fs with
  | nil => rfl
  | cons f fs ih => simp [unreported, ih]

/-- The progress at which a step leaves the run. -/
def Step.progress : Step → Progress
  | .aborted _ p | .again p | .done p => p

/-- Whether a run has come to its end without a failure. -/
def Ending.succeeded : Ending → Bool
  | .completed p => p.failures.isEmpty
  | .stopped _ _ => false

section Step

variable {ctx : Context} (pass : Pass) (p : Progress)

/-- A pass that does not end the run adds its failures to those reported. -/
theorem afterPass_failures (ctx : Context) :
    (∃ d q, afterPass ctx pass p = .aborted d q) ∨ (afterPass ctx pass p).progress.failures =
      p.failures ++ unreported (p.failures.map Pass.Failure.key) pass.failures := by
  simp only [afterPass]
  split
  · exact .inl ⟨_, _, rfl⟩
  · exact .inr (by split <;> rfl)

theorem afterPass_lenient_ne_aborted (hmode : ctx.settings.strict = false) (d : Diagnostic) (q : Progress) :
    afterPass ctx pass p ≠ .aborted d q := by
  simp only [afterPass, hmode]
  split <;> rename_i h
  · simp at h
  · split <;> simp

theorem afterPass_lenient_failures (hmode : ctx.settings.strict = false) :
    (afterPass ctx pass p).progress.failures =
      p.failures ++ unreported (p.failures.map Pass.Failure.key) pass.failures := by
  rcases afterPass_failures pass p ctx with ⟨d, q, h⟩ | h
  · exact absurd h (afterPass_lenient_ne_aborted pass p hmode d q)
  · exact h

/-- A pass without failures is the same in both modes. -/
theorem afterPass_of_no_failures (ctx ctx' : Context) (h : pass.failures = []) :
    afterPass ctx' pass p = afterPass ctx pass p := by
  have hn := (Pass.untilFailure_attempts_eq_none_iff pass).mpr h
  simp only [afterPass, hn, ite_self]

/-- The first failure of a strict pass ends the run. -/
theorem afterPass_strict_of_failures (hmode : ctx.settings.strict = true) (h : pass.failures ≠ []) :
    ∃ d q, afterPass ctx pass p = .aborted d q := by
  have hn : Pass.untilFailure pass.attempts ≠ none :=
    fun hn => h ((Pass.untilFailure_attempts_eq_none_iff pass).mp hn)
  obtain ⟨⟨as, d⟩, hs⟩ := Option.ne_none_iff_exists'.mp hn
  simp only [afterPass, hmode, hs, if_true]
  exact ⟨d, _, rfl⟩

end Step

section Passes

/-- Failures once reported stay with a run. -/
theorem passes_not_succeeded (r : Registry) (ctx : Context) (left n : Nat) (p : Progress) (h : p.failures ≠ []) :
    (passes ctx r n left p).succeeded = false := by
  induction left generalizing n p with
  | zero => simpa [passes, Ending.succeeded] using h
  | succ left ih =>
    simp only [passes]
    split
    · rfl
    · rename_i c _
      set q : Progress := { p with marks := p.marks ++ [.start (passName n) []] } with hq
      rcases afterPass_failures (Pass.ofCursor ctx r c) q ctx with ⟨d, q', hstep⟩ | hf
      · rw [hstep]
        rfl
      · have hne : (afterPass ctx (Pass.ofCursor ctx r c) q).progress.failures ≠ [] := by
          rw [hf]
          simp [hq, h]
        cases hstep : afterPass ctx (Pass.ofCursor ctx r c) q with
        | aborted d q' => rfl
        | again q' =>
          rw [hstep] at hne
          exact ih (n + 1) q' hne
        | done q' =>
          rw [hstep] at hne
          simpa [Ending.succeeded, Step.progress] using hne

variable {r : Registry} {ctx ctx' : Context} (hlenient : ctx.settings.strict = false) (halike : r.Alike ctx ctx')
include hlenient halike

/-- A lenient run that succeeds is the strict run. -/
theorem passes_strict_of_succeeded (hlimit : ctx'.settings.maxPasses = ctx.settings.maxPasses) (left n : Nat)
    (p : Progress) (h : (passes ctx r n left p).succeeded) : passes ctx' r n left p = passes ctx r n left p := by
  induction left generalizing n p with
  | zero => simp only [passes, hlimit]
  | succ left ih =>
    simp only [passes] at h ⊢
    cases hc : Cursor.ofText p.code with
    | error e => rfl
    | ok c =>
      simp only [hc, ← Pass.ofCursor_alike halike c] at h ⊢
      set pass := Pass.ofCursor ctx r c
      have hnone : pass.failures = [] := by
        by_contra hne
        set q : Progress := { p with marks := p.marks ++ [.start (passName n) []] } with hq
        have hf : (afterPass ctx pass q).progress.failures ≠ [] := by
          rw [afterPass_lenient_failures pass q hlenient]
          by_cases hp : p.failures = []
          · simp [hq, hp, unreported_nil, hne]
          · simp [hq, hp]
        cases hstep : afterPass ctx pass q with
        | aborted d q' => exact afterPass_lenient_ne_aborted pass q hlenient d q' hstep
        | again q' =>
          rw [hstep] at h hf
          simp [passes_not_succeeded r _ left (n + 1) q' hf] at h
        | done q' =>
          rw [hstep] at h hf
          exact hf (by simpa [Ending.succeeded, Step.progress] using h)
      rw [afterPass_of_no_failures pass _ ctx ctx' hnone]
      cases hstep : afterPass ctx pass _ with
      | aborted d q => rfl
      | again q =>
        rw [hstep] at h
        exact ih (n + 1) q h
      | done q => rfl

/-- A lenient run that fails is stopped in strict mode, in whatever pass the first failure is. -/
theorem passes_strict_of_not_succeeded (hstrict : ctx'.settings.strict = true) (left n : Nat) (p : Progress)
    (hp : p.failures = []) (h : (passes ctx r n left p).succeeded = false) :
    ∃ d q, passes ctx' r n left p = .stopped d q := by
  induction left generalizing n p with
  | zero => simp [passes, Ending.succeeded, hp] at h
  | succ left ih =>
    simp only [passes] at h ⊢
    cases hc : Cursor.ofText p.code with
    | error e => exact ⟨_, _, rfl⟩
    | ok c =>
      simp only [hc, ← Pass.ofCursor_alike halike c] at h ⊢
      set pass := Pass.ofCursor ctx r c
      set q : Progress := { p with marks := p.marks ++ [.start (passName n) []] }
      by_cases hf : pass.failures = []
      · rw [afterPass_of_no_failures pass q ctx ctx' hf]
        have hq := afterPass_lenient_failures pass q hlenient
        rw [hf, unreported, show q.failures = [] from hp, List.nil_append] at hq
        cases hstep : afterPass ctx pass q with
        | aborted d q' => exact ⟨_, _, rfl⟩
        | again q' =>
          rw [hstep] at h hq
          exact ih (n + 1) q' hq h
        | done q' =>
          rw [hstep] at h hq
          simp [Ending.succeeded, show q'.failures = [] from hq] at h
      · obtain ⟨d, q', ha⟩ := afterPass_strict_of_failures pass q hstrict hf
        exact ⟨d, _, by rw [ha]⟩

end Passes

/-- If no macro looks at strict mode, a strict run keeps all of a lenient one that succeeds. Where the lenient run
fails in any pass, the strict run gives back the source as it came, with one diagnostic. -/
theorem run_strict (s : Settings) (r : Registry) (hr : r.IgnoresMode) (code : Text) (path : Option Text) :
    let lenient := run (s.withStrict false) r code path
    let strict := run (s.withStrict true) r code path
    (lenient.success = true → strict.code = lenient.code ∧ strict.success = true ∧
      strict.diagnostics = [] ∧ lenient.diagnostics = []) ∧
    (lenient.success = false → strict.success = false ∧ strict.code = code ∧
      strict.diagnostics.length = 1) := by
  intro lenient strict
  set start : Progress :=
    { code := Text.unifyLineEnds code
      marks := [.start "Macro Expansion".toList
        ((path.filter (!·.isEmpty)).getD "<string>".toList)] } with hstart
  set ending := passes { settings := s.withStrict false, path } r 1 s.maxPasses start with hending
  have halike : r.Alike { settings := s.withStrict false, path } { settings := s.withStrict true, path } :=
    ⟨rfl, fun e he => hr e he { settings := s.withStrict false, path } true⟩
  have hsuccess : lenient.success = ending.succeeded := by
    simp only [lenient, run, ← hstart]
    rw [show (s.withStrict false).maxPasses = s.maxPasses from rfl, ← hending]
    cases ending <;> rfl
  constructor
  · intro h
    rw [hsuccess] at h
    have heq := passes_strict_of_succeeded rfl halike rfl s.maxPasses 1 start h
    cases he : ending with
    | stopped d p => simp [he, Ending.succeeded] at h
    | completed p =>
      have hp : p.failures = [] := by simpa [he, Ending.succeeded] using h
      rw [← hending, he] at heq
      have hl : lenient = run (s.withStrict false) r code path := rfl
      have hs : strict = run (s.withStrict true) r code path := rfl
      simp only [run, ← hstart] at hl hs
      rw [show (s.withStrict false).maxPasses = s.maxPasses from rfl, ← hending, he] at hl
      rw [show (s.withStrict true).maxPasses = s.maxPasses from rfl, heq] at hs
      simp [hl, hs, hp]
  · intro h
    rw [hsuccess] at h
    obtain ⟨d, q, hstop⟩ := passes_strict_of_not_succeeded rfl halike rfl s.maxPasses 1 start rfl h
    have hs : strict = run (s.withStrict true) r code path := rfl
    simp only [run, ← hstart] at hs
    rw [show (s.withStrict true).maxPasses = s.maxPasses from rfl, hstop] at hs
    simp [hs]

/-- The first pass edits the source, and only the second one meets a failure. -/
theorem run_strict_second_pass : ∃ code, code =
      "#WeakSelfClosure \x7b ) #WeakSelfClosure \x7b @a(if ) in x \x7b \x7d ; ) in y ( \x7d\r\n".toList ∧
    (run (Settings.withStrict {} false) (Registry.ofSettings {}) code).success = false ∧
    (run (Settings.withStrict {} false) (Registry.ofSettings {}) code).code ≠ code ∧
    (run (Settings.withStrict {} true) (Registry.ofSettings {}) code).code = code := by
  refine ⟨_, rfl, ?_⟩
  generalize hcode : "#WeakSelfClosure \x7b ) #WeakSelfClosure \x7b @a(if ) in x \x7b \x7d ; ) in y ( \x7d\r\n".toList = code
  have hfails : (run (Settings.withStrict {} false) (Registry.ofSettings {}) code).success = false ∧
      (run (Settings.withStrict {} false) (Registry.ofSettings {}) code).code ≠ code := by
    rw [← hcode]
    decide +kernel
  obtain ⟨-, hrun⟩ := run_strict {} (Registry.ofSettings {}) (Registry.ignoresMode_ofSettings {}) code none
  exact ⟨hfails.1, hfails.2, (hrun hfails.1).2.1⟩

/-- A macro that looks at the mode tells the runs apart. -/
example :
    let look : Macro := ⟨"m".toList, "M".toList, .expression fun ctx _ =>
      ⟨.ok (if ctx.settings.strict then "1".toList else "2".toList), []⟩⟩
    (run (Settings.withStrict {} true) ⟨[("m".toList, look)]⟩ "#m".toList).code = "1".toList ∧
      (run (Settings.withStrict {} false) ⟨[("m".toList, look)]⟩ "#m".toList).code = "2".toList := by
  decide +kernel

end Expansion

end SwiftMacros
