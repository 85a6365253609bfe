import Mathlib
import SwiftMacros.Proofs.Token.Coordinates
import SwiftMacros.Proofs.Expansion.History

/-! What a run reports. Two failures are held to be of the same site if macro, message and the rest of
the source line agree. A site that fails in several passes is reported once as long as these stay the
same; of each such key a run reports as many failures as the pass with the most of them has. -/

namespace SwiftMacros

namespace Pass

variable (p : Pass)

/-- The sites that fail, in the order of their attempts. -/
def failing : List Site := (p.attempts.filter fun a => a.failure?.isSome).map (·.site)

/-- How many failures of the pass have the key. -/
def tally (k : Text × Text × Text) : Nat := (p.failures.map Failure.key).count k

/-- What a report tells of the place of a site. -/
def place (x : Site) : Text × Option Int × Option Int :=
  (x.called.name, some x.token.line, some x.token.column)

/-- There is one failure for each failing site, and it tells the place of the site. -/
theorem failures_places :
    p.failures.map (fun f => (f.diagnostic.macroName, f.diagnostic.line, f.diagnostic.column)) =
      p.failing.map place := by
  unfold failures failing
  induction p.attempts with
  | nil => rfl
  | cons a as ih =>
    cases h : a.failure? with
    | none => simpa [h] using ih
    | some e =>
      simp only [List.filterMap_cons, List.filter_cons, h, Option.map_some, Option.isSome_some, if_true,
        List.map_cons, ih]
      rfl

theorem failing_sublist : p.failing.Sublist (p.attempts.map (·.site)) :=
  List.filter_sublist.map _

end Pass

namespace Expansion

/-- What has been reported after further passes, where `fs` are the failures reported before them. -/
def reportsFrom (fs : List Pass.Failure) : List Pass → List Pass.Failure
  | [] => fs
  | q :: ps => reportsFrom (fs ++ unreported (fs.map Pass.Failure.key) q.failures) ps

/-- The largest number of failures that one of the passes has for a key. -/
def mostOf (k : Text × Text × Text) (ps : List Pass) : Nat := ps.foldr (fun q n => max (q.tally k) n) 0

/-- The last of the passes defers nothing or is the last one allowed. -/
def Ended (limit : Nat) (ps : List Pass) : Prop := settled ps = true ∨ ps.length = limit

section Reports

variable {fs : List Pass.Failure} {ps : List Pass} (k : Text × Text × Text)

/-- Of each key, as many failures are unreported as there are more than known ones. -/
theorem count_unreported (known : List (Text × Text × Text)) :
    ((unreported known fs).map Pass.Failure.key).count k =
      (fs.map Pass.Failure.key).count k - known.count k := by
  induction fs generalizing known with
  | nil => simp [unreported]
  | cons f fs ih =>
    rw [unreported]
    split
    next hmem =>
      have hpos := List.count_pos_iff.mpr hmem
      rw [ih, List.map_cons, List.count_cons, List.count_erase]
      by_cases hk : f.key = k
      · subst hk
        simp
        omega
      · simp [hk]
    next hmem =>
      rw [List.map_cons, List.map_cons, List.count_cons, List.count_cons, ih]
      by_cases hk : f.key = k
      · subst hk
        simp [List.count_eq_zero_of_not_mem hmem]
      · simp [hk]

/-- A run reports as many failures of a key as the pass with the most of them has. -/
theorem count_reportsFrom : ((reportsFrom fs ps).map Pass.Failure.key).count k =
    max ((fs.map Pass.Failure.key).count k) (mostOf k ps) := by
  induction ps generalizing fs with
  | nil => simp [reportsFrom, mostOf]
  | cons q ps ih =>
    rw [reportsFrom, ih, List.map_append, List.count_append, count_unreported]
    simp only [mostOf, List.foldr_cons, Pass.tally]
    omega

theorem reportsFrom_eq_append (fs : List Pass.Failure) (ps : List Pass) :
    ∃ gs, reportsFrom fs ps = fs ++ gs := by
  induction ps generalizing fs with
  | nil => exact ⟨[], by simp [reportsFrom]⟩
  | cons q ps ih =>
    obtain ⟨gs, hgs⟩ := ih (fs ++ unreported (fs.map Pass.Failure.key) q.failures)
    exact ⟨_, by rw [reportsFrom, hgs, List.append_assoc]⟩

theorem mostOf_le_iff {n : Nat} : mostOf k ps ≤ n ↔ ∀ q ∈ ps, q.tally k ≤ n := by
  induction ps with
  | nil => simp [mostOf]
  | cons q ps ih => simpa [mostOf] using fun _ => ih

end Reports

section Passes

variable {s : Settings} {r : Registry} {path : Option Text} {p : Progress}

theorem ended_cons {limit : Nat} {q : Pass} {ps : List Pass}
    (hq : q.selection.deferred.isEmpty = false) : Ended (limit + 1) (q :: ps) ↔ Ended limit ps := by
  simp [Ended, settled_cons hq]

/-- A lenient run that no lexical error stops reports the failures of its passes. -/
theorem passes_reports (hs : s.strict = false) (left n : Nat)
    (h : Ended left (history { settings := s, path } r left p.code)) :
    ∃ q, passes { settings := s, path } r n left p = .completed q ∧
      q.failures = reportsFrom p.failures (history { settings := s, path } r left p.code) := by
  induction left generalizing n p with
  | zero => exact ⟨_, rfl, rfl⟩
  | succ left ih =>
    cases hc : Cursor.ofText p.code with
    | error e =>
      rw [history, hc] at h
      rcases h with h | h <;> cases h
    | ok c =>
      obtain ⟨hsound, hsource, -⟩ := Cursor.sound_ofText hc
      obtain ⟨q, hq⟩ : ∃ q, Pass.ofCursor { settings := s, path } r c = q := ⟨_, rfl⟩
      have hedits : q.selection.deferred ≠ [] → q.edits ≠ [] := hq ▸ Pass.edits_ne_nil hsound
      rw [history_of_ok hc hq] at h ⊢
      rw [passes_of_ok hc hq]
      generalize hstart : ({ p with marks := p.marks ++ [.start (passName n) []] } : Progress) = p₁
      have hcode : p₁.code = q.code := by rw [← hstart, ← hq]; exact hsource.symm
      have hp₁ : p₁.failures = p.failures := by rw [← hstart]
      obtain ⟨p', hp', hcode', -, hafter⟩ :=
        afterPass_unaborted { settings := s, path } hcode (by simp [hs]) hedits
      rw [hp₁] at hp'
      rw [hafter]
      cases hd : q.selection.deferred.isEmpty with
      | true => exact ⟨p', rfl, by rw [hp']; rfl⟩
      | false =>
        rw [hd, if_neg Bool.false_ne_true, ended_cons hd, ← hcode'] at h
        obtain ⟨p'', hp'', hf⟩ := ih (n + 1) h
        refine ⟨p'', hp'', ?_⟩
        rw [hf, hp', hcode']
        rfl

end Passes

section Run

variable {s : Settings} {r : Registry} {code : Text} {path : Option Text}

/-- A run that no lexical error stops makes a first pass. -/
theorem passesOf_cons (h : Ended s.maxPasses (passesOf s r code path)) :
    ∃ ts c ps, Token.tokenize (Text.unifyLineEnds code) = .ok ts ∧
      Cursor.ofText (Text.unifyLineEnds code) = .ok c ∧ c.tokens = Token.significant ts ∧
      passesOf s r code path = Pass.ofCursor { settings := s, path } r c :: ps := by
  obtain ⟨n, hn⟩ := Nat.exists_eq_succ_of_ne_zero (Nat.one_le_iff_ne_zero.mp s.one_le_maxPasses)
  unfold passesOf at h ⊢
  rw [hn] at h ⊢
  cases hts : Token.tokenize (Text.unifyLineEnds code) with
  | error e =>
    have hc : Cursor.ofText (Text.unifyLineEnds code) = .error e := by
      rw [Cursor.ofText, hts]
      rfl
    rw [history, hc] at h
    rcases h with h | h <;> cases h
  | ok ts =>
    obtain ⟨c, hc, htokens⟩ := Cursor.tokens_ofText hts
    exact ⟨ts, c, _, rfl, hc, htokens, history_of_ok hc rfl⟩

/-- The diagnostics of a lenient run are those of the failures that its passes report. -/
theorem run_diagnostics (path : Option Text) (hs : s.strict = false)
    (h : Ended s.maxPasses (passesOf s r code path)) : (run s r code path).diagnostics =
      (reportsFrom [] (passesOf s r code path)).map fun f => { f.diagnostic with path } := by
  generalize hstart : ({
    code := Text.unifyLineEnds code
    marks := [.start "Macro Expansion".toList
      ((path.filter (!·.isEmpty)).getD "<string>".toList)] } : Progress) = p
  have hcode : p.code = Text.unifyLineEnds code := by rw [← hstart]
  have hf : p.failures = [] := by rw [← hstart]
  unfold passesOf at h ⊢
  obtain ⟨q, hq, hreports⟩ := passes_reports (p := p) hs s.maxPasses 1 (by rw [hcode]; exact h)
  rw [hcode, hf] at hreports
  unfold run
  dsimp only
  rw [hstart, hq, ← hreports]

/-- A lenient run that no lexical error stops reports each site that fails in the first pass once, at
its place in the source. Of each key it reports as many failures as one pass has at most, so it reports
nothing else just if no later pass has more failures of a key than the first. -/
theorem run_reports (path : Option Text) (hs : s.strict = false)
    (h : Ended s.maxPasses (passesOf s r code path)) :
    ∃ c p ps fs, Cursor.ofText (Text.unifyLineEnds code) = .ok c ∧
      p = Pass.ofCursor { settings := s, path } r c ∧ passesOf s r code path = p :: ps ∧
      (run s r code path).diagnostics = (p.failures ++ fs).map (fun f => { f.diagnostic with path }) ∧
      p.failures.map (fun f => (f.diagnostic.macroName, f.diagnostic.line, f.diagnostic.column)) =
        p.failing.map Pass.place ∧
      p.failing.Sublist (Site.all r .expression c.tokens ++ Site.all r .member c.tokens) ∧
      (∀ x ∈ p.failing, Token.Located (Text.unifyLineEnds code) x.token) ∧
      (∀ k, ((p.failures ++ fs).map Pass.Failure.key).count k = mostOf k (p :: ps)) ∧
      (fs = [] ↔ ∀ q ∈ ps, ∀ k, q.tally k ≤ p.tally k) := by
  obtain ⟨ts, c, ps, hts, hc, htokens, hps⟩ := passesOf_cons h
  obtain ⟨hsound, -, -⟩ := Cursor.sound_ofText hc
  generalize hp : Pass.ofCursor { settings := s, path } r c = p at hps
  obtain ⟨fs, hfs⟩ := reportsFrom_eq_append p.failures ps
  have hreports : reportsFrom [] (p :: ps) = p.failures ++ fs := by
    rw [reportsFrom, List.map_nil, List.nil_append, unreported_nil, hfs]
  have hsublist := p.failing_sublist
  rw [← hp, Pass.attempts_sites _ r hsound, hp] at hsublist
  have hcount : ∀ k, ((p.failures ++ fs).map Pass.Failure.key).count k = mostOf k (p :: ps) := fun k => by
    rw [← hreports, count_reportsFrom]
    simp
  refine ⟨c, p, ps, fs, hc, hp.symm, hps, ?_, p.failures_places, hsublist, fun x hx => ?_, hcount, ?_⟩
  · rw [run_diagnostics path hs h, hps, hreports]
  · have hmem : x.token ∈ c.tokens := by
      rcases List.mem_append.mp (hsublist.subset hx) with hx | hx <;> exact Site.token_mem_of_mem_all hx
    rw [htokens] at hmem
    exact Token.significant_located hts _ hmem
  · -- nothing is added just if no key is found more often than in the first pass
    have hnil : fs = [] ↔ ∀ k, (fs.map Pass.Failure.key).count k = 0 := by
      refine ⟨fun h k => by simp [h], fun h => ?_⟩
      cases fs with
      | nil => rfl
      | cons f fs => simpa using h f.key
    have hrest : ∀ k, p.tally k + (fs.map Pass.Failure.key).count k = max (p.tally k) (mostOf k ps) :=
      fun k => by simpa [Pass.tally, mostOf] using hcount k
    rw [hnil]
    refine ⟨fun h q hq k => ?_, fun h k => ?_⟩
    · have hle : mostOf k ps ≤ p.tally k := by
        have := hrest k
        rw [h k] at this
        omega
      exact (mostOf_le_iff k).mp hle q hq
    · have hle := (mostOf_le_iff k).mpr fun q hq => h q hq k
      have := hrest k
      omega

/-- A declaration that fails in front of nested closures: both passes meet it, and it is reported once. -/
theorem run_reports_once : ∃ p ps fs,
    passesOf {} (Registry.ofSettings {}) ("@fluentSetterMacro\nenum E \x7b\x7d\n" ++
        "let a = #WeakSelfClosure \x7b let b = #WeakSelfClosure \x7b run() \x7d \x7d").toList = p :: ps ∧
      (p :: ps).map (·.failing.length) = [1, 1] ∧
      (run {} (Registry.ofSettings {}) ("@fluentSetterMacro\nenum E \x7b\x7d\n" ++
        "let a = #WeakSelfClosure \x7b let b = #WeakSelfClosure \x7b run() \x7d \x7d").toList).diagnostics =
          (p.failures ++ fs).map (fun f => { f.diagnostic with path := none }) ∧
      (fs = [] ↔ ∀ q ∈ ps, ∀ k, q.tally k ≤ p.tally k) := by
  have hended : settled (passesOf {} (Registry.ofSettings {}) ("@fluentSetterMacro\nenum E \x7b\x7d\n" ++
      "let a = #WeakSelfClosure \x7b let b = #WeakSelfClosure \x7b run() \x7d \x7d").toList) = true ∧
      (passesOf {} (Registry.ofSettings {}) ("@fluentSetterMacro\nenum E \x7b\x7d\n" ++
        "let a = #WeakSelfClosure \x7b let b = #WeakSelfClosure \x7b run() \x7d \x7d").toList).map
          (·.failing.length) = [1, 1] := by
    decide +kernel
  obtain ⟨-, p, ps, fs, -, -, hps, hdiagnostics, -, -, -, -, hiff⟩ :=
    run_reports none (s := {}) rfl (.inl hended.1)
  exact ⟨p, ps, fs, hps, hps ▸ hended.2, hdiagnostics, hiff⟩

/-- A site that fails in front of nested closures on the same line. The edits of both passes leave it
alone, but with the rest of its line it is taken for another one in the second pass. -/
theorem run_reports_twice :
    settled (passesOf {} (Registry.ofSettings {}) ("#WeakSelfClosure(1); " ++
      "let a = #WeakSelfClosure \x7b let b = #WeakSelfClosure \x7b run() \x7d \x7d").toList) = true ∧
    (∀ p ∈ passesOf {} (Registry.ofSettings {}) ("#WeakSelfClosure(1); " ++
      "let a = #WeakSelfClosure \x7b let b = #WeakSelfClosure \x7b run() \x7d \x7d").toList,
        p.failing.map (·.token.start) = [0] ∧ ∀ e ∈ p.edits, 21 ≤ e.start) ∧
    ((run {} (Registry.ofSettings {}) ("#WeakSelfClosure(1); " ++
      "let a = #WeakSelfClosure \x7b let b = #WeakSelfClosure \x7b run() \x7d \x7d").toList).diagnostics.map
        fun d => (d.line, d.column)) = [(some 1, some 0), (some 1, some 0)] := by
  decide +kernel

end Run

end Expansion

end SwiftMacros
