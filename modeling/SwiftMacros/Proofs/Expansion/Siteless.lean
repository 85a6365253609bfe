import Mathlib
import SwiftMacros.Proofs.Expansion.History
import SwiftMacros.Proofs.Text.LineEnds

/-! Sources without a site. One pass over such a source finds nothing to do, so what a run answers
differs from the source by its line ends alone: they come back as they were where they are all of one
sort, and all as `\r\n` where `\r\n` and `\n` are mixed. A source that cannot be tokenized is handed
back as it is. -/

namespace SwiftMacros

/-- Trivia are no sites. -/
theorem Site.all_significantFrom (r : Registry) (role : Role) (newline space : Bool)
    (ts : List Token) :
    Site.all r role (Token.significantFrom newline space ts) = [] ↔ Site.all r role ts = [] := by
  induction ts generalizing newline space with
  | nil => rfl
  | cons t ts ih =>
    have hcons : ∀ (u : Token) (us : List Token), Site.all r role (u :: us) = [] ↔
        (u.kind = tokenKind role → r.withRole? (u.text.drop 1) role = none) ∧
          Site.all r role us = [] := by
      intro u us
      simp only [Site.all, List.filterMap_eq_nil_iff, List.forall_mem_cons, ite_eq_right_iff,
        Option.map_eq_none_iff]
    rw [Token.significantFrom, hcons t]
    cases hk : t.kind.isTrivia with
    | true =>
      have hne : t.kind ≠ tokenKind role := by
        intro h
        rw [h] at hk
        cases role <;> cases hk
      rw [if_pos rfl, ih]
      simp [hne]
    | false =>
      rw [if_neg Bool.false_ne_true, hcons, ih]

/-- No token of a text is a site. -/
def Siteless (r : Registry) (t : Text) : Prop :=
  ∃ ts, Token.tokenize t = .ok ts ∧ ∀ role, Site.all r role ts = []

namespace Siteless

variable {r : Registry} {t : Text}

theorem cursor (h : Siteless r t) :
    ∃ c, Cursor.ofText t = .ok c ∧ ∀ role, Site.all r role c.tokens = [] := by
  obtain ⟨ts, hts, hnone⟩ := h
  obtain ⟨c, hc, htokens⟩ := Cursor.tokens_ofText hts
  refine ⟨c, hc, fun role => ?_⟩
  rw [htokens, Token.significant, Site.all_significantFrom]
  exact hnone role

/-- The pass over a text without sites attempts nothing. -/
theorem pass (h : Siteless r t) (ctx : Context) :
    ∃ c, Cursor.ofText t = .ok c ∧ Pass.ofCursor ctx r c = ⟨t, [], []⟩ := by
  obtain ⟨c, hc, hnone⟩ := h.cursor
  refine ⟨c, hc, ?_⟩
  obtain ⟨-, hsource, -⟩ := Cursor.sound_ofText hc
  simp only [Pass.ofCursor, hnone, Site.attemptAll, hsource]

end Siteless

namespace Expansion

variable (s : Settings) {r : Registry} {code : Text} (path : Option Text)

/-- A run over a source without sites succeeds, warns of nothing, and answers the source with restored line ends. -/
theorem run_of_siteless (h : Siteless r (Text.unifyLineEnds code)) :
    (run s r code path).success = true ∧ (run s r code path).diagnostics = [] ∧
      (run s r code path).warnings = [] ∧ (run s r code path).code = if Text.hasCrLf code then
        Text.restoreLineEnds (Text.unifyLineEnds code) else Text.unifyLineEnds code := by
  obtain ⟨c, hc, hpass⟩ := h.pass { settings := s, path }
  have hpasses : passesOf s r code path = [⟨Text.unifyLineEnds code, [], []⟩] := by
    obtain ⟨n, hn⟩ := Nat.exists_eq_succ_of_ne_zero (Nat.one_le_iff_ne_zero.mp s.one_le_maxPasses)
    rw [passesOf, hn, history_of_ok hc hpass]
    rfl
  have hfulfilled : Fulfilled s.maxPasses (passesOf s r code path) := by
    rw [hpasses]
    exact ⟨by simp [Pass.failures, Pass.attempts], .inl rfl⟩
  obtain ⟨hiff, hrun⟩ := run_history s r code path
  obtain ⟨hdiagnostics, hcode, hwarnings⟩ := hrun hfulfilled
  rw [hpasses] at hcode hwarnings
  exact ⟨hiff.mpr hfulfilled, hdiagnostics, hwarnings, hcode⟩

/-- A run over a source that cannot be tokenized hands it back. -/
theorem run_of_tokenize_error {e : SyntaxError}
    (h : Token.tokenize (Text.unifyLineEnds code) = .error e) :
    (run s r code path).success = false ∧ (run s r code path).code = code := by
  obtain ⟨n, hn⟩ := Nat.exists_eq_succ_of_ne_zero (Nat.one_le_iff_ne_zero.mp s.one_le_maxPasses)
  have hc : Cursor.ofText (Text.unifyLineEnds code) = .error e := by
    rw [Cursor.ofText, h]
    rfl
  simp only [run, hn, passes, hc, and_self]

/-- If a source, with its line ends unified, cannot be tokenized or has no site, a run changes nothing
but line ends. It hands the source back as it is just when it cannot be tokenized or its line ends are
all of one sort: when `\r\n` does not occur, or `\n` only behind `\r`. -/
theorem run_unchanged_iff
    (h : ∀ ts, Token.tokenize (Text.unifyLineEnds code) = .ok ts → ∀ role, Site.all r role ts = []) :
    Text.unifyLineEnds (run s r code path).code = Text.unifyLineEnds code ∧
    ((run s r code path).code = code ↔
      (∃ e, Token.tokenize (Text.unifyLineEnds code) = .error e) ∨ Text.hasCrLf code = false ∨
        Text.EndsInCrLf code) := by
  cases hts : Token.tokenize (Text.unifyLineEnds code) with
  | error e =>
    have hcode := (run_of_tokenize_error s path (r := r) hts).2
    exact ⟨by rw [hcode], by simp [hcode]⟩
  | ok ts =>
    obtain ⟨-, -, -, hcode⟩ := run_of_siteless s path ⟨ts, hts, h ts hts⟩
    refine ⟨?_, ?_⟩
    · rw [hcode]
      cases hcr : Text.hasCrLf code with
      | true => rw [if_pos rfl, Text.unify_restoreLineEnds]
      | false => simp [Text.unifyLineEnds_of_not_hasCrLf hcr]
    · rw [hcode, Text.lineEnds_restored]
      simp

/-- A source with `\r\n` only, also within a literal. -/
theorem run_unchanged_iff_crLf :
    (run {} (Registry.ofSettings {}) "a\r\n\"\"\"\r\n@b\"\"\"".toList).code =
      "a\r\n\"\"\"\r\n@b\"\"\"".toList := by
  refine (run_unchanged_iff {} none ?_).2.mpr (.inr (.inr ?_))
  · intro ts hts role
    have hts' : Token.tokenize (Text.unifyLineEnds "a\r\n\"\"\"\r\n@b\"\"\"".toList) = .ok
        [⟨.identifier, ['a'], 1, 0, 0, 1, false, false⟩, ⟨.newline, ['\n'], 1, 1, 1, 2, false, false⟩,
          ⟨.string, "\"\"\"\n@b\"\"\"".toList, 2, 0, 2, 11, false, false⟩,
          ⟨.eof, [], 3, 5, 11, 11, false, false⟩] := by
      rfl
    rw [hts'] at hts
    cases hts
    cases role <;> rfl
  · exact (Text.restore_unifyLineEnds _).mp rfl

/-- Where the source mixes line ends, a run over it changes one although no token is a site. -/
theorem run_changed_mixed : (∃ ts, Token.tokenize "a\r\nb\n".toList = .ok ts ∧
      ∀ role, Site.all (Registry.ofSettings {}) role ts = []) ∧
    (run {} (Registry.ofSettings {}) "a\r\nb\n".toList).code = "a\r\nb\r\n".toList := by
  refine ⟨⟨[⟨.identifier, ['a'], 1, 0, 0, 1, false, false⟩,
    ⟨.newline, ['\r', '\n'], 1, 1, 1, 3, false, false⟩, ⟨.identifier, ['b'], 2, 0, 3, 4, false, false⟩,
    ⟨.newline, ['\n'], 2, 1, 4, 5, false, false⟩, ⟨.eof, [], 3, 0, 5, 5, false, false⟩], rfl, ?_⟩, ?_⟩
  · intro role
    cases role <;> rfl
  · decide +kernel

end Expansion

end SwiftMacros
