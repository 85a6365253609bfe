import Mathlib
import SwiftMacros.Proofs.Expansion.FieldReport
import SwiftMacros.Proofs.Expansion.Deferral

/-! The passes of a run. A run succeeds if no pass has a failure and the last one defers nothing, and
also if the number of passes is used up: a site that is still deferred then is no failure, only a
warning tells of it. -/

namespace SwiftMacros

section Sites

/-- Splitting operators leaves all other tokens. -/
theorem Token.Refines.filter_eq {ts us : List Token} (h : Token.Refines ts us) {p : Token → Bool}
    (hp : ∀ t, t.kind = .operator → p t = false) : ts.filter p = us.filter p := by
  induction h with
  | nil => rfl
  | keep t _ ih => simp only [List.filter_cons, ih]
  | @split t ts us hk hlen _ ih =>
    rw [List.filter_cons, hp t.back hk] at ih
    rw [List.filter_cons, hp t hk, List.filter_cons, hp t.front hk]
    exact ih

theorem Site.all_filter (r : Registry) (role : Role) (ts : List Token) :
    Site.all r role (ts.filter fun t => t.kind == tokenKind role) = Site.all r role ts := by
  unfold Site.all
  rw [List.filterMap_filter]
  congr 1
  funext t
  by_cases h : t.kind = tokenKind role <;> simp [h]

/-- The sites of a source are not touched by reading it. -/
theorem Site.all_of_rereads {c c' : Cursor} (h : c.Rereads c') (r : Registry) (role : Role) :
    Site.all r role c'.tokens = Site.all r role c.tokens := by
  have hfilter := h.refines.filter_eq (p := fun t => t.kind == tokenKind role) fun t ht => by
    cases role <;> simp [ht, tokenKind]
  rw [← Site.all_filter r role c'.tokens, ← Site.all_filter r role c.tokens]
  have htokens : ∀ c : Cursor, c.tokens = c.inner ++ [c.eof] := fun _ => rfl
  rw [htokens, htokens, List.filter_append, List.filter_append, hfilter, h.eof]

/-- A pass attempts all sites of its source. -/
theorem Pass.attempts_sites (ctx : Context) (r : Registry) {c : Cursor} (hs : c.Sound) :
    (Pass.ofCursor ctx r c).attempts.map (·.site) =
      Site.all r .expression c.tokens ++ Site.all r .member c.tokens := by
  obtain ⟨h, -⟩ := Site.attemptAll_spec ctx (Site.all r .expression c.tokens) hs
  rw [← Site.all_of_rereads h r .member, Pass.attempts, List.map_append]
  exact congrArg₂ (· ++ ·) (Site.attemptAll_sites ctx _ _) (Site.attemptAll_sites ctx _ _)

/-- If nothing fails and nothing is deferred, all sites are taken. -/
theorem Pass.taken_of_settled {p : Pass} (hf : p.failures = []) (hd : p.selection.deferred = []) :
    ∀ x ∈ p.attempts.map (·.site), ∃ k ∈ p.selection.taken, k.site = x := by
  rw [Pass.failures_eq_nil_iff] at hf
  intro x hx
  obtain ⟨a, ha, rfl⟩ := List.mem_map.mp hx
  have hok := hf a ha
  obtain ⟨y, hy⟩ : ∃ y, a.production.result = .ok y := by
    unfold Attempt.failure? at hok
    split at hok
    · exact ⟨_, ‹_›⟩
    · cases hok
  have hk : (⟨a.site, y⟩ : Pass.Candidate) ∈ Pass.candidates p.expressions ++
      Pass.candidates p.members := by
    rw [Pass.candidates, Pass.candidates, ← List.filterMap_append]
    exact List.mem_filterMap.mpr ⟨a, ha, by simp [Attempt.expanded?, hy, Except.toOption]⟩
  rcases p.selection_settles _ hk with hk | hk
  · exact ⟨_, hk, rfl⟩
  · rw [hd] at hk
    cases hk

end Sites

section Warnings

theorem Group.setters_warnings {g : Group} {l : SetterList} (h : g.setters = .ok l) :
    ∀ w ∈ l.warnings, ∃ f, w = Setter.warning g.name f := by
  unfold Group.setters at h
  cases hkind : g.composite with
  | error e => rw [hkind] at h; cases h
  | ok kind =>
    cases hps : g.eligibleProperties with
    | error e => rw [hkind, hps] at h; cases h
    | ok ps =>
      rw [hkind, hps] at h
      cases h
      intro w hw
      obtain ⟨f, -, rfl⟩ := List.mem_map.mp hw
      exact ⟨f, rfl⟩

/-- The macros that are built in warn of properties without a type, and of nothing else. -/
theorem Site.Answers.warnings {ctx : Context} {x : Site} {code : Text} {p : Production Expanded}
    (h : x.Answers ctx code p) (hx : x.called.action = .setters ∨ x.called.action = .weakCapture) :
    ∀ w ∈ p.warnings, ∃ g f, w = Setter.warning g f := by
  cases h with
  | @member c c' g a as hs hl source start spans attributes role =>
    rcases hx with hx | hx
    · simp only [Expanded.ofMember, Macro.expandMember, hx]
      cases hg : g.setters with
      | error e => simp [Production.map, Production.refuse]
      | ok l =>
        intro w hw
        exact ⟨_, Group.setters_warnings hg w hw⟩
    · rw [Macro.role, hx] at role
      cases role
  | expression hs hl source start reads role =>
    rcases hx with hx | hx
    · rw [Macro.role, hx] at role
      cases role
    · simp only [Expanded.ofExpression, Macro.expandExpression, hx]
      split <;> simp [Production.map, Production.refuse]

end Warnings

/-- The text with the edits of a pass applied. -/
def Pass.after (p : Pass) : Text := Edit.applyAll p.code p.edits

namespace Expansion

/-- The passes over a text that follow one another until one of them defers nothing, at most as many
as given. -/
def history (ctx : Context) (r : Registry) : Nat → Text → List Pass
  | 0, _ => []
  | n + 1, code =>
    match Cursor.ofText code with
    | .error _ => []
    | .ok c =>
      let p := Pass.ofCursor ctx r c
      p :: if p.selection.deferred.isEmpty then [] else history ctx r n p.after

/-- The text that passes leave. -/
def remainder (code : Text) (ps : List Pass) : Text := (ps.getLast?.map Pass.after).getD code

/-- Whether the last of the passes defers nothing. -/
def settled (ps : List Pass) : Bool := ps.getLast?.any (·.selection.deferred.isEmpty)

/-- All passes are free of failures, and the last one defers nothing or is the last one allowed. -/
structure Fulfilled (limit : Nat) (ps : List Pass) : Prop where
  clean : ∀ p ∈ ps, p.failures = []
  ended : settled ps = true ∨ ps.length = limit

/-- The warning that the number of passes is used up. -/
def limitWarning (s : Settings) : Text :=
  "Nested macro sites remain after ".toList ++ Text.ofNat s.maxPasses ++ " passes".toList

section Passes

variable {s : Settings} {r : Registry} {path : Option Text} {c : Cursor} {p : Progress}

/-- The warnings of the macros in a pass. -/
def passWarnings (q : Pass) : List Text := q.attempts.flatMap (·.production.warnings)

/-- A pass that does not abort the run reports its failures and applies its edits. It ends the run if
it defers nothing. -/
theorem afterPass_unaborted (ctx : Context) {pass : Pass} (hcode : p.code = pass.code)
    (hnone : (if ctx.settings.strict then Pass.untilFailure pass.attempts else none) = none)
    (hedits : pass.selection.deferred ≠ [] → pass.edits ≠ []) :
    ∃ q : Progress, q.failures = p.failures ++ unreported (p.failures.map Pass.Failure.key)
        pass.failures ∧ q.code = pass.after ∧ q.warnings = p.warnings ++ passWarnings pass ∧
      afterPass ctx pass p = if pass.selection.deferred.isEmpty then .done q else .again q := by
  have hends : (pass.selection.deferred.isEmpty || pass.edits.isEmpty) =
      pass.selection.deferred.isEmpty := by
    by_cases hd : pass.selection.deferred = []
    · simp [hd]
    · simp [hd, hedits hd]
  have happly : (if pass.edits.isEmpty then p.code else Edit.applyAll p.code pass.edits) =
      pass.after := by
    rw [hcode]
    split
    next hempty =>
      rw [Pass.after, List.isEmpty_iff.mp hempty]
      rfl
    next => rfl
  refine ⟨⟨pass.after, p.failures ++ unreported (p.failures.map Pass.Failure.key) pass.failures,
    p.marks ++ pass.attempts.flatMap Attempt.marks ++ pass.deferralMarks ++ [.stop],
    p.warnings ++ passWarnings pass⟩, rfl, rfl, rfl, ?_⟩
  unfold afterPass
  simp only [hnone, hends, happly, passWarnings]

/-- A pass without failures applies its edits, and ends the run if it defers nothing. -/
theorem afterPass_clean (ctx : Context) {pass : Pass} (hcode : p.code = pass.code)
    (hp : p.failures = []) (hf : pass.failures = [])
    (hedits : pass.selection.deferred ≠ [] → pass.edits ≠ []) :
    ∃ q : Progress, q.failures = [] ∧ q.code = pass.after ∧
      q.warnings = p.warnings ++ passWarnings pass ∧
      afterPass ctx pass p = if pass.selection.deferred.isEmpty then .done q else .again q := by
  have hnone := (Pass.untilFailure_attempts_eq_none_iff pass).mpr hf
  obtain ⟨q, hq, hrest⟩ := afterPass_unaborted ctx hcode (by rw [hnone, ite_self]) hedits
  exact ⟨q, by simpa [hp, hf, unreported] using hq, hrest⟩

section Lists

variable {q : Pass} {ps : List Pass}

/-- Passes go on behind one that defers a site. -/
theorem settled_cons (hq : q.selection.deferred.isEmpty = false) :
    settled (q :: ps) = settled ps := by
  cases ps with
  | nil => simpa [settled] using hq
  | cons p ps => simp [settled]

theorem remainder_cons (code : Text) : remainder code (q :: ps) = remainder q.after ps := by
  cases ps with
  | nil => rfl
  | cons p ps => simp only [remainder, List.getLast?_cons_cons, List.getLast?_eq_some_getLast
      (List.cons_ne_nil p ps), Option.map_some, Option.getD_some]

theorem fulfilled_cons {limit : Nat} (hf : q.failures = [])
    (hq : q.selection.deferred.isEmpty = false) :
    Fulfilled (limit + 1) (q :: ps) ↔ Fulfilled limit ps := by
  refine ⟨fun h => ⟨fun p hp => h.clean p (by simp [hp]), ?_⟩, fun h => ⟨?_, ?_⟩⟩
  · simpa [settled_cons hq] using h.ended
  · exact List.forall_mem_cons.mpr ⟨hf, h.clean⟩
  · simpa [settled_cons hq] using h.ended

end Lists

/-- Contexts that no macro tells apart have the same passes. -/
theorem history_alike {ctx ctx' : Context} (h : r.Alike ctx ctx') (n : Nat) (code : Text) :
    history ctx r n code = history ctx' r n code := by
  induction n generalizing code with
  | zero => rfl
  | succ n ih => simp only [history, Pass.ofCursor_alike h, ih]

theorem history_of_ok {ctx : Context} {code : Text} {n : Nat} {q : Pass}
    (hc : Cursor.ofText code = .ok c) (hq : Pass.ofCursor ctx r c = q) :
    history ctx r (n + 1) code =
      q :: if q.selection.deferred.isEmpty then [] else history ctx r n q.after := by
  rw [history, hc]
  dsimp only
  rw [hq]

theorem passes_of_ok {ctx : Context} {left n : Nat} {q : Pass} (hc : Cursor.ofText p.code = .ok c)
    (hq : Pass.ofCursor ctx r c = q) : passes ctx r n (left + 1) p =
      match afterPass ctx q { p with marks := p.marks ++ [.start (passName n) []] } with
      | .aborted d p' =>
        .stopped d { p' with marks := p'.marks ++ [.warning ("Strict mode: ".toList ++ d.message)] }
      | .again p' => passes ctx r (n + 1) left p'
      | .done p' => .completed p' := by
  subst hq
  cases h : afterPass ctx (Pass.ofCursor ctx r c)
    { p with marks := p.marks ++ [.start (passName n) []] } <;> simp only [passes, hc, h]

variable (path) in
/-- What a run from a text on comes to is told by its passes. -/
theorem passes_history (left n : Nat) (hp : p.failures = []) :
    ((passes { settings := s, path } r n left p).succeeded = true ↔
        Fulfilled left (history { settings := s, path } r left p.code)) ∧
      (Fulfilled left (history { settings := s, path } r left p.code) →
        ∃ q, passes { settings := s, path } r n left p = .completed q ∧ q.failures = [] ∧
          q.code = remainder p.code (history { settings := s, path } r left p.code) ∧
          q.warnings = p.warnings ++ (history { settings := s, path } r left p.code).flatMap passWarnings ++
            if settled (history { settings := s, path } r left p.code) then [] else [limitWarning s]) := by
  induction left generalizing n p with
  | zero =>
    refine ⟨⟨fun _ => ⟨by simp [history], .inr rfl⟩, fun _ => ?_⟩, fun _ => ⟨_, rfl, hp, rfl, ?_⟩⟩
    · unfold passes Ending.succeeded
      rw [hp]
      rfl
    · rw [show history { settings := s, path } r 0 p.code = [] from rfl, List.flatMap_nil, List.append_nil]
      rfl
  | succ left ih =>
    cases hc : Cursor.ofText p.code with
    | error e =>
      have hnot : ¬ Fulfilled (left + 1) [] := fun h => by
        rcases h.ended with h | h <;> cases h
      have hhistory : history { settings := s, path } r (left + 1) p.code = [] := by rw [history, hc]
      have hfailed : (passes { settings := s, path } r n (left + 1) p).succeeded = false := by
        rw [passes, hc]
        rfl
      rw [hhistory, hfailed]
      exact ⟨⟨fun h => absurd h Bool.false_ne_true, fun h => absurd h hnot⟩, fun h => absurd h hnot⟩
    | ok c =>
      obtain ⟨hs, hsource, -⟩ := Cursor.sound_ofText hc
      obtain ⟨q, hq⟩ : ∃ q, Pass.ofCursor { settings := s, path } r c = q := ⟨_, rfl⟩
      have hedits : q.selection.deferred ≠ [] → q.edits ≠ [] := hq ▸ Pass.edits_ne_nil hs
      rw [history_of_ok hc hq, passes_of_ok hc hq]
      generalize hstart : ({ p with marks := p.marks ++ [.start (passName n) []] } : Progress) = p₁
      have hcode : p₁.code = q.code := by rw [← hstart, ← hq]; exact hsource.symm
      have hp₁ : p₁.failures = [] := by rw [← hstart]; exact hp
      have hwarn : p₁.warnings = p.warnings := by rw [← hstart]
      by_cases hf : q.failures = []
      · obtain ⟨p', hp', hcode', hwarnings, hafter⟩ :=
          afterPass_clean { settings := s, path } hcode hp₁ hf hedits
        rw [hwarn] at hwarnings
        rw [hafter]
        cases hd : q.selection.deferred.isEmpty with
        | true =>
          have hsettled : settled [q] = true := by simpa [settled] using hd
          refine ⟨⟨fun _ => ⟨by simp [hf], .inl hsettled⟩, fun _ => ?_⟩, fun _ => ?_⟩
          · simp [Ending.succeeded, hp']
          · refine ⟨p', rfl, hp', hcode', ?_⟩
            rw [if_pos rfl, if_pos hsettled, hwarnings]
            simp
        | false =>
          obtain ⟨hiff, hrun⟩ := ih (n + 1) hp'
          rw [if_neg Bool.false_ne_true, if_neg Bool.false_ne_true, fulfilled_cons hf hd, ← hcode']
          refine ⟨hiff, fun h => ?_⟩
          obtain ⟨p'', hp'', hf'', hcode'', hwarnings''⟩ := hrun h
          refine ⟨p'', hp'', hf'', ?_, ?_⟩
          · rw [hcode'', remainder_cons, hcode']
          · rw [hwarnings'', hwarnings, settled_cons hd]
            simp
      · have hnot : ∀ qs, ¬ Fulfilled (left + 1) (q :: qs) := fun qs h => hf (h.clean q (by simp))
        refine ⟨⟨fun h => ?_, fun h => absurd h (hnot _)⟩, fun h => absurd h (hnot _)⟩
        rcases afterPass_failures q p₁ { settings := s, path } with ⟨d, p', hstep⟩ | hfailures
        · rw [hstep] at h
          cases h
        · rw [hp₁, List.map_nil, unreported_nil, List.nil_append] at hfailures
          cases hstep : afterPass { settings := s, path } q p₁ with
          | aborted d p' =>
            rw [hstep] at h
            cases h
          | again p' =>
            rw [hstep] at h hfailures
            dsimp only at h
            rw [passes_not_succeeded r _ left (n + 1) p' (hfailures.trans_ne hf)] at h
            cases h
          | done p' =>
            rw [hstep] at h hfailures
            exact absurd (List.isEmpty_iff.mp h) (hfailures.trans_ne hf)

end Passes

section Run

/-- The passes of the run of a source. -/
def passesOf (s : Settings) (r : Registry) (code : Text) (path : Option Text := none) : List Pass :=
  history { settings := s, path } r s.maxPasses (Text.unifyLineEnds code)

/-- The macros that are built in do not look at the path of the source. -/
theorem passesOf_ofSettings (s : Settings) (code : Text) (path : Option Text) :
    passesOf s (Registry.ofSettings s) code path = passesOf s (Registry.ofSettings s) code :=
  history_alike (Registry.alike_ofSettings s { settings := s, path } { settings := s } rfl rfl) _ _

variable (s : Settings) (r : Registry) (code : Text) (path : Option Text)

/-- A run succeeds if its passes are fulfilled, and then its result is told by them. -/
theorem run_history :
    ((run s r code path).success = true ↔ Fulfilled s.maxPasses (passesOf s r code path)) ∧
      (Fulfilled s.maxPasses (passesOf s r code path) →
        (run s r code path).diagnostics = [] ∧
        (run s r code path).code =
          (if Text.hasCrLf code then
            Text.restoreLineEnds (remainder (Text.unifyLineEnds code) (passesOf s r code path))
          else remainder (Text.unifyLineEnds code) (passesOf s r code path)) ∧
        (run s r code path).warnings = (passesOf s r code path).flatMap passWarnings ++
          if settled (passesOf s r code path) then [] else [limitWarning s]) := by
  generalize hstart : ({
    code := Text.unifyLineEnds code
    marks := [.start "Macro Expansion".toList
      ((path.filter (!·.isEmpty)).getD "<string>".toList)] } : Progress) = p
  have hcode : p.code = Text.unifyLineEnds code := by rw [← hstart]
  have hf : p.failures = [] := by rw [← hstart]
  have hw : p.warnings = [] := by rw [← hstart]
  obtain ⟨hiff, hrun⟩ := passes_history (s := s) (r := r) path s.maxPasses 1 hf
  rw [hcode] at hiff hrun
  have hsuccess : (run s r code path).success =
      (passes { settings := s, path } r 1 s.maxPasses p).succeeded := by
    unfold run
    dsimp only
    rw [hstart]
    cases passes { settings := s, path } r 1 s.maxPasses p <;> rfl
  refine ⟨by rw [hsuccess]; exact hiff, fun h => ?_⟩
  obtain ⟨q, hq, hqf, hqcode, hqw⟩ := hrun h
  rw [hw, List.nil_append] at hqw
  unfold run
  dsimp only
  rw [hstart, hq]
  dsimp only
  rw [hqf, hqcode, hqw]
  exact ⟨rfl, rfl, rfl⟩

end Run

section Warnings

variable {s : Settings} {ctx : Context}

/-- No macro warns in the words of the run itself. -/
theorem limitWarning_ne (g : Text) (f : Setter) : Setter.warning g f ≠ limitWarning s := by
  intro h
  have hleft : (Setter.warning g f).getLast? = some 'r' := by
    unfold Setter.warning
    rw [List.getLast?_append]
    rfl
  have hright : (limitWarning s).getLast? = some 's' := by
    unfold limitWarning
    rw [List.getLast?_append]
    rfl
  rw [h, hright] at hleft
  cases hleft

theorem limitWarning_notMem {c : Cursor} (hs : c.Sound) :
    limitWarning s ∉ passWarnings (Pass.ofCursor ctx (Registry.ofSettings s) c) := by
  obtain ⟨hs₁, hexpressions⟩ := Site.attemptAll_spec ctx
    (Site.all (Registry.ofSettings s) .expression c.tokens) hs
  obtain ⟨-, hmembers⟩ := Site.attemptAll_spec ctx
    (Site.all (Registry.ofSettings s) .member (Site.attemptAll ctx
      (Site.all (Registry.ofSettings s) .expression c.tokens) c).2.tokens) hs₁.sound
  have hnone : ∀ (code : Text) (a : Attempt), a.Answered ctx code →
      (a.site.called.action = .setters ∨ a.site.called.action = .weakCapture) →
        limitWarning s ∉ a.production.warnings := by
    rintro code a (h | ⟨e, he⟩) haction hw
    · obtain ⟨g, f, hgf⟩ := h.warnings haction _ hw
      exact limitWarning_ne g f hgf.symm
    · simp [he] at hw
  intro hw
  obtain ⟨a, ha, hw⟩ := List.mem_flatMap.mp hw
  rcases List.mem_append.mp ha with ha | ha
  · obtain ⟨hmem, hanswered⟩ := hexpressions a ha
    exact hnone _ a hanswered (.inr (Site.weakCapture_of_mem_all hmem)) hw
  · obtain ⟨hmem, hanswered⟩ := hmembers a ha
    exact hnone _ a hanswered (.inl (Site.setters_of_mem_all hmem)) hw

end Warnings

theorem mem_history {ctx : Context} {r : Registry} {n : Nat} {code : Text} {p : Pass}
    (h : p ∈ history ctx r n code) : ∃ c, Cursor.ofText p.code = .ok c ∧ Pass.ofCursor ctx r c = p := by
  induction n generalizing code with
  | zero => cases h
  | succ n ih =>
    cases hc : Cursor.ofText code with
    | error e =>
      rw [history, hc] at h
      cases h
    | ok c =>
      rw [history_of_ok hc rfl, List.mem_cons] at h
      rcases h with rfl | h
      · obtain ⟨-, hsource, -⟩ := Cursor.sound_ofText hc
        exact ⟨c, (congrArg Cursor.ofText hsource).trans hc, rfl⟩
      · split at h
        · cases h
        · exact ih h

/-- If a run succeeds, no site has failed in any of its passes. Either the last pass has taken all
sites that it met, or passes were used up, some sites are still deferred, and a warning says so. -/
theorem run_sites {s : Settings} {code : Text} {path : Option Text}
    (h : (run s (Registry.ofSettings s) code path).success = true) :
    (∀ q ∈ passesOf s (Registry.ofSettings s) code, q.failures = []) ∧
    ∃ p ∈ (passesOf s (Registry.ofSettings s) code).getLast?, ∃ c, Cursor.ofText p.code = .ok c ∧
      (p.selection.deferred = [] → ∀ role, ∀ x ∈ Site.all (Registry.ofSettings s) role c.tokens,
        ∃ k ∈ p.selection.taken, k.site = x) ∧
      (p.selection.deferred ≠ [] →
        (passesOf s (Registry.ofSettings s) code).length = s.maxPasses) ∧
      (limitWarning s ∈ (run s (Registry.ofSettings s) code path).warnings ↔
        p.selection.deferred ≠ []) := by
  obtain ⟨hiff, hrun⟩ := run_history s (Registry.ofSettings s) code path
  rw [passesOf_ofSettings] at hiff hrun
  have hfulfilled := hiff.mp h
  obtain ⟨-, -, hwarnings⟩ := hrun hfulfilled
  obtain ⟨hclean, hended⟩ := hfulfilled
  refine ⟨hclean, ?_⟩
  have hne : passesOf s (Registry.ofSettings s) code ≠ [] := by
    intro hnil
    rcases hended with h | h
    · simp [hnil, settled] at h
    · have := s.one_le_maxPasses
      simp only [hnil, List.length_nil] at h
      omega
  have hlast := List.getLast?_eq_some_getLast hne
  generalize (passesOf s (Registry.ofSettings s) code).getLast hne = p at hlast
  have hmem := List.mem_of_mem_getLast? hlast
  obtain ⟨c, hc, hp⟩ := mem_history hmem
  obtain ⟨hs, -, -⟩ := Cursor.sound_ofText hc
  have hsettled : settled (passesOf s (Registry.ofSettings s) code) =
      p.selection.deferred.isEmpty := by
    rw [settled, hlast, Option.any_some]
  have hmacros : limitWarning s ∉
      (passesOf s (Registry.ofSettings s) code).flatMap passWarnings := by
    intro hw
    obtain ⟨q, hq, hw⟩ := List.mem_flatMap.mp hw
    obtain ⟨d, hd, rfl⟩ := mem_history hq
    exact limitWarning_notMem (Cursor.sound_ofText hd).1 hw
  refine ⟨p, hlast, c, hc, fun hd role x hx => ?_, fun hd => ?_, ?_⟩
  · refine Pass.taken_of_settled (hclean p hmem) hd x ?_
    rw [← hp, Pass.attempts_sites _ _ hs]
    cases role <;> simp [hx]
  · rcases hended with h | h
    · rw [hsettled, List.isEmpty_iff] at h
      exact absurd h hd
    · exact h
  · rw [hwarnings, hsettled, List.mem_append]
    by_cases hd : p.selection.deferred = []
    · simp [hd, hmacros]
    · simp [hd]

/-- A marker in a closure that a marker stands before, and one pass. -/
theorem run_sites_nested :
    (run { maxPasses := 1 } (Registry.ofSettings { maxPasses := 1 })
      "let a = #WeakSelfClosure \x7b let b = #WeakSelfClosure \x7b run() \x7d \x7d".toList).success =
        true ∧
    ∃ p ∈ (passesOf { maxPasses := 1 } (Registry.ofSettings { maxPasses := 1 })
        "let a = #WeakSelfClosure \x7b let b = #WeakSelfClosure \x7b run() \x7d \x7d".toList).getLast?,
      limitWarning { maxPasses := 1 } ∈ (run { maxPasses := 1 } (Registry.ofSettings { maxPasses := 1 })
        "let a = #WeakSelfClosure \x7b let b = #WeakSelfClosure \x7b run() \x7d \x7d".toList).warnings ↔
          p.selection.deferred ≠ [] := by
  have hsuccess : (run { maxPasses := 1 } (Registry.ofSettings { maxPasses := 1 })
      "let a = #WeakSelfClosure \x7b let b = #WeakSelfClosure \x7b run() \x7d \x7d".toList).success =
        true := by
    decide +kernel
  obtain ⟨-, p, hp, c, -, -, -, hiff⟩ := run_sites hsuccess
  exact ⟨hsuccess, p, hp, hiff⟩

/-- The run succeeds although its last pass defers a site. -/
theorem run_succeeds_deferring :
    (run { maxPasses := 1 } (Registry.ofSettings { maxPasses := 1 })
      "let a = #WeakSelfClosure \x7b let b = #WeakSelfClosure \x7b run() \x7d \x7d".toList).success =
        true ∧
    ((passesOf { maxPasses := 1 } (Registry.ofSettings { maxPasses := 1 })
      "let a = #WeakSelfClosure \x7b let b = #WeakSelfClosure \x7b run() \x7d \x7d".toList).map
        (·.selection.deferred.length)) = [1] := by
  decide +kernel

end Expansion

end SwiftMacros
