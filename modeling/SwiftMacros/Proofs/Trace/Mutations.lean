import Mathlib
import SwiftMacros.Proofs.Trace.Brackets
import SwiftMacros.Proofs.Expansion.History

/-! Mutations in the trace of a run. A pass records a mutation for each site that expands, before it
is settled which of them are taken. So its mutations are those of the sites taken and those of the
sites deferred, and they are the sites applied to the source only if nothing is deferred. -/

namespace SwiftMacros

namespace Trace

def Mark.isMutation : Mark → Bool
  | .mutation _ _ _ => true
  | _ => false

/-- The mutations that events record in the phase started by the event with the index `i`. -/
def mutationsIn (es : List Event) (i : Nat) : List Mark :=
  (es.filter fun e => e.parent == some i && e.mark.isMutation).map (·.mark)

/-- The indices of the events that start a phase in the outermost one, where the first of the events
has the index `i`. -/
def passesFrom : Nat → List Event → List Nat
  | _, [] => []
  | i, ⟨.start _ _, some 0⟩ :: es => i :: passesFrom (i + 1) es
  | i, _ :: es => passesFrom (i + 1) es

/-- The phases of the passes of a run. -/
def passPhases (es : List Event) : List Nat := passesFrom 0 es

section Phases

variable {i : Nat} {phases : List Nat}

theorem Mark.phasesAfter_plain {m : Mark} (h : m.isPlain = true) :
    m.phasesAfter i phases = phases := by
  cases m <;> first | rfl | cases h

theorem eventsFrom_plain {ms : List Mark} (h : ∀ m ∈ ms, m.isPlain = true) :
    eventsFrom i phases ms = ms.map fun m => ⟨m, phases.head?⟩ := by
  induction ms generalizing i with
  | nil => rfl
  | cons m ms ih =>
    obtain ⟨hm, hms⟩ := List.forall_mem_cons.mp h
    rw [eventsFrom_cons, if_neg (fun hstop => by rw [hstop.1] at hm; cases hm), List.map_cons,
      Mark.phasesAfter_plain hm, ih hms]

theorem openFrom_plain {ms : List Mark} (h : ∀ m ∈ ms, m.isPlain = true) (p : Option Nat) :
    openFrom i phases (ms.map fun m => ⟨m, p⟩) = phases := by
  induction ms generalizing i with
  | nil => rfl
  | cons m ms ih =>
    obtain ⟨hm, hms⟩ := List.forall_mem_cons.mp h
    rw [List.map_cons, openFrom, Mark.phasesAfter_plain hm, ih hms]

theorem passesFrom_append (es fs : List Event) :
    passesFrom i (es ++ fs) = passesFrom i es ++ passesFrom (i + es.length) fs := by
  fun_induction passesFrom i es <;> simp_all [passesFrom, Nat.add_assoc, Nat.add_comm 1]

theorem passesFrom_plain {ms : List Mark} (h : ∀ m ∈ ms, m.isPlain = true) (p : Option Nat) :
    passesFrom i (ms.map fun m => ⟨m, p⟩) = [] := by
  induction ms generalizing i with
  | nil => rfl
  | cons m ms ih =>
    obtain ⟨hm, hms⟩ := List.forall_mem_cons.mp h
    cases m <;> simp_all [passesFrom, Mark.isPlain]

theorem mutationsIn_append (es fs : List Event) :
    mutationsIn (es ++ fs) i = mutationsIn es i ++ mutationsIn fs i := by
  simp [mutationsIn]

/-- Events that lie in other phases record nothing in this one. -/
theorem mutationsIn_eq_nil {es : List Event} (h : ∀ e ∈ es, e.parent ≠ some i) :
    mutationsIn es i = [] := by
  rw [mutationsIn, List.map_eq_nil_iff, List.filter_eq_nil_iff]
  intro e he
  simp [h e he]

end Phases

end Trace

open Trace

namespace Pass

/-- The sites of a pass that expand. -/
def found (p : Pass) : List Candidate := candidates p.expressions ++ candidates p.members

/-- The mutation that a site which expands is recorded by. -/
def Candidate.mutation (k : Candidate) : Mark :=
  .mutation k.site.label k.expanded.before k.expanded.after

/-- The marks of a pass behind its start. -/
def inside (p : Pass) : List Mark := p.attempts.flatMap Attempt.marks ++ p.deferralMarks

/-- The marks of passes that follow one another, the first with the number `n`. -/
def marksFrom : Nat → List Pass → List Mark
  | _, [] => []
  | n, p :: ps => .start (Expansion.passName n) [] :: p.inside ++ .stop :: marksFrom (n + 1) ps

theorem inside_plain (p : Pass) : ∀ m ∈ p.inside, m.isPlain = true := by
  intro m hm
  rcases List.mem_append.mp hm with hm | hm
  · exact Expansion.marks_plain p.attempts m hm
  · exact Expansion.deferralMarks_plain p m hm

/-- An attempt records a mutation if and only if the site expands. -/
theorem mutations_attempt (a : Attempt) : a.marks.filter Mark.isMutation =
    ((a.expanded?.map (Candidate.mk a.site)).map Candidate.mutation).toList := by
  have hwarnings : (a.production.warnings.map Mark.warning).filter Mark.isMutation = [] := by
    rw [List.filter_eq_nil_iff, List.forall_mem_map]
    exact fun w _ => Bool.false_ne_true
  cases hr : a.production.result <;>
    simp [Attempt.marks, Attempt.expanded?, hr, Except.toOption, hwarnings, Mark.isMutation,
      Candidate.mutation]

theorem mutations_attempts (as : List Attempt) :
    (as.flatMap Attempt.marks).filter Mark.isMutation = (candidates as).map Candidate.mutation := by
  induction as with
  | nil => rfl
  | cons a as ih =>
    rw [List.flatMap_cons, List.filter_append, ih, mutations_attempt]
    cases ha : a.expanded? <;> simp [candidates, ha]

/-- A pass records the sites that expand, in order, and none of them twice. -/
theorem mutations_inside (p : Pass) :
    p.inside.filter Mark.isMutation = p.found.map Candidate.mutation := by
  have hdeferrals : p.deferralMarks.filter Mark.isMutation = [] := by
    rw [deferralMarks, List.filter_eq_nil_iff, List.forall_mem_map]
    exact fun w _ => Bool.false_ne_true
  rw [inside, List.filter_append, mutations_attempts, hdeferrals, List.append_nil, attempts, found,
    candidates, List.filterMap_append]
  rfl

section Marks

variable {i n : Nat}

/-- The events of a pass of a run, the first with the index `i` and the name of the pass `n`. -/
def eventsOf (i n : Nat) (p : Pass) : List Event :=
  ⟨.start (Expansion.passName n) [], some 0⟩ :: (p.inside.map fun m => ⟨m, some i⟩) ++
    [⟨.stop, some i⟩]

theorem length_eventsOf (p : Pass) : (eventsOf i n p).length = p.inside.length + 2 := by
  simp [eventsOf]

theorem eventsFrom_pass (p : Pass) (ms : List Mark) :
    eventsFrom i [0] (.start (Expansion.passName n) [] :: p.inside ++ .stop :: ms) =
      eventsOf i n p ++ eventsFrom (i + p.inside.length + 2) [0] ms := by
  rw [List.cons_append, eventsFrom_cons, if_neg (by simp), eventsFrom_append,
    eventsFrom_plain p.inside_plain, openFrom_plain p.inside_plain, eventsFrom_cons,
    if_neg (by simp [Mark.phasesAfter])]
  simp only [Mark.phasesAfter, List.head?_cons, List.tail_cons, List.length_map, eventsOf,
    List.cons_append, List.append_assoc, List.nil_append]
  rw [show i + 1 + p.inside.length + 1 = i + p.inside.length + 2 by omega]

theorem parent_of_mem_eventsOf {p : Pass} {e : Event} (h : e ∈ eventsOf i n p) :
    e.parent = some 0 ∨ e.parent = some i := by
  simp only [eventsOf, List.mem_append, List.mem_cons, List.mem_map, List.mem_nil_iff, or_false] at h
  rcases h with (rfl | ⟨m, -, rfl⟩) | rfl
  · exact .inl rfl
  · exact .inr rfl
  · exact .inr rfl

/-- A pass starts one phase in that of the run, its own. -/
theorem passesFrom_eventsOf (p : Pass) : passesFrom i (eventsOf i n p) = [i] := by
  have hinside := passesFrom_plain (i := i + 1) p.inside_plain (some i)
  rw [eventsOf, List.cons_append, passesFrom, passesFrom_append, hinside]
  simp [passesFrom]

theorem mutationsIn_eventsOf (p : Pass) :
    mutationsIn (eventsOf i n p) i = p.found.map Candidate.mutation := by
  have hinside : (p.inside.map fun m => (⟨m, some i⟩ : Event)).filter
      (fun e => e.parent == some i && e.mark.isMutation) =
        (p.inside.filter Mark.isMutation).map fun m => ⟨m, some i⟩ := by
    rw [List.filter_map]
    congr 2
    funext m
    simp
  rw [mutationsIn, eventsOf, List.cons_append, List.filter_cons, List.filter_append, hinside]
  simp [Mark.isMutation, mutations_inside, Function.comp_def]

/-- The mutations of a pass lie in its phase. -/
theorem parent_of_isMutation {p : Pass} {e : Event} (h : e ∈ eventsOf i n p)
    (hm : e.mark.isMutation = true) : e.parent = some i := by
  simp only [eventsOf, List.mem_append, List.mem_cons, List.mem_map, List.mem_nil_iff, or_false] at h
  rcases h with (rfl | ⟨m, -, rfl⟩) | rfl
  · cases hm
  · rfl
  · rfl

/-- What passes record in the trace of a run, from an index above that of the outermost phase on:
their phases in order, in each the mutations of the sites found, and no mutation elsewhere. -/
theorem marksFrom_events (ps : List Pass) {ws : List Mark} (hws : ∀ m ∈ ws, ∃ w, m = .warning w)
    (hi : 0 < i) {es : List Event} (hes : eventsFrom i [0] (marksFrom n ps ++ ws ++ [.stop]) = es) :
    (∀ e ∈ es, ∃ j, e.parent = some j ∧ (j = 0 ∨ i ≤ j)) ∧
      (∀ j ∈ passesFrom i es, i ≤ j) ∧
      (∀ e ∈ es, e.mark.isMutation = true → ∃ j ∈ passesFrom i es, e.parent = some j) ∧
      (passesFrom i es).map (mutationsIn es) = ps.map fun p => p.found.map Candidate.mutation := by
  subst hes
  induction ps generalizing i n with
  | nil =>
    have hplain : ∀ m ∈ ws, m.isPlain = true := fun m hm => by
      obtain ⟨w, rfl⟩ := hws m hm
      rfl
    have hevents : eventsFrom i [0] (marksFrom n [] ++ ws ++ [.stop]) =
        (ws.map fun m => ⟨m, some 0⟩) ++ [⟨.stop, some 0⟩] := by
      rw [marksFrom, List.nil_append, eventsFrom_append, eventsFrom_plain hplain,
        openFrom_plain hplain]
      rfl
    rw [hevents, passesFrom_append, passesFrom_plain hplain]
    refine ⟨by simp [or_imp, forall_and], by simp [passesFrom], fun e he hm => ?_,
      by simp [passesFrom]⟩
    rcases List.mem_append.mp he with he | he
    · obtain ⟨m, hmem, rfl⟩ := List.mem_map.mp he
      obtain ⟨w, rfl⟩ := hws m hmem
      cases hm
    · cases List.mem_singleton.mp he
      cases hm
  | cons p ps ih =>
    obtain ⟨hparents, hphases, hinside, hmutations⟩ :=
      ih (i := i + p.inside.length + 2) (n := n + 1) (by omega)
    have hsplit : marksFrom n (p :: ps) ++ ws ++ [.stop] = .start (Expansion.passName n) [] ::
        p.inside ++ .stop :: (marksFrom (n + 1) ps ++ ws ++ [.stop]) := by
      simp [marksFrom]
    rw [hsplit, eventsFrom_pass]
    generalize eventsFrom (i + p.inside.length + 2) [0] (marksFrom (n + 1) ps ++ ws ++ [.stop]) = es
      at *
    rw [passesFrom_append, passesFrom_eventsOf p, length_eventsOf, ← Nat.add_assoc]
    refine ⟨fun e he => ?_, fun j hj => ?_, fun e he hm => ?_, ?_⟩
    · rcases List.mem_append.mp he with he | he
      · rcases parent_of_mem_eventsOf he with h | h
        · exact ⟨0, h, .inl rfl⟩
        · exact ⟨i, h, .inr (Nat.le_refl i)⟩
      · obtain ⟨j, hj, hle⟩ := hparents e he
        exact ⟨j, hj, by omega⟩
    · rcases List.mem_append.mp hj with hj | hj
      · exact (List.mem_singleton.mp hj).ge
      · exact (by omega : i ≤ i + p.inside.length + 2).trans (hphases j hj)
    · rcases List.mem_append.mp he with he | he
      · exact ⟨i, by simp, parent_of_isMutation he hm⟩
      · obtain ⟨j, hj, hparent⟩ := hinside e he hm
        exact ⟨j, by simp [hj], hparent⟩
    · have hown : mutationsIn es i = [] := mutationsIn_eq_nil fun e he h => by
        obtain ⟨j, hj, hle⟩ := hparents e he
        rw [h] at hj
        cases hj
        omega
      have hlater : ∀ j ∈ passesFrom (i + p.inside.length + 2) es,
          mutationsIn (eventsOf i n p ++ es) j = mutationsIn es j := by
        intro j hj
        have hle := hphases j hj
        rw [mutationsIn_append, mutationsIn_eq_nil, List.nil_append]
        intro e he h
        rcases parent_of_mem_eventsOf he with h' | h' <;> rw [h'] at h <;> cases h <;> omega
      rw [List.map_append, List.map_congr_left hlater, hmutations, List.map_singleton,
        mutationsIn_append, mutationsIn_eventsOf p, hown, List.append_nil]
      rfl

end Marks

section Selection

namespace Selection

/-- The candidates that are settled, each as often as it was settled. -/
def settledOnes (t : Selection) : List Candidate := t.taken ++ t.deferred.map Prod.fst

theorem settledOnes_take (t : Selection) (k : Candidate) (spans : List Span) :
    (t.take k spans).settledOnes.Perm (t.settledOnes ++ [k]) := by
  simp only [settledOnes, take, List.append_assoc]
  exact List.perm_append_comm.append_left _

theorem settledOnes_defer (t : Selection) (k : Candidate) (reason : String) :
    (t.defer k reason).settledOnes.Perm (t.settledOnes ++ [k]) := by
  simp [settledOnes, defer]

theorem settledOnes_addExpression (t : Selection) (k : Candidate) :
    (t.addExpression k).settledOnes.Perm (t.settledOnes ++ [k]) := by
  unfold addExpression
  split
  · exact t.settledOnes_defer k _
  · exact t.settledOnes_take k _

theorem settledOnes_addMember (markers : List Nat) (t : Selection) (k : Candidate) :
    (t.addMember markers k).settledOnes.Perm (t.settledOnes ++ [k]) := by
  unfold addMember
  extract_lets spans
  split
  · exact t.settledOnes_defer k _
  · split
    · exact t.settledOnes_defer k _
    · exact t.settledOnes_take k _

theorem settledOnes_foldl {f : Selection → Candidate → Selection}
    (hf : ∀ t k, (f t k).settledOnes.Perm (t.settledOnes ++ [k])) (ks : List Candidate)
    (t : Selection) : (ks.foldl f t).settledOnes.Perm (t.settledOnes ++ ks) := by
  induction ks generalizing t with
  | nil => simp
  | cons k ks ih =>
    rw [List.foldl_cons, ← List.singleton_append, ← List.append_assoc]
    exact (ih (f t k)).trans ((hf t k).append_right ks)

end Selection

/-- Each site of a pass that expands is either taken or deferred, and only once. -/
theorem found_perm (p : Pass) :
    p.found.Perm (p.selection.taken ++ p.selection.deferred.map Prod.fst) := by
  have hexpressions := Selection.settledOnes_foldl Selection.settledOnes_addExpression
    (candidates p.expressions) {}
  exact ((Selection.settledOnes_foldl (Selection.settledOnes_addMember _) (candidates p.members)
    _).trans (hexpressions.append_right _)).symm

end Selection

end Pass

namespace Expansion

open Pass

/-- A pass that does not abort the run leaves its marks and ends its phase. -/
theorem afterPass_marks (ctx : Context) (pass : Pass) (p : Progress) :
    match afterPass ctx pass p with
    | .aborted _ _ => True
    | .again q => q.marks = p.marks ++ pass.inside ++ [.stop] ∧
        q.code = (if pass.edits.isEmpty then p.code else Edit.applyAll p.code pass.edits) ∧
        (pass.selection.deferred.isEmpty || pass.edits.isEmpty) = false
    | .done q => q.marks = p.marks ++ pass.inside ++ [.stop] ∧
        (pass.selection.deferred.isEmpty || pass.edits.isEmpty) = true := by
  unfold afterPass
  cases hfailure : (if ctx.settings.strict then Pass.untilFailure pass.attempts else none) with
  | some failure => trivial
  | none =>
    simp only
    cases hends : pass.selection.deferred.isEmpty || pass.edits.isEmpty <;>
      simp [inside]

/-- The marks of a run that is not stopped are those of its passes, and at most a warning. -/
theorem passes_marks (ctx : Context) (r : Registry) (left n : Nat) {p q : Progress}
    (h : passes ctx r n left p = .completed q) :
    ∃ ws : List Mark, (∀ m ∈ ws, ∃ w, m = .warning w) ∧
      q.marks = p.marks ++ (marksFrom n (history ctx r left p.code) ++ ws) := by
  induction left generalizing n p with
  | zero =>
    cases h
    exact ⟨_, by simp, rfl⟩
  | succ left ih =>
    cases hc : Cursor.ofText p.code with
    | error e =>
      rw [passes, hc] at h
      cases h
    | ok c =>
      obtain ⟨hs, hsource, -⟩ := Cursor.sound_ofText hc
      rw [passes_of_ok hc rfl] at h
      rw [history_of_ok hc rfl]
      have hedits : (Pass.ofCursor ctx r c).selection.deferred ≠ [] →
          (Pass.ofCursor ctx r c).edits ≠ [] := Pass.edits_ne_nil hs
      have hcode : (Pass.ofCursor ctx r c).code = p.code := hsource
      generalize Pass.ofCursor ctx r c = pass at h hedits hcode ⊢
      have hafter := afterPass_marks ctx pass
        { p with marks := p.marks ++ [.start (passName n) []] }
      split at hafter
      next d q' hstep =>
        rw [hstep] at h
        cases h
      next q' hstep =>
        rw [hstep] at h
        obtain ⟨hmarks, hnext, hgoes⟩ := hafter
        obtain ⟨hdeferred, hsome⟩ := Bool.or_eq_false_iff.mp hgoes
        obtain ⟨ws, hws, hq⟩ := ih (n + 1) h
        refine ⟨ws, hws, ?_⟩
        rw [hsome, if_neg Bool.false_ne_true] at hnext
        rw [hdeferred, if_neg Bool.false_ne_true, hq, hmarks, hnext, Pass.after, hcode, marksFrom]
        simp
      next q' hstep =>
        rw [hstep] at h
        cases h
        obtain ⟨hmarks, hends⟩ := hafter
        have hdeferred : pass.selection.deferred.isEmpty = true := by
          by_contra hd
          have hne := hedits fun hnil => hd (List.isEmpty_iff.mpr hnil)
          simp [hd, hne] at hends
        refine ⟨[], by simp, ?_⟩
        rw [hdeferred, if_pos rfl, hmarks, marksFrom, marksFrom]
        simp

/-- The events of a run that succeeds: the start of a phase, and inside of it those of the passes. -/
theorem run_events {s : Settings} {r : Registry} {code : Text} {path : Option Text}
    (h : (run s r code path).success = true) :
    ∃ m : Mark, m.isMutation = false ∧ ∃ ws : List Mark, (∀ m ∈ ws, ∃ w, m = .warning w) ∧
      (run s r code path).events = ⟨m, none⟩ ::
        eventsFrom 1 [0] (marksFrom 1 (passesOf s r code path) ++ ws ++ [.stop]) := by
  unfold run at h ⊢
  dsimp only at h ⊢
  generalize hended : passes { settings := s, path } r 1 s.maxPasses _ = ending at h ⊢
  cases ending with
  | stopped d q => cases h
  | completed q =>
    obtain ⟨ws, hws, hmarks⟩ := passes_marks { settings := s, path } r s.maxPasses 1 hended
    refine ⟨.start "Macro Expansion".toList ((path.filter (!·.isEmpty)).getD "<string>".toList),
      rfl, ws, hws, ?_⟩
    simp only [Result.events, events, hmarks]
    rfl

/-- In the trace of a run that succeeds, the phase of each pass holds one mutation for each site that
expands in that pass, taken or deferred, and there are no others. So the mutations of a pass are
those of the sites applied to the source exactly if the pass defers nothing. -/
theorem run_mutations {s : Settings} {r : Registry} {code : Text} {path : Option Text}
    (h : (run s r code path).success = true) :
    (passPhases (run s r code path).events).map (mutationsIn (run s r code path).events) =
        (passesOf s r code path).map (fun p => p.found.map Candidate.mutation) ∧
      (∀ e ∈ (run s r code path).events, e.mark.isMutation = true →
        ∃ i ∈ passPhases (run s r code path).events, e.parent = some i) ∧
      ∀ p ∈ passesOf s r code path,
        p.found.Perm (p.selection.taken ++ p.selection.deferred.map Prod.fst) ∧
          (p.found.Perm p.selection.taken ↔ p.selection.deferred = []) := by
  obtain ⟨m, hm, ws, hws, hevents⟩ := run_events h
  obtain ⟨-, -, hinside, hmutations⟩ :=
    marksFrom_events (n := 1) (i := 1) (passesOf s r code path) hws Nat.one_pos rfl
  rw [hevents]
  generalize eventsFrom 1 [0] (marksFrom 1 (passesOf s r code path) ++ ws ++ [.stop]) = es at *
  have hphases : passPhases (⟨m, none⟩ :: es) = passesFrom 1 es := by cases m <;> rfl
  have hown : mutationsIn (⟨m, none⟩ :: es) = mutationsIn es := by
    funext i
    simp [mutationsIn]
  refine ⟨by rw [hphases, hown, hmutations], fun e he hmutation => ?_, fun p hp => ⟨p.found_perm, ?_⟩⟩
  · rcases List.mem_cons.mp he with rfl | he
    · rw [hm] at hmutation
      cases hmutation
    · rw [hphases]
      exact hinside e he hmutation
  · have hperm := p.found_perm
    refine ⟨fun htaken => ?_, fun hd => by simpa [hd] using hperm⟩
    have hlength := (hperm.symm.trans htaken).length_eq
    simpa using hlength

/-- A marker in a closure that a marker stands before. -/
theorem run_mutations_nested :
    (run {} (Registry.ofSettings {})
      "let a = #WeakSelfClosure \x7b let b = #WeakSelfClosure \x7b run() \x7d \x7d".toList).success =
        true ∧
    ∀ p ∈ passesOf {} (Registry.ofSettings {})
        "let a = #WeakSelfClosure \x7b let b = #WeakSelfClosure \x7b run() \x7d \x7d".toList,
      p.found.Perm p.selection.taken ↔ p.selection.deferred = [] := by
  have hsuccess : (run {} (Registry.ofSettings {})
      "let a = #WeakSelfClosure \x7b let b = #WeakSelfClosure \x7b run() \x7d \x7d".toList).success =
        true := by
    decide +kernel
  obtain ⟨-, -, hpasses⟩ := run_mutations hsuccess
  exact ⟨hsuccess, fun p hp => (hpasses p hp).2⟩

/-- The first pass records two mutations and applies one; the site it defers is recorded again. -/
theorem run_mutates_deferred :
    let result := run {} (Registry.ofSettings {})
      "let a = #WeakSelfClosure \x7b let b = #WeakSelfClosure \x7b run() \x7d \x7d".toList
    result.success = true ∧
      (passPhases result.events).map (fun i => (mutationsIn result.events i).length) = [2, 1] ∧
      (passesOf {} (Registry.ofSettings {})
        "let a = #WeakSelfClosure \x7b let b = #WeakSelfClosure \x7b run() \x7d \x7d".toList).map
          (fun p => (p.selection.taken.length, p.selection.deferred.length)) = [(1, 1), (1, 0)] := by
  decide +kernel

end Expansion

end SwiftMacros
