import Mathlib
import SwiftMacros.Expansion.Run

/-! Traces as brackets. Whatever the marks are, each event names the innermost phase that is open
before it, and that phase is started before it. The marks of a run start with a phase that its last
mark ends, and in between each phase that is started is ended, from whichever pass and step the run
is left. -/

namespace SwiftMacros

namespace Trace

/-- The phases that are open behind the event with the index `i`, told by its type alone. -/
def Mark.phasesAfter (i : Nat) (phases : List Nat) : Mark → List Nat
  | .start _ _ => i :: phases
  | .stop => phases.tail
  | _ => phases

/-- The indices of the phases that are open behind events of which the first has the index `i`, the
innermost first, where `phases` are open before them. -/
def openFrom : Nat → List Nat → List Event → List Nat
  | _, phases, [] => phases
  | i, phases, e :: es => openFrom (i + 1) (e.mark.phasesAfter i phases) es

def openPhases (es : List Event) : List Nat := openFrom 0 [] es

/-- A sequence of brackets: each event, the end of a phase included, names the innermost phase that
is open before it, only the first one lies in no phase, and at the end no phase is open. -/
structure WellBracketed (es : List Event) : Prop where
  parent : ∀ (i : Nat) (e : Event), es[i]? = some e → e.parent = (openPhases (es.take i)).head?
  outermost : ∀ (i : Nat) (e : Event), es[i]? = some e → (e.parent = none ↔ i = 0)
  first : ∃ phase detail, es[0]? = some (Event.mk (.start phase detail) none)
  earlier : ∀ (i : Nat) (e : Event) (p : Nat), es[i]? = some e → e.parent = some p →
    p < i ∧ ∃ phase detail parent, es[p]? = some (Event.mk (.start phase detail) parent)
  ends : ∀ (i : Nat) (e : Event), es[i]? = some e → e.mark = .stop →
    ∃ p, e.parent = some p ∧ openPhases (es.take i) = p :: openPhases (es.take (i + 1))
  closed : openPhases es = []

section Events

variable {i : Nat} {phases : List Nat}

theorem openFrom_append (es fs : List Event) :
    openFrom i phases (es ++ fs) = openFrom (i + es.length) (openFrom i phases es) fs := by
  induction es generalizing i phases with
  | nil => rfl
  | cons e es ih =>
    rw [List.cons_append, openFrom, ih, openFrom, List.length_cons, Nat.add_assoc, Nat.add_comm 1]

theorem openPhases_take_succ {es : List Event} {k : Nat} {e : Event} (h : es[k]? = some e) :
    openPhases (es.take (k + 1)) = e.mark.phasesAfter k (openPhases (es.take k)) := by
  obtain ⟨hk, -⟩ := List.getElem?_eq_some_iff.mp h
  rw [List.take_add_one, h, openPhases, openFrom_append, List.length_take_of_le hk.le, Nat.zero_add]
  rfl

/-- Each mark leaves an event, unless it is an end and no phase is open. -/
theorem eventsFrom_cons (m : Mark) (ms : List Mark) : eventsFrom i phases (m :: ms) =
    if m = .stop ∧ phases = [] then eventsFrom i [] ms
    else ⟨m, phases.head?⟩ :: eventsFrom (i + 1) (m.phasesAfter i phases) ms := by
  cases m <;> cases phases <;> simp [eventsFrom, Mark.phasesAfter]

/-- The events of marks depend on what comes before only through the phases that are open. -/
theorem eventsFrom_append (ms ns : List Mark) : eventsFrom i phases (ms ++ ns) =
    eventsFrom i phases ms ++ eventsFrom (i + (eventsFrom i phases ms).length)
      (openFrom i phases (eventsFrom i phases ms)) ns := by
  induction ms generalizing i phases with
  | nil => rfl
  | cons m ms ih =>
    rw [List.cons_append, eventsFrom_cons, eventsFrom_cons]
    split
    next h => rw [ih, h.2]
    next =>
      rw [ih, List.cons_append, openFrom, List.length_cons, Nat.add_assoc, Nat.add_comm 1]

/-- Whatever the marks are, an event names the innermost phase that is open before it. -/
theorem eventsFrom_parent (ms : List Mark) {k : Nat} {e : Event}
    (h : (eventsFrom i phases ms)[k]? = some e) :
    e.parent = (openFrom i phases ((eventsFrom i phases ms).take k)).head? := by
  induction ms generalizing i phases k with
  | nil => simp [eventsFrom] at h
  | cons m ms ih =>
    rw [eventsFrom_cons] at h ⊢
    split at h
    next hstop => rw [if_pos hstop, hstop.2]; exact ih h
    next hstop =>
      rw [if_neg hstop]
      cases k with
      | zero => cases h; rfl
      | succ k => exact ih h

/-- A phase that is open behind events was open before them, or one of them starts it. -/
theorem mem_openFrom {es : List Event} {p : Nat} (h : p ∈ openFrom i phases es) :
    p ∈ phases ∨ i ≤ p ∧ ∃ phase detail parent,
      es[p - i]? = some ⟨.start phase detail, parent⟩ := by
  induction es generalizing i phases with
  | nil => exact .inl h
  | cons e es ih =>
    rcases ih h with hmem | ⟨hle, phase, detail, parent, he⟩
    · obtain ⟨m, parent⟩ := e
      cases m with
      | start phase detail =>
        rcases List.mem_cons.mp hmem with rfl | hmem
        · exact .inr ⟨Nat.le_refl _, phase, detail, parent, by simp⟩
        · exact .inl hmem
      | stop => exact .inl (List.mem_of_mem_tail hmem)
      | _ => exact .inl hmem
    · refine .inr ⟨by omega, phase, detail, parent, ?_⟩
      rwa [show p - i = p - (i + 1) + 1 by omega, List.getElem?_cons_succ]

theorem events_parent {ms : List Mark} {k : Nat} {e : Event} (h : (events ms)[k]? = some e) :
    e.parent = (openPhases ((events ms).take k)).head? :=
  eventsFrom_parent ms h

/-- What an event names is the start of a phase, and comes before it. -/
theorem events_earlier {ms : List Mark} {k p : Nat} {e : Event} (h : (events ms)[k]? = some e)
    (hp : e.parent = some p) :
    p < k ∧ ∃ phase detail parent, (events ms)[p]? = some ⟨.start phase detail, parent⟩ := by
  have hmem : p ∈ openPhases ((events ms).take k) :=
    List.mem_of_mem_head? ((events_parent h).symm.trans hp)
  rcases mem_openFrom hmem with hnil | ⟨-, phase, detail, parent, hstart⟩
  · cases hnil
  · rw [Nat.sub_zero, List.getElem?_take] at hstart
    split at hstart
    next hlt => exact ⟨hlt, phase, detail, parent, hstart⟩
    next => cases hstart

/-- The end of a phase closes the phase that it names. -/
theorem events_ends {ms : List Mark} {k : Nat} {e : Event} (h : (events ms)[k]? = some e)
    (hstop : e.mark = .stop) (hparent : e.parent ≠ none) :
    ∃ p, e.parent = some p ∧
      openPhases ((events ms).take k) = p :: openPhases ((events ms).take (k + 1)) := by
  obtain ⟨p, hp⟩ := Option.ne_none_iff_exists'.mp hparent
  obtain ⟨outer, houter⟩ := List.head?_eq_some_iff.mp ((events_parent h).symm.trans hp)
  refine ⟨p, hp, ?_⟩
  rw [openPhases_take_succ h, hstop, Mark.phasesAfter, houter, List.tail_cons]

end Events

section Depth

/-- How many phases are open behind marks if `n` are open before them, unless the marks end more
phases than that. -/
def depth : Nat → List Mark → Option Nat
  | n, [] => some n
  | n, .start _ _ :: ms => depth (n + 1) ms
  | 0, .stop :: _ => none
  | n + 1, .stop :: ms => depth n ms
  | n, _ :: ms => depth n ms

theorem depth_append (n : Nat) (ms ns : List Mark) :
    depth n (ms ++ ns) = (depth n ms).bind (depth · ns) := by
  fun_induction depth n ms <;> simp_all [depth]

/-- Marks that neither start nor end a phase. -/
def Mark.isPlain : Mark → Bool
  | .start _ _ | .stop => false
  | _ => true

theorem depth_plain {ms : List Mark} (h : ∀ m ∈ ms, m.isPlain = true) (n : Nat) :
    depth n ms = some n := by
  fun_induction depth n ms <;> simp_all [Mark.isPlain]

variable {i d : Nat} {inner : List Nat} {m : Mark} {ms : List Mark}

/-- A mark that ends none of the phases `outer` leaves an event, and they stay open behind it. -/
theorem eventsFrom_cons_of_depth (h : depth inner.length (m :: ms) = some d) (outer : List Nat) :
    m.phasesAfter i (inner ++ outer) = m.phasesAfter i inner ++ outer ∧
      depth (m.phasesAfter i inner).length ms = some d ∧
      eventsFrom i (inner ++ outer) (m :: ms) = ⟨m, (inner ++ outer).head?⟩ ::
        eventsFrom (i + 1) (m.phasesAfter i inner ++ outer) ms := by
  rw [eventsFrom_cons]
  cases m <;> cases inner <;> simp_all [depth, Mark.phasesAfter]

/-- Marks that end no phase but their own leave open what is open before them. -/
theorem suffix_openFrom (h : depth inner.length ms = some d) (outer : List Nat) (k : Nat) :
    outer <:+ openFrom i (inner ++ outer) ((eventsFrom i (inner ++ outer) ms).take k) := by
  induction ms generalizing i inner k with
  | nil => simp [eventsFrom, openFrom]
  | cons m ms ih =>
    obtain ⟨hphases, hdepth, hevents⟩ := eventsFrom_cons_of_depth (i := i) h outer
    rw [hevents]
    cases k with
    | zero => simp [openFrom]
    | succ k =>
      rw [List.take_succ_cons, openFrom, hphases]
      exact ih hdepth k

theorem length_openFrom (h : depth inner.length ms = some d) (outer : List Nat) :
    (openFrom i (inner ++ outer) (eventsFrom i (inner ++ outer) ms)).length =
      d + outer.length := by
  induction ms generalizing i inner with
  | nil =>
    cases h
    simp [eventsFrom, openFrom]
  | cons m ms ih =>
    obtain ⟨hphases, hdepth, hevents⟩ := eventsFrom_cons_of_depth (i := i) h outer
    rw [hevents, openFrom, hphases]
    exact ih hdepth

/-- Behind marks that start and end their own phases, those before them are open again. -/
theorem openFrom_of_depth (h : depth 0 ms = some 0) (outer : List Nat) :
    openFrom i outer (eventsFrom i outer ms) = outer := by
  have hnil : depth ([] : List Nat).length ms = some 0 := h
  have hsuffix := suffix_openFrom (i := i) hnil outer (eventsFrom i outer ms).length
  have hlength := length_openFrom (i := i) hnil outer
  rw [List.nil_append] at hsuffix hlength
  rw [List.take_length] at hsuffix
  exact (hsuffix.eq_of_length (by simpa using hlength.symm)).symm

/-- The events of marks between the start and the end of a phase. -/
theorem events_enclosed (h : depth 0 ms = some 0) (phase detail : Text) :
    events (.start phase detail :: ms ++ [.stop]) =
      ⟨.start phase detail, none⟩ :: (eventsFrom 1 [0] ms ++ [⟨.stop, some 0⟩]) := by
  rw [events, List.cons_append, eventsFrom_cons, if_neg (by simp)]
  simp only [Mark.phasesAfter]
  rw [eventsFrom_append, openFrom_of_depth h]
  rfl

/-- A phase around marks that start and end their own phases is open until its end. -/
theorem openPhases_enclosed (h : depth 0 ms = some 0) {phase detail : Text} {k : Nat} {e : Event}
    (he : (events (.start phase detail :: ms ++ [.stop]))[k]? = some e) (hk : k ≠ 0) :
    openPhases ((events (.start phase detail :: ms ++ [.stop])).take k) ≠ [] := by
  obtain ⟨k, rfl⟩ := Nat.exists_eq_succ_of_ne_zero hk
  obtain ⟨hlt, -⟩ := List.getElem?_eq_some_iff.mp he
  rw [events_enclosed h] at hlt ⊢
  have hle : k ≤ (eventsFrom 1 [0] ms).length := by
    rw [List.length_cons, List.length_append, List.length_singleton] at hlt
    omega
  have hsuffix : [0] <:+ openFrom 1 [0] ((eventsFrom 1 [0] ms).take k) :=
    suffix_openFrom (show depth ([] : List Nat).length ms = some 0 from h) [0] k
  rw [List.take_succ_cons, List.take_append_of_le_length hle]
  exact List.ne_nil_of_mem (hsuffix.mem List.mem_cons_self)

/-- Marks that start and end their own phases, between the start and the end of a phase. -/
theorem wellBracketed_events (h : depth 0 ms = some 0) (phase detail : Text) :
    WellBracketed (events (.start phase detail :: ms ++ [.stop])) := by
  have houtermost : ∀ k e, (events (.start phase detail :: ms ++ [.stop]))[k]? = some e →
      (e.parent = none ↔ k = 0) := by
    intro k e he
    rw [events_parent he, List.head?_eq_none_iff]
    refine ⟨fun hnil => ?_, fun hzero => by rw [hzero]; rfl⟩
    by_contra hk
    exact openPhases_enclosed h he hk hnil
  refine
    { parent := fun k e he => events_parent he
      outermost := houtermost
      first := ⟨phase, detail, by rw [events_enclosed h]; rfl⟩
      earlier := fun k e p he hp => events_earlier he hp
      ends := fun k e he hstop => events_ends he hstop fun hnone => ?_
      closed := ?_ }
  · obtain rfl := (houtermost k e he).mp hnone
    rw [events_enclosed h] at he
    cases he
    cases hstop
  · rw [events_enclosed h, openPhases, openFrom, openFrom_append]
    simp only [Mark.phasesAfter]
    rw [openFrom_of_depth h]
    rfl

end Depth

end Trace

namespace Expansion

open Trace

/-- The marks start a phase, and behind it they end only phases of their own, of which `n` are open. -/
def Opens (marks : List Mark) (n : Nat) : Prop :=
  ∃ phase detail ms, marks = .start phase detail :: ms ∧ depth 0 ms = some n

section Opens

variable {marks ms : List Mark} {n : Nat}

theorem Opens.append (h : Opens marks n) {k : Nat} (hms : depth n ms = some k) :
    Opens (marks ++ ms) k := by
  obtain ⟨phase, detail, own, rfl, hown⟩ := h
  exact ⟨phase, detail, own ++ ms, rfl, by rw [depth_append, hown]; exact hms⟩

theorem Opens.plain (h : Opens marks n) (hms : ∀ m ∈ ms, m.isPlain = true) :
    Opens (marks ++ ms) n := h.append (depth_plain hms n)

end Opens

theorem marks_plain (as : List Attempt) : ∀ m ∈ as.flatMap Attempt.marks, m.isPlain = true := by
  intro m hm
  obtain ⟨a, -, hm⟩ := List.mem_flatMap.mp hm
  unfold Attempt.marks at hm
  rcases List.mem_cons.mp hm with rfl | hm
  · rfl
  · rcases List.mem_append.mp hm with hm | hm
    · obtain ⟨w, -, rfl⟩ := List.mem_map.mp hm
      rfl
    · cases hr : a.production.result <;> rw [hr] at hm <;> cases List.mem_singleton.mp hm <;> rfl

theorem deferralMarks_plain (p : Pass) : ∀ m ∈ p.deferralMarks, m.isPlain = true := by
  intro m hm
  obtain ⟨x, -, rfl⟩ := List.mem_map.mp hm
  rfl

/-- A pass ends the phase that it is made in, unless it aborts the run. -/
theorem afterPass_opens (ctx : Context) (pass : Pass) {p : Progress} {n : Nat}
    (h : Opens p.marks (n + 1)) :
    match afterPass ctx pass p with
    | .aborted _ q => Opens q.marks (n + 1)
    | .again q | .done q => Opens q.marks n := by
  have hstop : depth (n + 1) [.stop] = some n := rfl
  have hended := ((h.plain (marks_plain pass.attempts)).plain (deferralMarks_plain pass)).append hstop
  unfold afterPass
  cases hfailure : (if ctx.settings.strict then Pass.untilFailure pass.attempts else none) with
  | some failure =>
    simp only
    exact h.plain (marks_plain failure.1)
  | none =>
    simp only
    cases pass.selection.deferred.isEmpty || pass.edits.isEmpty <;> exact hended

/-- Passes end their phases, but for one in which the run is stopped. -/
theorem passes_opens (ctx : Context) (r : Registry) (left n : Nat) {p : Progress}
    (h : Opens p.marks 0) :
    match passes ctx r n left p with
    | .completed q => Opens q.marks 0
    | .stopped _ q => Opens q.marks 1 := by
  induction left generalizing n p with
  | zero => exact h.plain (by simp [Mark.isPlain])
  | succ left ih =>
    have hstarted : Opens (p.marks ++ [.start (passName n) []]) 1 := h.append rfl
    unfold passes
    cases hc : Cursor.ofText p.code with
    | error e => exact hstarted
    | ok c =>
      dsimp only
      have hafter := afterPass_opens ctx (Pass.ofCursor ctx r c)
        (p := { p with marks := p.marks ++ [.start (passName n) []] }) hstarted
      cases hstep : afterPass ctx (Pass.ofCursor ctx r c)
        { p with marks := p.marks ++ [.start (passName n) []] } with
      | aborted d q =>
        rw [hstep] at hafter
        exact hafter.plain (by simp [Mark.isPlain])
      | again q =>
        rw [hstep] at hafter
        exact ih (n + 1) hafter
      | done q =>
        rw [hstep] at hafter
        exact hafter

/-- The trace of every run is a sequence of brackets, whatever its macros answer and however it ends.
-/
theorem run_wellBracketed (s : Settings) (r : Registry) (code : Text) (path : Option Text) :
    WellBracketed (run s r code path).events := by
  unfold run Result.events
  extract_lets start withPath
  have hpasses := passes_opens { settings := s, path } r s.maxPasses 1 (p := start) ⟨_, _, [], rfl, rfl⟩
  cases hended : passes { settings := s, path } r 1 s.maxPasses start with
  | completed q =>
    rw [hended] at hpasses
    obtain ⟨phase, detail, ms, hmarks, hms⟩ := hpasses
    simp only [hmarks]
    exact wellBracketed_events hms phase detail
  | stopped d q =>
    rw [hended] at hpasses
    have hended : Opens (q.marks ++ [.stop]) 0 := hpasses.append rfl
    obtain ⟨phase, detail, ms, hmarks, hms⟩ := hended
    simp only [show q.marks ++ [.stop, .stop] = q.marks ++ [.stop] ++ [.stop] by simp, hmarks]
    exact wellBracketed_events hms phase detail

end Expansion

end SwiftMacros
