import Mathlib
import SwiftMacros.Text.Blank
import SwiftMacros.Text.Basic

/-! What is left of line ends that are unified and restored. A text with the line end `\n` only stays
as it is when they are unified, and one with `\r\n` only comes back when they are restored; where both
stand in one text, each `\n` comes back as `\r\n`. What is made of parts without `\r` has none. -/

namespace SwiftMacros.Text

section Parts

variable {t : Text} {c : Char}

theorem not_mem_slice (h : c ∉ t) (a b : Nat) : c ∉ slice t a b :=
  fun hc => h (List.mem_of_mem_drop (List.mem_of_mem_take hc))

theorem not_mem_trimEnd (h : c ∉ t) : c ∉ trimEnd t := by
  simp only [trimEnd, dropWhileEnd, List.mem_reverse]
  exact fun hc => h (List.mem_reverse.mp ((List.dropWhile_sublist _).subset hc))

theorem not_mem_trim (h : c ∉ t) : c ∉ trim t :=
  not_mem_trimEnd fun hc => h ((List.dropWhile_sublist _).subset hc)

theorem not_mem_join {sep : Text} {ts : List Text} (hsep : c ∉ sep) (h : ∀ t ∈ ts, c ∉ t) :
    c ∉ join sep ts := by
  induction ts with
  | nil => simp [join]
  | cons t ts ih =>
    obtain ⟨ht, hts⟩ := List.forall_mem_cons.mp h
    cases ts with
    | nil => exact ht
    | cons u ts => simpa [join, ht, hsep] using ih hts

/-- A text without `\r` has the line end `\n` only. -/
theorem hasCrLf_of_not_mem (h : '\r' ∉ t) : hasCrLf t = false := by
  fun_induction hasCrLf t with
  | case1 t => simp at h
  | case2 c t _ ih => exact ih fun hc => h (List.mem_cons_of_mem c hc)
  | case3 => rfl

end Parts

/-- No line of the text ends with `\n` alone. -/
def EndsInCrLf (t : Text) : Prop := ∀ a b, t = a ++ '\n' :: b → a.getLast? = some '\r'

theorem unifyLineEnds_of_not_hasCrLf {t : Text} (h : hasCrLf t = false) : unifyLineEnds t = t := by
  fun_induction hasCrLf t with
  | case1 t => cases h
  | case2 c t hne ih => rw [unifyLineEnds, ih h]; exact hne
  | case3 => rfl

theorem endsInCrLf_crLf (t : Text) : EndsInCrLf ('\r' :: '\n' :: t) ↔ EndsInCrLf t := by
  refine ⟨fun h a b hab => ?_, fun h a b hab => ?_⟩
  · subst hab
    have hlast := h ('\r' :: '\n' :: a) b rfl
    cases a with
    | nil => cases hlast
    | cons c a => simpa using hlast
  · rcases a with - | ⟨c, - | ⟨d, a⟩⟩
    · cases hab
    · cases hab
      rfl
    · simp only [List.cons_append, List.cons.injEq] at hab
      obtain ⟨rfl, rfl, rfl⟩ := hab
      have hlast := h a b rfl
      cases a with
      | nil => cases hlast
      | cons e a => simpa using hlast

theorem endsInCrLf_cons {c : Char} {t : Text} (hc : c ≠ '\n') (ht : c = '\r' → t.head? ≠ some '\n') :
    EndsInCrLf (c :: t) ↔ EndsInCrLf t := by
  refine ⟨fun h a b hab => ?_, fun h a b hab => ?_⟩
  · subst hab
    have hlast := h (c :: a) b rfl
    cases a with
    | nil =>
      obtain rfl : c = '\r' := by simpa using hlast
      exact absurd rfl (ht rfl)
    | cons d a => simpa using hlast
  · cases a with
    | nil =>
      cases hab
      exact absurd rfl hc
    | cons d a =>
      simp only [List.cons_append, List.cons.injEq] at hab
      obtain ⟨rfl, rfl⟩ := hab
      have hlast := h a b rfl
      cases a with
      | nil => cases hlast
      | cons e a => simpa using hlast

/-- Unified line ends are restored to what they were if none of them was `\n` alone. -/
theorem restore_unifyLineEnds (t : Text) :
    restoreLineEnds (unifyLineEnds t) = t ↔ EndsInCrLf t := by
  fun_induction unifyLineEnds t with
  | case1 t ih =>
    rw [endsInCrLf_crLf, ← ih]
    simp [restoreLineEnds]
  | case2 c t hne ih =>
    by_cases hc : c = '\n'
    · subst hc
      refine ⟨fun h => by simp [restoreLineEnds] at h, fun h => ?_⟩
      cases h [] t rfl
    · rw [endsInCrLf_cons hc, ← ih]
      · simp [restoreLineEnds, hc]
      · rintro rfl hhead
        obtain ⟨u, rfl⟩ := List.head?_eq_some_iff.mp hhead
        exact hne u rfl rfl
  | case3 => simp [restoreLineEnds, EndsInCrLf]

/-- Restoring line ends is undone by unifying them. -/
theorem unify_restoreLineEnds (t : Text) : unifyLineEnds (restoreLineEnds t) = t := by
  induction t with
  | nil => rfl
  | cons c t ih =>
    by_cases hc : c = '\n'
    · subst hc
      change unifyLineEnds ('\r' :: '\n' :: restoreLineEnds t) = _
      rw [unifyLineEnds, ih]
    · have hhead : ∀ u, restoreLineEnds t ≠ '\n' :: u := by
        intro u hu
        cases t with
        | nil => cases hu
        | cons d t =>
          by_cases hd : d = '\n' <;> simp [restoreLineEnds, hd] at hu
      have hstep : restoreLineEnds (c :: t) = c :: restoreLineEnds t := by simp [restoreLineEnds, hc]
      rw [hstep, unifyLineEnds, ih]
      exact fun u _ hu => hhead u hu

/-- Line ends come back as they were where they are all of one sort. -/
theorem lineEnds_restored (t : Text) :
    (if hasCrLf t then restoreLineEnds (unifyLineEnds t) else unifyLineEnds t) = t ↔
      hasCrLf t = false ∨ EndsInCrLf t := by
  cases h : hasCrLf t with
  | true => simp [restore_unifyLineEnds]
  | false => simp [unifyLineEnds_of_not_hasCrLf h]

end SwiftMacros.Text
