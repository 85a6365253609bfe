import Mathlib
import SwiftMacros.Proofs.Grammar.Declaration

/-! What an attempt that fails leaves behind. It gives back all tokens that it has taken, but the
operators that were split on the way stay split. So it goes unnoticed exactly if none was. -/

namespace SwiftMacros.Parser

variable {α : Type} {p : Parser α} {c c₁ : Cursor} {Q : α → Cursor → Prop}

theorem rewind_inner (c : Cursor) (n : Nat) : (c.rewind n).tokens = c.tokens := by
  have := Cursor.inner_rewind c n
  unfold Cursor.inner at this
  unfold Cursor.tokens
  rw [this]
  rfl

/-- A failing attempt answers with nothing, at the token where it started and with the tokens before
it as they were. The tokens ahead are the same ones, but for operators that stand in pieces; they are
what they were, and the attempt has changed nothing, exactly if the failing parse split none. -/
theorem attempt_of_error (hp : Spec p c Q) {e : SyntaxError} (he : p c = .error e c₁) :
    ∃ c', attempt p c = .ok none c' ∧ c'.source = c.source ∧ c'.eof = c.eof ∧
      c'.behind = c.behind ∧ Token.Refines c.ahead c'.ahead ∧
      (c' = c ↔ c₁.tokens.length = c.tokens.length) := by
  obtain ⟨hleads, hbehind⟩ := (hp.error he).rewind
  have hattempt : attempt p c = .ok none (c₁.rewind c.position) := by
    unfold attempt
    rw [he]
  have hrefines : Token.Refines c.ahead (c₁.rewind c.position).ahead := by
    have := hleads.refines
    rw [Cursor.inner, Cursor.inner, hbehind] at this
    exact this.of_append _
  refine ⟨_, hattempt, hleads.source, hleads.eof, hbehind, hrefines, ?_⟩
  have htokens := congrArg List.length (rewind_inner c₁ c.position)
  constructor
  · intro heq
    rw [← htokens, heq]
  · intro hlen
    rw [← htokens, Cursor.tokens, Cursor.tokens, hbehind] at hlen
    have hahead := hrefines.eq_of_length (by simpa using hlen)
    have hsource := hleads.source
    have heof := hleads.eof
    revert hbehind hahead hsource heof
    generalize c₁.rewind c.position = c'
    intro hbehind hahead hsource heof
    cases c
    cases c'
    rw [Cursor.mk.injEq]
    exact ⟨hsource, hbehind, hahead, heof⟩

theorem type_spec (hs : c.Sound) : Spec type c fun _ _ => True :=
  withGrammar_spec fun _ hg => (Grammar.typeRule_spec hg hs).lead

/-- The cursors before and after the attempt to read a type at the start of a text, if it fails. -/
def failedType (t : Text) : Option (Cursor × Cursor) :=
  match Cursor.ofText t with
  | .error _ => none
  | .ok c => match attempt type c with
    | .ok none c' => some (c, c')
    | _ => none

/-- A failing attempt to read a type in `(A<B>=` splits the last operator. -/
theorem failedType_comparison : ∃ c c', Cursor.ofText "(A<B>=".toList = .ok c ∧
    attempt type c = .ok none c' ∧ (c.peek 4).text = ">=".toList ∧ (c'.peek 4).text = ">".toList := by
  have hfailed : (failedType "(A<B>=".toList).map (fun p => ((p.1.peek 4).text, (p.2.peek 4).text)) =
      some (">=".toList, ">".toList) := by
    decide +kernel
  unfold failedType at hfailed
  split at hfailed
  · cases hfailed
  · rename_i c hc
    split at hfailed
    · rename_i c' hc'
      rw [Option.map_some, Option.some.injEq, Prod.mk.injEq] at hfailed
      exact ⟨c, c', hc, hc', hfailed⟩
    · cases hfailed

/-- The attempt gives back the tokens that it took. -/
theorem attempt_of_error_comparison : ∃ c, Cursor.ofText "(A<B>=".toList = .ok c ∧
    ∃ c', attempt type c = .ok none c' ∧ c'.behind = c.behind ∧ Token.Refines c.ahead c'.ahead := by
  obtain ⟨c, c', hc, hattempt, -⟩ := failedType_comparison
  cases he : type c with
  | ok T c₁ =>
    unfold attempt at hattempt
    rw [he] at hattempt
    cases hattempt
  | error e c₁ =>
    obtain ⟨c₂, h₂, -, -, hbehind, hrefines, -⟩ :=
      attempt_of_error (type_spec (Cursor.sound_ofText hc).1) he
    exact ⟨c, hc, c₂, h₂, hbehind, hrefines⟩

/-- It does not give back the operator that it split: a later parse does not find it, and a call
whose first argument compares without spaces cannot be read. -/
theorem attempt_changes : (∃ c c', Cursor.ofText "(A<B>=".toList = .ok c ∧
    attempt type c = .ok none c' ∧ c' ≠ c ∧ (c.peek 4).text ≠ (c'.peek 4).text) ∧
    (runOn expression "f(a < b, c >= d)".toList).toOption.isSome = true ∧
    (runOn expression "f(a<b, c >= d)".toList).toOption.isNone = true := by
  refine ⟨?_, by decide +kernel, by decide +kernel⟩
  obtain ⟨c, c', hc, hattempt, hbefore, hafter⟩ := failedType_comparison
  have hne : (c.peek 4).text ≠ (c'.peek 4).text := by
    rw [hbefore, hafter]
    decide
  refine ⟨c, c', hc, hattempt, ?_, hne⟩
  rintro rfl
  exact hne rfl

end SwiftMacros.Parser
