import Mathlib
import SwiftMacros.Command.Expand
import SwiftMacros.Proofs.Console
import SwiftMacros.Proofs.Token.Faults

/-! What is told of errors. In each text the first bracket opens, if there is one, so that it can stand
behind a path that is shown as it is. -/

namespace SwiftMacros

open Text (isBracket Calm)

namespace Text

/-- No bracket is in a text. -/
def Bare (t : Text) : Prop := ∀ c ∈ t, isBracket c = false

instance (t : Text) : Decidable (Bare t) := List.decidableBAll _ t

theorem Bare.append {t u : Text} (ht : Bare t) (hu : Bare u) : Bare (t ++ u) :=
  List.forall_mem_append.mpr ⟨ht, hu⟩

theorem Plain.bare {t : Text} (h : Plain t) : Bare t := fun c hc => (h c hc).1

theorem bare_hexDigit (n : Nat) (h : n < 16) : isBracket (hexDigit n) = false := by
  revert n
  decide

theorem bare_hexDigits (width n : Nat) : Bare (hexDigits width n) := by
  induction width generalizing n with
  | zero => exact fun c hc => by cases hc
  | succ width ih =>
    refine (ih (n / 16)).append fun c hc => ?_
    rw [List.mem_singleton.mp hc]
    exact bare_hexDigit _ (Nat.mod_lt n (by decide))

/-- A character is quoted without a bracket unless it is one. -/
theorem bare_quoted {c : Char} (hc : isBracket c = false) : Bare (quoted [c]) := by
  have hquote : isBracket (quoteFor [c]) = false := by
    rw [quoteFor]
    split <;> decide
  have hchar : Bare (quotedChar (quoteFor [c]) c) := by
    unfold quotedChar
    split
    · exact List.forall_mem_cons.mpr ⟨by decide, List.forall_mem_cons.mpr ⟨hc, by simp⟩⟩
    · split
      · decide
      · split
        · decide
        · split
          · decide
          · split
            · exact List.forall_mem_cons.mpr ⟨hc, by simp⟩
            · unfold hexEscape
              dsimp only
              have hescape : ∀ d : Char, isBracket d = false → ∀ width n,
                  Bare ('\\' :: d :: hexDigits width n) := fun d hd width n =>
                List.forall_mem_cons.mpr ⟨by decide, List.forall_mem_cons.mpr ⟨hd, bare_hexDigits _ _⟩⟩
              split
              · exact hescape 'x' (by decide) _ _
              · split
                · exact hescape 'u' (by decide) _ _
                · exact hescape 'U' (by decide) _ _
  rw [quoted, List.flatMap_cons, List.flatMap_nil, List.append_nil]
  exact List.forall_mem_cons.mpr ⟨hquote, hchar.append (List.forall_mem_cons.mpr ⟨hquote, by simp⟩)⟩

end Text

open Text (Bare)

theorem FileError.calm_message (e : FileError) : Calm e.message := by
  obtain ⟨t, ht⟩ : ∃ t, e.message = '[' :: t := ⟨_, rfl⟩
  rw [ht]
  exact fun h => by cases h

theorem Text.Utf8.DecodeError.bare_message (e : Text.Utf8.DecodeError) : Bare e.message := by
  have hdefect : ∀ d : Defect, Bare d.message.toList := fun d => by cases d <;> decide +kernel
  unfold message
  refine ((Bare.append (by decide) ?_).append (by decide)).append (hdefect _)
  split
  · exact ((Bare.append (by decide) (bare_hexDigits _ _)).append (by decide)).append
      (Text.plain_ofNat _).bare
  · exact (Bare.append (by decide) (Text.plain_ofNat _).bare).append
      (List.forall_mem_cons.mpr ⟨by decide, (Text.plain_ofNat _).bare⟩)

namespace Token

/-- A bracket starts a lexeme. -/
theorem isBracket_of_simpleLexeme_eq_none {c : Char} {t : Text} (h : simpleLexeme? (c :: t) = none) :
    isBracket c = false := by
  by_contra hc
  rw [Bool.not_eq_false, isBracket, Bool.or_eq_true, beq_iff_eq, beq_iff_eq] at hc
  rw [simpleLexeme?, List.findSome?_eq_none_iff] at h
  have hsymbol := h (.symbol, charLength? isSymbolChar) (by simp [classes])
  have hlength : charLength? isSymbolChar (c :: t) = some 1 := by
    rcases hc with rfl | rfl <;> rfl
  simp [hlength] at hsymbol

/-- Lexical errors are told without a bracket. -/
theorem bare_message {s : Text} {e : SyntaxError} (h : tokenize s = .error e) : Bare e.message := by
  obtain ⟨us, p, u, f, hlexes, hu, hf, rfl⟩ := (tokensFrom_lexes {} s).2 e h
  obtain ⟨hexact, rfl, -⟩ := hlexes.located (.start s) rfl
  have hlt : p.offset < s.length := by
    by_contra hge
    exact hu (List.drop_eq_nil_iff.mpr (by omega))
  have hfault : Bare f.fault.message := by
    have hat := faultAt_of_lexeme hlt hf
    generalize p.offset + f.offset = o at hat
    generalize f.fault = fault at hat ⊢
    cases hat with
    | character c hhead _ _ hsimple =>
      obtain ⟨t, ht⟩ := List.head?_eq_some_iff.mp hhead
      rw [ht] at hsimple
      exact Bare.append (by decide) (Text.bare_quoted (isBracket_of_simpleLexeme_eq_none hsimple))
    | comment | string | interpolation => decide
  rw [SyntaxError.message]
  split
  · exact hfault
  · exact (((hfault.append (by decide)).append (Text.plain_ofNat _).bare).append (by decide)).append
      (Text.plain_ofNat _).bare |>.append (by decide)

end Token

end SwiftMacros
