import Mathlib
import SwiftMacros.Text.Blank
import SwiftMacros.Token.Lexeme

/-! The characters at which a lexeme ends. A character that belongs to no name, number or operator
goes on with no lexeme, unless that is enclosed in delimiters. The marks of types and a point that
starts no fraction go on with an operator at most. -/

namespace SwiftMacros.Token

/-- A character that no lexeme goes on with, unless it is enclosed in delimiters. -/
def isStop (c : Char) : Bool := !Text.isWord c && !isOperatorChar c && c != '.'

/-- The marks that can be split off an operator. -/
def isMarkChar (c : Char) : Bool := c == '?' || c == '!' || c == '<' || c == '>'

/-- A stop, a mark or a point. -/
def isEnd (c : Char) : Bool := isStop c || isMarkChar c || c == '.'

theorem isStop_iff {c : Char} :
    isStop c = true ↔ Text.isWord c = false ∧ isOperatorChar c = false ∧ c ≠ '.' := by
  simp [isStop, and_assoc]

theorem isOperatorChar_of_isStop {c : Char} (h : isStop c = true) : isOperatorChar c = false :=
  (isStop_iff.mp h).2.1

theorem isEnd_of_isStop {c : Char} (h : isStop c = true) : isEnd c = true := by
  simp [isEnd, h]

section Blanks

/-- The white space characters of Unicode. -/
def blankChars : List Char :=
  ([9, 10, 11, 12, 13, 28, 29, 30, 31, 32, 0x85, 0xA0, 0x1680, 0x2000, 0x2001, 0x2002, 0x2003,
    0x2004, 0x2005, 0x2006, 0x2007, 0x2008, 0x2009, 0x200A, 0x2028, 0x2029, 0x202F, 0x205F,
    0x3000] : List Nat).map Char.ofNat

theorem mem_blankChars {c : Char} (h : Text.isBlank c = true) : c ∈ blankChars := by
  have hc : c = Char.ofNat c.toNat := (Char.ofNat_toNat c).symm
  rw [hc]
  apply List.mem_map_of_mem
  simp only [Text.isBlank, Bool.or_eq_true, Bool.and_eq_true, decide_eq_true_eq, beq_iff_eq,
    or_assoc] at h
  generalize c.toNat = n at h
  -- three of the cases are ranges, the others single code points
  rcases h with h | h | h | h | h | h | h | h | h | h | h
  case inl | inr.inl | inr.inr.inr.inr.inr.inl =>
    obtain ⟨hl, hu⟩ := h
    interval_cases n <;> simp
  all_goals
    subst h
    simp

/-- What a check of the finitely many characters shows holds of each. -/
theorem of_isBlank {p : Char → Bool} (hp : blankChars.all p = true) {c : Char}
    (h : Text.isBlank c = true) : p c = true :=
  List.all_eq_true.mp hp c (mem_blankChars h)

theorem isStop_of_isBlank {c : Char} (h : Text.isBlank c = true) : isStop c = true :=
  of_isBlank (by decide +kernel) h

end Blanks

section Words

/-- The letters and digits of ASCII are word characters. -/
theorem isWord_of_isAlphanum {c : Char} (h : c.isAlphanum = true) : Text.isWord c = true := by
  have hascii : c.toNat < 128 := by
    simp only [Char.isAlphanum, Char.isAlpha, Char.isUpper, Char.isLower, Char.isDigit,
      Bool.or_eq_true, Bool.and_eq_true, decide_eq_true_eq, ge_iff_le, UInt32.le_iff_toNat_le] at h
    simp only [Char.toNat]
    rcases h with (⟨-, h⟩ | ⟨-, h⟩) | ⟨-, h⟩ <;> exact h.trans_lt (by decide)
  simp only [Char.isAlphanum, Bool.or_eq_true] at h
  simp only [Text.isWord, Text.isLetter, Text.isDecimal, hascii, if_true, Bool.or_eq_true]
  tauto

theorem isWord_of_isDigitPart {c : Char} (h : Text.isDigitPart c = true) :
    Text.isWord c = true := by
  simp only [Text.isDigitPart, Bool.or_eq_true] at h
  simp only [Text.isWord, Bool.or_eq_true]
  tauto

theorem isWord_of_isHexPart {c : Char} (h : isHexPart c = true) : Text.isWord c = true := by
  simp only [isHexPart, Bool.or_eq_true, Bool.and_eq_true, decide_eq_true_eq, beq_iff_eq,
    Char.le_def, UInt32.le_iff_toNat_le] at h
  rcases h with ((h | ⟨hl, hu⟩) | ⟨hl, hu⟩) | rfl
  · exact isWord_of_isAlphanum (by simp [Char.isAlphanum, h])
  · have hlower : c.isLower = true := by
      simpa [Char.isLower, UInt32.le_iff_toNat_le] using ⟨hl, hu.trans (by decide)⟩
    exact isWord_of_isAlphanum (by simp [Char.isAlphanum, Char.isAlpha, hlower])
  · have hupper : c.isUpper = true := by
      simpa [Char.isUpper, UInt32.le_iff_toNat_le] using ⟨hl, hu.trans (by decide)⟩
    exact isWord_of_isAlphanum (by simp [Char.isAlphanum, Char.isAlpha, hupper])
  · decide

theorem isWord_of_exponentDigit {c : Char} (h : (c.isDigit || c == '_') = true) :
    Text.isWord c = true := by
  refine isWord_of_isHexPart ?_
  simp only [Bool.or_eq_true] at h
  simp only [isHexPart, Bool.or_eq_true]
  tauto

theorem isWord_of_isBinaryPart {c : Char} (h : isBinaryPart c = true) : Text.isWord c = true := by
  simp only [isBinaryPart, Bool.or_eq_true, beq_iff_eq] at h
  rcases h with (rfl | rfl) | rfl <;> decide

theorem isWord_of_isOctalPart {c : Char} (h : isOctalPart c = true) : Text.isWord c = true := by
  refine isWord_of_isHexPart ?_
  simp only [isOctalPart, Bool.or_eq_true, Bool.and_eq_true, decide_eq_true_eq, Char.le_def,
    UInt32.le_iff_toNat_le] at h
  simp only [isHexPart, Char.isDigit, Bool.or_eq_true, Bool.and_eq_true, decide_eq_true_eq,
    ge_iff_le, UInt32.le_iff_toNat_le]
  rcases h with ⟨hl, hu⟩ | h
  · exact .inl (.inl (.inl ⟨hl, hu.trans (by decide)⟩))
  · exact .inr h

end Words

/-- A character property that no end of a lexeme has. -/
def Ends (p : Char → Bool) : Prop := ∀ c, isEnd c = true → p c = false

/-- Word characters, and operator characters that are no marks, are no ends. -/
theorem ends_of {p : Char → Bool} (hp : ∀ c, p c = true →
    Text.isWord c = true ∨ isOperatorChar c = true ∧ isMarkChar c = false) : Ends p := by
  intro c hc
  by_contra hpc
  have hone := hp c (by simpa using hpc)
  simp only [isEnd, Bool.or_eq_true, beq_iff_eq] at hc
  rcases hc with (hstop | hmark) | rfl
  · have hnone := isStop_iff.mp hstop
    simp [hnone.1, hnone.2.1] at hone
  · simp only [hmark, Bool.true_eq_false, and_false, or_false] at hone
    simp only [isMarkChar, Bool.or_eq_true, beq_iff_eq] at hmark
    rcases hmark with ((rfl | rfl) | rfl) | rfl <;> revert hone <;> decide
  · revert hone
    decide

theorem ends_isWord : Ends Text.isWord := ends_of fun _ h => .inl h

theorem ends_isDigitPart : Ends Text.isDigitPart := ends_of fun _ h => .inl (isWord_of_isDigitPart h)

theorem ends_isDecimal : Ends Text.isDecimal :=
  ends_of fun c h => .inl (isWord_of_isDigitPart (by simp [Text.isDigitPart, h]))

theorem ends_isHexPart : Ends isHexPart := ends_of fun _ h => .inl (isWord_of_isHexPart h)

theorem ends_exponentDigit : Ends fun d => d.isDigit || d == '_' :=
  ends_of fun _ h => .inl (isWord_of_exponentDigit h)

theorem ends_isBinaryPart : Ends isBinaryPart := ends_of fun _ h => .inl (isWord_of_isBinaryPart h)

theorem ends_isOctalPart : Ends isOctalPart := ends_of fun _ h => .inl (isWord_of_isOctalPart h)

/-- The characters that mark a part of a number, a name or an operator are no stops. -/
theorem not_mark_of_isStop {c : Char} (h : isStop c = true) :
    c ∉ ("+-eEpPxob.<>?!_*/".toList ++ ['0', '1']) := by
  have hall : ("+-eEpPxob.<>?!_*/".toList ++ ['0', '1']).all (fun c => !isStop c) = true := by
    decide
  intro hmem
  have := List.all_eq_true.mp hall c hmem
  simp [h] at this

end SwiftMacros.Token
