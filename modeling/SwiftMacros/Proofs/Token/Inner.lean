import Mathlib
import SwiftMacros.Proofs.Token.Lexeme

/-! What stands inside a lexeme. Behind its first character a lexeme that has no delimiters holds
none, and no slash either, unless it is an operator. -/

namespace SwiftMacros.Token

/-- A character that neither belongs to a delimiter nor starts a comment. -/
def isInner (c : Char) : Bool := c != '"' && c != '#' && c != '`' && c != '/'

/-- The class takes inner characters only. -/
def Inner (f : Text → Option Nat) : Prop := ∀ t n, f t = some n → n ≤ runLength isInner t

section Runs

variable {p q : Char → Bool}

theorem runLength_imp (h : ∀ c, p c = true → q c = true) (t : Text) :
    runLength p t ≤ runLength q t := by
  induction t with
  | nil => simp
  | cons c t ih =>
    simp only [runLength_cons]
    split
    · rename_i hc
      rw [if_pos (h c hc)]
      omega
    · omega

/-- A run goes on with what is a run behind a part of it. -/
theorem runLength_add {t : Text} {n m : Nat} (hn : n ≤ runLength p t)
    (hm : m ≤ runLength p (t.drop n)) : n + m ≤ runLength p t := by
  induction n generalizing t with
  | zero => simpa using hm
  | succ n ih =>
    cases t with
    | nil => simp at hn
    | cons c t =>
      simp only [runLength_cons] at hn ⊢
      split at hn
      · rename_i hc
        have := ih (t := t) (by omega) hm
        rw [if_pos hc]
        omega
      · omega

/-- A character property that holds of inner characters only is told by a check. -/
theorem inner_of (h : ['"', '#', '`', '/'].all (fun c => !p c) = true) (c : Char)
    (hc : p c = true) : isInner c = true := by
  by_contra hn
  simp only [isInner, Bool.and_eq_true, bne_iff_ne, ne_eq, not_and_or, not_not] at hn
  simp only [List.all_cons, List.all_nil, Bool.and_true, Bool.and_eq_true, Bool.not_eq_true'] at h
  obtain ⟨h1, h2, h3, h4⟩ := h
  rcases hn with ((rfl | rfl) | rfl) | rfl <;> simp_all

end Runs

namespace Inner

variable {p q : Char → Bool} {f g : Text → Option Nat}

theorem or (hf : Inner f) (hg : Inner g) : Inner fun t => (f t).or (g t) := by
  intro t n h
  rcases Option.or_eq_some_iff.mp h with h | ⟨-, h⟩
  · exact hf t n h
  · exact hg t n h

theorem run (hp : ∀ c, p c = true → isInner c = true) : Inner (nonemptyRun? p) := by
  intro t n h
  rw [(nonemptyRun_eq_some h).1]
  exact runLength_imp hp t

/-- A first character, and what is taken behind it. -/
theorem lead {c : Char} {t : Text} {n : Nat} (hc : isInner c = true)
    (h : n ≤ runLength isInner t) : 1 + n ≤ runLength isInner (c :: t) := by
  simp only [runLength_cons, hc, if_true]
  omega

theorem digits : Inner digitsLength? := by
  intro t n h
  cases t with
  | nil => cases h
  | cons c t =>
    rw [digitsLength?_eq, Option.ite_none_right_eq_some, Option.some.injEq] at h
    obtain ⟨hc, rfl⟩ := h
    exact lead (inner_of (by decide) c hc) (runLength_imp (inner_of (by decide)) t)

theorem marked {m : Char} (hm : isInner m = true) (hp : ∀ c, p c = true → isInner c = true) :
    Inner (markedLength? m p) := by
  intro t n h
  simp only [markedLength?] at h
  split at h
  · rename_i c t
    simp only [Option.ite_none_right_eq_some, Option.some.injEq] at h
    obtain ⟨⟨rfl, -⟩, rfl⟩ := h
    have := lead (c := '0') (by decide) (lead hm (runLength_imp hp t))
    omega
  · cases h

theorem sign (t : Text) : signLength t ≤ runLength isInner t := by
  cases t with
  | nil => simp [signLength]
  | cons c t =>
    simp only [signLength]
    split
    · rename_i hc
      rcases hc with rfl | rfl <;> exact lead (by decide) (Nat.zero_le _)
    · omega

theorem exponent : Inner exponentLength? := by
  intro t n h
  cases t with
  | nil => cases h
  | cons c t =>
    simp only [exponentLength?, Option.ite_none_right_eq_some, Option.map_eq_some_iff] at h
    obtain ⟨hc, m, hm, rfl⟩ := h
    have hdigits := runLength_add (sign t) (digits _ _ hm)
    have := lead (c := c) (by rcases hc with rfl | rfl <;> decide) hdigits
    omega

theorem binaryExponent : Inner binaryExponentLength? := by
  intro t n h
  cases t with
  | nil => cases h
  | cons c t =>
    simp only [binaryExponentLength?, Option.ite_none_right_eq_some, Option.some.injEq] at h
    obtain ⟨hc, -, rfl⟩ := h
    have hdigits := runLength_add (sign t) (runLength_imp (p := fun d => d.isDigit || d == '_')
      (inner_of (by decide)) (t.drop (signLength t)))
    have := lead (c := c) (by rcases hc with rfl | rfl <;> decide) hdigits
    omega

theorem hexFraction (t : Text) : hexFractionLength t ≤ runLength isInner t := by
  simp only [hexFractionLength]
  split
  · rename_i t
    have := runLength_imp (p := isHexPart) (inner_of (by decide)) t
    split
    · omega
    · exact lead (by decide) (by omega)
  · omega

theorem hexFloat : Inner hexFloatLength? := by
  intro t n h
  simp only [hexFloatLength?, Option.bind_eq_bind, Option.bind_eq_some_iff] at h
  obtain ⟨w, hw, e, he, hn⟩ := h
  cases hn
  have hwhole := marked (m := 'x') (by decide) (inner_of (by decide)) _ _ hw
  exact runLength_add (runLength_add hwhole (hexFraction _)) (binaryExponent _ _ he)

theorem decimalFloat : Inner decimalFloatLength? := by
  intro t n h
  simp only [decimalFloatLength?, Option.bind_eq_bind, Option.bind_eq_some_iff] at h
  obtain ⟨w, hw, h⟩ := h
  have hwhole := digits _ _ hw
  split at h
  · rename_i r hr
    split at h
    · rename_i m hm
      cases h
      have hfraction : 1 + m ≤ runLength isInner (t.drop w) := by
        rw [hr]
        exact lead (by decide) (digits _ _ hm)
      have hmantissa := runLength_add hwhole hfraction
      cases he : exponentLength? (t.drop (w + 1 + m)) with
      | none => simpa [Nat.add_assoc] using hmantissa
      | some e =>
        rw [← Nat.add_assoc] at hmantissa
        exact runLength_add hmantissa (exponent _ _ he)
    · cases h
  · obtain ⟨e, he, rfl⟩ := Option.map_eq_some_iff.mp h
    exact runLength_add hwhole (exponent _ _ he)

theorem name : Inner nameLength? := by
  intro t n h
  cases t with
  | nil => cases h
  | cons c t =>
    rw [nameLength?_eq, Option.ite_none_right_eq_some, Option.some.injEq] at h
    obtain ⟨hc, rfl⟩ := h
    rw [Text.isNameStart, Bool.and_eq_true] at hc
    exact lead (inner_of (by decide) c hc.1) (runLength_imp (inner_of (by decide)) t)

theorem dollar : Inner dollarLength? := by
  intro t n h
  simp only [dollarLength?] at h
  split at h
  · obtain ⟨m, hm, rfl⟩ := Option.map_eq_some_iff.mp h
    exact lead (by decide) (run (p := Text.isWord) (inner_of (by decide)) _ _ hm)
  · cases h

theorem float : Inner floatLength? := hexFloat.or decimalFloat

theorem integer : Inner integerLength? :=
  .or (marked (by decide) (inner_of (by decide))) <|
  .or (marked (by decide) (inner_of (by decide))) <|
  .or (marked (by decide) (inner_of (by decide))) digits

end Inner

end SwiftMacros.Token
