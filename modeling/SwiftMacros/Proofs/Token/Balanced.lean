import Mathlib
import SwiftMacros.Proofs.Token.Twins
import SwiftMacros.Proofs.Grammar.Relaid

/-! Tokens with their brackets in pairs. What stands in brackets tells which closing marks are to come, so
that a part that leaves as many to come as before has its own brackets in pairs. -/

namespace SwiftMacros.Token

variable {S : Setting} {x e : Token} {ts us us' vs xs ys ds es : List Token} {ss : List Text} {depth : Int}

/-- Tokens that are the same to a parser, with their brackets in pairs up to the last in common. -/
theorem Twins.of_nested (h : nested ss us = true) (hus : us.Forall₂ (Twin S) us') (hlast : Twin S S.last S.last') :
    Twins S ss (us ++ S.last :: S.rest) (us' ++ S.last' :: S.rest') := by
  induction hus generalizing ss with
  | nil =>
    obtain rfl : ss = [] := by simpa [nested] using h
    exact .last hlast
  | @cons u u' us us' hu _ ih =>
    simp only [nested] at h
    split_ifs at h with ho hc
    · exact .opening hu ho (ih h)
    · cases ss with
      | nil => cases h
      | cons s ss =>
        simp only [Bool.and_eq_true, beq_iff_eq] at h
        exact h.1 ▸ .closing hu hc (ih h.2)
    · exact .plain hu (by simpa using ho) (by simpa using hc) (ih h)

/-- Where all tokens are different, each has its place. -/
theorem split_unique {us' vs' : List Token} (h : (us ++ x :: vs).Nodup) (heq : us ++ x :: vs = us' ++ x :: vs') :
    us = us' ∧ vs = vs' := by
  have hus : x ∉ us := fun hx => (List.nodup_append.mp h).2.2 x hx x (by simp) rfl
  have hvs : x ∉ vs := (List.nodup_cons.mp (List.nodup_append.mp h).2.1).1
  obtain ⟨hfront, -, hback⟩ := (List.append_cons_inj_of_notMem hus hvs).mp heq
  exact ⟨hfront, hback⟩

namespace Refines

/-- A token that is no operator stands in both lists, between what refines the same. -/
theorem split_at (h : Refines ts (us ++ x :: vs)) (hx : x.kind ≠ .operator) :
    ∃ ts₁ ts₂, ts = ts₁ ++ x :: ts₂ ∧ Refines ts₁ us ∧ Refines ts₂ vs := by
  generalize hl : us ++ x :: vs = l at h
  induction h generalizing us with
  | nil => simp at hl
  | @keep t ts l h ih =>
    cases us with
    | nil =>
      obtain ⟨rfl, rfl⟩ := List.cons.inj hl
      exact ⟨[], ts, rfl, .nil, h⟩
    | cons u us =>
      obtain ⟨rfl, rfl⟩ := List.cons.inj hl
      obtain ⟨ts₁, ts₂, rfl, h₁, h₂⟩ := ih rfl
      exact ⟨_ :: ts₁, ts₂, rfl, .keep _ h₁, h₂⟩
  | @split t ts l hk hlen h ih =>
    cases us with
    | nil =>
      obtain ⟨rfl, -⟩ := List.cons.inj hl
      exact absurd hk hx
    | cons u us =>
      obtain ⟨rfl, rfl⟩ := List.cons.inj hl
      obtain ⟨ts₁, ts₂, hts, h₁, h₂⟩ := ih rfl
      cases ts₁ with
      | nil =>
        obtain ⟨rfl, -⟩ := List.cons.inj hts
        exact absurd hk hx
      | cons t' ts₁ =>
        obtain ⟨rfl, rfl⟩ := List.cons.inj hts
        exact ⟨t :: ts₁, ts₂, rfl, .split hk hlen h₁, h₂⟩

end Refines

theorem depth_of_operator {t : Token} (h : t.kind = .operator) (depth : Int) : t.word.depth depth = depth := by
  simp [Word.depth, Word.isSymbolIn, word, h]

/-- Splitting operators makes no semicolon. -/
theorem dropSeparators_refines (h : Refines ts us) (hplain : dropSeparators depth ts = ts) :
    dropSeparators depth us = us := by
  induction h generalizing depth with
  | nil => rfl
  | @keep t ts us h ih =>
    rw [dropSeparators] at hplain ⊢
    split at hplain
    · have := (dropSeparators_sublist depth ts).length_le
      rw [hplain, List.length_cons] at this
      omega
    · rw [if_neg ‹_›, ih (List.cons.inj hplain).2]
  | @split t ts us hk hlen h ih =>
    have hsemicolon : ∀ u : Token, u.kind = .operator → ¬ (depth = 0 ∧ u.isSymbol ";" = true) := fun u hu h => by
      simp [isSymbol, has, hu] at h
    have hback : dropSeparators depth (t.back :: ts) = t.back :: ts := by
      rw [dropSeparators, if_neg (hsemicolon _ hk), depth_of_operator hk] at hplain
      rw [dropSeparators, if_neg (hsemicolon t.back hk), depth_of_operator (t := t.back) hk, (List.cons.inj hplain).2]
    rw [dropSeparators, if_neg (hsemicolon t.front hk), depth_of_operator (t := t.front) hk, ih hback]

namespace Fenced

/-- The closing marks that are to come are those of the tokens. -/
theorem sublist (h : Fenced es ts) : es.Sublist ts := by
  induction h with
  | done => exact List.nil_sublist _
  | plain _ _ _ _ ih => exact ih.cons _
  | opening _ _ _ _ ih => exact ((List.sublist_cons_self _ _).trans ih).cons _
  | closing _ _ ih => exact ih.cons_cons _

/-- Which closing marks are to come is told by the tokens. -/
theorem total (h : Fenced xs ts) (h' : Fenced ys ts) : xs <+: ys ∨ ys <+: xs := by
  induction ts generalizing xs ys with
  | nil =>
    cases h
    exact .inl (List.nil_prefix)
  | cons t ts ih =>
    cases xs with
    | nil => exact .inl List.nil_prefix
    | cons x xs =>
      cases ys with
      | nil => exact .inr List.nil_prefix
      | cons y ys =>
        by_cases ho : t.isOpener = true
        · obtain ⟨f, -, -, hf⟩ := h.of_opener ho
          obtain ⟨f', -, -, hf'⟩ := h'.of_opener ho
          exact (ih hf hf').imp (fun h => (List.cons_prefix_cons.mp h).2) fun h => (List.cons_prefix_cons.mp h).2
        · by_cases hc : t.isCloser = true
          · obtain ⟨rfl, hxs⟩ := h.of_closer hc
            obtain ⟨rfl, hys⟩ := h'.of_closer hc
            exact (ih hxs hys).imp (fun h => List.cons_prefix_cons.mpr ⟨rfl, h⟩) fun h =>
              List.cons_prefix_cons.mpr ⟨rfl, h⟩
          · simp only [Bool.not_eq_true] at ho hc
            exact ih (h.of_plain ho hc).2 (h'.of_plain ho hc).2

/-- In front of tokens with the same mark to come, brackets are in pairs. -/
theorem nested_front (h : Fenced (ds ++ [e]) (us ++ ts)) (h' : Fenced [e] ts') (hr : Refines ts ts')
    (hnodup : (us ++ ts).Nodup) (he : e ∉ us) : nested (ds.map text) us = true := by
  induction us generalizing ds with
  | nil =>
    obtain rfl : ds = [] := by
      rcases (h.refines hr).total h' with hle | hle
      · have := hle.length_le
        simp only [List.length_append, List.length_singleton] at this
        exact List.length_eq_zero_iff.mp (by omega)
      · cases ds with
        | nil => rfl
        | cons d ds =>
          -- the mark would be to come twice
          obtain ⟨rfl, -⟩ := List.cons_prefix_cons.mp hle
          have := hnodup.sublist h.sublist
          simp at this
    rfl
  | cons u us ih =>
    obtain ⟨hu, he⟩ := not_or.mp (List.mem_cons.not.mp he)
    have hnext : ∀ {ds}, Fenced (ds ++ [e]) (us ++ ts) → nested (ds.map text) us = true := fun h =>
      ih h (List.nodup_cons.mp hnodup).2 he
    rw [List.cons_append] at h
    obtain ⟨d, ds', hd⟩ := List.exists_cons_of_ne_nil (l := ds ++ [e]) (by simp)
    rw [hd] at h
    simp only [nested]
    split_ifs with ho hc
    · obtain ⟨f, -, hf, h⟩ := h.of_opener ho
      rw [← hf]
      exact hnext (show Fenced (f :: ds ++ [e]) _ by rwa [List.cons_append, hd])
    · obtain ⟨rfl, hrest⟩ := h.of_closer hc
      cases ds with
      | nil => exact absurd (List.cons.inj hd).1 hu
      | cons d ds =>
        obtain ⟨rfl, rfl⟩ := List.cons.inj hd
        simp [hnext hrest]
    · obtain ⟨-, h⟩ := h.of_plain (by simpa using ho) (by simpa using hc)
      exact hnext (hd ▸ h)

end Fenced

end SwiftMacros.Token
