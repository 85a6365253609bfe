import Mathlib
import SwiftMacros.Proofs.Token.Balanced

/-! Tokens up to the end of a block. Behind a token that is to have a block, there can be other tokens and
other brackets, each with its own closing mark, and then the block: the first brace outside of all brackets,
up to the mark that closes it. Where such a segment ends is told by the tokens alone. -/

namespace SwiftMacros.Token

/-- The closing marks that are to come behind a token. -/
def pending (es : List Text) (t : Token) : List Text :=
  if t.isOpener then t.closing :: es else if t.isCloser then es.tail else es

/-- Of each token that stands outside of all brackets, and of those behind it, `P` holds; the marks `es` are
still to come. -/
def Level (P : Token → List Token → Prop) : List Text → List Token → Prop
  | _, [] => True
  | es, t :: ts => (es = [] → P t ts) ∧ Level P (pending es t) ts

/-- Whether the tokens end with the first block outside of all brackets. The marks `es` are still to come,
and `b` tells that the last of them closes the block. -/
def segment : List Text → Bool → List Token → Bool
  | _, _, [] => false
  | es, b, t :: ts =>
    if t.isOpener then segment (t.closing :: es) (if es.isEmpty then t.isSymbol "\x7b" else b) ts
    else if t.isCloser then
      match es with
      | [] => false
      | e :: es => t.text == e && if es.isEmpty && b then ts.isEmpty else segment es b ts
    else segment es b ts

variable {t x o e : Token} {ts us vs ws W R Y xs ys s : List Token} {es ds ks : List Text} {c : Text} {b b' : Bool}
  {P Q : Token → List Token → Prop}

section Steps

theorem pending_opener (h : t.isOpener = true) : pending es t = t.closing :: es := if_pos h

theorem pending_closer (h : t.isCloser = true) : pending es t = es.tail := by
  rw [pending, if_neg (by simp [isOpener_of_isCloser h]), if_pos h]

theorem pending_plain (ho : t.isOpener = false) (hc : t.isCloser = false) : pending es t = es := by
  simp [pending, ho, hc]

theorem nested_opener (h : t.isOpener = true) : nested es (t :: ts) = nested (t.closing :: es) ts := by
  simp [nested, h]

theorem nested_closer (h : t.isCloser = true) : nested (c :: es) (t :: ts) = (t.text == c && nested es ts) := by
  simp [nested, isOpener_of_isCloser h, h]

theorem nested_closer_nil (h : t.isCloser = true) : nested [] (t :: ts) = false := by
  simp [nested, isOpener_of_isCloser h, h]

theorem nested_plain (ho : t.isOpener = false) (hc : t.isCloser = false) : nested es (t :: ts) = nested es ts := by
  simp [nested, ho, hc]

theorem segment_opener (h : t.isOpener = true) : segment es b (t :: ts) =
    segment (t.closing :: es) (if es.isEmpty then t.isSymbol "\x7b" else b) ts := by
  simp [segment, h]

theorem segment_closer (h : t.isCloser = true) : segment (c :: es) b (t :: ts) =
    (t.text == c && if es.isEmpty && b then ts.isEmpty else segment es b ts) := by
  simp [segment, isOpener_of_isCloser h, h]

theorem segment_closer_nil (h : t.isCloser = true) : segment [] b (t :: ts) = false := by
  simp [segment, isOpener_of_isCloser h, h]

theorem segment_plain (ho : t.isOpener = false) (hc : t.isCloser = false) :
    segment es b (t :: ts) = segment es b ts := by
  simp [segment, ho, hc]

theorem depth_word (t : Token) (depth : Int) : t.word.depth depth =
    if t.isOpener then depth + 1 else if t.isCloser then depth - 1 else depth := rfl

theorem depth_opener (h : t.isOpener = true) (depth : Int) : t.word.depth depth = depth + 1 := by
  rw [depth_word, if_pos h]

theorem depth_closer (h : t.isCloser = true) (depth : Int) : t.word.depth depth = depth - 1 := by
  rw [depth_word, if_neg (by simp [isOpener_of_isCloser h]), if_pos h]

theorem depth_plain (ho : t.isOpener = false) (hc : t.isCloser = false) (depth : Int) :
    t.word.depth depth = depth := by
  rw [depth_word, if_neg (by simp [ho]), if_neg (by simp [hc])]

/-- A token opens a bracket, closes one, or neither. -/
theorem bracket_cases (t : Token) : t.isOpener = true ∨ t.isCloser = true ∨ t.isOpener = false ∧ t.isCloser = false := by
  cases ho : t.isOpener with
  | true => exact .inl rfl
  | false =>
    cases hc : t.isCloser with
    | true => exact .inr (.inl rfl)
    | false => exact .inr (.inr ⟨rfl, rfl⟩)

end Steps

section Nested

/-- Behind a token the marks that are then to come are met. -/
theorem nested_pending (h : nested es (t :: ts) = true) : nested (pending es t) ts = true := by
  rcases t.bracket_cases with ho | hc | ⟨ho, hc⟩
  · rwa [pending_opener ho, ← nested_opener ho]
  · cases es with
    | nil => simp [nested_closer_nil hc] at h
    | cons e es =>
      rw [nested_closer hc, Bool.and_eq_true] at h
      rw [pending_closer hc]
      exact h.2
  · rwa [pending_plain ho hc, ← nested_plain ho hc]

/-- Behind tokens with their own brackets closed, the marks that are to come are those from before. -/
theorem nested_append (h : nested ds W = true) (ts : List Token) : nested (ds ++ es) (W ++ ts) = nested es ts := by
  induction W generalizing ds with
  | nil =>
    obtain rfl : ds = [] := by simpa [nested] using h
    rfl
  | cons t W ih =>
    rw [List.cons_append]
    rcases t.bracket_cases with ho | hc | ⟨ho, hc⟩
    · rw [nested_opener ho] at h ⊢
      exact ih h
    · cases ds with
      | nil => simp [nested_closer_nil hc] at h
      | cons d ds =>
        rw [nested_closer hc, Bool.and_eq_true] at h
        rw [List.cons_append, nested_closer hc, h.1, Bool.true_and]
        exact ih h.2
    · rw [nested_plain ho hc] at h ⊢
      exact ih h

theorem nested_append_nil (h : nested [] W = true) (ts : List Token) : nested es (W ++ ts) = nested es ts :=
  nested_append h ts

/-- The mark that is to come first is behind tokens with their own brackets closed. -/
theorem exists_closer (h : nested (ds ++ c :: es) ts = true) : ∃ W x R, ts = W ++ x :: R ∧ nested ds W = true ∧
    x.isCloser = true ∧ x.text = c ∧ nested es R = true := by
  induction ts generalizing ds with
  | nil => simp [nested] at h
  | cons t ts ih =>
    rcases t.bracket_cases with ho | hc | ⟨ho, hc⟩
    · rw [nested_opener ho, ← List.cons_append] at h
      obtain ⟨W, x, R, rfl, hW, hx⟩ := ih h
      exact ⟨t :: W, x, R, rfl, by rwa [nested_opener ho], hx⟩
    · cases ds with
      | nil =>
        rw [List.nil_append, nested_closer hc, Bool.and_eq_true, beq_iff_eq] at h
        exact ⟨[], t, ts, rfl, rfl, hc, h.1, h.2⟩
      | cons d ds =>
        rw [List.cons_append, nested_closer hc, Bool.and_eq_true] at h
        obtain ⟨W, x, R, rfl, hW, hx⟩ := ih h.2
        exact ⟨t :: W, x, R, rfl, by rw [nested_closer hc, h.1, hW]; rfl, hx⟩
    · rw [nested_plain ho hc] at h
      obtain ⟨W, x, R, rfl, hW, hx⟩ := ih h
      exact ⟨t :: W, x, R, rfl, by rwa [nested_plain ho hc], hx⟩

/-- What is in pairs does not go on over a mark that closes a bracket from before. -/
theorem nested_front (hs : nested ds s = true) (hW : nested (ds ++ ks) W = true) (hx : x.isCloser = true)
    (h : s ++ us = W ++ x :: ys) : s <+: W := by
  induction s generalizing ds W with
  | nil => exact List.nil_prefix
  | cons t s ih =>
    cases W with
    | nil =>
      obtain ⟨rfl, -⟩ := List.cons.inj h
      obtain ⟨rfl, rfl⟩ := List.append_eq_nil_iff.mp (show ds ++ ks = [] by simpa [nested] using hW)
      simp [nested_closer_nil hx] at hs
    | cons u W =>
      obtain ⟨rfl, htail⟩ := List.cons.inj h
      refine List.cons_prefix_cons.mpr ⟨rfl, ?_⟩
      rcases t.bracket_cases with ho | hc | ⟨ho, hc⟩
      · rw [nested_opener ho] at hs hW
        exact ih hs hW htail
      · cases ds with
        | nil => simp [nested_closer_nil hc] at hs
        | cons d ds =>
          rw [nested_closer hc, Bool.and_eq_true] at hs
          rw [List.cons_append, nested_closer hc, Bool.and_eq_true] at hW
          exact ih hs.2 hW.2 htail
      · rw [nested_plain ho hc] at hs hW
        exact ih hs hW htail

/-- From some token on, tokens in pairs close the brackets that are open there. -/
theorem exists_nested_suffix (h : nested es ts = true) (hs : us <:+ ts) : ∃ ks, nested ks us = true := by
  obtain ⟨xs, rfl⟩ := hs
  induction xs generalizing es with
  | nil => exact ⟨es, h⟩
  | cons t xs ih =>
    rw [List.cons_append] at h
    rcases t.bracket_cases with ho | hc | ⟨ho, hc⟩
    · exact ih (nested_opener ho ▸ h)
    · cases es with
      | nil => simp [nested_closer_nil hc] at h
      | cons e es =>
        rw [nested_closer hc, Bool.and_eq_true] at h
        exact ih h.2
    · exact ih (nested_plain ho hc ▸ h)

end Nested

section Settled

/-- A block that is opened in front of a closing mark from before. -/
theorem opensBlock_front {d : Nat} (h : opensBlock d (W ++ x :: ys) = true) (hW : nested (ds ++ ks) W = true)
    (hd : ds.length = d) (hx : x.isCloser = true) : opensBlock d W = true := by
  induction W generalizing d ds with
  | nil =>
    obtain ⟨rfl, rfl⟩ := List.append_eq_nil_iff.mp (show ds ++ ks = [] by simpa [nested] using hW)
    obtain rfl : d = 0 := hd.symm
    simp [opensBlock, isOpener_of_isCloser hx, hx] at h
  | cons t W ih =>
    rw [List.cons_append] at h
    rcases t.bracket_cases with ho | hc | ⟨ho, hc⟩
    · rw [nested_opener ho, ← List.cons_append] at hW
      simp only [opensBlock, ho, if_true, Bool.or_eq_true] at h ⊢
      exact h.imp_right fun h => ih h hW (by simp [hd])
    · cases ds with
      | nil =>
        obtain rfl : d = 0 := hd.symm
        simp [opensBlock, isOpener_of_isCloser hc, hc] at h
      | cons e ds =>
        obtain rfl : d = ds.length + 1 := by simpa using hd.symm
        rw [List.cons_append, nested_closer hc, Bool.and_eq_true] at hW
        simp only [opensBlock, isOpener_of_isCloser hc, hc, Bool.false_eq_true, if_false, if_true] at h ⊢
        exact ih h hW.2 rfl
    · rw [nested_plain ho hc] at hW
      simp only [opensBlock, ho, hc, Bool.false_eq_true, if_false] at h ⊢
      exact ih h hW hd

/-- What words ask for stands in their own brackets. -/
theorem settled_front (h : settled (W ++ x :: ys) = true) (hW : nested es W = true) (hx : x.isCloser = true) :
    settled W = true := by
  induction W generalizing es with
  | nil => rfl
  | cons t W ih =>
    simp only [List.cons_append, settled, Bool.and_eq_true] at h ⊢
    have hback : ∃ ks, nested ks W = true := exists_nested_suffix hW (List.suffix_cons t W)
    obtain ⟨ks, hks⟩ := hback
    refine ⟨?_, ih h.2 hks⟩
    have ht := h.1
    simp only [settles, Bool.and_eq_true, Bool.or_eq_true, Bool.not_eq_true', Bool.and_eq_false_imp] at ht ⊢
    refine ⟨ht.1.imp_right fun h => opensBlock_front h (show nested ([] ++ ks) _ = true from hks) rfl hx, fun hw => ?_⟩
    rcases W with _ | ⟨p, _ | ⟨q, W⟩⟩
    · simp
    · simp
    · simpa using ht.2 (by simpa using hw)

theorem settled_suffix (h : settled ts = true) (hs : us <:+ ts) : settled us = true := by
  obtain ⟨xs, rfl⟩ := hs
  induction xs with
  | nil => exact h
  | cons t xs ih =>
    rw [List.cons_append, settled, Bool.and_eq_true] at h
    exact ih h.2

end Settled

section Segments

theorem nested_of_segment (h : segment es b ts = true) : nested es ts = true := by
  induction ts generalizing es b with
  | nil => cases h
  | cons t ts ih =>
    rcases t.bracket_cases with ho | hc | ⟨ho, hc⟩
    · rw [segment_opener ho] at h
      rw [nested_opener ho]
      exact ih h
    · cases es with
      | nil => simp [segment_closer_nil hc] at h
      | cons e es =>
        rw [segment_closer hc, Bool.and_eq_true] at h
        rw [nested_closer hc, h.1, Bool.true_and]
        have h' := h.2
        split at h'
        next hend =>
          rw [Bool.and_eq_true, List.isEmpty_iff] at hend
          obtain rfl : ts = [] := by simpa using h'
          rw [hend.1]
          rfl
        next => exact ih h'
    · rw [segment_plain ho hc] at h
      rw [nested_plain ho hc]
      exact ih h

/-- A segment ends at one place only. -/
theorem segment_unique (hx : segment es b xs = true) (hy : segment es b ys = true) (h : xs ++ us = ys ++ vs) :
    xs = ys ∧ us = vs := by
  induction xs generalizing ys es b with
  | nil => cases hx
  | cons t xs ih =>
    cases ys with
    | nil => cases hy
    | cons u ys =>
      obtain ⟨rfl, htail⟩ := List.cons.inj h
      have hcons : ∀ {es b}, segment es b xs = true → segment es b ys = true → t :: xs = t :: ys ∧ us = vs :=
        fun hx hy => (ih hx hy htail).imp_left (congrArg _)
      rcases t.bracket_cases with ho | hc | ⟨ho, hc⟩
      · rw [segment_opener ho] at hx hy
        exact hcons hx hy
      · cases es with
        | nil => simp [segment_closer_nil hc] at hx
        | cons e es =>
          rw [segment_closer hc, Bool.and_eq_true] at hx hy
          have hx' := hx.2
          have hy' := hy.2
          split at hx'
          next hend =>
            rw [if_pos hend] at hy'
            obtain rfl : xs = [] := by simpa using hx'
            obtain rfl : ys = [] := by simpa using hy'
            exact ⟨rfl, htail⟩
          next hend =>
            rw [if_neg hend] at hy'
            exact hcons hx' hy'
      · rw [segment_plain ho hc] at hx hy
        exact hcons hx hy

/-- Outside of all brackets the flag does not matter. -/
theorem segment_flag (ts : List Token) : segment [] b ts = segment [] false ts := by
  induction ts with
  | nil => rfl
  | cons t ts ih =>
    rcases t.bracket_cases with ho | hc | ⟨ho, hc⟩
    · rw [segment_opener ho, segment_opener ho]
      simp
    · rw [segment_closer_nil hc, segment_closer_nil hc]
    · rw [segment_plain ho hc, segment_plain ho hc, ih]

/-- In brackets that close no block, tokens with their own brackets closed are passed over. -/
theorem segment_inside (hW : nested ds W = true) (hc : es ≠ []) (ts : List Token) :
    segment (ds ++ es) b (W ++ ts) = segment es b ts := by
  induction W generalizing ds with
  | nil =>
    obtain rfl : ds = [] := by simpa [nested] using hW
    rfl
  | cons t W ih =>
    rw [List.cons_append]
    rcases t.bracket_cases with ho | hcl | ⟨ho, hcl⟩
    · rw [nested_opener ho] at hW
      rw [segment_opener ho, ← ih hW, List.cons_append, if_neg (by simp [hc])]
    · cases ds with
      | nil => simp [nested_closer_nil hcl] at hW
      | cons d ds =>
        rw [nested_closer hcl, Bool.and_eq_true] at hW
        rw [List.cons_append, segment_closer hcl, hW.1, Bool.true_and, if_neg (by simp [hc]), ih hW.2]
    · rw [nested_plain ho hcl] at hW
      rw [segment_plain ho hcl, ih hW]

/-- A block ends the segment. -/
theorem segment_block (hb : o.isSymbol "\x7b" = true) (hW : nested [] W = true) (hx : x.isCloser = true)
    (htext : x.text = o.closing) : segment [] b (o :: W ++ [x]) = true := by
  have hinside : segment ([] ++ [o.closing]) true (W ++ [x]) = _ := segment_inside hW (by simp) [x]
  rw [List.nil_append] at hinside
  rw [List.cons_append, segment_opener (isOpener_of_brace hb), List.isEmpty_nil, if_pos rfl, hb, hinside,
    segment_closer hx, htext]
  simp

theorem not_bracket_of_awaitsBlock (hw : t.awaitsBlock = true) : t.isOpener = false ∧ t.isCloser = false := by
  simp only [awaitsBlock, List.any_cons, List.any_nil, Bool.or_false, Bool.and_eq_true, Bool.or_eq_true,
    beq_iff_eq] at hw
  rcases hw.2 with h | h | h | h | h <;> simp [isOpener, isCloser, isSymbolIn, h]

end Segments

section Levels

theorem Level.mono (h : Level P es ts) (hPQ : ∀ t us, P t us → Q t us) : Level Q es ts := by
  induction ts generalizing es with
  | nil => trivial
  | cons t ts ih => exact ⟨fun hes => hPQ _ _ (h.1 hes), ih h.2⟩

theorem Level.front {p : Token → Prop} (h : Level (fun t _ => p t) es (ts ++ us)) : Level (fun t _ => p t) es ts := by
  induction ts generalizing es with
  | nil => trivial
  | cons t ts ih => exact ⟨h.1, ih h.2⟩

/-- Behind tokens that close their brackets, and those open in front, all brackets are closed. -/
theorem Level.back (hW : nested es W = true) (h : Level P es (W ++ ts)) : Level P [] ts := by
  induction W generalizing es with
  | nil =>
    obtain rfl : es = [] := by simpa [nested] using hW
    exact h
  | cons t W ih => exact ih (nested_pending hW) h.2

/-- Tokens one after the other, the first with their own brackets closed. -/
theorem Level.append (hW : nested ds W = true) (h : Level (fun t us => P t (us ++ ts)) ds W)
    (h' : Level P [] ts) : Level P ds (W ++ ts) := by
  induction W generalizing ds with
  | nil =>
    obtain rfl : ds = [] := by simpa [nested] using hW
    exact h'
  | cons t W ih =>
    refine ⟨h.1, ?_⟩
    have h₂ := h.2
    rcases t.bracket_cases with ho | hc | ⟨ho, hc⟩
    · rw [pending_opener ho] at h₂ ⊢
      exact ih (nested_opener ho ▸ hW) h₂
    · cases ds with
      | nil => simp [nested_closer_nil hc] at hW
      | cons d ds =>
        rw [nested_closer hc, Bool.and_eq_true] at hW
        rw [pending_closer hc] at h₂ ⊢
        exact ih hW.2 h₂
    · rw [pending_plain ho hc] at h₂ ⊢
      exact ih (nested_plain ho hc ▸ hW) h₂

/-- Of tokens in brackets nothing is asked. -/
theorem Level.inside (hW : nested ds W = true) (x : Token) : Level P (ds ++ [c]) (W ++ [x]) := by
  induction W generalizing ds with
  | nil =>
    obtain rfl : ds = [] := by simpa [nested] using hW
    exact ⟨by simp, trivial⟩
  | cons t W ih =>
    refine ⟨by simp, ?_⟩
    rcases t.bracket_cases with ho | hc | ⟨ho, hc⟩
    · rw [pending_opener ho]
      exact ih (nested_opener ho ▸ hW)
    · cases ds with
      | nil => simp [nested_closer_nil hc] at hW
      | cons d ds =>
        rw [nested_closer hc, Bool.and_eq_true] at hW
        rw [pending_closer hc]
        exact ih hW.2
    · rw [pending_plain ho hc]
      exact ih (nested_plain ho hc ▸ hW)

theorem Level.group (ho : o.isOpener = true) (hW : nested [] W = true) (h : P o (W ++ [x])) :
    Level P [] (o :: W ++ [x]) := by
  refine ⟨fun _ => h, ?_⟩
  rw [pending_opener ho]
  exact Level.inside (show nested [] W = true from hW) x

/-- A token of the tokens stands outside of all brackets, or in front of a closing mark from before. -/
theorem Level.cases (h : Level P es ts) (hts : nested es ts = true) (hs : t :: us <:+ ts) (hc : t.isCloser = false) :
    P t us ∨ ∃ ks W x R, us = W ++ x :: R ∧ nested ks W = true ∧ x.isCloser = true := by
  obtain ⟨xs, rfl⟩ := hs
  induction xs generalizing es with
  | nil =>
    cases es with
    | nil => exact .inl (h.1 rfl)
    | cons e es =>
      obtain ⟨W, x, R, hW, hnested, hx, -⟩ := exists_closer (show nested ([] ++ e :: es) _ = true from hts)
      cases W with
      | nil =>
        obtain ⟨rfl, -⟩ := List.cons.inj hW
        simp [hc] at hx
      | cons w W =>
        obtain ⟨rfl, rfl⟩ := List.cons.inj hW
        obtain ⟨ks, hks⟩ := exists_nested_suffix hnested (List.suffix_cons t W)
        exact .inr ⟨ks, W, x, R, rfl, hks, hx⟩
  | cons v xs ih =>
    have h₂ := h.2
    rw [List.cons_append] at hts
    rcases v.bracket_cases with ho | hcl | ⟨ho, hcl⟩
    · rw [pending_opener ho] at h₂
      exact ih h₂ (nested_opener ho ▸ hts)
    · cases es with
      | nil => simp [nested_closer_nil hcl] at hts
      | cons e es =>
        rw [nested_closer hcl, Bool.and_eq_true] at hts
        rw [pending_closer hcl] at h₂
        exact ih h₂ hts.2
    · rw [pending_plain ho hcl] at h₂
      exact ih h₂ (nested_plain ho hcl ▸ hts)

/-- Tokens without a brace outside of all brackets are passed over. -/
theorem segment_level (h : Level (fun t _ => t.isSymbol "\x7b" = false) es ts) (hts : nested es ts = true)
    (hb : es ≠ [] → b = false) (us : List Token) : segment es b (ts ++ us) = segment [] false us := by
  induction ts generalizing es b with
  | nil =>
    obtain rfl : es = [] := by simpa [nested] using hts
    exact segment_flag us
  | cons t ts ih =>
    have h₂ := h.2
    rw [List.cons_append]
    rcases t.bracket_cases with ho | hc | ⟨ho, hc⟩
    · rw [pending_opener ho] at h₂
      rw [nested_opener ho] at hts
      rw [segment_opener ho]
      refine ih h₂ hts fun _ => ?_
      cases es with
      | nil => exact h.1 rfl
      | cons e es => exact hb (by simp)
    · cases es with
      | nil => simp [nested_closer_nil hc] at hts
      | cons e es =>
        obtain rfl := hb (by simp)
        rw [nested_closer hc, Bool.and_eq_true] at hts
        rw [pending_closer hc] at h₂
        rw [segment_closer hc, hts.1, Bool.and_false, Bool.true_and, if_neg Bool.false_ne_true]
        exact ih h₂ hts.2 fun _ => rfl
    · rw [pending_plain ho hc] at h₂
      rw [segment_plain ho hc]
      exact ih h₂ (nested_plain ho hc ▸ hts) hb

/-- Where no semicolon stands outside of all brackets, or where brackets are open, none is left out. -/
theorem dropSeparators_level {depth : Nat} (h : 0 < depth ∨ Level (fun t _ => t.isSymbol ";" = false) es ts)
    (hts : nested es ts = true) (us : List Token) :
    dropSeparators ((es.length + depth : Nat) : Int) (ts ++ us) = ts ++ dropSeparators depth us := by
  induction ts generalizing es with
  | nil =>
    obtain rfl : es = [] := by simpa [nested] using hts
    simp
  | cons t ts ih =>
    have h₂ := h.imp_right fun h => h.2
    have hne : ¬ (((es.length + depth : Nat) : Int) = 0 ∧ t.isSymbol ";" = true) := by
      rintro ⟨hlen, ht⟩
      obtain rfl : es = [] := List.length_eq_zero_iff.mp (by omega)
      simp [(h.resolve_left (by omega)).1 rfl] at ht
    rw [List.cons_append, dropSeparators, if_neg hne, List.cons_append]
    congr 1
    rcases t.bracket_cases with ho | hc | ⟨ho, hc⟩
    · rw [pending_opener ho] at h₂
      rw [← ih h₂ (nested_opener ho ▸ hts), depth_opener ho]
      congr 1
      simp
      omega
    · cases es with
      | nil => simp [nested_closer_nil hc] at hts
      | cons e es =>
        rw [nested_closer hc, Bool.and_eq_true] at hts
        rw [pending_closer hc] at h₂
        rw [← ih h₂ hts.2, depth_closer hc]
        congr 1
        simp
        omega
    · rw [pending_plain ho hc] at h₂
      rw [← ih h₂ (nested_plain ho hc ▸ hts), depth_plain ho hc]

end Levels

section Alike

variable {p : Token → Bool}

theorem nested_alike (h : ts.Forall₂ Alike us) : nested es us = nested es ts := by
  induction h generalizing es with
  | nil => rfl
  | @cons t u ts us ht _ ih =>
    rcases t.bracket_cases with ho | hc | ⟨ho, hc⟩
    · rw [nested_opener ho, nested_opener (ht.isOpener.trans ho), ih,
        ht.closing.resolve_right (by simp [ho])]
    · have hc' := ht.isCloser.trans hc
      cases es with
      | nil => rw [nested_closer_nil hc, nested_closer_nil hc']
      | cons e es => rw [nested_closer hc, nested_closer hc', ih, ht.text (by simp [kind_of_isCloser hc])]
    · rw [nested_plain ho hc, nested_plain (ht.isOpener.trans ho) (ht.isCloser.trans hc), ih]

theorem segment_alike (h : ts.Forall₂ Alike us) : segment es b us = segment es b ts := by
  induction h generalizing es b with
  | nil => rfl
  | @cons t u ts us ht hts ih =>
    rcases t.bracket_cases with ho | hc | ⟨ho, hc⟩
    · rw [segment_opener ho, segment_opener (ht.isOpener.trans ho), ih, ht.isSymbol,
        ht.closing.resolve_right (by simp [ho])]
    · have hc' := ht.isCloser.trans hc
      cases es with
      | nil => rw [segment_closer_nil hc, segment_closer_nil hc']
      | cons e es =>
        have hempty : us.isEmpty = ts.isEmpty := by cases hts <;> rfl
        rw [segment_closer hc, segment_closer hc', ih, ht.text (by simp [kind_of_isCloser hc]), hempty]
    · rw [segment_plain ho hc, segment_plain (ht.isOpener.trans ho) (ht.isCloser.trans hc), ih]

theorem Level.alike (h : Level (fun t _ => p t = true) es ts) (hts : ts.Forall₂ Alike us)
    (hp : ∀ t u, Alike t u → p t = true → p u = true) : Level (fun t _ => p t = true) es us := by
  induction hts generalizing es with
  | nil => trivial
  | @cons t u ts us ht _ ih =>
    refine ⟨fun hes => hp t u ht (h.1 hes), ?_⟩
    have hpending : pending es u = pending es t := by
      rcases t.bracket_cases with ho | hc | ⟨ho, hc⟩
      · rw [pending_opener ho, pending_opener (ht.isOpener.trans ho), ht.closing.resolve_right (by simp [ho])]
      · rw [pending_closer hc, pending_closer (ht.isCloser.trans hc)]
      · rw [pending_plain ho hc, pending_plain (ht.isOpener.trans ho) (ht.isCloser.trans hc)]
    rw [hpending]
    exact ih h.2

theorem opensBlock_alike {d : Nat} (h : ts.Forall₂ Alike us) : opensBlock d us = opensBlock d ts := by
  induction h generalizing d with
  | nil => rfl
  | @cons t u ts us ht _ ih =>
    simp only [opensBlock, ht.isOpener, ht.isCloser, ht.isSymbol, ih]

/-- Words ask for the same where no string literal reads as a word. -/
theorem settled_alike (h : ts.Forall₂ Alike us) (hts : settled ts = true)
    (hs : ∀ u ∈ us, u.kind = .string → u.awaitsBlock = false) : settled us = true := by
  induction h with
  | nil => rfl
  | @cons t u ts us ht htail ih =>
    obtain ⟨hu, hus⟩ := List.forall_mem_cons.mp hs
    simp only [settled, Bool.and_eq_true] at hts ⊢
    refine ⟨?_, ih hts.2 hus⟩
    have ht' := hts.1
    simp only [settles, Bool.and_eq_true, Bool.or_eq_true, Bool.not_eq_true', Bool.and_eq_false_imp] at ht' ⊢
    refine ⟨?_, fun hw => ?_⟩
    · rcases ht.cases with ⟨-, hk⟩ | ⟨hk, htext⟩
      · exact .inl (hu hk)
      · rw [opensBlock_alike htail, show u.awaitsBlock = t.awaitsBlock by rw [awaitsBlock, awaitsBlock, hk, htext]]
        exact ht'.1
    · rw [ht.isIdentifierIn] at hw
      cases htail with
      | nil => simp at hw
      | cons hp htail =>
        simp only [List.head?_cons, Option.any_some, hp.isSymbol] at hw
        cases htail with
        | nil => simp
        | cons hq _ => simpa [hq.isOpener] using ht'.2 (by simpa using hw)

end Alike

section Refines

theorem plain_of_operator (h : t.kind = .operator) : t.isOpener = false ∧ t.isCloser = false :=
  not_bracket_of_kind (by simp [h])

theorem nested_refines (h : Refines ts us) : nested es us = nested es ts := by
  induction h generalizing es with
  | nil => rfl
  | keep t _ ih =>
    rcases t.bracket_cases with ho | hc | ⟨ho, hc⟩
    · rw [nested_opener ho, nested_opener ho, ih]
    · cases es with
      | nil => rw [nested_closer_nil hc, nested_closer_nil hc]
      | cons e es => rw [nested_closer hc, nested_closer hc, ih]
    · rw [nested_plain ho hc, nested_plain ho hc, ih]
  | @split t ts us hk _ _ ih =>
    obtain ⟨ho, hc⟩ := plain_of_operator hk
    obtain ⟨ho', hc'⟩ := plain_of_operator (t := t.front) hk
    obtain ⟨ho'', hc''⟩ := plain_of_operator (t := t.back) hk
    rw [nested_plain ho' hc', ih, nested_plain ho'' hc'', nested_plain ho hc]

theorem segment_refines (h : Refines ts us) : segment es b us = segment es b ts := by
  induction h generalizing es b with
  | nil => rfl
  | @keep t ts us h ih =>
    rcases t.bracket_cases with ho | hc | ⟨ho, hc⟩
    · rw [segment_opener ho, segment_opener ho, ih]
    · have hempty : us.isEmpty = ts.isEmpty := by cases h <;> rfl
      cases es with
      | nil => rw [segment_closer_nil hc, segment_closer_nil hc]
      | cons e es => rw [segment_closer hc, segment_closer hc, ih, hempty]
    · rw [segment_plain ho hc, segment_plain ho hc, ih]
  | @split t ts us hk _ _ ih =>
    obtain ⟨ho, hc⟩ := plain_of_operator hk
    obtain ⟨ho', hc'⟩ := plain_of_operator (t := t.front) hk
    obtain ⟨ho'', hc''⟩ := plain_of_operator (t := t.back) hk
    rw [segment_plain ho' hc', ih, segment_plain ho'' hc'', segment_plain ho hc]

/-- What holds of the tokens with operators split holds of them as they were. -/
theorem Level.of_refines (h : Refines ts us) (hus : Level Q es us)
    (hkeep : ∀ t ts us, Refines ts us → Q t us → P t ts) (hop : ∀ t ts, t.kind = .operator → P t ts) :
    Level P es ts := by
  induction h generalizing es with
  | nil => trivial
  | keep t hr ih => exact ⟨fun hes => hkeep _ _ _ hr (hus.1 hes), ih hus.2⟩
  | @split t ts us hk _ _ ih =>
    obtain ⟨ho, hc⟩ := plain_of_operator hk
    obtain ⟨ho', hc'⟩ := plain_of_operator (t := t.front) hk
    obtain ⟨ho'', hc''⟩ := plain_of_operator (t := t.back) hk
    have hback := ih (pending_plain ho' hc' ▸ hus.2)
    refine ⟨fun _ => hop t ts hk, ?_⟩
    have hrest := hback.2
    rw [pending_plain ho'' hc''] at hrest
    rwa [pending_plain ho hc]

/-- Parts of operators are passed over as the operators are. -/
theorem Level.refined {p : Token → Bool} (h : Level (fun t _ => p t = true) es ts) (hr : Refines ts us)
    (hop : ∀ t : Token, t.kind = .operator → p t = true) : Level (fun t _ => p t = true) es us := by
  induction hr generalizing es with
  | nil => trivial
  | keep t _ ih => exact ⟨h.1, ih h.2⟩
  | @split t ts us hk _ _ ih =>
    obtain ⟨ho, hc⟩ := plain_of_operator hk
    obtain ⟨ho', hc'⟩ := plain_of_operator (t := t.front) hk
    obtain ⟨ho'', hc''⟩ := plain_of_operator (t := t.back) hk
    refine ⟨fun _ => hop _ hk, ?_⟩
    rw [pending_plain ho' hc']
    refine ih ⟨fun _ => hop _ hk, ?_⟩
    have hrest := h.2
    rw [pending_plain ho hc] at hrest
    rwa [pending_plain ho'' hc'']

theorem opensBlock_refined {d : Nat} (h : Refines ts us) : opensBlock d us = opensBlock d ts := by
  induction h generalizing d with
  | nil => rfl
  | keep t _ ih =>
    cases d with
    | zero => simp only [opensBlock, ih]
    | succ d => simp only [opensBlock, ih]
  | @split t ts us hk _ _ ih =>
    have hback := plain_of_operator (t := t.back) hk
    have hfront := plain_of_operator (t := t.front) hk
    simp [opensBlock, hfront, plain_of_operator hk, ih, hback]

theorem settles_refined (h : Refines ts us) : settles t us = settles t ts := by
  have hop : ∀ v : Token, v.kind = .operator → v.isSymbol "(" = false := fun v hv => by simp [isSymbol, has, hv]
  have hlook : (us.head?.any (·.isSymbol "(") && (us.drop 1).head?.any isOpener) =
      (ts.head?.any (·.isSymbol "(") && (ts.drop 1).head?.any isOpener) := by
    cases h with
    | nil => rfl
    | split hk => simp [hop _ hk, hop (front _) hk]
    | keep p h =>
      cases h with
      | nil => rfl
      | keep => rfl
      | @split q _ _ hk => simp [(plain_of_operator hk).1, (plain_of_operator (t := q.front) hk).1]
  rw [settles, settles, opensBlock_refined h, Bool.and_assoc, Bool.and_assoc, hlook]

theorem settled_refines (h : Refines ts us) : settled us = settled ts := by
  induction h with
  | nil => rfl
  | keep t hr ih => rw [settled, settled, settles_refined hr, ih]
  | @split t ts us hk _ _ ih =>
    rw [settled, ih, settled, settled, Fenced.settles_of_operator (t := t.front) hk,
      Fenced.settles_of_operator (t := t.back) hk, Fenced.settles_of_operator hk]
    rfl

/-- What refines two lists, one behind the other, is divided as they are. -/
theorem Refines.divide (h : Refines (ts ++ us) vs) : ∃ vs₁ vs₂, vs = vs₁ ++ vs₂ ∧ Refines ts vs₁ ∧ Refines us vs₂ := by
  generalize hl : ts ++ us = l at h
  induction h generalizing ts with
  | nil =>
    obtain ⟨rfl, rfl⟩ := List.append_eq_nil_iff.mp hl
    exact ⟨[], [], rfl, .nil, .nil⟩
  | @keep t l vs h ih =>
    cases ts with
    | nil =>
      obtain rfl : us = t :: l := hl
      exact ⟨[], _, rfl, .nil, .keep t h⟩
    | cons u ts =>
      obtain ⟨rfl, rfl⟩ := List.cons.inj hl
      obtain ⟨vs₁, vs₂, rfl, h₁, h₂⟩ := ih rfl
      exact ⟨u :: vs₁, vs₂, rfl, .keep u h₁, h₂⟩
  | @split t l vs hk hlen h ih =>
    cases ts with
    | nil =>
      obtain rfl : us = t :: l := hl
      exact ⟨[], _, rfl, .nil, .split hk hlen h⟩
    | cons u ts =>
      obtain ⟨rfl, rfl⟩ := List.cons.inj hl
      obtain ⟨vs₁, vs₂, rfl, h₁, h₂⟩ := ih (show u.back :: ts ++ us = _ from rfl)
      exact ⟨u.front :: vs₁, vs₂, rfl, .split hk hlen h₁, h₂⟩

/-- A token that is no operator stands in both lists, between what refines the same. -/
theorem Refines.divide_at (h : Refines (ts ++ x :: us) vs) (hx : x.kind ≠ .operator) :
    ∃ vs₁ vs₂, vs = vs₁ ++ x :: vs₂ ∧ Refines ts vs₁ ∧ Refines us vs₂ := by
  obtain ⟨vs₁, vs₂, rfl, h₁, h₂⟩ := h.divide
  cases h₂ with
  | keep _ h₂ => exact ⟨vs₁, _, rfl, h₁, h₂⟩
  | split hk => exact absurd hk hx

/-- A segment ends with a closing mark. -/
theorem segment_last (h : segment es b ts = true) : ∃ W x, ts = W ++ [x] ∧ x.isCloser = true := by
  induction ts generalizing es b with
  | nil => cases h
  | cons t ts ih =>
    have hcons : ∀ {es b}, segment es b ts = true → ∃ W x, t :: ts = W ++ [x] ∧ x.isCloser = true := fun h => by
      obtain ⟨W, x, rfl, hx⟩ := ih h
      exact ⟨t :: W, x, rfl, hx⟩
    rcases t.bracket_cases with ho | hc | ⟨ho, hc⟩
    · rw [segment_opener ho] at h
      exact hcons h
    · cases es with
      | nil => simp [segment_closer_nil hc] at h
      | cons e es =>
        rw [segment_closer hc, Bool.and_eq_true] at h
        have h' := h.2
        split at h'
        · obtain rfl : ts = [] := by simpa using h'
          exact ⟨[], t, rfl, hc⟩
        · exact hcons h'
    · rw [segment_plain ho hc] at h
      exact hcons h

/-- Two lists are refined part by part. -/
theorem Refines.both (h : Refines ts us) (h' : Refines vs ws) : Refines (ts ++ vs) (us ++ ws) := by
  induction h with
  | nil => exact h'
  | keep t _ ih => exact .keep t ih
  | split hk hlen _ ih => exact .split hk hlen ih

/-- A segment of the tokens with operators split is one of them as they were. -/
theorem Refines.segment_front (h : Refines ts (s ++ vs)) (hs : segment es b s = true) :
    ∃ r us, ts = r ++ us ∧ Refines r s ∧ Refines us vs ∧ segment es b r = true := by
  obtain ⟨W, x, rfl, hx⟩ := segment_last hs
  rw [List.append_assoc] at h
  obtain ⟨ts₁, ts₂, rfl, h₁, h₂⟩ := h.split_at (by simp [kind_of_isCloser hx])
  have hr : Refines (ts₁ ++ [x]) (W ++ [x]) := h₁.both (.refl [x])
  exact ⟨ts₁ ++ [x], ts₂, by simp, hr, h₂, segment_refines hr ▸ hs⟩

end Refines

section Blocks

/-- A token that can stand outside of all brackets between a macro and its block. -/
def idle (t : Token) : Bool := t.kind != .poundName && !t.isSymbolIn ["\x7b", ";"]

/-- Behind a macro stand the tokens `A` and a block, `B` between the braces `o` and `z`. -/
structure Block (A : List Token) (o : Token) (B : List Token) (z : Token) : Prop where
  front : nested [] A = true ∧ Level (fun t _ => t.idle = true) [] A
  opening : o.isSymbol "\x7b" = true
  inside : nested [] B = true
  closing : z.isSymbol "\x7d" = true

theorem not_brace (h : t.idle = true) : t.isSymbol "\x7b" = false := by
  rw [Bool.eq_false_iff]
  intro hb
  simp only [isSymbol, has, Bool.and_eq_true, beq_iff_eq] at hb
  simp [idle, isSymbolIn, hb.1, hb.2] at h

theorem not_separator (h : t.idle = true) : t.isSymbol ";" = false := by
  rw [Bool.eq_false_iff]
  intro hb
  simp only [isSymbol, has, Bool.and_eq_true, beq_iff_eq] at hb
  simp [idle, isSymbolIn, hb.1, hb.2] at h

theorem Alike.idle_eq (h : Alike t u) : u.idle = t.idle := by
  rw [idle, idle, h.kind, h.isSymbolIn]

theorem idle_of_operator (h : t.kind = .operator) : t.idle = true := by simp [idle, isSymbolIn, h]

/-- Within brackets, the first closing mark from before stands behind tokens with their brackets closed. -/
theorem exists_first_closer (hW : nested ks W = true) (hx : x.isCloser = true) (ys : List Token) :
    ∃ V y us, W ++ x :: ys = V ++ y :: us ∧ nested [] V = true ∧ y.isCloser = true := by
  cases ks with
  | nil => exact ⟨W, x, ys, rfl, hW, hx⟩
  | cons e ks =>
    obtain ⟨V, y, us, rfl, hV, hy, -⟩ := exists_closer (show nested ([] ++ e :: ks) W = true from hW)
    exact ⟨V, y, us ++ x :: ys, by simp, hV, hy⟩

namespace Block

variable {A B A₁ B₁ : List Token} {z : Token} (h : Block A o B z)
include h

theorem closes : z.isCloser = true ∧ z.text = o.closing := by
  have ho := h.opening
  have hz := h.closing
  simp only [isSymbol, has, Bool.and_eq_true, beq_iff_eq] at ho hz
  exact ⟨isCloser_of_isSymbol h.closing (by simp), by simp [Token.closing, ho.2, hz.2]⟩

theorem segment : segment [] false (A ++ o :: B ++ [z]) = true := by
  rw [List.append_assoc, segment_level (h.front.2.mono fun _ _ => not_brace) h.front.1 (by simp)]
  exact segment_block h.opening h.inside h.closes.1 h.closes.2

/-- A macro in a block, or in front of it, stands in brackets. -/
theorem brackets (hs : A ++ o :: B ++ [z] = xs ++ t :: us) (hk : t.kind = .poundName) :
    ∃ W x R, us = W ++ x :: R ∧ nested [] W = true ∧ x.isCloser = true := by
  have hplain := not_bracket_of_kind (t := t) (by simp [hk])
  have ho := isOpener_of_brace h.opening
  obtain ⟨ks, W, x, R, rfl, hW, hx⟩ : ∃ ks W x R, us = W ++ x :: R ∧ nested ks W = true ∧ x.isCloser = true := by
    rw [List.append_assoc] at hs
    rcases List.append_eq_append_iff.mp hs with ⟨C, rfl, hC⟩ | ⟨C, rfl, hC⟩
    · cases C with
      | nil =>
        obtain ⟨rfl, -⟩ := List.cons.inj hC
        simp [ho] at hplain
      | cons c C =>
        obtain ⟨-, hC⟩ := List.cons.inj hC
        rcases List.append_eq_append_iff.mp hC with ⟨D, rfl, hD⟩ | ⟨D, rfl, hD⟩
        · cases D with
          | nil =>
            obtain ⟨rfl, -⟩ := List.cons.inj hD
            simp [h.closes.1] at hplain
          | cons d D => simp at hD
        · cases D with
          | nil =>
            obtain ⟨rfl, -⟩ := List.cons.inj hD
            simp [h.closes.1] at hplain
          | cons d D =>
            obtain ⟨rfl, rfl⟩ := List.cons.inj hD
            obtain ⟨ks, hks⟩ := exists_nested_suffix h.inside (List.suffix_append C (t :: D))
            exact ⟨ks, D, z, [], rfl, nested_plain hplain.1 hplain.2 ▸ hks, h.closes.1⟩
    · cases C with
      | nil =>
        obtain ⟨rfl, -⟩ := List.cons.inj hC
        simp [ho] at hplain
      | cons c C =>
        obtain ⟨rfl, rfl⟩ := List.cons.inj hC
        rcases h.front.2.cases h.front.1 (List.suffix_append xs (t :: C)) hplain.2 with hi | ⟨ks, W, x, R, rfl, hW, hx⟩
        · simp [idle, hk] at hi
        · exact ⟨ks, W, x, R ++ o :: B ++ [z], by simp, hW, hx⟩
  obtain ⟨V, y, vs, hV, hV', hy⟩ := exists_first_closer hW hx R
  exact ⟨V, y, vs, hV, hV', hy⟩

/-- The segment of a macro in a block, or in front of it, ends there. -/
theorem inner (hs : A ++ o :: B ++ [z] = xs ++ t :: us) (hk : t.kind = .poundName) (hsegment : Token.segment [] b s = true)
    (hpre : s <+: us ++ R) : ∃ ys, us = s ++ ys ∧ ys ≠ [] := by
  obtain ⟨W, x, V, rfl, hW, hx⟩ := h.brackets hs hk
  obtain ⟨r, hr⟩ := hpre
  obtain ⟨ys, rfl⟩ := nested_front (nested_of_segment hsegment) (show nested ([] ++ []) W = true by simpa using hW) hx
    (show s ++ r = W ++ x :: (V ++ R) by simpa using hr)
  exact ⟨ys ++ x :: V, by simp, by simp⟩

/-- What is behind a macro in a block, or in front of it, is fenced. -/
theorem fenced (hs : A ++ o :: B ++ [z] = xs ++ t :: us) (hk : t.kind = .poundName)
    (hsettled : settled (A ++ o :: B ++ [z]) = true) (R : List Token) : ∃ f, Fenced [f] (t :: us ++ R) := by
  have hplain := not_bracket_of_kind (t := t) (by simp [hk])
  obtain ⟨W, x, V, rfl, hW, hx⟩ := h.brackets hs hk
  have hW' : nested [] (t :: W) = true := by rwa [nested_plain hplain.1 hplain.2]
  have hsuffix := settled_suffix hsettled ⟨xs, hs.symm⟩
  obtain ⟨ds, hds, -, hfenced⟩ := Fenced.of_nested hW' (settled_front
    (show settled (t :: W ++ x :: V) = true by simpa using hsuffix) hW' hx)
    hx (.done (V ++ R))
  obtain rfl : ds = [] := by simpa using hds
  exact ⟨x, by simpa using hfenced⟩

/-- No semicolon stands there outside of all brackets. -/
theorem level : Level (fun t _ => t.isSymbol ";" = false) [] (A ++ o :: B ++ [z]) := by
  rw [List.append_assoc]
  refine Level.append h.front.1 (h.front.2.mono fun _ _ => not_separator)
    (Level.group (isOpener_of_brace h.opening) h.inside ?_)
  have ho := h.opening
  simp only [isSymbol, has, Bool.and_eq_true, beq_iff_eq] at ho
  simp [isSymbol, has, ho]

/-- Where a semicolon is left out between statements, none is left out here. -/
theorem separators (depth : Nat) (us : List Token) :
    dropSeparators depth (A ++ o :: B ++ [z] ++ us) = A ++ o :: B ++ [z] ++ dropSeparators depth us := by
  simpa using dropSeparators_level (show 0 < depth ∨ _ from .inr h.level) (nested_of_segment h.segment) us

/-- A block in tokens that are alike. -/
theorem alike {A' B' : List Token} {o' z' : Token} (hA : A.Forall₂ Alike A') (ho : Alike o o') (hB : B.Forall₂ Alike B')
    (hz : Alike z z') : Block A' o' B' z' :=
  ⟨⟨by rw [nested_alike hA, h.front.1], h.front.2.alike hA fun t u htu ht => by rwa [htu.idle_eq]⟩,
    by rw [ho.isSymbol, h.opening], by rw [nested_alike hB, h.inside], by rw [hz.isSymbol, h.closing]⟩

/-- A block in tokens with operators split. -/
theorem refined (hA : Refines A A₁) (hB : Refines B B₁) : Block A₁ o B₁ z :=
  ⟨⟨by rw [nested_refines hA, h.front.1], h.front.2.refined hA fun _ => idle_of_operator⟩, h.opening, by rw [nested_refines hB, h.inside], h.closing⟩

end Block

/-- A block in tokens whose operators have been split. -/
theorem Block.of_refines {A A₁ B B₁ : List Token} {z : Token} (h : Block A₁ o B₁ z) (hA : Refines A A₁)
    (hB : Refines B B₁) : Block A o B z :=
  ⟨⟨by rw [← nested_refines hA, h.front.1], Level.of_refines hA h.front.2 (fun _ _ _ _ ht => ht)
    fun _ _ ht => idle_of_operator ht⟩, h.opening, by rw [← nested_refines hB, h.inside], h.closing⟩

end Blocks

end SwiftMacros.Token
