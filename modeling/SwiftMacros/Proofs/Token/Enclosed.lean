import Mathlib
import SwiftMacros.Proofs.Token.Local

/-! Lexemes that end with a delimiter of their own: block comments, string literals and names in
backquotes. Where such a lexeme ends is told by its own characters, whatever follows. -/

namespace SwiftMacros.Token

section Comments

/-- Each open level takes at least one more character. -/
theorem scanComment_lt {depth skip offset n : Nat} {t : Text}
    (h : scanComment depth skip offset t = some n) : offset + skip + depth ≤ n := by
  induction t generalizing depth skip offset with
  | nil =>
    cases depth with
    | zero => simp only [scanComment, Option.some.injEq] at h; omega
    | succ d => simp [scanComment] at h
  | cons c t ih =>
    cases depth with
    | zero => simp only [scanComment, Option.some.injEq] at h; omega
    | succ d =>
      cases skip with
      | succ s =>
        have := ih (by simpa only [scanComment] using h)
        omega
      | zero =>
        simp only [scanComment] at h
        split at h <;> have := ih h <;> omega

-- a comment inside another takes an end of its own
example : scanComment 1 0 2 "/**/*/".toList = some 8 := by cbv

theorem scanComment_pair (depth offset : Nat) (c e : Char) (t : Text) :
    scanComment (depth + 1) 0 offset (c :: e :: t) =
      if c = '/' ∧ e = '*' then scanComment (depth + 2) 1 (offset + 1) (e :: t)
      else if c = '*' ∧ e = '/' then scanComment depth 1 (offset + 1) (e :: t)
      else scanComment (depth + 1) 0 (offset + 1) (e :: t) := by
  by_cases hopen : c = '/' ∧ e = '*'
  · obtain ⟨rfl, rfl⟩ := hopen
    rfl
  · by_cases hclose : c = '*' ∧ e = '/'
    · obtain ⟨rfl, rfl⟩ := hclose
      rfl
    · rw [if_neg hopen, if_neg hclose]
      conv_lhs => unfold scanComment
      split <;> simp_all

theorem scanComment_append {depth skip offset : Nat} {x r : Text}
    (h : scanComment depth skip offset (x ++ r) = some (offset + x.length)) (r' : Text) :
    scanComment depth skip offset (x ++ r') = some (offset + x.length) := by
  induction x generalizing depth skip offset with
  | nil =>
    cases depth with
    | zero => simpa [scanComment] using h
    | succ d =>
      have := scanComment_lt h
      simp only [List.length_nil] at this
      omega
  | cons c x ih =>
    rw [show offset + (c :: x).length = offset + 1 + x.length by
      simp only [List.length_cons]; omega] at h ⊢
    cases depth with
    | zero => simpa [scanComment] using h
    | succ d =>
      cases skip with
      | succ s =>
        simp only [List.cons_append, scanComment] at h ⊢
        exact ih h
      | zero =>
        cases x with
        | nil =>
          simp only [List.cons_append, List.nil_append, scanComment, List.length_nil] at h
          split at h <;> have := scanComment_lt h <;> omega
        | cons e x =>
          simp only [List.cons_append, scanComment_pair] at h ⊢
          split_ifs at h ⊢ <;> exact ih h

theorem scanComment_le {depth skip offset n : Nat} {t : Text}
    (h : scanComment depth skip offset t = some n) (hs : skip ≤ t.length) :
    n ≤ offset + t.length := by
  induction t generalizing depth skip offset with
  | nil =>
    cases depth with
    | zero => simp only [scanComment, Option.some.injEq] at h; omega
    | succ d => simp [scanComment] at h
  | cons c t ih =>
    simp only [List.length_cons] at hs ⊢
    cases depth with
    | zero => simp only [scanComment, Option.some.injEq] at h; omega
    | succ d =>
      cases skip with
      | succ s =>
        have := ih (by simpa only [scanComment] using h) (by omega)
        omega
      | zero =>
        cases t with
        | nil => simp [scanComment] at h
        | cons e t =>
          rw [scanComment_pair] at h
          split_ifs at h <;> have := ih h (by simp) <;> omega

/-- A comment ends with the delimiter that closes it. -/
theorem scanComment_suffix {depth skip offset : Nat} {x r : Text}
    (h : scanComment (depth + 1) skip offset (x ++ r) = some (offset + x.length)) :
    ['*', '/'] <:+ x := by
  induction x generalizing depth skip offset with
  | nil =>
    have := scanComment_lt h
    simp only [List.length_nil] at this
    omega
  | cons c x ih =>
    rw [show offset + (c :: x).length = offset + 1 + x.length by
      simp only [List.length_cons]; omega] at h
    cases skip with
    | succ s =>
      simp only [List.cons_append, scanComment] at h
      exact (ih h).trans (List.suffix_cons c x)
    | zero =>
      cases x with
      | nil =>
        simp only [List.cons_append, List.nil_append, scanComment, List.length_nil] at h
        split at h <;> have := scanComment_lt h <;> omega
      | cons e x =>
        simp only [List.cons_append, scanComment_pair] at h
        split_ifs at h with h1 h2
        · exact (ih h).trans (List.suffix_cons _ _)
        · cases depth with
          | succ d => exact (ih h).trans (List.suffix_cons _ _)
          | zero =>
            simp only [scanComment, Option.some.injEq, List.length_cons] at h
            obtain rfl : x = [] := List.length_eq_zero_iff.mp (by omega)
            obtain ⟨rfl, rfl⟩ := h2
            exact List.suffix_refl _
        · exact (ih h).trans (List.suffix_cons _ _)

end Comments

section Literals

theorem Quoting.closing_length (q : Quoting) : q.closing.length = q.opening.length := by
  simp only [closing, opening, List.length_append, Nat.add_comm]

theorem Quoting.closing_length_eq (q : Quoting) :
    q.closing.length = q.pounds + if q.multiline then 3 else 1 := by
  cases h : q.multiline <;> simp [closing, quotes, poundText, h]

theorem Quoting.escape_length (q : Quoting) : q.escape.length = q.pounds + 1 := by
  simp [escape, poundText]

theorem Quoting.opens?_pound (t : Text) :
    opens? ('#' :: t) = (opens? t).map fun q => ⟨q.pounds + 1, q.multiline⟩ := by
  simp only [opens?, List.takeWhile_cons, beq_self_eq_true, if_true, List.length_cons,
    List.drop_succ_cons]
  split <;> rfl

/-- A text that starts with none of the characters of a delimiter opens no literal. -/
theorem Quoting.opens?_eq_none {c : Char} (hp : c ≠ '#') (hq : c ≠ '"') (t : Text) :
    opens? (c :: t) = none := by
  simp [opens?, hp, hq]

/-- A quote opens a literal of three quotes if two more are behind it, and otherwise one of one quote. -/
theorem Quoting.opens?_quote (t : Text) : opens? ('"' :: t) = some ⟨0, ['"', '"'].isPrefixOf t⟩ := by
  have hnone : (('"' :: t).takeWhile (· == '#')).length = 0 := rfl
  simp only [opens?, hnone, List.drop_zero]
  split
  · rename_i u heq
    obtain rfl := (List.cons.inj heq).2
    rfl
  · rename_i u hthree heq
    obtain rfl := (List.cons.inj heq).2
    have hlone : ['"', '"'].isPrefixOf t = false := by
      rw [Bool.eq_false_iff, ne_eq, List.isPrefixOf_iff_prefix]
      rintro ⟨v, rfl⟩
      exact hthree v rfl
    rw [hlone]
  · rename_i hone
    exact absurd rfl (hone t)

theorem Quoting.opening_succ (n : Nat) (multiline : Bool) :
    opening ⟨n + 1, multiline⟩ = '#' :: opening ⟨n, multiline⟩ := by
  simp [opening, poundText, quotes, List.replicate_succ]

theorem Quoting.opens?_prefix {t : Text} {q : Quoting} (h : opens? t = some q) :
    q.opening <+: t := by
  induction t generalizing q with
  | nil => simp [opens?] at h
  | cons c t ih =>
    by_cases hp : c = '#'
    · subst hp
      rw [opens?_pound, Option.map_eq_some_iff] at h
      obtain ⟨q', hq', rfl⟩ := h
      rw [opening_succ]
      exact List.cons_prefix_cons.mpr ⟨rfl, ih hq'⟩
    · by_cases hq : c = '"'
      · subst hq
        rw [opens?_quote] at h
        cases h
        cases hthree : ['"', '"'].isPrefixOf t with
        | true => exact List.cons_prefix_cons.mpr ⟨rfl, List.isPrefixOf_iff_prefix.mp hthree⟩
        | false => exact ⟨t, rfl⟩
      · simp [opens?_eq_none hp hq] at h

/-- How many of the characters in front are pounds. -/
def poundCount (t : Text) : Nat := runLength (· == '#') t

theorem Quoting.pounds_of_opens? {t : Text} {q : Quoting} (h : opens? t = some q) :
    q.pounds = poundCount t := by
  simp only [opens?] at h
  split at h <;> cases h <;> rfl

/-- Whether a text with another character than a pound opens no literal is told by that text. -/
theorem Quoting.opens?_none_append {x r : Text} (hx : ¬ ∀ c ∈ x, c = '#')
    (h : opens? (x ++ r) = none) (r' : Text) : opens? (x ++ r') = none := by
  induction x with
  | nil => simp at hx
  | cons c x ih =>
    by_cases hp : c = '#'
    · subst hp
      simp only [List.cons_append, opens?_pound, Option.map_eq_none_iff] at h ⊢
      exact ih (by simpa using hx) h
    · by_cases hq : c = '"'
      · subst hq
        rw [List.cons_append, opens?_quote] at h
        cases h
      · exact opens?_eq_none hp hq _

theorem Quoting.opens?_append {x : Text} (r : Text) (h : poundCount x + 3 ≤ x.length) :
    opens? (x ++ r) = opens? x := by
  have hr : ((x ++ r).takeWhile (· == '#')).length = (x.takeWhile (· == '#')).length :=
    runLength_append_of_lt (x := x) (p := (· == '#')) (by simp only [poundCount] at h; omega) r
  have hd : (x.takeWhile (· == '#')).length + 3 ≤ x.length := h
  simp only [opens?, hr]
  rw [List.drop_append_of_le_length (by omega)]
  generalize (x.takeWhile (· == '#')).length = n at *
  have hlen : 3 ≤ (x.drop n).length := by simp only [List.length_drop]; omega
  match hx : x.drop n, hlen with
  | a :: b :: c :: s, _ =>
    by_cases ha : a = '"' <;> by_cases hb : b = '"' <;> by_cases hc : c = '"' <;>
      simp [ha, hb, hc]

/-- The characters that are at least needed to close what a frame has open. -/
def Frame.need : Frame → Nat
  | .literal _ q => q.closing.length
  | .interpolation _ => 1

def needs (stack : List Frame) : Nat := (stack.map Frame.need).sum

theorem Frame.step_needs {top : Frame} {rest stack : List Frame} {offset k : Nat} {t : Text}
    (h : top.step rest offset t = .ok (stack, k)) :
    0 < k ∧ needs (top :: rest) ≤ needs stack + k := by
  cases top with
  | literal start q =>
    have hq := q.closing_length_eq
    have hpos : 0 < q.closing.length := by rw [hq]; split <;> omega
    simp only [step] at h
    split at h
    · cases h
      exact ⟨hpos, by simp [needs, need, Nat.add_comm]⟩
    · split at h
      · cases h
      · split at h
        · split at h <;> cases h <;> (simp [needs, need]; try omega)
        · cases h
          simp
  | interpolation depth =>
    simp only [step] at h
    split at h
    · cases h
      rename_i q _
      have hq := q.closing_length_eq
      have hc := q.closing_length
      have hpos : 0 < q.closing.length := by rw [hq]; split <;> omega
      simp only [needs, need, List.map_cons, List.sum_cons]
      omega
    · split at h <;> cases h <;> simp [needs, need, Nat.add_comm]

theorem Frame.need_pos (f : Frame) : 0 < f.need := by
  cases f with
  | literal start q => simp only [need, q.closing_length_eq]; split <;> omega
  | interpolation depth => exact Nat.one_pos

theorem needs_cons_pos (top : Frame) (rest : List Frame) : 0 < needs (top :: rest) := by
  have := top.need_pos
  simp only [needs, List.map_cons, List.sum_cons]
  omega

/-- A scan takes at least what its open frames need. -/
theorem scanLiteral_needs {stack : List Frame} {skip offset n : Nat} {t : Text}
    (h : scanLiteral stack skip offset t = .ok n) : offset + skip + needs stack ≤ n := by
  induction t generalizing stack skip offset with
  | nil =>
    match stack with
    | [] => simp only [scanLiteral, Except.ok.injEq] at h; simp [needs]; omega
    | .literal _ _ :: _ | .interpolation _ :: _ => simp [scanLiteral] at h
  | cons c t ih =>
    cases stack with
    | nil => simp only [scanLiteral, Except.ok.injEq] at h; simp [needs]; omega
    | cons top rest =>
      cases skip with
      | succ s =>
        have := ih (by simpa only [scanLiteral] using h)
        omega
      | zero =>
        simp only [scanLiteral] at h
        split at h
        · cases h
        · rename_i stack' k hstep
          have := Frame.step_needs hstep
          have := ih h
          omega

theorem Frame.step_closes {top : Frame} {rest : List Frame} {offset k : Nat} {c : Char} {t : Text}
    (h : top.step rest offset (c :: t) = .ok ([], k)) : k ≤ (c :: t).length := by
  cases top with
  | literal start q =>
    simp only [step] at h
    split at h
    · rename_i hp
      cases h
      exact (List.isPrefixOf_iff_prefix.mp hp).length_le
    · split at h
      · cases h
      · split at h
        · split at h <;> cases h
        · cases h
  | interpolation depth =>
    simp only [step] at h
    split at h
    · cases h
    · split at h <;> cases h
      simp

theorem scanLiteral_le {stack : List Frame} {skip offset n : Nat} {t : Text}
    (h : scanLiteral stack skip offset t = .ok n) (hs : stack = [] → skip ≤ t.length) :
    n ≤ offset + t.length := by
  induction t generalizing stack skip offset with
  | nil =>
    match stack with
    | [] =>
      have := hs rfl
      simp only [scanLiteral, Except.ok.injEq] at h
      omega
    | .literal _ _ :: _ | .interpolation _ :: _ => simp [scanLiteral] at h
  | cons c t ih =>
    cases stack with
    | nil =>
      have := hs rfl
      simp only [scanLiteral, Except.ok.injEq] at h
      omega
    | cons top rest =>
      cases skip with
      | succ s =>
        have := ih (by simpa only [scanLiteral] using h) (by simp)
        simp only [List.length_cons]
        omega
      | zero =>
        simp only [scanLiteral] at h
        split at h
        · cases h
        · rename_i stack' k hstep
          have := ih h fun he => by
            subst he
            have := Frame.step_closes hstep
            simp only [List.length_cons] at this
            omega
          simp only [List.length_cons]
          omega

/-- Pounds do not close an interpolation. -/
theorem scanLiteral_pounds {x r : Text} (hx : ∀ c ∈ x, c = '#') {depth offset n : Nat}
    {rest : List Frame} (h : scanLiteral (.interpolation depth :: rest) 0 offset (x ++ r) = .ok n) :
    offset + x.length < n := by
  induction x generalizing offset with
  | nil =>
    have := scanLiteral_needs h
    have := needs_cons_pos (.interpolation depth) rest
    simp only [List.length_nil]
    omega
  | cons c x ih =>
    obtain rfl : c = '#' := hx c (by simp)
    cases hq : Quoting.opens? ('#' :: (x ++ r)) with
    | none =>
      simp only [List.cons_append, scanLiteral, Frame.step, hq, List.head?_cons] at h
      have := ih (fun e he => hx e (by simp [he])) h
      simp only [List.length_cons]
      omega
    | some q =>
      -- the delimiter that is opened is longer than all of `x`
      have hall : poundCount ('#' :: x) = ('#' :: x).length := by
        simp only [poundCount, runLength]
        rw [List.takeWhile_eq_self_iff.mpr fun c hc => by simp [hx c hc]]
      have hle : poundCount ('#' :: x) ≤ q.pounds := by
        rw [Quoting.pounds_of_opens? hq]
        exact runLength_mono ('#' :: x) r
      simp only [List.cons_append, scanLiteral, Frame.step, hq] at h
      have hneeds := scanLiteral_needs h
      have := q.closing_length
      have := q.closing_length_eq
      have := needs_cons_pos (.literal offset q) (.interpolation depth :: rest)
      split at * <;> omega

theorem prefix_append_iff_of_le {w x : Text} (h : w.length ≤ x.length) (r : Text) :
    w.isPrefixOf (x ++ r) = w.isPrefixOf x := by
  rw [Bool.eq_iff_iff, List.isPrefixOf_iff_prefix, List.isPrefixOf_iff_prefix]
  exact ⟨fun hp => List.prefix_of_prefix_length_le hp (List.prefix_append x r) h,
    fun hp => hp.trans (List.prefix_append x r)⟩

/-- A step whose frames close within `x` does not look beyond `x`. -/
theorem Frame.step_append {top : Frame} {rest stack : List Frame} {offset k : Nat} {x r : Text}
    (h : top.step rest offset (x ++ r) = .ok (stack, k)) (hk : k + needs stack ≤ x.length)
    (hx : ∀ d, top = .interpolation d → ¬ ∀ c ∈ x, c = '#') (r' : Text) :
    top.step rest offset (x ++ r') = .ok (stack, k) := by
  have hpos := (step_needs h).1
  obtain ⟨c, x, rfl⟩ : ∃ c y, x = c :: y :=
    List.exists_cons_of_length_pos (l := x) (by omega)
  have hhead : ∀ u, ((c :: x) ++ u).head? = some c := fun u => rfl
  cases top with
  | literal start q =>
    have hneed : q.closing.length ≤ (c :: x).length := by
      have := (step_needs h).2
      simp only [needs, need, List.map_cons, List.sum_cons] at this hk
      omega
    have hescape : q.escape.length ≤ (c :: x).length := by
      have := q.closing_length_eq
      have := q.escape_length
      split at * <;> omega
    simp only [step, hhead, prefix_append_iff_of_le hneed, prefix_append_iff_of_le hescape] at h ⊢
    by_cases h3 : q.escape.isPrefixOf (c :: x) = true
    · have hlt : q.closing.isPrefixOf (c :: x) = false → q.escape.length < (c :: x).length := by
        intro h1
        simp only [h1, h3, if_true, Bool.false_eq_true, if_false] at h
        split at h
        · cases h
        · split at h <;> cases h <;> omega
      cases h1 : q.closing.isPrefixOf (c :: x) with
      | true => simpa only [h1, if_true] using h
      | false =>
        have hdrop : ∀ u, (((c :: x) ++ u).drop q.escape.length).head? =
            ((c :: x).drop q.escape.length).head? := fun u => by
          have := hlt h1
          rw [List.drop_append_of_le_length (by omega), List.head?_append_of_ne_nil]
          simp only [ne_eq, List.drop_eq_nil_iff, not_le]
          exact this
        simpa only [h1, hdrop] using h
    · simpa only [h3, Bool.false_eq_true, if_false] using h
  | interpolation depth =>
    have hne := hx depth rfl
    simp only [step, hhead] at h ⊢
    cases hq : Quoting.opens? ((c :: x) ++ r) with
    | some q =>
      simp only [hq] at h
      cases h
      have hlong : poundCount (c :: x) + 3 ≤ (c :: x).length := by
        have hpre : poundCount (c :: x) ≤ q.pounds := by
          rw [Quoting.pounds_of_opens? hq]
          exact runLength_mono _ r
        have := q.closing_length
        have := q.closing_length_eq
        simp only [needs, need, List.map_cons, List.sum_cons] at hk
        split at * <;> omega
      rw [Quoting.opens?_append r hlong] at hq
      rw [Quoting.opens?_append r' hlong, hq]
    | none =>
      have hnone := Quoting.opens?_none_append hne hq r'
      simp only [hq, hnone] at h ⊢
      exact h

theorem scanLiteral_append {stack : List Frame} {skip offset : Nat} {x r : Text}
    (h : scanLiteral stack skip offset (x ++ r) = .ok (offset + x.length)) (r' : Text) :
    scanLiteral stack skip offset (x ++ r') = .ok (offset + x.length) := by
  induction x generalizing stack skip offset with
  | nil =>
    cases stack with
    | nil => simpa [scanLiteral] using h
    | cons top rest =>
      have := scanLiteral_needs h
      have := needs_cons_pos top rest
      simp only [List.length_nil] at *
      omega
  | cons c x ih =>
    cases stack with
    | nil => simpa [scanLiteral] using h
    | cons top rest =>
      rw [show offset + (c :: x).length = offset + 1 + x.length by
        simp only [List.length_cons]; omega] at h ⊢
      cases skip with
      | succ s =>
        simp only [List.cons_append, scanLiteral] at h ⊢
        exact ih h
      | zero =>
        have hpounds : ∀ d, top = .interpolation d → ¬ ∀ e ∈ c :: x, e = '#' := by
          rintro d rfl hall
          have := scanLiteral_pounds hall h
          simp only [List.length_cons] at this
          omega
        simp only [List.cons_append, scanLiteral] at h ⊢
        cases hstep : top.step rest offset (c :: (x ++ r)) with
        | error e => simp [hstep] at h
        | ok next =>
          obtain ⟨stack', k⟩ := next
          simp only [hstep] at h
          have hpos := (Frame.step_needs hstep).1
          have hneeds := scanLiteral_needs h
          have hk : k + needs stack' ≤ (c :: x).length := by
            simp only [List.length_cons]
            omega
          have := Frame.step_append (x := c :: x) hstep hk hpounds r'
          simp only [List.cons_append] at this
          simp only [this]
          exact ih h

/-- The outermost literal stays open until its closing delimiter is met. -/
theorem Frame.step_getLast {top : Frame} {rest stack : List Frame} {offset k start : Nat}
    {q : Quoting} {t : Text} (hq : (top :: rest).getLast? = some (.literal start q))
    (h : top.step rest offset t = .ok (stack, k)) :
    (stack = [] ∧ k = q.closing.length ∧ q.closing <+: t) ∨
      stack.getLast? = some (.literal start q) := by
  have hrest : ∀ f fs, rest = f :: fs → rest.getLast? = some (.literal start q) := by
    rintro f fs rfl
    simpa using hq
  cases top with
  | literal start' q' =>
    simp only [step] at h
    split at h
    · rename_i hp
      cases h
      cases rest with
      | nil =>
        cases hq
        exact .inl ⟨rfl, rfl, List.isPrefixOf_iff_prefix.mp hp⟩
      | cons f fs => exact .inr (hrest f fs rfl)
    · split at h
      · cases h
      · split at h
        · split at h <;> cases h
          · exact .inr (by simpa using hq)
          · exact .inr hq
        · cases h
          exact .inr hq
  | interpolation depth =>
    obtain ⟨f, fs, rfl⟩ : ∃ f fs, rest = f :: fs := by
      cases rest with
      | nil => cases hq
      | cons f fs => exact ⟨f, fs, rfl⟩
    have hlast := hrest f fs rfl
    simp only [step] at h
    split at h
    · cases h
      exact .inr (by simpa using hlast)
    · split at h <;> cases h <;> exact .inr (by simpa using hlast)

/-- A literal ends with the delimiter that closes it. -/
theorem scanLiteral_suffix {stack : List Frame} {skip offset start : Nat} {q : Quoting}
    {x r : Text} (hq : stack.getLast? = some (.literal start q))
    (h : scanLiteral stack skip offset (x ++ r) = .ok (offset + x.length)) : q.closing <:+ x := by
  induction x generalizing stack skip offset with
  | nil =>
    cases stack with
    | nil => simp at hq
    | cons top rest =>
      have := scanLiteral_needs h
      have := needs_cons_pos top rest
      simp only [List.length_nil] at *
      omega
  | cons c x ih =>
    cases stack with
    | nil => simp at hq
    | cons top rest =>
      rw [show offset + (c :: x).length = offset + 1 + x.length by
        simp only [List.length_cons]; omega] at h
      cases skip with
      | succ s =>
        simp only [List.cons_append, scanLiteral] at h
        exact (ih hq h).trans (List.suffix_cons c x)
      | zero =>
        simp only [List.cons_append, scanLiteral] at h
        cases hstep : top.step rest offset (c :: (x ++ r)) with
        | error e => simp [hstep] at h
        | ok next =>
          obtain ⟨stack', k⟩ := next
          simp only [hstep] at h
          rcases Frame.step_getLast hq hstep with ⟨rfl, rfl, hp⟩ | hlast
          · have hpos := (Frame.step_needs hstep).1
            simp only [scanLiteral, Except.ok.injEq] at h
            have hlen : q.closing.length = (c :: x).length := by
              simp only [List.length_cons]
              omega
            have hp' := List.prefix_of_prefix_length_le hp (List.prefix_append (c :: x) r) hlen.le
            rw [hp'.eq_of_length hlen]
          · exact (ih hlast h).trans (List.suffix_cons c x)

end Literals

end SwiftMacros.Token
