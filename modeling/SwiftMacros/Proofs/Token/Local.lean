import Mathlib
import SwiftMacros.Proofs.Token.Stop

/-! Lexeme classes that are local: what such a class takes from the front of a text is told by the
characters up to the first that no lexeme goes on with. It takes the same if only the text behind
its lexeme changes, a longer text does not lose it, and such a character acts like the end of the
text. -/

namespace SwiftMacros.Token

/-- A text that is empty or starts with a stop. -/
def Stops (r : Text) : Prop := ∀ c ∈ r.head?, isStop c = true

/-- A point in front of `t` starts no fraction. -/
def Pointless (t : Text) : Prop :=
  digitsLength? t = none ∧
    ∀ n, nonemptyRun? isHexPart t = some n → binaryExponentLength? (t.drop n) = none

/-- A text that no number or name goes on with: it is empty, or starts with a stop, a mark, or a
point that starts no fraction. -/
def Free (r : Text) : Prop :=
  ∀ c t, r = c :: t → isStop c = true ∨ isMarkChar c = true ∨ (c = '.' ∧ Pointless t)

/-- No lexeme at the end of `x` goes on with `r`. -/
def Apart (x r : Text) : Prop :=
  Free r ∧ ∀ c ∈ r.head?, ∀ d ∈ x.getLast?,
    (isMarkChar c = true → isOperatorChar d = false ∧ d ≠ '.') ∧ (c = '.' → d ≠ '.')

theorem stops_nil : Stops [] := by simp [Stops]

theorem stops_cons {c : Char} {t : Text} (h : isStop c = true) : Stops (c :: t) := by
  simpa [Stops] using h

theorem Free.isEnd {c : Char} {t : Text} (h : Free (c :: t)) : isEnd c = true := by
  rcases h c t rfl with h | h | ⟨rfl, -⟩
  · exact isEnd_of_isStop h
  · simp [Token.isEnd, h]
  · decide

theorem Free.pointless {t : Text} (h : Free ('.' :: t)) : Pointless t := by
  rcases h '.' t rfl with h | h | ⟨-, h⟩
  · exact absurd (by decide) (not_mark_of_isStop h)
  · cases h
  · exact h

theorem free_of_mark {r : Text} {c : Char} (hr : r.head? = some c) (hc : isMarkChar c = true) :
    Free r := by
  rintro d t rfl
  cases hr
  exact .inr (.inl hc)

theorem Stops.free {r : Text} (h : Stops r) : Free r := by
  rintro c t rfl
  exact .inl (h c (by simp))

theorem Stops.apart {r : Text} (h : Stops r) (x : Text) : Apart x r := by
  refine ⟨h.free, fun c hc d _ => ?_⟩
  have hmark := not_mark_of_isStop (h c hc)
  constructor
  · intro hm
    simp only [isMarkChar, Bool.or_eq_true, beq_iff_eq] at hm
    rcases hm with ((rfl | rfl) | rfl) | rfl <;> exact absurd (by decide) hmark
  · rintro rfl
    exact absurd (by decide) hmark

theorem Apart.of_suffix {x y r : Text} (h : Apart x r) (hy : y <:+ x) : Apart y r := by
  refine ⟨h.1, fun c hc d hd => h.2 c hc d ?_⟩
  obtain ⟨z, rfl⟩ := hy
  rw [List.getLast?_append_of_ne_nil z (by rintro rfl; simp at hd)]
  exact hd

/-- `A x r` tells that what stands at the end of `x` does not go on with `r`. -/
class Sep (A : Text → Text → Prop) : Prop where
  free {x r : Text} : A x r → Free r
  of_suffix {x y r : Text} : A x r → y <:+ x → A y r

instance : Sep Apart := ⟨And.left, Apart.of_suffix⟩

instance : Sep fun _ r => Free r := ⟨id, fun h _ => h⟩

/-- The class `f` does not look beyond the first character behind its lexeme that no lexeme goes on
with, as `A` tells. -/
structure Local (A : Text → Text → Prop) (f : Text → Option Nat) : Prop where
  le {t : Text} {n : Nat} : f t = some n → 0 < n ∧ n ≤ t.length
  keep {x r : Text} {n : Nat} : f (x ++ r) = some n → n ≤ x.length → f x = some n
  grow {x : Text} {n : Nat} (r : Text) : f x = some n → ∃ m, f (x ++ r) = some m
  stop {x r : Text} : x ≠ [] → A x r → f (x ++ r) = f x

section Runs

variable {p : Char → Bool}

@[simp]
theorem runLength_nil : runLength p [] = 0 := rfl

theorem runLength_cons (c : Char) (t : Text) :
    runLength p (c :: t) = if p c then 1 + runLength p t else 0 := by
  by_cases h : p c <;> simp [runLength, h, Nat.add_comm]

theorem runLength_le (t : Text) : runLength p t ≤ t.length := (List.takeWhile_prefix p).length_le

theorem runLength_mono (x r : Text) : runLength p x ≤ runLength p (x ++ r) := by
  induction x with
  | nil => simp
  | cons c x ih =>
    simp only [List.cons_append, runLength_cons]
    split <;> omega

theorem runLength_append_of_lt {x : Text} (h : runLength p x < x.length) (r : Text) :
    runLength p (x ++ r) = runLength p x := by
  induction x with
  | nil => simp at h
  | cons c x ih =>
    simp only [List.cons_append, runLength_cons, List.length_cons] at h ⊢
    split
    · rename_i hc
      rw [ih (by simp only [hc, if_true] at h; omega)]
    · rfl

/-- A run that stays within `x` is told by `x` alone. -/
theorem runLength_keep {x r : Text} (h : runLength p (x ++ r) ≤ x.length) :
    runLength p (x ++ r) = runLength p x := by
  rcases Nat.lt_or_ge (runLength p x) x.length with hlt | hge
  · exact runLength_append_of_lt hlt r
  · have := runLength_mono (p := p) x r
    omega

theorem runLength_stop {r : Text} (h : ∀ c ∈ r.head?, p c = false) (x : Text) :
    runLength p (x ++ r) = runLength p x := by
  induction x with
  | nil =>
    cases r with
    | nil => rfl
    | cons c r => simp [runLength_cons, h c (by simp)]
  | cons c x ih => simp only [List.cons_append, runLength_cons, ih]

/-- A run takes all of `x` and nothing behind it. -/
theorem of_runLength_eq {p : Char → Bool} {x u : Text} (h : x.length ≤ runLength p (x ++ u)) :
    (∀ c ∈ x, p c = true) ∧ (runLength p (x ++ u) = x.length → ∀ c ∈ u.head?, p c = false) := by
  induction x with
  | nil =>
    refine ⟨by simp, fun h c hc => ?_⟩
    cases u with
    | nil => simp at hc
    | cons d u =>
      simp only [List.head?_cons, Option.mem_some_iff] at hc
      subst hc
      simp only [List.nil_append, runLength_cons, List.length_nil] at h
      by_contra hd
      rw [Bool.not_eq_false] at hd
      simp [hd] at h
  | cons c x ih =>
    simp only [List.cons_append, runLength_cons, List.length_cons] at h ⊢
    cases hc : p c with
    | false => simp [hc] at h
    | true =>
      simp only [hc, if_true] at h ⊢
      obtain ⟨h1, h2⟩ := ih (by omega)
      exact ⟨by simpa [hc] using h1, fun he => h2 (by omega)⟩

end Runs

theorem Ends.runLength_append {p : Char → Bool} (hp : Ends p) {r : Text} (hr : Free r)
    (x : Text) : runLength p (x ++ r) = runLength p x := by
  refine runLength_stop (fun c hc => ?_) x
  cases r with
  | nil => simp at hc
  | cons d r =>
    simp only [List.head?_cons, Option.mem_some_iff] at hc
    subst hc
    exact hp d hr.isEnd

/-- A run ends with a text whose last character is not of its kind. -/
theorem runLength_last {p : Char → Bool} {x : Text} {d : Char} (hd : x.getLast? = some d)
    (hp : p d = false) (r : Text) : runLength p (x ++ r) = runLength p x := by
  apply runLength_append_of_lt
  obtain ⟨y, rfl⟩ := List.getLast?_eq_some_iff.mp hd
  rw [runLength_stop (r := [d]) (by simpa using hp)]
  have := runLength_le (p := p) y
  simp only [List.length_append, List.length_cons, List.length_nil]
  omega

namespace Local

variable {A : Text → Text → Prop} [Sep A]

omit [Sep A] in
/-- The first of two local classes that fits is local. -/
theorem or {f g : Text → Option Nat} (hf : Local A f) (hg : Local A g) :
    Local A fun t => (f t).or (g t) where
  le {t n} h := by
    rcases Option.or_eq_some_iff.mp h with h | ⟨-, h⟩
    · exact hf.le h
    · exact hg.le h
  keep {x r n} h hn := by
    rcases Option.or_eq_some_iff.mp h with h | ⟨hnone, h⟩
    · simp [hf.keep h hn]
    · cases hx : f x with
      | none => simp [hg.keep h hn]
      | some m =>
        obtain ⟨k, hk⟩ := hf.grow r hx
        simp [hk] at hnone
  grow {x n} r h := by
    rcases Option.or_eq_some_iff.mp h with h | ⟨-, h⟩
    · obtain ⟨m, hm⟩ := hf.grow r h
      exact ⟨m, by simp [hm]⟩
    · obtain ⟨m, hm⟩ := hg.grow r h
      cases hx : f (x ++ r) with
      | none => exact ⟨m, by simp [hm]⟩
      | some k => exact ⟨k, by simp⟩
  stop {x r} hx hr := by simp only [hf.stop hx hr, hg.stop hx hr]

/-- A first character that satisfies `p`, and the run of `q` behind it. -/
theorem leadRun {p q : Char → Bool} (hq : Ends q) {f : Text → Option Nat} (hnil : f [] = none)
    (hcons : ∀ c t, f (c :: t) = if p c then some (1 + runLength q t) else none) : Local A f where
  le {t n} h := by
    cases t with
    | nil => simp [hnil] at h
    | cons c t =>
      simp only [hcons, Option.ite_none_right_eq_some, Option.some.injEq] at h
      have := runLength_le (p := q) t
      simp only [List.length_cons]
      omega
  keep {x r n} h hn := by
    cases x with
    | nil =>
      cases r with
      | nil => simpa using h
      | cons c r =>
        simp only [List.nil_append, hcons, Option.ite_none_right_eq_some, Option.some.injEq] at h
        simp only [List.length_nil] at hn
        omega
    | cons c x =>
      simp only [List.cons_append, hcons, Option.ite_none_right_eq_some, Option.some.injEq] at h ⊢
      simp only [List.length_cons] at hn
      obtain ⟨hc, rfl⟩ := h
      exact ⟨hc, by rw [runLength_keep (by omega)]⟩
  grow {x n} r h := by
    cases x with
    | nil => simp [hnil] at h
    | cons c x =>
      simp only [hcons, Option.ite_none_right_eq_some] at h
      exact ⟨_, by simp only [List.cons_append, hcons, h.1, if_true]; rfl⟩
  stop {x r} hx hr := by
    cases x with
    | nil => contradiction
    | cons c x => simp only [List.cons_append, hcons, hq.runLength_append (Sep.free hr)]

/-- A nonempty run of a property that no stop has. -/
theorem run {p : Char → Bool} (hp : Ends p) : Local A (nonemptyRun? p) := by
  refine leadRun (p := p) hp rfl fun c t => ?_
  simp only [nonemptyRun?, runLength_cons]
  by_cases h : p c
  · simp only [h, if_true]
    rw [Nat.add_comm]
    rfl
  · simp [h]

/-- A single character. -/
theorem char (p : Char → Bool) : Local A (charLength? p) := by
  refine leadRun (p := p) (q := fun _ => false) (fun _ _ => rfl) rfl fun c t => ?_
  have : runLength (fun _ => false) t = 0 := by cases t <;> rfl
  simp [charLength?, this]

/-- A class that fits no free text takes the same behind any prefix. -/
theorem stop_of_free {g : Text → Option Nat} (hg : Local A g) (hfree : ∀ r, Free r → g r = none)
    {x r : Text} (hr : A x r) : g (x ++ r) = g x := by
  rcases eq_or_ne x [] with rfl | hx
  · rw [List.nil_append, hfree r (Sep.free hr), hfree [] stops_nil.free]
  · exact hg.stop hx hr

omit [Sep A] in
theorem eq_none_of_append {g : Text → Option Nat} (hg : Local A g) {x r : Text}
    (h : g (x ++ r) = none) : g x = none := by
  cases hx : g x with
  | none => rfl
  | some n =>
    obtain ⟨m, hm⟩ := hg.grow r hx
    simp [hm] at h

/-- A first character that satisfies `q`, and what a local class takes behind it. -/
theorem sigil {q : Char → Bool} {f g : Text → Option Nat} (hg : Local A g)
    (hfree : ∀ r, Free r → g r = none) (hnil : f [] = none)
    (hcons : ∀ d t, f (d :: t) = if q d then (g t).map (1 + ·) else none) : Local A f where
  le {t n} h := by
    cases t with
    | nil => simp [hnil] at h
    | cons d t =>
      simp only [hcons, Option.ite_none_right_eq_some, Option.map_eq_some_iff] at h
      obtain ⟨-, m, hm, rfl⟩ := h
      have := hg.le hm
      simp only [List.length_cons]
      omega
  keep {x r n} h hn := by
    cases x with
    | nil =>
      cases r with
      | nil => simpa using h
      | cons d r =>
        simp only [List.nil_append, hcons, Option.ite_none_right_eq_some,
          Option.map_eq_some_iff] at h
        obtain ⟨-, m, -, rfl⟩ := h
        simp only [List.length_nil] at hn
        omega
    | cons d x =>
      simp only [List.cons_append, hcons, Option.ite_none_right_eq_some,
        Option.map_eq_some_iff] at h ⊢
      obtain ⟨hd, m, hm, rfl⟩ := h
      simp only [List.length_cons] at hn
      exact ⟨hd, m, hg.keep hm (by omega), rfl⟩
  grow {x n} r h := by
    cases x with
    | nil => simp [hnil] at h
    | cons d x =>
      simp only [hcons, Option.ite_none_right_eq_some, Option.map_eq_some_iff] at h
      obtain ⟨hd, m, hm, rfl⟩ := h
      obtain ⟨k, hk⟩ := hg.grow r hm
      exact ⟨1 + k, by simp [hcons, hd, hk]⟩
  stop {x r} hx hr := by
    cases x with
    | nil => contradiction
    | cons d x =>
      simp only [List.cons_append, hcons,
        hg.stop_of_free hfree (Sep.of_suffix hr (List.suffix_cons d x))]

omit [Sep A] in
/-- One of two classes, chosen by the first character. -/
theorem choose {q : Char → Bool} {f g h : Text → Option Nat} (hg : Local A g) (hh : Local A h)
    (hnil : f [] = none) (hcons : ∀ d t, f (d :: t) = if q d then g (d :: t) else h (d :: t)) :
    Local A f where
  le {t n} hf := by
    cases t with
    | nil => simp [hnil] at hf
    | cons d t =>
      rw [hcons] at hf
      split at hf
      · exact hg.le hf
      · exact hh.le hf
  keep {x r n} hf hn := by
    cases x with
    | nil =>
      cases r with
      | nil => simpa using hf
      | cons d r =>
        rw [List.nil_append, hcons] at hf
        have : 0 < n := by
          split at hf
          · exact (hg.le hf).1
          · exact (hh.le hf).1
        simp only [List.length_nil] at hn
        omega
    | cons d x =>
      rw [List.cons_append, hcons] at hf
      rw [hcons]
      split at hf <;> rename_i hq
      · rw [if_pos hq]
        exact hg.keep hf hn
      · rw [if_neg hq]
        exact hh.keep hf hn
  grow {x n} r hf := by
    cases x with
    | nil => simp [hnil] at hf
    | cons d x =>
      rw [hcons] at hf
      rw [List.cons_append, hcons]
      split at hf <;> rename_i hq
      · rw [if_pos hq]
        exact hg.grow r hf
      · rw [if_neg hq]
        exact hh.grow r hf
  stop {x r} hx hr := by
    cases x with
    | nil => contradiction
    | cons d x =>
      have hg' : g (d :: (x ++ r)) = g (d :: x) := hg.stop hx hr
      have hh' : h (d :: (x ++ r)) = h (d :: x) := hh.stop hx hr
      rw [List.cons_append, hcons, hcons, hg', hh']

/-- What `f` takes and `g` behind it, where `f` cannot take more than it does before another
character. -/
theorem andThen {f g h : Text → Option Nat} (hf : Local A f) (hg : Local A g)
    (hstay : ∀ x r n, f x = some n → n < x.length → f (x ++ r) = some n)
    (hfree : ∀ r, Free r → g r = none)
    (heq : ∀ t, h t = (f t).bind fun n => (g (t.drop n)).map (n + ·)) : Local A h where
  le {t k} hk := by
    simp only [heq, Option.bind_eq_some_iff, Option.map_eq_some_iff] at hk
    obtain ⟨n, hn, m, hm, rfl⟩ := hk
    have h1 := hf.le hn
    have h2 := hg.le hm
    simp only [List.length_drop] at h2
    omega
  keep {x r k} hk hle := by
    simp only [heq, Option.bind_eq_some_iff, Option.map_eq_some_iff] at hk ⊢
    obtain ⟨n, hn, m, hm, rfl⟩ := hk
    have hn' := hf.keep hn (by omega)
    refine ⟨n, hn', m, ?_, rfl⟩
    rw [List.drop_append_of_le_length (by omega)] at hm
    exact hg.keep hm (by simp only [List.length_drop]; omega)
  grow {x k} r hk := by
    simp only [heq, Option.bind_eq_some_iff, Option.map_eq_some_iff] at hk
    obtain ⟨n, hn, m, hm, rfl⟩ := hk
    have h2 := hg.le hm
    simp only [List.length_drop] at h2
    obtain ⟨m', hm'⟩ := hg.grow r hm
    refine ⟨n + m', ?_⟩
    rw [heq, hstay x r n hn (by omega), Option.bind_some,
      List.drop_append_of_le_length (by omega), hm', Option.map_some]
  stop {x r} hx hr := by
    rw [heq, heq, hf.stop hx hr]
    cases hn : f x with
    | none => rfl
    | some n =>
      simp only [Option.bind_some, List.drop_append_of_le_length (hf.le hn).2,
        hg.stop_of_free hfree (Sep.of_suffix hr (List.drop_suffix n x))]

/-- What `f` takes, and `g` behind it if `g` fits there. -/
theorem andMaybe {f g h : Text → Option Nat} (hf : Local A f) (hg : Local A g)
    (hfree : ∀ r, Free r → g r = none)
    (heq : ∀ t, h t = (f t).map fun n => n + (g (t.drop n)).getD 0) : Local A h where
  le {t k} hk := by
    simp only [heq, Option.map_eq_some_iff] at hk
    obtain ⟨n, hn, rfl⟩ := hk
    have h1 := hf.le hn
    cases hm : g (t.drop n) with
    | none => simpa using h1
    | some m =>
      have h2 := hg.le hm
      simp only [List.length_drop] at h2
      simp only [Option.getD_some]
      omega
  keep {x r k} hk hle := by
    simp only [heq, Option.map_eq_some_iff] at hk ⊢
    obtain ⟨n, hn, rfl⟩ := hk
    have hn' := hf.keep hn (by omega)
    refine ⟨n, hn', ?_⟩
    rw [List.drop_append_of_le_length (by omega)] at hle ⊢
    cases hm : g (x.drop n ++ r) with
    | none => rw [hg.eq_none_of_append hm]
    | some m =>
      rw [hm, Option.getD_some] at hle
      rw [hg.keep hm (by simp only [List.length_drop]; omega)]
  grow {x k} r hk := by
    simp only [heq, Option.map_eq_some_iff] at hk
    obtain ⟨n, hn, -⟩ := hk
    obtain ⟨m, hm⟩ := hf.grow r hn
    exact ⟨_, by rw [heq, hm, Option.map_some]⟩
  stop {x r} hx hr := by
    rw [heq, heq, hf.stop hx hr]
    cases hn : f x with
    | none => rfl
    | some n =>
      simp only [Option.map_some, List.drop_append_of_le_length (hf.le hn).2,
        hg.stop_of_free hfree (Sep.of_suffix hr (List.drop_suffix n x))]

end Local

end SwiftMacros.Token
