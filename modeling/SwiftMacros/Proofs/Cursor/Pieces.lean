import Mathlib
import SwiftMacros.Proofs.Cursor.Arranged
import SwiftMacros.Proofs.Token.Coordinates

/-! Operators in pieces. An operator can be split behind any of its characters but the last, and each
part again. What comes of it is told twice: as a number of single splits, which is how a cursor makes
them, and as pieces that take up the operator from its start to its end. -/

namespace SwiftMacros

/-- The line starts where it did if no line end is between them. -/
theorem Text.lineStart_eq {s : Text} {a b : Nat} (hab : a ≤ b) (hb : b ≤ s.length)
    (h : '\n' ∉ slice s a b) : lineStart s b = lineStart s a := by
  induction b, hab using Nat.le_induction with
  | base => rfl
  | succ b hab ih =>
    rw [← slice_append_slice hab (Nat.le_succ b), List.mem_append, not_or] at h
    have hget : s[b]? = some s[b] := List.getElem?_eq_getElem hb
    have hne : s[b] ≠ '\n' := by
      rintro heq
      apply h.2
      rw [slice, Nat.succ_eq_add_one, Nat.add_sub_cancel_left, List.drop_eq_getElem_cons hb, heq]
      exact List.mem_cons_self
    rw [lineStart_succ hget, if_neg hne, ih (by omega) h.1]

namespace Token

/-- The first `n` characters of an operator as a token of its own. -/
def firstPart (t : Token) (n : Nat) : Token := { t with text := t.text.take n, stop := t.start + n }

/-- What an operator is without its first `n` characters. -/
def secondPart (t : Token) (n : Nat) : Token :=
  ⟨t.kind, t.text.drop n, t.line, t.column + n, t.start + n, t.stop, false, false⟩

/-- The second list is the first with one operator split in two parts, neither of them empty. -/
def SplitOnce (ts us : List Token) : Prop :=
  ∃ xs t n ys, ts = xs ++ t :: ys ∧ us = xs ++ t.firstPart n :: t.secondPart n :: ys ∧
    t.kind = .operator ∧ 0 < n ∧ n < t.text.length

/-- The second list is the first after any number of splits. -/
def Splits : List Token → List Token → Prop := Relation.ReflTransGen SplitOnce

namespace Splits

variable {ts us vs : List Token}

theorem refl (ts : List Token) : Splits ts ts := Relation.ReflTransGen.refl

theorem trans (h : Splits ts us) (h' : Splits us vs) : Splits ts vs := Relation.ReflTransGen.trans h h'

/-- Splits behind other tokens. -/
theorem append (xs : List Token) (h : Splits ts us) : Splits (xs ++ ts) (xs ++ us) := by
  refine Relation.ReflTransGen.lift (xs ++ ·) (fun a b hab => ?_) _ _ h
  obtain ⟨ys, t, n, zs, rfl, rfl, hk, hn, hlt⟩ := hab
  exact ⟨xs ++ ys, t, n, zs, by simp, by simp, hk, hn, hlt⟩

theorem single {t : Token} {n : Nat} (hk : t.kind = .operator) (hn : 0 < n) (hlt : n < t.text.length)
    (ts : List Token) : Splits (t :: ts) (t.firstPart n :: t.secondPart n :: ts) :=
  Relation.ReflTransGen.single ⟨[], t, n, ts, rfl, rfl, hk, hn, hlt⟩

/-- The first token starts where it did. -/
theorem head_start (h : Splits ts us) : us.head?.map Token.start = ts.head?.map Token.start := by
  induction h with
  | refl => rfl
  | tail _ hs ih =>
    obtain ⟨xs, t, n, ys, rfl, rfl, -⟩ := hs
    rw [← ih]
    cases xs <;> rfl

/-- The first token stays what it was, unless it is an operator. -/
theorem head_eq {t : Token} (h : Splits (t :: ts) us) (hk : t.kind ≠ .operator) : us.head? = some t := by
  induction h with
  | refl => rfl
  | tail _ hs ih =>
    obtain ⟨xs, u, n, ys, rfl, rfl, hku, -⟩ := hs
    cases xs with
    | nil => exact absurd (Option.some.inj ih ▸ hku) hk
    | cons x xs => exact ih

end Splits

/-- The tokens are `t`, or the pieces of `t` if it is an operator. They follow each other from the
start of `t` to its end, stand in its line as many columns further as they start behind it, and the
first alone tells of the trivia before it. -/
structure InPieces (t : Token) (us : List Token) : Prop where
  whole : t.kind ≠ .operator → us = [t]
  text : us.flatMap Token.text = t.text
  covers : Covers t.start t.stop us
  kind : ∀ u ∈ us, u.kind = t.kind
  length : ∀ u ∈ us, u.text.length = u.stop - u.start
  line : ∀ u ∈ us, u.line = t.line
  column : ∀ u ∈ us, t.start ≤ u.start ∧ u.column = t.column + (u.start - t.start)
  first : ∀ u ∈ us.head?, u.newlineBefore = t.newlineBefore ∧ u.spaceBefore = t.spaceBefore
  others : ∀ u ∈ us.tail, u.newlineBefore = false ∧ u.spaceBefore = false

/-- The second list is the first with some operators in pieces. -/
def Pieced (ts us : List Token) : Prop := ∃ uss, us = uss.flatten ∧ List.Forall₂ InPieces ts uss

theorem Covers.append_iff {a b : Nat} {ts us : List Token} :
    Covers a b (ts ++ us) ↔ ∃ m, Covers a m ts ∧ Covers m b us := by
  induction ts generalizing a with
  | nil => exact ⟨fun h => ⟨a, rfl, h⟩, fun ⟨m, hm, h⟩ => by rw [show a = m from hm]; exact h⟩
  | cons t ts ih =>
    simp only [List.cons_append, Covers, ih]
    exact ⟨fun ⟨h1, h2, m, h3, h4⟩ => ⟨m, ⟨h1, h2, h3⟩, h4⟩,
      fun ⟨m, ⟨h1, h2, h3⟩, h4⟩ => ⟨h1, h2, m, h3, h4⟩⟩

theorem Covers.bounds {a b : Nat} {ts : List Token} (h : Covers a b ts) :
    a ≤ b ∧ ∀ t ∈ ts, a ≤ t.start ∧ t.start < t.stop ∧ t.stop ≤ b := by
  induction ts generalizing a with
  | nil => exact ⟨(show a = b from h).le, by simp⟩
  | cons t ts ih =>
    obtain ⟨rfl, hlt, hrest⟩ := h
    obtain ⟨hle, hall⟩ := ih hrest
    refine ⟨by omega, List.forall_mem_cons.mpr ⟨⟨le_rfl, hlt, hle⟩, fun u hu => ?_⟩⟩
    obtain ⟨h1, h2, h3⟩ := hall u hu
    exact ⟨by omega, h2, h3⟩

theorem Covers.pairwise {a b : Nat} {ts : List Token} (h : Covers a b ts) :
    ts.Pairwise fun t u => t.start < u.start := by
  induction ts generalizing a with
  | nil => exact .nil
  | cons t ts ih =>
    obtain ⟨rfl, hlt, hrest⟩ := h
    refine .cons (fun u hu => ?_) (ih hrest)
    have := (hrest.bounds.2 u hu).1
    omega

/-- Texts that make up a part of the source are each the part that they take up of it. -/
theorem Covers.text_eq {s : Text} {us : List Token} {a b : Nat} (h : Covers a b us) (hb : b ≤ s.length)
    (hlen : ∀ u ∈ us, u.text.length = u.stop - u.start)
    (htext : us.flatMap Token.text = Text.slice s a b) :
    ∀ u ∈ us, u.text = Text.slice s u.start u.stop := by
  induction us generalizing a with
  | nil => simp
  | cons u us ih =>
    obtain ⟨rfl, hlt, hrest⟩ := h
    have hle := hrest.bounds.1
    rw [List.flatMap_cons, ← slice_append_slice hlt.le hle] at htext
    obtain ⟨hu, hus⟩ := List.append_inj htext (by
      rw [hlen u (by simp), slice_length (hle.trans hb)])
    exact List.forall_mem_cons.mpr ⟨hu, ih hrest (fun v hv => hlen v (by simp [hv])) hus⟩

namespace InPieces

variable {t u : Token} {us xs ys : List Token} {n : Nat}

theorem refl (hlt : t.start < t.stop) (hlen : t.text.length = t.stop - t.start) : InPieces t [t] := by
  refine ⟨fun _ => rfl, by simp, ⟨rfl, hlt, rfl⟩, ?_, ?_, ?_, ?_, ?_, ?_⟩ <;> simp [hlen]

/-- One more split leaves pieces. -/
theorem split (h : InPieces t (xs ++ u :: ys)) (hk : u.kind = .operator) (hn : 0 < n)
    (hlt : n < u.text.length) : InPieces t (xs ++ u.firstPart n :: u.secondPart n :: ys) := by
  obtain ⟨m, hbefore, hstart, hpos, hrest⟩ := Covers.append_iff.mp h.covers
  have hlen := h.length u (by simp)
  have hcolumn := h.column u (by simp)
  have hall : ∀ P : Token → Prop, (∀ v ∈ xs ++ u :: ys, P v) → P (u.firstPart n) →
      P (u.secondPart n) → ∀ v ∈ xs ++ u.firstPart n :: u.secondPart n :: ys, P v := by
    intro P hP h1 h2 v hv
    simp only [List.mem_append, List.mem_cons] at hv
    rcases hv with hv | rfl | rfl | hv
    · exact hP v (by simp [hv])
    · exact h1
    · exact h2
    · exact hP v (by simp [hv])
  refine ⟨fun hne => absurd ((h.kind u (by simp)).symm.trans hk) hne, ?_, ?_, ?_, ?_, ?_, ?_, ?_, ?_⟩
  · have htext : u.text = (u.firstPart n).text ++ (u.secondPart n).text :=
      (List.take_append_drop n u.text).symm
    rw [← h.text]
    simp [htext]
  · refine Covers.append_iff.mpr ⟨m, hbefore, hstart, ?_, rfl, ?_, hrest⟩
    · simp only [firstPart]
      omega
    · simp only [secondPart]
      omega
  · exact hall _ h.kind (h.kind u (by simp)) (h.kind u (by simp))
  · refine hall _ h.length ?_ ?_
    · simp only [firstPart, List.length_take]
      omega
    · simp only [secondPart, List.length_drop]
      omega
  · exact hall _ h.line (h.line u (by simp)) (h.line u (by simp))
  · refine hall _ h.column hcolumn ?_
    simp only [secondPart]
    omega
  · cases xs with
    | nil => simpa [firstPart] using h.first
    | cons x xs => exact h.first
  · cases xs with
    | nil =>
      have := h.others
      simp only [List.nil_append, List.tail_cons] at this ⊢
      exact List.forall_mem_cons.mpr ⟨⟨rfl, rfl⟩, this⟩
    | cons x xs =>
      have := h.others
      simp only [List.cons_append, List.tail_cons] at this ⊢
      intro v hv
      simp only [List.mem_append, List.mem_cons] at hv
      rcases hv with hv | rfl | rfl | hv
      · exact this v (by simp [hv])
      · exact this u (by simp)
      · exact ⟨rfl, rfl⟩
      · exact this v (by simp [hv])

/-- The pieces of a token are where they say. -/
theorem located {s : Text} (h : InPieces t us) (ht : Located s t) (hp : Placed s t) :
    ∀ u ∈ us, Located s u := by
  intro u hu
  by_cases hk : t.kind = .operator
  · have htext := h.covers.text_eq hp.le h.length (h.text.trans ht.text) u hu
    obtain ⟨hstart, hlt, hstop⟩ := h.covers.bounds.2 u hu
    have hnone : '\n' ∉ Text.slice s t.start u.start := by
      intro hmem
      have hmem' : '\n' ∈ t.text := by
        rw [hp.text, ← slice_append_slice hstart (by omega : u.start ≤ t.stop)]
        exact List.mem_append_left _ hmem
      have := hp.sharp hk _ hmem'
      revert this
      decide
    refine ⟨htext, ?_, ?_⟩
    · have htake : s.take u.start = s.take t.start ++ Text.slice s t.start u.start := by
        simpa [Text.slice] using (slice_append_slice (s := s) (Nat.zero_le _) hstart).symm
      rw [h.line u hu, ht.line, htake, List.count_append, List.count_eq_zero.mpr hnone, Nat.add_zero]
    · rw [Text.lineStart_eq hstart (by have := hp.le; omega) hnone, (h.column u hu).2]
      have := ht.column
      omega
  · rw [h.whole hk, List.mem_singleton] at hu
    exact hu ▸ ht

end InPieces

namespace Pieced

variable {ts us : List Token}

theorem refl (h : ∀ t ∈ ts, t.start < t.stop ∧ t.text.length = t.stop - t.start) : Pieced ts ts := by
  refine ⟨ts.map ([·]), List.flatMap_singleton' ts |>.symm, ?_⟩
  rw [List.forall₂_map_right_iff, List.forall₂_same]
  exact fun t ht => .refl (h t ht).1 (h t ht).2

/-- One more split leaves pieces. -/
theorem splitOnce (h : Pieced ts us) {vs : List Token} (hs : SplitOnce us vs) : Pieced ts vs := by
  obtain ⟨uss, rfl, hall⟩ := h
  obtain ⟨xs, u, n, ys, hsplit, rfl, hk, hn, hlt⟩ := hs
  induction hall generalizing xs with
  | nil => simp at hsplit
  | @cons t us ts uss ht hall ih =>
    rw [List.flatten_cons, List.append_eq_append_iff] at hsplit
    rcases hsplit with ⟨zs, rfl, hzs⟩ | ⟨zs, rfl, hzs⟩
    · -- the split operator is no piece of `t`
      obtain ⟨vss, hvss, hall'⟩ := ih zs hzs
      exact ⟨us :: vss, by simp [← hvss], .cons ht hall'⟩
    · cases zs with
      | nil =>
        obtain ⟨vss, hvss, hall'⟩ := ih [] (by simpa using hzs.symm)
        exact ⟨xs :: vss, by simpa using hvss, .cons (by simpa using ht) hall'⟩
      | cons z zs =>
        rw [List.cons_append, List.cons.injEq] at hzs
        obtain ⟨rfl, rfl⟩ := hzs
        exact ⟨(xs ++ u.firstPart n :: u.secondPart n :: zs) :: uss, by simp,
          .cons (ht.split hk hn hlt) hall⟩

theorem splits (h : Pieced ts us) {vs : List Token} (hs : Splits us vs) : Pieced ts vs := by
  induction hs with
  | refl => exact h
  | tail _ hs ih => exact ih.splitOnce hs

/-- Each token is one of the pieces of a token. -/
theorem mem_right (h : Pieced ts us) : ∀ u ∈ us, ∃ t ∈ ts, ∃ vs, InPieces t vs ∧ u ∈ vs := by
  obtain ⟨uss, rfl, hall⟩ := h
  induction hall with
  | nil => simp
  | @cons t vs ts uss ht _ ih =>
    intro u hu
    rcases List.mem_append.mp hu with hu | hu
    · exact ⟨t, by simp, vs, ht, hu⟩
    · obtain ⟨t', ht', h'⟩ := ih u hu
      exact ⟨t', by simp [ht'], h'⟩

/-- A token starts where the first of its pieces does. -/
theorem exists_start (h : Pieced ts us) (hlt : ∀ t ∈ ts, t.start < t.stop) :
    ∀ t ∈ ts, ∃ u ∈ us, u.start = t.start := by
  obtain ⟨uss, rfl, hall⟩ := h
  induction hall with
  | nil => simp
  | @cons t vs ts uss ht _ ih =>
    refine List.forall_mem_cons.mpr ⟨?_, fun t' ht' => ?_⟩
    · have hcovers := ht.covers
      have := hlt t (by simp)
      cases vs with
      | nil => exact absurd (show t.start = t.stop from hcovers) (by omega)
      | cons v vs => exact ⟨v, by simp, hcovers.1⟩
    · obtain ⟨u, hu, hstart⟩ := ih (fun t ht => hlt t (by simp [ht])) t' ht'
      exact ⟨u, by simp [hu], hstart⟩

/-- Tokens in pieces start one behind the other as long as the tokens follow each other. -/
theorem pairwise (h : Pieced ts us) (hts : ts.Pairwise fun t u => t.stop ≤ u.start) :
    us.Pairwise fun t u => t.start < u.start := by
  obtain ⟨uss, rfl, hall⟩ := h
  induction hall with
  | nil => exact .nil
  | @cons t vs ts uss ht hall ih =>
    obtain ⟨hbefore, hts⟩ := List.pairwise_cons.mp hts
    refine List.pairwise_append.mpr ⟨ht.covers.pairwise, ih hts, fun v hv u hu => ?_⟩
    obtain ⟨t', ht', ws, hws, hu⟩ := mem_right ⟨uss, rfl, hall⟩ u hu
    have hv := ht.covers.bounds.2 v hv
    have hu := (hws.covers.bounds.2 u hu).1
    have := hbefore t' ht'
    omega

end Pieced

end Token

end SwiftMacros
