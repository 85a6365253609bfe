import Mathlib
import SwiftMacros.Proofs.Token.Segment
import SwiftMacros.Proofs.Token.Spots

/-! Segments in a text that has been put together. Where lines have been moved and parts have been laid out
anew, what stands behind a token up to the end of its block stays as it was: the same lexemes, with the same gaps
in front of them. A text holds segments if this is so behind each lexeme of some kind, and it holds those that its
parts hold. -/

/-- Related lists are divided at the same place. -/
theorem List.Forall₂.divide {α β : Type} {R : α → β → Prop} {as : List α} {bs cs : List β} (h : as.Forall₂ R (bs ++ cs)) :
    ∃ xs ys, as = xs ++ ys ∧ xs.Forall₂ R bs ∧ ys.Forall₂ R cs :=
  ⟨_, _, (List.take_append_drop bs.length as).symm, List.forall₂_take_append _ _ _ h, List.forall₂_drop_append _ _ _ h⟩

theorem List.Forall₂.divide_at {α β : Type} {R : α → β → Prop} {as : List α} {bs cs : List β} {b : β}
    (h : as.Forall₂ R (bs ++ b :: cs)) : ∃ xs a ys, as = xs ++ a :: ys ∧ xs.Forall₂ R bs ∧ R a b ∧ ys.Forall₂ R cs := by
  obtain ⟨xs, ys, rfl, hxs, hys⟩ := h.divide
  cases hys with
  | cons hb hcs => exact ⟨xs, _, _, rfl, hxs, hb, hcs⟩

theorem List.Forall₂.block {α β : Type} {R : α → β → Prop} {A B : List α} {o z : α} {us : List β}
    (h : (A ++ o :: B ++ [z]).Forall₂ R us) : ∃ A' o' B' z', us = A' ++ o' :: B' ++ [z'] ∧ A.Forall₂ R A' ∧ R o o' ∧
      B.Forall₂ R B' ∧ R z z' := by
  rw [List.append_assoc, List.cons_append] at h
  obtain ⟨A', o', ys, rfl, hA, ho, hys⟩ := h.flip.divide_at
  obtain ⟨B', z', ws, rfl, hB, hz, hws⟩ := hys.divide_at
  cases hws
  exact ⟨A', o', B', z', by simp, hA.flip, ho, hB.flip, hz⟩

namespace SwiftMacros.Token

/-- The tokens are alike, and so are the gaps in front of them, unless they are closing marks. -/
structure Akin (t u : Token) : Prop extends Alike t u where
  gap : t.isCloser = false → u.newlineBefore = t.newlineBefore ∧ u.spaceBefore = t.spaceBefore

/-- The lexeme is that of the token, and so is the gap in front of it, unless it is a closing mark. -/
structure Shown (t : Token) (p : Spot) : Prop where
  kind : p.2.1 = t.kind
  text : t.kind ≠ .string → p.2.2 = t.text
  gap : t.isCloser = false → p.1 = ⟨t.newlineBefore, t.spaceBefore⟩

/-- Behind each lexeme that `m` tells stands what is behind a token: `K` tells which tokens, and what is behind
them. -/
def Held (m : Word → Bool) (K : Token → List Token → Prop) (ls : List Spot) : Prop :=
  ∀ xs p ys, ls = xs ++ p :: ys → m p.2 = true →
    ∃ t s σ R, K t s ∧ t.word = p.2 ∧ ys = σ ++ R ∧ s.Forall₂ Shown σ

/-- The text is scanned to its end, and its lexemes hold what is behind tokens. -/
def Bears (m : Word → Bool) (K : Token → List Token → Prop) (x : Text) : Prop :=
  ∀ g, ∃ ls k, Scans g x ls [] k ∧ Held m K ls

variable {m : Word → Bool} {K : Token → List Token → Prop} {t u : Token} {ts us s : List Token} {ls ms : List Spot}
  {g k : Gap} {x y : Text} {ws : List Word}

section Shallow

/-- Calls in the tokens are in one another at most `n` deep. -/
def Shallow (m : Word → Bool) : Nat → List Token → Prop
  | 0, ts => ∀ t ∈ ts, m t.word = false
  | n + 1, ts => ∀ xs t s ys, ts = xs ++ t :: s ++ ys → m t.word = true → segment [] false s = true → Shallow m n s

theorem Shallow.of_none {n : Nat} (h : ∀ t ∈ ts, m t.word = false) : Shallow m n ts := by
  cases n with
  | zero => exact h
  | succ n =>
    rintro xs t s ys rfl ht
    simp [h t (by simp)] at ht

/-- Calls are as deep in tokens that are alike. -/
theorem Shallow.alike {n : Nat} (h : Shallow m n ts) (hm : ∀ w, m w = true → w.1 ≠ .string)
    (hts : ts.Forall₂ Alike us) : Shallow m n us := by
  have hword : ∀ {t u}, Alike t u → m u.word = true → m t.word = true := fun {t u} hu hw => by
    rcases hu.cases with ⟨-, hk⟩ | ⟨hk, htext⟩
    · exact absurd hk (hm _ hw)
    · rwa [word, ← hk, ← htext]
  induction n generalizing ts us with
  | zero =>
    intro u hu
    obtain ⟨xs, ys, rfl⟩ := List.append_of_mem hu
    obtain ⟨_, t, _, rfl, -, htu, -⟩ := hts.divide_at
    by_contra hw
    simpa [h t (by simp)] using hword htu (by simpa using hw)
  | succ n ih =>
    rintro xs' u s' ys' rfl hu hs'
    rw [List.append_assoc, List.cons_append] at hts
    obtain ⟨xs, t, _, rfl, -, htu, hts⟩ := hts.divide_at
    obtain ⟨s, ys, rfl, hs, -⟩ := hts.divide
    exact ih (h xs t s ys (by simp) (hword htu hu) (by rwa [segment_alike hs] at hs')) hs

/-- Splitting operators makes no difference. -/
theorem Refines.shallow_iff {n : Nat} (h : Refines ts us) (hm : ∀ w, m w = true → w.1 ≠ .operator) :
    Shallow m n us ↔ Shallow m n ts := by
  induction n generalizing ts us with
  | zero =>
    constructor
    · intro hus t ht
      by_contra hw
      obtain ⟨xs, ys, rfl⟩ := List.append_of_mem ht
      obtain ⟨_, _, rfl, -⟩ := h.divide_at (hm _ (by simpa using hw))
      exact hw (hus t (by simp))
    · intro hts u hu
      by_contra hw
      obtain ⟨xs, ys, rfl⟩ := List.append_of_mem hu
      obtain ⟨_, _, rfl, -⟩ := h.split_at (hm _ (by simpa using hw))
      exact hw (hts u (by simp))
  | succ n ih =>
    constructor
    · rintro hus xs t s ys rfl ht hs
      rw [List.append_assoc, List.cons_append] at h
      obtain ⟨xs', _, rfl, -, h⟩ := h.divide_at (hm _ ht)
      obtain ⟨s', ys', rfl, hs', -⟩ := h.divide
      exact (ih hs').mp (hus xs' t s' ys' (by simp) ht (by rwa [segment_refines hs']))
    · rintro hts xs t s ys rfl ht hs
      rw [List.append_assoc, List.cons_append] at h
      obtain ⟨xs', _, rfl, -, h⟩ := h.split_at (hm _ ht)
      obtain ⟨s', ys', rfl, hs', -, hsegment⟩ := h.segment_front hs
      exact (ih hs').mpr (hts xs' t s' ys' (by simp) ht hsegment)

end Shallow

section Tails

variable {A B : List Token} {o z : Token} {n : Nat} {xs ys : List Token}

/-- A block in tokens, with operators split. -/
theorem Refines.block (h : Refines (A ++ o :: B ++ [z]) us) (hblock : Block A o B z) :
    ∃ A₁ B₁, us = A₁ ++ o :: B₁ ++ [z] ∧ Refines A A₁ ∧ Refines B B₁ := by
  rw [List.append_assoc, List.cons_append] at h
  obtain ⟨A₁, vs, rfl, hA, h⟩ := h.divide_at (by simp [kind_of_isSymbol hblock.opening])
  obtain ⟨B₁, ws, rfl, hB, hws⟩ := h.divide_at (by simp [kind_of_isSymbol hblock.closing])
  cases hws
  exact ⟨A₁, B₁, by simp, hA, hB⟩

/-- What stands behind a macro up to the end of its block. Words in it have what they ask for, and calls in it are
in one another at most `n` deep. -/
structure Tail (m : Word → Bool) (n : Nat) (s : List Token) : Prop where
  block : ∃ A o B z, s = A ++ o :: B ++ [z] ∧ Block A o B z
  settled : settled s = true
  shallow : Shallow m n s

theorem Alike.symm {t t' : Token} (h : Alike t t') : Alike t' t :=
  ⟨h.kind.symm, fun hk => (h.text (h.kind ▸ hk)).symm⟩

namespace Tail

variable {s' s₁ : List Token} (h : Tail m n s)
include h

theorem segment : segment [] false s = true := by
  obtain ⟨A, o, B, z, rfl, hblock⟩ := h.block
  exact hblock.segment

theorem alike (hm : ∀ w, m w = true → w.1 ≠ .string) (hs : s.Forall₂ Alike s')
    (hliteral : ∀ u ∈ s', u.kind = .string → u.awaitsBlock = false) : Tail m n s' := by
  obtain ⟨A, o, B, z, rfl, hblock⟩ := h.block
  obtain ⟨A', o', B', z', rfl, hA, ho, hB, hz⟩ := hs.block
  exact ⟨⟨A', o', B', z', rfl, hblock.alike hA ho hB hz⟩, settled_alike hs h.settled hliteral, h.shallow.alike hm hs⟩

theorem refined (hm : ∀ w, m w = true → w.1 ≠ .operator) (hs : Refines s s₁) : Tail m n s₁ := by
  obtain ⟨A, o, B, z, rfl, hblock⟩ := h.block
  obtain ⟨A₁, B₁, rfl, hA, hB⟩ := hs.block hblock
  exact ⟨⟨A₁, o, B₁, z, rfl, hblock.refined hA hB⟩, by rw [settled_refines hs, h.settled], (hs.shallow_iff hm).mpr h.shallow⟩

/-- What is behind a macro that stands there is fenced. -/
theorem fenced (hs : s = xs ++ t :: ys) (hk : t.kind = .poundName) (R : List Token) : ∃ f, Fenced [f] (t :: ys ++ R) := by
  obtain ⟨A, o, B, z, rfl, hblock⟩ := h.block
  exact hblock.fenced hs hk h.settled R

/-- The segment behind a macro that stands there ends there. -/
theorem inner (hs : s = xs ++ t :: ys) (hk : t.kind = .poundName) {b : Bool} {us R : List Token}
    (hus : Token.segment [] b us = true) (hpre : us <+: ys ++ R) : ∃ vs, ys = us ++ vs ∧ vs ≠ [] := by
  obtain ⟨A, o, B, z, rfl, hblock⟩ := h.block
  exact hblock.inner hs hk hus hpre

end Tail

end Tails

section Mirror

theorem Akin.front (h : Akin t u) (hk : t.kind = .operator) : Akin t.front u.front :=
  ⟨⟨h.kind, fun _ => by simp [Token.front, h.text (by simp [hk])]⟩, fun _ => h.gap (plain_of_operator hk).2⟩

theorem Akin.back (h : Akin t u) (hk : t.kind = .operator) : Akin t.back u.back :=
  ⟨⟨h.kind, fun _ => by simp [Token.back, h.text (by simp [hk])]⟩, fun _ => ⟨rfl, rfl⟩⟩

/-- Where an operator of a source has been split, what has been split off is a mark. -/
theorem Refines.mark_split {s : Text} (h : Refines (t.back :: ts) us) (hlen : 1 < t.text.length)
    (hjoint : (t.front :: us).IsChain (Joint s)) (hstop : t.stop = t.start + t.text.length)
    (hcut : ∀ p, Cut s p → p ≤ t.start ∨ t.stop ≤ p) : ∃ m, t.text.head? = some m ∧ isMarkChar m = true := by
  obtain ⟨u, us, rfl⟩ : ∃ u vs, us = u :: vs := by
    cases h with
    | keep => exact ⟨_, _, rfl⟩
    | split => exact ⟨_, _, rfl⟩
  rcases (List.isChain_cons_cons.mp hjoint).1 with ⟨-, hend, -⟩ | ⟨-, -, -, -, m, hm, htext⟩
  · have := hcut _ hend
    simp only [Token.front] at this
    omega
  · refine ⟨m, ?_, hm⟩
    have htake : t.text.take 1 = [m] := htext
    cases hx : t.text with
    | nil => simp [hx] at hlen
    | cons c x => simpa [hx] using htake

/-- Operators that have been split in the tokens of one source can be split in those of another one. -/
theorem Refines.mirror {s s' : Text} {ts' us' : List Token} (h : Refines ts' us') (hts : ts.Forall₂ Akin ts')
    (hjoint : us'.IsChain (Joint s'))
    (hapart : ∀ t ∈ ts', t.stop = t.start + t.text.length ∧ ∀ p, Cut s' p → p ≤ t.start ∨ t.stop ≤ p) :
    ∃ us, Refines ts us ∧ us.Forall₂ Akin us' ∧
      ∀ xs ys, Arranged s (xs ++ ts ++ ys) → Arranged s (xs ++ us ++ ys) := by
  induction h generalizing ts with
  | nil =>
    cases hts
    exact ⟨[], .nil, .nil, fun _ _ h => h⟩
  | keep t' h ih =>
    cases hts with
    | @cons t _ _ _ ht hts =>
      obtain ⟨us, hr, hus, hmove⟩ := ih hts hjoint.tail fun u hu => hapart u (List.mem_cons_of_mem _ hu)
      exact ⟨t :: us, .keep t hr, .cons ht hus, fun xs ys hall => by simpa using hmove (xs ++ [t]) ys (by simpa using hall)⟩
  | @split t' ts' us' hk hlen h ih =>
    cases hts with
    | @cons t _ rest _ ht hts =>
      obtain ⟨⟨hstop, hcut⟩, hothers⟩ := List.forall_mem_cons.mp hapart
      obtain ⟨m, hhead, hm⟩ := h.mark_split hlen hjoint hstop hcut
      have hkt : t.kind = .operator := ht.kind.symm.trans hk
      have htext : t'.text = t.text := ht.text (by simp [hkt])
      have hback : ∀ u ∈ t'.back :: ts', u.stop = u.start + u.text.length ∧
          ∀ p, Cut s' p → p ≤ u.start ∨ u.stop ≤ p := by
        refine List.forall_mem_cons.mpr ⟨⟨?_, fun p hp => ?_⟩, hothers⟩
        · simp only [Token.back, List.length_drop]
          omega
        · have := hcut p hp
          simp only [Token.back]
          omega
      obtain ⟨us, hr, hus, hmove⟩ := ih (.cons (ht.back hkt) hts) hjoint.tail hback
      rw [htext] at hhead hlen
      refine ⟨t.front :: us, .split hkt hlen hr, .cons (ht.front hkt) hus, fun xs ys hall => ?_⟩
      have hsplit := Arranged.split (show Arranged s (xs ++ t :: (rest ++ ys)) by simpa using hall) hkt hhead hm hlen
      simpa using hmove (xs ++ [t.front]) ys (by simpa using hsplit)

end Mirror

theorem Shown.of_spot (t : Token) : Shown t (spot t) := ⟨rfl, fun _ => rfl, fun _ => rfl⟩

theorem Shown.akin (h : Shown t (spot u)) : Akin t u :=
  ⟨⟨h.kind, h.text⟩, fun hc => by
    have hgap := h.gap hc
    simp only [spot, Gap.mk.injEq] at hgap
    exact hgap⟩

/-- The lexeme has been moved: only within a literal has it become another. -/
def Spot.Moved (p p' : Spot) : Prop :=
  p'.1 = p.1 ∧ p'.2.1 = p.2.1 ∧ (p.2.1 ≠ .string → p'.2.2 = p.2.2)

theorem Shown.moved {p p' : Spot} (h : Shown t p) (hp : p.Moved p') : Shown t p' :=
  ⟨hp.2.1.trans h.kind, fun ht => (hp.2.2 (h.kind ▸ ht)).trans (h.text ht), fun hc => hp.1.trans (h.gap hc)⟩

theorem Shown.all_moved (h : s.Forall₂ Shown ls) (hls : ls.Forall₂ Spot.Moved ms) : s.Forall₂ Shown ms := by
  induction h generalizing ms with
  | nil => cases hls; exact .nil
  | cons hp _ ih =>
    cases hls with
    | cons hq hqs => exact .cons (hp.moved hq) (ih hqs)

namespace Held

theorem of_none (h : ∀ p ∈ ls, m p.2 = false) : Held m K ls := by
  rintro xs p ys rfl hp
  simp [h p (by simp)] at hp

theorem append (h : Held m K ls) (h' : Held m K ms) : Held m K (ls ++ ms) := by
  intro xs p ys heq hp
  rcases List.append_eq_append_iff.mp heq with ⟨zs, rfl, hzs⟩ | ⟨zs, rfl, hzs⟩
  · exact h' zs p ys hzs hp
  · cases zs with
    | nil => exact h' [] p ys hzs.symm hp
    | cons z zs =>
      obtain ⟨rfl, rfl⟩ := List.cons.inj hzs
      obtain ⟨t, s, σ, R, hK, ht, rfl, hs⟩ := h xs _ zs rfl hp
      exact ⟨t, s, σ, R ++ ms, hK, ht, List.append_assoc _ _ _, hs⟩

/-- Lexemes that are moved stay what they are but for literals, and so do the gaps between them. -/
theorem moved (h : Held m K ls) (hm : ∀ w, m w = true → w.1 ≠ .string) (hls : ls.Forall₂ Spot.Moved ms) :
    Held m K ms := by
  rintro xs' p' ys' rfl hp'
  obtain ⟨xs, p, ys, rfl, -, ⟨-, hkind, htext⟩, hys⟩ := hls.divide_at
  have hword : p.2 = p'.2 := Prod.ext hkind.symm (htext (hkind ▸ hm _ hp')).symm
  obtain ⟨t, s, σ, R, hK, ht, rfl, hs⟩ := h xs p ys rfl (hword ▸ hp')
  have hσ := List.forall₂_take σ.length hys
  rw [List.take_left] at hσ
  refine ⟨t, s, ys'.take σ.length, ys'.drop σ.length, hK, ht.trans hword, (List.take_append_drop _ _).symm, ?_⟩
  exact Shown.all_moved hs hσ

/-- With another gap in front of the first lexeme, the others hold what they did. -/
theorem restart (h : Held m K ls) (hwords : ms.map Prod.snd = ls.map Prod.snd) (htail : ms.tail = ls.tail) :
    Held m K ms := by
  rintro xs p ys rfl hp
  cases xs with
  | nil =>
    cases ls with
    | nil => simp at hwords
    | cons q ls =>
      obtain rfl : ys = ls := htail
      have hq : p.2 = q.2 := (List.cons.inj hwords).1
      obtain ⟨t, s, σ, R, hK, ht, hys, hs⟩ := h [] q ys rfl (hq ▸ hp)
      exact ⟨t, s, σ, R, hK, ht.trans hq.symm, hys, hs⟩
  | cons q xs =>
    cases ls with
    | nil => simp at hwords
    | cons r ls =>
      obtain rfl : xs ++ p :: ys = ls := htail
      exact h (r :: xs) p ys rfl hp

/-- The tokens of a source hold what is behind them. -/
theorem of_tokens (h : ∀ t us, t :: us <:+ ts → m t.word = true → ∃ s, s <+: us ∧ K t s) :
    Held m K (ts.map spot) := by
  intro xs p ys heq hp
  obtain ⟨us, vs, rfl, -, hvs⟩ := List.map_eq_append_iff.mp heq
  obtain ⟨t, ws, rfl, rfl, rfl⟩ := List.map_eq_cons_iff.mp hvs
  obtain ⟨s, ⟨R, rfl⟩, hK⟩ := h t ws (List.suffix_append _ _) hp
  refine ⟨t, s, s.map spot, R.map spot, hK, rfl, List.map_append, ?_⟩
  rw [List.forall₂_map_right_iff]
  exact List.forall₂_same.mpr fun t _ => .of_spot t

theorem tokens (h : Held m K (ts.map spot)) (hs : t :: us <:+ ts) (ht : m t.word = true) :
    ∃ u s s', K u s ∧ u.word = t.word ∧ s' <+: us ∧ s.Forall₂ Akin s' := by
  obtain ⟨vs, rfl⟩ := hs
  obtain ⟨u, s, σ, R, hK, hu, hσ, hs⟩ := h (vs.map spot) (spot t) (us.map spot) (by simp) ht
  obtain ⟨s', R', rfl, rfl, -⟩ := List.map_eq_append_iff.mp hσ
  rw [List.forall₂_map_right_iff] at hs
  exact ⟨u, s, s', hK, hu, List.prefix_append _ _, hs.imp fun _ _ h => h.akin⟩

end Held

namespace Bears

theorem of_scans (h : Scans g x ls [] k) (hls : Held m K ls) : Bears m K x := fun g' => by
  obtain ⟨ms, k', hms, hwords, htail⟩ := h.restart g'
  exact ⟨ms, k', hms, hls.restart hwords htail⟩

theorem of_reads (h : Reads x ws []) (hws : ∀ w ∈ ws, m w = false) : Bears m K x := fun g => by
  obtain ⟨ms, k, hms, rfl⟩ := h.scans g
  exact ⟨ms, k, hms, .of_none fun p hp => hws p.2 (List.mem_map_of_mem hp)⟩

theorem nil : Bears m K [] := of_reads (.done []) (by simp)

/-- Texts one behind the other, the second starting where the first one can end. -/
theorem append (h : Bears m K x) (h' : Bears m K y) (hy : Follows x [] y) (hq : y.head? ≠ some '"') :
    Bears m K (x ++ y) := fun g => by
  obtain ⟨ls, j, hls, hheld⟩ := h g
  obtain ⟨ms, k, hms, hheld'⟩ := h' j
  exact ⟨ls ++ ms, k, (hls.append (List.append_nil x).symm hy fun h => absurd h hq).trans hms, hheld.append hheld'⟩

/-- A chunk in front of a text. -/
theorem chunk (hc : Chunk x ws y) (hws : ∀ w ∈ ws, m w = false) (h : Bears m K y) : Bears m K (x ++ y) := fun g => by
  rcases hc.cases_words with rfl | ⟨w, rfl⟩
  · obtain ⟨ms, k, hms, hheld⟩ := h (g.over x)
    exact ⟨ms, k, .pass hc hms, hheld⟩
  · obtain ⟨ms, k, hms, hheld⟩ := h {}
    have hone : Held m K [(g, w)] := .of_none (by simpa using hws w (by simp))
    exact ⟨(g, w) :: ms, k, .take hc hms, hone.append hheld⟩

/-- Lexemes of no interest in front of a text. -/
theorem front (hr : Reads (x ++ y) ws y) (hws : ∀ w ∈ ws, m w = false) (h : Bears m K y) : Bears m K (x ++ y) := fun g => by
  obtain ⟨ls, j, hls, rfl⟩ := hr.scans g
  obtain ⟨ms, k, hms, hheld⟩ := h j
  have hnone : Held m K ls := .of_none fun p hp => hws p.2 (List.mem_map_of_mem hp)
  exact ⟨ls ++ ms, k, hls.trans hms, hnone.append hheld⟩

theorem of_newline (h : Bears m K ('\n' :: y)) : Bears m K y := by
  obtain ⟨ls, k, hls, hheld⟩ := h {}
  obtain ⟨ms, rfl, hms⟩ := (Scans.newline {} y).between hls (Nat.zero_le _)
  exact of_scans hms hheld

variable {c : Char} {w r : Text}

theorem gap (hc : isGap c = true) (h : Bears m K y) : Bears m K (c :: y) := chunk (x := [c]) (.gap hc) (by simp) h

theorem symbol (hc : isSymbolChar c = true) (hw : m (.symbol, [c]) = false) (h : Bears m K y) : Bears m K (c :: y) :=
  chunk (x := [c]) (.lexeme (lexeme_of_symbol hc y) rfl) (by simpa using hw) h

/-- Texts with a separator between them, at whose front each of them can end. -/
theorem join {ts : List Text} (hc : isStop c = true) (hq : c ≠ '"') (hsep : ∀ y, Bears m K y → Bears m K (c :: w ++ y))
    (h : ∀ t ∈ ts, Bears m K t) : Bears m K (Text.join (c :: w) ts) := by
  induction ts with
  | nil => exact nil
  | cons t ts ih =>
    obtain ⟨ht, hts⟩ := List.forall_mem_cons.mp h
    cases ts with
    | nil => exact ht
    | cons u us =>
      rw [Text.join, List.append_assoc]
      exact ht.append (hsep _ (ih hts)) (.inl ((stops_cons hc).apart _)) (by simpa using hq)

/-- In front of a symbol the text is scanned whatever stands behind that. -/
theorem before_symbol (hc : isSymbolChar c = true) (hw : m (.symbol, [c]) = false) (h : Bears m K x) (g : Gap) (r : Text) :
    ∃ ls k, Scans g (x ++ c :: r) ls r k ∧ Held m K ls := by
  obtain ⟨ls, j, hls, hheld⟩ := h g
  have hx := hls.append (List.append_nil x).symm
    (show Follows x [] (c :: r) from .inl ((stops_cons (isStop_of_isSymbolChar hc)).apart _))
    (by simpa using isSymbolChar_ne_quote hc)
  have hlast : Scans j (c :: r) [(j, .symbol, [c])] r {} :=
    .take (x := [c]) (.lexeme (lexeme_of_symbol hc r) rfl) (.done _ r)
  exact ⟨_, _, hx.trans hlast, hheld.append (.of_none (by simpa using hw))⟩

end Bears

end SwiftMacros.Token
