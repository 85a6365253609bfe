import Mathlib
import SwiftMacros.Proofs.Grammar.Akin
import SwiftMacros.Proofs.Grammar.Redivided
import SwiftMacros.Proofs.Parser.Session

/-! Macros that are read one after the other. Reading one splits operators, and the next one is read in front of
what has been left. If each macro in a second source stands in front of tokens that a macro in a first source has
behind it, then what is read in the second one could have been read in the first. -/

/-- Lists in two parts are the same: an element of the second one stands in either part of the first one. -/
theorem List.append_cons_cases {α : Type} {xs us ys vs : List α} {b : α} (h : xs ++ us = ys ++ b :: vs) :
    (∃ zs, ys = xs ++ zs ∧ us = zs ++ b :: vs) ∨ ∃ zs, xs = ys ++ b :: zs ∧ vs = zs ++ us := by
  rcases List.append_eq_append_iff.mp h with h | ⟨_ | ⟨z, zs⟩, rfl, hzs⟩
  · exact .inl h
  · exact .inl ⟨[], by simp, hzs.symm⟩
  · obtain ⟨rfl, rfl⟩ := List.cons.inj (show b :: vs = z :: (zs ++ us) from hzs)
    exact .inr ⟨zs, rfl, rfl⟩

namespace SwiftMacros

open Token (Word Akin Alike Refines Tail nested settled segment)

namespace Cursor

variable {m : Word → Bool} {n : Nat} {c c' d d₁ : Cursor} {t : Token} {xs us s s' R R' : List Token}

/-- The cursors that are come to from `c`, where any place is gone to and macros that `m` tells are read. -/
inductive Visits (m : Word → Bool) (c : Cursor) : Cursor → Prop
  | here : Visits m c c
  | seek {d d' : Cursor} {offset : Nat} {u : Unit} : Visits m c d → Parser.seek offset d = .ok u d' → Visits m c d'
  | read {d d' : Cursor} {e : MacroExpansion} : Visits m c d → m d.peek.word = true →
      Parser.expansion d = .ok e d' → Visits m c d'

/-- Each macro that `m` tells is read with a closure behind it, however many have been read before. One that is
read has a closure behind it, whatever operators have been split. -/
structure Called (m : Word → Bool) (c : Cursor) : Prop where
  reads : ∀ d, c.Visits m d → m d.peek.word = true → ∃ s k o B z c₁, d.Calls s k o B z c₁
  closes : ∀ d e d', c.Rereads d → m d.peek.word = true → Parser.expansion d = .ok e d' → e.trailing.isSome = true

/-- Any token can be gone to. -/
theorem Sound.seek_to (h : c.Sound) (hc : c.inner = xs ++ t :: us) : ∃ d, Parser.seek t.start c = .ok () d ∧
    d.behind = xs.reverse ∧ d.ahead = t :: us ∧ c.Rereads d := by
  have hpair := h.arranged.pairwise
  have hplaced := h.arranged.placed
  rw [hc] at hpair hplaced
  rw [List.pairwise_append] at hpair
  have hbefore : ∀ u ∈ xs, decide (u.start < t.start) = true := fun u hu => by
    have hlt := (hplaced u (by simp [hu])).lt
    have hle := hpair.2.2 u hu t (by simp)
    simp only [decide_eq_true_eq]
    omega
  obtain ⟨d, hd⟩ : ∃ d : Cursor, d = { c with behind := xs.reverse, ahead := t :: us } := ⟨_, rfl⟩
  have hfound : c.seek? t.start = some d := by
    have hinner : c.behind.reverse ++ c.ahead = xs ++ t :: us := hc
    have htake : (xs ++ t :: us).takeWhile (fun u => decide (u.start < t.start)) = xs := by
      rw [List.takeWhile_append_of_pos hbefore]
      simp
    have hdrop : (xs ++ t :: us).dropWhile (fun u => decide (u.start < t.start)) = t :: us := by
      rw [List.dropWhile_append_of_pos hbefore]
      simp
    simp only [seek?, hinner, htake, hdrop]
    rw [if_pos (by simp [peek]), hd]
  exact ⟨d, Parser.seek_of_found hfound, by rw [hd], by rw [hd], (h.seek hfound).1⟩

theorem seek_eq_ok {offset : Nat} {u : Unit} (h : Parser.seek offset c = .ok u d) : c.seek? offset = some d := by
  rw [Parser.seek, Parser.run_get_bind, if_pos (Int.natCast_nonneg offset), Int.toNat_natCast] at h
  cases hf : c.seek? offset with
  | none =>
    rw [hf] at h
    cases h
  | some found =>
    rw [hf] at h
    cases h
    rfl

/-- Going to a token leaves the tokens as they are. -/
theorem inner_seek {offset : Nat} {u : Unit} (h : Parser.seek offset c = .ok u d) : d.inner = c.inner := by
  replace h := seek_eq_ok h
  simp only [seek?] at h
  split at h
  · cases h
    simp [inner]
  · cases h

theorem Visits.rereads (h : c.Visits m d) (hs : c.Sound) : c.Rereads d := by
  induction h with
  | here => exact hs.refl.rereads
  | seek _ hseek ih => exact ih.trans (ih.sound.seek (seek_eq_ok hseek)).1
  | read _ _ he ih => exact ih.trans ((Parser.expansion_spec ih.sound).ok he).1.rereads

/-- From `d`, which has been come to from `c`, a macro stands in front of `s`, and `s'` is a copy of that. -/
structure Copies (m : Word → Bool) (n : Nat) (c d : Cursor) (s s' : List Token) : Prop where
  visits : c.Visits m d
  marked : m d.peek.word = true
  fenced : ∃ f, d.Fenced [f]
  ahead : ∃ R, d.ahead = d.peek :: s ++ R
  tail : Tail m n s
  akin : s.Forall₂ Akin s'

/-- Each macro in the tokens stands in front of a copy of what a macro has behind it from `c`. -/
def Copied (m : Word → Bool) (n : Nat) (c : Cursor) (ts : List Token) : Prop :=
  ∀ xs t us, ts = xs ++ t :: us → m t.word = true → ∃ d s s' R', Copies m n c d s s' ∧ us = s' ++ R'

/-- A copy is a tail as well. -/
theorem Copies.tail_copy (h : Copies m n c d s s') (hm : ∀ w, m w = true → w.1 = .poundName) (hs' : c'.Sound)
    (hin : s' <:+: c'.inner) : Tail m n s' :=
  h.tail.alike (fun w hw => by simp [hm w hw]) (h.akin.imp fun _ _ ht => ht.toAlike) fun u hu hku =>
    (hs'.arranged.placed u (hin.subset hu)).awaitsBlock_literal hku

/-- Copies are as deep in one another as what they are copies of. -/
theorem Copied.shallow (h : Copied m n c c'.inner) (hm : ∀ w, m w = true → w.1 = .poundName) (hs' : c'.Sound) :
    Token.Shallow m (n + 1) c'.inner := by
  intro xs t s ys hc' ht hsegment
  obtain ⟨d, u, s', R', hcopies, hR⟩ := h xs t (s ++ ys) (by simp [hc']) ht
  have htail := hcopies.tail_copy hm hs' ⟨xs ++ [t], R', by simp [hc', hR]⟩
  obtain ⟨rfl, -⟩ := Token.segment_unique hsegment htail.segment hR
  exact htail.shallow

section Reading

variable (hs : c.Sound)
include hs

/-- Where the tokens behind a macro are alike from a cursor that has been come to, they are a copy. -/
theorem Visits.copies (h : c.Visits m d) (hd : d.inner = xs ++ t :: s ++ R) (ht : m t.word = true)
    (hf : ∃ f, Token.Fenced [f] (t :: s ++ R)) (htail : Tail m n s) (hakin : s.Forall₂ Akin s') :
    ∃ d', Copies m n c d' s s' ∧ d'.behind = xs.reverse ∧ d'.ahead = t :: s ++ R := by
  obtain ⟨f, hf⟩ := hf
  obtain ⟨d', hseek, hbehind, hahead, hrereads⟩ := (h.rereads hs).sound.seek_to (by simpa using hd)
  have hpeek : d'.peek = t := by simp [peek, hahead]
  exact ⟨d', ⟨h.seek hseek, hpeek ▸ ht, ⟨f, hrereads.sound, hahead ▸ hf⟩, ⟨R, by simp [hpeek, hahead]⟩, htail, hakin⟩,
    hbehind, hahead⟩

variable (hcalled : c.Called m)
include hcalled

/-- What a macro has behind it is read in front of its copy as well. -/
theorem Copies.again (h : Copies m n c d s s') (hs' : c'.Sound) (hpound : c'.peek.kind = .poundName)
    (hahead : c'.ahead = c'.peek :: s' ++ R') : ∃ w w' k' o' B' z' c₁' d₁ R, c'.Calls s' k' o' B' z' c₁' ∧
      c.Visits m d₁ ∧ d.ahead = d.peek :: s ++ R ∧ d₁.inner = d.behind.reverse ++ d.peek :: w ++ R ∧
      c₁'.inner = c'.behind.reverse ++ c'.peek :: w' ++ R' ∧ Refines s w ∧ w.Forall₂ Akin w' := by
  obtain ⟨f, hf⟩ := h.fenced
  obtain ⟨R, hR⟩ := h.ahead
  obtain ⟨_, _, _, _, _, d₁, hcalls⟩ := hcalled.reads d h.visits h.marked
  obtain ⟨e, he, -⟩ := hcalls.reads
  have hclosed := hcalled.closes d e d₁ (h.visits.rereads hs) h.marked he
  obtain ⟨k', o', B', z', c₁', w, w', hcalls, hw, hwR, hw', hwR', hrefines, hcopy⟩ :=
    Grammar.expansion_again hf he hclosed hR h.tail.segment h.tail.settled hs' hpound hahead h.akin
  exact ⟨w, w', k', o', B', z', c₁', d₁, R, hcalls, h.visits.read h.marked he, hR,
    by simp [inner, hw, hwR], by simp [inner, hw', hwR'], hrefines, hcopy⟩

variable (hm : ∀ w, m w = true → w.1 = .poundName)
include hm

/-- Where a macro within a copy is read, the copy with its operators split is one as well. -/
theorem Copies.around {ds c₁' : Cursor} {ss X v w' : List Token} {e : MacroExpansion}
    (h : Copies m n c ds ss (X ++ c'.peek :: (s' ++ v))) (hs' : c'.Sound) (hmarked : m c'.peek.word = true)
    (hahead : c'.ahead = c'.peek :: s' ++ R') (hread : Parser.expansion c' = .ok e c₁')
    (hinner : c₁'.inner = c'.behind.reverse ++ c'.peek :: w' ++ R') (htail : Tail m n s') :
    ∃ d ss₁, Copies m n c d ss₁ (X ++ c'.peek :: (w' ++ v)) := by
  obtain ⟨Rs, hRs⟩ := h.ahead
  obtain ⟨X₀, M, ys, rfl, hX, hM, hys⟩ := h.akin.divide_at
  obtain ⟨s₀, v₀, rfl, hs₀, hv⟩ := hys.divide
  have hds := (h.visits.rereads hs).sound
  have hkind : M.kind = .poundName := hM.kind.symm.trans (hm _ hmarked)
  have hword : M.word = c'.peek.word := Prod.ext hM.kind.symm (hM.text (by simp [hkind])).symm
  have htail₀ : Tail m n s₀ := htail.alike (fun w hw => by simp [hm w hw]) (hs₀.flip.imp fun _ _ ht => ht.toAlike.symm)
    fun u hu hku => (hds.placed_ahead (by simp [hRs, hu])).awaitsBlock_literal hku
  -- the macro itself, read where the copy has been taken from
  obtain ⟨dM, hcopies, hbehind, hsame⟩ := h.visits.copies hs
    (show ds.inner = ds.behind.reverse ++ ds.peek :: X₀ ++ M :: s₀ ++ (v₀ ++ Rs) by simp [inner, hRs]) (hword ▸ hmarked) (by simpa using h.tail.fenced rfl hkind Rs) htail₀ hs₀
  obtain ⟨w, w₂, k', o', B', z', c₂', d₁, R, hcalls, hvisits, hR, hin, hin', hrefines, hakin⟩ :=
    hcopies.again hs hcalled hs' (hm _ hmarked) hahead
  obtain ⟨e', he', -⟩ := hcalls.reads
  obtain ⟨-, rfl⟩ : e' = e ∧ c₂' = c₁' := by simpa [he'] using hread
  obtain rfl : w₂ = w' := by
    rw [hin'] at hinner
    simpa using hinner
  have hpeek : dM.peek = M := by simp [peek, hsame]
  obtain rfl : R = v₀ ++ Rs := by
    rw [hsame, hpeek] at hR
    simpa using hR.symm
  have hsplit : Refines (X₀ ++ M :: (s₀ ++ v₀)) (X₀ ++ M :: (w ++ v₀)) := .append X₀ (.keep M (hrefines.both (.refl v₀)))
  obtain ⟨f, hf⟩ := h.fenced
  obtain ⟨d, hd, -⟩ := hvisits.copies hs
    (show d₁.inner = ds.behind.reverse ++ ds.peek :: (X₀ ++ M :: (w ++ v₀)) ++ Rs by simp [hin, hbehind, hpeek]) h.marked
    ⟨f, (hRs ▸ hf.ahead).refines (.keep ds.peek (hsplit.both (.refl Rs)))⟩
    (h.tail.refined (fun w hw => by simp [hm w hw]) hsplit) (List.rel_append hX (.cons hM (List.rel_append hakin hv)))
  exact ⟨d, _, hd⟩

/-- Reading a macro leaves copies behind each. -/
theorem Copied.read {c₁' : Cursor} {e : MacroExpansion} (h : Copied m n c c'.inner) (hs' : c'.Sound)
    (hmarked : m c'.peek.word = true) (hread : Parser.expansion c' = .ok e c₁') : Copied m n c c₁'.inner := by
  have hm' : ∀ w, m w = true → w.1 ≠ .operator := fun w hw => by simp [hm w hw]
  obtain ⟨us', hahead⟩ := hs'.ahead_eq (by
    have := hm _ hmarked
    simp only [Token.word] at this
    simp [this])
  have hinner : c'.inner = c'.behind.reverse ++ c'.peek :: us' := by simp [inner, ← hahead]
  obtain ⟨d, s, s', R', hcopies, rfl⟩ := h _ _ _ hinner hmarked
  obtain ⟨w, w', k', o', B', z', c₂', d₁, R, hcalls, hvisits, hR, hin, hin', hrefines, hakin⟩ :=
    hcopies.again hs hcalled hs' (hm _ hmarked) hahead
  obtain ⟨e', he', -⟩ := hcalls.reads
  obtain ⟨-, rfl⟩ : e' = e ∧ c₂' = c₁' := by simpa [he'] using hread
  have htail' := hcopies.tail_copy hm hs' ⟨c'.behind.reverse ++ [c'.peek], R', by simp [hinner]⟩
  obtain ⟨f, hf⟩ := hcopies.fenced
  have htail := hcopies.tail.refined hm' hrefines
  have hrefines' : Refines s' w' := by
    have hall : Refines (c'.behind.reverse ++ [c'.peek] ++ (s' ++ R')) (c'.behind.reverse ++ [c'.peek] ++ (w' ++ R')) := by
      simpa [hin', hinner] using ((Parser.expansion_spec hs').ok hread).1.refines
    obtain ⟨v, v', hv, hsv, -⟩ := (hall.of_append _).divide
    have hsegment : Token.segment [] false w' = true := by
      rw [Token.segment_alike (hakin.imp fun _ _ ht => ht.toAlike), htail.segment]
    obtain ⟨rfl, -⟩ := Token.segment_unique (by rw [Token.segment_refines hsv, htail'.segment]) hsegment hv.symm
    exact hsv
  intro xs N us heq hN
  have hpos : c'.behind.reverse ++ c'.peek :: (w' ++ R') = xs ++ N :: us := by rw [← heq, hin']; simp
  rcases List.append_cons_cases hpos with ⟨_ | ⟨_, X⟩, rfl, hX⟩ | ⟨X, hbehind, rfl⟩
  · -- the macro that has been read
    obtain ⟨rfl, rfl⟩ := List.cons.inj hX
    obtain ⟨d', hd', -⟩ := hvisits.copies hs hin hcopies.marked
      ⟨f, (hR ▸ hf.ahead).refines (.keep d.peek (hrefines.both (.refl R)))⟩ htail hakin
    exact ⟨d', w, w', R', hd', rfl⟩
  · obtain ⟨rfl, hrest⟩ := List.cons.inj (show c'.peek :: (w' ++ R') = _ :: (X ++ N :: us) from hX)
    rcases List.append_cons_cases hrest with ⟨Y, rfl, rfl⟩ | ⟨Y, rfl, rfl⟩
    · -- one behind it
      exact h (c'.behind.reverse ++ c'.peek :: s' ++ Y) N us (by simp [hinner]) hN
    · -- one in what it has behind it
      obtain ⟨X₀, Y₀, rfl, -, hY₀⟩ := hrefines'.split_at (hm' _ hN)
      have hplace : c'.inner = (c'.behind.reverse ++ c'.peek :: X₀) ++ N :: (Y₀ ++ R') := by simp [hinner]
      obtain ⟨dN, t, t', V, hdN, hV⟩ := h _ _ _ hplace hN
      have htN := hdN.tail_copy hm hs' ⟨c'.behind.reverse ++ c'.peek :: X₀ ++ [N], V, by simp [hplace, hV]⟩
      obtain ⟨v, rfl, -⟩ := htail'.inner rfl (hm _ hN) htN.segment ⟨V, hV.symm⟩
      obtain ⟨t₁', v₁, rfl, ht₁, -⟩ := hY₀.divide
      obtain ⟨X₁, N₁, ys, rfl, -, hN₁, hys⟩ := hakin.divide_at
      obtain ⟨t₁, v₂, rfl, hakin₁, -⟩ := hys.divide
      have hkind : N₁.kind = .poundName := hN₁.kind.symm.trans (hm _ hN)
      have hd₁ := (hvisits.rereads hs).sound
      obtain ⟨d', hd', -⟩ := hvisits.copies hs
        (show d₁.inner = d.behind.reverse ++ d.peek :: X₁ ++ N₁ :: t₁ ++ (v₂ ++ R) by simp [hin]) (by rwa [show N₁.word = N.word from Prod.ext hN₁.kind.symm (hN₁.text (by simp [hkind])).symm])
        (by simpa using htail.fenced rfl hkind R)
        ((htN.refined hm' ht₁).alike (fun w hw => by simp [hm w hw]) (hakin₁.flip.imp fun _ _ ht => ht.toAlike.symm)
          fun u hu hku => (hd₁.arranged.placed u (by simp [hin, hu])).awaitsBlock_literal hku) hakin₁
      exact ⟨d', t₁, t₁', v₁ ++ R', hd', by simp⟩
  · -- one in front of it
    obtain ⟨ds, ss, ss', V, hds, hV⟩ := h xs N (X ++ c'.peek :: (s' ++ R')) (by simp [hinner, hbehind]) hN
    rcases List.append_cons_cases hV.symm with ⟨Y, rfl, -⟩ | ⟨Y, rfl, hY⟩
    · exact ⟨ds, ss, ss', Y ++ c'.peek :: (w' ++ R'), hds, by simp⟩
    · have htss := hds.tail_copy hm hs' ⟨xs ++ [N], V, by simp [hinner, hbehind, hY]⟩
      obtain ⟨v, rfl, -⟩ := htss.inner rfl (hm _ hmarked) htail'.segment (R := V) ⟨R', hY⟩
      obtain rfl : R' = v ++ V := by simpa using hY
      obtain ⟨d', ss₁, hd'⟩ := hds.around hs hcalled hm hs' hmarked (by simpa using hahead) hread (by simpa using hin') htail'
      exact ⟨d', ss₁, _, V, hd', by simp⟩

/-- All macros that are come to stand in front of copies. -/
theorem Copied.visits (h : Copied m n c c'.inner) (hs' : c'.Sound) {d' : Cursor} (hd : c'.Visits m d') :
    Copied m n c d'.inner := by
  induction hd with
  | here => exact h
  | seek hd hseek ih => exact (inner_seek hseek).symm ▸ ih
  | read hd hmarked hread ih => exact ih.read hs hcalled hm (hd.rereads hs').sound hmarked hread

/-- A macro that stands in front of a copy is read, with a closure behind it. -/
theorem Copied.calls (h : Copied m n c c'.inner) (hs' : c'.Sound) {d' : Cursor} (hd : c'.Visits m d')
    (hmarked : m d'.peek.word = true) : ∃ s k o B z c₁, d'.Calls s k o B z c₁ ∧ Tail m n s := by
  have hsound := (hd.rereads hs').sound
  obtain ⟨us, hahead⟩ := hsound.ahead_eq (by
    have := hm _ hmarked
    simp only [Token.word] at this
    simp [this])
  have hinner : d'.inner = d'.behind.reverse ++ d'.peek :: us := by simp [inner, ← hahead]
  obtain ⟨d, s, s', R', hcopies, rfl⟩ := h.visits hs hcalled hm hs' hd _ _ _ hinner hmarked
  obtain ⟨w, w', k', o', B', z', c₂', d₁, R, hcalls, -⟩ := hcopies.again hs hcalled hsound (hm _ hmarked) hahead
  exact ⟨s', k', o', B', z', c₂', hcalls, hcopies.tail_copy hm hsound ⟨d'.behind.reverse ++ [d'.peek], R', by simp [hinner]⟩⟩

/-- In a text that holds copies of what macros have behind them, all macros are read. -/
theorem Copied.called {text : Text} (h : Copied m n c c'.inner) (hc' : Cursor.ofText text = .ok c') : c'.Called m := by
  obtain ⟨hs', -, -⟩ := sound_ofText hc'
  obtain ⟨rfl, -, hlaid, -⟩ := laid_ofText hc'
  refine ⟨fun d' hd hmarked => ?_, fun d' e d₁' hd hmarked hread => ?_⟩
  · obtain ⟨s, k, o, B, z, c₁, hcalls, -⟩ := h.calls hs hcalled hm hs' hd hmarked
    exact ⟨s, k, o, B, z, c₁, hcalls⟩
  have hm' : ∀ w, m w = true → w.1 ≠ .operator := fun w hw => by simp [hm w hw]
  obtain ⟨us', hahead'⟩ := hd.sound.ahead_eq (by
    have := hm _ hmarked
    simp only [Token.word] at this
    simp [this])
  -- the tokens in the text as they were
  have hrefines := hd.refines
  rw [show d'.inner = d'.behind.reverse ++ d'.peek :: us' by simp [inner, ← hahead']] at hrefines
  obtain ⟨xs, us, hinner, -, hus⟩ := hrefines.split_at (hm' _ hmarked)
  obtain ⟨d, s, s', R', hcopies, rfl⟩ := h _ _ _ hinner hmarked
  obtain ⟨s₁', R₁', rfl, hs₁, -⟩ := hus.divide
  -- the same operators split where the copy has been taken from
  have hd₁ := hcopies.visits.rereads hs
  obtain ⟨R, hR⟩ := hcopies.ahead
  obtain ⟨f, hf⟩ := hcopies.fenced
  obtain ⟨s₁, hsplit, hakin, harranged⟩ := hs₁.mirror hcopies.akin
    (by
      have hjoint := hd.sound.arranged.joint
      rw [hd.source, inner, hahead'] at hjoint
      exact hjoint.right_of_append.tail.left_of_append)
    fun t ht => hlaid.apart (cut_zero _) t (by simp [hinner, ht])
  obtain ⟨d₁, rfl⟩ : ∃ d₁ : Cursor, d₁ = { d with ahead := d.peek :: s₁ ++ R } := ⟨_, rfl⟩
  have hinner₁ : d.inner = d.behind.reverse ++ [d.peek] ++ s ++ R := by simp [inner, hR]
  have hsound₁ : Sound { d with ahead := d.peek :: s₁ ++ R } :=
    ⟨by
      have := harranged _ _ (hinner₁ ▸ hd₁.sound.arranged)
      rw [List.append_assoc, List.append_assoc] at this
      exact this, hd₁.sound.eof_kind, hd₁.sound.eof_text,
      hd₁.sound.eof_start, hd₁.sound.eof_stop⟩
  have hrereads₁ : d.Rereads { d with ahead := d.peek :: s₁ ++ R } :=
    ⟨hsound₁, rfl, rfl, by
      rw [hinner₁]
      simpa [inner] using Refines.append (d.behind.reverse ++ [d.peek]) (hsplit.both (.refl R))⟩
  obtain ⟨A, o, B, z, rfl, hblock⟩ := (hcopies.tail.refined hm' hsplit).block
  obtain ⟨A', o', B', z', rfl, hA, ho, hB, hz⟩ := hakin.block
  exact Grammar.expansion_closes (c := { d with ahead := d.peek :: (A ++ o :: B ++ [z]) ++ R }) (e := f)
    ⟨hsound₁, (hR ▸ hf.ahead).refines (.keep d.peek (hsplit.both (.refl R)))⟩
    (fun e c₁ he => hcalled.closes _ e c₁ (hd₁.trans hrereads₁) hcopies.marked he) hblock (hm _ hcopies.marked) rfl
    hd.sound (hm _ hmarked) hahead' hA ho hB hz hread

end Reading

end Cursor

end SwiftMacros
