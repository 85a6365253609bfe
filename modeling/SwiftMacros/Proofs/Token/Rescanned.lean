import Mathlib
import SwiftMacros.Proofs.Token.Respaced
import SwiftMacros.Proofs.Token.Spots

/-! Tokens of a part of a source that is found again in another one. Where the same text stands in both and
is followed by a gap in the second, both have the same tokens there, as far from its start, and the same
gaps between them. -/

namespace SwiftMacros.Token

section Parts

variable {s : Text} {a b : Nat} {t : Token} {ts us vs : List Token}

/-- The tokens in front of another one take up the source up to it. -/
theorem Laid.upto (h : Laid s a (us ++ t :: vs)) :
    Reads (s.drop a) (us.map word) (s.drop t.start) ∧ a ≤ t.start ∧ ∀ u ∈ us, a ≤ u.start ∧ u.start < t.start := by
  induction us generalizing a with
  | nil =>
    cases h with
    | cons hr hle => exact ⟨hr, hle, by simp⟩
  | cons u us ih =>
    obtain ⟨hsplit, hchunk⟩ := h.chunk
    cases h with
    | cons hr hle hlt _ _ _ _ h =>
      obtain ⟨hread, hstop, hus⟩ := ih h
      have hword : Reads (s.drop u.start) [u.word] (s.drop u.stop) := hsplit ▸ .chunk hchunk (.done _)
      refine ⟨hr.trans (hword.trans hread), hle.trans (hlt.le.trans hstop), List.forall_mem_cons.mpr
        ⟨⟨hle, hlt.trans_le hstop⟩, fun v hv => ⟨hle.trans (hlt.le.trans (hus v hv).1), (hus v hv).2⟩⟩⟩

theorem stopFrom_concat (a : Nat) (ts : List Token) (t : Token) : stopFrom a (ts ++ [t]) = t.stop := by
  simp [stopFrom]

theorem Laid.behind (h : Laid s a (us ++ t :: vs)) : Laid s t.stop vs := by
  have := (List.append_cons us t vs ▸ h).yields.2
  rwa [stopFrom_concat] at this

theorem Laid.tail (h : Laid s a (t :: ts)) : Laid s t.stop ts := by
  cases h with
  | cons _ _ _ _ _ _ _ h => exact h

theorem Spaced.behind (h : Spaced s a (us ++ t :: vs)) : Spaced s t.stop vs := by
  rw [List.append_cons, spaced_append, stopFrom_concat] at h
  exact h.2

theorem Laid.cut_stop (h : Laid s a (us ++ t :: vs)) (ha : Cut s a) : Cut s t.stop := by
  obtain ⟨ls, hls⟩ := (List.append_cons us t vs ▸ h).yields.1.reads
  rw [stopFrom_concat] at hls
  have hlaid := h.yields.2
  cases hlaid with
  | cons _ _ _ hstop => exact ha.of_reads hstop hls

/-- The source in front of a token, with the gaps in it. -/
theorem Laid.stretch (h : Laid s a (us ++ t :: vs)) (hs : Spaced s a (us ++ t :: vs)) (ha : Cut s a) :
    ∃ k, Stretch s a t.start {} k us (t :: vs) := by
  obtain ⟨r, _, hscan, -⟩ := h.scans hs
  obtain ⟨hread, -, hus⟩ := h.upto
  have hle : r.length ≤ (s.drop t.start).length := by
    by_contra hlt
    obtain ⟨ns, hns, -⟩ := hscan.reads.between hread (Nat.le_of_not_le hlt)
    have := congrArg List.length hns
    simp at this
  obtain ⟨ls₁, ls₂, k, hls, hwords, hscan₁, -⟩ := hscan.split hread hle
  rw [List.map_append] at hls
  obtain ⟨rfl, -⟩ := List.append_inj hls (by simpa using (congrArg List.length hwords).symm)
  exact ⟨k, ha, h, hscan₁, hus⟩

/-- All of the source from an offset on, if it can be read to its end. -/
theorem Laid.stretch_end {ws : List Word} (h : Laid s a ts) (hs : Spaced s a ts) (ha : Cut s a)
    (hr : Reads (s.drop a) ws []) : ∃ k, Stretch s a s.length {} k ts [] := by
  obtain ⟨r, k, hscan, hrest⟩ := h.scans hs
  obtain rfl : r = [] := by
    obtain ⟨ns, -, hns⟩ := hscan.reads.between hr (Nat.zero_le _)
    exact (hrest.eq_of_reads hns).symm
  refine ⟨k, ha, (List.append_nil ts).symm ▸ h, by rwa [List.drop_length], fun t ht => ?_⟩
  obtain ⟨us, vs, rfl⟩ := List.append_of_mem ht
  have hlt : t.start < s.length := by
    have hlaid := h.yields.2
    cases hlaid with
    | cons _ _ hlt hstop => exact hlt.trans_le hstop
  exact ⟨h.upto.2.1, hlt⟩

/-- The source behind a token, if it can be read to its end. -/
theorem Laid.stretch_behind {ws : List Word} (h : Laid s a (us ++ t :: vs)) (hs : Spaced s a (us ++ t :: vs))
    (ha : Cut s a) (hr : Reads s ws []) : ∃ k, Stretch s t.stop s.length {} k vs [] := by
  obtain ⟨hle, ls, hls⟩ := h.cut_stop ha
  obtain ⟨ns, -, hns⟩ := hls.between hr (Nat.zero_le _)
  exact h.behind.stretch_end hs.behind ⟨hle, ls, hls⟩ hns

/-- A lexeme behind the gap is a token. -/
theorem Laid.exists_cons {x u : Text} {w : Word} (h : Laid s a ts) (hgap : Reads (s.drop a) [] (s.drop b))
    (hd : s.drop b = x ++ u) (hc : Chunk x [w] u) : ∃ v vs, ts = v :: vs := by
  cases h with
  | nil hr hrest =>
    have hread : Reads (s.drop a) ([] ++ ([w] ++ [])) u := hgap.trans (hd ▸ .chunk hc (.done u))
    rcases Nat.le_total u.length _ with hle | hle
    · obtain ⟨ns, -, hns⟩ := hr.between hread hle
      obtain rfl := hrest.eq_of_reads hns
      cases hr.unique hread
    · obtain ⟨ns, hnil, -⟩ := hread.between hr hle
      cases hnil
  | cons => exact ⟨_, _, rfl⟩

end Parts

/-- The same text in two sources, the second time in front of a gap. -/
theorem Laid.transplant {s s' x r r' : Text} {a a' : Nat} {us W T : List Token} (h : Laid s a (us ++ W))
    (h' : Laid s' a' T) (ha : Cut s a) (ha' : Cut s' a') (hs : Spaced s a (us ++ W)) (hs' : Spaced s' a' T)
    (hd : s.drop a = x ++ r) (hd' : s'.drop a' = x ++ r') (hr' : Stops r') (hq : r'.head? ≠ some '"')
    (hus : ∀ u ∈ us, u.stop ≤ a + x.length) : ∃ vs T', T = vs ++ T' ∧ us.Forall₂ (fun u v => v.spot = u.spot ∧
      v.start + a = u.start + a' ∧ v.stop + a = u.stop + a') vs := by
  induction us generalizing a a' x T with
  | nil => exact ⟨[], T, rfl, .nil⟩
  | cons u us ih =>
    obtain ⟨hfirst, hus⟩ := List.forall_mem_cons.mp hus
    obtain ⟨hsplit, hchunk⟩ := h.chunk
    rw [List.cons_append] at h
    cases h with
    | cons hr hle hlt hstop htext hl hk h =>
      have hgap := slice_length (s := s) (a := a) (b := u.start) (by omega)
      have hlen : u.text.length = u.stop - u.start := by rw [htext, slice_length hstop]
      -- the text is the gap in front of the token, the token and what is behind it
      obtain ⟨y, rfl⟩ : Text.slice s a u.start ++ u.text <+: x := by
        have hx : x <+: s.drop a := hd ▸ List.prefix_append x r
        refine List.prefix_of_prefix_length_le ⟨s.drop u.stop, ?_⟩ hx ?_
        · rw [List.append_assoc, ← hsplit, slice_append_drop hle]
        · rw [List.length_append]
          omega
      rw [List.append_assoc, List.append_assoc] at hd hd'
      have hrest : s.drop u.stop = y ++ r := by
        rw [← slice_append_drop hle, hsplit] at hd
        exact List.append_cancel_left (List.append_cancel_left hd)
      have hd₁ : s'.drop (a' + (u.start - a)) = u.text ++ (y ++ r') := by
        rw [← List.drop_drop, hd', List.drop_left' hgap]
      have hread : Reads (s'.drop a') [] (s'.drop (a' + (u.start - a))) := by
        rw [hd', hd₁, ← List.append_assoc u.text]
        refine Reads.append_within (r := r) ?_ rfl (.inl (hr'.apart _)) fun h => absurd h hq
        rw [List.append_assoc, ← hrest, ← hsplit, slice_append_drop hle]
        exact hr
      have hchunk' : Chunk u.text [u.word] (y ++ r') :=
        Chunk.append (hrest ▸ hchunk) (.inl (hr'.apart _)) fun h => absurd h hq
      obtain ⟨v, vs, rfl⟩ := h'.exists_cons hread hd₁ hchunk'
      have hb : a' + (u.start - a) ≤ s'.length := by
        have := congrArg List.length hd₁
        simp only [List.length_drop, List.length_append] at this
        omega
      obtain ⟨hstart, hstop', hword, hcut, hlaid⟩ := h'.next ha' (Nat.le_add_right _ _) hb hread hd₁ hchunk'
      have hcut₁ : Cut s u.stop := by
        have hread₁ : Reads (s.drop u.start) [u.word] (s.drop u.stop) := hsplit ▸ .chunk hchunk (.done _)
        exact ha.of_reads hstop (hr.trans hread₁)
      have hd₂ : s'.drop v.stop = y ++ r' := by
        rw [hstop', ← List.drop_drop, hd₁, List.drop_left]
      obtain ⟨vs₁, T', rfl, hsame⟩ := ih h hlaid hcut₁ hcut hs.2.2 hs'.2.2 hrest hd₂ fun w hw => by
        have := hus w hw
        simp only [List.length_append] at this
        omega
      have hslice : Text.slice s' a' v.start = Text.slice s a u.start := by
        rw [hstart, Text.slice, hd', Nat.add_sub_cancel_left, List.take_left' hgap]
      refine ⟨v :: vs₁, T', rfl, .cons ⟨?_, by omega, by omega⟩
        (hsame.imp fun _ _ h => ⟨h.1, by omega, by omega⟩)⟩
      have hspace : v.spaceBefore = u.spaceBefore := by
        rw [Bool.eq_iff_iff, hs'.1, hs.1]
        omega
      have hline : v.newlineBefore = u.newlineBefore := by
        rw [Bool.eq_iff_iff, hs'.2.1, hs.2.1, hslice]
      simp only [spot, hspace, hline, show v.word = u.word from hword]

/-- The second token is the first with the text from `a` on carried to `b`. The gap in front of that text can be
another one. -/
structure Carried (a b : Nat) (u v : Token) : Prop where
  word : v.word = u.word
  start : v.start + a = u.start + b
  stop : v.stop + a = u.stop + b
  spot : a < u.start → v.spot = u.spot

/-- The same text from a token on. -/
theorem Laid.transplant_from {s s' x r r' : Text} {a a' b : Nat} {f : Token} {us W T : List Token}
    (h : Laid s a (f :: us ++ W)) (h' : Laid s' a' T) (ha : Cut s a) (ha' : Cut s' a') (hs : Spaced s a (f :: us ++ W))
    (hs' : Spaced s' a' T) (hd : s.drop f.start = x ++ r) (hab : a' ≤ b) (hgap : Reads (s'.drop a') [] (s'.drop b))
    (hd' : s'.drop b = x ++ r') (hr' : Stops r') (hq : r'.head? ≠ some '"') (hx : ∀ u ∈ f :: us, u.stop ≤ f.start + x.length) :
    ∃ vs T', T = vs ++ T' ∧ (f :: us).Forall₂ (Carried f.start b) vs := by
  obtain ⟨hfirst, hus⟩ := List.forall_mem_cons.mp hx
  obtain ⟨hsplit, hchunk⟩ := h.chunk
  rw [List.cons_append] at h
  cases h with
  | cons hr hle hlt hstop htext hl hk h =>
    have hlen : f.text.length = f.stop - f.start := by rw [htext, slice_length hstop]
    obtain ⟨y, rfl⟩ : f.text <+: x := by
      have hx : x <+: s.drop f.start := hd ▸ List.prefix_append x r
      exact List.prefix_of_prefix_length_le ⟨s.drop f.stop, hsplit.symm⟩ hx (by omega)
    rw [List.append_assoc] at hd hd'
    have hrest : s.drop f.stop = y ++ r := List.append_cancel_left (hsplit.symm.trans hd)
    have hchunk' : Chunk f.text [f.word] (y ++ r') :=
      Chunk.append (hrest ▸ hchunk) (.inl (hr'.apart _)) fun h => absurd h hq
    obtain ⟨v, vs, rfl⟩ := h'.exists_cons hgap hd' hchunk'
    have hb : b ≤ s'.length := by
      have hpos := List.length_pos_iff.mpr hchunk'.ne_nil
      have := congrArg List.length hd'
      simp only [List.length_drop, List.length_append] at this
      omega
    obtain ⟨hstart, hstop', hword, hcut, hlaid⟩ := h'.next ha' hab hb hgap hd' hchunk'
    have hcut₁ : Cut s f.stop := by
      have hread : Reads (s.drop f.start) [f.word] (s.drop f.stop) := hsplit ▸ .chunk hchunk (.done _)
      exact ha.of_reads hstop (hr.trans hread)
    have hd₁ : s'.drop v.stop = y ++ r' := by
      rw [hstop', ← List.drop_drop, hd', List.drop_left]
    obtain ⟨vs₁, T', rfl, hsame⟩ := h.transplant hlaid hcut₁ hcut hs.2.2 hs'.2.2 hrest hd₁ hr' hq fun u hu => by
      have := hus u hu
      simp only [List.length_append] at this
      omega
    refine ⟨v :: vs₁, T', rfl, .cons ⟨hword, by omega, by omega, fun h => absurd h (lt_irrefl _)⟩ (hsame.imp fun u v h => ?_)⟩
    exact ⟨congrArg Prod.snd h.1, by omega, by omega, fun _ => h.1⟩

namespace Stretch

variable {s r : Text} {a z : Nat} {g k : Gap} {c : Char} {ts us : List Token}

/-- A character of white space belongs to the gap. -/
theorem skip_gap (h : Stretch s a z g k ts us) (hd : s.drop a = c :: r) (hc : isGap c = true) (hz : a < z) :
    Stretch s (a + 1) z (g.over [c]) k ts us := by
  have hr : s.drop (a + 1) = r := by rw [← List.drop_drop, hd]; rfl
  have hgap : Scans g (s.drop a) [] (s.drop (a + 1)) (g.over [c]) := by
    rw [hr, hd]
    exact .pass (x := [c]) (.gap hc) (.done _ r)
  have hlen := congrArg List.length hd
  simp only [List.length_drop, List.length_cons] at hlen
  obtain ⟨vs, ws, j, rfl, hvs, hws⟩ := h.split (h.cut.of_reads (by omega) hgap.reads) (Nat.le_succ a) hz
  obtain ⟨hnil, rfl⟩ := hgap.unique hvs.scans
  obtain rfl := List.map_eq_nil_iff.mp hnil
  exact hws

/-- A symbol at the front is a token. -/
theorem skip_symbol (h : Stretch s a z g k ts us) (hd : s.drop a = c :: r) (hc : isSymbolChar c = true) (hz : a < z) :
    ∃ v vs, ts = v :: vs ∧ v.spot = (g, .symbol, [c]) ∧ v.start = a ∧ v.stop = a + 1 ∧
      Stretch s (a + 1) z {} k vs us := by
  have hr : s.drop (a + 1) = r := by rw [← List.drop_drop, hd]; rfl
  have hchunk : Chunk [c] [(.symbol, [c])] r := .lexeme (lexeme_of_symbol hc r) rfl
  have hscan : Scans g (s.drop a) [(g, .symbol, [c])] (s.drop (a + 1)) {} := by
    rw [hr, hd]
    exact .take (x := [c]) hchunk (.done _ r)
  have hlen := congrArg List.length hd
  simp only [List.length_drop, List.length_cons] at hlen
  obtain ⟨vs, ws, j, rfl, hvs, hws⟩ := h.split (h.cut.of_reads (by omega) hscan.reads) (Nat.le_succ a) hz
  obtain ⟨hspot, rfl⟩ := hscan.unique hvs.scans
  obtain ⟨v, rfl, hv⟩ := List.map_eq_singleton_iff.mp hspot
  obtain ⟨hstart, hstop, -⟩ := hvs.laid.next h.cut le_rfl (by omega) (.done _) hd hchunk
  exact ⟨v, ws, rfl, hv, hstart, hstop, hws⟩

end Stretch

end SwiftMacros.Token
