import Mathlib
import SwiftMacros.Proofs.Token.Scans
import SwiftMacros.Proofs.Cursor.Yields

/-! The tokens of a source with the gaps that they tell of. Scanning the source gives the same, lexeme by
lexeme, and a cut divides both alike. -/

namespace SwiftMacros.Token

/-- What a token tells of itself: its lexeme, and the gap in front of it. -/
def spot (t : Token) : Spot := (⟨t.newlineBefore, t.spaceBefore⟩, t.word)

section Front

variable {g k : Gap} {t u x r : Text} {w : Word} {ls ms : List Spot}

/-- A gap that there is does not go away. -/
theorem Scans.space (h : Scans g t ls r k) (hg : g.space = true) : (∀ p ∈ ls.head?, p.1.space = true) ∧
    (ls = [] → k.space = true) := by
  induction h with
  | done => exact ⟨by simp, fun _ => hg⟩
  | pass _ _ ih => exact ih rfl
  | take => exact ⟨by simpa using hg, by simp⟩

/-- Nor does a line end in it. -/
theorem Scans.line_head (h : Scans Gap.line t ls r k) : ∀ p ∈ ls.head?, p.1 = Gap.line := by
  generalize hg : Gap.line = g at h
  induction h with
  | done => simp
  | pass _ _ ih =>
    subst hg
    exact ih rfl
  | take => simp

/-- Where no gap is before the first lexeme, it stands at the front. -/
theorem Scans.chunk (h : Scans {} t (({}, w) :: ls) r k) : ∃ u, t = w.2 ++ u ∧ Chunk w.2 [w] u := by
  generalize hg : ({} : Gap) = g at h
  generalize hl : (g, w) :: ls = ms at h
  cases h with
  | done => cases hl
  | pass _ hrest =>
    have := (hrest.space rfl).1 (g, w) (by rw [← hl]; rfl)
    simp [← hg] at this
  | take hc =>
    obtain rfl := (Prod.mk.inj (List.cons.inj hl).1).2
    generalize hp : [w] = a at hc
    cases hc with
    | lexeme hlex hk =>
      obtain rfl : w = _ := by simpa using hp
      exact ⟨_, rfl, .lexeme hlex hk⟩
    | _ => cases hp

/-- A lexeme at the front is taken with the gap in front of the text. -/
theorem Scans.front (h : Scans g (x ++ u) ls r k) (hc : Chunk x [w] u) (hls : ls ≠ []) :
    ∃ ms, ls = (g, w) :: ms := by
  generalize ht : x ++ u = t at h
  cases h with
  | done => exact absurd rfl hls
  | pass hc' =>
    obtain ⟨-, hnil, -⟩ := hc.unique hc' ht
    cases hnil
  | take hc' =>
    obtain ⟨-, hw, -⟩ := hc.unique hc' ht
    cases hw
    exact ⟨_, rfl⟩

/-- The last gap of a text that is not left is the one in front. -/
theorem Scans.eq_gap (h : Scans g t ls t k) : k = g := by
  generalize hr : t = r at h
  cases h with
  | done => rfl
  | pass hc hrest =>
    subst hr
    have h1 := hrest.reads.suffix.length_le
    have h2 := List.length_pos_iff.mpr hc.ne_nil
    simp only [List.length_append] at h1
    omega
  | take hc hrest =>
    subst hr
    have h1 := hrest.reads.suffix.length_le
    have h2 := List.length_pos_iff.mpr hc.ne_nil
    simp only [List.length_append] at h1
    omega

theorem Scans.unique {k' : Gap} (h : Scans g t ls r k) (h' : Scans g t ms r k') : ms = ls ∧ k' = k := by
  obtain ⟨ns, rfl, hns⟩ := h.between h' le_rfl
  rw [hns.eq_nil, List.append_nil]
  exact ⟨rfl, hns.eq_gap⟩

/-- Scanning a text to its end gives the same, wherever a comment that ends it is left. -/
theorem Scans.eq_of_rest {r' : Text} {k' : Gap} (h : Scans g t ls r k) (hr : Rest r) (h' : Scans g t ms r' k')
    (hr' : Rest r') : ms = ls := by
  have hwords : ms.map Prod.snd = ls.map Prod.snd := by
    simpa [words_eq_ok_iff.mpr ⟨r', h'.reads, hr'⟩] using words_eq_ok_iff.mpr ⟨r, h.reads, hr⟩
  have hlength : ms.length = ls.length := by simpa using congrArg List.length hwords
  rcases Nat.le_total r'.length r.length with hle | hle
  · obtain ⟨ns, rfl, -⟩ := h.between h' hle
    simpa using hlength
  · obtain ⟨ns, rfl, -⟩ := h'.between h hle
    simpa using hlength

end Front

section Laid

variable {s : Text} {a b z : Nat} {g k : Gap} {t : Token} {ts us : List Token}

/-- The tokens of a source with their gaps are what it is scanned as. -/
theorem Laid.scans (h : Laid s a ts) (hs : Spaced s a ts) :
    ∃ r k, Scans {} (s.drop a) (ts.map spot) r k ∧ Rest r := by
  induction h with
  | nil hr hrest =>
    obtain ⟨ms, k, hscan, hms⟩ := hr.scans {}
    obtain rfl := List.map_eq_nil_iff.mp hms
    exact ⟨_, k, hscan, hrest⟩
  | @cons a t ts hr hle hlt hstop htext hl hk hts ih =>
    obtain ⟨hspace, hnewline, hspaced⟩ := hs
    obtain ⟨r, k, hscan, hrest⟩ := ih hspaced
    have hword : Scans t.spot.1 (s.drop t.start) (t.spot :: ts.map spot) r k := by
      rw [← slice_append_drop hlt.le, ← htext] at hl ⊢
      have hlen : t.text.length = t.stop - t.start := by rw [htext, slice_length hstop]
      exact .take (.lexeme (hlen ▸ hl) hk) hscan
    refine ⟨r, k, ?_, hrest⟩
    rcases hle.eq_or_lt with heq | hlt'
    · have hgap : t.spot.1 = {} := by
        have h1 : t.spaceBefore = false := by simpa [heq] using hspace
        have h2 : t.newlineBefore = false := by simpa [heq, Text.slice] using hnewline
        simp [spot, h1, h2]
      rw [hgap, ← heq] at hword
      exact hword
    · have hgap : t.spot.1 = Gap.over {} (Text.slice s a t.start) := by
        have h1 : t.spaceBefore = true := hspace.mpr hlt'
        have h2 : t.newlineBefore = (Text.slice s a t.start).contains '\n' := by
          rw [Bool.eq_iff_iff, hnewline, List.contains_iff_mem]
        simp [spot, Gap.over, h1, h2]
      have hne : Text.slice s a t.start ≠ [] := by
        apply List.ne_nil_of_length_pos
        rw [slice_length (by omega)]
        omega
      exact (Scans.of_reads hr (slice_append_drop hle).symm hne {}).trans (hgap ▸ hword)

/-- White space and comments in front of the tokens can be left out. -/
theorem Laid.of_gap (h : Laid s a ts) (ha : Cut s a) (hab : a ≤ b) (hb : b ≤ s.length)
    (hr : Reads (s.drop a) [] (s.drop b)) : Laid s b ts := by
  obtain ⟨us, vs, rfl, hus, hvs, -⟩ := h.split ha (ha.of_reads hb hr) hab
  obtain rfl : us = [] := List.map_eq_nil_iff.mp (hus.unique hr)
  exact hvs

/-- Where a lexeme starts, the token is the lexeme. -/
theorem Laid.start_eq {x u : Text} {w : Word} (h : Laid s a (t :: ts)) (ht : s.drop a = x ++ u)
    (hc : Chunk x [w] u) : t.start = a := by
  cases h with
  | cons hr hle hlt hstop =>
    have := congrArg List.length (hc.eq_of_reads (ht ▸ hr))
    rw [← ht] at this
    simp only [List.length_drop] at this
    omega

theorem Laid.chunk (h : Laid s a (t :: ts)) :
    s.drop t.start = t.text ++ s.drop t.stop ∧ Chunk t.text [t.word] (s.drop t.stop) := by
  cases h with
  | cons hr hle hlt hstop htext hl hk =>
    have hlen : t.text.length = t.stop - t.start := by rw [htext, slice_length hstop]
    have hsplit : s.drop t.start = t.text ++ s.drop t.stop := by rw [htext, slice_append_drop hlt.le]
    exact ⟨hsplit, .lexeme (hlen ▸ hsplit ▸ hl) hk⟩

end Laid

/-- From `a` to `b` the source has these tokens, with the gap `g` in front of them and `k` behind, and from
`b` on the tokens `us`. -/
structure Stretch (s : Text) (a b : Nat) (g k : Gap) (ts us : List Token) : Prop where
  cut : Cut s a
  laid : Laid s a (ts ++ us)
  scans : Scans g (s.drop a) (ts.map spot) (s.drop b) k
  bounds : ∀ t ∈ ts, a ≤ t.start ∧ t.start < b

namespace Stretch

variable {s : Text} {a b z : Nat} {g k : Gap} {ts us : List Token}

theorem reads (h : Stretch s a b g k ts us) : Reads (s.drop a) (ts.map word) (s.drop b) := by
  simpa [Function.comp_def, spot] using h.scans.reads

/-- A stretch is divided at any cut. -/
theorem split (h : Stretch s a z g k ts us) (hb : Cut s b) (hab : a ≤ b) (hbz : b ≤ z) :
    ∃ ts₁ ts₂ j, ts = ts₁ ++ ts₂ ∧ Stretch s a b g j ts₁ (ts₂ ++ us) ∧ Stretch s b z j k ts₂ us := by
  obtain ⟨vs, vs', hvs, hread, hlaid, hlo, hhi⟩ := h.laid.split h.cut hb hab
  obtain ⟨ls₁, ls₂, j, hls, hwords, hscan, hscan'⟩ := h.scans.split hread (by
    simp only [List.length_drop]
    omega)
  have hlen : vs.length = ls₁.length := by simpa using (congrArg List.length hwords).symm
  have hle : vs.length ≤ ts.length := by
    have := congrArg List.length hls
    simp only [List.length_map, List.length_append] at this
    omega
  obtain ⟨ts₂, rfl⟩ := List.prefix_of_prefix_length_le ⟨vs', hvs.symm⟩ (List.prefix_append ts us) hle
  rw [List.map_append] at hls
  obtain ⟨rfl, rfl⟩ := List.append_inj hls (by simpa using hlen)
  rw [List.append_assoc] at hvs
  obtain rfl := List.append_cancel_left hvs
  exact ⟨vs, ts₂, j, rfl, ⟨h.cut, List.append_assoc .. ▸ h.laid, hscan, hlo⟩,
    ⟨hb, hlaid, hscan', fun t ht => ⟨hhi t (by simp [ht]), (h.bounds t (by simp [ht])).2⟩⟩⟩

end Stretch

end SwiftMacros.Token
