import Mathlib
import SwiftMacros.Proofs.Cursor.Shifted
import SwiftMacros.Proofs.Cursor.Yields
import SwiftMacros.Proofs.Token.Spots

/-! White space within a line that gives way to other white space within the line. The lexemes of the source
are the same: those in front of it stand where they did, and those behind it have moved by as much. -/

namespace SwiftMacros

open SwiftMacros.Token (Reads Chunk Laid Spaced Same Word Stops Rest isSpaceChar isGap)

namespace Token

variable {s t u r x w w' : Text} {a a' b : Nat} {ls : List Word}

theorem isGap_of_isSpaceChar {c : Char} (h : isSpaceChar c = true) : isGap c = true := by
  rw [isGap, h, Bool.true_or]

/-- White space is a stop for what is in front of it. -/
theorem stops_of_spaces (hne : w ≠ []) (hw : ∀ c ∈ w, isSpaceChar c = true) (r : Text) :
    Stops (w ++ r) ∧ (w ++ r).head? ≠ some '"' := by
  obtain ⟨c, w, rfl⟩ := List.exists_cons_of_ne_nil hne
  have hc := hw c (by simp)
  simp only [isSpaceChar, Bool.or_eq_true, beq_iff_eq] at hc
  refine ⟨stops_cons ?_, ?_⟩
  · rcases hc with ((rfl | rfl) | rfl) | rfl <;> decide
  · rcases hc with ((rfl | rfl) | rfl) | rfl <;> simp

/-- White space at the end of what has been read can be other white space. -/
theorem Reads.respace (h : Reads t ls r) (ht : t = x ++ w ++ r) (hw : ∀ c ∈ w, isSpaceChar c = true)
    (hne : w' ≠ []) (hw' : ∀ c ∈ w', isSpaceChar c = true) : Reads (x ++ w' ++ r) ls r := by
  induction h generalizing x w with
  | done r =>
    have hlen := congrArg List.length ht
    simp only [List.length_append] at hlen
    obtain rfl : x = [] := List.length_eq_zero_iff.mp (by omega)
    exact .of_gaps (fun c hc => isGap_of_isSpaceChar (hw' c hc)) r
  | @chunk y u r a ls hc hrest ih =>
    obtain ⟨v, rfl⟩ := hrest.suffix
    obtain ⟨hstop, hquote⟩ := stops_of_spaces hne hw' r
    have hyv : y ++ v = x ++ w := by simpa [← List.append_assoc] using ht
    rcases List.append_eq_append_iff.mp hyv with ⟨x', rfl, rfl⟩ | ⟨w₁, rfl, rfl⟩
    · -- the chunk lies in front of the white space
      have hc' : Chunk y a (x' ++ (w' ++ r)) := Chunk.append (u := x') (r := w ++ r) (by simpa using hc)
        (.inl (hstop.apart _)) fun h => absurd h hquote
      have ih' := ih (x := x') rfl hw
      rw [List.append_assoc] at ih'
      simpa using Reads.chunk hc' ih'
    · have hv : ∀ c ∈ v, isSpaceChar c = true := fun c hc => hw c (by simp [hc])
      have ih' := ih (x := []) rfl hv
      rcases List.eq_nil_or_concat w₁ with rfl | ⟨w₁, c, rfl⟩
      · rw [List.append_nil] at hc
        rw [List.append_assoc]
        exact .chunk (Chunk.append (u := []) (r := v ++ r) hc (.inl (hstop.apart _)) fun h => absurd h hquote) ih'
      · have hspace := hw c (by simp)
        obtain ⟨rfl, hy | ⟨z, -, hy⟩⟩ := hc.last_not_blank (c := c) (by simp [← List.append_assoc])
          (isBlank_of_isGap (isGap_of_isSpaceChar hspace))
        · rw [List.concat_eq_append, ← List.append_assoc] at hy
          have hnil : x ++ w₁ = [] := List.append_cancel_right (hy.trans (List.nil_append [c]).symm)
          obtain ⟨rfl, -⟩ := List.append_eq_nil_iff.mp hnil
          exact ih'
        · -- a line end is no white space within a line
          have hlast := congrArg List.getLast? hy
          rw [List.concat_eq_append, ← List.append_assoc, List.getLast?_concat, List.getLast?_concat] at hlast
          cases hlast
          cases hspace

/-- The next token, told by what stands behind the gap. -/
theorem Laid.next {k : Kind} {v : Token} {vs : List Token} (h : Laid s a (v :: vs)) (ha : Cut s a) (hab : a ≤ b)
    (hb : b ≤ s.length) (hgap : Reads (s.drop a) [] (s.drop b)) (hd : s.drop b = x ++ u) (hc : Chunk x [(k, x)] u) :
    v.start = b ∧ v.stop = b + x.length ∧ v.word = (k, x) ∧ Cut s v.stop ∧ Laid s v.stop vs := by
  have hlaid := h.of_gap ha hab hb hgap
  have hstart := hlaid.start_eq hd hc
  obtain ⟨hsplit, hchunk⟩ := hlaid.chunk
  rw [hstart, hd] at hsplit
  obtain ⟨hx, hword, -⟩ := hc.unique hchunk hsplit
  cases hlaid with
  | cons hr hle hlt hstop htext hl hk hvs =>
    have hlen : v.text.length = v.stop - v.start := by rw [htext, slice_length hstop]
    have hv : v.stop = b + x.length := by
      rw [hx]
      omega
    have hrest : s.drop v.stop = u := by rw [hv, ← List.drop_drop, hd, List.drop_left]
    have hread : Reads (s.drop b) ([(k, x)] ++ []) (s.drop v.stop) := by
      rw [hd, hrest]
      exact .chunk hc (.done _)
    exact ⟨hstart, hv, (List.singleton_inj.mp hword).symm, ha.of_reads hstop (hgap.trans hread), hvs⟩

end Token

namespace Respacing

variable (S : Respacing) {a a' : Nat}

theorem drop_left (h : a ≤ S.front.length) : S.source.drop a = S.front.drop a ++ (S.space ++ S.back) ∧
    S.source'.drop a = S.front.drop a ++ (S.space' ++ S.back) := by
  rw [source, source', List.append_assoc, List.append_assoc, List.drop_append_of_le_length h,
    List.drop_append_of_le_length h]
  exact ⟨rfl, rfl⟩

/-- Behind the white space comes the same in both sources. -/
theorem drop_place : S.source.drop S.place = S.back ∧ S.source'.drop (S.front.length + S.space'.length) = S.back :=
  ⟨List.drop_left' (List.length_append ..), List.drop_left' (List.length_append ..)⟩

theorem length_source : S.source.length = S.place + S.back.length ∧
    S.source'.length = S.front.length + S.space'.length + S.back.length := by
  simp only [source, source', place, List.length_append, and_self]

/-- Whether a line ends in front of what comes behind the white space. -/
theorem newline_gap (h : a ≤ S.front.length) : '\n' ∈ Text.slice S.source a S.place ↔
    '\n' ∈ Text.slice S.source' a (S.front.length + S.space'.length) := by
  have hno : '\n' ∉ S.space ∧ '\n' ∉ S.space' :=
    ⟨fun hn => absurd (S.blank _ hn) (by decide), fun hn => absurd (S.blank' _ hn) (by decide)⟩
  obtain ⟨hdrop, hdrop'⟩ := S.drop_left h
  rw [Text.slice, Text.slice, hdrop, hdrop', ← List.append_assoc, ← List.append_assoc,
    List.take_left' (by simp only [List.length_append, List.length_drop, place]; omega),
    List.take_left' (by simp only [List.length_append, List.length_drop]; omega)]
  simp only [List.mem_append, hno.1, hno.2]

/-- No lexeme ends within the white space. -/
theorem stop_le_of_chunk {t : Token} (hlt : t.start < t.stop) (hle : t.stop ≤ S.place)
    (htext : t.text = Text.slice S.source t.start t.stop) {u : Text} (hc : Chunk t.text [t.word] u) :
    t.stop ≤ S.front.length := by
  by_contra hinside
  rw [place] at hle
  have hlast : t.text.getLast? = S.space[t.stop - 1 - S.front.length]? := by
    rw [List.getLast?_eq_getElem?, htext, slice_length (by simp only [source, List.length_append]; omega), Text.slice,
      List.getElem?_take_of_lt (by omega), List.getElem?_drop, source, List.append_assoc,
      List.getElem?_append_right (by omega), List.getElem?_append_left (by omega)]
    congr 1
    omega
  obtain ⟨d, hd⟩ : ∃ d, S.space[t.stop - 1 - S.front.length]? = some d :=
    ⟨_, List.getElem?_eq_getElem (by omega)⟩
  have hspace := S.blank d (List.mem_of_getElem? hd)
  cases (hc.last_not_blank (hlast.trans hd) (Token.isBlank_of_isGap (Token.isGap_of_isSpaceChar hspace))).1

theorem drop_right (h : S.place ≤ a) (ha : a' + S.space.length = a + S.space'.length) :
    S.source.drop a = S.source'.drop a' := by
  rw [place] at h
  have hdrop : ∀ {x y : Text} {n : Nat}, x.length ≤ n → (x ++ y).drop n = y.drop (n - x.length) := by
    intro x y n hn
    rw [List.drop_append, List.drop_eq_nil_iff.mpr hn, List.nil_append]
  rw [source, source', hdrop (by rw [List.length_append]; omega), hdrop (by rw [List.length_append]; omega),
    List.length_append, List.length_append]
  congr 1
  omega

end Respacing

namespace Token

variable {S : Respacing} {a a' : Nat} {ts ts' : List Token}

/-- The next tokens of both sources are the same if the gaps in front of them are alike. -/
theorem Same.of_gaps {t t' : Token} (hword : t'.word = t.word) (hs : Spaced S.source a (t :: ts))
    (hs' : Spaced S.source' a' (t' :: ts')) (hgap : a < t.start ↔ a' < t'.start)
    (hline : '\n' ∈ Text.slice S.source a t.start ↔ '\n' ∈ Text.slice S.source' a' t'.start)
    (hstands : S.Stands t t') : Same S t t' where
  kind := congrArg Prod.fst hword
  text _ := congrArg Prod.snd hword
  spelled := congrArg Prod.snd hword
  newline := by rw [Bool.eq_iff_iff, hs.2.1, hs'.2.1, hline]
  space := by rw [Bool.eq_iff_iff, hs.1, hs'.1, hgap]
  stands := hstands

/-- The tokens of both sources are the same, if one of them starts where the white space ends. -/
theorem Laid.respaced {e e' : Token} (h : Laid S.source a ts) (h' : Laid S.source' a' ts') (ha : Cut S.source a)
    (ha' : Cut S.source' a') (hs : Spaced S.source a (ts ++ [e])) (hs' : Spaced S.source' a' (ts' ++ [e']))
    (hw : ts'.map word = ts.map word) (hword : e'.word = e.word)
    (he : e.start = S.source.length ∧ e.stop = S.source.length)
    (he' : e'.start = S.source'.length ∧ e'.stop = S.source'.length)
    (hside : a' = a ∧ a ≤ S.front.length ∧ (∃ u ∈ ts, u.start = S.place) ∨
      S.place ≤ a ∧ a' + S.space.length = a + S.space'.length) : List.Forall₂ (Same S) ts ts' ∧ Same S e e' := by
  have hlength := S.length_source
  have hplace : S.place = S.front.length + S.space.length := rfl
  induction h generalizing a' ts' with
  | @nil a r hr hrest =>
    obtain rfl : ts' = [] := by simpa using hw
    rcases hside with ⟨-, -, u, hu, -⟩ | ⟨hright, hmoved⟩
    · cases hu
    refine ⟨.nil, .of_gaps hword hs hs' (by omega) ?_ ⟨by omega, .inr ⟨?_, by omega, by omega⟩⟩⟩
    · rw [Text.slice, Text.slice, S.drop_right hright hmoved, he.1, he'.1,
        show S.source'.length - a' = S.source.length - a by omega]
    · rw [Respacing.Right]
      omega
  | @cons a t ts hr hle hlt hstop htext hl hk hts ih =>
    obtain ⟨t', ts', rfl, hw, hwords⟩ : ∃ t' us, ts' = t' :: us ∧ t'.word = t.word ∧ us.map word = ts.map word := by
      rw [List.map_cons] at hw
      obtain ⟨t', us, rfl, h1, h2⟩ := List.map_eq_cons_iff.mp hw
      exact ⟨t', us, rfl, h1, h2⟩
    obtain ⟨hsplit, hchunk⟩ := (Laid.cons hr hle hlt hstop htext hl hk hts).chunk
    have hlen : t.text.length = t.stop - t.start := by rw [htext, slice_length hstop]
    have hcut : Cut S.source t.stop := by
      have hread := Reads.chunk hchunk (.done (S.source.drop t.stop))
      rw [← hsplit] at hread
      exact ha.of_reads hstop (hr.trans hread)
    have hspace := List.length_pos_iff.mpr S.space_ne
    have hspace' := List.length_pos_iff.mpr S.space'_ne
    rcases hside with ⟨rfl, hfront, v, hv⟩ | ⟨hright, hmoved⟩
    · obtain ⟨hdrop, hdrop'⟩ := S.drop_left hfront
      by_cases hhere : t.start = S.place
      · -- the white space is in front of the token
        have hgap : Reads (S.source'.drop a') [] (S.source'.drop (S.front.length + S.space'.length)) := by
          rw [hhere, hdrop, S.drop_place.1, ← List.append_assoc] at hr
          rw [hdrop', S.drop_place.2, ← List.append_assoc]
          exact hr.respace rfl S.blank S.space'_ne S.blank'
        have hfirst : S.source'.drop (S.front.length + S.space'.length) = t.text ++ S.source.drop t.stop := by
          rw [S.drop_place.2, ← S.drop_place.1, ← hhere, hsplit]
        obtain ⟨hstart', hstop', -, hcut', hlaid'⟩ := h'.next ha' (by omega) (by omega) hgap hfirst hchunk
        have hrest := ih hlaid' hcut hcut' hs.2.2 hs'.2.2 hwords (.inr ⟨by omega, by omega⟩)
        refine ⟨.cons (.of_gaps hw hs hs' (by omega) ?_ ⟨hlt.le, .inr ⟨hhere.ge, by omega, by omega⟩⟩) hrest.1, hrest.2⟩
        rw [hhere, hstart']
        exact S.newline_gap hfront
      · -- the token is in front of the white space
        have hmem : v ∈ ts := (List.mem_cons.mp hv.1).resolve_left fun h => hhere (h ▸ hv.2)
        have hbefore : t.stop ≤ S.place := hv.2 ▸ hts.le_start v hmem
        have hleft := S.stop_le_of_chunk hlt hbefore htext hchunk
        have hstop' := S.drop_left hleft
        have hstart := S.drop_left (hlt.le.trans hleft)
        obtain ⟨hapart, hquote⟩ := stops_of_spaces S.space'_ne S.blank' S.back
        have hgap : Reads (S.source'.drop a') [] (S.source'.drop t.start) := by
          rw [hdrop', hstart.2, ← slice_append_drop hle, List.append_assoc]
          refine Reads.append_within (r := S.space ++ S.back) ?_ rfl (.inl (hapart.apart _)) fun h => absurd h hquote
          rw [← List.append_assoc, slice_append_drop hle, ← hdrop, ← hstart.1]
          exact hr
        have hnext : Chunk t.text [t.word] (S.source'.drop t.stop) := by
          rw [hstop'.2]
          exact Chunk.append (r := S.space ++ S.back) (hstop'.1 ▸ hchunk) (.inl (hapart.apart _)) fun h => absurd h hquote
        have hslice : Text.slice S.source t.start t.stop = Text.slice S.source' t.start t.stop := by
          rw [Respacing.source, Respacing.source', List.append_assoc, List.append_assoc,
            Text.slice_append_left hleft, Text.slice_append_left hleft]
        have hfirst : S.source'.drop t.start = t.text ++ S.source'.drop t.stop := by
          rw [htext, hslice, slice_append_drop hlt.le]
        obtain ⟨hstart', hstop', -, hcut', hlaid'⟩ := h'.next ha' hle (by omega) hgap hfirst hnext
        have hrest := ih hlaid' hcut hcut' hs.2.2 hs'.2.2 hwords (.inl ⟨by omega, hleft, v, hmem, hv.2⟩)
        refine ⟨.cons (.of_gaps hw hs hs' (by omega) ?_ ⟨hlt.le, .inl ⟨hleft, hstart', by omega⟩⟩) hrest.1, hrest.2⟩
        have hbound := hlt.le.trans hleft
        rw [hstart', Respacing.source, Respacing.source', List.append_assoc, List.append_assoc,
          Text.slice_append_left hbound, Text.slice_append_left hbound]
    · -- the token is behind the white space
      obtain ⟨b, hb⟩ := Nat.exists_eq_add_of_le hle
      have hdrop : S.source.drop t.start = S.source'.drop (a' + b) := S.drop_right (by omega) (by omega)
      obtain ⟨hstart', hstop', -, hcut', hlaid'⟩ := h'.next ha' (Nat.le_add_right a' b) (by omega)
        (by rwa [← hdrop, ← S.drop_right hright hmoved]) (hdrop ▸ hsplit) hchunk
      have hrest := ih hlaid' hcut hcut' hs.2.2 hs'.2.2 hwords (.inr ⟨by omega, by omega⟩)
      refine ⟨.cons (.of_gaps hw hs hs' (by omega) ?_ ⟨hlt.le, .inr ⟨hright.trans hle, by omega, by omega⟩⟩) hrest.1,
        hrest.2⟩
      rw [Text.slice, Text.slice, S.drop_right hright hmoved, hstart', hb, Nat.add_sub_cancel_left,
        Nat.add_sub_cancel_left]

end Token

namespace Cursor

variable {S : Respacing} {c : Cursor}

/-- The tokens of a text tell what is before them, the end of the text included. -/
theorem spaced_tokens {t : Text} (h : ofText t = .ok c) : Spaced t 0 c.tokens := by
  cases hts : Token.tokenize t with
  | error e =>
    rw [ofText, hts] at h
    cases h
  | ok ts =>
    obtain ⟨d, hd, htokens⟩ := tokens_ofText hts
    cases h.symm.trans hd
    obtain ⟨us, e, rfl, -, -, -, -, hspaced⟩ := Token.tokenize_located hts
    rwa [htokens]

/-- A text that can be read has the tokens that it is read as. -/
theorem exists_ofText {t r : Text} {ls : List Word} (h : Reads t ls r) (hr : Rest r) :
    ∃ c, ofText t = .ok c ∧ c.ahead.map Token.word = ls := by
  have hwords := Token.words_eq_ok_iff.mpr ⟨r, h, hr⟩
  cases hts : Token.tokenize t with
  | error e =>
    rw [Token.words, hts] at hwords
    cases hwords
  | ok ts =>
    obtain ⟨c, hc, -⟩ := tokens_ofText hts
    obtain ⟨-, hbehind, hlaid, -⟩ := laid_ofText hc
    rw [inner, hbehind, List.reverse_nil, List.nil_append] at hlaid
    have hahead := Token.words_eq_ok_iff.mpr hlaid.reads
    cases hwords.symm.trans hahead
    exact ⟨c, hc, rfl⟩

/-- If a lexeme starts where the white space ends, the other source has the same lexemes. -/
theorem mirror_ofText (h : ofText S.source = .ok c) {t : Token} (ht : t ∈ c.ahead) (hplace : t.start = S.place)
    (hk : t.kind ≠ .operator) : ∃ c', ofText S.source' = .ok c' ∧ c.Mirror (S.before []) c' := by
  obtain ⟨hs, hsource, hbehind⟩ := sound_ofText h
  obtain ⟨-, -, hlaid, hkind, htext, hstart, hstop⟩ := laid_ofText h
  rw [inner, hbehind, List.reverse_nil, List.nil_append] at hlaid
  have hcut : Cut S.source S.place := hplace ▸ hsource ▸ ((hs.placed_ahead ht).whole hk).1
  have hread : ∃ r, Reads S.source' (c.ahead.map Token.word) r ∧ Rest r := by
    obtain ⟨us, vs, hsplit, hus, hvs, -⟩ := hlaid.split (cut_zero _) hcut (Nat.zero_le _)
    obtain ⟨r, hr, hrest⟩ := hvs.reads
    rw [S.drop_place.1] at hus hr
    refine ⟨r, ?_, hrest⟩
    rw [hsplit, List.map_append]
    exact (hus.respace rfl S.blank S.space'_ne S.blank').trans hr
  obtain ⟨r, hread, hrest⟩ := hread
  obtain ⟨c', hc', hwords⟩ := exists_ofText hread hrest
  obtain ⟨hs', hsource', hbehind'⟩ := sound_ofText hc'
  obtain ⟨-, -, hlaid', hkind', htext', hstart', hstop'⟩ := laid_ofText hc'
  rw [inner, hbehind', List.reverse_nil, List.nil_append] at hlaid'
  have hspaced := spaced_tokens h
  have hspaced' := spaced_tokens hc'
  rw [tokens, hbehind, List.reverse_nil, List.nil_append] at hspaced
  rw [tokens, hbehind', List.reverse_nil, List.nil_append] at hspaced'
  obtain ⟨hahead, heof⟩ := hlaid.respaced hlaid' (cut_zero _) (cut_zero _) hspaced hspaced' hwords
    (by rw [Token.word, Token.word, hkind, hkind', htext, htext']) ⟨hstart, hstop⟩ ⟨hstart', hstop'⟩
    (.inl ⟨rfl, Nat.zero_le _, t, ht, hplace⟩)
  exact ⟨c', hc', {
    sound := hs
    sound' := hs'
    source := hsource
    source' := hsource'
    behind := by rw [hbehind, hbehind']; exact .nil
    ahead := by
      refine hahead.imp fun _ _ ht => ?_
      exact Mirror.same_of ht rfl rfl rfl
    eof := Mirror.same_of heof rfl rfl rfl
    based := ⟨[], hbehind, False.elim⟩ }⟩

end Cursor

end SwiftMacros
