import Mathlib
import SwiftMacros.Proofs.Grammar.Signed
import SwiftMacros.Proofs.Grammar.Stacked
import SwiftMacros.Proofs.Token.Rescanned

/-! A closure that has been laid out, behind its signature. Its tokens are those of the body without its
separators, and the closing brace; they are divided into statements again. -/

namespace SwiftMacros

open Token (Stretch Matched Gap Laid dropSeparators)
open SwiftMacros.Parser

namespace Text

/-- The blocks of a body up to the closing brace, each on lines of its own. -/
def body (bs : List Text) : Text := (if bs.isEmpty then ' ' else '\n') :: (stack bs ++ ['\x7d'])

theorem last_trimEnd {t : Text} {c : Char} (h : c ∈ (trimEnd t).getLast?) : isBlank c = false := by
  rw [trimEnd, dropWhileEnd, List.getLast?_reverse] at h
  have hnot := List.head?_dropWhile_not isBlank t.reverse
  rw [Option.mem_def.mp h] at hnot
  simpa using hnot

theorem stack_eq_nil {bs : List Text} (h : stack bs = []) : bs = [] := by
  cases bs with
  | nil => rfl
  | cons b bs => simp [stack_cons] at h

/-- The lines of a body are the same if its stacked blocks are. -/
theorem body_congr {as bs : List Text} (h : stack as = stack bs) : body as = body bs := by
  have hnil : as = [] ↔ bs = [] :=
    ⟨fun ha => stack_eq_nil (by rw [← h, ha]; rfl), fun hb => stack_eq_nil (by rw [h, hb]; rfl)⟩
  have hempty : as.isEmpty = bs.isEmpty := by
    rw [Bool.eq_iff_iff, List.isEmpty_iff, List.isEmpty_iff, hnil]
  rw [body, body, hempty, h]

end Text

theorem closureLayout_eq (head unit : Text) (ss : List Statement) :
    closureLayout head unit ss = head ++ Text.body (ss.map (Statement.layout unit)) := by
  cases ss with
  | nil => rfl
  | cons s ss =>
    have hlines : ∀ (t : Text) (ts : List Text), Text.joinLines (t :: ts ++ [['\x7d']]) =
        t ++ '\n' :: (Text.stack ts ++ ['\x7d']) := by
      intro t ts
      induction ts generalizing t with
      | nil => exact Text.joinLines_cons t ['\x7d'] []
      | cons u us ih =>
        rw [List.cons_append, List.cons_append, Text.joinLines_cons, ← List.cons_append, ih, Text.stack_cons]
        simp
    exact hlines head ((s :: ss).map (Statement.layout unit))

section Bodies

variable {s t opening unit : Text} {i z front : Nat} {g h k : Gap} {ps : List Nat} {ss : List Statement}
  {B W T : List Token} {bs : List Text}

/-- The tokens of a body that has been laid out, and its closing brace. -/
theorem Spans.relaid (hspans : Spans s i ps ss z) (hunit : ∀ c ∈ unit, Text.isIndent c = true)
    (hB : Stretch s i z g h B W) (hhead : ∀ c ∈ (s.drop i).head?, Text.isBlank c = false)
    (hfront : ∀ u ∈ B.head?, u.start < front) (hbs : ss.map (Statement.layout unit) = bs)
    (ht : t = opening ++ Text.body bs) (hT : Stretch t opening.length t.length {} k T []) : ∃ vs e, T = vs ++ [e] ∧
      (dropSeparators 0 B).Forall₂ (Matched (· ∈ ps) (Text.Opens (opening.length + 1) bs) front) vs ∧
      e.isSymbol "\x7d" = true ∧ e.spaceBefore = true ∧
      e.start = opening.length + 1 + (Text.stack bs).length ∧ e.stop = t.length := by
  have hlen : t.length = opening.length + 1 + (Text.stack bs).length + 1 := by
    simp only [ht, Text.body, List.length_append, List.length_cons, List.length_nil]
    omega
  have hdrop : t.drop opening.length = Text.body bs := by rw [ht, List.drop_left]
  have hdrop₁ : t.drop (opening.length + 1) = Text.stack bs ++ ['\x7d'] := by
    rw [← List.drop_drop, hdrop]
    rfl
  have hT₁ := hT.skip_gap hdrop (by split <;> rfl) (by omega)
  have hline : ss ≠ [] → Gap.over {} [if bs.isEmpty then ' ' else '\n'] = Gap.line := fun hne => by
    have hempty : bs.isEmpty = false := by simpa [← hbs] using hne
    simp [hempty, Gap.over, Gap.line]
  -- the stack starts behind the gap
  have hbase : opening.length + 1 = opening.length + 1 + (Text.stack []).length := rfl
  obtain ⟨vs, T', g₁, rfl, hvs, hT', hg₁⟩ := hspans.matched hunit hB hhead (fun p hp => .inr hp) (fun p hp => hp)
    (fun u hu => .inr (hfront u hu)) hT₁ (hbs.symm ▸ hdrop₁) (by rw [hbs]; omega) hline
    (show bs = [] ++ ss.map (Statement.layout unit) from hbs.symm) hbase
  rw [hbs] at hT'
  have hspace : g₁.space = true := by
    rcases hg₁ with rfl | rfl <;> rfl
  have hbrace : t.drop (opening.length + 1 + (Text.stack bs).length) = ['\x7d'] := by
    rw [← List.drop_drop, hdrop₁, List.drop_left]
  obtain ⟨e, us, rfl, hspot, hstart, hstop, hend⟩ := hT'.skip_symbol hbrace rfl (by omega)
  -- nothing is behind the closing brace
  obtain rfl : us = [] := by
    cases us with
    | nil => rfl
    | cons u us =>
      have := hend.bounds u (by simp)
      omega
  obtain ⟨hgap, hword⟩ := Prod.mk.inj hspot
  obtain ⟨hkind, htext⟩ := Prod.mk.inj hword
  refine ⟨vs, e, rfl, hvs, by simp [Token.isSymbol, Token.has, hkind, htext], ?_, hstart, by omega⟩
  rw [← hspace, ← hgap]

/-- The statements of a body are laid out as blocks. -/
theorem Spans.blocks (hspans : Spans s i ps ss z) (hunit : ∀ c ∈ unit, Text.isIndent c = true) (hcut : Cut s i)
    (hhead : ∀ c ∈ (s.drop i).head?, Text.isBlank c = false) : ∀ st ∈ ss, Text.Block unit (st.layout unit) := by
  have hbetween : ∀ a b : Nat, a ≤ b → Cut s a → (∀ c ∈ (s.drop a).head?, Text.isBlank c = false) →
      ∀ st ∈ Grammar.statementBetween s a b, Text.Block unit (st.layout unit) := by
    intro a b hab hcut hhead st hst
    rcases statementBetween_cases s a b with ⟨hnone, -⟩ | ⟨st', w, hone, hindent, hne, hslice, -⟩
    · rw [hnone] at hst
      cases hst
    · obtain rfl : st = st' := by simpa [hone] using hst
      refine st.block_layout hunit (fun c hc => ?_) (fun c hc => hhead c ?_) ?_
      · rw [hindent] at hc
        refine ⟨gaps_indentAt hcut c hc, ?_⟩
        rintro rfl
        exact Text.newline_not_mem_indentAt s a hc
      · rw [← slice_append_drop hab, hslice, List.append_assoc, List.head?_append_of_ne_nil _ hne]
        exact hc
      · obtain ⟨x, c, hx⟩ := List.eq_nil_or_concat st.text |>.resolve_left hne
        have htext : st.text = Text.trimEnd (Text.slice s a b) := by
          rw [Grammar.statementBetween] at hone
          split at hone
          · cases hone
          · obtain rfl := List.singleton_inj.mp hone
            rfl
        have hlast : c ∈ st.text.getLast? := by rw [hx]; simp
        exact ⟨c, hlast, Text.last_trimEnd (htext ▸ hlast)⟩
  induction hspans with
  | last hle => exact hbetween _ _ hle hcut hhead
  | next hle hlt hread hrounded hb hd hsep hspans ih =>
    intro st hst
    rcases List.mem_append.mp hst with hst | hst
    · exact hbetween _ _ hle hcut hhead st hst
    · exact ih hd.1 hd.head_not_blank st hst

/-- Where the body of a closure starts that has been laid out. -/
theorem Text.takeWhile_body {y : Text} {ys : List Text} (hy : Text.Block unit y) :
    (Text.body (y :: ys)).takeWhile Text.isBlank = '\n' :: y.takeWhile Text.isBlank := by
  rw [Text.body, List.isEmpty_cons, if_neg Bool.false_ne_true, List.takeWhile_cons_of_pos (by rfl), Text.stack_cons,
    List.append_assoc, hy.takeWhile_append]

/-- Dividing a body that has been laid out into statements and laying them out gives the same lines. -/
theorem Divided.body_layout {ss' : List Statement} (hunit : ∀ c ∈ unit, Text.isIndent c = true)
    (h : Divided t (Text.Opens (opening.length + 1) bs)
      (opening.length + ((Text.body bs).takeWhile Text.isBlank).length) ss' z)
    (hblocks : ∀ b ∈ bs, Text.Block unit b) (ht : t = opening ++ Text.body bs)
    (hz : z = opening.length + 1 + (Text.stack bs).length) :
    Text.stack (ss'.map (Statement.layout unit)) = Text.stack bs := by
  cases bs with
  | nil =>
    -- nothing but white space is there
    have hstart : opening.length + ((Text.body []).takeWhile Text.isBlank).length = z := hz.symm
    rw [hstart] at h
    cases h with
    | last => simp [Grammar.statementBetween, Text.slice, Text.trimEnd, Text.dropWhileEnd]
    | next _ hb =>
      obtain ⟨xs, y, ys, hnil, -⟩ := hb
      simp at hnil
  | cons y ys =>
    obtain ⟨hy, -⟩ := List.forall_mem_cons.mp hblocks
    have hlen : (opening ++ ['\n']).length = opening.length + 1 := by simp
    have hstart : opening.length + ((Text.body (y :: ys)).takeWhile Text.isBlank).length =
        (opening ++ ['\n']).length + (Text.stack []).length + (y.takeWhile Text.isBlank).length := by
      rw [Text.takeWhile_body hy, hlen]
      simp [Text.stack]
      omega
    rw [hstart, ← hlen] at h
    have ht' : t = opening ++ ['\n'] ++ (Text.stack (y :: ys) ++ ['\x7d']) := by
      rw [ht, Text.body]
      simp
    exact h.stack_layout (fun c hc => Token.isBlank_of_isIndent (hunit c hc)) hblocks ht' (by simp) (by rw [hz, hlen])
      (show y :: ys = [] ++ y :: ys from rfl) rfl

end Bodies

/-- Statements start where lexemes do. -/
theorem Spans.starts {s : Text} {a z : Nat} {ps : List Nat} {ss : List Statement} (h : Spans s a ps ss z) :
    ∀ p ∈ ps, Tile.Starts s p := by
  induction h with
  | last => simp
  | next _ _ _ _ _ hd _ _ ih => exact List.forall_mem_cons.mpr ⟨hd, ih⟩

/-- No cut is inside of a token. -/
theorem Token.Laid.apart {s : Text} {a : Nat} {ts : List Token} (h : Laid s a ts) (ha : Cut s a) :
    ∀ t ∈ ts, t.stop = t.start + t.text.length ∧ ∀ p, Cut s p → p ≤ t.start ∨ t.stop ≤ p := by
  induction h with
  | nil => simp
  | @cons a t ts hr hle hlt hstop htext hl hk h ih =>
    have hcut := ha.of_reads (hlt.le.trans hstop) hr
    have hlen : t.text.length = t.stop - t.start := by rw [htext, slice_length hstop]
    obtain ⟨hsplit, hchunk⟩ := (Laid.cons hr hle hlt hstop htext hl hk h).chunk
    have hread : Token.Reads (s.drop t.start) [t.word] (s.drop t.stop) := hsplit ▸ .chunk hchunk (.done _)
    refine List.forall_mem_cons.mpr ⟨⟨by omega, fun p hp => ?_⟩, ih (hcut.of_reads hstop hread)⟩
    by_contra hinside
    have := hcut.le_of_lexeme hl hk hp (by omega)
    omega

namespace Cursor

variable {c : Cursor} {e u : Token} {es U Y B W : List Token} {ss : List Statement} {n i z : Nat} {g k : Token.Gap}

/-- White space behind a token has no part in what is scanned. -/
theorem BodyStart.stretch (hb : c.BodyStart u i) (h : Stretch c.source c.edge z g k B W) (hz : i ≤ z) :
    ∃ j, Stretch c.source i z j k B W := by
  obtain ⟨ts₁, ts₂, j, rfl, h₁, h₂⟩ := h.split hb.cut hb.le.1 hz
  have hwords := (h₁.reads.blank (slice_append_drop hb.le.1).symm hb.blank).1
  obtain rfl : ts₁ = [] := by simpa using hwords
  exact ⟨j, h₂⟩

/-- The statements of a body are those of the spans up to the brace that is to come. -/
theorem Reached.body_spans (hr : c.Reached) (hc : c.Fenced (e :: es)) (he : e.isSymbol "\x7d" = true)
    (hw : ∀ t ∈ c.inner, t.Within c.source) (hcut : Cut c.source c.edge) (hbehind : c.behind ≠ [])
    (hi : i = c.previous.stop + ((c.source.drop c.previous.stop).takeWhile Text.isBlank).length)
    (hss : Grammar.statementsFrom c.source c.eof { start := i } c.ahead = some (ss, n))
    (hclose : (c.advance n).peek.reads ['\x7d'] = true) :
    c.BodyStart c.peek i ∧ c.ahead[n]? = some e ∧
      Spans c.source i (Grammar.starts c.eof { start := i } c.ahead) ss e.start := by
  rw [previous_stop hbehind] at hi
  obtain ⟨t, ts, ht⟩ := List.exists_cons_of_ne_nil hbehind
  have hs := hc.sound
  have hstart := hs.bodyStart hcut ht hc.ahead_eq
  rw [← hi] at hstart
  have hplaced := hs.placed_ahead (t := c.peek) (by rw [hc.ahead_eq]; simp)
  have hchain : c.ahead.IsChain (Token.Joint c.source) := by
    have := hs.arranged.joint
    rw [inner] at this
    exact (List.isChain_append.mp this).2.1
  obtain ⟨z, hz, hbrace, hspans⟩ := statementsFrom_spans
    (fun v hv => ⟨hs.placed_ahead hv, hw v (by simp [inner, hv])⟩) hchain hr.spaced hss hstart.le.2 hstart.reads rfl rfl
    (by
      rw [hc.ahead_eq]
      rintro _ ⟨⟩
      exact ⟨hstart.cut.of_reads (hplaced.lt.le.trans hplaced.le) hstart.reads, .inl rfl⟩)
    (fun _ _ _ h => by cases h)
  have hfenced : Token.Fenced ([] ++ e :: es) c.ahead := hc.ahead
  have hc' : (c.advance n).Fenced (e :: es) := ⟨(hs.advance n).sound, hfenced.drop_statementsFrom he rfl hss⟩
  obtain ⟨hpeek, -⟩ := hc'.advance_closer (hc'.isCloser_of_reads (m := '\x7d') (by simp) hclose)
  obtain rfl : z = e := by
    rw [← hpeek, peek_advance, Cursor.peek]
    simp [hz]
  exact ⟨hstart, hz, hspans⟩

/-- The token that comes after others is at their number. -/
theorem Sound.length_eq (hs : c.Sound) (hahead : c.ahead = U ++ e :: Y) (hn : c.ahead[n]? = some e) : n = U.length := by
  have hU : c.ahead[U.length]? = some e := by simp [hahead]
  obtain ⟨h1, h1'⟩ := List.getElem?_eq_some_iff.mp hn
  obtain ⟨h2, h2'⟩ := List.getElem?_eq_some_iff.mp hU
  exact (hs.nodup_ahead.getElem_inj_iff).mp (h1'.trans h2'.symm)

end Cursor

/-- A body that has been laid out is divided into statements that are laid out as the same lines. -/
theorem Grammar.statements_relaid {c c' : Cursor} {unit opening : Text} {bs : List Text} {ss : List Statement}
    {U U' Y : List Token} {e e' : Token} {i front n : Nat} (hs : c.Sound) (hs' : c'.Sound)
    (hunit : ∀ c ∈ unit, Text.isIndent c = true) (hblocks : ∀ b ∈ bs, Text.Block unit b)
    (hsource : c'.source = opening ++ Text.body bs) (hedge : c'.edge = opening.length) (hbehind : c'.behind ≠ [])
    (hahead : c.ahead = U ++ e :: Y) (hahead' : c'.ahead = U' ++ [e'])
    (hss : statementsFrom c.source c.eof { start := i } c.ahead = some (ss, n)) (hn : n = U.length)
    (he : e'.isSymbol "\x7d" = true ∧ e'.spaceBefore = true)
    (hstart : e'.start = opening.length + 1 + (Text.stack bs).length)
    (hU : (dropSeparators 0 U).Forall₂ (Matched (· ∈ starts c.eof { start := i } c.ahead)
      (Text.Opens (opening.length + 1) bs) front) U') (hfront : front ≤ c.peek.start + 1) :
    ∃ ss', statementsFrom c'.source c'.eof
        { start := c'.previous.stop + ((c'.source.drop c'.previous.stop).takeWhile Text.isBlank).length } c'.ahead =
          some (ss', U'.length) ∧
      Text.stack (ss'.map (Statement.layout unit)) = Text.stack bs := by
  subst hn
  have hbody : c'.source.drop opening.length = Text.body bs := by rw [hsource, List.drop_left]
  have hle := hs'.bodyStart_le
  rw [Cursor.previous_stop hbehind, hahead']
  rw [hahead', hedge, hbody] at hle
  rw [hedge, hbody]
  have horder := hs'.ahead_pairwise
  rw [hahead'] at horder
  rw [hahead] at hss hU
  have hlater : ∀ u ∈ U.tail, front ≤ u.start := by
    intro u hu
    have hpair := hs.ahead_pairwise
    rw [hahead] at hpair
    cases U with
    | nil => cases hu
    | cons v vs =>
      have hpeek : c.peek = v := by simp [Cursor.peek, hahead]
      have := (List.pairwise_cons.mp hpair).1 u (List.mem_append_left _ hu)
      rw [hpeek] at hfront
      omega
  obtain ⟨ss', hss', hdivided⟩ : ∃ ss', statementsFrom c'.source c'.eof
      { start := opening.length + ((Text.body bs).takeWhile Text.isBlank).length } (U' ++ [e']) = some (ss', U'.length) ∧
      Divided c'.source (Text.Opens (opening.length + 1) bs)
        (opening.length + ((Text.body bs).takeWhile Text.isBlank).length) ss' e'.start :=
    statementsFrom_rejoined he hss (fun _ hp => hp) hU rfl (fun h => by cases h) hlater (fun h => by cases h) hle
      (horder.imp fun h => h.le)
  exact ⟨ss', hss', hdivided.body_layout hunit hblocks hsource hstart⟩

end SwiftMacros
