import Mathlib
import SwiftMacros.Proofs.Grammar.Spans
import SwiftMacros.Proofs.Token.Spots
import SwiftMacros.Proofs.Token.Twins

/-! The tokens of a body that has been laid out. They are those of the body, without the semicolons
between the statements; where a statement starts there is a new line now, and the gaps inside of it are
as they were. -/

namespace SwiftMacros

open Token (Word Spot Gap Reads Scans Laid Stretch Relined Chunk isGap dropSemicolons)

namespace Text

/-- Texts one after the other, with a line end behind each. -/
def stack (ts : List Text) : Text := ts.flatMap (· ++ ['\n'])

theorem stack_cons (t : Text) (ts : List Text) : stack (t :: ts) = t ++ '\n' :: stack ts := by simp [stack]

theorem stack_append (ts us : List Text) : stack (ts ++ us) = stack ts ++ stack us := List.flatMap_append

/-- The offset is that of the first character in a text of a stack, white space apart. The stack stands at
`o`. -/
def Opens (o : Nat) (bs : List Text) (m : Nat) : Prop :=
  ∃ xs y ys, bs = xs ++ y :: ys ∧ m = o + (stack xs).length + (y.takeWhile isBlank).length

theorem newline_not_mem_indentAt (s : Text) (a : Nat) : '\n' ∉ indentAt s a := by
  rw [indentAt]
  split
  · exact (slice_lineStart s a).2.1
  · simp [spaces]

end Text

namespace Token

/-- The tokens without the semicolons that stand outside of all brackets; `depth` is the number of open
brackets. -/
def dropSeparators : Int → List Token → List Token
  | _, [] => []
  | depth, t :: ts =>
    if depth = 0 ∧ t.isSymbol ";" then dropSeparators depth ts
    else t :: dropSeparators (t.word.depth depth) ts

section Separators

variable {depth : Int} {t : Token} {ts us : List Token}

theorem isSymbolIn_word (t : Token) : t.word.isSymbolIn [";"] = t.isSymbol ";" := by
  simp [Word.isSymbolIn, word, isSymbol, has]

theorem map_dropSeparators (depth : Int) (ts : List Token) :
    (dropSeparators depth ts).map word = dropSemicolons depth (ts.map word) := by
  induction ts generalizing depth with
  | nil => rfl
  | cons t ts ih =>
    simp only [dropSeparators, List.map_cons, dropSemicolons, isSymbolIn_word]
    split
    · exact ih depth
    · rw [List.map_cons, ih]

theorem dropSeparators_append (depth : Int) (ts us : List Token) : dropSeparators depth (ts ++ us) =
    dropSeparators depth ts ++ dropSeparators ((ts.map word).foldl Word.depth depth) us := by
  induction ts generalizing depth with
  | nil => rfl
  | cons t ts ih =>
    simp only [List.cons_append, dropSeparators, List.map_cons, List.foldl_cons]
    split
    next h => rw [ih, depth_of_semicolon (isSymbolIn_word t ▸ h.2)]
    next => rw [ih, List.cons_append]

theorem dropSeparators_sublist (depth : Int) (ts : List Token) : (dropSeparators depth ts).Sublist ts := by
  induction ts generalizing depth with
  | nil => exact .slnil
  | cons t ts ih =>
    rw [dropSeparators]
    split
    · exact (ih _).cons t
    · exact (ih _).cons_cons t

/-- Nothing is left out where no lexeme is dropped. -/
theorem dropSeparators_eq (h : dropSemicolons depth (ts.map word) = ts.map word) : dropSeparators depth ts = ts := by
  refine (dropSeparators_sublist depth ts).eq_of_length ?_
  rw [← List.length_map (f := word), map_dropSeparators, h, List.length_map]

theorem Rounded.dropSeparators_append (h : Rounded (ts.map word)) (us : List Token) :
    dropSeparators 0 (ts ++ us) = ts ++ dropSeparators 0 us := by
  rw [Token.dropSeparators_append, dropSeparators_eq h.semicolons, h.depth]

end Separators

/-- The first token in a source, and the second one where it has been laid out. At the starts `A` of
statements there are the starts `A'` of lines; the gaps before all other tokens, from `front` on, are as
they were. -/
structure Matched (A A' : Nat → Prop) (front : Nat) (u v : Token) : Prop extends Alike u v where
  opens : A u.start → A' v.start ∧ v.newlineBefore = true ∧ v.spaceBefore = true
  gap : ¬ A u.start → front ≤ u.start → v.newlineBefore = u.newlineBefore ∧ v.spaceBefore = u.spaceBefore

/-- Lexemes on one line, string literals apart. -/
theorem Reads.line {t r : Text} {ls : List Word} (h : Reads t ls r) :
    ∀ w ∈ ls, w.1 ≠ .string → '\n' ∉ w.2 := by
  induction h with
  | done => simp
  | chunk hc _ ih =>
    refine List.forall_mem_append.mpr ⟨?_, ih⟩
    cases hc with
    | lexeme hl hk =>
      refine List.forall_mem_singleton.mpr fun hstring => ?_
      rcases lexeme_cases hl with ⟨q, -, hq, -⟩ | ⟨-, -, hc, -⟩ | ⟨-, -, hs⟩
      · exact absurd hq hstring
      · exact absurd hc (not_comment_of_significant hk)
      · exact simpleLexeme_line hs hk
    | _ => simp

end Token

section Blocks

variable {s : Text} {a b : Nat} {unit : Text}

/-- What stands between two offsets is white space, or a statement and the white space behind it. -/
theorem statementBetween_cases (s : Text) (a b : Nat) :
    (Grammar.statementBetween s a b = [] ∧ ∀ c ∈ Text.slice s a b, Text.isBlank c = true) ∨
    ∃ (st : Statement) (w : Text), Grammar.statementBetween s a b = [st] ∧ st.indent = Text.indentAt s a ∧
      st.text ≠ [] ∧ Text.slice s a b = st.text ++ w ∧ ∀ c ∈ w, Text.isBlank c = true := by
  obtain ⟨w, hw, hblank⟩ := Text.trimEnd_append (Text.slice s a b)
  rw [Grammar.statementBetween]
  split
  next htrim =>
    rw [htrim, List.nil_append] at hw
    exact .inl ⟨rfl, hw ▸ hblank⟩
  next text hne => exact .inr ⟨_, w, rfl, rfl, hne, hw, hblank⟩

/-- The first line of a statement stays as it is behind its indent. -/
theorem Statement.layout_split (hunit : ∀ c ∈ unit, Text.isIndent c = true) (st : Statement)
    (hindent : ∀ c ∈ st.indent, isGap c = true ∧ c ≠ '\n')
    (htext : ∀ c ∈ st.text.head?, Text.isBlank c = false) : ∃ ws x, st.layout unit = ws ++ x ∧
      (∀ c ∈ ws, isGap c = true ∧ c ≠ '\n') ∧ Relined st.text x := by
  obtain ⟨b, g, t, u, hsplit, hlayout, hb, hg, hrelined⟩ := st.layout_reindented hunit
  have hg' : ∀ c ∈ g, isGap c = true ∧ c ≠ '\n' := fun c hc =>
    ⟨Token.isGap_of_isIndent (hg c hc), by rintro rfl; simpa [Text.isIndent] using hg _ hc⟩
  obtain ⟨i, rfl, hi⟩ : ∃ i, t = i ++ st.text ∧ ∀ c ∈ i, c ∈ st.indent := by
    rcases List.append_eq_append_iff.mp hsplit with ⟨i, rfl, htext'⟩ | ⟨i, hindent', rfl⟩
    · cases i with
      | nil => exact ⟨[], by simpa using htext'.symm, by simp⟩
      | cons c i =>
        have := htext c (by rw [htext']; rfl)
        simp [(hb c (by simp)).1] at this
    · exact ⟨i, rfl, fun c hc => by rw [hindent']; simp [hc]⟩
  obtain ⟨x, rfl, hx⟩ := hrelined.of_line fun hmem => (hindent _ (hi _ hmem)).2 rfl
  refine ⟨g ++ i, x, by rw [hlayout, List.append_assoc], ?_, hx⟩
  exact List.forall_mem_append.mpr ⟨hg', fun c hc => hindent c (hi c hc)⟩

end Blocks

section Matched

variable {s t unit : Text} {a b z o front : Nat} {g g₀ h k : Gap} {A : Nat → Prop} {us T W X : List Token}
  {bs xs zs : List Text} {R : Text} {base : Nat}

/-- Tokens that are scanned in two texts which differ in the indents of their lines are alike, and so are
the gaps between them. -/
theorem Token.alike_of_spots {us vs : List Token} {ms : List Spot} (hwords : ms.map Prod.snd = us.map Token.word)
    (htail : ms.tail = (us.map Token.spot).tail) (hline : ∀ u ∈ us, u.kind ≠ .string → '\n' ∉ u.text)
    (hmoved : ms.Forall₂ (fun p p' => p.1 = p'.1 ∧ p.2.1 = p'.2.1 ∧ Relined p.2.2 p'.2.2) (vs.map Token.spot)) :
    us.Forall₂ Token.Alike vs ∧ us.tail.Forall₂ (fun u v => v.newlineBefore = u.newlineBefore ∧
      v.spaceBefore = u.spaceBefore) vs.tail := by
  have halike : ∀ (u v : Token) (w : Word), w = u.word → '\n' ∉ u.text ∨ u.kind = .string → w.1 = v.kind →
      Relined w.2 v.text → Token.Alike u v := by
    rintro u v _ rfl hu hk hrelined
    refine ⟨hk.symm, fun hs => ?_⟩
    exact hrelined.eq_of_line (hu.resolve_right hs)
  constructor
  · rw [List.forall₂_map_right_iff] at hmoved
    clear htail
    induction hmoved generalizing us with
    | nil =>
      obtain rfl : us = [] := by simpa using hwords.symm
      exact .nil
    | @cons p v ms vs hp _ ih =>
      obtain ⟨u, us, rfl, hu, hus⟩ := List.map_eq_cons_iff.mp hwords.symm
      obtain ⟨hu', hus'⟩ := List.forall_mem_cons.mp hline
      refine .cons (halike u v p.2 hu.symm ?_ hp.2.1 hp.2.2) (ih hus.symm hus')
      by_cases hk : u.kind = .string
      · exact .inr hk
      · exact .inl (hu' hk)
  · have := List.forall₂_drop 1 hmoved
    rw [List.drop_one, List.drop_one, htail, ← List.map_tail, ← List.map_tail, List.forall₂_map_left_iff,
      List.forall₂_map_right_iff] at this
    refine this.imp fun u v h => ?_
    obtain ⟨h1, h2⟩ := (Token.Gap.mk.injEq _ _ _ _).mp h.1
    exact ⟨h1.symm, h2.symm⟩

/-- One span: the tokens between two offsets are those of the statement that has been laid out. -/
theorem Token.Stretch.matched (hus : Stretch s a b g h us W) (hunit : ∀ c ∈ unit, Text.isIndent c = true)
    (hab : a ≤ b) (hhead : ∀ c ∈ (s.drop a).head?, Text.isBlank c = false) (hA : ∀ p, A p → p ≤ a ∨ b ≤ p)
    (hfront : ∀ u ∈ us.head?, A u.start ∨ u.start < front) (hT : Stretch t o z g₀ k T X)
    (ht : t.drop o = Text.stack ((Grammar.statementBetween s a b).map (Statement.layout unit)) ++ R)
    (hz : o + (Text.stack ((Grammar.statementBetween s a b).map (Statement.layout unit))).length ≤ z)
    (hg₀ : Grammar.statementBetween s a b ≠ [] → g₀ = Gap.line)
    (hbs : bs = xs ++ (Grammar.statementBetween s a b).map (Statement.layout unit) ++ zs)
    (hbase : o = base + (Text.stack xs).length) :
    ∃ vs T' g₁, T = vs ++ T' ∧ us.Forall₂ (Token.Matched A (Text.Opens base bs) front) vs ∧
      Stretch t (o + (Text.stack ((Grammar.statementBetween s a b).map (Statement.layout unit))).length) z g₁ k T' X ∧
      (g₁ = g₀ ∨ g₁ = Gap.line) := by
  rcases statementBetween_cases s a b with ⟨hnone, hblank⟩ | ⟨st, w, hone, hindent, hne, hslice, hblank⟩
  · -- white space has no tokens
    rw [hnone]
    have hwords := (hus.reads.blank (slice_append_drop hab).symm hblank).1
    obtain rfl : us = [] := by simpa using hwords
    exact ⟨[], T, g₀, rfl, .nil, hT, .inl rfl⟩
  · rw [hone] at ht hg₀ hbs hz ⊢
    obtain rfl := hg₀ (by simp)
    obtain ⟨c, x, hx⟩ := List.exists_cons_of_ne_nil hne
    have hc : Text.isBlank c = false := hhead c (by
      rw [← slice_append_drop hab, hslice, hx]
      rfl)
    obtain ⟨ws, y, hlayout, hws, hy⟩ := st.layout_split hunit (fun d hd => ⟨gaps_indentAt hus.cut d (hindent ▸ hd), by
      rintro rfl
      exact Text.newline_not_mem_indentAt s a (hindent ▸ hd)⟩) (by
        rw [hx]
        rintro d ⟨⟩
        exact hc)
    -- the statement alone, in front of a line end, then with its lines moved
    have hstatement : ∀ {ms : List Spot} {i j : Gap}, Scans i (s.drop a) ms (s.drop b) j → ∃ ms',
        ms.Forall₂ (fun p p' => p.1 = p'.1 ∧ p.2.1 = p'.2.1 ∧ Relined p.2.2 p'.2.2) ms' ∧
          Scans i (y ++ '\n' :: R) ms' R Gap.line := by
      intro ms i j hms
      have := hms.trim (x := st.text) (w := w) (by rw [← hslice, slice_append_drop hab]) hblank R
      obtain ⟨ms', hms', hmoved⟩ := this.moved Token.Relined.mover (x := st.text ++ ['\n']) (by simp)
        (Token.Relined.mover.newline hy)
      exact ⟨ms', hms', by simpa using hmoved⟩
    obtain ⟨ms, j, hms, hwords, htail⟩ := hus.scans.restart Gap.line
    obtain ⟨ms', hms', hmoved⟩ := hstatement hms
    have hdrop : t.drop o = ws ++ (y ++ '\n' :: R) := by
      rw [ht, List.map_singleton, Text.stack_cons, hlayout]
      simp [Text.stack]
    have hblock : Scans Gap.line (t.drop o) ms' R Gap.line := hdrop ▸ hmoved.of_gaps fun c hc => (hws c hc).1
    have hlen : (Text.stack ([st].map (Statement.layout unit))).length = ws.length + y.length + 1 := by
      rw [List.map_singleton, Text.stack_cons, hlayout]
      simp [Text.stack]
      omega
    have hR : t.drop (o + (Text.stack ([st].map (Statement.layout unit))).length) = R := by
      rw [← List.drop_drop, ht, List.drop_left]
    rw [← hR] at hblock
    have htotal := congrArg List.length hdrop
    simp only [List.length_drop, List.length_append, List.length_cons] at htotal
    have hcut := hT.cut.of_reads (by omega) hblock.reads
    obtain ⟨vs, T', i, rfl, hvs, hT'⟩ := hT.split hcut (Nat.le_add_right _ _) hz
    obtain ⟨hspots, rfl⟩ := hblock.unique hvs.scans
    rw [← hspots] at hms'
    have hline : ∀ u ∈ us, u.kind ≠ .string → '\n' ∉ u.text := fun u hu =>
      hus.reads.line u.word (List.mem_map_of_mem hu)
    obtain ⟨halike, hgaps⟩ := Token.alike_of_spots (hwords.trans List.map_map) htail hline hms'
    refine ⟨vs, T', Gap.line, rfl, ?_, hT', .inr rfl⟩
    cases us with
    | nil =>
      cases halike
      exact .nil
    | cons u us =>
      obtain ⟨v, vs, hhead', htail', rfl⟩ := List.forall₂_cons_left_iff.mp halike
      obtain ⟨hua, hub⟩ := hus.bounds u (by simp)
      have hlaid := hus.laid
      have hbehind : ∀ u' ∈ us, ¬ A u'.start := by
        intro u' hu' hAu'
        cases hlaid with
        | cons hr hle hlt _ _ _ _ hlaid =>
          have := hlaid.le_start u' (by simp [hu'])
          have := (hus.bounds u' (by simp [hu'])).2
          rcases hA _ hAu' with h | h <;> omega
      refine .cons ⟨hhead', fun hAu => ?_, fun hAu hle => ?_⟩ ?_
      · obtain rfl : u.start = a := by rcases hA _ hAu with h | h <;> omega
        have hv := hvs.scans.line_head v.spot (by simp)
        refine ⟨⟨xs, st.layout unit, zs, by simpa using hbs, ?_⟩, congrArg Gap.newline hv, congrArg Gap.space hv⟩
        have htake : (st.layout unit).takeWhile Text.isBlank = ws := by
          rw [hlayout, List.takeWhile_append_of_pos fun d hd => Token.isBlank_of_isGap (hws d hd).1]
          obtain ⟨y', hy'⟩ := List.head?_eq_some_iff.mp (hy.head?_eq.symm.trans (by rw [hx]; rfl))
          simp [hy', hc]
        rw [htake, ← hbase]
        -- without a gap in front, the first lexeme stands at the front of the block
        obtain ⟨hu, hchunk⟩ := hlaid.chunk
        obtain ⟨ms, j, hms, hwords, -⟩ := hus.scans.restart {}
        obtain ⟨ms, rfl⟩ := (hu ▸ hms).front hchunk (by rintro rfl; simp at hwords)
        obtain ⟨ms', hms', hmoved⟩ := hstatement hms
        obtain ⟨⟨-, w'⟩, ms', ⟨rfl, -, -⟩, -, rfl⟩ := List.forall₂_cons_left_iff.mp hms'
        obtain ⟨x, hx, hchunk'⟩ := hmoved.chunk
        have hdrop' : t.drop (o + ws.length) = w'.2 ++ x := by rw [← List.drop_drop, hdrop, List.drop_left, hx]
        have hgap : Reads (t.drop o) [] (t.drop (o + ws.length)) := by
          rw [hdrop', ← hx, hdrop]
          exact Reads.of_gaps (fun c hc => (hws c hc).1) _
        exact (hT.laid.of_gap hT.cut (Nat.le_add_right _ _) (by omega) hgap).start_eq hdrop' hchunk'
      · rcases hfront u (by simp) with h | h
        · exact absurd h hAu
        · omega
      · exact List.Forall₂.mp (fun u v hu hgap => ⟨hu.2, fun hAu => absurd hAu hu.1, fun _ _ => hgap⟩)
          ((List.forall₂_and_left _ _).mpr ⟨hbehind, htail'⟩) hgaps

/-- Where a lexeme starts, it is the first of the tokens from there on. -/
theorem Tile.Starts.head_eq (hb : Tile.Starts s b) (hlaid : Laid s b us) : ∀ u ∈ us.head?, u.start = b := by
  obtain ⟨-, k, n, hl, hk⟩ := hb
  cases us with
  | nil => simp
  | cons u us =>
    rintro _ ⟨⟩
    have hle := (Token.lexeme_bounds hl hk).2
    exact hlaid.start_eq (List.take_append_drop n _).symm
      (.lexeme (by rwa [List.take_append_drop, List.length_take, min_eq_left hle]) hk)

/-- No white space is there. -/
theorem Tile.Starts.head_not_blank (hb : Tile.Starts s b) : ∀ c ∈ (s.drop b).head?, Text.isBlank c = false := by
  obtain ⟨-, k, n, hl, hk⟩ := hb
  intro c hc
  obtain ⟨x, hx⟩ := List.head?_eq_some_iff.mp hc
  exact Token.lexeme_first (hx ▸ hl) hk

/-- The tokens of the first statement, those that separate it from the second, and the others. -/
theorem Token.Stretch.divide {d : Nat} {ws : List Word} (hus : Stretch s a z g h us W) (hle : a ≤ b)
    (hread : Reads (s.drop a) ws (s.drop b)) (hrounded : Token.Rounded ws) (hb : Tile.Starts s b)
    (hd : Tile.Starts s d) (hsep : Separates s a b d) (hdz : d ≤ z) : ∃ us₁ ms us₂ j i, us = us₁ ++ (ms ++ us₂) ∧
      Stretch s a b g j us₁ (ms ++ us₂ ++ W) ∧ Stretch s b d j i ms (us₂ ++ W) ∧ Stretch s d z i h us₂ W ∧
      Token.dropSeparators 0 us = us₁ ++ Token.dropSeparators 0 us₂ := by
  obtain ⟨us₁, vs, j, rfl, hus₁, hvs⟩ := hus.split hb.1 hle (hsep.le.trans hdz)
  obtain ⟨ms, us₂, i, rfl, hms, hus₂⟩ := hvs.split hd.1 hsep.le hdz
  obtain rfl := hread.unique hus₁.reads
  refine ⟨us₁, ms, us₂, j, i, rfl, hus₁, hms, hus₂, ?_⟩
  rw [hrounded.dropSeparators_append]
  rcases hsep with ⟨rfl, -⟩ | ⟨-, hmark⟩
  · obtain rfl : ms = [] := List.map_eq_nil_iff.mp hms.reads.eq_nil
    rfl
  · obtain ⟨m, rfl, hm⟩ := List.map_eq_singleton_iff.mp (hmark.unique hms.reads).symm
    have hsemicolon : m.isSymbol ";" = true := by
      rw [← Token.isSymbolIn_word, hm]
      rfl
    rw [List.singleton_append, Token.dropSeparators, if_pos ⟨rfl, hsemicolon⟩]

/-- A token behind a line end tells of it. -/
theorem BreaksLine.gap (hbreak : BreaksLine s a b) (hus : Stretch s a b g h us W) :
    h.newline = true ∧ h.space = true := by
  obtain ⟨q, haq, hqb, hq, hread, hline⟩ := hbreak
  obtain ⟨vs, ws, j, rfl, hvs, hws⟩ := hus.split hq haq hqb
  have hne : Text.slice s q b ≠ [] := List.ne_nil_of_mem hline
  obtain ⟨-, rfl⟩ := (Scans.of_reads hread (slice_append_drop hqb).symm hne j).unique hws.scans
  exact ⟨by simp [Gap.over, hline], rfl⟩

/-- Where nothing separates the statements but line ends, each but the first starts on a new line. -/
theorem Spans.breaks {ps : List Nat} {ss : List Statement} (hspans : Spans s a ps ss z)
    (hus : Stretch s a z g h us W) (hplain : Token.dropSeparators 0 us = us) :
    ∀ u ∈ us, u.start ∈ ps → u.newlineBefore = true ∧ u.spaceBefore = true := by
  induction hspans generalizing us g h with
  | last => simp
  | @next a b d z ws ps ss hle hlt hread hrounded hb hd hsep hspans ih =>
    obtain ⟨us₁, ms, us₂, j, i, rfl, hus₁, hms, hus₂, hdrop⟩ := hus.divide hle hread hrounded hb hd hsep hspans.le.1
    have hplain' := List.append_cancel_left (hdrop.symm.trans hplain)
    obtain rfl : ms = [] := by
      have hlen := (Token.dropSeparators_sublist 0 us₂).length_le
      rw [hplain', List.length_append] at hlen
      exact List.length_eq_zero_iff.mp (by omega)
    obtain ⟨rfl, hbreak⟩ : b = d ∧ BreaksLine s a d := by
      refine hsep.resolve_right fun hmark => ?_
      have := hmark.2.unique hms.reads
      cases this
    obtain rfl := hms.scans.eq_gap
    intro u hu hmem
    rcases List.mem_append.mp hu with hu | hu
    · have hlt := (hus₁.bounds u hu).2
      rcases List.mem_cons.mp hmem with heq | hmem
      · omega
      · have := (hspans.le.2 _ hmem).1
        omega
    · rcases List.mem_cons.mp hmem with heq | hmem
      · cases us₂ with
        | nil => cases hu
        | cons v vs =>
          obtain rfl : v.start = b := hd.head_eq hus₂.laid v rfl
          have hlaid := hus₂.laid
          rcases List.mem_cons.mp hu with rfl | hu
          · obtain ⟨hv, hchunk⟩ := hlaid.chunk
            obtain ⟨ls, hls⟩ := (hv ▸ hus₂.scans).front hchunk (by simp)
            obtain ⟨hspot, -⟩ := List.cons.inj hls
            have hgap := (Prod.mk.inj hspot).1
            have := hbreak.gap hus₁
            rw [← hgap] at this
            exact this
          · cases hlaid with
            | cons hr hle hlt _ _ _ _ hlaid =>
              have := hlaid.le_start u (by simp [hu])
              omega
      · exact ih hus₂ hplain' u hu hmem

/-- All spans: the tokens of a body without its separators are those of the statements that have been laid
out. -/
theorem Spans.matched {ps : List Nat} {ss : List Statement} (hspans : Spans s a ps ss b)
    (hunit : ∀ c ∈ unit, Text.isIndent c = true) (hus : Stretch s a b g h us W)
    (hhead : ∀ c ∈ (s.drop a).head?, Text.isBlank c = false) (hA : ∀ p, A p → p ≤ a ∨ p ∈ ps) (hps : ∀ p ∈ ps, A p)
    (hfront : ∀ u ∈ us.head?, A u.start ∨ u.start < front) (hT : Stretch t o z g₀ k T X)
    (ht : t.drop o = Text.stack (ss.map (Statement.layout unit)) ++ R)
    (hz : o + (Text.stack (ss.map (Statement.layout unit))).length ≤ z) (hg₀ : ss ≠ [] → g₀ = Gap.line)
    (hbs : bs = xs ++ ss.map (Statement.layout unit)) (hbase : o = base + (Text.stack xs).length) :
    ∃ vs T' g₁, T = vs ++ T' ∧
      (Token.dropSeparators 0 us).Forall₂ (Token.Matched A (Text.Opens base bs) front) vs ∧
      Stretch t (o + (Text.stack (ss.map (Statement.layout unit))).length) z g₁ k T' X ∧
      (g₁ = g₀ ∨ g₁ = Gap.line) := by
  induction hspans generalizing us g h o g₀ T xs with
  | @last a b ws hle hread hrounded =>
    obtain rfl := hread.unique hus.reads
    rw [Token.dropSeparators_eq hrounded.semicolons]
    exact hus.matched hunit hle hhead (fun p hp => .inl ((hA p hp).resolve_right (by simp))) hfront hT ht hz
      (by simpa using hg₀) (show bs = xs ++ (Grammar.statementBetween s a b).map (Statement.layout unit) ++ [] by
        simpa using hbs) hbase
  | @next a b d z' ws ps ss hle hlt hread hrounded hb hd hsep hspans ih =>
    have hbd := hsep.le
    obtain ⟨us₁, ms, us₂, j, i, rfl, hus₁, hms, hus₂, hdrop⟩ := hus.divide hle hread hrounded hb hd hsep hspans.le.1
    have hA' : ∀ p, A p → p ≤ a ∨ b ≤ p := fun p hp => (hA p hp).imp_right fun hmem => by
      rcases List.mem_cons.mp hmem with rfl | hmem
      · exact hbd
      · exact hbd.trans (hspans.le.2 p hmem).1
    have hA'' : ∀ p, A p → p ≤ d ∨ p ∈ ps := fun p hp => by
      rcases hA p hp with hle' | hmem
      · exact .inl (hle'.trans hlt.le)
      · exact (List.mem_cons.mp hmem).imp_left Eq.le
    obtain ⟨hps₁, hps₂⟩ := List.forall_mem_cons.mp hps
    rw [List.map_append, Text.stack_append] at ht hz ⊢
    rw [List.map_append] at hbs
    rw [List.append_assoc] at ht
    rw [List.length_append] at hz ⊢
    obtain ⟨vs₁, T₁, g₁, rfl, hvs₁, hT₁, hg₁⟩ := hus₁.matched hunit hle hhead hA'
      (fun u hu => hfront u (List.mem_head?_append_of_mem_head? hu)) hT ht (by omega)
      (fun h => hg₀ (by simp [h])) (show bs = xs ++ (Grammar.statementBetween s a b).map (Statement.layout unit) ++
        ss.map (Statement.layout unit) by simpa using hbs) hbase
    obtain ⟨vs₂, T₂, g₂, rfl, hvs₂, hT₂, hg₂⟩ := ih hus₂ hd.head_not_blank hA'' hps₂
      (fun u hu => .inl (by
        rw [hd.head_eq hus₂.laid u (List.mem_head?_append_of_mem_head? hu)]
        exact hps₁))
      hT₁ (by rw [← List.drop_drop, ht, List.drop_left]) (by omega)
      (fun h => by
        have hline := hg₀ (by simp [h])
        rcases hg₁ with hg₁ | hg₁
        · rw [hg₁, hline]
        · exact hg₁)
      (show bs = (xs ++ (Grammar.statementBetween s a b).map (Statement.layout unit)) ++
        ss.map (Statement.layout unit) by simpa using hbs)
      (by rw [Text.stack_append, List.length_append, hbase, Nat.add_assoc])
    refine ⟨vs₁ ++ vs₂, T₂, g₂, (List.append_assoc ..).symm, hdrop ▸ List.rel_append hvs₁ hvs₂,
      Nat.add_assoc o _ _ ▸ hT₂, ?_⟩
    rcases hg₂ with rfl | hg₂
    · exact hg₁
    · exact .inr hg₂

end Matched

end SwiftMacros
