import Mathlib
import SwiftMacros.Proofs.Cursor.Slice
import SwiftMacros.Proofs.Grammar.Reading
import SwiftMacros.Proofs.Text.Lines
import SwiftMacros.Grammar.Closure

/-! Splitting a body into statements loses nothing but the semicolons between them. The statements
are read one by one as the lexemes of the body, with comments and white space cut off at their ends.
-/

namespace SwiftMacros

open Token (Word Reads Placed Joint isMarkChar isGap)

namespace Token

/-- Whether a lexeme is one of some symbols. -/
def Word.isSymbolIn (w : Word) (marks : List String) : Bool :=
  w.1 == .symbol && marks.any fun m => w.2 == m.toList

/-- The number of open brackets behind a lexeme, of which there are `depth` in front of it. -/
def Word.depth (depth : Int) (w : Word) : Int :=
  if w.isSymbolIn ["(", "[", "\x7b"] then depth + 1
  else if w.isSymbolIn [")", "]", "\x7d"] then depth - 1
  else depth

/-- The lexemes of a body without the semicolons that stand outside of all brackets; `depth` is the
number of open brackets. -/
def dropSemicolons : Int → List Word → List Word
  | _, [] => []
  | depth, w :: ws =>
    if depth = 0 ∧ w.isSymbolIn [";"] then dropSemicolons depth ws
    else w :: dropSemicolons (w.depth depth) ws

theorem dropSemicolons_append {ls : List Word} (h : ∀ w ∈ ls, w.1 ≠ .symbol) (depth : Int)
    (ws : List Word) : dropSemicolons depth (ls ++ ws) = ls ++ dropSemicolons depth ws := by
  induction ls with
  | nil => rfl
  | cons w ls ih =>
    obtain ⟨hw, hls⟩ := List.forall_mem_cons.mp h
    have hno : ∀ marks, w.isSymbolIn marks = false := fun marks => by simp [Word.isSymbolIn, hw]
    simp only [List.cons_append, dropSemicolons, Word.depth, hno, Bool.false_eq_true, and_false,
      if_false, ih hls]

/-- Text without a symbol is read as lexemes that are none. -/
theorem Reads.no_symbol {t x r : Text} {ls : List Word} (h : Reads t ls r) (ht : t = x ++ r)
    (hx : ∀ c ∈ x, isSymbolChar c = false) : ∀ w ∈ ls, w.1 ≠ .symbol := by
  induction h generalizing x with
  | done => simp
  | @chunk y u r a ls hc hrest ih =>
    obtain ⟨v, rfl⟩ := hrest.suffix
    obtain rfl : x = y ++ v := by simpa [← List.append_assoc] using ht.symm
    have hls := ih rfl fun c hc => hx c (by simp [hc])
    cases hc with
    | @lexeme k _ _ hl hk =>
      refine List.forall_mem_cons.mpr ⟨?_, hls⟩
      rintro rfl
      obtain ⟨c, z, hz, hc, hlen⟩ := lexeme_symbol hl
      obtain ⟨d, rfl⟩ := List.length_eq_one_iff.mp hlen
      obtain ⟨rfl, -⟩ := List.cons.inj hz
      simp [hx d (by simp)] at hc
    | _ => exact hls

/-- White space that is read on one line is made of gaps. -/
theorem Reads.gaps_before {t y w r : Text} {ls : List Word} (h : Reads t ls r) (ht : t = y ++ w ++ r)
    (hw : ∀ c ∈ w, Text.isBlank c = true ∧ c ≠ '\n') : ∀ c ∈ w, isGap c = true := by
  induction h generalizing y w with
  | done r =>
    have hlen := congrArg List.length ht
    simp only [List.length_append] at hlen
    obtain rfl : w = [] := List.length_eq_zero_iff.mp (by omega)
    simp
  | @chunk x u r a ls hc hrest ih =>
    obtain ⟨v, rfl⟩ := hrest.suffix
    have hxv : x ++ v = y ++ w := by simpa [← List.append_assoc] using ht
    rcases List.append_eq_append_iff.mp hxv with ⟨y', rfl, rfl⟩ | ⟨w', rfl, rfl⟩
    · exact ih rfl hw
    · have hv := ih (y := []) (w := v) rfl fun c hc => hw c (by simp [hc])
      rcases List.eq_nil_or_concat w' with rfl | ⟨w', d, rfl⟩
      · simpa using hv
      · obtain ⟨hblank, hline⟩ := hw d (by simp)
        have hlast : (y ++ w'.concat d).getLast? = some d := by
          rw [List.concat_eq_append, ← List.append_assoc, List.getLast?_concat]
        obtain ⟨-, hx | ⟨z, -, hx⟩⟩ := hc.last_not_blank hlast hblank
        · rw [List.concat_eq_append, ← List.append_assoc] at hx
          have hnil : y ++ w' = [] := List.append_cancel_right (hx.trans (List.nil_append [d]).symm)
          obtain ⟨rfl, rfl⟩ := List.append_eq_nil_iff.mp hnil
          have hd : isGap d = true := Chunk.gap_of_blank hc hblank
          simpa [hd] using hv
        · rw [hx, List.getLast?_concat, Option.some.injEq] at hlast
          exact absurd hlast.symm hline

end Token

/-- In front of a line end a statement is read as these lexemes. -/
def Statement.Reads (s : Statement) (ls : List Word) : Prop :=
  ∀ r, Token.Reads (s.indent ++ s.text ++ '\n' :: r) ls r

section Indent

variable {s : Text} {a z : Nat} {ls : List Word}

/-- What an indent is read from is white space of the lexer. -/
theorem gaps_indentAt (ha : Cut s a) : ∀ c ∈ Text.indentAt s a, isGap c = true := by
  obtain ⟨hle, ms, hread⟩ := ha
  rw [Text.indentAt]
  split
  next hblank =>
    obtain ⟨hy, hline, -⟩ := Text.slice_lineStart s a
    refine hread.gaps_before (y := s.take (Text.lineStart s a)) ?_ (Text.isBlank_of_allBlank hblank hline)
    rw [← hy, List.take_append_drop]
  next =>
    intro c hc
    rw [Text.spaces, List.mem_replicate] at hc
    rw [hc.2]
    rfl

/-- What stands between two offsets is a statement with these lexemes, or none without lexemes. -/
theorem statementBetween_reads (ha : Cut s a) (haz : a ≤ z) (h : Reads (s.drop a) ls (s.drop z)) :
    ∃ lss, (Grammar.statementBetween s a z).Forall₂ Statement.Reads lss ∧ lss.flatten = ls := by
  have hsplit := (slice_append_drop (s := s) haz).symm
  obtain ⟨w, hw, hblank⟩ := Text.trimEnd_append (Text.slice s a z)
  rw [hw] at hsplit
  rw [Grammar.statementBetween]
  split
  next htrim =>
    rw [htrim, List.nil_append] at hsplit
    exact ⟨[], .nil, (h.blank hsplit hblank).1.symm⟩
  next =>
    refine ⟨[ls], .cons (fun r => ?_) .nil, List.flatten_singleton⟩
    rw [List.append_assoc]
    exact (Reads.of_gaps (gaps_indentAt ha) _).trans (h.trim hsplit hblank r)

end Indent

/-- The source has been read up to the token, or up to the operator that it was split off. -/
def Reached (s : Text) (p : Nat) (t : Token) : Prop :=
  Cut s p ∧ (p = t.start ∨ p < t.start ∧ t.kind = .operator ∧ t.newlineBefore = false ∧
    ∀ c ∈ Text.slice s p t.start, isMarkChar c = true)

namespace Reached

variable {s : Text} {p : Nat} {t u : Token}

theorem le (h : Reached s p t) : p ≤ t.start := by
  rcases h.2 with rfl | ⟨hlt, -⟩
  · exact le_rfl
  · exact hlt.le

theorem eq_of_kind (h : Reached s p t) (hk : t.kind ≠ .operator) : p = t.start := by
  rcases h.2 with hp | ⟨-, ho, -⟩
  · exact hp
  · exact absurd ho hk

theorem eq_of_newline (h : Reached s p t) (hn : t.newlineBefore = true) : p = t.start := by
  rcases h.2 with hp | ⟨-, -, ho, -⟩
  · exact hp
  · simp [ho] at hn

/-- Reading goes on from token to token. -/
theorem next (h : Reached s p t) (ht : Placed s t) (hu : Placed s u) (hj : Joint s t u) :
    ∃ q ls, Reached s q u ∧ p ≤ q ∧ Reads (s.drop p) ls (s.drop q) ∧
      (t.kind ≠ .operator → ls = [t.word] ∧ q = u.start) ∧
      (t.kind = .operator → ∀ w ∈ ls, w.1 ≠ .symbol) := by
  have hle := h.le
  have hlt := ht.lt
  have hlength := hu.lt.le.trans hu.le
  by_cases hk : t.kind = .operator
  · have hmarks : ∀ c ∈ Text.slice s p t.start, isMarkChar c = true := by
      rcases h.2 with rfl | ⟨-, -, -, hall⟩
      · simp [Text.slice]
      · exact hall
    have hsplit : Text.slice s p t.stop = Text.slice s p t.start ++ t.text := by
      rw [ht.text, slice_append_slice hle hlt.le]
    rcases hj with ⟨hstop, hcut, hread⟩ | ⟨hstop, -, hku, hnew, m, hm, htext⟩
    · obtain ⟨ls, hls⟩ := h.1.reads hcut (hle.trans hlt.le)
      have hsharp : ∀ c ∈ Text.slice s p t.stop, Token.isSymbolChar c = false := by
        intro c hc
        by_contra hs
        rw [Bool.not_eq_false] at hs
        have hno := Token.isOperatorChar_of_isStop (Token.isStop_of_isSymbolChar hs)
        rw [hsplit, List.mem_append] at hc
        rcases hc with hc | hc
        · simp [Token.isOperatorChar_of_isMarkChar (hmarks c hc)] at hno
        · rcases ht.sharp hk c hc with ho | rfl
          · simp [ho] at hno
          · cases hs
      refine ⟨u.start, ls, ⟨hcut.of_reads hlength hread, .inl rfl⟩, by omega, ?_,
        fun hne => absurd hk hne, fun _ => ?_⟩
      · simpa using hls.trans hread
      · exact hls.no_symbol (slice_append_drop (hle.trans hlt.le)).symm hsharp
    · refine ⟨p, [], ⟨h.1, .inr ⟨by omega, hku, hnew, ?_⟩⟩, le_rfl, .done _, fun hne => absurd hk hne,
        by simp⟩
      rw [← hstop, hsplit, htext]
      simpa [or_imp, forall_and, hm] using hmarks
  · obtain rfl := h.eq_of_kind hk
    obtain ⟨hcut, hread⟩ := hj.reads (.inl hk)
    refine ⟨u.start, [t.word], ⟨hcut.of_reads hlength hread, .inl rfl⟩, hlt.le.trans hj.le, ?_,
      fun _ => ⟨rfl, rfl⟩, fun ho => absurd ho hk⟩
    simpa using (ht.reads hk).trans hread

end Reached

/-- The lexemes that a token adds to a body, in whose state the brackets are counted. -/
theorem Grammar.Body.take_depth {b : Grammar.Body} {t : Token} {ls ws : List Word}
    (hword : t.kind ≠ .operator → ls = [t.word])
    (hsharp : t.kind = .operator → ∀ w ∈ ls, w.1 ≠ .symbol)
    (hsemicolon : ¬ (b.depth = 0 ∧ t.isSymbol ";" = true)) :
    Token.dropSemicolons b.depth (ls ++ ws) = ls ++ Token.dropSemicolons (b.take t).depth ws := by
  by_cases hk : t.kind = .operator
  · have hdepth : (b.take t).depth = b.depth := by
      simp [Grammar.Body.take, Token.isOpener, Token.isCloser, Token.isSymbolIn, hk]
    rw [hdepth, Token.dropSemicolons_append (hsharp hk)]
  · have hmark : t.word.isSymbolIn [";"] = t.isSymbol ";" := by
      simp [Token.Word.isSymbolIn, Token.word, Token.isSymbol, Token.has]
    have hdepth : t.word.depth b.depth = (b.take t).depth := rfl
    rw [hword hk, List.singleton_append, List.singleton_append, Token.dropSemicolons, hmark,
      if_neg hsemicolon, hdepth]

/-- The statements up to a closing brace have, one after the other, the lexemes of the source between
the start of the first and the brace, without the semicolons outside of all brackets. -/
theorem statementsFrom_reads {s : Text} {eof : Token} {ts : List Token} {b : Grammar.Body}
    {ss : List Statement} {n p : Nat} {os : List Word} (hp : ∀ t ∈ ts, Placed s t)
    (hj : ts.IsChain (Joint s)) (h : Grammar.statementsFrom s eof b ts = some (ss, n))
    (hstart : Cut s b.start) (hle : b.start ≤ p) (hos : Reads (s.drop b.start) os (s.drop p))
    (hreached : ∀ t ∈ ts.head?, Reached s p t) :
    ∃ t ws lss, ts[n]? = some t ∧ t.isSymbol "\x7d" = true ∧
      Reads (s.drop p) ws (s.drop t.start) ∧ ss.Forall₂ Statement.Reads lss ∧
      lss.flatten = os ++ Token.dropSemicolons b.depth ws := by
  induction ts generalizing b ss n p os with
  | nil => cases h
  | cons t ts ih =>
    have hr := hreached t rfl
    have ht := hp t (by simp)
    have hbetween : ∀ hp : p = t.start, ∃ lss,
        (Grammar.statementBetween s b.start t.start).Forall₂ Statement.Reads lss ∧
          lss.flatten = os := fun hp =>
      statementBetween_reads hstart (hp ▸ hle) (hp ▸ hos)
    simp only [Grammar.statementsFrom] at h
    split at h
    next hclose =>
      cases h
      have hk := Token.kind_of_isSymbol hclose.2
      have hp := hr.eq_of_kind (by simp [hk])
      obtain ⟨lss, hlss, hflat⟩ := hbetween hp
      exact ⟨t, [], lss, rfl, hclose.2, hp ▸ .done _, hlss, by simp [hflat, Token.dropSemicolons]⟩
    next =>
      -- the closing brace is still to come, so that another token follows
      obtain ⟨u, us, rfl⟩ : ∃ u us, ts = u :: us := by
        cases ts with
        | nil =>
          simp only [Grammar.statementsFrom, Option.map_none] at h
          split at h
          · cases h
          · split at h <;> cases h
        | cons u us => exact ⟨u, us, rfl⟩
      have hj' := (List.isChain_cons_cons.mp hj)
      obtain ⟨q, ls, hreached', hpq, hls, hword, hsharp⟩ :=
        hr.next ht (hp u (by simp)) hj'.1
      have ih' := fun {b : Grammar.Body} {ss n os} h h1 h2 h3 =>
        @ih b ss n q os (fun v hv => hp v (by simp [hv])) hj'.2 h
          h1 h2 h3 (by rintro _ ⟨⟩; exact hreached')
      split at h
      next hsemicolon =>
        have hk : t.kind ≠ .operator := by simp [Token.kind_of_isSymbol hsemicolon.2]
        obtain ⟨rfl, rfl⟩ := hword hk
        obtain ⟨lss, hlss, hflat⟩ := hbetween (hr.eq_of_kind hk)
        obtain ⟨⟨rest, m⟩, hrest, h⟩ := Option.map_eq_some_iff.mp h
        cases h
        obtain ⟨z, ws, lss', hz, hbrace, hws, hss, hflat'⟩ :=
          ih' hrest hreached'.1 le_rfl (.done _)
        refine ⟨z, t.word :: ws, lss ++ lss', by simpa using hz, hbrace, hls.trans hws,
          List.rel_append hlss hss, ?_⟩
        have hmark : t.word.isSymbolIn [";"] = true := by
          simpa [Token.Word.isSymbolIn, Token.word, Token.isSymbol, Token.has] using hsemicolon.2
        rw [List.flatten_append, hflat, hflat', List.nil_append, Token.dropSemicolons,
          if_pos ⟨hsemicolon.1, hmark⟩]
      next hsemicolon =>
        split at h
        next hends =>
          have hnew : t.newlineBefore = true := by
            simp only [Grammar.Body.endsBefore, Bool.and_eq_true] at hends
            exact hends.1.2
          have hp := hr.eq_of_newline hnew
          obtain ⟨lss, hlss, hflat⟩ := hbetween hp
          obtain ⟨⟨rest, m⟩, hrest, h⟩ := Option.map_eq_some_iff.mp h
          cases h
          obtain ⟨z, ws, lss', hz, hbrace, hws, hss, hflat'⟩ :=
            ih' hrest (hp ▸ hr.1) (hp ▸ hpq) (hp ▸ hls)
          refine ⟨z, ls ++ ws, lss ++ lss', by simpa using hz, hbrace, hls.trans hws,
            List.rel_append hlss hss, ?_⟩
          rw [List.flatten_append, hflat, hflat',
            Grammar.Body.take_depth (fun hk => (hword hk).1) hsharp hsemicolon]
          rfl
        next =>
          obtain ⟨⟨rest, m⟩, hrest, h⟩ := Option.map_eq_some_iff.mp h
          cases h
          obtain ⟨z, ws, lss, hz, hbrace, hws, hss, hflat⟩ :=
            ih' hrest hstart (hle.trans hpq) (hos.trans hls)
          refine ⟨z, ls ++ ws, lss, by simpa using hz, hbrace, hls.trans hws, hss, ?_⟩
          rw [hflat, Grammar.Body.take_depth (fun hk => (hword hk).1) hsharp hsemicolon,
            List.append_assoc]

/-- Where the source is cut behind the tokens that have been taken, it is read up to the next one. -/
theorem Cursor.Sound.reads_peek {c : Cursor} (hs : c.Sound) {t u : Token} {ts us : List Token}
    (ht : c.behind = t :: ts) (hu : c.ahead = u :: us) :
    Reads (c.source.drop c.edge) [] (c.source.drop u.start) := by
  have hedge : c.edge = t.stop := by simp [Cursor.edge, ht]
  rw [hedge]
  rcases hs.joint ht hu with ⟨-, -, hread⟩ | ⟨hstop, -⟩
  · exact hread
  · rw [hstop]
    exact .done _

/-- `i` is the offset behind the white space in front of the token `u`, or in front of a comment before
that. -/
structure Cursor.BodyStart (c : Cursor) (u : Token) (i : Nat) : Prop where
  le : c.edge ≤ i ∧ i ≤ u.start
  blank : ∀ d ∈ Text.slice c.source c.edge i, Text.isBlank d = true
  head : ∀ d ∈ (c.source.drop i).head?, Text.isBlank d = false
  cut : Cut c.source i
  reads : Reads (c.source.drop i) [] (c.source.drop u.start)

/-- The first statement of a body starts behind the white space. -/
theorem Cursor.Sound.bodyStart {c : Cursor} (hs : c.Sound) (hcut : Cut c.source c.edge)
    {t u : Token} {ts us : List Token} (ht : c.behind = t :: ts) (hu : c.ahead = u :: us) :
    c.BodyStart u (c.edge + ((c.source.drop c.edge).takeWhile Text.isBlank).length) := by
  have hread := hs.reads_peek ht hu
  have hplaced := hs.placed_ahead (t := u) (by simp [hu])
  have hlength := hplaced.lt.le.trans hplaced.le
  have hhead := List.head?_dropWhile_not Text.isBlank (c.source.drop c.edge)
  generalize hb : (c.source.drop c.edge).takeWhile Text.isBlank = b
  have hblank : ∀ d ∈ b, Text.isBlank d = true := fun d hd =>
    List.mem_takeWhile_imp (hb.symm ▸ hd)
  have happend := List.takeWhile_append_dropWhile (p := Text.isBlank) (l := c.source.drop c.edge)
  have hdrop : c.source.drop (c.edge + b.length) = (c.source.drop c.edge).dropWhile Text.isBlank := by
    rw [← List.drop_drop]
    conv_lhs => rw [← happend, hb]
    exact List.drop_left
  have hsplit : c.source.drop c.edge = b ++ c.source.drop (c.edge + b.length) := by
    rw [hdrop, ← hb, happend]
  have hedge : c.edge ≤ u.start := by
    have := hs.edge_le_peek
    rwa [show c.peek = u by simp [Cursor.peek, hu]] at this
  have hle : c.edge + b.length ≤ u.start := by
    obtain ⟨d, x, hd⟩ := List.exists_cons_of_ne_nil hplaced.text_ne_nil
    have hget : (c.source.drop c.edge)[u.start - c.edge]? = some d := by
      rw [List.getElem?_drop, Nat.add_sub_cancel' hedge, ← List.head?_drop, hplaced.drop_eq, hd]
      rfl
    have := Text.takeWhile_length_le hget (hplaced.not_blank (.inl (by rw [hd]; rfl)))
    rw [hb] at this
    omega
  obtain ⟨hgaps, hfirst⟩ := (hsplit ▸ hread).drop_blanks hblank (by
    simp only [List.length_drop]
    omega)
  refine ⟨⟨by omega, hle⟩, ?_, ?_, hcut.of_reads (hle.trans hlength) (hsplit ▸ Reads.of_gaps hgaps _),
    hfirst⟩
  · rw [Text.slice, Nat.add_sub_cancel_left, hsplit, List.take_left]
    exact hblank
  · intro d hd
    rw [hdrop] at hd
    rw [Option.mem_def.mp hd] at hhead
    simpa using hhead

end SwiftMacros
