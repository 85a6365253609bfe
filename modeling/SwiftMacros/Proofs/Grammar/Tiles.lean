import Mathlib
import SwiftMacros.Proofs.Cursor.Grains
import SwiftMacros.Proofs.Cursor.Pieces
import SwiftMacros.Proofs.Grammar.Statements
import SwiftMacros.Proofs.Token.Comments
import SwiftMacros.Proofs.Tree.Verbatim

/-! What becomes of every character of a closure body. The source between the signature and the
closing brace is tiled by statements, white space around them, and separators: each semicolon outside
of all brackets, together with the white space and the comments up to the token behind it. A comment
lies in one statement, or it is lost with the separator before it. -/

namespace SwiftMacros

open Token (Word Reads Chunk Lexes Placed Joint Located lexeme)

namespace Token

/-- What reads as a comment starts with one of the two openings. -/
theorem comment_opens {t : Text} {n : Nat} (h : lexeme t = .ok (.comment, n)) :
    (lineComment <+: t ∧ n = runLength (· ≠ '\n') t) ∨
      (blockOpen <+: t ∧ commentLength? t = some n) := by
  rcases lexeme_cases h with ⟨q, -, hk, -⟩ | ⟨-, hp, -, hl⟩ | ⟨-, -, hs⟩
  · cases hk
  · exact .inr ⟨List.isPrefixOf_iff_prefix.mp hp, hl⟩
  · obtain ⟨f, hm, hf⟩ := simpleLexeme_class hs
    obtain rfl : f = lineCommentLength? := by simpa [classes] using hm
    simp only [lineCommentLength?, show "//".toList = lineComment by decide,
      Option.ite_none_right_eq_some, Option.some.injEq] at hf
    exact .inl ⟨List.isPrefixOf_iff_prefix.mp hf.1, hf.2.symm⟩

/-- A comment is no longer than the chunk that is read in its place. -/
theorem Chunk.comment_le {x r : Text} {ls : List Word} {n : Nat} (h : Chunk x ls r)
    (hl : Token.lexeme (x ++ r) = .ok (.comment, n)) : n ≤ x.length := by
  have hfront := h.front_eq
  rcases comment_opens hl with ⟨⟨y, hy⟩, hn⟩ | ⟨⟨y, hy⟩, hn⟩
  · have hgap : isGap '/' = false := by decide
    rw [← hy] at hfront hn
    simp only [Chunk.front?, Token.lineComment, List.cons_append, List.nil_append, List.head?_cons,
      Option.any_some, hgap, Bool.false_eq_true, if_false, List.isPrefixOf_cons_cons_self,
      List.isPrefixOf_nil_left, if_true, Option.some.injEq, Prod.mk.injEq] at hfront hn
    omega
  · have hgap : isGap '/' = false := by decide
    rw [← hy] at hfront hn
    simp [Chunk.front?, blockOpen, Token.lineComment, hgap] at hfront hn
    simp [hn] at hfront
    omega

end Token

section Comments

variable {s : Text} {a b i : Nat} {ls : List Word}

/-- Reading on from where a comment starts takes all of it. -/
theorem Cut.le_of_comment {n : Nat} (ha : Cut s a) (hl : lexeme (s.drop a) = .ok (.comment, n))
    (hb : Cut s b) (hlt : a < b) : a + n ≤ b := by
  obtain ⟨ls, hls⟩ := ha.reads hb hlt.le
  have hlength := hb.1
  generalize ht : s.drop a = t at hls hl
  generalize hr : s.drop b = r at hls
  cases hls with
  | done =>
    have := congrArg List.length (ht.trans hr.symm)
    simp only [List.length_drop] at this
    omega
  | @chunk x u _ _ _ hc hrest =>
    have hle := hrest.suffix.length_le
    have hx := hc.comment_le hl
    have hlen := congrArg List.length ht
    rw [← hr] at hle
    simp only [List.length_drop, List.length_append] at hlen hle
    omega

/-- Nothing is read from nothing. -/
theorem Token.Lexes.eq_nil {p p' : Place} {u : Text} {ts : List Token} (h : Lexes p [] ts p' u) :
    ts = [] := by
  generalize ht : ([] : Text) = t at h
  cases h with
  | done => rfl
  | token hx _ _ => exact absurd (List.append_eq_nil_iff.mp ht.symm).1 hx

/-- Comments start where the source is cut. Behind a line comment it is cut only past the line end. -/
theorem Token.Lexes.cut_comments {p p' : Place} {t u : Text} {ts : List Token}
    (h : Lexes p t ts p' u) (ht : s.drop p.offset = t) (hle : p.offset ≤ s.length)
    (hp : Cut s p.offset ∨ ∃ v, t = '\n' :: v ∧ Cut s (p.offset + 1)) :
    ∀ k ∈ ts, k.kind = .comment → Cut s k.start ∧
      lexeme (s.drop k.start) = .ok (.comment, k.stop - k.start) := by
  induction h with
  | done => simp
  | @token p p' x u r k ts hx hl hrest ih =>
    have hoffset := Token.foldl_advance_offset p x
    have hlength := congrArg List.length ht
    simp only [List.length_drop, List.length_append] at hlength
    have hdrop : s.drop (p.offset + x.length) = u := by rw [← List.drop_drop, ht, List.drop_left]
    rw [hoffset] at ih
    have ih' := ih hdrop (by omega)
    rw [List.forall_mem_cons]
    rcases hp with hp | ⟨v, hv, hp⟩
    · refine ⟨fun hk => ⟨hp, ?_⟩, ?_⟩
      · simp only [Token.tokenAt] at hk
        simp only [Token.tokenAt, ht, hl, hk, Nat.add_sub_cancel_left]
      have hread : ∀ {y w : Text} {ls : List Word}, x ++ u = y ++ w → Reads (y ++ w) ls w →
          Cut s (p.offset + y.length) := by
        intro y w ls hyw hr
        have hlen := congrArg List.length hyw
        simp only [List.length_append] at hlen
        have hdrop : Reads (s.drop p.offset) ls (s.drop (p.offset + y.length)) := by
          rw [← List.drop_drop, ht, hyw, List.drop_left]
          exact hr
        exact hp.of_reads (by omega) hdrop
      cases hk : k.isTrivia with
      | false => exact ih' (.inl (hread rfl (.chunk (.lexeme hl hk) (.done u))))
      | true =>
        rcases Token.trivia_cases hl hk with hg | ⟨y, rfl, hy, hu⟩ | ⟨hblock, hc⟩
        · exact ih' (.inl (hread rfl (.of_gaps hg u)))
        · cases u with
          | nil =>
            obtain rfl := hrest.eq_nil
            simp
          | cons c w =>
            obtain rfl : c = '\n' := hu c rfl
            refine ih' (.inr ⟨w, rfl, ?_⟩)
            have hcut := hread (y := Token.lineComment ++ y ++ ['\n']) (w := w) (by simp)
              (.chunk (.lineComment hy) (.done w))
            rwa [List.length_append, List.length_singleton] at hcut
        · exact ih' (.inl (hread rfl (.chunk (.blockComment hblock hc) (.done u))))
    · have hnewline : lexeme (x ++ u) = .ok (.newline, 1) := by
        rw [hv]
        rfl
      rw [hnewline, Except.ok.injEq, Prod.mk.injEq] at hl
      obtain ⟨rfl, hlen⟩ := hl
      rw [← hlen] at ih'
      exact ⟨fun hk => (by cases hk), ih' (.inl hp)⟩

end Comments

/-- What a part of a body is. -/
inductive Part where
  | space | statement | separator
  deriving DecidableEq

/-- A part of a body, between two offsets. -/
structure Tile where
  part : Part
  start : Nat
  stop : Nat

namespace Tile

/-- At the offset starts a lexeme that is neither white space nor a comment. -/
def Starts (s : Text) (b : Nat) : Prop :=
  Cut s b ∧ ∃ k n, lexeme (s.drop b) = .ok (k, n) ∧ k.isTrivia = false

/-- What a part of a body that starts at `a` consists of. White space is nothing but that. A statement
starts and ends with something else, and goes on up to the white space before a lexeme. A separator
is a semicolon outside of all brackets of the body with everything up to the next lexeme. -/
def Fits (s : Text) (a : Nat) (t : Tile) : Prop :=
  match t.part with
  | .space => ∀ c ∈ Text.slice s t.start t.stop, Text.isBlank c = true
  | .statement => Text.trim (Text.slice s t.start t.stop) = Text.slice s t.start t.stop ∧
      ∃ b, t.stop ≤ b ∧ (∀ c ∈ Text.slice s t.stop b, Text.isBlank c = true) ∧ Starts s b
  | .separator => Text.slice s t.start (t.start + 1) = [';'] ∧
      (∃ ls, Reads (s.drop a) ls (s.drop t.start) ∧ ls.foldl Word.depth 0 = 0) ∧
      Reads (s.drop (t.start + 1)) [] (s.drop t.stop) ∧ Starts s t.stop

/-- The statement that a part of a body is read as. -/
def statement? (s : Text) (t : Tile) : Option Statement :=
  if t.part = .statement then
    some ⟨Text.slice s t.start t.stop, Text.indentAt s t.start⟩
  else none

end Tile

/-- The source from `i` to `z`, in a body that starts at `a`, is made of these parts. -/
inductive Tiles (s : Text) (a : Nat) : List Tile → Nat → Nat → Prop
  | stop (z : Nat) : Tiles s a [] z z
  | tile {t : Tile} {ts : List Tile} {z : Nat} : t.start < t.stop → t.Fits s a →
      Tiles s a ts t.stop z → Tiles s a (t :: ts) t.start z

section Tiles

variable {s : Text} {a i e z : Nat} {ts : List Tile}

theorem Text.trimEnd_trimEnd (t : Text) : trimEnd (trimEnd t) = trimEnd t := by
  simp only [trimEnd, dropWhileEnd, List.reverse_reverse, List.dropWhile_idempotent]

/-- Trimming takes all white space from the end. -/
theorem Text.trimEnd_append_length_le (t : Text) {w : Text} (h : ∀ c ∈ w, isBlank c = true) :
    (trimEnd (t ++ w)).length ≤ t.length := by
  have hw : w.reverse.dropWhile isBlank = [] :=
    List.dropWhile_eq_nil_iff.mpr fun c hc => h c (List.mem_reverse.mp hc)
  rw [trimEnd, dropWhileEnd, List.reverse_append, List.dropWhile_append, hw]
  simpa [trimEnd, dropWhileEnd] using trimEnd_length_le t

theorem Text.trim_trimEnd {c : Char} {t : Text} (hc : isBlank c = false) :
    trim (trimEnd (c :: t)) = trimEnd (c :: t) := by
  have hstart : trimStart (trimEnd (c :: t)) = trimEnd (c :: t) := by
    obtain ⟨w, hw, hblank⟩ := trimEnd_append (c :: t)
    cases hx : trimEnd (c :: t) with
    | nil => rfl
    | cons d x =>
      rw [hx] at hw
      obtain ⟨rfl, -⟩ := List.cons.inj hw
      simp [trimStart, hc]
  rw [trim, hstart, trimEnd_trimEnd]

/-- What stands in front of a lexeme, from its first character that is not blank, is a statement and
the white space behind it. -/
theorem Tiles.statementBetween (h : Tiles s a ts e z) (hie : i ≤ e) (he : Tile.Starts s e)
    (hhead : ∀ c ∈ (s.drop i).head?, Text.isBlank c = false) :
    ∃ us, Tiles s a us i z ∧ us.filterMap (Tile.statement? s) =
      Grammar.statementBetween s i e ++ ts.filterMap (Tile.statement? s) := by
  have hle := he.1.1
  rw [Grammar.statementBetween]
  rcases hie.eq_or_lt with rfl | hlt
  · have hnil : Text.trimEnd (Text.slice s i i) = [] := by simp [Text.slice, Text.trimEnd, Text.dropWhileEnd]
    exact ⟨ts, h, by simp [hnil]⟩
  obtain ⟨c, x, hx⟩ : ∃ c x, Text.slice s i e = c :: x := by
    apply List.exists_cons_of_length_pos
    rw [slice_length hle]
    omega
  have hc : Text.isBlank c = false := by
    refine hhead c ?_
    rw [← slice_append_drop hie, hx]
    rfl
  obtain ⟨w, hw, hblank⟩ := Text.trimEnd_append (Text.slice s i e)
  set y := Text.trimEnd (Text.slice s i e) with hy
  have hne : y ≠ [] := by
    rintro hnil
    rw [hnil, List.nil_append] at hw
    have := hblank c (by rw [← hw, hx]; simp)
    simp [hc] at this
  have hlen : y.length + w.length = e - i := by
    rw [← slice_length (a := i) hle, hw, List.length_append]
  have hpos := List.length_pos_iff.mpr hne
  obtain ⟨j, hj⟩ : ∃ j, j = i + y.length := ⟨_, rfl⟩
  have hsplit := slice_append_slice (s := s) (a := i) (b := j) (c := e) (by omega) (by omega)
  have htext : Text.slice s i j = y := by
    refine (List.append_inj (hsplit.trans hw) ?_).1
    rw [slice_length (by omega)]
    omega
  have hrest : Text.slice s j e = w := by
    refine (List.append_inj (hsplit.trans hw) ?_).2
    rw [slice_length (by omega)]
    omega
  subst hrest
  have hij : i < j := by omega
  have hje : j ≤ e := by omega
  have hfits : (Tile.mk .statement i j).Fits s a := by
    refine ⟨?_, e, hje, hblank, he⟩
    rw [htext, hy, hx, Text.trim_trimEnd hc]
  have hspace : ∃ us, Tiles s a us j z ∧
      us.filterMap (Tile.statement? s) = ts.filterMap (Tile.statement? s) := by
    rcases hje.eq_or_lt with rfl | hlt'
    · exact ⟨ts, h, rfl⟩
    · exact ⟨_, .tile (t := ⟨.space, j, e⟩) hlt' hblank h, rfl⟩
  obtain ⟨us, hus, heq⟩ := hspace
  refine ⟨_, .tile (t := ⟨.statement, i, j⟩) hij hfits hus, ?_⟩
  rw [List.filterMap_cons, heq]
  simp only [Tile.statement?, if_true, htext]
  obtain ⟨d, x, hd⟩ := List.exists_cons_of_ne_nil hne
  rw [hd]
  rfl

theorem Token.foldl_depth {ls : List Word} (h : ∀ w ∈ ls, w.1 ≠ .symbol) (depth : Int) :
    ls.foldl Word.depth depth = depth := by
  induction ls with
  | nil => rfl
  | cons w ls ih =>
    obtain ⟨hw, hls⟩ := List.forall_mem_cons.mp h
    have hdepth : w.depth depth = depth := by simp [Word.depth, Word.isSymbolIn, hw]
    rw [List.foldl_cons, hdepth, ih hls]

/-- The token stands within a lexeme. -/
def Token.Within (t : Token) (s : Text) : Prop :=
  ∃ m k n, Cut s m ∧ lexeme (s.drop m) = .ok (k, n) ∧ k.isTrivia = false ∧
    m ≤ t.start ∧ t.stop ≤ m + n

/-- Where the source is cut, a token is the start of its lexeme. -/
theorem Token.Within.starts {t : Token} (h : t.Within s) (hcut : Cut s t.start) (ht : t.start < t.stop) :
    Tile.Starts s t.start := by
  obtain ⟨m, k, n, hm, hl, hk, hle, hstop⟩ := h
  rcases hle.eq_or_lt with rfl | hlt
  · exact ⟨hcut, k, n, hl, hk⟩
  · have := hm.le_of_lexeme hl hk hcut hlt
    omega

/-- The statements up to a closing brace are those of a tiling of the source in front of it. -/
theorem statementsFrom_tiles {eof : Token} {us : List Token} {b : Grammar.Body} {ss : List Statement}
    {n p : Nat} {os : List Word} (hp : ∀ t ∈ us, Placed s t ∧ t.Within s)
    (hj : us.IsChain (Joint s))
    (h : Grammar.statementsFrom s eof b us = some (ss, n)) (hle : b.start ≤ p)
    (hhead : ∀ c ∈ (s.drop b.start).head?, Text.isBlank c = false)
    (hos : Reads (s.drop a) os (s.drop p)) (hdepth : os.foldl Word.depth 0 = b.depth)
    (hreached : ∀ t ∈ us.head?, Reached s p t) :
    ∃ t ts, us[n]? = some t ∧ t.isSymbol "\x7d" = true ∧ Tiles s a ts b.start t.start ∧
      ts.filterMap (Tile.statement? s) = ss := by
  induction us generalizing b ss n p os with
  | nil => cases h
  | cons t us ih =>
    have hr := hreached t rfl
    obtain ⟨ht, hwithin⟩ := hp t (by simp)
    have hstart : p = t.start → Tile.Starts s t.start := fun hp => hwithin.starts (hp ▸ hr.1) ht.lt
    have hnonblank : ∀ t : Token, Placed s t →
        ∀ c ∈ (s.drop t.start).head?, Text.isBlank c = false := by
      intro t ht c hc
      refine ht.not_blank (.inl ?_)
      obtain ⟨d, x, hx⟩ := List.exists_cons_of_ne_nil ht.text_ne_nil
      rw [ht.drop_eq, hx] at hc
      rw [hx]
      exact hc
    simp only [Grammar.statementsFrom] at h
    split at h
    next hclose =>
      cases h
      have hp := hr.eq_of_kind (by simp [Token.kind_of_isSymbol hclose.2])
      obtain ⟨ts, hts, heq⟩ := (Tiles.stop (s := s) (a := a) t.start).statementBetween (hp ▸ hle)
        (hstart hp) hhead
      exact ⟨t, ts, rfl, hclose.2, hts, by simpa using heq⟩
    next =>
      -- the closing brace is still to come, so that another token follows
      obtain ⟨u, us, rfl⟩ : ∃ u vs, us = u :: vs := by
        cases us with
        | nil =>
          simp only [Grammar.statementsFrom, Option.map_none] at h
          split at h
          · cases h
          · split at h <;> cases h
        | cons u us => exact ⟨u, us, rfl⟩
      have hj' := List.isChain_cons_cons.mp hj
      obtain ⟨hu, hwithin'⟩ := hp u (by simp)
      obtain ⟨q, ls, hreached', hpq, hls, hword, hsharp⟩ := hr.next ht hu hj'.1
      have ih' := fun {b : Grammar.Body} {ss n os} h h1 h2 h3 h4 =>
        @ih b ss n q os (fun v hv => hp v (by simp [hv])) hj'.2 h h1 h2 h3 h4
          (by rintro _ ⟨⟩; exact hreached')
      have htake : ∀ b' : Grammar.Body, b'.depth = b.depth →
          (os ++ ls).foldl Word.depth 0 = (b'.take t).depth := by
        intro b' hb'
        rw [List.foldl_append, hdepth]
        by_cases hk : t.kind = .operator
        · rw [Token.foldl_depth (hsharp hk)]
          simp [Grammar.Body.take, Token.isOpener, Token.isCloser, Token.isSymbolIn, hk, hb']
        · obtain ⟨rfl, -⟩ := hword hk
          rw [← hb']
          rfl
      split at h
      next hsemicolon =>
        have hk := Token.kind_of_isSymbol hsemicolon.2
        have hp := hr.eq_of_kind (by simp [hk])
        obtain ⟨rfl, rfl⟩ := hword (by simp [hk])
        obtain ⟨⟨rest, m⟩, hrest, h⟩ := Option.map_eq_some_iff.mp h
        cases h
        have hdepth' : (os ++ [t.word]).foldl Word.depth 0 = b.depth := by
          rw [List.foldl_append, hdepth]
          simp [Word.depth, Token.word_of_isSymbol hsemicolon.2, Word.isSymbolIn]
        obtain ⟨z, ts, hz, hbrace, hts, heq⟩ := ih' hrest le_rfl (hnonblank u hu) (hos.trans hls) hdepth'
        have hmark : t.text = [';'] := congrArg Prod.snd (Token.word_of_isSymbol hsemicolon.2)
        have hstop : t.stop = t.start + 1 := by
          have hlen := ht.length
          rw [hmark, List.length_singleton] at hlen
          omega
        have hfits : (Tile.mk .separator t.start u.start).Fits s a := by
          refine ⟨?_, ⟨os, hp ▸ hos, hdepth.trans hsemicolon.1⟩, ?_, hwithin'.starts hreached'.1 hu.lt⟩
          · rw [← hmark, ht.text, hstop]
          · rw [← hstop]
            exact (hj'.1.reads (.inl (by simp [hk]))).2
        obtain ⟨ts', hts', heq'⟩ := (Tiles.tile (t := ⟨.separator, t.start, u.start⟩)
          (ht.lt.trans_le hj'.1.le) hfits hts).statementBetween (hp ▸ hle) (hstart hp) hhead
        exact ⟨z, ts', by simpa using hz, hbrace, hts', by rw [heq', List.filterMap_cons_none rfl, heq]⟩
      next hsemicolon =>
        split at h
        next hends =>
          have hnew : t.newlineBefore = true := by
            simp only [Grammar.Body.endsBefore, Bool.and_eq_true] at hends
            exact hends.1.2
          have hp := hr.eq_of_newline hnew
          obtain ⟨⟨rest, m⟩, hrest, h⟩ := Option.map_eq_some_iff.mp h
          cases h
          obtain ⟨z, ts, hz, hbrace, hts, heq⟩ := ih' hrest (hp ▸ hpq) (hnonblank t ht) (hos.trans hls)
            (htake _ rfl)
          obtain ⟨ts', hts', heq'⟩ := hts.statementBetween (hp ▸ hle) (hstart hp) hhead
          exact ⟨z, ts', by simpa using hz, hbrace, hts', heq'.trans (by rw [heq]; rfl)⟩
        next =>
          obtain ⟨⟨rest, m⟩, hrest, h⟩ := Option.map_eq_some_iff.mp h
          cases h
          obtain ⟨z, ts, hz, hbrace, hts, heq⟩ := ih' hrest (hle.trans hpq) hhead (hos.trans hls)
            (htake b rfl)
          exact ⟨z, ts, by simpa using hz, hbrace, hts, heq⟩

section Comments

/-- The part holds the comment, but perhaps not the white space at the end of it. -/
structure Tile.Holds (t : Tile) (s : Text) (u : Token) : Prop where
  part : t.part ≠ .space
  start : t.start ≤ u.start
  lt : u.start < t.stop
  stop : u.start + (Text.trimEnd (Text.slice s u.start u.stop)).length ≤ t.stop

theorem Tiles.start_le (h : Tiles s a ts i z) : ∀ t ∈ ts, i ≤ t.start := by
  induction h with
  | stop => simp
  | tile hlt _ _ ih => exact List.forall_mem_cons.mpr ⟨le_rfl, fun u hu => hlt.le.trans (ih u hu)⟩

/-- Every offset lies in one part. -/
theorem Tiles.exists_mem (h : Tiles s a ts i z) {p : Nat} (hi : i ≤ p) (hz : p < z) :
    ∃ t ∈ ts, t.start ≤ p ∧ p < t.stop ∧ t.Fits s a := by
  induction h with
  | stop => omega
  | @tile t ts z hlt hfits _ ih =>
    rcases Nat.lt_or_ge p t.stop with hp | hp
    · exact ⟨t, by simp, hi, hp, hfits⟩
    · obtain ⟨u, hu, hrest⟩ := ih hp hz
      exact ⟨u, by simp [hu], hrest⟩

/-- No offset lies in two parts. -/
theorem Tiles.unique (h : Tiles s a ts i z) {p : Nat} {t u : Tile} (ht : t ∈ ts) (hu : u ∈ ts)
    (htp : t.start ≤ p ∧ p < t.stop) (hup : u.start ≤ p ∧ p < u.stop) : t = u := by
  induction h with
  | stop => cases ht
  | @tile v vs z _ _ hrest ih =>
    have hbehind : ∀ w ∈ vs, w.start ≤ p → ¬ p < v.stop := by
      intro w hw hle
      have := hrest.start_le w hw
      omega
    rcases List.mem_cons.mp ht with rfl | ht' <;> rcases List.mem_cons.mp hu with rfl | hu'
    · rfl
    · exact absurd htp.2 (hbehind u hu' hup.1)
    · exact absurd hup.2 (hbehind t ht' htp.1)
    · exact ih ht' hu'

/-- A comment of a body lies in one of its statements or separators, and in one only. -/
theorem Tiles.comment (h : Tiles s a ts i z) {u : Token} (hcut : Cut s u.start)
    (hl : lexeme (s.drop u.start) = .ok (.comment, u.stop - u.start)) (hi : i ≤ u.start)
    (hz : u.stop ≤ z) (hlt : u.start < u.stop) (hle : u.stop ≤ s.length) :
    ∃! t, t ∈ ts ∧ t.Holds s u := by
  obtain ⟨t, ht, hstart, hstop, hfits⟩ := h.exists_mem hi (hlt.trans_le hz)
  refine ⟨t, ⟨ht, ?_⟩, fun v ⟨hv, hholds⟩ => h.unique hv ht ⟨hholds.start, hholds.lt⟩ ⟨hstart, hstop⟩⟩
  have hpast : ∀ b, Tile.Starts s b → u.start < b → u.stop ≤ b := by
    intro b hb hlt'
    have := hcut.le_of_comment hl hb.1 hlt'
    omega
  have hlen : (Text.slice s u.start u.stop).length = u.stop - u.start := slice_length hle
  have htrim := Text.trimEnd_length_le (Text.slice s u.start u.stop)
  obtain ⟨part, b, e⟩ := t
  cases part with
  | space =>
    obtain ⟨x, hx⟩ : ∃ x, s.drop u.start = '/' :: x := by
      rcases Token.comment_opens hl with ⟨⟨y, hy⟩, -⟩ | ⟨⟨y, hy⟩, -⟩
      · exact ⟨_, hy.symm⟩
      · exact ⟨_, hy.symm⟩
    have hmem : '/' ∈ Text.slice s b e := by
      rw [← slice_append_slice hstart hstop.le]
      refine List.mem_append_right _ ?_
      obtain ⟨n, hn⟩ : ∃ n, e - u.start = n + 1 := ⟨e - u.start - 1, by simp only at hstop; omega⟩
      rw [Text.slice, hx, hn]
      exact List.mem_cons_self
    cases hfits '/' hmem
  | separator =>
    have := hpast e hfits.2.2.2 hstop
    exact ⟨by simp, hstart, hstop, by simp only; omega⟩
  | statement =>
    obtain ⟨-, m, hem, hblank, hm⟩ := hfits
    have hu := hpast m hm (hstop.trans_le hem)
    refine ⟨by simp, hstart, hstop, ?_⟩
    rcases Nat.lt_or_ge e u.stop with heu | heu
    · -- what stands behind the statement is white space, so none of it is left behind trimming
      have hrest : ∀ c ∈ Text.slice s e u.stop, Text.isBlank c = true := fun c hc =>
        hblank c (by rw [← slice_append_slice heu.le hu]; exact List.mem_append_left _ hc)
      have := Text.trimEnd_append_length_le (Text.slice s u.start e) hrest
      rw [slice_append_slice hstop.le heu.le, slice_length (heu.le.trans hle)] at this
      simp only at hstop ⊢
      omega
    · simp only
      omega

end Comments

end Tiles

section Sources

variable {s : Text}

/-- The comments among the tokens of a text. -/
theorem Token.comment_placed {us : List Token} (h : tokenize s = .ok us) {u : Token} (hu : u ∈ us)
    (hk : u.kind = .comment) : Cut s u.start ∧
      lexeme (s.drop u.start) = .ok (.comment, u.stop - u.start) ∧ u.start < u.stop ∧
      u.stop ≤ s.length := by
  obtain ⟨vs, p, rfl, hlexes⟩ := (tokensFrom_lexes {} s).1 us h
  rw [List.mem_append, List.mem_singleton] at hu
  rcases hu with hu | rfl
  · obtain ⟨hp, -, hcovers, -⟩ := hlexes.located (.start s) rfl
    obtain ⟨-, hbounds⟩ := hcovers.bounds
    obtain ⟨-, hlt, hle⟩ := hbounds u hu
    obtain ⟨hcut, hl⟩ := hlexes.cut_comments rfl (Nat.zero_le _) (.inl (cut_zero s)) u hu hk
    exact ⟨hcut, hl, hlt, hle.trans hp.le⟩
  · cases hk

theorem Token.Laid.within {a : Nat} {ts : List Token} (h : Laid s a ts) (ha : Cut s a) :
    ∀ t ∈ ts, t.Within s := by
  induction h with
  | nil => simp
  | @cons a t ts hread hle hlt hstop htext hl hk _ ih =>
    have hcut := ha.of_reads (hlt.le.trans hstop) hread
    have hlen : t.text.length = t.stop - t.start := by rw [htext, slice_length hstop]
    have hsplit : s.drop t.start = t.text ++ s.drop t.stop := by rw [htext, slice_append_drop hlt.le]
    have hword : Reads (s.drop t.start) [(t.kind, t.text)] (s.drop t.stop) := by
      rw [hsplit, ← hlen] at hl
      rw [hsplit]
      exact .chunk (.lexeme hl hk) (.done _)
    exact List.forall_mem_cons.mpr ⟨⟨t.start, t.kind, t.stop - t.start, hcut, hl, hk, le_rfl, by omega⟩,
      ih (hcut.of_reads hstop hword)⟩

theorem Cursor.within_ofText {t : Text} {c : Cursor} (h : ofText t = .ok c) :
    ∀ u ∈ c.inner, u.Within c.source := by
  obtain ⟨rfl, -, hlaid, -⟩ := laid_ofText h
  exact hlaid.within (cut_zero _)

/-- Splitting operators leaves each token within a lexeme. -/
theorem Cursor.Leads.within_source {c c' : Cursor} (h : c.Leads c')
    (hc : ∀ t ∈ c.inner, t.Within c.source) : ∀ t ∈ c'.inner, t.Within c'.source := by
  intro u hu
  obtain ⟨t, ht, hstart, hstop⟩ := h.within u hu
  obtain ⟨m, k, n, hm, hl, hk, hle, hle'⟩ := hc t ht
  rw [h.source]
  exact ⟨m, k, n, hm, hl, hk, hle.trans hstart, hstop.trans hle'⟩

/-- A body is tiled from where it starts to its closing brace. -/
theorem Closure.ReadsBody.tiles {c c' : Cursor} {k : Closure} (h : k.ReadsBody c c') (hs : c.Sound)
    (hcut : Cut c.source c.edge) (hbehind : c.behind ≠ []) (hw : ∀ t ∈ c.inner, t.Within c.source) :
    ∃ z ts, Text.slice c.source z (z + 1) = ['\x7d'] ∧ c'.edge = z + 1 ∧
      Tiles c.source c.edge ts c.edge z ∧ ts.filterMap (Tile.statement? c.source) = k.statements := by
  obtain ⟨n, hss, hclose, rfl⟩ := h
  obtain ⟨t, bs, ht⟩ := List.exists_cons_of_ne_nil hbehind
  obtain ⟨u, us, hu⟩ : ∃ u us, c.ahead = u :: us := by
    cases ha : c.ahead with
    | nil => simp [ha, Grammar.statementsFrom] at hss
    | cons u us => exact ⟨u, us, rfl⟩
  have hread := hs.reads_peek ht hu
  have hplaced := hs.placed_ahead (t := u) (by simp [hu])
  have hstart := hs.bodyStart hcut ht hu
  generalize c.edge + ((c.source.drop c.edge).takeWhile Text.isBlank).length = i at hss hstart
  have hchain : c.ahead.IsChain (Joint c.source) := by
    have := hs.arranged.joint
    rw [Cursor.inner] at this
    exact (List.isChain_append.mp this).2.1
  obtain ⟨z, ts, hz, hbrace, hts, heq⟩ := statementsFrom_tiles (a := c.edge) (p := u.start)
    (fun v hv => ⟨hs.placed_ahead hv, hw v (by simp [Cursor.inner, hv])⟩) hchain hss hstart.le.2 hstart.head
    hread rfl (by
      rw [hu]
      rintro _ ⟨⟩
      exact ⟨hcut.of_reads (hplaced.lt.le.trans hplaced.le) hread, .inl rfl⟩)
  have hpeek : (c.advance n).peek = z := by
    rw [Cursor.peek_advance, Cursor.peek]
    simp [hz]
  have hk := Token.kind_of_isSymbol hbrace
  have hs' := (hs.advance n).sound
  have hz' : Placed c.source z := hpeek ▸ hs'.placed_peek (by simp [hpeek, hk])
  have hmark : z.text = ['\x7d'] := congrArg Prod.snd (Token.word_of_isSymbol hbrace)
  have hstop : z.stop = z.start + 1 := by
    have hlen := hz'.length
    have := hz'.lt
    rw [hmark, List.length_singleton] at hlen
    omega
  have hedge : ((c.advance n).advance 1).edge = z.start + 1 := by
    rw [hs'.edge_advance (by simp [hpeek, hk]), hpeek, hstop]
  have hslice : Text.slice c.source z.start (z.start + 1) = ['\x7d'] := by
    rw [← hmark, hz'.text, hstop]
  rcases hstart.le.1.eq_or_lt with heq' | hlt
  · exact ⟨z.start, ts, hslice, hedge, heq' ▸ hts, heq⟩
  · exact ⟨z.start, _, hslice, hedge,
      .tile (t := ⟨.space, c.edge, i⟩) hlt (show (Tile.mk .space c.edge i).Fits _ _ from hstart.blank) hts, heq⟩

end Sources

/-- A closure in the source, read from the cursor `c` at its opening brace to `c'` behind its closing
brace; its body starts at `c₁`. -/
structure Closure.Sited (k : Closure) (t : Text) (c c₁ c' : Cursor) : Prop where
  cursor : Cursor.ofText t = .ok c
  leads : c.Leads c'
  opening : c.peek.reads ['\x7b'] = true
  lt : c.peek.start < c'.edge
  text : k.text = c.upTo c'
  inside : (c.advance 1).Leads c₁
  unsigned : k.signature = none → c₁.behind = (c.advance 1).behind
  signed : ∀ g ∈ k.signature, (c.advance 1).peek.start < c₁.edge ∧
    g.text = (c.advance 1).upTo c₁ ∧ Cut c₁.source c₁.edge
  body : k.ReadsBody c₁ c'

theorem Parser.closure_sited {t : Text} {k : Closure} (h : runOn closure t = .ok k) :
    ∃ c c₁ c', k.Sited t c c₁ c' := by
  cases hc : Cursor.ofText t with
  | error e => simp [runOn, hc] at h
  | ok c =>
    obtain ⟨hs, hsource, -⟩ := Cursor.sound_ofText hc
    cases hp : closure c with
    | error e c' => simp [runOn, hc, hp] at h
    | ok k' c' =>
      obtain rfl : k' = k := by simpa [runOn, hc, hp] using h
      obtain ⟨hl, hopening, hlt, htext, c₁, hl₁, hnone, hsignature, hbody⟩ :=
        (withGrammar_verbatim fun g hg => Grammar.closureRule_reads hs
          ((Grammar.closureSignature_shows hg (hs.advance 1).sound).and
            (Grammar.closureSignature_spec hg.toReliable (hs.advance 1).sound))).ok hp
      refine ⟨c, c₁, c', hc, hl, hopening, hlt, htext, hl₁, hnone, fun g hg => ?_, hbody⟩
      obtain ⟨hshows, -, -, w, -, hcut, -⟩ := hsignature g hg
      have htext := hshows.toCovers.text_eq (hs.advance 1).sound
      rw [Signature.node_eq] at htext
      exact ⟨hshows.lt, htext, hcut⟩

namespace Closure.Sited

variable {k : Closure} {t : Text} {c c₁ c' : Cursor} (h : k.Sited t c c₁ c')
include h

theorem sound : c.Sound := (Cursor.sound_ofText h.cursor).1

theorem source : c.source = t := (Cursor.sound_ofText h.cursor).2.1

theorem source_inside : c₁.source = t := ((h.sound.advance 1).trans h.inside).source.trans h.source

theorem kind_opening : c.peek.kind = .symbol := h.sound.kind_of_reads (m := '\x7b') rfl h.opening

theorem word_opening : c.peek.word = Token.mark '\x7b' := by
  have htext := h.opening
  simp only [Token.reads, Bool.and_eq_true, beq_iff_eq] at htext
  exact Prod.ext h.kind_opening htext.1.1

theorem placed : Placed t c.peek := h.source ▸ h.sound.placed_peek (by simp [h.kind_opening])

theorem stop_opening : c.peek.stop = c.peek.start + 1 := by
  have hlen := h.placed.length
  have := h.placed.lt
  rw [show c.peek.text = ['\x7b'] from congrArg Prod.snd h.word_opening, List.length_singleton] at hlen
  omega

theorem edge_opening : (c.advance 1).edge = c.peek.start + 1 := by
  rw [h.sound.edge_advance (by simp [h.kind_opening]), h.stop_opening]

theorem lt_inside : c.peek.start < c₁.edge := h.sound.peek_lt (by simp [h.kind_opening]) h.inside

theorem behind_ne_nil : c₁.behind ≠ [] := Cursor.behind_ne_nil_of_edge (by have := h.lt_inside; omega)

theorem edge_unsigned (hk : k.signature = none) : c₁.edge = c.peek.start + 1 := by
  rw [Cursor.edge, h.unsigned hk, ← Cursor.edge, h.edge_opening]

/-- The body starts where the source can be cut. -/
theorem cut : Cut t c₁.edge := by
  cases hk : k.signature with
  | none =>
    rw [h.edge_unsigned hk, ← h.stop_opening]
    exact h.placed.cut_stop (by simp [h.kind_opening])
  | some g => exact h.source_inside ▸ (h.signed g hk).2.2

end Closure.Sited

/-- The closure stands in the source from `b` up to its closing brace at `z`. Its body, which starts
behind the signature or the opening brace at `a`, is made of the parts `ts`, and each comment of the
body among the tokens `us` lies in one statement, or in one separator. -/
structure Closure.TiledBy (k : Closure) (t : Text) (us : List Token) (b a z : Nat) (ts : List Tile) :
    Prop where
  text : k.text = Text.slice t b (z + 1)
  opening : Text.slice t b (b + 1) = ['\x7b']
  closing : Text.slice t z (z + 1) = ['\x7d']
  lt : b < a
  unsigned : k.signature = none → a = b + 1
  signed : ∀ g ∈ k.signature, ∃ i, b < i ∧ g.text = Text.slice t i a
  tiles : Tiles t a ts a z
  statements : ts.filterMap (Tile.statement? t) = k.statements
  comments : ∀ u ∈ us, u.kind = .comment → a ≤ u.start → u.stop ≤ z → ∃! p, p ∈ ts ∧ p.Holds t u

namespace Parser

/-- Splitting a body into statements loses nothing but the separators. -/
theorem closure_tiles {t : Text} {k : Closure} (h : runOn closure t = .ok k) :
    ∃ us b a z ts, Token.tokenize t = .ok us ∧ k.TiledBy t us b a z ts := by
  obtain ⟨c, c₁, c', hk⟩ := closure_sited h
  have hsource := hk.source_inside
  obtain ⟨z, ts, hclose, hend, hts, heq⟩ := hk.body.tiles hk.inside.sound (hsource.symm ▸ hk.cut)
    hk.behind_ne_nil
    (((hk.sound.advance 1).trans hk.inside).within_source (Cursor.within_ofText hk.cursor))
  obtain ⟨us, htok⟩ : ∃ us, Token.tokenize t = .ok us := by
    cases htok : Token.tokenize t with
    | error e =>
      have hc := hk.cursor
      rw [Cursor.ofText, htok] at hc
      cases hc
    | ok us => exact ⟨us, rfl⟩
  rw [hsource] at hts hclose heq
  refine ⟨us, c.peek.start, c₁.edge, z, ts, htok, ?_, ?_, hclose, hk.lt_inside, hk.edge_unsigned, ?_,
    hts, heq, ?_⟩
  · rw [hk.text, Cursor.upTo, hend, hk.leads.source, hk.source]
  · rw [← hk.stop_opening, ← hk.placed.text]
    exact congrArg Prod.snd hk.word_opening
  · intro g hg
    refine ⟨(c.advance 1).peek.start, ?_, by rw [(hk.signed g hg).2.1, Cursor.upTo, hsource]⟩
    have hle := (hk.sound.advance 1).sound.edge_le_peek
    rw [hk.edge_opening] at hle
    omega
  · intro u hu hcomment ha hz
    obtain ⟨hcut, hlexeme, hlt, hle⟩ := Token.comment_placed htok hu hcomment
    exact hts.comment hcut hlexeme ha hz hlt hle

/-- A signature, two statements and three comments. -/
theorem closure_tiles_comments : ∃ k, runOn closure "\x7b x in // a\n f(x) // b\n; g() // c\n \x7d".toList = .ok k ∧
    k.statements.map Statement.text = ["// a\n f(x) // b".toList, "g() // c".toList] ∧
    ∃ us b a z ts, Token.tokenize "\x7b x in // a\n f(x) // b\n; g() // c\n \x7d".toList = .ok us ∧
      k.TiledBy "\x7b x in // a\n f(x) // b\n; g() // c\n \x7d".toList us b a z ts := by
  have hread : (runOn closure "\x7b x in // a\n f(x) // b\n; g() // c\n \x7d".toList).toOption.map
      (fun k => k.statements.map Statement.text) =
        some ["// a\n f(x) // b".toList, "g() // c".toList] := by
    decide +kernel
  cases hk : runOn closure "\x7b x in // a\n f(x) // b\n; g() // c\n \x7d".toList with
  | error e =>
    rw [hk] at hread
    cases hread
  | ok k =>
    rw [hk] at hread
    exact ⟨k, rfl, Option.some.inj hread, closure_tiles hk⟩

/-- A comment behind a semicolon is in no statement. -/
theorem closure_lost_comment :
    (runOn closure "\x7b a; // c\n \x7d".toList).toOption.map (fun k => k.statements.map Statement.text) =
      some [['a']] ∧
    (Token.tokenize "\x7b a; // c\n \x7d".toList).toOption.map (fun us =>
      (us.filter (·.kind == .comment)).map Token.text) = some ["// c".toList] := by
  decide +kernel

end Parser

end SwiftMacros
