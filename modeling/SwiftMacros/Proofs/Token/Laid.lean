import Mathlib
import SwiftMacros.Proofs.Token.Reads
import SwiftMacros.Token.Lexer

/-! The tokens of a source where they stand. Each significant token is the lexeme at its start, and
the source between two of them is white space and comments. The significant lexemes of a text are
those that it can be read as, up to a line comment that is not closed. The tokenizer reads lexeme by
lexeme, each from the place where the one before ends, so what is known of every lexeme carries over
to the tokens by induction. -/

namespace SwiftMacros.Token

/-- The kind and the text of a token. -/
def word (t : Token) : Word := (t.kind, t.text)

/-- The significant lexemes of a text. -/
def words (t : Text) : Except SyntaxError (List Word) :=
  (tokenize t).map fun ts => ((significant ts).filter (·.kind != .eof)).map word

/-- What can be left of a text that has been read: nothing, or a line comment without a line end. -/
def Rest (r : Text) : Prop := r = [] ∨ ∃ x, (∀ c ∈ x, c ≠ '\n') ∧ r = lineComment ++ x

/-- The significant tokens from an offset of a source on. -/
inductive Laid (s : Text) : Nat → List Token → Prop
  | nil {a : Nat} {r : Text} : Reads (s.drop a) [] r → Rest r → Laid s a []
  | cons {a : Nat} {t : Token} {ts : List Token} : Reads (s.drop a) [] (s.drop t.start) →
      a ≤ t.start → t.start < t.stop → t.stop ≤ s.length → t.text = Text.slice s t.start t.stop →
      lexeme (s.drop t.start) = .ok (t.kind, t.stop - t.start) → t.kind.isTrivia = false →
      Laid s t.stop ts → Laid s a (t :: ts)

section Lexemes

theorem commentLength_bounds {t : Text} {n : Nat} (h : commentLength? t = some n)
    (hp : blockOpen <+: t) : 3 ≤ n ∧ n ≤ t.length := by
  have h1 := scanComment_lt h
  have h2 := scanComment_le h (by simpa [blockOpen] using hp.length_le)
  omega

/-- The lexeme at the front of a text is a part of it. -/
theorem lexeme_split {t : Text} {k : Kind} {n : Nat} (h : lexeme t = .ok (k, n)) :
    ∃ x u, t = x ++ u ∧ x.length = n ∧ x ≠ [] := by
  suffices hn : 0 < n ∧ n ≤ t.length by
    refine ⟨t.take n, t.drop n, (List.take_append_drop n t).symm, by simp [hn.2], ?_⟩
    apply List.ne_nil_of_length_pos
    simp only [List.length_take]
    omega
  cases hk : k.isTrivia with
  | false => exact lexeme_bounds h hk
  | true =>
    rcases lexeme_trivia h hk with hg | ⟨hp, rfl⟩ | ⟨hp, hc⟩
    · have := runLength_le (p := isGap) t
      omega
    · obtain ⟨s, rfl⟩ := hp
      refine ⟨?_, runLength_le _⟩
      simp [lineComment, runLength_cons]
    · have := commentLength_bounds hc hp
      omega

/-- What is passed over: white space, a line comment up to its line end, or a block comment. -/
theorem trivia_cases {x u : Text} {k : Kind} (h : lexeme (x ++ u) = .ok (k, x.length))
    (hk : k.isTrivia = true) :
    (∀ c ∈ x, isGap c = true) ∨
    (∃ y, x = lineComment ++ y ∧ (∀ c ∈ y, c ≠ '\n') ∧ ∀ c ∈ u.head?, c = '\n') ∨
    (blockOpen <+: x ∧ commentLength? (x ++ u) = some x.length) := by
  rcases lexeme_trivia h hk with hg | ⟨hp, hrun⟩ | ⟨hp, hc⟩
  · exact .inl (of_runLength_eq hg.2).1
  · refine .inr (.inl ?_)
    obtain ⟨hx, hu⟩ := of_runLength_eq hrun.le
    have hlen : lineComment.length ≤ x.length := by
      obtain ⟨s, hs⟩ := hp
      rw [hrun, ← hs]
      simp only [lineComment, List.cons_append, List.nil_append, runLength_cons]
      simp
      omega
    obtain ⟨y, rfl⟩ := List.prefix_of_prefix_length_le hp (List.prefix_append x u) hlen
    refine ⟨y, rfl, fun c hc => by simpa using hx c (by simp [hc]), fun c hc => ?_⟩
    simpa using hu hrun.symm c hc
  · have := commentLength_bounds hc hp
    exact .inr (.inr ⟨List.prefix_of_prefix_length_le hp (List.prefix_append x u)
      (by simp only [blockOpen, List.length_cons, List.length_nil]; omega), hc⟩)

/-- The end of the source is no lexeme. -/
theorem lexeme_ne_eof {t : Text} {k : Kind} {n : Nat} (h : lexeme t = .ok (k, n)) : k ≠ .eof := by
  rcases lexeme_cases h with ⟨q, -, rfl, -⟩ | ⟨-, -, rfl, -⟩ | ⟨-, -, hs⟩
  · decide
  · decide
  · obtain ⟨⟨k', f⟩, hm, hf⟩ := List.exists_of_findSome?_eq_some hs
    have hkinds : ∀ p ∈ classes.map Prod.fst, p ≠ Kind.eof := by decide
    have := hkinds k' (List.mem_map_of_mem hm)
    simp only [Option.map_eq_some_iff, Prod.mk.injEq] at hf
    obtain ⟨m, -, rfl, -⟩ := hf
    exact this

/-- Where white space starts, the lexeme is a line end or a run of white space. -/
theorem lexeme_gap_eq {c : Char} (hc : isGap c = true) (t : Text) :
    lexeme (c :: t) = (newlineLength? (c :: t)).elim (.ok (.whitespace, runLength isSpaceChar (c :: t)))
      fun n => .ok (.newline, n) := by
  have hne : ∀ d, Text.isBlank d = false → c ≠ d := by
    rintro d hd rfl
    simp [isBlank_of_isGap hc] at hd
  have hopen : Quoting.opens? (c :: t) = none :=
    Quoting.opens?_eq_none (hne _ (by decide)) (hne _ (by decide)) t
  have hslash : c ≠ '/' := hne _ (by decide)
  have hblock : blockOpen.isPrefixOf (c :: t) = false := by
    simp [blockOpen, List.isPrefixOf, Ne.symm hslash]
  have hline : lineCommentLength? (c :: t) = none := by
    simp [lineCommentLength?, Ne.symm hslash]
  have hclasses : simpleLexeme? (c :: t) = ((.comment, lineCommentLength?) ::
      (.newline, newlineLength?) :: (.whitespace, nonemptyRun? isSpaceChar) ::
      classes.drop 3 : List _).findSome? fun p => (p.2 (c :: t)).map (p.1, ·) := rfl
  simp only [List.findSome?_cons, hline, Option.map_none] at hclasses
  cases hn : newlineLength? (c :: t) with
  | some n =>
    rw [hn] at hclasses
    exact lexeme_of_simple hopen hblock hclasses
  | none =>
    have hspace : isSpaceChar c = true := by
      simp only [isGap, Bool.or_eq_true, beq_iff_eq] at hc
      rcases hc with hc | rfl
      · exact hc
      · cases hn
    have hrun : nonemptyRun? isSpaceChar (c :: t) = some (runLength isSpaceChar (c :: t)) := by
      simp [nonemptyRun?, runLength_cons, hspace, Nat.add_comm 1]
    rw [hn, hrun] at hclasses
    exact lexeme_of_simple hopen hblock hclasses

theorem lexeme_gap {c : Char} (hc : isGap c = true) (t : Text) :
    ∃ k n, lexeme (c :: t) = .ok (k, n) ∧ k.isTrivia = true := by
  rw [lexeme_gap_eq hc]
  cases newlineLength? (c :: t) with
  | some n => exact ⟨.newline, n, rfl, rfl⟩
  | none => exact ⟨.whitespace, _, rfl, rfl⟩

theorem lexeme_lineComment {x u : Text} (hx : ∀ c ∈ x, c ≠ '\n') (hu : ∀ c ∈ u.head?, c = '\n') :
    lexeme (lineComment ++ x ++ u) = .ok (.comment, (lineComment ++ x).length) := by
  have hopen : Quoting.opens? (lineComment ++ x ++ u) = none :=
    Quoting.opens?_eq_none (by decide) (by decide) _
  have hblock : blockOpen.isPrefixOf (lineComment ++ x ++ u) = false := by
    simp [blockOpen, lineComment, List.isPrefixOf]
  have hrun : runLength (· ≠ '\n') (lineComment ++ x ++ u) = (lineComment ++ x).length := by
    rw [runLength_stop (p := (· ≠ '\n')) (fun c hc => by simp [hu c hc]), runLength,
      List.takeWhile_eq_self_iff.mpr]
    intro c hc
    rcases List.mem_append.mp hc with hc | hc
    · simp only [lineComment, List.mem_cons, List.not_mem_nil, or_false, or_self] at hc
      simp [hc]
    · simp [hx c hc]
  have hline : lineCommentLength? (lineComment ++ x ++ u) = some (lineComment ++ x).length := by
    rw [lineCommentLength?, hrun, if_pos (by simp [lineComment])]
  refine lexeme_of_simple hopen hblock ?_
  rw [simpleLexeme?, show classes = (.comment, lineCommentLength?) :: classes.drop 1 from rfl]
  simp only [List.findSome?_cons, hline, Option.map_some]

end Lexemes

section Places

theorem advance_offset (p : Place) (c : Char) : (p.advance c).offset = p.offset + 1 := by
  simp only [Place.advance]
  split <;> rfl

theorem foldl_advance_offset (p : Place) (x : Text) :
    (x.foldl Place.advance p).offset = p.offset + x.length := by
  induction x generalizing p with
  | nil => rfl
  | cons c x ih =>
    rw [List.foldl_cons, ih, advance_offset, List.length_cons]
    omega

theorem tokensFrom_skip (p : Place) (x u : Text) :
    tokensFrom p x.length (x ++ u) = tokensFrom (x.foldl Place.advance p) 0 u := by
  induction x generalizing p with
  | nil => rfl
  | cons c x ih => simp only [List.length_cons, List.cons_append, tokensFrom, ih, List.foldl_cons]

/-- The token of a lexeme that is read at a place. -/
def tokenAt (p : Place) (k : Kind) (x : Text) : Token :=
  ⟨k, x, p.line, p.column, p.offset, p.offset + x.length, false, false⟩

theorem tokensFrom_lexeme {x u : Text} {k : Kind} (hx : x ≠ [])
    (h : lexeme (x ++ u) = .ok (k, x.length)) (p : Place) :
    tokensFrom p 0 (x ++ u) =
      (tokensFrom (x.foldl Place.advance p) 0 u).map (tokenAt p k x :: ·) := by
  obtain ⟨c, x, rfl⟩ := List.exists_cons_of_ne_nil hx
  have htake : (c :: (x ++ u)).take (x.length + 1) = c :: x := by simp
  rw [List.cons_append] at h
  simp only [List.cons_append, tokensFrom, h, List.length_cons, Nat.add_sub_cancel,
    tokensFrom_skip, List.foldl_cons, htake]
  cases tokensFrom (x.foldl Place.advance (p.advance c)) 0 u <;> rfl

theorem tokensFrom_error {c : Char} {t : Text} {e : LexFault} (h : lexeme (c :: t) = .error e)
    (p : Place) : tokensFrom p 0 (c :: t) = .error (p.error e) := by
  simp only [tokensFrom, h]

end Places

namespace Laid

variable {s : Text} {a b : Nat} {ts : List Token}

theorem of_reads (hr : Reads (s.drop a) [] (s.drop b)) (hab : a ≤ b) (h : Laid s b ts) :
    Laid s a ts := by
  cases h with
  | nil hr' hrest => exact .nil (hr.trans hr') hrest
  | cons hr' hle hlt hstop htext hl hk hts =>
    exact .cons (hr.trans hr') (hab.trans hle) hlt hstop htext hl hk hts

/-- A significant lexeme does not start with white space. -/
theorem drop_ne_gap {i n : Nat} {k : Kind} {t : Text} (hl : lexeme (s.drop i) = .ok (k, n))
    (hk : k.isTrivia = false) {c : Char} (hc : isGap c = true) : s.drop i ≠ c :: t := by
  intro he
  rw [he] at hl
  have := lexeme_first hl hk
  simp [isBlank_of_isGap hc] at this

theorem of_lineComment {x u : Text} (hx : ∀ c ∈ x, c ≠ '\n') (hu : ∀ c ∈ u.head?, c = '\n')
    (ha : s.drop a = lineComment ++ x ++ u) (hb : s.drop b = u) (hab : a ≤ b) (h : Laid s b ts) :
    Laid s a ts := by
  have hnewline : isGap '\n' = true := by decide
  have hclose : ∀ v r, u = '\n' :: v → Reads u [] r → r ≠ u → Reads (s.drop a) [] r := by
    rintro v r rfl hr hne
    rw [ha, show lineComment ++ x ++ '\n' :: v = lineComment ++ x ++ ['\n'] ++ v by simp]
    exact .chunk (.lineComment hx) (hr.of_gap_cons hnewline hne)
  cases h with
  | nil hr hrest =>
    rw [hb] at hr
    cases u with
    | nil => exact .nil (.done _) (.inr ⟨x, hx, by simpa using ha⟩)
    | cons c v =>
      obtain rfl : c = '\n' := hu c (by simp)
      refine .nil (hclose v _ rfl hr ?_) hrest
      rcases hrest with rfl | ⟨y, -, rfl⟩ <;> simp [lineComment]
  | @cons _ t ts hr hle hlt hstop htext hl hk hts =>
    rw [hb] at hr
    refine .cons ?_ (hab.trans hle) hlt hstop htext hl hk hts
    cases u with
    | nil =>
      have := hr.suffix.length_le
      simp only [List.length_drop, List.length_nil] at this
      omega
    | cons c v =>
      obtain rfl : c = '\n' := hu c (by simp)
      exact hclose v _ rfl hr (drop_ne_gap hl hk hnewline)

end Laid

/-- The significant tokens that are read from a place on are laid out in the source. -/
theorem tokensFrom_laid {s : Text} {p : Place} {ts : List Token} (newline space : Bool)
    (hp : p.offset ≤ s.length) (h : tokensFrom p 0 (s.drop p.offset) = .ok ts) :
    ∃ us e, significantFrom newline space ts = us ++ [e] ∧ Laid s p.offset us ∧
      e.kind = .eof ∧ e.text = [] ∧ e.start = s.length ∧ e.stop = s.length := by
  induction hn : s.length - p.offset using Nat.strong_induction_on
    generalizing p ts newline space with
  | _ n ih =>
  cases ht : s.drop p.offset with
  | nil =>
    rw [ht] at h
    have hend : p.offset = s.length := by
      have := List.drop_eq_nil_iff.mp ht
      omega
    cases h
    exact ⟨[], _, rfl, .nil (ht ▸ .done []) (.inl rfl), rfl, rfl, hend, hend⟩
  | cons c t =>
    cases hl : lexeme (c :: t) with
    | error e =>
      rw [ht, tokensFrom_error hl] at h
      cases h
    | ok l =>
      obtain ⟨k, m⟩ := l
      obtain ⟨x, u, hxu, rfl, hx⟩ := lexeme_split hl
      rw [hxu] at hl ht
      rw [ht, tokensFrom_lexeme hx hl] at h
      set p' := x.foldl Place.advance p with hp'
      have hoffset : p'.offset = p.offset + x.length := foldl_advance_offset p x
      have hlen : p.offset + x.length + u.length = s.length := by
        have := congrArg List.length ht
        simp only [List.length_drop, List.length_append] at this
        omega
      have hdrop : s.drop p'.offset = u := by
        rw [hoffset, ← List.drop_drop, ht, List.drop_left]
      have hpos := List.length_pos_iff.mpr hx
      cases hts : tokensFrom p' 0 u with
      | error e =>
        rw [hts] at h
        cases h
      | ok ts' =>
        rw [hts] at h
        cases h
        have ih' := fun nl sp => ih (s.length - p'.offset) (by omega) (p := p') nl sp
          (by omega) (by rw [hdrop, hts]) rfl
        have htext : x = Text.slice s p.offset (p.offset + x.length) := by
          rw [Text.slice, ht, Nat.add_sub_cancel_left, List.take_left]
        simp only [significantFrom]
        cases hk : k.isTrivia with
        | true =>
          obtain ⟨us, e, hus, hlaid, he⟩ :=
            ih' (newline || (tokenAt p k x).breaksLine) true
          refine ⟨us, e, by simp only [tokenAt, hk, if_true]; exact hus, ?_, he⟩
          have hle : p.offset ≤ p'.offset := by omega
          rcases trivia_cases hl hk with hg | ⟨y, rfl, hy, hu⟩ | ⟨hblock, hc⟩
          · refine hlaid.of_reads ?_ hle
            rw [ht, hdrop]
            exact .of_gaps hg u
          · exact hlaid.of_lineComment hy hu ht hdrop hle
          · refine hlaid.of_reads ?_ hle
            rw [ht, hdrop]
            exact .chunk (.blockComment hblock hc) (.done u)
        | false =>
          obtain ⟨us, e, hus, hlaid, he⟩ := ih' false false
          rw [hoffset] at hlaid
          refine ⟨_ :: us, e, by simp only [tokenAt, hk, Bool.false_eq_true, if_false, hus]; rfl,
            .cons (.done _) le_rfl ?_ ?_ ?_ ?_ hk hlaid, he⟩
          · simp only
            omega
          · simp only
            omega
          · exact htext
          · simp only [ht, hl, Nat.add_sub_cancel_left]

theorem Laid.reads {s : Text} {a : Nat} {ts : List Token} (h : Laid s a ts) :
    ∃ r, Reads (s.drop a) (ts.map word) r ∧ Rest r := by
  induction h with
  | @nil a r hr hrest => exact ⟨r, hr, hrest⟩
  | @cons a t ts hr hle hlt hstop htext hl hk _ ih =>
    obtain ⟨r, hread, hrest⟩ := ih
    have hsplit : s.drop t.start = t.text ++ s.drop t.stop := by
      rw [htext, Text.slice, show s.drop t.stop = (s.drop t.start).drop (t.stop - t.start) by
        rw [List.drop_drop]; congr 1; omega, List.take_append_drop]
    have hlen : t.text.length = t.stop - t.start := by
      rw [htext, Text.slice, List.length_take, List.length_drop]
      omega
    refine ⟨r, hr.trans ?_, hrest⟩
    rw [hsplit] at hl ⊢
    rw [← hlen] at hl
    exact .chunk (.lexeme hl hk) hread

/-- A rest does not start with white space. -/
theorem Rest.head_not_gap {c : Char} {t : Text} (h : Rest (c :: t)) : isGap c = false := by
  rcases h with h | ⟨y, -, h⟩
  · cases h
  · obtain rfl : c = '/' := by simpa [lineComment] using congrArg List.head? h
    decide

/-- A reading of a text starts with the lexeme at its front. -/
theorem Reads.front {t r : Text} {ls : List Word} (h : Reads t ls r) (hr : Rest r) (ht : t ≠ []) :
    ∃ k x u ms r', t = x ++ u ∧ x ≠ [] ∧ lexeme (x ++ u) = .ok (k, x.length) ∧ Reads u ms r' ∧
      Rest r' ∧ ls = if k.isTrivia then ms else (k, x) :: ms := by
  cases h with
  | done =>
    rcases hr with rfl | ⟨y, hy, rfl⟩
    · exact absurd rfl ht
    · have hl := lexeme_lineComment (u := []) hy (by simp)
      exact ⟨.comment, lineComment ++ y, [], [], [], by simp, by simp [lineComment], hl, .done [],
        .inl rfl, rfl⟩
  | @chunk x u _ a ms hc hrest =>
    have hne := hc.ne_nil
    cases hc with
    | @gap c _ hg =>
      obtain ⟨k, n, hl, hk⟩ := lexeme_gap hg u
      obtain ⟨x, v, hxv, rfl, hx⟩ := lexeme_split hl
      have hread : Reads (x ++ v) ms r := by
        rw [← hxv]
        exact .chunk (x := [c]) (a := []) (.gap hg) hrest
      have hhead : x.head? = some c := by
        obtain ⟨d, y, rfl⟩ := List.exists_cons_of_ne_nil hx
        simp only [List.cons_append, List.cons.injEq] at hxv
        simp [hxv.1]
      rw [hxv] at hl
      have hgaps : ∀ d ∈ x, isGap d = true := by
        rcases trivia_cases hl hk with hg' | ⟨y, rfl, -, -⟩ | ⟨⟨y, rfl⟩, -⟩
        · exact hg'
        · cases hhead
          cases hg
        · cases hhead
          cases hg
      have hle : r.length ≤ v.length := by
        obtain ⟨y, hy⟩ := hread.suffix
        rcases List.append_eq_append_iff.mp hy with ⟨z, rfl, rfl⟩ | ⟨z, rfl, rfl⟩
        · cases z with
          | nil => simp
          | cons d z =>
            have := hr.head_not_gap
            simp [hgaps d (by simp)] at this
        · simp
      obtain ⟨ns, rfl, hns⟩ := (Reads.of_gaps hgaps v).between hread hle
      exact ⟨k, x, v, _, r, hxv, hx, hl, hns, hr, by simp [hk]⟩
    | @lineComment y _ hy =>
      have hl := lexeme_lineComment (u := '\n' :: u) hy (by simp)
      refine ⟨.comment, Token.lineComment ++ y, '\n' :: u, ms, r, by simp, by simp [Token.lineComment],
        hl, ?_, hr, rfl⟩
      exact .chunk (x := ['\n']) (a := []) (.gap (by decide)) hrest
    | blockComment hp hc =>
      exact ⟨.comment, x, u, ms, r, rfl, hne, (lexeme_blockComment hp hc u).1, hrest, hr, rfl⟩
    | @lexeme k _ _ hl hk =>
      exact ⟨k, x, u, ms, r, rfl, hne, hl, hrest, hr, by simp [hk]⟩

theorem tokensFrom_of_reads {t r : Text} {ls : List Word} (h : Reads t ls r) (hr : Rest r) (p : Place)
    (newline space : Bool) : ∃ ts, tokensFrom p 0 t = .ok ts ∧
      ((significantFrom newline space ts).filter (·.kind != .eof)).map word = ls := by
  induction hn : t.length using Nat.strong_induction_on generalizing t r ls p newline space with
  | _ n ih =>
  rcases eq_or_ne t [] with rfl | ht
  · obtain rfl : r = [] := List.suffix_nil.mp h.suffix
    exact ⟨_, rfl, h.eq_nil.symm⟩
  · obtain ⟨k, x, u, ms, r', rfl, hx, hl, hread, hr', rfl⟩ := h.front hr ht
    have hlt : u.length < n := by
      have := List.length_pos_iff.mpr hx
      simp only [List.length_append] at hn
      omega
    have ih' := fun nl sp => ih u.length hlt hread hr' (x.foldl Place.advance p) nl sp rfl
    cases hk : k.isTrivia with
    | true =>
      obtain ⟨ts, hts, hms⟩ := ih' (newline || (tokenAt p k x).breaksLine) true
      refine ⟨tokenAt p k x :: ts, by rw [tokensFrom_lexeme hx hl, hts]; rfl, ?_⟩
      rw [significantFrom]
      simp only [tokenAt, hk, if_true]
      exact hms
    | false =>
      obtain ⟨ts, hts, hms⟩ := ih' false false
      refine ⟨tokenAt p k x :: ts, by rw [tokensFrom_lexeme hx hl, hts]; rfl, ?_⟩
      have hne := lexeme_ne_eof hl
      rw [significantFrom]
      simp only [tokenAt, hk, Bool.false_eq_true, if_false]
      rw [List.filter_cons_of_pos (by simpa using hne), List.map_cons, hms]
      rfl

theorem Laid.ne_eof {s : Text} {a : Nat} {ts : List Token} (h : Laid s a ts) :
    ∀ t ∈ ts, t.kind ≠ .eof := by
  induction h with
  | nil => simp
  | cons _ _ _ _ _ hl _ _ ih => simpa using ⟨lexeme_ne_eof hl, ih⟩

/-- The significant lexemes of a text are those that it is read as, up to what can be left. -/
theorem words_eq_ok_iff {t : Text} {ls : List Word} :
    words t = .ok ls ↔ ∃ r, Reads t ls r ∧ Rest r := by
  constructor
  · intro h
    cases hts : tokenize t with
    | error e =>
      rw [words, hts] at h
      cases h
    | ok ts =>
      rw [words, hts] at h
      cases h
      obtain ⟨us, e, hus, hlaid, he, -⟩ :=
        tokensFrom_laid (s := t) (p := {}) false false (Nat.zero_le _) hts
      obtain ⟨r, hread, hrest⟩ := hlaid.reads
      refine ⟨r, ?_, hrest⟩
      have hfilter : us.filter (·.kind != .eof) = us :=
        List.filter_eq_self.mpr fun u hu => by simpa using hlaid.ne_eof u hu
      have hsig : significant ts = us ++ [e] := hus
      beta_reduce
      rw [hsig, List.filter_append, hfilter, List.filter_cons_of_neg (by simp [he]),
        List.filter_nil, List.append_nil]
      exact hread
  · rintro ⟨r, hread, hrest⟩
    obtain ⟨ts, hts, hls⟩ := tokensFrom_of_reads hread hrest {} false false
    rw [words, tokenize, hts]
    simp only [Except.map, significant, hls]

/-- The tokens `ts` are read from the front of a text at a place, up to another place and the rest
of the text. -/
inductive Lexes : Place → Text → List Token → Place → Text → Prop
  | done (p : Place) (t : Text) : Lexes p t [] p t
  | token {p p' : Place} {x u r : Text} {k : Kind} {ts : List Token} : x ≠ [] →
      lexeme (x ++ u) = .ok (k, x.length) → Lexes (x.foldl Place.advance p) u ts p' r →
      Lexes p (x ++ u) (tokenAt p k x :: ts) p' r

/-- The tokenizer reads all of a text, or up to a fault. -/
theorem tokensFrom_lexes (p : Place) (t : Text) :
    (∀ ts, tokensFrom p 0 t = .ok ts →
      ∃ us p', ts = us ++ [tokenAt p' .eof []] ∧ Lexes p t us p' []) ∧
    ∀ e, tokensFrom p 0 t = .error e → ∃ us p' u f, Lexes p t us p' u ∧ u ≠ [] ∧
      lexeme u = .error f ∧ e = p'.error f := by
  induction hn : t.length using Nat.strong_induction_on generalizing t p with
  | _ n ih =>
  cases t with
  | nil =>
    refine ⟨fun ts hts => ?_, fun e he => by cases he⟩
    cases hts
    exact ⟨[], p, rfl, .done p []⟩
  | cons c t =>
    cases hl : lexeme (c :: t) with
    | error f =>
      rw [tokensFrom_error hl]
      refine ⟨fun ts hts => (by cases hts), fun e he => ?_⟩
      cases he
      exact ⟨[], p, c :: t, f, .done p _, by simp, hl, rfl⟩
    | ok l =>
      obtain ⟨k, m⟩ := l
      obtain ⟨x, u, hxu, rfl, hx⟩ := lexeme_split hl
      rw [hxu] at hl hn ⊢
      rw [tokensFrom_lexeme hx hl]
      have hlt : u.length < n := by
        have := List.length_pos_iff.mpr hx
        simp only [List.length_append] at hn
        omega
      obtain ⟨hok, herror⟩ := ih u.length hlt (x.foldl Place.advance p) u rfl
      constructor
      · intro ts hts
        cases hrest : tokensFrom (x.foldl Place.advance p) 0 u with
        | error e =>
          rw [hrest] at hts
          cases hts
        | ok vs =>
          rw [hrest] at hts
          cases hts
          obtain ⟨us, p', rfl, hlexes⟩ := hok vs hrest
          exact ⟨_ :: us, p', rfl, .token hx hl hlexes⟩
      · intro e he
        cases hrest : tokensFrom (x.foldl Place.advance p) 0 u with
        | ok vs =>
          rw [hrest] at he
          cases he
        | error e' =>
          rw [hrest] at he
          cases he
          obtain ⟨us, p', v, f, hlexes, hne, hf, rfl⟩ := herror _ hrest
          exact ⟨_ :: us, p', v, f, .token hx hl hlexes, hne, hf, rfl⟩

namespace Lexes

variable {p p' : Place} {t u : Text} {ts : List Token}

theorem le (h : Lexes p t ts p' u) : p.offset ≤ p'.offset := by
  induction h with
  | done => exact le_rfl
  | token hx hl _ ih =>
    rw [foldl_advance_offset] at ih
    omega

/-- Tokens that are read stand between the two places, one behind the other. -/
theorem spread (h : Lexes p t ts p' u) :
    (∀ k ∈ ts, p.offset ≤ k.start ∧ k.stop ≤ p'.offset) ∧
      ts.Pairwise fun k l => k.stop ≤ l.start := by
  induction h with
  | done => simp
  | @token p p' x u r k ts hx hl hrest ih =>
    have hle := hrest.le
    rw [foldl_advance_offset] at ih hle
    obtain ⟨hbounds, hpair⟩ := ih
    refine ⟨?_, List.pairwise_cons.mpr ⟨fun l hl => (hbounds l hl).1, hpair⟩⟩
    rw [List.forall_mem_cons]
    refine ⟨⟨le_rfl, hle⟩, fun l hl => ?_⟩
    have := hbounds l hl
    omega

end Lexes

end SwiftMacros.Token
