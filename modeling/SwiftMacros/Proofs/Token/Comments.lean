import Mathlib
import SwiftMacros.Proofs.Token.Inner
import SwiftMacros.Proofs.Token.Laid

/-! Where the comments of a text stand. A scan that knows delimiters alone passes over the text from
one literal, name in backquotes or comment to the next, and takes every other character singly. The
comments among the tokens are the ones this scan finds exactly if no operator holds the start of a
comment: operators are read as far as they go, so that a comment directly behind one is taken for a
part of it. -/

namespace SwiftMacros.Token

/-- What the scan finds at the front of a text: whether it is a comment, and its length. A block
comment that is not closed takes all of the text; a literal that is not closed ends the scan. -/
def piece? (t : Text) : Option (Bool × Nat) :=
  match Quoting.opens? t with
  | some q => (literalLength q t).toOption.map (false, ·)
  | none =>
    if blockOpen.isPrefixOf t then some (true, (commentLength? t).getD t.length)
    else match lineCommentLength? t with
      | some n => some (true, n)
      | none => some (false, (backquotedLength? t).getD 1)

/-- The ranges of the comments that the scan finds from offset `a` on. The first `skip` characters
belong to a piece before. -/
def commentsFrom : Nat → Nat → Text → List (Nat × Nat)
  | _, _, [] => []
  | a, skip + 1, _ :: t => commentsFrom (a + 1) skip t
  | a, 0, c :: t =>
    match piece? (c :: t) with
    | none => []
    | some (comment, n) =>
      (if comment then [(a, a + n)] else []) ++ commentsFrom (a + 1) (n - 1) t

def comments (t : Text) : List (Nat × Nat) := commentsFrom 0 0 t

/-- The ranges of the comments among some tokens. -/
def commentSpans (ts : List Token) : List (Nat × Nat) :=
  (ts.filter (·.kind == .comment)).map fun t => (t.start, t.stop)

/-- No comment starts within the text. -/
def Uncommented (x : Text) : Prop := ¬ lineComment <:+: x ∧ ¬ blockOpen <:+: x

/-- No operator among the tokens holds the start of a comment. -/
def Separate (ts : List Token) : Prop := ∀ t ∈ ts, t.kind = .operator → Uncommented t.text

section Pieces

variable {x y u : Text} {k : Kind}

theorem commentsFrom_skip (a : Nat) (x u : Text) :
    commentsFrom a x.length (x ++ u) = commentsFrom (a + x.length) 0 u := by
  induction x generalizing a with
  | nil => rfl
  | cons c x ih =>
    rw [List.length_cons, List.cons_append, commentsFrom, ih]
    congr 1
    omega

/-- A piece is passed over as a whole. -/
theorem commentsFrom_piece (hx : x ≠ []) {b : Bool} (h : piece? (x ++ u) = some (b, x.length))
    (a : Nat) : commentsFrom a 0 (x ++ u) =
      (if b then [(a, a + x.length)] else []) ++ commentsFrom (a + x.length) 0 u := by
  obtain ⟨c, x, rfl⟩ := List.exists_cons_of_ne_nil hx
  rw [List.cons_append] at h ⊢
  rw [commentsFrom, h]
  simp only [List.length_cons, Nat.add_sub_cancel, commentsFrom_skip]
  congr 2
  omega

/-- Characters that are no pieces of more than one character are passed over one by one. -/
theorem commentsFrom_singly (h : ∀ y c z, x = y ++ c :: z → piece? (c :: z ++ u) = some (false, 1))
    (a : Nat) : commentsFrom a 0 (x ++ u) = commentsFrom (a + x.length) 0 u := by
  induction x generalizing a with
  | nil => rfl
  | cons c x ih =>
    have hc := commentsFrom_piece (x := [c]) (u := x ++ u) (by simp) (h [] c x rfl) a
    have hrest := ih (fun y d z hx => h (c :: y) d z (by rw [hx, List.cons_append])) (a + 1)
    rw [List.singleton_append, List.length_singleton, hrest] at hc
    rw [List.cons_append, hc, List.length_cons, Nat.add_right_comm, Nat.add_assoc]
    rfl

/-- A character that encloses nothing and starts no comment is passed over. -/
theorem piece_single {c : Char} {t : Text} (hopen : Quoting.opens? (c :: t) = none) (hb : c ≠ '`')
    (hblock : blockOpen.isPrefixOf (c :: t) = false) (hline : lineComment.isPrefixOf (c :: t) = false) :
    piece? (c :: t) = some (false, 1) := by
  have h : lineCommentLength? (c :: t) = none := by
    simp only [lineCommentLength?, show "//".toList = lineComment by decide, hline,
      Bool.false_eq_true, if_false]
  simp only [piece?, hopen, hblock, h, backquoted_of_ne hb, Bool.false_eq_true, if_false,
    Option.getD_none]

theorem piece_inner {c : Char} (hc : isInner c = true) (t : Text) :
    piece? (c :: t) = some (false, 1) := by
  simp only [isInner, Bool.and_eq_true, bne_iff_ne, ne_eq] at hc
  obtain ⟨⟨⟨hq, hp⟩, hb⟩, hs⟩ := hc
  refine piece_single (Quoting.opens?_eq_none hp hq t) hb ?_ ?_
  · simp [blockOpen, List.isPrefixOf, Ne.symm hs]
  · simp [lineComment, List.isPrefixOf, Ne.symm hs]

/-- A character of an operator that starts no comment within it is passed over. -/
theorem piece_operator {c : Char} (hc : isOperatorChar c = true ∨ c = '.') {t : Text}
    (hblock : blockOpen.isPrefixOf (c :: t) = false) (hline : lineComment.isPrefixOf (c :: t) = false) :
    piece? (c :: t) = some (false, 1) := by
  have hne : ∀ d, isOperatorChar d = false → d ≠ '.' → c ≠ d := by
    rintro d hd hp rfl
    rcases hc with hc | hc
    · simp [hd] at hc
    · exact hp hc
  have hopen := Quoting.opens?_eq_none (hne '#' (by decide) (by decide)) (hne '"' (by decide) (by decide))
  exact piece_single (hopen t) (hne '`' (by decide) (by decide)) hblock hline

/-- Behind an operator that ends with a slash comes no character that would make it a comment. -/
theorem operator_slash (h : lexeme (x ++ u) = .ok (.operator, x.length)) (hx : x.getLast? = some '/') :
    ∀ c ∈ u.head?, c ≠ '/' ∧ c ≠ '*' := by
  obtain ⟨f, hm, hf⟩ := lexeme_class h rfl (by decide)
  obtain rfl : f = operatorLength? := by simpa [classes] using hm
  simp only [operatorLength?, show "...".toList = ['.', '.', '.'] by decide,
    show "..<".toList = ['.', '.', '<'] by decide] at hf
  split at hf
  · rename_i hp
    rw [Option.some.injEq] at hf
    have hrange : x = ['.', '.', '.'] ∨ x = ['.', '.', '<'] := by
      simp only [List.isPrefixOf_iff_prefix, List.prefix_iff_eq_take] at hp
      simpa [List.take_left' hf.symm, eq_comm] using hp
    rcases hrange with rfl | rfl <;> cases hx
  · have hrun := (nonemptyRun_eq_some hf).1
    intro c hc
    have := (of_runLength_eq hrun.le).2 hrun.symm c hc
    constructor <;> rintro rfl <;> cases this

end Pieces

section Lexemes

variable {x u : Text} {k : Kind}

/-- An operator in which no comment starts is passed over. -/
theorem commentsFrom_operator (h : ∀ c ∈ x, isOperatorChar c = true ∨ c = '.')
    (hlast : x.getLast? = some '/' → ∀ c ∈ u.head?, c ≠ '/' ∧ c ≠ '*') (hx : Uncommented x) (a : Nat) :
    commentsFrom a 0 (x ++ u) = commentsFrom (a + x.length) 0 u := by
  refine commentsFrom_singly (fun y c z hyz => ?_) a
  have hnone : ∀ m, (m = '/' ∨ m = '*') → ['/', m].isPrefixOf (c :: z ++ u) = false := by
    intro m hm
    by_contra hp
    rw [Bool.not_eq_false, List.isPrefixOf_iff_prefix] at hp
    cases z with
    | nil =>
      obtain ⟨v, hv⟩ := hp
      cases hv
      have hslash := hlast (by rw [hyz, List.getLast?_concat]) m (by simp)
      rcases hm with rfl | rfl
      · exact hslash.1 rfl
      · exact hslash.2 rfl
    | cons d z =>
      obtain ⟨v, hv⟩ := hp
      cases hv
      have hinfix : ['/', m] <:+: x := ⟨y, z, by rw [hyz]; simp⟩
      rcases hm with rfl | rfl
      · exact hx.1 hinfix
      · exact hx.2 hinfix
  exact piece_operator (h c (by rw [hyz]; simp)) (hnone '*' (.inr rfl)) (hnone '/' (.inl rfl))

/-- Where a comment starts in an operator, the scan finds it. -/
theorem commentsFrom_commented (h : ∀ c ∈ x, isOperatorChar c = true ∨ c = '.')
    (hx : ¬ Uncommented x) (u : Text) (a : Nat) :
    ∃ s ∈ commentsFrom a 0 (x ++ u), a ≤ s.1 ∧ s.1 < a + x.length := by
  induction x generalizing a with
  | nil => simp [Uncommented, lineComment, blockOpen] at hx
  | cons c x ih =>
    by_cases hopen : lineComment <+: c :: x ∨ blockOpen <+: c :: x
    · have hslash : ∃ d y, c :: x = '/' :: d :: y ∧ (d = '/' ∨ d = '*') := by
        rcases hopen with ⟨y, hy⟩ | ⟨y, hy⟩
        · exact ⟨'/', y, hy.symm, .inl rfl⟩
        · exact ⟨'*', y, hy.symm, .inr rfl⟩
      obtain ⟨d, y, hy, hd⟩ := hslash
      have hpiece : ∃ n, piece? ('/' :: d :: y ++ u) = some (true, n) := by
        have hnone := Quoting.opens?_eq_none (c := '/') (by decide) (by decide) (d :: y ++ u)
        rcases hd with rfl | rfl
        · exact ⟨_, by simp only [List.cons_append, piece?] at hnone ⊢; rw [hnone]; rfl⟩
        · exact ⟨_, by simp only [List.cons_append, piece?] at hnone ⊢; rw [hnone]; rfl⟩
      obtain ⟨n, hn⟩ := hpiece
      rw [hy]
      refine ⟨(a, a + n), ?_, le_rfl, by simp⟩
      rw [List.cons_append, List.cons_append] at hn ⊢
      simp [commentsFrom, hn]
    · have hrest : ¬ Uncommented x := by
        contrapose! hopen
        rw [Uncommented, List.infix_cons_iff, List.infix_cons_iff] at hx
        by_contra hnone
        rw [not_or] at hnone
        exact hx ⟨not_or_intro hnone.1 hopen.1, not_or_intro hnone.2 hopen.2⟩
      obtain ⟨d, y, rfl⟩ : ∃ d y, x = d :: y := by
        cases x with
        | nil => simp [Uncommented, lineComment, blockOpen] at hrest
        | cons d y => exact ⟨d, y, rfl⟩
      have hnone : ∀ m, ¬ ['/', m] <+: c :: d :: y → ['/', m].isPrefixOf (c :: d :: y ++ u) = false := by
        intro m hm
        simpa [← List.isPrefixOf_iff_prefix, List.isPrefixOf] using hm
      rw [not_or] at hopen
      have hpiece := piece_operator (h c (by simp)) (hnone '*' hopen.2) (hnone '/' hopen.1)
      have hstep := commentsFrom_piece (x := [c]) (by simp) hpiece a
      obtain ⟨s, hs, hle, hlt⟩ := ih (fun e he => h e (by simp [he])) hrest (a + 1)
      refine ⟨s, ?_, by omega, by simp only [List.length_cons] at hlt ⊢; omega⟩
      rw [List.cons_append]
      exact hstep ▸ List.mem_append_right _ hs

/-- A lexeme other than an operator that is neither enclosed nor a comment holds inner characters
behind its first, which is no slash. -/
theorem simpleLexeme_inner {c : Char} {t : Text} {n : Nat} (h : simpleLexeme? (c :: t) = some (k, n))
    (hc : k ≠ .comment) (ho : k ≠ .operator) (hb : c ≠ '`') :
    c ≠ '/' ∧ n ≤ 1 + runLength isInner t := by
  have hlead : ∀ {f : Text → Option Nat}, Inner f → f (c :: t) = some n → 0 < n →
      c ≠ '/' ∧ n ≤ 1 + runLength isInner t := by
    intro f hf hn hpos
    have hle := hf _ _ hn
    rw [runLength_cons] at hle
    split at hle
    · rename_i hi
      refine ⟨?_, hle⟩
      rintro rfl
      cases hi
    · omega
  have hsigil : ∀ d, d ≠ '/' → sigilNameLength? d (c :: t) = some n →
      c ≠ '/' ∧ n ≤ 1 + runLength isInner t := by
    intro d hd hn
    simp only [sigilNameLength?, Option.ite_none_right_eq_some, Option.map_eq_some_iff] at hn
    obtain ⟨rfl, m, hm, rfl⟩ := hn
    have := Inner.name _ _ hm
    exact ⟨hd, by omega⟩
  have hchar : ∀ p : Char → Bool, p '/' = false → charLength? p (c :: t) = some n →
      c ≠ '/' ∧ n ≤ 1 + runLength isInner t := by
    intro p hp hn
    simp only [charLength?, Option.ite_none_right_eq_some, Option.some.injEq] at hn
    obtain ⟨hpc, rfl⟩ := hn
    refine ⟨?_, by omega⟩
    rintro rfl
    simp [hp] at hpc
  obtain ⟨f, hm, hf⟩ := simpleLexeme_class h
  simp only [classes, List.mem_cons, List.not_mem_nil, or_false, Prod.mk.injEq] at hm
  rcases hm with ⟨rfl, -⟩ | ⟨-, rfl⟩ | ⟨-, rfl⟩ | ⟨-, rfl⟩ | ⟨-, rfl⟩ | ⟨-, rfl⟩ | ⟨-, rfl⟩ |
    ⟨-, rfl⟩ | ⟨-, rfl⟩ | ⟨-, rfl⟩ | ⟨rfl, -⟩ | ⟨-, rfl⟩ | ⟨-, rfl⟩
  · exact absurd rfl hc
  · simp only [newlineLength?] at hf
    split at hf
    · rename_i hnl
      cases hf
      cases hnl
      exact ⟨by decide, by omega⟩
    · rename_i hnl
      cases hf
      cases hnl
      exact ⟨by decide, by simp [runLength_cons, isInner]; omega⟩
    · cases hf
  · exact hlead (.run (inner_of (by decide))) hf (nonemptyRun_eq_some hf).2
  · exact hlead .float hf (local_float (A := Apart).le hf).1
  · exact hlead .integer hf (local_integer (A := Apart).le hf).1
  · exact hsigil '#' (by decide) hf
  · exact hsigil '@' (by decide) hf
  · rw [identifierLength?, backquoted_of_ne hb, Option.none_or] at hf
    exact hlead (Inner.dollar.or Inner.name) hf ((local_dollar (A := Apart).or local_name).le hf).1
  · simp only [arrowLength?, Option.ite_none_right_eq_some, Option.some.injEq] at hf
    obtain ⟨hp, rfl⟩ := hf
    rw [show "->".toList = ['-', '>'] by decide, List.isPrefixOf_iff_prefix] at hp
    obtain ⟨v, hv⟩ := hp
    cases hv
    exact ⟨by decide, by simp [runLength_cons, isInner]; omega⟩
  · exact hchar _ (by decide) hf
  · exact absurd rfl ho
  · exact hchar _ (by decide) hf
  · exact hchar _ (by decide) hf

/-- The scan passes over a lexeme as a whole, unless it is an operator in which a comment starts. -/
theorem commentsFrom_lexeme (h : lexeme (x ++ u) = .ok (k, x.length)) (hx : x ≠ [])
    (ho : k = .operator → Uncommented x) (a : Nat) : commentsFrom a 0 (x ++ u) =
      (if k = .comment then [(a, a + x.length)] else []) ++ commentsFrom (a + x.length) 0 u := by
  have hpiece : ∀ b : Bool, (b = true ↔ k = .comment) → piece? (x ++ u) = some (b, x.length) →
      commentsFrom a 0 (x ++ u) =
        (if k = .comment then [(a, a + x.length)] else []) ++ commentsFrom (a + x.length) 0 u := by
    intro b hb hp
    rw [commentsFrom_piece hx hp]
    simp only [hb]
  rcases lexeme_cases h with ⟨q, hopen, rfl, hl⟩ | ⟨hopen, hblock, rfl, hl⟩ | ⟨hopen, hblock, hs⟩
  · exact hpiece false (by decide) (by simp only [piece?, hopen, hl]; rfl)
  · exact hpiece true (by simp) (by simp only [piece?, hopen, hblock, hl]; rfl)
  by_cases hcomment : k = .comment
  · subst hcomment
    obtain ⟨f, hm, hf⟩ := simpleLexeme_class hs
    obtain rfl : f = lineCommentLength? := by simpa [classes] using hm
    exact hpiece true (by simp) (by simp [piece?, hopen, hblock, hf])
  rw [if_neg hcomment, List.nil_append]
  by_cases hoperator : k = .operator
  · subst hoperator
    exact commentsFrom_operator (lexeme_operator h) (operator_slash h) (ho rfl) a
  obtain ⟨c, y, rfl⟩ := List.exists_cons_of_ne_nil hx
  by_cases hb : c = '`'
  · subst hb
    have hname := (simpleLexeme_backquote (t := y ++ u) hs).2
    have hline : lineCommentLength? ('`' :: y ++ u) = none := by simp [lineCommentLength?]
    have hp : piece? ('`' :: y ++ u) = some (false, ('`' :: y).length) := by
      simp only [List.cons_append] at hline hopen hblock ⊢
      simp only [piece?, hopen, hblock, hline, hname]
      rfl
    rw [commentsFrom_piece hx hp]
    rfl
  · obtain ⟨hslash, hlen⟩ := simpleLexeme_inner (t := y ++ u) hs hcomment hoperator hb
    have hinner := (of_runLength_eq (p := isInner) (x := y) (u := u)
      (by simp only [List.length_cons] at hlen; omega)).1
    refine commentsFrom_singly (fun z d w hz => ?_) a
    cases z with
    | nil =>
      cases hz
      refine piece_single hopen hb hblock ?_
      simp [lineComment, List.isPrefixOf, Ne.symm hslash]
    | cons e z =>
      cases hz
      exact piece_inner (hinner d (by simp)) _

end Lexemes

section Spans

variable {p p' : Place} {t u : Text} {ts : List Token}

/-- The scan finds no comment that starts in front of where it is. -/
theorem le_of_mem_commentsFrom {a skip : Nat} {s : Nat × Nat} (h : s ∈ commentsFrom a skip t) :
    a + skip ≤ s.1 := by
  induction t generalizing a skip with
  | nil => cases h
  | cons c t ih =>
    cases skip with
    | succ skip =>
      have := ih h
      omega
    | zero =>
      simp only [commentsFrom] at h
      split at h
      · cases h
      · rename_i b n _
        rcases List.mem_append.mp h with h | h
        · split at h
          · obtain rfl := List.mem_singleton.mp h
            exact le_rfl
          · cases h
        · have := ih h
          omega

/-- A fault at an unexpected character is at no comment. -/
theorem lt_of_mem_commentsFrom {a : Nat} {s : Nat × Nat} {f : LexFault} {c : Char}
    (hf : lexeme t = .error f) (hc : f.fault = .unexpectedCharacter c)
    (h : s ∈ commentsFrom a 0 t) : a < s.1 := by
  cases t with
  | nil => cases h
  | cons d t =>
    have hpiece : ∀ n, piece? (d :: t) ≠ some (true, n) := by
      intro n hn
      simp only [piece?] at hn
      simp only [lexeme, show "/*".toList = blockOpen by decide] at hf
      cases hopen : Quoting.opens? (d :: t) with
      | some q =>
        rw [hopen] at hn
        obtain ⟨m, -, hm⟩ := Option.map_eq_some_iff.mp hn
        cases hm
      | none =>
        rw [hopen] at hn hf
        cases hblock : blockOpen.isPrefixOf (d :: t) with
        | true =>
          simp only [hblock, if_true] at hf
          split at hf
          · cases hf
          · cases hf
            cases hc
        | false =>
          cases hline : lineCommentLength? (d :: t) with
          | none =>
            simp only [hblock, hline, Bool.false_eq_true, if_false] at hn
            cases hn
          | some m =>
            simp [hblock, simpleLexeme?, classes, hline] at hf
    simp only [commentsFrom] at h
    split at h
    · cases h
    · rename_i b n hp
      rcases List.mem_append.mp h with h | h
      · split at h
        · subst b
          exact absurd hp (hpiece n)
        · cases h
      · have := le_of_mem_commentsFrom h
        omega

namespace Lexes

theorem commentSpans_start (h : Lexes p t ts p' u) {s : Nat × Nat} (hs : s ∈ commentSpans ts) :
    p.offset ≤ s.1 ∧ s.2 ≤ p'.offset := by
  obtain ⟨k, hk, rfl⟩ := List.mem_map.mp hs
  exact h.spread.1 k (List.mem_of_mem_filter hk)

/-- The comments among the tokens are those that the scan finds exactly if no operator holds the
start of one. -/
theorem comments (h : Lexes p t ts p' u) :
    commentsFrom p.offset 0 t = commentSpans ts ++ commentsFrom p'.offset 0 u ↔ Separate ts := by
  induction h with
  | done => simp [commentSpans, Separate]
  | @token p p' x u r k ts hx hl hrest ih =>
    rw [foldl_advance_offset] at ih
    have hsep : Separate (tokenAt p k x :: ts) ↔ (k = .operator → Uncommented x) ∧ Separate ts :=
      List.forall_mem_cons
    have hspans : commentSpans (tokenAt p k x :: ts) =
        (if k = .comment then [(p.offset, p.offset + x.length)] else []) ++ commentSpans ts := by
      by_cases hk : k = .comment <;> simp [commentSpans, tokenAt, hk]
    rw [hsep, hspans]
    by_cases ho : k = .operator → Uncommented x
    · rw [commentsFrom_lexeme hl hx ho, List.append_assoc, List.append_cancel_left_eq, ih]
      exact ⟨fun h => ⟨ho, h⟩, And.right⟩
    · simp only [ho, false_and, iff_false]
      rw [Classical.not_imp] at ho
      obtain ⟨rfl, hx'⟩ := ho
      -- the scan finds a comment that starts within the operator, where no comment token starts
      obtain ⟨s, hs, hle, hlt⟩ := commentsFrom_commented (lexeme_operator hl) hx' u p.offset
      intro heq
      rw [heq, if_neg (by decide), List.nil_append] at hs
      have hle' := hrest.le
      rw [foldl_advance_offset] at hle'
      rcases List.mem_append.mp hs with hs | hs
      · have := (hrest.commentSpans_start hs).1
        rw [foldl_advance_offset] at this
        omega
      · have := le_of_mem_commentsFrom hs
        omega

/-- No other token meets a comment. -/
theorem apart (h : Lexes p t ts p' u) {k : Token} (hk : k ∈ ts) (hc : k.kind ≠ .comment)
    {s : Nat × Nat} (hs : s ∈ commentSpans ts) : k.stop ≤ s.1 ∨ s.2 ≤ k.start := by
  obtain ⟨l, hl, rfl⟩ := List.mem_map.mp hs
  obtain ⟨hl, hlc⟩ := List.mem_filter.mp hl
  have hne : k ≠ l := by
    rintro rfl
    exact hc (by simpa using hlc)
  have hpair : ts.Pairwise fun k l => k.stop ≤ l.start ∨ l.stop ≤ k.start :=
    h.spread.2.imp .inl
  have : Std.Symm fun k l : Token => k.stop ≤ l.start ∨ l.stop ≤ k.start := ⟨fun _ _ => Or.symm⟩
  exact hpair.forall hk hl hne

end Lexes

end Spans

/-- The comments of a text that is read to its end are those among its tokens exactly if no operator
holds the start of a comment; no other token meets one then. Reading does not end at an unexpected
character within a comment unless an operator read before holds the start of one. -/
theorem tokenize_comments (t : Text) :
    (∀ ts, tokenize t = .ok ts → (commentSpans ts = comments t ↔ Separate ts) ∧
      (Separate ts → ∀ k ∈ ts, k.kind ≠ .comment → ∀ s ∈ comments t,
        k.stop ≤ s.1 ∨ s.2 ≤ k.start)) ∧
    ∀ e, tokenize t = .error e → ∃ ts p u f, Lexes {} t ts p u ∧ lexeme u = .error f ∧
      e = p.error f ∧ ∀ c, f.fault = .unexpectedCharacter c → Separate ts →
        ∀ s ∈ comments t, s.2 ≤ p.offset ∨ p.offset < s.1 := by
  obtain ⟨hok, herror⟩ := tokensFrom_lexes {} t
  constructor
  · intro ts hts
    obtain ⟨us, p, rfl, hlexes⟩ := hok ts hts
    have hcomments : Token.comments t = commentSpans us ↔ Separate us := by
      have := hlexes.comments
      rwa [commentsFrom, List.append_nil] at this
    have hspans : commentSpans (us ++ [tokenAt p .eof []]) = commentSpans us := by
      simp [commentSpans, List.filter_append, tokenAt]
    have hseparate : Separate (us ++ [tokenAt p .eof []]) ↔ Separate us := by
      simp [Separate, or_imp, forall_and, tokenAt]
    rw [hspans, hseparate, ← hcomments]
    refine ⟨eq_comm, fun heq k hk hc s hs => ?_⟩
    rw [heq] at hs
    rcases List.mem_append.mp hk with hk | hk
    · exact hlexes.apart hk hc hs
    · obtain rfl := List.mem_singleton.mp hk
      exact .inr (hlexes.commentSpans_start hs).2
  · intro e he
    obtain ⟨ts, p, u, f, hlexes, hne, hf, rfl⟩ := herror e he
    refine ⟨ts, p, u, f, hlexes, hf, rfl, fun c hc hsep s hs => ?_⟩
    have heq : Token.comments t = _ := hlexes.comments.mpr hsep
    rw [heq] at hs
    rcases List.mem_append.mp hs with hs | hs
    · exact .inl (hlexes.commentSpans_start hs).2
    · exact .inr (lt_of_mem_commentsFrom hf hc hs)

/-- A marker in a comment behind an equals sign is read as code. -/
theorem tokenize_comments_assignment : ∃ ts, tokenize "f =//#n".toList = .ok ts ∧
    commentSpans ts ≠ comments "f =//#n".toList ∧
      ∃ k ∈ ts, k.kind = .poundName ∧ ∃ s ∈ comments "f =//#n".toList, s.1 < k.start ∧ k.stop ≤ s.2 := by
  have hts : tokenize "f =//#n".toList = .ok [⟨.identifier, ['f'], 1, 0, 0, 1, false, false⟩,
      ⟨.whitespace, [' '], 1, 1, 1, 2, false, false⟩,
      ⟨.operator, ['=', '/', '/'], 1, 2, 2, 5, false, false⟩,
      ⟨.poundName, ['#', 'n'], 1, 5, 5, 7, false, false⟩,
      ⟨.eof, [], 1, 7, 7, 7, false, false⟩] := by
    rfl
  refine ⟨_, hts, by decide, ⟨.poundName, ['#', 'n'], 1, 5, 5, 7, false, false⟩, by simp, rfl,
    (3, 7), by decide, by decide, by decide⟩

end SwiftMacros.Token
