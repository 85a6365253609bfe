import Mathlib
import SwiftMacros.Proofs.Token.Lexeme

/-! Reading a text in part. A text is read chunk by chunk: a character of white space, a comment, or
a significant lexeme. A line comment is read together with the line end that closes it, so that what
is behind the part that has been read does not matter to it, except for the last lexeme. -/

namespace SwiftMacros.Token

/-- A lexeme with its kind. -/
abbrev Word := Kind × Text

/-- `Chunk x ls r`: in front of `r`, the text `x` is one chunk, with the significant lexemes `ls`. -/
inductive Chunk : Text → List Word → Text → Prop
  | gap {c : Char} {r : Text} : isGap c = true → Chunk [c] [] r
  | lineComment {x r : Text} : (∀ c ∈ x, c ≠ '\n') → Chunk (lineComment ++ x ++ ['\n']) [] r
  | blockComment {x r : Text} : blockOpen <+: x → commentLength? (x ++ r) = some x.length →
      Chunk x [] r
  | lexeme {k : Kind} {x r : Text} : lexeme (x ++ r) = .ok (k, x.length) → k.isTrivia = false →
      Chunk x [(k, x)] r

/-- `Reads t ls r`: the front of `t` up to `r` is made of chunks with the significant lexemes `ls`. -/
inductive Reads : Text → List Word → Text → Prop
  | done (r : Text) : Reads r [] r
  | chunk {x u r : Text} {a ls : List Word} : Chunk x a u → Reads u ls r → Reads (x ++ u) (a ++ ls) r

theorem isBlank_of_isGap {c : Char} (h : isGap c = true) : Text.isBlank c = true := by
  simp only [isGap, isSpaceChar, Bool.or_eq_true, beq_iff_eq] at h
  rcases h with (((rfl | rfl) | rfl) | rfl) | rfl <;> decide

theorem not_significant_of_lineComment {t : Text} (ht : lineComment <+: t) {k : Kind} {n : Nat}
    (h : lexeme t = .ok (k, n)) : k.isTrivia = true := by
  by_contra hk
  rw [Bool.not_eq_true] at hk
  obtain ⟨s, rfl⟩ := ht
  rcases lexeme_cases h with ⟨q, hq, -, -⟩ | ⟨-, -, hc, -⟩ | ⟨-, -, hs⟩
  · have hnone : Quoting.opens? (lineComment ++ s) = none :=
      Quoting.opens?_eq_none (by decide) (by decide) _
    simp [hnone] at hq
  · exact absurd hc (not_comment_of_significant hk)
  · have := (simpleLexeme_significant (c := '/') (t := '/' :: s) hs hk).2
    simp [lineComment] at this

theorem not_blockComment_of_significant {t : Text} {k : Kind} {n : Nat} (h : lexeme t = .ok (k, n))
    (hk : k.isTrivia = false) : blockOpen.isPrefixOf t = false := by
  rcases lexeme_cases h with ⟨q, hq, -, -⟩ | ⟨-, -, hc, -⟩ | ⟨-, hp, -⟩
  · by_contra hp
    rw [Bool.not_eq_false, List.isPrefixOf_iff_prefix] at hp
    obtain ⟨s, rfl⟩ := hp
    have hnone : Quoting.opens? (blockOpen ++ s) = none :=
      Quoting.opens?_eq_none (by decide) (by decide) _
    simp [hnone] at hq
  · exact absurd hc (not_comment_of_significant hk)
  · exact hp

namespace Chunk

variable {x y r u v : Text} {a b : List Word}

theorem ne_nil (h : Chunk x a r) : x ≠ [] := by
  cases h with
  | gap => simp
  | lineComment => simp
  | blockComment hp =>
    rintro rfl
    have := hp.length_le
    simp [blockOpen] at this
  | lexeme hl hk => exact List.ne_nil_of_length_pos (lexeme_bounds hl hk).1

/-- The length of the chunk at the front of a text and its significant lexemes. -/
def front? (t : Text) : Option (Nat × List Word) :=
  if t.head?.any isGap then some (1, [])
  else if Token.lineComment.isPrefixOf t then some (runLength (· ≠ '\n') t + 1, [])
  else if blockOpen.isPrefixOf t then (commentLength? t).map (·, [])
  else match Token.lexeme t with
    | .ok (k, n) => some (n, [(k, t.take n)])
    | .error _ => none

theorem front_eq (h : Chunk x a r) : front? (x ++ r) = some (x.length, a) := by
  cases h with
  | gap hc => simp [front?, hc]
  | @lineComment x r hx =>
    have hrun : runLength (· ≠ '\n') ('/' :: '/' :: (x ++ '\n' :: r)) = x.length + 2 := by
      have := runLength_stop (p := (· ≠ '\n')) (r := '\n' :: r) (by simp) ('/' :: '/' :: x)
      simp only [List.cons_append] at this
      rw [this, runLength, List.takeWhile_eq_self_iff.mpr]
      · rfl
      · intro c hc
        simp only [List.mem_cons] at hc
        rcases hc with rfl | rfl | hc
        · decide
        · decide
        · simp [hx c hc]
    have hgap : isGap '/' = false := by decide
    simp only [front?, Token.lineComment, List.cons_append, List.nil_append, List.append_assoc,
      List.head?_cons, Option.any_some, hgap, Bool.false_eq_true, if_false, hrun,
      List.isPrefixOf_cons_cons_self, List.isPrefixOf_nil_left, if_true, List.length_cons,
      List.length_append, List.length_nil]
  | blockComment hp hc =>
    obtain ⟨y, rfl⟩ := hp
    have hgap : isGap '/' = false := by decide
    simp [front?, blockOpen, Token.lineComment, hgap] at hc ⊢
    simpa using hc
  | lexeme hl hk =>
    obtain ⟨c, y, rfl⟩ := List.exists_cons_of_ne_nil (ne_nil (lexeme hl hk))
    have hgap : isGap c = false := by
      by_contra hc
      rw [Bool.not_eq_false] at hc
      have := lexeme_first (t := y ++ r) hl hk
      simp [isBlank_of_isGap hc] at this
    have hline : Token.lineComment.isPrefixOf (c :: y ++ r) = false := by
      by_contra hp
      rw [Bool.not_eq_false, List.isPrefixOf_iff_prefix] at hp
      have := not_significant_of_lineComment hp hl
      simp [hk] at this
    have hblock := not_blockComment_of_significant hl hk
    have hhead : (c :: y ++ r).head?.any isGap = false := by simpa using hgap
    simp only [front?, hhead, hline, hblock, hl, Bool.false_eq_true, if_false,
      List.take_left]

/-- The chunk at the front of a text is determined by the text. -/
theorem unique (h : Chunk x a u) (h' : Chunk y b v) (ht : x ++ u = y ++ v) :
    x = y ∧ a = b ∧ u = v := by
  have hf := h.front_eq
  rw [ht, h'.front_eq, Option.some.injEq, Prod.mk.injEq] at hf
  obtain ⟨rfl, rfl⟩ := List.append_inj ht hf.1.symm
  exact ⟨rfl, hf.2.symm, rfl⟩

/-- A chunk stands if the text behind it is replaced, from a place on, by one that can follow. -/
theorem append (h : Chunk x a (u ++ r)) {r' : Text} (hr : Follows (x ++ u) r r')
    (hq : r'.head? = some '"' → r.head? = some '"') : Chunk x a (u ++ r') := by
  cases h with
  | gap hc => exact .gap hc
  | lineComment hx => exact .lineComment hx
  | blockComment hp hc => exact .blockComment hp (lexeme_blockComment hp hc _).2
  | lexeme hl hk =>
    rw [← List.append_assoc] at hl
    have := lexeme_append hl (by simp) hk hr hq
    rw [List.append_assoc] at this
    exact .lexeme this hk

/-- The last character of a chunk is blank only if that is a gap, or a line comment with its line
end. -/
theorem last_not_blank (h : Chunk x a r) {c : Char} (hc : x.getLast? = some c)
    (hb : Text.isBlank c = true) :
    a = [] ∧ (x = [c] ∨ ∃ y, (∀ d ∈ y, d ≠ '\n') ∧ x = Token.lineComment ++ y ++ ['\n']) := by
  cases h with
  | gap hg => exact ⟨rfl, .inl (by simpa using hc)⟩
  | lineComment hx => exact ⟨rfl, .inr ⟨_, hx, rfl⟩⟩
  | blockComment hp hl =>
    obtain ⟨s, rfl⟩ := scanComment_suffix
      (show scanComment (0 + 1) 2 0 (_ ++ _) = some (0 + _) by simpa [commentLength?] using hl)
    rw [List.getLast?_append_of_ne_nil _ (by simp)] at hc
    cases hc
    exact absurd hb (by simp [Text.isBlank])
  | lexeme hl hk =>
    have := lexeme_last hl hk hc
    simp [hb] at this

end Chunk

namespace Reads

variable {t u v r s : Text} {ls ms : List Word}

theorem trans (h : Reads t ls u) (h' : Reads u ms r) : Reads t (ls ++ ms) r := by
  induction h with
  | done => exact h'
  | chunk hc _ ih =>
    rw [List.append_assoc]
    exact .chunk hc (ih h')

theorem suffix (h : Reads t ls r) : r <:+ t := by
  induction h with
  | done => exact List.suffix_refl _
  | chunk _ _ ih => exact ih.trans (List.suffix_append _ _)

theorem eq_nil (h : Reads t ls t) : ls = [] := by
  generalize hr : t = r at h
  cases h with
  | done => rfl
  | @chunk x u _ a ls hc hrest =>
    subst hr
    have h1 := hrest.suffix.length_le
    have h2 := List.length_pos_iff.mpr hc.ne_nil
    simp only [List.length_append] at h1
    omega

/-- Of two readings of a text, the longer one goes on where the shorter one ends. -/
theorem between (h : Reads t ls u) (h' : Reads t ms r) (hle : r.length ≤ u.length) :
    ∃ ns, ms = ls ++ ns ∧ Reads u ns r := by
  induction h generalizing ms with
  | done => exact ⟨ms, rfl, h'⟩
  | @chunk x w u a ls hc hrest ih =>
    generalize ht : x ++ w = t at h'
    cases h' with
    | done =>
      subst ht
      have h1 := hrest.suffix.length_le
      have h2 := List.length_pos_iff.mpr hc.ne_nil
      simp only [List.length_append] at hle
      omega
    | chunk hc' hrest' =>
      obtain ⟨rfl, rfl, rfl⟩ := hc.unique hc' ht
      obtain ⟨ns, rfl, hns⟩ := ih hrest' hle
      exact ⟨ns, by rw [List.append_assoc], hns⟩

theorem unique (h : Reads t ls r) (h' : Reads t ms r) : ls = ms := by
  obtain ⟨ns, rfl, hns⟩ := h.between h' le_rfl
  rw [hns.eq_nil, List.append_nil]

/-- What has been read stands if the rest is replaced by a text that can follow. -/
theorem append (h : Reads t ls r) (ht : t = u ++ r) {r' : Text} (hr : Follows u r r')
    (hq : r'.head? = some '"' → r.head? = some '"') : Reads (u ++ r') ls r' := by
  induction h generalizing u with
  | done r =>
    obtain rfl : u = [] := by simpa using ht
    exact .done _
  | @chunk x w r a ls hc hrest ih =>
    obtain ⟨v, rfl⟩ := hrest.suffix
    obtain rfl : u = x ++ v := by simpa [← List.append_assoc] using ht.symm
    rw [List.append_assoc]
    exact .chunk (hc.append hr hq) (ih rfl (hr.of_suffix (List.suffix_append x v)) hq)

/-- White space holds no lexeme. -/
theorem blank (h : Reads t ls r) {w : Text} (ht : t = w ++ r)
    (hw : ∀ c ∈ w, Text.isBlank c = true) : ls = [] ∧ ∀ c ∈ w, isGap c = true := by
  induction h generalizing w with
  | done r =>
    obtain rfl : w = [] := by simpa using ht
    simp
  | @chunk x u r a ls hc hrest ih =>
    obtain ⟨v, rfl⟩ := hrest.suffix
    obtain rfl : w = x ++ v := by simpa [← List.append_assoc] using ht.symm
    obtain ⟨rfl, hv⟩ := ih rfl fun c hc => hw c (by simp [hc])
    cases hc with
    | gap hg => exact ⟨rfl, by simpa [hg] using hv⟩
    | lineComment hx =>
      have := hw '/' (by simp [lineComment])
      simp [Text.isBlank] at this
    | blockComment hp hl =>
      obtain ⟨y, rfl⟩ := hp
      have := hw '/' (by simp [blockOpen])
      simp [Text.isBlank] at this
    | lexeme hl hk =>
      obtain ⟨c, y, rfl⟩ := List.exists_cons_of_ne_nil (Chunk.ne_nil (.lexeme hl hk))
      have := hw c (by simp)
      simp [lexeme_first (t := y ++ (v ++ r)) hl hk] at this

theorem of_gaps {w : Text} (hw : ∀ c ∈ w, isGap c = true) (r : Text) : Reads (w ++ r) [] r := by
  induction w with
  | nil => exact .done r
  | cons c w ih =>
    exact .chunk (x := [c]) (a := []) (.gap (hw c (by simp))) (ih fun d hd => hw d (by simp [hd]))

/-- A line comment that is cut off in the white space at its end is still one. -/
theorem of_cut_lineComment {x w y : Text} (hy : ∀ c ∈ y, c ≠ '\n') (hne : w ≠ [])
    (h : lineComment ++ y ++ ['\n'] = x ++ w) (hw : ∀ c ∈ w, Text.isBlank c = true) (r : Text) :
    Reads (x ++ '\n' :: r) [] r := by
  have hx : lineComment <+: x := by
    have hopen : lineComment <+: x ++ w := by
      rw [← h, List.append_assoc]
      exact List.prefix_append _ _
    refine List.prefix_of_prefix_length_le hopen (List.prefix_append x w) ?_
    · by_contra hlt
      have hlt' : x.length < 2 := by simpa [lineComment] using hlt
      have hget : (x ++ w)[x.length]? = some '/' := by
        rw [← h]
        interval_cases x.length <;> rfl
      rw [List.getElem?_append_right le_rfl, Nat.sub_self] at hget
      have := hw '/' (List.mem_of_getElem? hget)
      simp [Text.isBlank] at this
  obtain ⟨z, rfl⟩ := hx
  have hz : y ++ ['\n'] = z ++ w := by simpa using h
  have hzn : ∀ c ∈ z, c ≠ '\n' := by
    intro c hc
    have hpre : z <+: y := by
      refine List.prefix_of_prefix_length_le (hz ▸ List.prefix_append z w : z <+: y ++ ['\n'])
        (List.prefix_append _ _) ?_
      have hlen := congrArg List.length hz
      have hpos := List.length_pos_iff.mpr hne
      simp only [List.length_append, List.length_cons, List.length_nil] at hlen
      omega
    exact hy c (hpre.subset hc)
  have := Reads.chunk (.lineComment hzn) (.done r)
  simpa using this

/-- White space at the end of what has been read can give way to a line end. -/
theorem trim (h : Reads t ls r) {x w : Text} (ht : t = x ++ w ++ r)
    (hw : ∀ c ∈ w, Text.isBlank c = true) (r' : Text) : Reads (x ++ '\n' :: r') ls r' := by
  have hstop : Stops ('\n' :: r') := stops_cons (by decide)
  have hquote : ∀ v : Text, ('\n' :: r').head? = some '"' → v.head? = some '"' := by simp
  induction h generalizing x w with
  | done r =>
    have hlen := congrArg List.length ht
    simp only [List.length_append] at hlen
    obtain rfl : x = [] := List.length_eq_zero_iff.mp (by omega)
    exact of_gaps (w := ['\n']) (by simp [isGap]) r'
  | @chunk y u r a ls hc hrest ih =>
    obtain ⟨v, rfl⟩ := hrest.suffix
    have hyv : y ++ v = x ++ w := by simpa [← List.append_assoc] using ht
    rcases List.append_eq_append_iff.mp hyv with ⟨x', rfl, rfl⟩ | ⟨w', rfl, rfl⟩
    · -- the chunk lies in front of the white space
      rw [List.append_assoc] at hc ⊢
      exact .chunk (hc.append (.inl (hstop.apart _)) (hquote _)) (ih rfl hw)
    · have hv : ∀ c ∈ v, Text.isBlank c = true := fun c hc => hw c (by simp [hc])
      have ih' := ih (x := []) (w := v) rfl hv
      rcases List.eq_nil_or_concat w' with rfl | ⟨w', c, rfl⟩
      · rw [List.append_nil] at hc
        exact .chunk (Chunk.append (u := []) (r := v ++ r) hc (.inl (hstop.apart _)) (hquote _)) ih'
      · obtain ⟨rfl, hx | ⟨y, hy, hx⟩⟩ := hc.last_not_blank (c := c) (by simp [← List.append_assoc])
          (hw c (by simp))
        · rw [List.concat_eq_append, ← List.append_assoc] at hx
          have hnil : x ++ w' = [] := List.append_cancel_right (hx.trans (List.nil_append [c]).symm)
          obtain ⟨rfl, -⟩ := List.append_eq_nil_iff.mp hnil
          exact ih'
        · obtain rfl := (hrest.blank rfl hv).1
          exact of_cut_lineComment hy (by simp) hx.symm (fun d hd => hw d (by simp at hd ⊢; tauto)) r'

/-- Behind a character of white space a reading goes on, unless it ends there. -/
theorem of_gap_cons {c : Char} (hc : isGap c = true) (h : Reads (c :: t) ls r) (hr : r ≠ c :: t) :
    Reads t ls r := by
  have hle : r.length ≤ t.length := by
    have h1 := h.suffix.length_le
    have h2 : r.length ≠ (c :: t).length := fun he => hr (h.suffix.eq_of_length he)
    simp only [List.length_cons] at h1 h2
    omega
  obtain ⟨ns, rfl, hns⟩ := (of_gaps (w := [c]) (by simpa using hc) t).between h hle
  exact hns

end Reads

end SwiftMacros.Token
