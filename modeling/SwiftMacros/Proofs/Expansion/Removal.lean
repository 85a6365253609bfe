import Mathlib
import SwiftMacros.Proofs.Expansion.Lexical
import SwiftMacros.Proofs.Token.Severed

/-! Taking out the first attribute of a declaration. The text loses the tokens of the attribute and no
other, unless the attribute is all that stands between two words, or between an operator and a comment:
these come together then and make one lexeme. -/

namespace SwiftMacros

open Token (Word Reads Laid Foreign Inert Severed)

/-- Without the range of the edit, a word would meet a word or an operator the slash of a comment. -/
def Edit.joins (code : Text) (e : Edit) : Bool :=
  (code.take e.start).getLast?.any fun d => (code.drop e.stop).head?.any fun c =>
    Text.isWord d && Text.isWord c || Token.isOperatorChar d && c == '/'

section Introducing

variable {code : Text} {p : Nat}

/-- What introduces a declaration starts with white space, a comment, an attribute or a letter. -/
theorem Introduces.head (h : Introduces code p) : ∃ c ∈ (code.drop p).head?,
    (Token.isGap c = true ∨ c = '/' ∨ c = '@') ∨
      Text.isWord c = true ∧ Text.isDecimal c = false ∧ c ≠ '_' := by
  obtain ⟨n, -, hread, hfirst⟩ := h
  rcases hread.head_of_nil with heq | ⟨c, u, hc, hgap⟩
  · rw [heq]
    rcases hfirst with hat | ⟨w, hw, v, hv⟩
    · exact ⟨'@', by rwa [List.head?_drop], .inl (.inr (.inr rfl))⟩
    · have hletters : (Grammar.openingWords.all fun w => w.toList.head?.any fun c =>
          !Text.isDecimal c && c != '_') = true := by decide +kernel
      have hletter := List.all_eq_true.mp hletters w hw
      obtain ⟨c, hc, hnot⟩ := (Option.any_eq_true _ _).mp hletter
      obtain ⟨u, hu⟩ := List.head?_eq_some_iff.mp hc
      simp only [Bool.and_eq_true, Bool.not_eq_true', bne_iff_ne] at hnot
      refine ⟨c, by rw [← hv, hu]; rfl, .inr ⟨?_, hnot⟩⟩
      exact Grammar.openingWords_isWord hw c (by simp [hu])
  · exact ⟨c, by rw [hc]; rfl, .inl (hgap.imp_right .inl)⟩

/-- A text stays apart from what introduces a declaration, unless they join. -/
theorem Introduces.severed (h : Introduces code p) {x : Text} {d : Char} (hd : d ∈ x.getLast?)
    (hkind : Text.isWord d = true ∨ Token.isOperatorChar d = true)
    (hjoin : ∀ c ∈ (code.drop p).head?, ¬ (Text.isWord d = true ∧ Text.isWord c = true) ∧
      ¬ (Token.isOperatorChar d = true ∧ c = '/')) : Severed x (code.drop p) := by
  obtain ⟨c, hc, hfirst⟩ := h.head
  obtain ⟨hwords, hcomment⟩ := hjoin c hc
  have hgap : Token.isGap c = true → Token.isStop c = true := fun h =>
    Token.isStop_of_isBlank (Token.isBlank_of_isGap h)
  refine ⟨d, hd, hkind.imp (fun hd => ⟨hd, ?_⟩) fun hd => ⟨hd, ?_⟩⟩
  · intro c' hc'
    obtain rfl : c = c' := Option.some.inj (hc.symm.trans hc')
    have hnot : Text.isWord c = false := by simpa [hd] using hwords
    rcases hfirst with (hg | rfl | rfl) | ⟨hword, -⟩
    · have hstop := Token.not_mark_of_isStop (hgap hg)
      refine ⟨hnot, ?_, ?_, ?_⟩ <;> rintro rfl <;> exact hstop (by decide)
    · decide
    · decide
    · rw [hnot] at hword
      cases hword
  · intro c' hc'
    obtain rfl : c = c' := Option.some.inj (hc.symm.trans hc')
    rcases hfirst with (hg | rfl | rfl) | ⟨hword, hdecimal, hne⟩
    · obtain ⟨hword, hop, hpoint⟩ := Token.isStop_iff.mp (hgap hg)
      refine ⟨?_, ?_, hop, hpoint⟩
      · by_contra hdecimal
        rw [Token.isWord_of_isDigitPart (by simp_all [Text.isDigitPart])] at hword
        cases hword
      · rintro rfl
        cases hword
    · exact absurd ⟨hd, rfl⟩ hcomment
    · decide
    · obtain ⟨hop, hpoint⟩ := Token.isWord_not_operator hword
      exact ⟨hdecimal, hne, hop, hpoint⟩

end Introducing

namespace Edit

variable {code : Text} {start stop brace : Nat}

/-- In front of an attribute that is taken out all is read as before, if nothing is joined. -/
theorem removal_reads {ls : List Word} (hle : stop ≤ brace) (hb : code[brace]? = some '\x7b')
    (hat : code[start]? = some '@') (hnext : Introduces code stop)
    (hjoins : joins code (removal code start stop) = false) (hread : Reads code ls (code.drop start)) :
    Reads (code.take (removal code start stop).start ++ code.drop (removal code start stop).stop) ls
      (code.drop (removal code start stop).stop) := by
  obtain ⟨-, hbefore, -, -⟩ := @removal_bounds code start stop brace hle hb
  obtain ⟨-, hintroduces⟩ := removal_introduces start hle hb hnext
  have htake : code.take (removal code start stop).start =
      Text.slice code 0 (removal code start stop).start := by simp [Text.slice]
  by_cases hsettled : Token.Settled (code.take start)
  · rw [htake]
    exact removal_seam hat hsettled (Nat.zero_le _) hread hintroduces.calm
  · -- the attribute stands directly behind a word or an operator, so not on a line of its own
    simp only [Token.Settled, not_forall, not_and_or, Bool.not_eq_false] at hsettled
    obtain ⟨d, hd, hkind⟩ := hsettled
    have hstart : (removal code start stop).start = start := by
      rcases removal_start_cases code start stop with heq | ⟨heq, hblank⟩
      · exact heq
      · rcases (Text.lineStart_le code start).lt_or_eq with hlt | hline
        · have hsplit := slice_append_slice (s := code) (Nat.zero_le _) hlt.le
          simp only [Text.slice, List.drop_zero, Nat.sub_zero] at hsplit hblank
          have hlast : d ∈ (code.drop (Text.lineStart code start)).take (start - Text.lineStart code start) := by
            refine List.mem_of_getLast? ?_
            rw [← hd, ← hsplit, List.getLast?_append_of_ne_nil _ (List.ne_nil_of_length_pos ?_)]
            have := (List.getElem?_eq_some_iff.mp hat).1
            simp only [List.length_take, List.length_drop]
            omega
          have hstop := Token.isStop_iff.mp (Token.isStop_of_isBlank (hblank d hlast))
          simp [hstop.1, hstop.2.1] at hkind
        · exact heq.trans hline
    have hjoin : ∀ c ∈ (code.drop (removal code start stop).stop).head?,
        ¬ (Text.isWord d = true ∧ Text.isWord c = true) ∧
          ¬ (Token.isOperatorChar d = true ∧ c = '/') := by
      intro c hc
      rw [joins, hstart, hd, Option.any_some, hc, Option.any_some] at hjoins
      simpa [Bool.or_eq_false_iff, Bool.and_eq_false_imp] using hjoins
    obtain ⟨u, hu⟩ : ∃ u, code.drop start = '@' :: u := by
      rw [← List.head?_drop] at hat
      exact List.head?_eq_some_iff.mp hat
    have hsevered : Severed (code.take start) (code.drop start) := by
      refine ⟨d, hd, hkind.imp (fun h => ⟨h, ?_⟩) fun h => ⟨h, ?_⟩⟩ <;> rw [hu] <;> simp [Foreign, Inert] <;>
        decide
    rw [hstart]
    refine hread.severed (List.take_append_drop start code).symm (fun _ => hsevered)
      (fun _ => hintroduces.severed hd hkind hjoin) hintroduces.calm.quote

end Edit

/-- Where a declaration can be read at an attribute, taking this out leaves all other tokens as they are,
whatever stands around it, unless two words, or an operator and a comment, stood on its two sides with
nothing but it between them. -/
theorem Edit.removal_words {code : Text} {c c' : Cursor} {t : Token} {g : Group} {a : Attribute}
    (hc : Cursor.ofText code = .ok c) (ht : t ∈ c.ahead) (hk : t.kind = .atName)
    (hg : (Parser.seek t.start >>= fun _ => Parser.declaration) c = .ok (.group g) c')
    (ha : a ∈ g.attributes.head?) (hjoins : joins code (removal code a.start a.stop) = false) :
    a.start = t.start ∧ Token.words (apply code (removal code a.start a.stop)) =
      .ok ((c.ahead.filter fun u => !(a.start ≤ u.start && u.start < a.stop)).map Token.word) := by
  obtain ⟨hs, rfl, hnil⟩ := Cursor.sound_ofText hc
  obtain ⟨-, -, hlaid, -⟩ := Cursor.laid_ofText hc
  obtain ⟨u, c₁, hseek, hread⟩ := Parser.of_bind_ok hg
  obtain ⟨hrereads, hstart⟩ := Parser.seek_rereads hs hseek
  obtain ⟨hl, hspans⟩ := (Parser.declaration_spec hrereads.sound).ok hread
  have hsource := hl.source.trans hrereads.source
  have hspans := hspans g rfl
  have hmem := List.mem_of_head? ha
  have hastart : a.start = t.start := (hspans.first a ha).2.trans hstart
  refine ⟨hastart, ?_⟩
  have hlt := hspans.lt a hmem
  have hle := hspans.before a hmem
  have hb := hspans.block.opening
  have hcut := hspans.cut_start a hmem
  have hcut' := hspans.cut_stop a hmem
  have hnext := hspans.next a hmem
  rw [hsource] at hb hcut hcut' hnext
  have hat : c.source[a.start]? = some '@' := by
    have hplaced := hs.placed_ahead ht
    have hsigil : (t.kind, '@') ∈ [(Token.Kind.atName, '@'), (.poundName, '#')] := by simp [hk]
    rw [hastart, ← List.head?_drop, hplaced.drop_eq, List.head?_append,
      Token.lexeme_sigil hsigil (hplaced.lexeme_text (by simp [hk]))]
    rfl
  -- the tokens in front of the attribute, its own, and those behind it
  obtain ⟨us, vs, hus, hfront, hvs, hbefore, hafter⟩ := hlaid.split (cut_zero c.source) hcut (Nat.zero_le _)
  obtain ⟨ms, ws, rfl, -, hws, hinside, hbehind⟩ := hvs.split hcut hcut' hlt.le
  obtain ⟨htext, -, hstop, hend⟩ := @removal_bounds c.source a.start a.stop g.block.start hle hb
  obtain ⟨hgap, -⟩ := removal_introduces a.start hle hb hnext
  have hlength := (List.getElem?_eq_some_iff.mp hb).1
  have hcutend := hcut'.of_reads (hend.trans hlength.le) hgap
  obtain ⟨ns, ws, rfl, hns, hlast, -, -⟩ := hws.split hcut' hcutend hstop
  obtain rfl : ns = [] := by simpa using hns.unique hgap
  obtain ⟨r, hr, hrest⟩ := hlast.reads
  have hkept : c.ahead.filter (fun u => !(a.start ≤ u.start && u.start < a.stop)) = us ++ ws := by
    have hinner : c.ahead = us ++ (ms ++ ([] ++ ws)) := by simpa [Cursor.inner, hnil] using hus
    have h1 : us.filter (fun u => !(a.start ≤ u.start && u.start < a.stop)) = us :=
      List.filter_eq_self.mpr fun u hu => by
        have := (hbefore u hu).2
        simp only [Bool.not_eq_true', Bool.and_eq_false_iff, decide_eq_false_iff_not]
        omega
    have h2 : ms.filter (fun u => !(a.start ≤ u.start && u.start < a.stop)) = [] :=
      List.filter_eq_nil_iff.mpr fun u hu => by simp [hinside u hu]
    have h3 : ws.filter (fun u => !(a.start ≤ u.start && u.start < a.stop)) = ws :=
      List.filter_eq_self.mpr fun u hu => by
        have := hbehind u (by simp [hu])
        simp only [Bool.not_eq_true', Bool.and_eq_false_iff, decide_eq_false_iff_not]
        omega
    rw [hinner, List.nil_append, List.filter_append, List.filter_append, h1, h2, h3, List.nil_append]
  rw [hkept, List.map_append, Token.words_eq_ok_iff]
  refine ⟨r, ?_, hrest⟩
  rw [List.drop_zero] at hfront
  rw [apply, htext, List.append_nil]
  exact (removal_reads hle hb hat hnext hjoins hfront).trans hr

/-- What the first attribute of the declaration at the token `n` satisfies, found by running. -/
theorem exists_attribute (code : Text) (n : Nat) {p : Cursor → Attribute → Bool}
    (h : ((Cursor.ofText code).map fun c => match c.ahead[n]? with
      | some t => match (Parser.seek t.start >>= fun _ => Parser.declaration) c with
        | .ok (.group g) _ => t.kind == .atName && g.attributes.head?.any (p c)
        | _ => false
      | none => false).toOption = some true) :
    ∃ (c c' : Cursor) (t : Token) (g : Group) (a : Attribute), Cursor.ofText code = .ok c ∧
      t ∈ c.ahead ∧ t.kind = .atName ∧
      (Parser.seek t.start >>= fun _ => Parser.declaration) c = .ok (.group g) c' ∧
      a ∈ g.attributes.head? ∧ p c a = true := by
  cases hc : Cursor.ofText code with
  | error e => rw [hc] at h; cases h
  | ok c =>
    simp only [hc, Except.map, Except.toOption, Option.some.injEq] at h
    split at h
    next t ht =>
      split at h
      next g c' hg =>
        rw [Bool.and_eq_true, beq_iff_eq, Option.any_eq_true] at h
        obtain ⟨hk, a, ha, hp⟩ := h
        exact ⟨c, c', t, g, a, rfl, List.mem_of_getElem? ht, hk, hg, ha, hp⟩
      next => cases h
    next => cases h

/-- A comment in front of the attribute and a modifier behind it. -/
theorem Edit.removal_words_commented : ∃ (c c' : Cursor) (t : Token) (g : Group) (a : Attribute),
    Cursor.ofText "x; /**/@f(1) public struct A \x7b \x7d".toList = .ok c ∧ t ∈ c.ahead ∧
    t.kind = .atName ∧
    (Parser.seek t.start >>= fun _ => Parser.declaration) c = .ok (.group g) c' ∧
    a ∈ g.attributes.head? ∧
    joins "x; /**/@f(1) public struct A \x7b \x7d".toList (removal
      "x; /**/@f(1) public struct A \x7b \x7d".toList a.start a.stop) = false ∧
    a.start = t.start ∧ Token.words (apply "x; /**/@f(1) public struct A \x7b \x7d".toList
        (removal "x; /**/@f(1) public struct A \x7b \x7d".toList a.start a.stop)) =
      .ok ((c.ahead.filter fun u => !(a.start ≤ u.start && u.start < a.stop)).map Token.word) := by
  obtain ⟨c, c', t, g, a, hc, ht, hk, hg, ha, hjoins⟩ := exists_attribute
    "x; /**/@f(1) public struct A \x7b \x7d".toList 2
    (p := fun _ a => !joins "x; /**/@f(1) public struct A \x7b \x7d".toList
      (removal "x; /**/@f(1) public struct A \x7b \x7d".toList a.start a.stop)) (by decide +kernel)
  have hjoins := Bool.not_eq_true' _ ▸ hjoins
  exact ⟨c, c', t, g, a, hc, ht, hk, hg, ha, hjoins, removal_words hc ht hk hg ha hjoins⟩

/-- Without the attribute the modifier in front of it and the keyword behind it are one word. -/
theorem Edit.removal_merges : ∃ (c c' : Cursor) (t : Token) (g : Group) (a : Attribute),
    Cursor.ofText "public@f struct A \x7b \x7d".toList = .ok c ∧ t ∈ c.ahead ∧ t.kind = .atName ∧
    (Parser.seek t.start >>= fun _ => Parser.declaration) c = .ok (.group g) c' ∧
    a ∈ g.attributes.head? ∧
    Token.words (apply "public@f struct A \x7b \x7d".toList
        (removal "public@f struct A \x7b \x7d".toList a.start a.stop)) ≠
      .ok ((c.ahead.filter fun u => !(a.start ≤ u.start && u.start < a.stop)).map Token.word) := by
  obtain ⟨c, c', t, g, a, hc, ht, hk, hg, ha, hne⟩ := exists_attribute
    "public@f struct A \x7b \x7d".toList 1
    (p := fun c a => (Token.words (apply "public@f struct A \x7b \x7d".toList
        (removal "public@f struct A \x7b \x7d".toList a.start a.stop))).toOption !=
      some ((c.ahead.filter fun u => !(a.start ≤ u.start && u.start < a.stop)).map Token.word))
    (by decide +kernel)
  refine ⟨c, c', t, g, a, hc, ht, hk, hg, ha, fun heq => ?_⟩
  rw [heq, Except.toOption, bne_self_eq_false] at hne
  cases hne

end SwiftMacros
