import Mathlib
import SwiftMacros.Proofs.Cursor.Room
import SwiftMacros.Proofs.Tree.Verbatim
import SwiftMacros.Expansion.Edit

/-! The members of a block and the tokens between its braces. The rounds that read the block take the
tokens one behind the other. Each takes one at least: those of a member, a semicolon, or a closing
parenthesis or bracket where no member could start. So a token is in the slice of one member, or it is
none of theirs and one of the marks just named. -/

namespace SwiftMacros

open SwiftMacros.Parser

/-- The tokens of a block between its braces, and the members that its rounds read from them. A member
shows the source from the first of its tokens to the last. One that has none stands in front of a
closing mark, which the round takes. -/
inductive MemberBlock.Rounds (s : Text) : List Token → List Member → Prop
  | nil : Rounds s [] []
  | semicolon {t : Token} {ts : List Token} {ms : List Member} : t.isSymbol ";" = true →
      Rounds s ts ms → Rounds s (t :: ts) ms
  | stray {t : Token} {ts : List Token} {m : Member} {ms : List Member} :
      t.isSymbolIn [")", "]"] = true → m.node.text = [] → Rounds s ts ms → Rounds s (t :: ts) (m :: ms)
  | member {us ts : List Token} {m : Member} {ms : List Member} : us ≠ [] →
      m.node.text = Token.cover s us → Rounds s ts ms → Rounds s (us ++ ts) (m :: ms)

/-- The token stands within the span. -/
def Token.within (t : Token) (p : Span) : Bool := p.1 ≤ t.start && t.stop ≤ p.2

/-- No character of the token is in the span. -/
def Token.Beside (t : Token) (p : Span) : Prop := p.2 ≤ t.start ∨ t.stop ≤ p.1

namespace MemberBlock

variable {s : Text} {ts us : List Token} {ms ns : List Member}

theorem Rounds.append (h : Rounds s ts ms) (h' : Rounds s us ns) : Rounds s (ts ++ us) (ms ++ ns) := by
  induction h with
  | nil => exact h'
  | semicolon ht _ ih => exact .semicolon ht ih
  | stray ht hm _ ih => exact .stray ht hm ih
  | member hne hm _ ih =>
    rw [List.append_assoc]
    exact .member hne hm ih

/-- The slices of the members, and where they leave the tokens. -/
structure Sliced (s : Text) (a b : Nat) (ts : List Token) (ms : List Member) (spans : List Span) :
    Prop where
  slices : ms.Forall₂ (fun m p => m.node.text = Text.slice s p.1 p.2) spans
  ordered : spans.Pairwise fun p q => p.2 ≤ q.1
  bounds : ∀ p ∈ spans, a ≤ p.1 ∧ p.1 ≤ p.2 ∧ p.2 ≤ b
  tokens : ∀ t ∈ ts, spans.countP t.within = 1 ∨ (∀ p ∈ spans, t.Beside p) ∧
    (t.isSymbol ";" = true ∨ t.isSymbolIn [")", "]"] = true ∧ (t.start, t.start) ∈ spans)

theorem not_within {t : Token} {p : Span} (ht : t.start < t.stop) (h : t.Beside p) :
    t.within p = false := by
  simp only [Token.within, Bool.and_eq_false_iff, decide_eq_false_iff_not]
  rcases h with h | h <;> omega

theorem Sliced.lower {a j b : Nat} {spans : List Span} (h : Sliced s j b ts ms spans) (ha : a ≤ j) :
    Sliced s a b ts ms spans :=
  ⟨h.slices, h.ordered, fun p hp => ⟨ha.trans (h.bounds p hp).1, (h.bounds p hp).2⟩, h.tokens⟩

/-- Behind what is done with up to `a`, more members are sliced. -/
theorem Sliced.cons {a i j b : Nat} {us : List Token} {m : Member} {spans : List Span}
    (h : Sliced s j b ts ms spans) (hm : m.node.text = Text.slice s i j) (ha : a ≤ i) (hij : i ≤ j)
    (hb : j ≤ b) (hus : ∀ t ∈ us, t.within (i, j) = true) (hlt : ∀ t ∈ us ++ ts, t.start < t.stop)
    (hts : ∀ t ∈ ts, j ≤ t.start) : Sliced s a b (us ++ ts) (m :: ms) ((i, j) :: spans) where
  slices := .cons hm h.slices
  ordered := .cons (fun p hp => (h.bounds p hp).1) h.ordered
  bounds := List.forall_mem_cons.mpr ⟨⟨ha, hij, hb⟩, fun p hp =>
    ⟨(ha.trans hij).trans (h.bounds p hp).1, (h.bounds p hp).2⟩⟩
  tokens := by
    refine List.forall_mem_append.mpr ⟨fun t ht => .inl ?_, fun t ht => ?_⟩
    · have hrest : spans.countP t.within = 0 := List.countP_eq_zero.mpr fun p hp => by
        have hin := hus t ht
        simp only [Token.within, Bool.and_eq_true, decide_eq_true_eq] at hin
        have := (h.bounds p hp).1
        simp [not_within (hlt t (by simp [ht])) (.inr (by omega : t.stop ≤ p.1))]
      rw [List.countP_cons_of_pos (hus t ht), hrest]
    · have hbeside : t.Beside (i, j) := .inl (hts t ht)
      have hout := not_within (hlt t (by simp [ht])) hbeside
      rw [List.countP_cons_of_neg (by simp [hout])]
      refine (h.tokens t ht).imp_right fun ⟨hall, hmark⟩ => ?_
      exact ⟨List.forall_mem_cons.mpr ⟨hbeside, hall⟩,
        hmark.imp_right fun ⟨hk, hmem⟩ => ⟨hk, List.mem_cons_of_mem _ hmem⟩⟩

/-- A token that is in no slice. -/
theorem Sliced.skip {a b : Nat} {t : Token} {spans : List Span} (h : Sliced s a b ts ms spans)
    (ht : ∀ p ∈ spans, t.Beside p) (hmark : t.isSymbol ";" = true ∨
      t.isSymbolIn [")", "]"] = true ∧ (t.start, t.start) ∈ spans) : Sliced s a b (t :: ts) ms spans where
  __ := h
  tokens := List.forall_mem_cons.mpr ⟨.inr ⟨ht, hmark⟩, h.tokens⟩

/-- Between two offsets the members are sliced in their order, whatever the rounds were. -/
theorem Rounds.sliced (h : Rounds s ts ms) {a b : Nat} (ho : Token.Ordered s ts) (hab : a ≤ b)
    (hts : ∀ t ∈ ts, a ≤ t.start ∧ t.stop ≤ b) : ∃ spans, Sliced s a b ts ms spans := by
  induction h generalizing a with
  | nil => exact ⟨[], .nil, .nil, by simp, by simp⟩
  | @semicolon t ts ms ht _ ih =>
    obtain ⟨-, hots, hle⟩ := Token.Ordered.append_iff.mp (List.singleton_append ▸ ho : Token.Ordered s ([t] ++ ts))
    have hlt := (ho.inside t (by simp)).1
    obtain ⟨hstart, hstop⟩ := hts t (by simp)
    obtain ⟨spans, hspans⟩ := ih hots hstop fun u hu => ⟨hle t (by simp) u hu, (hts u (by simp [hu])).2⟩
    exact ⟨spans, (hspans.lower (hstart.trans hlt.le)).skip
      (fun p hp => .inr (hspans.bounds p hp).1) (.inl ht)⟩
  | @stray t ts m ms ht hm _ ih =>
    obtain ⟨-, hots, hle⟩ := Token.Ordered.append_iff.mp (List.singleton_append ▸ ho : Token.Ordered s ([t] ++ ts))
    have hlt := (ho.inside t (by simp)).1
    obtain ⟨hstart, hstop⟩ := hts t (by simp)
    obtain ⟨spans, hspans⟩ := ih hots hstop fun u hu => ⟨hle t (by simp) u hu, (hts u (by simp [hu])).2⟩
    -- the member stands in front of the mark without a character
    have hempty : m.node.text = Text.slice s t.start t.start := by simp [hm, Text.slice]
    have hcons : Sliced s a b ts (m :: ms) ((t.start, t.start) :: spans) := by
      rw [← List.nil_append ts]
      refine Sliced.cons (hspans.lower hlt.le) hempty hstart le_rfl (hlt.le.trans hstop)
        (by simp) (fun u hu => (hots.inside u hu).1) fun u hu => ?_
      exact hlt.le.trans (hle t (by simp) u hu)
    refine ⟨_, hcons.skip (List.forall_mem_cons.mpr ⟨.inl le_rfl, fun p hp => ?_⟩)
      (.inr ⟨ht, by simp⟩)⟩
    exact .inr (hspans.bounds p hp).1
  | @member us ts m ms hne hm _ ih =>
    obtain ⟨hous, hots, hle⟩ := Token.Ordered.append_iff.mp ho
    obtain ⟨⟨i, j⟩, he⟩ := Option.ne_none_iff_exists'.mp (mt Token.extent?_eq_none hne)
    obtain ⟨⟨t, ht, rfl⟩, ⟨u, hu, rfl⟩, hall⟩ := hous.bounds he
    have htu := (hall t ht).2
    have hlt := (hous.inside t ht).1
    obtain ⟨spans, hspans⟩ := ih hots (hts u (by simp [hu])).2 fun v hv =>
      ⟨hle u hu v hv, (hts v (by simp [hv])).2⟩
    refine ⟨_, hspans.cons (hm.trans (Token.cover_of_extent he)) (hts t (by simp [ht])).1 (by omega)
      (hts u (by simp [hu])).2 (fun v hv => ?_) (fun v hv => (ho.inside v hv).1) fun v hv => hle u hu v hv⟩
    simpa [Token.within] using hall v hv

end MemberBlock

namespace Grammar

variable {g : Grammar} {c : Cursor}

/-- A member takes a token, unless the source ends or a closing mark follows. -/
theorem memberBody_taken {start : Token} {as : List Attribute} {ms : List Modifier}
    (hg : g.Verbatim) (hs : c.Sound) : Spec (g.memberBody start as ms) c fun _ c' =>
      c'.behind = c.behind → c'.ahead = [] ∨ c'.peek.isCloser = true := by
  refine Spec.current_bind (Spec.ite (fun hk => ?_) fun _ => Spec.get_bind ?_)
  · have hk := Token.kind_of_isIdentifierIn hk
    have hl := hs.advance 1
    have hlong := hs.behind_advance (by simp [hk])
    refine Spec.skip_bind hs (Spec.bind (Spec.separated_holds (f := Binding.node) hl.sound
      fun c₁ hl₁ => bindingRule_shows hg hl₁.sound) fun bs c₁ hl₁ _ => Spec.sliceFrom_bind ?_)
    refine Spec.pure hl₁.sound fun hb => absurd (hb ▸ hlong ▸ hl₁.behind.length_le) ?_
    simp
  · have hl := hs.advance (memberLength false 0 c.ahead)
    refine Spec.skip_bind hs (Spec.get_bind (Spec.pure hl.sound fun hb => ?_))
    cases ha : c.ahead with
    | nil => exact .inl (by simp [Cursor.advance, ha])
    | cons t ts =>
      have hnone : memberLength false 0 (t :: ts) = 0 := by
        have hlength := congrArg List.length hb
        simp only [Cursor.advance, ha, List.length_append, List.length_reverse, List.length_take,
          List.length_cons] at hlength
        omega
      have hcloser : t.isCloser = true := by
        by_contra hc
        simp only [memberLength, Bool.false_eq_true, false_and, and_false, if_false, hc] at hnone
        split_ifs at hnone <;> omega
      rw [hnone]
      exact .inr (by simpa [Cursor.advance, Cursor.peek, ha] using hcloser)

theorem memberRule_taken (hg : g.Verbatim) (hs : c.Sound) : Spec g.memberRule c fun _ c' =>
    c'.behind = c.behind → c'.ahead = [] ∨ c'.peek.isCloser = true := by
  refine Spec.current_bind (Spec.bind (attributesRule_holds hg hs) fun as c₁ hl₁ _ => ?_)
  refine Spec.bind (modifiersRule_holds hg hl₁.sound) fun ms c₂ hl₂ _ => ?_
  refine (memberBody_taken hg hl₂.sound).mono fun m c₃ hl₃ htaken hb => htaken ?_
  exact hl₃.behind.eq_of_length_le (hb ▸ (hl₁.trans hl₂).behind.length_le) |>.symm

/-- A round of a block takes tokens for the members that it reads. -/
theorem blockItem_rounds (hg : g.Verbatim) (hs : c.Sound) : Spec g.blockItem c fun o c' =>
    (∀ ms ∈ o, ∃ ts, ts ≠ [] ∧ c'.behind = ts.reverse ++ c.behind ∧
      MemberBlock.Rounds c'.source ts ms) ∧ (o = none → c' = c) := by
  refine Spec.get_bind (Spec.ite (fun _ => Spec.pure hs ⟨by simp, fun _ => rfl⟩) fun hclosing =>
    Spec.ite (fun _ => Spec.fail hs) fun heof => Spec.ite (fun hsemicolon => ?_) fun _ => ?_)
  · have hb := hs.behind_advance (by simp [Token.kind_of_isSymbol hsemicolon])
    refine Spec.skip_bind hs (Spec.pure (hs.advance 1).sound ⟨?_, by simp⟩)
    rintro _ ⟨rfl⟩
    exact ⟨[c.peek], by simp, by simpa using hb, .semicolon hsemicolon .nil⟩
  · refine Spec.bind ((memberRule_covers hg hs).and (memberRule_taken hg hs))
      fun m c₁ hl₁ ⟨hm, htaken⟩ => Spec.get_bind ?_
    obtain ⟨-, ts, hts, hcovers⟩ := hm
    have htext := hcovers.text_eq
    refine Spec.whether (Q := fun c' => ∃ ts, ts ≠ [] ∧ c'.behind = ts.reverse ++ c.behind ∧
      MemberBlock.Rounds c'.source ts [m]) hl₁.sound (fun hpos => ?_) (fun hpos => ?_)
      fun c₂ hl₂ h => Spec.pure hl₂.sound ⟨?_, by simp⟩
    · have hnil : ts = [] := by simpa [Cursor.position, hts] using hpos
      subst hnil
      -- the mark that no member starts with is the token at which the round began
      have hb : c₁.behind = c.behind := by simpa using hts
      have hne : c₁.ahead ≠ [] := by
        have hrefines := hl₁.refines
        rw [Cursor.inner, Cursor.inner, hb] at hrefines
        have hlength := (hrefines.of_append _).length_le
        rintro hnil
        rw [hnil, List.length_nil, Nat.le_zero, List.length_eq_zero_iff] at hlength
        exact heof (by simp [Cursor.isEof, hlength])
      have hcloser := (htaken hb).resolve_left hne
      have hk : c₁.peek.kind = .symbol := by
        simp only [Token.isCloser, Token.isSymbolIn, Bool.and_eq_true, beq_iff_eq] at hcloser
        exact hcloser.1
      have hpeek := hl₁.peek_eq hb (.inr (by simp [hk]))
      have hmark : c₁.peek.isSymbolIn [")", "]"] = true := by
        rw [← hpeek] at hclosing
        simp_all [Token.isCloser, Token.isSymbolIn, Token.isSymbol, Token.has]
      refine ⟨hl₁.sound.advance 1, [c₁.peek], by simp, ?_, .stray hmark htext .nil⟩
      rw [hl₁.sound.behind_advance (by simp [hk]), hb]
      rfl
    · exact ⟨ts, by rintro rfl; simp [Cursor.position, hts] at hpos, hts, by
        simpa using MemberBlock.Rounds.member (by rintro rfl; simp [Cursor.position, hts] at hpos) htext .nil⟩
    · rintro _ ⟨rfl⟩
      exact h

theorem memberBlockRule_rounds (hg : g.Verbatim) (hs : c.Sound) : Spec g.memberBlockRule c fun b c' =>
    ∃ first inner last, c'.behind = last :: inner.reverse ++ first :: c.behind ∧
      first.isSymbol "\x7b" = true ∧ last.isSymbol "\x7d" = true ∧
      MemberBlock.Rounds c'.source inner b.members := by
  refine Spec.expect_bind hs fun hopening => ?_
  have hk := hs.kind_of_reads (m := '\x7b') rfl hopening
  have hl₁ := hs.advance 1
  refine Spec.bind (Spec.collect
    (I := fun mss c' => ∃ ts, c'.behind = ts.reverse ++ (c.advance 1).behind ∧
      MemberBlock.Rounds c'.source ts mss.flatten)
    (Q := fun mss c' => ∃ ts, c'.behind = ts.reverse ++ (c.advance 1).behind ∧
      MemberBlock.Rounds c'.source ts mss.flatten)
    (fun mss c₂ hl₂ ⟨ts, hts, hi⟩ => ?_) hl₁.sound ⟨[], by simp, .nil⟩) fun mss c₂ hl₂ ⟨ts, hts, hi⟩ => ?_
  · refine (blockItem_rounds hg hl₂.sound).mono fun o c₃ hl₃ ⟨hsome, hnone⟩ => ⟨?_, fun ho => ?_⟩
    · rintro ms rfl
      obtain ⟨us, -, hus, hrounds⟩ := hsome ms rfl
      refine ⟨ts ++ us, by simp [hus, hts], ?_⟩
      rw [← hl₃.source] at hi
      simpa using hi.append hrounds
    · rw [hnone ho]
      exact ⟨ts, hts, hi⟩
  · refine Spec.expect_bind hl₂.sound fun hclosing => Spec.sliceFrom_bind ?_
    have hk₂ := hl₂.sound.kind_of_reads (m := '\x7d') rfl hclosing
    have hl₃ := hl₂.sound.advance 1
    refine Spec.pure hl₃.sound ⟨c.peek, ts, c₂.peek, ?_, ?_, ?_, ?_⟩
    · rw [hl₂.sound.behind_advance (by simp [hk₂]), hts, hs.behind_advance (by simp [hk])]
      rfl
    · simp_all [Token.isSymbol, Token.has, Token.reads]
    · simp_all [Token.isSymbol, Token.has, Token.reads]
    · exact hi

end Grammar

/-- A block leaves none of its tokens out and has none twice. Between its braces its members are slices
of the source in their order, and each token, an operator as the parser has split it, is in one of them;
the others are semicolons between members, and closing parentheses and brackets at which a member has no
token. The rounds end by themselves, however many are granted, as each takes a token. -/
theorem Parser.memberBlock_partition {c : Cursor} (hs : c.Sound) :
    (∀ b c', memberBlock c = .ok b c' → ∃ first inner last spans,
      c'.behind = (first :: inner ++ [last]).reverse ++ c.behind ∧
      Token.Refines c.ahead (first :: inner ++ last :: c'.ahead) ∧
      first.isSymbol "\x7b" = true ∧ last.isSymbol "\x7d" = true ∧
      MemberBlock.Sliced c.source first.stop last.start inner b.members spans) ∧
    (∀ k ms c', (Grammar.upTo k).blockItem c = .ok (some ms) c' → c.position < c'.position) ∧
    ∀ k n, c.room < n →
      collectWithin (Grammar.upTo k).blockItem n c = collect (Grammar.upTo k).blockItem c := by
  have hround : ∀ (k : Nat) {c₁ : Cursor}, c₁.Sound → Spec (Grammar.upTo k).blockItem c₁
      fun o c' => o ≠ none → c₁.position < c'.position := by
    intro k c₁ hs₁
    refine (Grammar.blockItem_rounds (Grammar.upTo_verbatim k) hs₁).mono fun o c' _ ⟨hsome, _⟩ ho => ?_
    obtain ⟨ms, rfl⟩ := Option.ne_none_iff_exists'.mp ho
    obtain ⟨ts, hts, hb, -⟩ := hsome ms rfl
    have := List.length_pos_of_ne_nil hts
    simp only [Cursor.position, hb, List.length_append, List.length_reverse]
    omega
  refine ⟨fun b c' h => ?_, fun k ms c' h => ((hround k hs).ok h).2 (by simp), fun k n hn => ?_⟩
  · obtain ⟨hl, first, inner, last, hb, hfirst, hlast, hrounds⟩ :=
      (withGrammar_verbatim fun g hg => Grammar.memberBlockRule_rounds hg hs).ok h
    have htaken : c'.inner = c.behind.reverse ++ (first :: inner ++ last :: c'.ahead) := by
      simp [Cursor.inner, hb]
    have ho := hl.sound.arranged.ordered
    rw [htaken, hl.source] at ho
    obtain ⟨-, ho, -⟩ := Token.Ordered.append_iff.mp ho
    obtain ⟨hoinner, -, hlast'⟩ := Token.Ordered.append_iff.mp ho
    obtain ⟨-, hoinner, hfirst'⟩ := Token.Ordered.append_iff.mp
      (List.singleton_append ▸ hoinner : Token.Ordered c.source ([first] ++ inner))
    rw [hl.source] at hrounds
    obtain ⟨spans, hspans⟩ := hrounds.sliced hoinner (hlast' first (by simp) last (by simp))
      fun t ht => ⟨hfirst' first (by simp) t ht, hlast' t (by simp [ht]) last (by simp)⟩
    refine ⟨first, inner, last, spans, by simp [hb], ?_, hfirst, hlast, hspans⟩
    have hrefines := hl.refines
    rw [htaken] at hrefines
    exact hrefines.of_append _
  · refine collectWithin_eq_collect hs (fun c₁ hl => (hround k hl.sound).mono ?_) hn
    rintro o c₂ - hlt ho hb
    have := hlt ho
    simp [Cursor.position, hb] at this

/-- A member with no token, semicolons, and a binding that is read again after its type could not be. -/
theorem Parser.memberBlock_partition_stray : ∃ c b c', c.Sound ∧ memberBlock c = .ok b c' ∧
    ∃ first inner last spans,
      c'.behind = (first :: inner ++ [last]).reverse ++ c.behind ∧
      Token.Refines c.ahead (first :: inner ++ last :: c'.ahead) ∧
      first.isSymbol "\x7b" = true ∧ last.isSymbol "\x7d" = true ∧
      MemberBlock.Sliced c.source first.stop last.start inner b.members spans := by
  have hread : (runOn memberBlock "\x7b ; ) var x: (A B), y = 1; ] func f() \x7d".toList).isOk = true := by
    decide +kernel
  cases hc : Cursor.ofText "\x7b ; ) var x: (A B), y = 1; ] func f() \x7d".toList with
  | error e =>
    rw [runOn, hc] at hread
    cases hread
  | ok c =>
    cases hb : memberBlock c with
    | error e c' =>
      simp only [runOn, hc, hb] at hread
      cases hread
    | ok b c' =>
      have hs := (Cursor.sound_ofText hc).1
      exact ⟨c, b, c', hs, hb, (memberBlock_partition hs).1 b c' hb⟩

/-- An operator of the source can be in no slice as a whole: its first character ends the type in one
member, and the other begins the next member. -/
theorem Parser.memberBlock_splits :
    (Token.words "\x7b var x: Int?>foo \x7d".toList).toOption.map (·.contains (.operator, "?>".toList)) =
      some true ∧
    (runOn memberBlock "\x7b var x: Int?>foo \x7d".toList).toOption.map (fun b =>
      (b.members.map fun m => m.node.text,
        b.members.any fun m => decide ("?>".toList <:+: m.node.text))) =
      some (["var x: Int?".toList, ">foo".toList], false) := by
  refine ⟨?_, ?_⟩ <;> decide +kernel

end SwiftMacros
