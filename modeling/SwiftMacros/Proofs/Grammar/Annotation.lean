import Mathlib
import SwiftMacros.Proofs.Grammar.Reading
import SwiftMacros.Grammar.Declaration
import SwiftMacros.Grammar.Annotation

/-! Arguments and attributes. The signatures of arguments are legible, and an attribute keeps the
source between its sigil and the token read last. -/

namespace SwiftMacros

open Token (Word Reads LegibleIn Placed)
open SwiftMacros.Parser

/-- The label and the signature of an argument can be put together with others. -/
structure Argument.Readable (s : Text) (a : Argument) : Prop where
  expression : LegibleIn s a.expression.signature
  label : ∀ l ∈ a.label, LegibleIn s l

theorem argumentSignatures_legible {s : Text} {as : List Argument} (h : ∀ a ∈ as, a.Readable s) :
    ∀ t ∈ argumentSignatures as, LegibleIn s t := by
  induction as with
  | nil => simp [argumentSignatures]
  | cons a as ih =>
    obtain ⟨ha, has⟩ := List.forall_mem_cons.mp h
    obtain ⟨e, label, text⟩ := a
    simp only [argumentSignatures, List.mem_cons, forall_eq_or_imp]
    refine ⟨?_, ih has⟩
    cases label with
    | none => exact ha.expression
    | some l =>
      simp only [List.append_assoc]
      exact (ha.label l rfl).then_symbol (c := ':') rfl ha.expression.space

/-- An attribute spans the source from its sigil to the token read last. -/
structure Attribute.Spans (a : Attribute) (c c' : Cursor) : Prop where
  kind : c.peek.kind = .atName
  lt : c.peek.start < c'.edge
  start : a.start = c.peek.start
  stop : a.stop = c'.edge
  text : a.text = c.upTo c'

/-- The words that a type declaration begins with behind its attributes. -/
def Grammar.openingWords : List String := Grammar.modifierWords ++ Grammar.groupKeywords

/-- White space and comments, and behind them an attribute or a word that opens a declaration. -/
def Introduces (s : Text) (a : Nat) : Prop :=
  ∃ n, a ≤ n ∧ Reads (s.drop a) [] (s.drop n) ∧
    (s[n]? = some '@' ∨ ∃ w ∈ Grammar.openingWords, w.toList <+: s.drop n)

/-- The attributes that stand one after the other at a cursor. -/
structure Attribute.Listed (as : List Attribute) (c c' : Cursor) : Prop where
  reading : ∃ lss, c.Reading c' (as.map (·.text)) lss
  first : ∀ a ∈ as.head?, c.peek.kind = .atName ∧ a.start = c.peek.start
  lt : ∀ a ∈ as, a.start < a.stop
  le : ∀ a ∈ as, a.stop ≤ c'.edge
  cut_start : ∀ a ∈ as, Cut c'.source a.start
  cut_stop : ∀ a ∈ as, Cut c'.source a.stop ∨ a.stop = c'.edge
  next : ∀ a ∈ as, Introduces c'.source a.stop ∨ a.stop = c'.edge

/-- A token that is no operator introduces what it reads. -/
theorem Cursor.Sound.introduces {c : Cursor} (hs : c.Sound) (hk : c.peek.kind ≠ .operator)
    (he : c.peek.kind ≠ .eof) (hfirst : c.peek.text.head? = some '@' ∨
      ∃ w ∈ Grammar.openingWords, c.peek.text = w.toList) : Introduces c.source c.edge := by
  have hplaced := hs.placed_peek he
  refine ⟨c.peek.start, hs.edge_le_peek, (hs.cut_edge (.inl hk) he).2, ?_⟩
  refine hfirst.imp (fun h => ?_) fun ⟨w, hw, h⟩ => ⟨w, hw, ?_⟩
  · rw [← List.head?_drop, hplaced.drop_eq]
    obtain ⟨x, hx⟩ := List.head?_eq_some_iff.mp h
    rw [hx]
    rfl
  · rw [hplaced.drop_eq, h]
    exact List.prefix_append _ _

namespace Grammar

variable {g : Grammar} {c c' : Cursor}

section Arguments

variable (hg : g.Reliable) (hs : c.Sound)
include hg hs

theorem arguments_spec {first last : String} (hfirst : c.peek.isSymbol first = true) :
    Spec (g.arguments first last) c fun as c' =>
      (∀ a ∈ as, a.Readable c.source) ∧ c'.Firm ∧ c.peek.start < c'.edge := by
  refine Spec.listed hs hfirst fun c₁ hl₁ hblunt => Spec.get_bind ?_
  have hs₁ := hl₁.sound
  extract_lets start jp
  have hjp : ∀ label c₂, c₁.Leads c₂ → (∀ l ∈ label, LegibleIn c.source l) → c₂.Blunt →
      Spec (jp label) c₂ fun a _ => a.Readable c.source := by
    intro label c₂ hl₂ hlabel hblunt
    refine Spec.bind (hg.expression c₂ hl₂.sound) fun e c₃ hl₃ he => ?_
    refine Spec.sliceFrom_bind (Spec.pure hl₃.sound ⟨?_, hlabel⟩)
    refine (hl₁.trans hl₂).source ▸ he.legible ?_
    exact hl₃.cut (hl₂.sound.cut_peek (.inr hblunt) (hl₃.peek_ne_eof he.lt hl₂.sound))
  refine Spec.ite (fun hlabel => ?_) fun _ => Spec.pure_bind ?_
  · simp only [start, Bool.and_eq_true, beq_iff_eq] at hlabel
    obtain ⟨hk, hcolon⟩ := hlabel
    have hcolon := Token.kind_of_isSymbol hcolon
    have hlast := hs₁.behind_advance_two (by simp [hk]) (by simp [hcolon])
    refine Spec.skip_bind hs₁ (Spec.pure_bind (hjp _ _ (hs₁.advance 2) ?_ ?_))
    · rintro l ⟨rfl⟩
      have hplaced := hs₁.placed_peek (by simp [hk])
      exact hl₁.source ▸ ⟨(hplaced.isName hk).legible, hplaced.not_mem_text⟩
    · exact Cursor.blunt_of_kind hlast (by simp [hcolon])
  · exact hjp none c₁ hs₁.refl (by simp) hblunt

theorem attributeRule_spec : Spec g.attributeRule c fun a c' => a.Spans c c' := by
  refine Spec.consume_bind hs ?_
  extract_lets jp jp'
  refine Spec.ite (fun _ => Spec.throw (hs.advance 1).sound) fun hk => ?_
  replace hk : c.peek.kind = .atName := by simpa using hk
  have hs₁ := (hs.advance 1).sound
  have hjp : ∀ arguments c₁, (c.advance 1).Leads c₁ →
      Spec (jp arguments) c₁ fun a c' => a.Spans c c' := by
    intro arguments c₁ hl
    have hlt := hs.peek_lt (by simp [hk]) hl
    refine Spec.sliceFrom_bind (Spec.get_bind (Spec.pure hl.sound ⟨hk, hlt, rfl, ?_, ?_⟩))
    · exact Cursor.previous_stop (Cursor.behind_ne_nil_of_edge (by omega))
    · exact Cursor.sliceFrom_eq rfl hlt
  refine Spec.get_bind (Spec.ite (fun hparen => ?_) fun _ => Spec.pure_bind (hjp none _ hs₁.refl))
  simp only [parenFollows, Bool.and_eq_true] at hparen
  refine Spec.bind (Spec.attempt (g.arguments_spec hg hs₁ hparen.1)) fun as c₁ hl _ => ?_
  cases as with
  | some as => exact Spec.pure_bind (hjp _ c₁ hl)
  | none =>
    exact Spec.bind (Spec.skipBalanced hl.sound) fun _ c₂ hl₂ _ =>
      Spec.pure_bind (hjp _ c₂ (hl.trans hl₂))

theorem attributesRule_spec : Spec g.attributesRule c fun as c' => Attribute.Listed as c c' := by
  refine (Spec.collectWhile (I := fun as c' => Attribute.Listed as c c' ∧ (as = [] → c' = c))
    (fun as c₁ hl ⟨hi, hnil⟩ hm => ?_)
    hs ⟨⟨⟨[], .nil rfl⟩, by simp, by simp, by simp, by simp, by simp, by simp⟩, fun _ => rfl⟩).mono
      fun _ _ _ h => h.1.1
  have hk : c₁.peek.kind = .atName := by simpa using hm
  refine (g.attributeRule_spec hg hl.sound).mono fun a c₂ hl₂ ha => ?_
  obtain ⟨lss, hread⟩ := hi.reading
  obtain ⟨ls, hls⟩ := Cursor.Reading.upTo hl.sound hl₂ ha.lt (.inl (by simp [hk]))
  have hcut := hl.sound.cut_peek (.inl (by simp [hk])) (by simp [hk])
  have hcut' := (hl.sound.cut_edge (.inl (by simp [hk])) (by simp [hk])).1
  rw [← hl₂.source] at hcut hcut'
  have hat : c₁.peek.text.head? = some '@' :=
    Token.lexeme_sigil (by simp) (hk ▸ (hl.sound.placed_peek (by simp [hk])).lexeme_text (by simp [hk]))
  refine ⟨⟨⟨lss ++ [ls], ?_⟩, ?_, ?_, ?_, ?_, ?_, ?_⟩, by simp⟩
  · rw [List.map_append, List.map_singleton, ha.text]
    exact hread.trans hls hl₂.source
  · cases as with
    | nil => simpa [hnil rfl] using And.intro ha.kind ha.start
    | cons b bs => simpa using hi.first
  · simpa [or_imp, forall_and, ha.start, ha.stop] using ⟨hi.lt, ha.lt⟩
  · simpa [or_imp, forall_and, ha.stop] using fun b hb => (hi.le b hb).trans hl₂.edge_le
  · simpa [or_imp, forall_and, ha.start] using ⟨hl₂.source ▸ hi.cut_start, hcut⟩
  · intro b hb
    rcases List.mem_append.mp hb with hb | hb
    · rw [hl₂.source]
      rcases hi.cut_stop b hb with h | h
      · exact .inl h
      · exact .inl (h ▸ hl₂.source ▸ hcut')
    · rw [List.mem_singleton.mp hb]
      exact .inr ha.stop
  · intro b hb
    rcases List.mem_append.mp hb with hb | hb
    · rw [hl₂.source]
      refine .inl ((hi.next b hb).elim id fun h => ?_)
      exact h ▸ hl.sound.introduces (by simp [hk]) (by simp [hk]) (.inl hat)
    · rw [List.mem_singleton.mp hb]
      exact .inr ha.stop

end Arguments

end Grammar

end SwiftMacros

/-! Annotations are read as types. Each rule is followed along its text; the types in it are read by
a grammar that is taken to be reliable. -/

namespace SwiftMacros.Grammar

open Token (Word Reads LegibleIn Sturdy isMarkChar)
open SwiftMacros.Parser

variable {g : Grammar} {c c' : Cursor}

section Effects

/-- The words of effects, as they are kept: with a space between two of them. -/
theorem reads_join {ts : List Text} {lss : List (List Word)}
    (h : ts.Forall₂ (fun t ls => Reads t ls []) lss) : Reads (Text.join [' '] ts) lss.flatten [] := by
  induction h with
  | nil => exact .done []
  | @cons t ls ts lss ht hts ih =>
    cases hts with
    | nil => simpa [Text.join] using ht
    | cons hu hus =>
      rw [Text.join, List.append_assoc, List.flatten_cons]
      refine ht.then ?_ (Token.stops_cons (by decide)) (by simp)
      exact (Reads.of_gaps (w := [' ']) (by simp [Token.isGap, Token.isSpaceChar]) _).trans ih

theorem effects_spec (hs : c.Sound) : Spec effects c fun t c' =>
    (t = [] → c'.behind = c.behind) ∧
      ∃ parts lss, t = Text.join [' '] parts ∧ c.Reading c' parts lss := by
  refine Spec.bind (Spec.collectWhile (I := fun parts c' => (parts = [] → c'.behind = c.behind) ∧
    (∀ p ∈ parts, p ≠ []) ∧ ∃ lss, c.Reading c' parts lss) (fun parts c₁ hl hi hm => ?_) hs
    ⟨fun _ => rfl, by simp, [], .nil rfl⟩) fun parts c' hl hp => Spec.pure hl.sound ?_
  · obtain ⟨-, hne, lss, hread⟩ := hi
    have hk := Token.kind_of_isIdentifierIn hm
    have hs₁ := hl.sound
    refine Spec.consume_bind hs₁ (Spec.get_bind (Spec.optional (Q := fun _ _ => True)
      (hs₁.advance 1).sound (fun _ => (Spec.skipBalanced (hs₁.advance 1).sound).lead)
      (fun _ => trivial) fun c₂ hl₂ _ => ?_))
    have hlt := hs₁.peek_lt (by simp [hk]) hl₂
    have hl' := (hs₁.advance 1).trans hl₂
    obtain ⟨ls, hls⟩ := Cursor.Reading.upTo hs₁ hl' hlt (.inl (by simp [hk]))
    refine Spec.sliceFrom hl₂.sound ⟨by simp, ?_, lss ++ [ls], ?_⟩
    · rw [Cursor.sliceFrom_eq rfl hlt]
      simpa [or_imp, forall_and] using ⟨hne, hl'.upTo_ne_nil hlt⟩
    · rw [Cursor.sliceFrom_eq rfl hlt]
      exact hread.trans hls hl'.source
  · obtain ⟨⟨hnil, hne, lss, hread⟩, -⟩ := hp
    refine ⟨fun ht => hnil ?_, parts, lss, rfl, hread⟩
    cases parts with
    | nil => rfl
    | cons p ps =>
      have := hne p (by simp)
      cases ps <;> simp [Text.join, this] at ht

end Effects

section Signatures

variable {T : TypeTree} {t : Text}

theorem sturdy_escaping (h : Sturdy t) : Sturdy ("@escaping ".toList ++ t) := by
  have hread : Reads "@escaping".toList [(.atName, "@escaping".toList)] [] :=
    Token.reads_of_words (by decide) (by decide)
  refine h.prepend (by simpa using hread.before_gap (c := ' ') rfl t) fun _ d hd => ?_
  obtain rfl : ' ' = d := by simpa using hd
  decide

/-- A function behind an exclamation mark is marked as escaping. -/
theorem sturdy_unwrapped (h : Sturdy T.signature) : Sturdy (TypeTree.unwrapped T t).signature := by
  cases T with
  | tuple => exact sturdy_escaping h
  | function => exact sturdy_escaping h
  | _ => exact h

theorem flat_unwrapped (h : '\r' ∉ T.signature) : '\r' ∉ (TypeTree.unwrapped T t).signature := by
  have hescaping : '\r' ∉ "@escaping ".toList ++ T.signature := by simpa using h
  cases T with
  | tuple => exact hescaping
  | function => exact hescaping
  | _ => exact h

theorem sturdy_metatype (h : Sturdy T.signature) {u : Token} (hu : isMetatypeName u = true) :
    Sturdy (TypeTree.metatype T u.text t).signature := by
  have hmember : ∀ x e, Token.words ('.' :: x) = .ok [(.dot, ['.']), (.identifier, x)] →
      '/' ∉ '.' :: x → Token.digitsLength? x = none →
      Token.nonemptyRun? Token.isHexPart x = none → x.getLast? = some e →
      Token.isOperatorChar e = false ∧ e ≠ '.' → Sturdy (T.signature ++ '.' :: x) := by
    intro x e hwords hslash hdigits hhex hlast he
    refine h.member (Token.reads_of_words hwords hslash) ⟨hdigits, by simp [hhex]⟩ ?_ ?_
    · rintro d hd
      obtain rfl : e = d := Option.some.inj (hlast.symm.trans hd)
      exact he
    · rintro rfl
      cases hlast
  simp only [isMetatypeName, Token.isIdentifierIn, List.any_cons, List.any_nil, Bool.or_false,
    Bool.and_eq_true, Bool.or_eq_true, beq_iff_eq] at hu
  rcases hu.2 with hu | hu
  · exact hu ▸ hmember _ 'e' (by decide) (by decide) (by decide) (by decide)
      rfl (by decide)
  · exact hu ▸ hmember _ 'l' (by decide) (by decide) (by decide) (by decide)
      rfl (by decide)

theorem flat_metatype (h : '\r' ∉ T.signature) {u : Token} (hu : isMetatypeName u = true) :
    '\r' ∉ (TypeTree.metatype T u.text t).signature := by
  simp only [isMetatypeName, Token.isIdentifierIn, List.any_cons, List.any_nil, Bool.or_false,
    Bool.and_eq_true, Bool.or_eq_true, beq_iff_eq] at hu
  show '\r' ∉ T.signature ++ '.' :: u.text
  rcases hu.2 with hu | hu <;> simpa [hu] using h

end Signatures

section Types

variable (hg : g.Reliable) (hs : c.Sound)
include hg hs

/-- Generic arguments are kept with their brackets. -/
theorem genericClause_spec : Spec g.genericClause c fun t c' =>
    c.peek.kind = .operator ∧ c.peek.start < c'.edge ∧ t = c.upTo c' ∧ c'.Firm ∧
      t.head? = some '<' := by
  refine Spec.consumeOperator_bind (m := '<') hs rfl fun hk t c₁ hl₁ hstart _ htext hb he => ?_
  refine Spec.bind (Spec.separated (I := fun _ _ => True) (hg.type _ hl₁.sound).lead
    fun _ c₂ hl₂ _ _ => (hg.type _ ((hl₁.trans hl₂).sound.advance 1).sound).lead)
    fun _ c₂ hl₂ _ => ?_
  refine Spec.consumeOperator_bind (m := '>') hl₂.sound rfl fun _ u c₃ hl₃ _ hku htu hbu _ => ?_
  have hl := hl₂.trans hl₃
  have hlt : c.peek.start < c₃.edge := by
    have := hl.edge_le
    omega
  have hplaced := hl₁.sound.placed_behind (t := t) (by simp [hb])
  rw [← hl.source] at hplaced
  refine Spec.sliceFrom hl₃.sound ⟨hk, hlt, Cursor.sliceFrom_eq hstart hlt,
    ⟨u, by simp [hbu], .inr (.inr ⟨hku, '>', rfl, htu⟩)⟩, ?_⟩
  rw [Cursor.sliceFrom_eq hstart hlt, Cursor.upTo, ← hstart, hplaced.slice_head (by omega), htext]
  rfl

omit hg in
/-- A type that stands for itself as a signature. -/
theorem ReadsType.of_text {T : TypeTree} (hl : c.Leads c') (hlt : c.peek.start < c'.edge)
    (hcut : Cut c'.source c.peek.start) (hf : c'.Firm) (ht : T.text = c.upTo c')
    (hsig : T.signature = Text.trim T.text) : ReadsType c T c' :=
  ⟨hlt, hcut, ht, hf, by
    rw [hsig, ht, hl.trim_upTo hlt hs]
    exact hl.sturdy_upTo hlt hf hcut, fun hr => by
    rw [hsig, ht]
    exact Text.not_mem_trim (hl.flat_upTo hr)⟩

theorem namedType_spec (hk : c.peek.kind = .identifier) : Spec g.namedType c (ReadsType c) := by
  have heof : c.peek.kind ≠ .eof := by simp [hk]
  have hcut : Cut c.source c.peek.start := hs.cut_peek (.inl (by simp [hk])) heof
  have hplaced := hs.placed_peek heof
  have hs₁ := hs.advance 1
  have hflat : '\r' ∉ c.source → '\r' ∉ c.peek.text := hplaced.not_mem_text
  have hname : Sturdy c.peek.text := by
    rw [hplaced.text]
    exact hplaced.sturdy_slice (.inl hk) hcut hplaced.lt
  refine Spec.consume_bind hs (Spec.get_bind (Spec.branch (Q := fun generics c₂ => c₂.Firm ∧
    Sturdy (c.peek.text ++ generics) ∧ ('\r' ∉ c.source → '\r' ∉ c.peek.text ++ generics))
    (fun _ => ?_) (fun _ => ?_) fun generics c₂ hl₂ ⟨hf, hsig, hsame⟩ => ?_))
  · refine (genericClause_spec hg hs₁.sound).mono fun t c₂ hl₂ ⟨hop, hlt, ht, hf, hhead⟩ => ⟨hf, ?_,
      fun hr => by simpa [ht] using ⟨hflat hr, hl₂.flat_upTo hr⟩⟩
    have hcut₁ : Cut c₂.source (c.advance 1).peek.start := by
      rw [hl₂.source]
      exact hs₁.sound.cut_peek (.inr ⟨c.peek, by simp [hs.behind_advance heof], by simp [hk]⟩)
        (by simp [hop])
    have hread := (hplaced.isName hk).reads (r := t) (Token.free_of_mark hhead rfl) (by simp [hhead])
    have hsturdy := hl₂.sturdy_upTo hlt hf hcut₁
    rw [← ht] at hsturdy
    exact hsturdy.prepend hread (by rintro rfl; cases hhead)
  · exact Spec.pure hs₁.sound ⟨Cursor.firm_of_kind (hs.behind_advance heof) (.inl hk),
      by simpa using hname, by simpa using hflat⟩
  · have hbase : ReadsType c (.named c.peek.text generics (c₂.sliceFrom c.peek)) c₂ := by
      have hlt := hs.peek_lt heof hl₂
      exact ⟨hlt, (hs₁.trans hl₂).cut hcut, Cursor.sliceFrom_eq rfl hlt, hf, hsig, hsame⟩
    refine Spec.sliceFrom_bind (Spec.extend (I := ReadsType c) (fun node c₃ hl₃ hi => ?_)
      hl₂.sound hbase)
    refine Spec.get_bind (Spec.ite (fun hm => ?_) fun _ => Spec.pure hl₃.sound ⟨by simp, fun _ => hi⟩)
    simp only [Bool.and_eq_true, beq_iff_eq] at hm
    have hlast := hl₃.sound.behind_advance_two (by simp [hm.1.1]) (by simp [hm.1.2])
    refine Spec.skip_bind hl₃.sound (Spec.get_bind (Spec.whether (Q := Cursor.Firm)
      (hl₃.sound.advance 2).sound (fun _ => ?_) (fun _ => ?_) fun c₄ hl₄ hf => ?_))
    · exact (genericClause_spec hg (hl₃.sound.advance 2).sound).mono fun _ _ _ h => h.2.2.2.1
    · exact Cursor.firm_of_kind hlast (.inl hm.1.2)
    · have hl₅ := (hl₃.sound.advance 2).trans hl₄
      have hlt : c.peek.start < c₄.edge := hi.lt.trans_le hl₅.edge_le
      refine Spec.sliceFrom_bind (Spec.pure hl₄.sound ⟨?_, by simp⟩)
      rintro _ ⟨rfl⟩
      exact ReadsType.of_text hs (((hs₁.trans hl₂).trans hl₃).trans hl₅) hlt (hl₅.cut hi.cut) hf
        (Cursor.sliceFrom_eq rfl hlt) rfl

omit hg in
theorem elementLabel_spec : Spec elementLabel c fun _ _ => True := by
  refine Spec.get_bind (Spec.ite (fun _ => ?_) fun _ => Spec.ite (fun _ => ?_) fun _ => ?_)
  · exact Spec.skip_bind hs (Spec.pure (hs.advance 2).sound trivial)
  · refine Spec.skip_bind hs (Spec.sliceFrom_bind (Spec.skip_bind (hs.advance 2).sound ?_))
    exact Spec.pure ((hs.advance 2).sound.advance 1).sound trivial
  · exact Spec.pure hs trivial

omit hg in
theorem skipEllipsis_spec : Spec skipEllipsis c fun _ _ => True :=
  Spec.current_bind (Spec.ite (fun _ => ⟨hs.advance 1, trivial⟩) fun _ => Spec.pure hs trivial)

/-- The elements between the parentheses of a tuple or function type. -/
theorem tupleElements_spec (hk : c.peek.isSymbol "(" = true) :
    Spec (bracketed "(" ")" .tupleTypeSeparator do
      let first ← current
      let label ← elementLabel
      let type ← g.type
      skipEllipsis
      return TypeElement.mk type label (← sliceFrom first)) c fun es c' =>
        (∀ e ∈ es, LegibleIn c.source (Text.trim e.text)) ∧ c'.Firm ∧ c.peek.start < c'.edge := by
  refine Spec.listed hs hk fun c₁ hl₁ hblunt => Spec.current_bind ?_
  refine Spec.bind (elementLabel_spec hl₁.sound) fun label c₂ hl₂ _ => ?_
  refine Spec.bind (hg.type c₂ hl₂.sound) fun type c₃ hl₃ ht => ?_
  refine Spec.bind (skipEllipsis_spec hl₃.sound) fun _ c₄ hl₄ _ => ?_
  have hl := (hl₂.trans hl₃).trans hl₄
  have hlt : c₁.peek.start < c₄.edge :=
    ((hl₂.peek_le hl₁.sound).trans_lt ht.lt).trans_le hl₄.edge_le
  refine Spec.sliceFrom_bind (Spec.pure hl₄.sound ?_)
  rw [Cursor.sliceFrom_eq rfl hlt, hl.trim_upTo hlt hl₁.sound, 
    ← (hs.advance 1).source, ← hl₁.source]
  exact hl.legibleIn_upTo hlt
    (hl.cut (hl₁.sound.cut_peek (.inr hblunt) (hl.peek_ne_eof hlt hl₁.sound)))

theorem tupleOrFunctionType_spec (hk : c.peek.isSymbol "(" = true) :
    Spec g.tupleOrFunctionType c (ReadsType c) := by
  have hsymbol := Token.kind_of_isSymbol hk
  have hcut := hs.cut_peek (.inl (by simp [hsymbol])) (by simp [hsymbol])
  refine Spec.current_bind (Spec.bind (tupleElements_spec hg hs hk) fun es c₁ hl₁ ⟨hes, hf, hlt⟩ => ?_)
  refine Spec.bind (effects_spec hl₁.sound) fun effects c₂ hl₂ ⟨hnone, _⟩ => Spec.current_bind ?_
  refine Spec.ite (fun _ => ?_) fun _ => Spec.ite (fun _ => Spec.fail hl₂.sound) fun he => ?_
  · refine Spec.skip_bind hl₂.sound (Spec.bind (hg.type _ (hl₂.sound.advance 1).sound) ?_)
    intro result c₃ hl₃ hr
    have hl := ((hl₁.trans hl₂).trans (hl₂.sound.advance 1)).trans hl₃
    have hlt₃ : c.peek.start < c₃.edge :=
      hlt.trans_le ((hl₂.trans (hl₂.sound.advance 1)).trans hl₃).edge_le
    exact Spec.sliceFrom_bind (Spec.pure hl₃.sound (ReadsType.of_text hs hl hlt₃ (hl.cut hcut)
      hr.firm (Cursor.sliceFrom_eq rfl hlt₃) rfl))
  · have hb := hnone (by simpa using he)
    have hlt₂ : c.peek.start < c₂.edge := hlt.trans_le hl₂.edge_le
    have hf₂ : c₂.Firm := by simpa [Cursor.Firm, hb] using hf
    have hl := hl₁.trans hl₂
    have hjoin : LegibleIn c.source (Text.join ", ".toList (es.map fun e => Text.trim e.text)) :=
      .join (by simpa using hes)
    have hsig : Sturdy (TypeTree.tuple es (c₂.sliceFrom c.peek)).signature :=
      Sturdy.enclose (c := '(') (d := ')') rfl rfl hjoin.legible
    exact Spec.sliceFrom_bind (Spec.pure hl₂.sound ⟨hlt₂, hl.cut hcut,
      Cursor.sliceFrom_eq rfl hlt₂, hf₂, hsig, fun hr => by
        show '\r' ∉ '(' :: Text.join ", ".toList (es.map fun e => Text.trim e.text) ++ [')']
        simpa using hjoin.flat hr⟩)

theorem collectionType_spec (hk : c.peek.isSymbol "[" = true) :
    Spec g.collectionType c (ReadsType c) := by
  have hsymbol := Token.kind_of_isSymbol hk
  have heof : c.peek.kind ≠ .eof := by simp [hsymbol]
  have hs₁ := (hs.advance 1).sound
  have hcut := hs.cut_peek (.inl (by simp [hsymbol])) heof
  refine Spec.consume_bind hs (Spec.bind (hg.type _ hs₁) fun element c₁ hl₁ helement => ?_)
  have htrim : LegibleIn c.source (Text.trim element.text) := by
    rw [helement.text, hl₁.trim_upTo helement.lt hs₁]
    exact hl₁.legibleIn_upTo helement.lt helement.cut
  refine Spec.current_bind (Spec.ite (fun _ => ?_) fun _ => ?_)
  · have hs₂ := (hl₁.sound.advance 1).sound
    refine Spec.skip_bind hl₁.sound (Spec.bind (hg.type _ hs₂) fun value c₂ hl₂ hvalue => ?_)
    refine Spec.expect_bind hl₂.sound fun hend => ?_
    have hl := (hl₁.trans (hl₁.sound.advance 1)).trans (hl₂.trans (hl₂.sound.advance 1))
    have hlt := hs.peek_lt heof hl
    have hentry : LegibleIn c.source (element.signature ++ ':' :: ' ' :: value.signature) :=
      helement.legible.then_symbol rfl (hl₁.source ▸ hvalue.legible).space
    have hsig : Sturdy (TypeTree.dictionary element value
        ((c₂.advance 1).sliceFrom c.peek)).signature := by
      refine Sturdy.enclose (c := '[') (d := ']') rfl rfl ?_
      simpa using hentry.legible
    exact Spec.sliceFrom_bind (Spec.pure (hl₂.sound.advance 1).sound ⟨hlt,
      ((hs.advance 1).trans hl).cut hcut, Cursor.sliceFrom_eq rfl hlt,
      hl₂.sound.firm_of_reads rfl hend, hsig, fun hr => by
        show '\r' ∉ '[' :: element.signature ++ ": ".toList ++ value.signature ++ [']']
        simpa using hentry.flat hr⟩)
  · refine Spec.expect_bind hl₁.sound fun hend => ?_
    have hl := hl₁.trans (hl₁.sound.advance 1)
    have hlt := hs.peek_lt heof hl
    have hsig : Sturdy (TypeTree.array element ((c₁.advance 1).sliceFrom c.peek)).signature :=
      Sturdy.enclose (c := '[') (d := ']') rfl rfl htrim.legible
    exact Spec.sliceFrom_bind (Spec.pure (hl₁.sound.advance 1).sound ⟨hlt,
      ((hs.advance 1).trans hl).cut hcut, Cursor.sliceFrom_eq rfl hlt,
      hl₁.sound.firm_of_reads rfl hend, hsig, fun hr => by
        show '\r' ∉ '[' :: Text.trim element.text ++ [']']
        simpa using htrim.flat hr⟩)

omit hg hs in
/-- Marks and metatype members can stand behind any type. -/
theorem typeSuffixes_spec {base : TypeTree} (hl : c.Leads c') (hb : ReadsType c base c') :
    Spec (typeSuffixes c.peek base) c' (ReadsType c) := by
  refine Spec.extend (I := ReadsType c) (fun node c₁ hl₁ hi => Spec.get_bind ?_) hl.sound hb
  have hl₁ := hl.trans hl₁
  extract_lets t
  refine Spec.ite (fun hm => ?_) fun _ => Spec.ite (fun hm => ?_) fun _ => ?_
  · simp only [t, Bool.and_eq_true] at hm
    obtain ⟨hk, m, hm, hmark⟩ := Token.mark_of_isMark hm.1
    refine Spec.consumePart_bind hl₁.sound hk hm hmark fun u c₂ hl₂ _ hkind hu hbehind _ => ?_
    have hlt := hi.lt.trans_le hl₂.edge_le
    have hfirm : c₂.Firm := ⟨u, by simp [hbehind], .inr (.inr ⟨hkind, m, hmark, hu⟩)⟩
    have htext := Cursor.sliceFrom_eq (t := c.peek) rfl hlt
    refine Spec.sliceFrom_bind (Spec.pure hl₂.sound ⟨?_, by simp⟩)
    rintro T ⟨rfl⟩
    split
    · exact ⟨hlt, hl₂.cut hi.cut, htext, hfirm, hi.sturdy.mark rfl, fun hr => by
        show '\r' ∉ node.signature ++ ['?']
        simpa using hi.flat hr⟩
    · exact ⟨hlt, hl₂.cut hi.cut, htext, hfirm, sturdy_unwrapped hi.sturdy,
        fun hr => flat_unwrapped (hi.flat hr)⟩
  · simp only [t, Bool.and_eq_true, beq_iff_eq] at hm
    have hname := Token.kind_of_isIdentifierIn hm.2
    have hl₂ := hl₁.sound.advance 2
    have hlt := hi.lt.trans_le hl₂.edge_le
    have hbehind := hl₁.sound.behind_advance_two (by simp [hm.1]) (by simp [hname])
    refine Spec.skip_bind hl₁.sound (Spec.sliceFrom_bind (Spec.pure hl₂.sound ⟨?_, by simp⟩))
    rintro T ⟨rfl⟩
    exact ⟨hlt, hl₂.cut hi.cut, Cursor.sliceFrom_eq rfl hlt, Cursor.firm_of_kind hbehind (.inl hname),
      sturdy_metatype hi.sturdy hm.2, fun hr => flat_metatype (hi.flat hr) hm.2⟩
  · exact Spec.pure hl₁.sound ⟨by simp, fun _ => hi⟩

theorem simpleType_spec : Spec g.simpleType c (ReadsType c) := by
  refine Spec.current_bind (Spec.ite (tupleOrFunctionType_spec hg hs) fun _ =>
    Spec.ite (collectionType_spec hg hs) fun _ => Spec.ite (fun hk => ?_) fun _ => Spec.fail hs)
  exact namedType_spec hg hs (by simpa using hk)

theorem constraintRule_spec : Spec g.constraintRule c (ReadsType c) := by
  refine Spec.get_bind ?_
  extract_lets start
  refine Spec.ite (fun hq => ?_) fun _ => Spec.ite (fun hq => ?_) fun _ => ?_
  · have hk : c.peek.kind = .atName ∨ c.peek.kind = .identifier := by
      simp only [qualifiesType, Bool.or_eq_true, beq_iff_eq] at hq
      exact hq.imp_right Token.kind_of_isIdentifierIn
    have hcut := hs.cut_peek (.inl (by rcases hk with hk | hk <;> simp [hk]))
      (by rcases hk with hk | hk <;> simp [hk])
    refine Spec.bind (Spec.collectWhile (I := fun _ _ => True) (fun _ c₁ hl₁ _ _ => ?_) hs trivial)
      fun attributes c₁ hl₁ _ => ?_
    · refine Spec.current_bind (Spec.ite (fun _ => ?_) fun _ => ?_)
      · exact Spec.bind (g.attributeRule_spec hg hl₁.sound) fun _ _ hl _ => Spec.pure hl.sound trivial
      · exact Spec.consume_bind hl₁.sound (Spec.pure (hl₁.sound.advance 1).sound trivial)
    · refine Spec.bind (hg.type c₁ hl₁.sound) fun base c₂ hl₂ hbase => ?_
      have hl := hl₁.trans hl₂
      have hlt := (hl₁.peek_le hs).trans_lt hbase.lt
      exact Spec.sliceFrom_bind (Spec.pure hl₂.sound (ReadsType.of_text hs hl hlt (hl.cut hcut)
        hbase.firm (Cursor.sliceFrom_eq rfl hlt) rfl))
  · simp only [Bool.and_eq_true] at hq
    have hk : c.peek.kind = .identifier := Token.kind_of_isIdentifierIn hq.1
    have hcut := hs.cut_peek (.inl (by simp [hk])) (by simp [hk])
    refine Spec.skip_bind hs (Spec.bind (hg.constraint _ (hs.advance 1).sound) ?_)
    intro constraint c₁ hl₁ hconstraint
    have hl := (hs.advance 1).trans hl₁
    have hlt := ((hs.advance 1).peek_le hs).trans_lt hconstraint.lt
    exact Spec.sliceFrom_bind (Spec.pure hl₁.sound (ReadsType.of_text hs hl hlt (hl.cut hcut)
      hconstraint.firm (Cursor.sliceFrom_eq rfl hlt) rfl))
  · exact Spec.bind (simpleType_spec hg hs) fun base c₁ hl₁ hbase => typeSuffixes_spec hl₁ hbase

theorem typeRule_spec : Spec g.typeRule c (ReadsType c) := by
  refine Spec.current_bind (Spec.bind (constraintRule_spec hg hs) fun first c₁ hl₁ hfirst => ?_)
  refine Spec.bind (Spec.collectWhile (I := fun others c' => (others = [] → c' = c₁) ∧ c'.Firm)
    (fun _ c₂ hl₂ _ _ => ?_) hl₁.sound ⟨fun _ => rfl, hfirst.firm⟩) fun others c₂ hl₂ ⟨hi, _⟩ => ?_
  · exact Spec.skip_bind hl₂.sound ((constraintRule_spec hg (hl₂.sound.advance 1).sound).mono
      fun _ _ _ h => ⟨by simp, h.firm⟩)
  · refine Spec.ite (fun hnone => ?_) fun _ => ?_
    · obtain rfl := hi.1 (by simpa using hnone)
      exact Spec.pure hl₂.sound hfirst
    · have hl := hl₁.trans hl₂
      have hlt := hfirst.lt.trans_le hl₂.edge_le
      exact Spec.sliceFrom_bind (Spec.pure hl₂.sound (ReadsType.of_text hs hl hlt
        (hl₂.cut hfirst.cut) hi.2 (Cursor.sliceFrom_eq rfl hlt) rfl))

end Types

end SwiftMacros.Grammar
