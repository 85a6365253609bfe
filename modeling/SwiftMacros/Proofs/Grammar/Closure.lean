import Mathlib
import SwiftMacros.Proofs.Grammar.Annotation
import SwiftMacros.Grammar.Closure

/-! Closures are read part by part. The lexemes of the source behind the opening brace are those of
the attributes, captures, parameters, effects and result of the signature, and of the body. -/

namespace SwiftMacros

open Token (Word Reads LegibleIn Sturdy)
open SwiftMacros.Parser

/-- A symbol, as a lexeme. -/
def Token.mark (c : Char) : Word := (.symbol, [c])

/-- The lexemes of the parts of a signature; those of the captures are told apart, and whether a
comma follows the last. -/
structure Signature.Words where
  attributes : List (List Word) := []
  captures : Option (List (List Word) × Bool) := none
  parameters : List Word := []
  effects : List Word := []
  result : List Word := []

namespace Signature.Words

def items (w : Words) : List (List Word) := (w.captures.map Prod.fst).getD []

/-- Lexemes with commas between them. -/
def commas (items : List (List Word)) : List Word := [Token.mark ','].intercalate items

/-- The lexemes of a capture list. -/
def inBrackets (items : List (List Word)) (comma : Bool) : List Word :=
  Token.mark '[' :: commas items ++ (if comma then [Token.mark ','] else []) ++ [Token.mark ']']

def all (w : Words) : List Word :=
  w.attributes.flatten ++ (w.captures.map fun (is, comma) => inBrackets is comma).getD [] ++
    w.parameters ++ w.effects ++ w.result ++ [(.identifier, "in".toList)]

/-- Lexemes with a comma behind each. -/
def opened (items : List (List Word)) : List Word := items.flatMap (· ++ [Token.mark ','])

theorem opened_append (items : List (List Word)) (ls : List Word) :
    opened items ++ ls = commas (items ++ [ls]) := by
  induction items with
  | nil => simp [opened, commas]
  | cons a items ih =>
    obtain ⟨b, rest, hb⟩ := List.exists_cons_of_ne_nil (l := items ++ [ls]) (by simp)
    have hcommas : commas (a :: (items ++ [ls])) = a ++ Token.mark ',' :: commas (items ++ [ls]) := by
      rw [hb, commas, List.intercalate_cons_cons]
      simp [commas]
    rw [List.cons_append, hcommas, ← ih]
    simp [opened]

theorem opened_eq (items : List (List Word)) :
    opened items = commas items ++ if items = [] then [] else [Token.mark ','] := by
  rcases List.eq_nil_or_concat items with rfl | ⟨items, ls, rfl⟩
  · rfl
  · rw [List.concat_eq_append, ← opened_append]
    simp [opened]

end Signature.Words

/-- The parts of the signature have these lexemes. -/
structure Signature.HasWords (s : Signature) (w : Signature.Words) : Prop where
  attributes : s.attributes.Forall₂ (fun t ls => Reads t ls []) w.attributes
  items : ((s.capture.map CaptureClause.items).getD []).Forall₂ (fun i ls => Reads i.toText ls [])
    w.items
  parameters : Reads ((s.parameters.map ParameterClause.toText).getD []) w.parameters []
  effects : Reads s.effects w.effects []
  result : Reads ((s.result.map ReturnClause.toText).getD []) w.result []

/-- What stands between the opening brace and the body: nothing, or a signature. -/
def Closure.ReadsHead (k : Closure) (c c' : Cursor) : Prop :=
  match k.signature with
  | none => c'.behind = c.behind
  | some s => ∃ w, s.HasWords w ∧ Cut c'.source c'.edge ∧
      Reads (c'.source.drop c.edge) w.all (c'.source.drop c'.edge)

/-- The statements of the body, from its first character that is not blank to the closing brace. -/
def Closure.ReadsBody (k : Closure) (c c' : Cursor) : Prop :=
  ∃ n, Grammar.statementsFrom c.source c.eof
      { start := c.edge + ((c.source.drop c.edge).takeWhile Text.isBlank).length } c.ahead =
        some (k.statements, n) ∧
    (c.advance n).peek.reads ['\x7d'] = true ∧ c' = (c.advance n).advance 1

/-- The texts of a signature have no carriage return. -/
structure Signature.Flat (s : Signature) : Prop where
  attributes : ∀ t ∈ s.attributes, '\r' ∉ t
  items : ∀ i ∈ (s.capture.map CaptureClause.items).getD [], '\r' ∉ i.toText
  parameters : ∀ q ∈ s.parameters, '\r' ∉ q.toText
  effects : '\r' ∉ s.effects
  result : ∀ r ∈ s.result, '\r' ∉ r.toText

structure ReadsClosure (c : Cursor) (k : Closure) (c' : Cursor) : Prop where
  opening : c.peek.reads ['\x7b'] = true
  lt : c.peek.start < c'.edge
  text : k.text = c.upTo c'
  legible : LegibleIn c.source (Signature.ofClosure k.signature)
  flat : '\r' ∉ c.source → ∀ s ∈ k.signature, s.Flat
  body : ∃ c₁, (c.advance 1).Leads c₁ ∧ k.ReadsHead (c.advance 1) c₁ ∧ k.ReadsBody c₁ c'

/-- A closure that has been read shows its source. -/
theorem ReadsClosure.toText {c c' : Cursor} {k : Closure} (h : ReadsClosure c k c')
    (hl : c.Leads c') : k.toText = c.upTo c' := by
  obtain ⟨d, x, hx⟩ := List.exists_cons_of_ne_nil (hl.upTo_ne_nil h.lt)
  obtain ⟨signature, statements, text, unit⟩ := k
  obtain rfl : text = d :: x := hx ▸ h.text
  exact hx.symm

/-- A freestanding macro spans the source from its sigil to the token read last. -/
structure ReadsExpansion (c : Cursor) (e : MacroExpansion) (c' : Cursor) : Prop where
  lt : c.peek.start < c'.edge
  text : e.text = c.upTo c'
  start : e.start = c.peek.start
  stop : e.stop = c'.edge
  trailing : ∀ k ∈ e.trailing, ∃ c₁ : Cursor, (c.advance 1).Leads c₁ ∧ ReadsClosure c₁ k c'

/-- The types of the parameters have legible signatures. -/
def ParameterClause.Readable (s : Text) : ParameterClause → Prop
  | .typed ps _ => ∀ p ∈ ps, ∀ T ∈ p.type, LegibleIn s T.signature
  | .shorthand _ _ => True

namespace Grammar

open Signature.Words (commas opened inBrackets opened_append opened_eq)

variable {g : Grammar} {c c' : Cursor}

section Captures

variable (hs : c.Sound)
include hs

theorem captureSpecifier_spec : Spec captureSpecifier c fun _ _ => True := by
  refine Spec.get_bind ?_
  extract_lets t next
  refine Spec.ite (fun _ => Spec.skip_bind hs (Spec.get_bind ?_)) fun _ => Spec.pure hs trivial
  have hs₂ := (hs.advance 1).sound
  exact Spec.optional (Q := fun _ _ => True) hs₂ (fun _ => (Spec.skipBalanced hs₂).lead)
    (fun _ => trivial) fun c₁ hl₁ _ => Spec.sliceFrom_bind (Spec.pure hl₁.sound trivial)

theorem captureName_spec : Spec captureName c fun _ _ => True := by
  refine Spec.get_bind (Spec.ite (fun _ => ?_) fun _ => Spec.pure hs trivial)
  exact Spec.skip_bind hs (Spec.pure (hs.advance 2).sound trivial)

/-- A captured expression is kept as the source that it stands for. -/
theorem captureItem_spec (hg : g.Reliable) : Spec (do
      let first ← current
      let specifier ← captureSpecifier
      let name ← captureName
      let expression ← g.expression
      return Capture.mk expression specifier name (← sliceFrom first)) c fun i c' =>
    c.peek.start < c'.edge ∧ i.toText = c.upTo c' := by
  refine Spec.current_bind (Spec.bind (captureSpecifier_spec hs) fun specifier c₁ hl₁ _ => ?_)
  refine Spec.bind (captureName_spec hl₁.sound) fun name c₂ hl₂ _ => ?_
  refine Spec.bind (hg.expression c₂ hl₂.sound) fun e c₃ hl₃ he => ?_
  have hl := (hl₁.trans hl₂).trans hl₃
  have hlt := ((hl₁.trans hl₂).peek_le hs).trans_lt he.lt
  refine Spec.sliceFrom_bind (Spec.pure hl₃.sound ⟨hlt, ?_⟩)
  rw [Cursor.sliceFrom_eq rfl hlt]
  obtain ⟨d, x, hx⟩ := List.exists_cons_of_ne_nil (hl.upTo_ne_nil hlt)
  rw [hx]
  rfl

/-- Captures with their brackets. -/
theorem captureClause_spec (hg : g.Reliable) (hk : c.peek.isSymbol "[" = true) :
    Spec g.captureClause c fun k c' => ∃ items comma,
      ('\r' ∉ c.source → ∀ i ∈ k.items, '\r' ∉ i.toText) ∧
      k.items.Forall₂ (fun i ls => Reads i.toText ls []) items ∧ Cut c'.source c'.edge ∧
        Reads (c'.source.drop c.edge) (Signature.Words.inBrackets items comma)
          (c'.source.drop c'.edge) := by
  have hsymbol := Token.kind_of_isSymbol hk
  have heof : c.peek.kind ≠ .eof := by simp [hsymbol]
  have hword : c.peek.word = Token.mark '[' := Token.word_of_isSymbol hk
  refine Spec.current_bind (Spec.bind (Spec.bracketed (I := fun is c₁ => ∃ items lead,
    ('\r' ∉ c.source → ∀ i ∈ is, '\r' ∉ i.toText) ∧
      is.Forall₂ (fun i ls => Reads i.toText ls []) items ∧ Cut c₁.source c₁.edge ∧
      Reads (c₁.source.drop c.edge) (Token.mark '[' :: lead) (c₁.source.drop c₁.edge) ∧
      ((c₁.Blunt ∧ lead = opened items) ∨ (c₁.peek.isSymbol "]" = true ∧ lead = commas items)))
    hs ?_ fun is c₁ hl₁ hi hlast => ?_) fun is c₁ hl₁ ⟨c₂, hl₂, hi, hlast, heq⟩ => ?_)
  · obtain ⟨hcut, -, hread⟩ := hs.reads_advance (by simp [hsymbol]) heof
    exact ⟨[], [], by simp, .nil, hcut, hword ▸ hread, .inl ⟨hs.blunt_advance (by simp [hsymbol]) heof, rfl⟩⟩
  · obtain ⟨items, lead, hflat, his, hcut, hread, ⟨hblunt, rfl⟩ | ⟨hend, -⟩⟩ := hi
    · refine (captureItem_spec hl₁.sound hg).mono fun i c₂ hl₂ ⟨hlt, htext⟩ => ?_
      obtain ⟨ls, hls⟩ := Cursor.Reading.upTo hl₁.sound hl₂ hlt (.inr hblunt)
      have hall : (is ++ [i]).Forall₂ (fun i ls => Reads i.toText ls []) (items ++ [ls]) := by
        refine List.rel_append his (.cons ?_ .nil)
        rw [htext]
        simpa using hls.texts
      have hflats : '\r' ∉ c.source → ∀ j ∈ is ++ [i], '\r' ∉ j.toText := fun hr => by
        have := hl₂.flat_upTo (((hs.advance 1).trans hl₁).source ▸ hr)
        simpa [or_imp, forall_and, htext] using ⟨hflat hr, this⟩
      have hnext : c₂.peek.kind ≠ .operator → c₂.peek.kind ≠ .eof →
          Cut c₂.source c₂.edge ∧ Reads (c₂.source.drop c.edge)
            (Token.mark '[' :: commas (items ++ [ls])) (c₂.source.drop c₂.edge) := by
        intro hk he
        have hcut₂ := (hl₂.sound.cut_edge (.inl hk) he).1
        have := (hl₂.source ▸ hread).trans (hls.source hcut₂).2
        rw [List.cons_append, List.flatten_singleton, opened_append] at this
        exact ⟨hcut₂, this⟩
      refine ⟨fun hcomma => ?_, fun hend => ?_⟩
      · have hk := Token.kind_of_isSymbol hcomma
        obtain ⟨-, hread₂⟩ := hnext (by simp [hk]) (by simp [hk])
        obtain ⟨hcut₃, -, hread₃⟩ := hl₂.sound.reads_advance (by simp [hk]) (by simp [hk])
        refine ⟨items ++ [ls], opened (items ++ [ls]), hflats, hall, hcut₃, ?_,
          .inl ⟨hl₂.sound.blunt_advance (by simp [hk]) (by simp [hk]), rfl⟩⟩
        have := hread₂.trans hread₃
        rw [Token.word_of_isSymbol hcomma] at this
        rw [opened_eq, if_neg (by simp)]
        exact this
      · have hk := Token.kind_of_isSymbol hend
        obtain ⟨hcut₂, hread₂⟩ := hnext (by simp [hk]) (by simp [hk])
        exact ⟨_, _, hflats, hall, hcut₂, hread₂, .inr ⟨hend, rfl⟩⟩
    · simp [hend] at hlast
  · subst heq
    obtain ⟨items, lead, hflat, his, -, hread, hlead⟩ := hi
    have hk := Token.kind_of_isSymbol hlast
    obtain ⟨hcut₃, -, hread₃⟩ := hl₂.sound.reads_advance (by simp [hk]) (by simp [hk])
    have hcomma : ∃ comma : Bool, lead = commas items ++ if comma then [Token.mark ','] else [] := by
      rcases hlead with ⟨-, rfl⟩ | ⟨-, rfl⟩
      · refine ⟨!items.isEmpty, ?_⟩
        rw [opened_eq]
        cases items <;> rfl
      · exact ⟨false, by simp⟩
    obtain ⟨comma, rfl⟩ := hcomma
    refine Spec.sliceFrom_bind (Spec.pure hl₁.sound ⟨items, comma, hflat, his, hcut₃, ?_⟩)
    have := hread.trans hread₃
    rw [Token.word_of_isSymbol hlast] at this
    exact this

end Captures

section Signatures

/-- The signature of a closure yields a legible one. -/
theorem legible_ofClosure {t : Text} {s : Signature} (hp : ∀ q ∈ s.parameters, q.Readable t)
    (hr : ∀ r ∈ s.result, LegibleIn t r.type.signature) :
    LegibleIn t (Signature.ofClosure (some s)) := by
  have hform : ∀ p r, LegibleIn t p → LegibleIn t r →
      LegibleIn t ("@escaping ".toList ++ p ++ " -> ".toList ++ r) := by
    rintro p r ⟨⟨ls, hls⟩, hp⟩ ⟨⟨ms, hms⟩, hr⟩
    have hescaping : Reads "@escaping".toList [(.atName, "@escaping".toList)] [] :=
      Token.reads_of_words (by decide) (by decide)
    have harrow : Reads "->".toList [(.arrow, "->".toList)] [] :=
      Token.reads_of_words (by decide) (by decide)
    have := (hescaping.before_gap (c := ' ') rfl _).trans
      ((hls.before_gap (c := ' ') rfl _).trans ((harrow.before_gap (c := ' ') rfl r).trans hms))
    exact ⟨⟨_, by simpa using this⟩, fun ht => by simpa using ⟨hp ht, hr ht⟩⟩
  have hunit : LegibleIn t "()".toList :=
    .of_words (w := [Token.mark '(', Token.mark ')']) (by decide) (by decide) (by decide)
  obtain ⟨capture, parameters, effects, result, attributes, text⟩ := s
  refine hform _ _ ?_ ?_
  · cases parameters with
    | none => exact hunit
    | some q =>
      cases q with
      | shorthand => exact hunit
      | typed ps _ =>
        have hall : ∀ x ∈ ps.map fun p => (p.type.map TypeTree.signature).getD "Any".toList,
            LegibleIn t x := by
          intro x hx
          obtain ⟨p, hmem, rfl⟩ := List.mem_map.mp hx
          cases hT : p.type with
          | none =>
            exact .of_words (w := [(.identifier, "Any".toList)]) (by decide) (by decide) (by decide)
          | some T => exact hp _ rfl p hmem T (by simp [hT])
        exact (LegibleIn.join hall).enclose (c := '(') (d := ')') rfl rfl
  · cases result with
    | none => exact hunit
    | some r =>
      have hr := hr r rfl
      cases htype : r.type.signature with
      | nil => simpa only [Option.bind_some, htype] using hunit
      | cons a rest => simpa only [Option.bind_some, htype] using hr

theorem legible_unsigned {t : Text} : LegibleIn t (Signature.ofClosure none) := by
  refine .of_words (t := "@escaping () -> ()".toList) (w := [(.atName, "@escaping".toList),
    Token.mark '(', Token.mark ')', (.arrow, "->".toList), Token.mark '(', Token.mark ')']) ?_ ?_ ?_
  · decide
  · decide
  · decide

variable (hg : g.Reliable) (hs : c.Sound)
include hg hs

theorem closureParameter_spec : Spec g.closureParameter c fun p _ =>
    ∀ T ∈ p.type, LegibleIn c.source T.signature := by
  refine Spec.current_bind ?_
  extract_lets jp jp'
  have hjp : ∀ name c₁, c.Leads c₁ →
      Spec (jp name) c₁ fun p _ => ∀ T ∈ p.type, LegibleIn c.source T.signature := by
    intro name c₁ hl₁
    have hs₁ := hl₁.sound
    refine Spec.current_bind ?_
    extract_lets jp'
    refine Spec.ite (fun _ => ?_) fun _ => ?_
    · refine Spec.skip_bind hs₁ (Spec.bind (hg.type _ (hs₁.advance 1).sound) fun T c₂ hl₂ hT => ?_)
      refine Spec.bind (skipEllipsis_spec hl₂.sound) fun _ c₃ hl₃ _ => ?_
      refine Spec.pure_bind (Spec.sliceFrom_bind (Spec.pure hl₃.sound ?_))
      rintro T ⟨rfl⟩
      exact hl₁.source ▸ hT.legible
    · exact Spec.pure_bind (Spec.sliceFrom_bind (Spec.pure hs₁ (by simp)))
  have hs₁ := (hs.advance 1).sound
  refine Spec.ite (fun _ => Spec.fail hs) fun _ => Spec.consume_bind hs (Spec.current_bind ?_)
  refine Spec.ite (fun _ => ?_) fun _ => Spec.pure_bind (hjp _ _ (hs.advance 1))
  exact Spec.consume_bind hs₁ (Spec.pure_bind (hjp _ _ ((hs.advance 1).trans (hs₁.advance 1))))

omit hg in
/-- The names of parameters without parentheses. -/
theorem shorthandNames_spec (hk : c.peek.kind = .identifier) : Spec (separated do
      if (← current).kind == .identifier then return (← consume).text
      else fail .closureParameterName) c fun (_ : List Text) c' => c.peek.start < c'.edge := by
  have hname : ∀ c₁ : Cursor, c₁.Sound → Spec (do
      if (← current).kind == .identifier then return (← consume).text
      else fail .closureParameterName) c₁ fun (_ : Text) c' => c' = c₁.advance 1 := by
    intro c₁ hs₁
    refine Spec.current_bind (Spec.ite (fun _ => ?_) fun _ => Spec.fail hs₁)
    exact Spec.consume_bind hs₁ (Spec.pure (hs₁.advance 1).sound rfl)
  have heof : c.peek.kind ≠ .eof := by simp [hk]
  refine Spec.separated (I := fun _ c' => c.peek.start < c'.edge)
    ((hname c hs).mono fun _ _ hl h => ?_) fun _ c₁ hl₁ hlt _ =>
    (hname _ (hl₁.sound.advance 1).sound).mono fun _ _ hl₂ _ =>
      hlt.trans_le ((hl₁.sound.advance 1).trans hl₂).edge_le
  exact hs.peek_lt heof (h ▸ hl.sound.refl)

theorem closureParameters_spec : Spec g.closureParameters c fun o c' =>
    (∃ lss, c.Reading c' (o.map ParameterClause.toText).toList lss) ∧
      ∀ q ∈ o, q.Readable c.source := by
  refine Spec.current_bind (Spec.ite (fun hk => ?_) fun _ => Spec.ite (fun hk => ?_) fun _ => ?_)
  · have hsymbol := Token.kind_of_isSymbol hk
    refine Spec.bind (Spec.listed hs hk fun c₁ hl₁ _ =>
      (closureParameter_spec hg hl₁.sound).mono fun p _ _ hp =>
        show ∀ T ∈ p.type, LegibleIn c.source T.signature from hl₁.source ▸ hp) ?_
    intro ps c₁ hl₁ ⟨hps, _, hlt⟩
    obtain ⟨ls, hls⟩ := Cursor.Reading.upTo hs hl₁ hlt (.inl (by simp [hsymbol]))
    refine Spec.sliceFrom_bind (Spec.pure hl₁.sound ⟨⟨[ls], ?_⟩, ?_⟩)
    · rw [Cursor.sliceFrom_eq rfl hlt]
      exact hls
    · rintro _ ⟨rfl⟩
      exact hps
  · have hk : c.peek.kind = .identifier := by
      simp only [Bool.and_eq_true, beq_iff_eq] at hk
      exact hk.1.1
    refine Spec.bind (shorthandNames_spec hs hk) fun names c₁ hl₁ hlt => ?_
    obtain ⟨ls, hls⟩ := Cursor.Reading.upTo hs hl₁ hlt (.inl (by simp [hk]))
    refine Spec.sliceFrom_bind (Spec.pure hl₁.sound ⟨⟨[ls], ?_⟩, ?_⟩)
    · rw [Cursor.sliceFrom_eq rfl hlt]
      obtain ⟨d, x, hx⟩ := List.exists_cons_of_ne_nil (hl₁.upTo_ne_nil hlt)
      rw [hx] at hls ⊢
      exact hls
    · rintro _ ⟨rfl⟩
      trivial
  · exact Spec.pure hs ⟨⟨[], .nil rfl⟩, by simp⟩

theorem returnClause_spec : Spec g.returnClause c fun o c' =>
    (∃ lss, c.Reading c' (o.map ReturnClause.toText).toList lss) ∧
      ∀ r ∈ o, LegibleIn c.source r.type.signature := by
  refine Spec.current_bind (Spec.ite (fun hk => ?_) fun _ => ?_)
  · have hk := Token.kind_of_has hk
    refine Spec.skip_bind hs (Spec.bind (hg.type _ (hs.advance 1).sound) fun T c₁ hl₁ hT => ?_)
    have hl := (hs.advance 1).trans hl₁
    have hlt := hs.peek_lt (by simp [hk]) hl₁
    obtain ⟨ls, hls⟩ := Cursor.Reading.upTo hs hl hlt (.inl (by simp [hk]))
    refine Spec.sliceFrom_bind (Spec.pure hl₁.sound ⟨⟨[ls], ?_⟩, ?_⟩)
    · rw [Cursor.sliceFrom_eq rfl hlt]
      obtain ⟨d, x, hx⟩ := List.exists_cons_of_ne_nil (hl.upTo_ne_nil hlt)
      rw [hx] at hls ⊢
      exact hls
    · rintro _ ⟨rfl⟩
      exact (hs.advance 1).source ▸ hT.legible
  · exact Spec.pure hs ⟨⟨[], .nil rfl⟩, by simp⟩

/-- The lexemes of a signature are those of its parts. -/
theorem closureSignature_spec : Spec g.closureSignature c fun s c' =>
    LegibleIn c.source (Signature.ofClosure (some s)) ∧ ('\r' ∉ c.source → s.Flat) ∧
      ∃ w, s.HasWords w ∧ Cut c'.source c'.edge ∧
      Reads (c'.source.drop c.edge) w.all (c'.source.drop c'.edge) := by
  refine Spec.current_bind (Spec.bind (g.attributesRule_spec hg hs) fun as c₁ hl₁ has => ?_)
  refine Spec.current_bind ?_
  obtain ⟨lss, hattributes⟩ := has.reading
  extract_lets jp
  have hjp : ∀ (capture : Option CaptureClause) (c₂ : Cursor)
      (captures : Option (List (List Word) × Bool)), c₁.Leads c₂ →
      ('\r' ∉ c.source → ∀ i ∈ (capture.map CaptureClause.items).getD [], '\r' ∉ i.toText) →
      ((capture.map CaptureClause.items).getD []).Forall₂ (fun i ls => Reads i.toText ls [])
        ((captures.map Prod.fst).getD []) →
      (Cut c.source c₂.edge → Cut c.source c₁.edge ∧ Reads (c.source.drop c₁.edge)
        ((captures.map fun q => inBrackets q.1 q.2).getD []) (c.source.drop c₂.edge)) →
      Spec (jp capture) c₂ fun s c' => LegibleIn c.source (Signature.ofClosure (some s)) ∧
        ('\r' ∉ c.source → s.Flat) ∧ ∃ w, s.HasWords w ∧ Cut c'.source c'.edge ∧
          Reads (c'.source.drop c.edge) w.all (c'.source.drop c'.edge) := by
    intro capture c₂ captures hl₂ hflat hitems hcaptures
    refine Spec.bind (closureParameters_spec hg hl₂.sound) fun ps c₃ hl₃ hparameters => ?_
    obtain ⟨⟨pls, hps⟩, hparams⟩ := hparameters
    refine Spec.bind (effects_spec hl₃.sound) fun fx c₄ hl₄ heffects => ?_
    obtain ⟨_, parts, els, hparts, hfx⟩ := heffects
    refine Spec.bind (returnClause_spec hg hl₄.sound) fun r c₅ hl₅ hreturn => ?_
    obtain ⟨⟨rls, hr⟩, hresult⟩ := hreturn
    refine Spec.current_bind (Spec.ite (fun hin => ?_) fun _ => Spec.fail hl₅.sound)
    have hk := Token.kind_of_isIdentifierIn hin
    have hs₃ := ((hl₁.trans hl₂).trans hl₃).source
    have hs₄ := (((hl₁.trans hl₂).trans hl₃).trans hl₄).source
    have hs₅ := (((hl₁.trans hl₂).trans hl₃).trans (hl₄.trans hl₅)).source
    obtain ⟨hcut, hcut₅, hread⟩ := hl₅.sound.reads_advance (by simp [hk]) (by simp [hk])
    rw [hs₅] at hcut hcut₅ hread
    obtain ⟨hcut₄, hread₄⟩ := hr.reads hs₅ hcut₅
    obtain ⟨hcut₃, hread₃⟩ := hfx.reads (hl₄.source.trans hs₃) hcut₄
    obtain ⟨hcut₂, hread₂⟩ := hps.reads hs₃ hcut₃
    obtain ⟨hcut₁, hread₁⟩ := hcaptures hcut₂
    obtain ⟨-, hread₀⟩ := hattributes.reads hl₁.source hcut₁
    refine Spec.skip_bind hl₅.sound (Spec.sliceFrom_bind (Spec.pure (hl₅.sound.advance 1).sound
      ⟨legible_ofClosure ((hl₁.trans hl₂).source ▸ hparams) (hs₄ ▸ hresult), ?_, ⟨lss, captures, pls.flatten, els.flatten, rls.flatten⟩,
        ⟨?_, hitems, hps.join_option, ?_, hr.join_option⟩, ?_, ?_⟩))
    · intro hc
      refine ⟨hattributes.flat (hl₁.source ▸ hc), hflat hc, fun q hq => ?_, ?_, fun q hq => ?_⟩
      · exact hps.flat (hs₃ ▸ hc) _ (by simpa using ⟨q, hq, rfl⟩)
      · exact hparts ▸ Text.not_mem_join (by decide) (hfx.flat (hs₄ ▸ hc))
      · exact hr.flat (hs₅ ▸ hc) _ (by simpa using ⟨q, hq, rfl⟩)
    · exact hattributes.texts
    · rw [hparts]
      exact reads_join hfx.texts
    · rw [← hs₅] at hcut
      exact hcut
    · have hall := ((((hread₀.trans hread₁).trans hread₂).trans hread₃).trans hread₄).trans hread
      simp only [Token.isIdentifierIn, List.any_cons, List.any_nil, Bool.or_false, Bool.and_eq_true,
        beq_iff_eq] at hin
      rw [← hs₅, show c₅.peek.word = (.identifier, "in".toList) from Prod.ext hin.1 hin.2] at hall
      exact hall
  refine Spec.ite (fun hk => ?_) fun _ => Spec.pure_bind (hjp none c₁ none hl₁.sound.refl (by simp) .nil ?_)
  · have hsymbol := Token.kind_of_isSymbol hk
    have hcut₁ := (hl₁.sound.cut_edge (.inl (by simp [hsymbol])) (by simp [hsymbol])).1
    refine Spec.bind (captureClause_spec hl₁.sound hg hk) ?_
    rintro k c₂ hl₂ ⟨items, comma, hflat, hitems, _, hread⟩
    rw [(hl₁.trans hl₂).source] at hread
    rw [hl₁.source] at hcut₁
    exact Spec.pure_bind (hjp (some k) c₂ (some (items, comma)) hl₂ (hl₁.source ▸ hflat)
      hitems fun _ => ⟨hcut₁, hread⟩)
  · exact fun hcut => ⟨hcut, .done _⟩

omit hg in
/-- A closure is read brace by brace; what is known of its signature holds where the body starts. -/
theorem closureRule_reads {Q : Signature → Cursor → Prop}
    (hsignature : Spec g.closureSignature (c.advance 1) Q) : Spec g.closureRule c fun k c' =>
      c.peek.reads ['\x7b'] = true ∧ c.peek.start < c'.edge ∧ k.text = c.upTo c' ∧
        ∃ c₁, (c.advance 1).Leads c₁ ∧ (k.signature = none → c₁.behind = (c.advance 1).behind) ∧
          (∀ s ∈ k.signature, Q s c₁) ∧ k.ReadsBody c₁ c' := by
  refine Spec.expect_bind hs fun hopening => ?_
  have hk := hs.kind_of_reads (m := '\x7b') rfl hopening
  have heof : c.peek.kind ≠ .eof := by simp [hk]
  refine Spec.bind (Spec.attempt hsignature) fun signature c₁ hl₁ hsig => ?_
  refine Spec.bind (p := statements) (Q := fun ss c₂ => ∃ n, statementsFrom c₁.source c₁.eof
    { start := c₁.edge + ((c₁.source.drop c₁.edge).takeWhile Text.isBlank).length } c₁.ahead =
      some (ss, n) ∧ c₂ = c₁.advance n) ?_ fun ss c₂ hl₂ ⟨n, hss, heq⟩ => ?_
  · refine Spec.get_bind ?_
    have hstop : c₁.previous.stop = c₁.edge := by
      have := hs.peek_lt heof hl₁
      exact Cursor.previous_stop (Cursor.behind_ne_nil_of_edge (by omega))
    rw [hstop]
    extract_lets stop start
    cases hss : statementsFrom c₁.source c₁.eof { start } c₁.ahead with
    | none => exact Spec.skip_bind hl₁.sound (Spec.fail (hl₁.sound.advance _).sound)
    | some r =>
      obtain ⟨ss, n⟩ := r
      exact Spec.skip_bind hl₁.sound (Spec.pure (hl₁.sound.advance n).sound ⟨n, rfl, rfl⟩)
  · subst heq
    refine Spec.expect_bind hl₂.sound fun hclosing => ?_
    have hl := (hl₁.trans hl₂).trans (hl₂.sound.advance 1)
    have hlt := hs.peek_lt heof hl
    exact Spec.sliceFrom_bind (Spec.pure hl.sound ⟨hopening, hlt, Cursor.sliceFrom_eq rfl hlt,
      c₁, hl₁, hsig.2, fun s h => hsig.1 s h, n, hss, hclosing, rfl⟩)

theorem closureRule_spec : Spec g.closureRule c (ReadsClosure c) := by
  have hs₁ := (hs.advance 1).sound
  refine (closureRule_reads hs (closureSignature_spec hg hs₁)).mono
    fun k c' _ ⟨hopening, hlt, htext, c₁, hl₁, hnone, hsig, hbody⟩ => ?_
  refine ⟨hopening, hlt, htext, ?_, fun hr s hmem => (hsig s hmem).2.1 hr, c₁, hl₁, ?_, hbody⟩
  · cases hk : k.signature with
    | none => exact legible_unsigned
    | some s => exact (hs.advance 1).source ▸ (hsig s hk).1
  · rw [Closure.ReadsHead]
    split
    next hk => exact hnone hk
    next s hk => exact (hsig s hk).2.2

theorem trailingClosure_spec : Spec g.trailingClosure c fun o c' =>
    ∀ k ∈ o, ReadsClosure c k c' := by
  refine Spec.get_bind (Spec.ite (fun _ => ?_) fun _ => Spec.pure hs (by simp))
  refine Spec.bind (closureRule_spec hg hs) fun k c₁ hl₁ hk => Spec.pure hl₁.sound ?_
  rintro _ ⟨rfl⟩
  exact hk

theorem specializationClause_spec : Spec g.specializationClause c fun _ _ => True := by
  refine Spec.bind (genericClause_spec hg hs) fun clause c₁ hl₁ _ => Spec.current_bind ?_
  exact Spec.ite (fun _ => Spec.pure hl₁.sound trivial) fun _ => Spec.fail hl₁.sound

theorem expansionRule_spec : Spec g.expansionRule c (ReadsExpansion c) := by
  have hs₁ := (hs.advance 1).sound
  refine Spec.consume_bind hs ?_
  extract_lets jp
  refine Spec.ite (fun _ => Spec.throw hs₁) fun hk => Spec.get_bind ?_
  replace hk : c.peek.kind = .poundName := by simpa using hk
  refine Spec.whether (Q := fun _ => True) hs₁ (fun _ => ?_) (fun _ => trivial) ?_
  · exact (Spec.attempt (specializationClause_spec hg hs₁)).lead
  intro c₁ hl₁ _
  have hjp : ∀ arguments c₂, (c.advance 1).Leads c₂ →
      Spec (jp arguments) c₂ (ReadsExpansion c) := by
    intro arguments c₂ hl₂
    refine Spec.bind (trailingClosure_spec hg hl₂.sound) fun trailing c₃ hl₃ htrailing => ?_
    have hl := hl₂.trans hl₃
    have hlt := hs.peek_lt (by simp [hk]) hl
    refine Spec.sliceFrom_bind (Spec.get_bind (Spec.pure hl.sound ⟨hlt, ?_, rfl, ?_, ?_⟩))
    · exact Cursor.sliceFrom_eq rfl hlt
    · exact Cursor.previous_stop (Cursor.behind_ne_nil_of_edge (by omega))
    · exact fun k hmem => ⟨c₂, hl₂, htrailing k hmem⟩
  refine Spec.current_bind (Spec.ite (fun hparen => ?_) fun _ => Spec.pure_bind (hjp _ _ hl₁))
  simp only [Bool.and_eq_true] at hparen
  exact Spec.bind (arguments_spec hg hl₁.sound hparen.1) fun as c₂ hl₂ _ => hjp as c₂ (hl₁.trans hl₂)

end Signatures

end Grammar

end SwiftMacros
