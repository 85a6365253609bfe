import Mathlib
import SwiftMacros.Proofs.Cursor.Taken
import SwiftMacros.Proofs.Grammar.Annotation

/-! Arguments, attributes and annotations are verbatim: each rule answers with a node that is read from
the tokens that it has taken. What a rule passes over or keeps as text makes no node. -/

namespace SwiftMacros

open SwiftMacros.Parser

/-- A grammar whose rules answer with what they have taken. -/
structure Grammar.Verbatim (g : Grammar) : Prop extends g.Reliable where
  types : ∀ c : Cursor, c.Sound → Spec g.type c fun T c' => c.Shows T.node c'
  constraints : ∀ c : Cursor, c.Sound → Spec g.constraint c fun T c' => c.Shows T.node c'
  expressions : ∀ c : Cursor, c.Sound → Spec g.expression c fun e c' => c.Shows e.node c'
  operands : ∀ c : Cursor, c.Sound → Spec g.operand c fun e c' => c.Shows e.node c'

namespace Grammar

variable {g : Grammar} {c c' : Cursor} (hg : g.Verbatim) (hs : c.Sound)
include hg hs

section Attributes

theorem arguments_holds {first last : String} (hfirst : c.peek.isSymbol first = true) :
    Spec (g.arguments first last) c fun as c' =>
      c.Holds (Argument.nodes as) c' ∧ c.peek.start < c'.edge := by
  simp only [Argument.nodes_eq]
  refine Spec.bracketed_holds hs hfirst fun c₁ hl₁ => Spec.get_bind ?_
  extract_lets start jp
  have hjp : ∀ label c₂, c₁.Leads c₂ → Spec (jp label) c₂ fun a c' => c₁.Holds [a.node] c' := by
    intro label c₂ hl₂
    refine Spec.bind (hg.expressions c₂ hl₂.sound) fun e c₃ hl₃ he => Spec.sliceFrom_bind ?_
    exact Spec.pure hl₃.sound ((hl₂.ahead he.holds).shows hl₁.sound
      ((hl₂.peek_le hl₁.sound).trans_lt he.lt)).holds
  refine Spec.ite (fun _ => ?_) fun _ => Spec.pure_bind (hjp none c₁ hl₁.sound.refl)
  exact Spec.skip_bind hl₁.sound (Spec.pure_bind (hjp _ _ (hl₁.sound.advance 2)))

theorem attributeRule_shows : Spec g.attributeRule c fun a c' => c.Shows a.node c' := by
  refine Spec.consume_bind hs ?_
  extract_lets jp jp'
  refine Spec.ite (fun _ => Spec.throw (hs.advance 1).sound) fun hk => ?_
  replace hk : c.peek.kind = .atName := by simpa using hk
  have hs₁ := (hs.advance 1).sound
  have hjp : ∀ arguments c₁, (c.advance 1).Leads c₁ →
      (c.advance 1).Holds (Argument.nodes (arguments.getD [])) c₁ →
      Spec (jp arguments) c₁ fun a c' => c.Shows a.node c' := by
    intro arguments c₁ hl hholds
    have hlt := hs.peek_lt (by simp [hk]) hl
    refine Spec.sliceFrom_bind (Spec.get_bind (Spec.pure hl.sound ?_))
    have hshows := ((hs.advance 1).ahead hholds).shows_at hs hlt
    rw [← Cursor.previous_stop (Cursor.behind_ne_nil_of_edge (by omega))] at hshows
    exact hshows
  have hnone : ∀ c₁, (c.advance 1).Leads c₁ → (c.advance 1).Holds (Argument.nodes []) c₁ :=
    fun c₁ hl => hl.holds
  refine Spec.get_bind (Spec.ite (fun hparen => ?_) fun _ =>
    Spec.pure_bind (hjp none _ hs₁.refl (hnone _ hs₁.refl)))
  simp only [parenFollows, Bool.and_eq_true] at hparen
  refine Spec.bind (Spec.attempt (arguments_holds hg hs₁ hparen.1)) fun as c₁ hl has => ?_
  cases as with
  | some as => exact Spec.pure_bind (hjp _ c₁ hl (has.1 as rfl).1)
  | none =>
    exact Spec.bind (Spec.skipBalanced hl.sound) fun _ c₂ hl₂ _ =>
      Spec.pure_bind (hjp _ c₂ (hl.trans hl₂) (hnone _ (hl.trans hl₂)))

theorem attributesRule_holds : Spec g.attributesRule c fun as c' =>
    c.Holds (as.map Attribute.node) c' :=
  Spec.collectWhile_holds hs fun _ hl _ =>
    (attributeRule_shows hg hl.sound).mono fun _ _ _ ha => ha.holds

end Attributes

section Types

theorem namedType_shows (hk : c.peek.kind = .identifier) :
    Spec g.namedType c fun T c' => c.Shows T.node c' := by
  have heof : c.peek.kind ≠ .eof := by simp [hk]
  have hs₁ := (hs.advance 1).sound
  refine Spec.consume_bind hs (Spec.get_bind (Spec.branch (Q := fun _ _ => True)
    (fun _ => (genericClause_spec hg.toReliable hs₁).lead) (fun _ => Spec.pure hs₁ trivial)
    fun generics c₂ hl₂ _ => Spec.sliceFrom_bind ?_))
  have hbase := ((hs.advance 1).trans hl₂).holds.shows hs (hs.peek_lt heof hl₂)
  refine Spec.extend (I := fun T c' => c.Shows T.node c') (fun node c₃ hl₃ hi => ?_) hl₂.sound hbase
  refine Spec.get_bind (Spec.ite (fun _ => ?_) fun _ => Spec.pure hl₃.sound ⟨by simp, fun _ => hi⟩)
  refine Spec.skip_bind hl₃.sound ?_
  have hl₄ := hl₃.sound.advance 2
  have hmember : ∀ c₅ name, (c₃.advance 2).Leads c₅ →
      c.Shows (TypeTree.member node name (c₅.sliceFrom c.peek)).node c₅ := fun c₅ name hl₅ =>
    (hi.holds.lead (hl₄.trans hl₅)).shows hs (hi.lt.trans_le (hl₄.trans hl₅).edge_le)
  refine Spec.get_bind (Spec.whether (Q := fun _ => True) hl₄.sound
    (fun _ => (genericClause_spec hg.toReliable hl₄.sound).lead) (fun _ => trivial)
    fun c₅ hl₅ _ => Spec.sliceFrom_bind (Spec.pure hl₅.sound ⟨?_, by simp⟩))
  rintro _ ⟨rfl⟩
  exact hmember c₅ _ hl₅

theorem tupleElements_holds (hk : c.peek.isSymbol "(" = true) :
    Spec (bracketed "(" ")" .tupleTypeSeparator do
      let first ← current
      let label ← elementLabel
      let type ← g.type
      skipEllipsis
      return TypeElement.mk type label (← sliceFrom first)) c fun es c' =>
        c.Holds (TypeElement.nodes es) c' ∧ c.peek.start < c'.edge := by
  simp only [TypeElement.nodes_eq]
  refine Spec.bracketed_holds hs hk fun c₁ hl₁ => Spec.current_bind ?_
  refine Spec.bind (elementLabel_spec hl₁.sound) fun label c₂ hl₂ _ => ?_
  refine Spec.bind (hg.types c₂ hl₂.sound) fun T c₃ hl₃ hT => ?_
  refine Spec.bind (skipEllipsis_spec hl₃.sound) fun _ c₄ hl₄ _ => Spec.sliceFrom_bind ?_
  have hlt := ((hl₂.peek_le hl₁.sound).trans_lt hT.lt).trans_le hl₄.edge_le
  exact Spec.pure hl₄.sound ((hl₂.ahead (hT.holds.lead hl₄)).shows hl₁.sound hlt).holds

theorem tupleOrFunctionType_shows (hk : c.peek.isSymbol "(" = true) :
    Spec g.tupleOrFunctionType c fun T c' => c.Shows T.node c' := by
  refine Spec.current_bind (Spec.bind (tupleElements_holds hg hs hk) fun es c₁ hl₁ ⟨hes, hlt⟩ => ?_)
  refine Spec.bind (effects_spec hl₁.sound) fun effects c₂ hl₂ _ => Spec.current_bind ?_
  refine Spec.ite (fun _ => ?_) fun _ => Spec.ite (fun _ => Spec.fail hl₂.sound) fun _ => ?_
  · have hl₃ := hl₂.sound.advance 1
    refine Spec.skip_bind hl₂.sound (Spec.bind (hg.types _ hl₃.sound) fun result c₄ hl₄ hresult => ?_)
    refine Spec.sliceFrom_bind (Spec.pure hl₄.sound ?_)
    exact ((hes.lead (hl₂.trans hl₃)).trans hresult.holds).shows hs
      (hlt.trans_le ((hl₂.trans hl₃).trans hl₄).edge_le)
  · exact Spec.sliceFrom_bind (Spec.pure hl₂.sound
      ((hes.lead hl₂).shows hs (hlt.trans_le hl₂.edge_le)))

theorem collectionType_shows (hk : c.peek.isSymbol "[" = true) :
    Spec g.collectionType c fun T c' => c.Shows T.node c' := by
  have heof : c.peek.kind ≠ .eof := by simp [Token.kind_of_isSymbol hk]
  have hl₁ := hs.advance 1
  refine Spec.consume_bind hs (Spec.bind (hg.types _ hl₁.sound) fun element c₂ hl₂ helement => ?_)
  refine Spec.current_bind (Spec.ite (fun _ => ?_) fun _ => ?_)
  · have hl₃ := hl₂.sound.advance 1
    refine Spec.skip_bind hl₂.sound (Spec.bind (hg.types _ hl₃.sound) fun value c₄ hl₄ hvalue => ?_)
    have hl₅ := hl₄.sound.advance 1
    refine Spec.expect_bind hl₄.sound fun _ => Spec.sliceFrom_bind (Spec.pure hl₅.sound ?_)
    exact (hl₁.ahead ((helement.holds.lead hl₃).trans (hvalue.holds.lead hl₅))).shows hs
      (hs.peek_lt heof ((hl₂.trans hl₃).trans (hl₄.trans hl₅)))
  · have hl₃ := hl₂.sound.advance 1
    refine Spec.expect_bind hl₂.sound fun _ => Spec.sliceFrom_bind (Spec.pure hl₃.sound ?_)
    exact (hl₁.ahead (helement.holds.lead hl₃)).shows hs (hs.peek_lt heof (hl₂.trans hl₃))

omit hg in
theorem typeSuffixes_shows {base : TypeTree} (hb : c.Shows base.node c') :
    Spec (typeSuffixes c.peek base) c' fun T c'' => c.Shows T.node c'' := by
  refine Spec.extend (I := fun T c'' => c.Shows T.node c'') (fun node c₁ hl₁ hi => Spec.get_bind ?_)
    hb.leads.sound hb
  have hnext : ∀ {c₂ : Cursor}, c₁.Leads c₂ → c.Shows (.of (c₂.sliceFrom c.peek) [node.node]) c₂ :=
    fun hl₂ => (hi.holds.lead hl₂).shows hs (hi.lt.trans_le hl₂.edge_le)
  extract_lets t
  refine Spec.ite (fun hm => ?_) fun _ => Spec.ite (fun _ => ?_) fun _ => ?_
  · simp only [t, Bool.and_eq_true] at hm
    obtain ⟨hk, m, hm, hmark⟩ := Token.mark_of_isMark hm.1
    refine Spec.consumePart_bind hl₁.sound hk hm hmark fun u c₂ hl₂ _ _ _ _ _ => ?_
    refine Spec.sliceFrom_bind (Spec.pure hl₂.sound ⟨?_, by simp⟩)
    rintro T ⟨rfl⟩
    split
    · exact hnext hl₂
    · exact hnext hl₂
  · refine Spec.skip_bind hl₁.sound (Spec.sliceFrom_bind
      (Spec.pure (hl₁.sound.advance 2).sound ⟨?_, by simp⟩))
    rintro T ⟨rfl⟩
    exact hnext (hl₁.sound.advance 2)
  · exact Spec.pure hl₁.sound ⟨by simp, fun _ => hi⟩

theorem simpleType_shows : Spec g.simpleType c fun T c' => c.Shows T.node c' := by
  refine Spec.current_bind (Spec.ite (tupleOrFunctionType_shows hg hs) fun _ =>
    Spec.ite (collectionType_shows hg hs) fun _ => Spec.ite (fun hk => ?_) fun _ => Spec.fail hs)
  exact namedType_shows hg hs (by simpa using hk)

theorem constraintRule_shows : Spec g.constraintRule c fun T c' => c.Shows T.node c' := by
  refine Spec.get_bind ?_
  extract_lets start
  refine Spec.ite (fun _ => ?_) fun _ => Spec.ite (fun _ => ?_) fun _ => ?_
  · refine Spec.bind (Spec.collectWhile (I := fun _ _ => True) (fun _ c₁ hl₁ _ _ => ?_) hs trivial)
      fun attributes c₁ hl₁ _ => ?_
    · refine Spec.current_bind (Spec.ite (fun _ => ?_) fun _ => ?_)
      · exact Spec.bind (attributeRule_shows hg hl₁.sound) fun _ _ hl _ => Spec.pure hl.sound trivial
      · exact Spec.consume_bind hl₁.sound (Spec.pure (hl₁.sound.advance 1).sound trivial)
    · refine Spec.bind (hg.types c₁ hl₁.sound) fun base c₂ hl₂ hbase => Spec.sliceFrom_bind ?_
      exact Spec.pure hl₂.sound
        ((hl₁.ahead hbase.holds).shows hs ((hl₁.peek_le hs).trans_lt hbase.lt))
  · have hl₁ := hs.advance 1
    refine Spec.skip_bind hs (Spec.bind (hg.constraints _ hl₁.sound) fun constraint c₂ hl₂ h => ?_)
    exact Spec.sliceFrom_bind (Spec.pure hl₂.sound
      ((hl₁.ahead h.holds).shows hs ((hl₁.peek_le hs).trans_lt h.lt)))
  · exact Spec.bind (simpleType_shows hg hs) fun base c₁ _ hbase => typeSuffixes_shows hs hbase

theorem typeRule_shows : Spec g.typeRule c fun T c' => c.Shows T.node c' := by
  refine Spec.current_bind (Spec.bind (constraintRule_shows hg hs) fun first c₁ hl₁ hfirst => ?_)
  refine Spec.bind (Spec.collectWhile (I := fun Ts c' =>
      c.Holds ((first :: Ts).map TypeTree.node) c' ∧ (Ts = [] → c' = c₁))
    (fun Ts c₂ hl₂ hi _ => ?_) hl₁.sound ⟨hfirst.holds, fun _ => rfl⟩) fun others c₂ hl₂ hi => ?_
  · have hl₃ := hl₂.sound.advance 1
    refine Spec.skip_bind hl₂.sound ((constraintRule_shows hg hl₃.sound).mono fun T c₄ _ hT => ?_)
    exact ⟨(hi.1.lead hl₃).concat hT.holds, by simp⟩
  · refine Spec.ite (fun hnil => ?_) fun _ => ?_
    · obtain rfl := hi.1.2 (by simpa using hnil)
      exact Spec.pure hl₂.sound hfirst
    · have hholds := hi.1.1.shows hs (hfirst.lt.trans_le hl₂.edge_le)
      rw [← TypeTree.nodes_eq] at hholds
      exact Spec.sliceFrom_bind (Spec.pure hl₂.sound hholds)

end Types

end Grammar

end SwiftMacros
