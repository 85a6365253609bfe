import Mathlib
import SwiftMacros.Proofs.Tree.Closure
import SwiftMacros.Proofs.Grammar.Expression

/-! Expressions are verbatim. What stands behind an operand takes it as its first child; a sequence has
its operands and operators as they were read. -/

namespace SwiftMacros

open Token (isMarkChar)
open SwiftMacros.Parser

/-- What is known of every answer of a parser is known of one that satisfies its specification. -/
theorem Parser.Spec.and_ok {α : Type} {p : Parser α} {c : Cursor} {Q : α → Cursor → Prop}
    {P : α → Prop} (h : Spec p c Q) (hp : ∀ a c', p c = .ok a c' → P a) :
    Spec p c fun a c' => Q a c' ∧ P a := by
  unfold Spec at *
  cases hpc : p c with
  | ok a c' =>
    rw [hpc] at h
    exact ⟨h.1, h.2, hp a c' hpc⟩
  | error e c' =>
    rw [hpc] at h
    exact h

/-- An expression without parts has been read as a node. -/
theorem ReadsExpression.shows {c c' : Cursor} {e : Expression} (h : ReadsExpression c e c')
    (hs : c.Sound) (hl : c.Leads c') (he : e.node = .of e.toText) : c.Shows e.node c' := by
  rw [he, h.text, ← Cursor.sliceFrom_eq rfl h.lt]
  exact hl.holds.shows hs h.lt

namespace Grammar

variable {g : Grammar} {c c' : Cursor}

section Words

variable (hs : c.Sound)
include hs

theorem controlExpression_shows (he : c.peek.kind ≠ .eof) :
    Spec controlExpression c fun e c' => c.Shows e.node c' := by
  refine ((controlExpression_spec hs he).and_ok (P := fun e => ∃ t, e = .raw t)
    fun e c' h => ?_).mono ?_
  · obtain ⟨_, c₁, -, h⟩ := of_bind_ok h
    obtain ⟨_, c₂, -, h⟩ := of_bind_ok h
    cases h
    exact ⟨_, rfl⟩
  · rintro _ c' hl ⟨he, t, rfl⟩
    exact he.shows hs hl rfl

theorem keyPath_shows (he : c.peek.kind ≠ .eof) :
    Spec keyPath c fun e c' => c.Shows e.node c' := by
  refine ((keyPath_spec hs he).and_ok (P := fun e => ∃ t, e = .keyPath t) fun e c' h => ?_).mono ?_
  · obtain ⟨_, c₁, -, h⟩ := of_bind_ok h
    obtain ⟨_, c₂, -, h⟩ := of_bind_ok h
    cases h
    exact ⟨_, rfl⟩
  · rintro _ c' hl ⟨he, t, rfl⟩
    exact he.shows hs hl rfl

theorem otherItems_holds {α : Type} {f : α → Node} {item : Parser α}
    (hitem : ∀ c', c.Leads c' → Spec item c' fun a c'' => c'.Holds [f a] c'') :
    Spec (otherItems item) c fun as c' => c.Holds (as.map f) c' := by
  refine Spec.collect (I := fun as c' => c.Holds (as.map f) c') (fun as c₁ hl₁ hi => ?_) hs
    hs.refl.holds
  refine Spec.current_bind (Spec.ite (fun _ => ?_) fun _ => Spec.pure hl₁.sound
    ⟨by simp, fun _ => hi⟩)
  have hl₂ := hl₁.sound.advance 1
  refine Spec.skip_bind hl₁.sound (Spec.current_bind (Spec.ite (fun _ => ?_) fun _ => ?_))
  · exact Spec.pure hl₂.sound ⟨by simp, fun _ => hi.lead hl₂⟩
  · refine Spec.bind (hitem _ (hl₁.trans hl₂)) fun a c₃ hl₃ ha => Spec.pure hl₃.sound ⟨?_, by simp⟩
    rintro _ ⟨rfl⟩
    exact (hi.lead hl₂).concat ha

end Words

section Literals

variable (hg : g.Verbatim) (hs : c.Sound)
include hg hs

theorem collectionLiteral_shows (hk : c.peek.isSymbol "[" = true) :
    Spec g.collectionLiteral c fun e c' => c.Shows e.node c' := by
  have heof : c.peek.kind ≠ .eof := by simp [Token.kind_of_isSymbol hk]
  have hl₁ := hs.advance 1
  have hs₁ := hl₁.sound
  have hclosed : ∀ {ns c₂}, (c.advance 1).Holds ns c₂ →
      c.Shows (.of ((c₂.advance 1).sliceFrom c.peek) ns) (c₂.advance 1) := by
    intro ns c₂ h
    have hl := h.leads.sound.advance 1
    exact (hl₁.ahead (h.lead hl)).shows hs (hs.peek_lt heof (h.leads.trans hl))
  refine Spec.consume_bind hs (Spec.get_bind (Spec.ite (fun _ => ?_) fun _ =>
    Spec.ite (fun _ => ?_) fun _ => ?_))
  · have hl₂ := hs₁.advance 2
    refine Spec.skip_bind hs₁ (Spec.sliceFrom_bind (Spec.pure hl₂.sound ?_))
    exact (hl₁.trans hl₂).holds.shows hs (hs.peek_lt heof hl₂)
  · refine Spec.skip_bind hs₁ (Spec.sliceFrom_bind (Spec.pure (hs₁.advance 1).sound ?_))
    exact hclosed hs₁.refl.holds
  · refine Spec.bind (hg.expressions _ hs₁) fun first c₂ hl₂ hfirst => ?_
    refine Spec.current_bind (Spec.ite (fun _ => ?_) fun _ => ?_)
    · have hl₃ := hl₂.sound.advance 1
      refine Spec.skip_bind hl₂.sound (Spec.bind (hg.expressions _ hl₃.sound) ?_)
      intro value c₄ hl₄ hvalue
      have hentry := ((hfirst.holds.lead hl₃).trans hvalue.holds).shows hs₁
        (hfirst.lt.trans_le (hl₃.trans hl₄).edge_le)
      refine Spec.sliceFrom_bind (Spec.bind (otherItems_holds (f := Entry.node) hl₄.sound
        fun c₅ hl₅ => ?_) fun others c₅ hl₅ hothers => ?_)
      · refine Spec.current_bind (Spec.bind (hg.expressions _ hl₅.sound) fun key c₆ hl₆ hkey => ?_)
        have hl₇ := hl₆.sound.advance 1
        refine Spec.expect_bind hl₆.sound fun _ => Spec.bind (hg.expressions _ hl₇.sound) ?_
        intro value c₈ hl₈ hvalue
        refine Spec.sliceFrom_bind (Spec.pure hl₈.sound ?_)
        exact (((hkey.holds.lead hl₇).trans hvalue.holds).shows hl₅.sound
          (hkey.lt.trans_le (hl₇.trans hl₈).edge_le)).holds
      · refine Spec.expect_bind hl₅.sound fun _ => Spec.sliceFrom_bind
          (Spec.pure (hl₅.sound.advance 1).sound ?_)
        rw [← Entry.nodes_eq] at hothers
        exact hclosed (hentry.holds.trans hothers)
    · refine Spec.bind (otherItems_holds hl₂.sound fun c₃ hl₃ =>
        (hg.expressions c₃ hl₃.sound).mono fun _ _ _ h => h.holds) fun others c₃ hl₃ hothers => ?_
      refine Spec.expect_bind hl₃.sound fun _ => Spec.sliceFrom_bind
        (Spec.pure (hl₃.sound.advance 1).sound ?_)
      rw [← Expression.nodes_eq] at hothers
      exact hclosed (hfirst.holds.trans hothers)

theorem nameExpression_shows (he : c.peek.kind ≠ .eof) :
    Spec g.nameExpression c fun e c' => c.Shows e.node c' := by
  have hl₁ := hs.advance 1
  have hname := hs.shows_peek he
  refine Spec.consume_bind hs (Spec.get_bind (Spec.ite (fun _ => ?_) fun _ => Spec.pure hl₁.sound hname))
  refine Spec.bind (Spec.attempt (specializationClause_spec hg.toReliable hl₁.sound)) ?_
  intro o c₂ hl₂ ho
  have hlt := hs.peek_lt he hl₂
  cases o with
  | none =>
    refine Spec.pure hl₂.sound ⟨hname.of_behind (hl₁.trans hl₂) (ho.2 rfl), hlt⟩
  | some clause =>
    refine Spec.sliceFrom_bind (Spec.pure hl₂.sound ?_)
    exact (hname.holds.lead hl₂).shows hs hlt

theorem wordExpression_shows (hk : c.peek.kind = .identifier) :
    Spec g.wordExpression c fun e c' => c.Shows e.node c' := by
  have he : c.peek.kind ≠ .eof := by simp [hk]
  have hs₁ := (hs.advance 1).sound
  refine Spec.current_bind (Spec.ite (fun _ => ?_) fun _ => Spec.ite (fun _ => ?_) fun _ =>
    Spec.ite (fun _ => controlExpression_shows hs he) fun _ => nameExpression_shows hg hs he)
  · exact Spec.skip_bind hs (Spec.pure hs₁ (hs.shows_peek he))
  · exact Spec.skip_bind hs (Spec.pure hs₁ (hs.shows_peek he))

theorem primary_shows : Spec g.primary c fun e c' => c.Shows e.node c' := by
  have hs₁ := (hs.advance 1).sound
  have htoken : ∀ e : Expression, c.peek.kind ≠ .eof → e.node = .of c.peek.text →
      Spec (skip 1 >>= fun _ => pure e) c fun e c' => c.Shows e.node c' := by
    intro e he hnode
    refine Spec.skip_bind hs (Spec.pure hs₁ ?_)
    rw [hnode]
    exact hs.shows_peek he
  refine Spec.get_bind ?_
  extract_lets t
  split
  next hk => exact htoken _ (by simp [t, hk]) rfl
  next hk => exact htoken _ (by simp [t, hk]) rfl
  next hk => exact htoken _ (by simp [t, hk]) rfl
  next hk => exact wordExpression_shows hg hs hk
  next hk =>
    exact Spec.bind (expansionRule_shows hg hs) fun e c₁ hl₁ he => Spec.pure hl₁.sound he
  next hk => exact keyPath_shows hs (by simp [t, hk])
  · refine Spec.ite (fun hm => ?_) fun _ => Spec.ite (fun hm => ?_) fun _ =>
      Spec.ite (fun hm => ?_) fun _ => Spec.ite (fun hm => ?_) fun _ => Spec.fail hs
    · simp only [Bool.and_eq_true, beq_iff_eq] at hm
      have hl₂ := hs.advance 2
      refine Spec.skip_bind hs (Spec.sliceFrom_bind (Spec.pure hl₂.sound ?_))
      have hl : (c.advance 1).Leads (c.advance 2) := Cursor.advance_add c 1 1 ▸ hs₁.advance 1
      exact hl₂.holds.shows hs (hs.peek_lt (by simp [t, hm.1.1]) hl)
    · exact collectionLiteral_shows hg hs hm
    · refine Spec.bind (arguments_holds hg hs hm) fun as c₁ hl₁ ⟨has, hlt⟩ => ?_
      exact Spec.sliceFrom_bind (Spec.pure hl₁.sound (has.shows hs hlt))
    · exact Spec.bind (closureRule_shows hg hs) fun k c₁ hl₁ hk => Spec.pure hl₁.sound hk

end Literals

section Operators

variable (hg : g.Verbatim)
include hg

theorem suffixes_shows {base : Expression} (hs : c.Sound) (hb : c.Shows base.node c') :
    Spec (g.suffixes c.peek base) c' fun e c'' => c.Shows e.node c'' := by
  refine Spec.extend (I := fun e c'' => c.Shows e.node c'') (fun e c₁ hl₁ hi => Spec.get_bind ?_)
    hb.leads.sound hb
  have hnext : ∀ (e' : Expression) {ns c₂}, c₁.Holds ns c₂ →
      e'.node = .of (c₂.sliceFrom c.peek) (e.node :: ns) → Spec (pure (some e')) c₂ fun o c'' =>
        (∀ s', o = some s' → c.Shows s'.node c'') ∧ (o = none → c.Shows e.node c'') := by
    intro e' ns c₂ h hnode
    refine Spec.pure h.leads.sound ⟨?_, by simp⟩
    rintro _ ⟨rfl⟩
    rw [hnode]
    exact (hi.holds.trans h).shows hs (hi.lt.trans_le h.leads.edge_le)
  have hs₁ := hl₁.sound
  extract_lets t next
  refine Spec.ite (fun _ => ?_) fun _ => Spec.ite (fun hm => ?_) fun _ => Spec.ite (fun hm => ?_)
    fun _ => Spec.ite (fun _ => ?_) fun _ => Spec.ite (fun hm => ?_) fun _ => ?_
  · exact Spec.skip_bind hs₁ (Spec.sliceFrom_bind (hnext _ (hs₁.advance 2).holds rfl))
  · simp only [Bool.and_eq_true] at hm
    refine Spec.bind (arguments_holds hg hs₁ hm.1) fun as c₂ hl₂ ⟨has, _⟩ => ?_
    refine Spec.bind (trailingClosure_holds hg hl₂.sound) fun k c₃ hl₃ hk => Spec.sliceFrom_bind ?_
    exact hnext _ (has.trans hk) (Expression.call_node _ _ _ _ _)
  · simp only [Bool.and_eq_true] at hm
    refine Spec.bind (arguments_holds hg hs₁ hm.1.1) fun as c₂ hl₂ ⟨has, _⟩ => Spec.sliceFrom_bind ?_
    exact hnext _ has rfl
  · refine Spec.bind (closureRule_shows hg hs₁) fun k c₂ hl₂ hk => Spec.sliceFrom_bind ?_
    exact hnext _ hk.holds (Expression.call_node _ _ _ _ _)
  · simp only [t, isMarks, Bool.and_eq_true, beq_iff_eq] at hm
    obtain ⟨⟨hk, hall⟩, -⟩ := hm
    obtain ⟨m, u, hm⟩ := List.exists_cons_of_ne_nil (hs₁.placed_peek (by simp [hk])).text_ne_nil
    rw [hm, List.all_cons, Bool.and_eq_true, Bool.or_eq_true, beq_iff_eq, beq_iff_eq] at hall
    have hmark : isMarkChar m = true := by rcases hall.1 with rfl | rfl <;> rfl
    refine Spec.consumePart_bind hs₁ hk (by simp [hm]) hmark fun u c₂ hl₂ _ _ _ _ _ => ?_
    exact Spec.sliceFrom_bind (hnext _ hl₂.holds rfl)
  · exact Spec.pure hs₁ ⟨by simp, fun _ => hi⟩

variable (hs : c.Sound)
include hs

theorem operandRule_shows : Spec g.operandRule c fun e c' => c.Shows e.node c' := by
  have hl₁ := hs.advance 1
  refine Spec.get_bind ?_
  extract_lets start next jp
  have hjp : ∀ u c₂, (c.advance 1).Leads c₂ → Spec (jp u) c₂ fun e c' => c.Shows e.node c' := by
    intro u c₂ hl₂
    have hl := hl₁.trans hl₂
    refine Spec.sliceFrom_bind (Spec.bind (hg.operands c₂ hl₂.sound) fun inner c₃ hl₃ hinner => ?_)
    exact Spec.sliceFrom_bind (Spec.pure hl₃.sound
      ((hl.ahead hinner.holds).shows hs ((hl.peek_le hs).trans_lt hinner.lt)))
  refine Spec.ite (fun _ => Spec.skip_bind hs (Spec.ite (fun hm => ?_) fun _ => ?_)) fun _ =>
    Spec.ite (fun hm => ?_) fun _ => Spec.ite (fun _ => ?_) fun _ => ?_
  · simp only [Bool.and_eq_true] at hm
    obtain ⟨hk, m, hhead, hmark⟩ := Token.mark_of_isMark hm.1.2
    rw [show next = (c.advance 1).peek from (c.peek_advance 1 0).symm] at hk hhead
    exact Spec.consumePart_bind hl₁.sound hk hhead hmark fun _ c₂ hl₂ _ _ _ _ _ => hjp () c₂ hl₂
  · exact hjp () _ hl₁.sound.refl
  · simp only [Bool.and_eq_true, beq_iff_eq] at hm
    have he : c.peek.kind ≠ .eof := by
      rw [show c.peek.kind = .operator from hm.1]
      decide
    exact Spec.skip_bind hs (Spec.pure hl₁.sound (hs.shows_peek he))
  · refine Spec.skip_bind hs (Spec.bind (hg.operands _ hl₁.sound) fun inner c₂ hl₂ hinner => ?_)
    exact Spec.sliceFrom_bind (Spec.pure hl₂.sound
      ((hl₁.ahead hinner.holds).shows hs ((hl₁.peek_le hs).trans_lt hinner.lt)))
  · exact Spec.bind (primary_shows hg hs) fun base c₂ _ hbase => suffixes_shows hg hs hbase

theorem sequenceTail_holds : Spec g.sequenceTail c fun o c' =>
    (∀ es ∈ o, c.Holds (es.map Expression.node) c') ∧ (o = none → c' = c) := by
  have hl₁ := hs.advance 1
  refine Spec.get_bind ?_
  extract_lets t jp jp'
  have hjp : ∀ link c₂, c.Covers link.node c₂ → Spec (jp link) c₂ fun o c' =>
      (∀ es ∈ o, c.Holds (es.map Expression.node) c') ∧ (o = none → c' = c) := by
    intro link c₂ hlink
    have hs₂ := hlink.leads.sound
    refine Spec.current_bind (Spec.bind (hg.types c₂ hs₂) fun target c₃ hl₃ htarget => ?_)
    refine Spec.sliceFrom_bind (Spec.pure hl₃.sound ⟨?_, by simp⟩)
    rintro _ ⟨rfl⟩
    exact hlink.holds.trans (htarget.holds.shows hs₂ htarget.lt).holds
  have hjp' : ∀ link c₂, c.Covers link.node c₂ → Spec (jp' link) c₂ fun o c' =>
      (∀ es ∈ o, c.Holds (es.map Expression.node) c') ∧ (o = none → c' = c) := by
    intro link c₂ hlink
    refine Spec.bind (operandRule_shows hg hlink.leads.sound) fun operand c₃ hl₃ hoperand => ?_
    refine Spec.pure hl₃.sound ⟨?_, by simp⟩
    rintro _ ⟨rfl⟩
    exact hlink.holds.trans hoperand.holds
  refine Spec.ite (fun hm => Spec.skip_bind hs (Spec.ite (fun _ => ?_) fun _ => ?_)) fun _ =>
    Spec.ite (fun hm => Spec.skip_bind hs (Spec.ite (fun _ => ?_) fun _ => ?_)) fun _ =>
      Spec.pure hs ⟨by simp, fun _ => rfl⟩
  · simp only [Bool.and_eq_true] at hm
    have he : t.kind ≠ .eof := by simp [Token.kind_of_isIdentifierIn hm.1]
    refine Spec.bind (castModifier_spec hl₁.sound) fun modifier c₂ hl₂ _ => Spec.sliceFrom_bind ?_
    exact Spec.pure_bind (hjp _ c₂ ((hl₁.trans hl₂).holds.shows hs (hs.peek_lt he hl₂)).toCovers)
  · simp only [Bool.and_eq_true] at hm
    have he : t.kind ≠ .eof := by simp [Token.kind_of_isIdentifierIn hm.1]
    exact Spec.pure_bind (hjp _ _ (hs.shows_peek he).toCovers)
  · refine Spec.bind (hg.expressions _ hl₁.sound) fun choice c₂ hl₂ hchoice => ?_
    have hl₃ := hl₂.sound.advance 1
    refine Spec.expect_bind hl₂.sound fun _ => Spec.sliceFrom_bind (Spec.pure_bind (hjp' _ _ ?_))
    exact ((hl₁.ahead (hchoice.holds.lead hl₃)).shows hs
      ((hl₁.peek_le hs).trans_lt (hchoice.lt.trans_le hl₃.edge_le))).toCovers
  · simp only [Bool.and_eq_true, beq_iff_eq] at hm
    have he : c.peek.kind ≠ .eof := by simp [t, hm.1]
    exact Spec.pure_bind (hjp' _ _ (hs.shows_peek he).toCovers)

theorem expressionRule_shows : Spec g.expressionRule c fun e c' => c.Shows e.node c' := by
  refine Spec.current_bind (Spec.bind (operandRule_shows hg hs) fun first c₁ hl₁ hfirst => ?_)
  refine Spec.bind (Spec.collect (I := fun ess c' => (ess = [] → c' = c₁) ∧
      c.Holds ((first :: ess.flatten).map Expression.node) c')
    (Q := fun ess c' => (ess = [] → c' = c₁) ∧
      c.Holds ((first :: ess.flatten).map Expression.node) c')
    (fun ess c₂ hl₂ hi => ?_) hl₁.sound ⟨fun _ => rfl, hfirst.holds⟩) fun ess c₂ hl₂ ⟨hnil, hess⟩ => ?_
  · refine (sequenceTail_holds hg hl₂.sound).mono fun o c₃ hl₃ ⟨hsome, hnone⟩ => ⟨?_, fun ho => ?_⟩
    · rintro es rfl
      refine ⟨by simp, ?_⟩
      simpa using hi.2.trans (hsome es rfl)
    · rw [hnone ho]
      exact hi
  · refine Spec.ite (fun he => ?_) fun _ => ?_
    · obtain rfl := hnil (by simpa using he)
      exact Spec.pure hl₂.sound hfirst
    · rw [← Expression.nodes_eq] at hess
      exact Spec.sliceFrom_bind (Spec.pure hl₂.sound
        (hess.shows hs (hfirst.lt.trans_le hl₂.edge_le)))

end Operators

end Grammar

end SwiftMacros
