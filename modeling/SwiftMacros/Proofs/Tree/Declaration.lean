import Mathlib
import SwiftMacros.Proofs.Tree.Expression
import SwiftMacros.Proofs.Grammar.Declaration

/-! Declarations are verbatim. A member that is passed over and a part of a binding that could not be
read may have taken no token; they are the empty slice then. -/

namespace SwiftMacros

open SwiftMacros.Parser

namespace Grammar

variable {g : Grammar} {c c' : Cursor}

theorem orRest_covers {α : Type} {node : α → Node} {p : Parser α} {raw : Text → α} (hs : c.Sound)
    (hb : c.behind ≠ []) (hp : Spec p c fun a c' => c.Shows (node a) c')
    (hraw : ∀ t, node (raw t) = .of t) : Spec (orRest p raw) c fun a c' => c.Covers (node a) c' := by
  refine Spec.current_bind (Spec.bind (Spec.attempt hp) fun o c₁ hl₁ ho => ?_)
  cases o with
  | some a => exact Spec.pure hl₁.sound (ho.1 a rfl).toCovers
  | none =>
    have hl₂ := hl₁.sound.advance (bindingLength 0 c₁.ahead)
    refine Spec.get_bind (Spec.skip_bind hl₁.sound (Spec.sliceFrom_bind (Spec.pure hl₂.sound ?_)))
    rw [hraw]
    obtain ⟨taken, htaken⟩ := (hl₁.trans hl₂).behind
    exact (hl₁.trans hl₂).covers hs (by simp [← htaken, hb])

variable (hg : g.Verbatim) (hs : c.Sound)
include hg hs

section Members

theorem bindingRule_shows : Spec g.bindingRule c fun b c' => c.Shows b.node c' := by
  refine Spec.current_bind ?_
  extract_lets jp
  have hl₁ := hs.advance 1
  -- the parts are read one after the other behind the first token of the pattern
  have hjp : ∀ name c₂, c.peek.kind ≠ .eof → (c.advance 1).Leads c₂ →
      Spec (jp name) c₂ fun b c' => c.Shows b.node c' := by
    intro name c₂ heof hl₂
    refine Spec.sliceFrom_bind (Spec.current_bind ?_)
    extract_lets jp
    have hbinding : ∀ pattern type initializer accessors c₅, c₂.Holds
        ((type.map TypeTree.node).toList ++ (initializer.map Expression.node).toList ++
          (accessors.map Node.of).toList) c₅ →
        c.Shows (Binding.mk pattern name type initializer accessors (c₅.sliceFrom c.peek)).node c₅ :=
      fun _ _ _ _ c₅ h =>
        ((hl₁.trans hl₂).ahead h).shows hs (hs.peek_lt heof (hl₂.trans h.leads))
    have hjp : ∀ (type : Option TypeTree) c₃, c₂.Holds (type.map TypeTree.node).toList c₃ →
        Spec (jp type) c₃ fun b c' => c.Shows b.node c' := by
      intro type c₃ htype
      have hs₃ := htype.leads.sound
      refine Spec.current_bind ?_
      extract_lets jp
      have hjp : ∀ (initializer : Option Expression) c₄,
          c₃.Holds (initializer.map Expression.node).toList c₄ →
          Spec (jp initializer) c₄ fun b c' => c.Shows b.node c' := by
        intro initializer c₄ hinitializer
        have hs₄ := hinitializer.leads.sound
        have hholds := htype.trans hinitializer
        refine Spec.current_bind (Spec.ite (fun hm => ?_) fun _ => ?_)
        · simp only [Bool.and_eq_true] at hm
          have hk := Token.kind_of_isSymbol hm.1
          refine Spec.bind (Spec.skipBalanced hs₄) fun _ c₅ hl₅ hl => Spec.sliceFrom_bind ?_
          have haccessors := hl₅.holds.shows hs₄ (hs₄.peek_lt (by simp [hk]) hl)
          exact Spec.pure_bind (Spec.sliceFrom_bind (Spec.pure hl₅.sound
            (hbinding _ type initializer (some _) c₅ (hholds.trans haccessors.holds))))
        · exact Spec.pure_bind (Spec.sliceFrom_bind (Spec.pure hs₄
            (hbinding _ type initializer none c₄ (hholds.trans hs₄.refl.holds))))
      refine Spec.ite (fun heq => ?_) fun _ => Spec.pure_bind (hjp none c₃ hs₃.refl.holds)
      have hl₄ := hs₃.advance 1
      refine Spec.skip_bind hs₃ (Spec.bind (orRest_covers hl₄.sound ?_
        (hg.expressions _ hl₄.sound) fun _ => rfl) fun e c₅ hl₅ he => Spec.pure_bind ?_)
      · simp [hs₃.behind_advance (by simp [Token.kind_of_has heq])]
      · exact hjp (some e) c₅ (hl₄.ahead he.holds)
    have hs₂ := hl₂.sound
    refine Spec.ite (fun hcolon => ?_) fun _ => Spec.pure_bind (hjp none c₂ hs₂.refl.holds)
    have hl₃ := hs₂.advance 1
    refine Spec.skip_bind hs₂ (Spec.bind (orRest_covers hl₃.sound ?_ (hg.types _ hl₃.sound)
      fun _ => rfl) fun T c₄ hl₄ hT => Spec.pure_bind ?_)
    · simp [hs₂.behind_advance (by simp [Token.kind_of_isSymbol hcolon])]
    · exact hjp (some T) c₄ (hl₃.ahead hT.holds)
  refine Spec.ite (fun hk => ?_) fun _ => Spec.ite (fun hk => ?_) fun _ => ?_
  · have hk : c.peek.kind = .identifier := by simpa using hk
    exact Spec.consume_bind hs (Spec.pure_bind (hjp _ _ (by simp [hk]) hl₁.sound.refl))
  · have hk := Token.kind_of_isSymbol hk
    exact Spec.bind (Spec.skipBalanced hs) fun _ c₂ _ hl₂ => Spec.pure_bind
      (hjp none c₂ (by simp [hk]) hl₂)
  · exact Spec.bind (Spec.fail hs) (Q := fun _ _ => False) fun _ _ _ h => h.elim

theorem modifierRule_holds (he : c.peek.kind ≠ .eof) :
    Spec g.modifierRule c fun m c' => c.Holds [m.node] c' := by
  have hl₁ := hs.advance 1
  refine Spec.consume_bind hs ?_
  extract_lets jp
  have hjp : ∀ detail c₂, (c.advance 1).Leads c₂ →
      Spec (jp detail) c₂ fun m c' => c.Holds [m.node] c' := by
    intro detail c₂ hl₂
    refine Spec.sliceFrom_bind (Spec.bind (attributesRule_holds hg hl₂.sound) fun _ c₃ hl₃ _ => ?_)
    exact Spec.pure hl₃.sound
      (((hl₁.trans hl₂).holds.shows hs (hs.peek_lt he hl₂)).holds.lead hl₃)
  refine Spec.get_bind (Spec.ite (fun _ => ?_) fun _ => Spec.pure_bind (hjp none _ hl₁.sound.refl))
  have hl₂ := hl₁.sound.advance 1
  have hl₃ := hl₂.sound.advance 1
  refine Spec.skip_bind hl₁.sound (Spec.consume_bind hl₂.sound (Spec.expect_bind hl₃.sound fun _ => ?_))
  exact Spec.pure_bind (hjp _ _ (hl₂.trans (hl₃.trans (hl₃.sound.advance 1))))

theorem modifiersRule_holds : Spec g.modifiersRule c fun ms c' => c.Holds (ms.map Modifier.node) c' := by
  refine Spec.collectWhile_holds hs fun c₁ hl₁ hm => modifierRule_holds hg hl₁.sound ?_
  simp only [modifierFollows, Bool.and_eq_true] at hm
  simp [Token.kind_of_isIdentifierIn hm.1]

/-- A member behind attributes and modifiers is read from where those begin. -/
theorem memberBody_covers {as : List Attribute} {ms : List Modifier}
    (h : c.Holds (as.map Attribute.node ++ ms.map Modifier.node) c') :
    Spec (g.memberBody c.peek as ms) c' fun m c'' => c.Covers m.node c'' := by
  have hs' := h.leads.sound
  refine Spec.current_bind (Spec.ite (fun hk => ?_) fun _ => Spec.get_bind ?_)
  · have hk := Token.kind_of_isIdentifierIn hk
    have hl₁ := hs'.advance 1
    refine Spec.skip_bind hs' (Spec.bind (Spec.separated_holds hl₁.sound fun c₂ hl₂ =>
      bindingRule_shows hg hl₂.sound) fun bs c₂ hl₂ ⟨hbs, _⟩ => Spec.sliceFrom_bind ?_)
    have hlt := (h.leads.peek_le hs).trans_lt (hs'.peek_lt (by simp [hk]) hl₂)
    exact Spec.pure hl₂.sound ((h.trans (hl₁.ahead hbs)).shows hs hlt).toCovers
  · have hl₁ := hs'.advance (memberLength false 0 c'.ahead)
    refine Spec.skip_bind hs' (Spec.get_bind (Spec.pure hl₁.sound ?_))
    have hl := h.leads.trans hl₁
    generalize c'.advance (memberLength false 0 c'.ahead) = c₂ at hl
    rcases eq_or_ne c₂.behind [] with hb | hb
    · simpa [Member.node, Cursor.position, hb] using hl.covers_nil hb
    · simpa [Member.node, Cursor.position, hb] using hl.covers hs hb

theorem memberRule_covers : Spec g.memberRule c fun m c' => c.Covers m.node c' := by
  refine Spec.current_bind (Spec.bind (attributesRule_holds hg hs) fun as c₁ hl₁ has => ?_)
  exact Spec.bind (modifiersRule_holds hg hl₁.sound) fun ms c₂ hl₂ hms =>
    memberBody_covers hg hs (has.trans hms)

theorem blockItem_holds : Spec g.blockItem c fun o c' =>
    (∀ ms ∈ o, c.Holds (ms.map Member.node) c') ∧ (o = none → c' = c) := by
  refine Spec.get_bind (Spec.ite (fun _ => Spec.pure hs ⟨by simp, fun _ => rfl⟩) fun _ =>
    Spec.ite (fun _ => Spec.fail hs) fun _ => Spec.ite (fun _ => ?_) fun _ => ?_)
  · refine Spec.skip_bind hs (Spec.pure (hs.advance 1).sound ⟨?_, by simp⟩)
    rintro _ ⟨rfl⟩
    exact (hs.advance 1).holds
  · refine Spec.bind (memberRule_covers hg hs) fun m c₁ hl₁ hm => Spec.get_bind ?_
    refine Spec.whether (Q := fun c' => c.Holds [m.node] c') hl₁.sound (fun _ => ?_)
      (fun _ => hm.holds) fun c₂ hl₂ h => Spec.pure hl₂.sound ⟨?_, by simp⟩
    · exact ⟨hl₁.sound.advance 1, hm.holds.lead (hl₁.sound.advance 1)⟩
    · rintro _ ⟨rfl⟩
      exact h

theorem memberBlockRule_shows : Spec g.memberBlockRule c fun b c' =>
    c.Shows b.node c' ∧ b.stop = c'.edge := by
  refine Spec.expect_bind hs fun hopening => ?_
  have heof : c.peek.kind ≠ .eof := by simp [hs.kind_of_reads (m := '\x7b') rfl hopening]
  have hl₁ := hs.advance 1
  refine Spec.bind (Spec.collect
    (I := fun mss c' => (c.advance 1).Holds (mss.flatten.map Member.node) c')
    (Q := fun mss c' => (c.advance 1).Holds (mss.flatten.map Member.node) c')
    (fun mss c₂ hl₂ hi => ?_) hl₁.sound hl₁.sound.refl.holds) fun mss c₂ hl₂ hmss => ?_
  · refine (blockItem_holds hg hl₂.sound).mono fun o c₃ hl₃ ⟨hsome, hnone⟩ => ⟨?_, fun ho => ?_⟩
    · rintro ms rfl
      simpa using hi.trans (hsome ms rfl)
    · rw [hnone ho]
      exact hi
  · refine Spec.expect_bind hl₂.sound fun hclosing => Spec.sliceFrom_bind ?_
    have heof₂ : c₂.peek.kind ≠ .eof := by
      simp [hl₂.sound.kind_of_reads (m := '\x7d') rfl hclosing]
    have hl₃ := hl₂.sound.advance 1
    have hedge : c₂.peek.stop = (c₂.advance 1).edge := (hl₂.sound.edge_advance heof₂).symm
    have hshows := (hl₁.ahead (hmss.lead hl₃)).shows_at hs (hs.peek_lt heof (hl₂.trans hl₃))
    rw [← hedge] at hshows
    exact Spec.pure hl₃.sound ⟨hshows, hedge⟩

end Members

section Declarations

/-- A type declaration behind attributes and modifiers is read from where those begin. -/
theorem groupBody_shows {as : List Attribute} {ms : List Modifier}
    (h : c.Holds (as.map Attribute.node ++ ms.map Modifier.node) c') :
    Spec (g.groupBody c.peek as ms) c' fun d c'' => c.Shows d.node c'' := by
  have hl₁ := h.leads.sound.advance 1
  refine Spec.consume_bind h.leads.sound (Spec.current_bind ?_)
  extract_lets jp
  refine Spec.ite (fun _ => Spec.bind (Spec.fail hl₁.sound) (Q := fun _ _ => False)
    fun _ _ _ h => h.elim) fun _ => Spec.consume_bind hl₁.sound ?_
  have hl₂ := hl₁.sound.advance 1
  refine Spec.bind (groupHeader_spec hl₂.sound) fun _ c₃ hl₃ _ => ?_
  refine Spec.bind (memberBlockRule_shows hg hl₃.sound) fun b c₄ hl₄ ⟨hb, hstop⟩ => ?_
  refine Spec.sliceFrom_bind (Spec.pure hl₄.sound ?_)
  have hl := (hl₁.trans hl₂).trans hl₃
  have hshows := ((h.lead hl).trans hb.holds).shows_at hs
    (((h.leads.trans hl).peek_le hs).trans_lt hb.lt)
  rw [← hstop] at hshows
  exact hshows

theorem declarationRule_covers : Spec g.declarationRule c fun d c' => c.Covers d.node c' := by
  refine Spec.current_bind (Spec.bind (attributesRule_holds hg hs) fun as c₁ hl₁ has => ?_)
  refine Spec.bind (modifiersRule_holds hg hl₁.sound) fun ms c₂ hl₂ hms => Spec.current_bind ?_
  refine Spec.ite (fun _ => ?_) fun _ => ?_
  · exact Spec.bind (groupBody_shows hg hs (has.trans hms)) fun d c₃ hl₃ hd =>
      Spec.pure hl₃.sound hd.toCovers
  · exact Spec.bind (memberBody_covers hg hs (has.trans hms)) fun m c₃ hl₃ hm =>
      Spec.pure hl₃.sound hm

end Declarations

end Grammar

end SwiftMacros
