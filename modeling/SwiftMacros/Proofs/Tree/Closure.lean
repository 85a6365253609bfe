import Mathlib
import SwiftMacros.Proofs.Tree.Annotation
import SwiftMacros.Proofs.Grammar.Closure

/-! Closures and freestanding macros are verbatim. The statements of a body are slices of it, one behind
the other, between the tokens of the signature and the closing brace. -/

namespace SwiftMacros

open SwiftMacros.Parser

/-- White space between two tokens ends before the second. -/
theorem Cursor.Sound.skipBlank_le {c : Cursor} (hs : c.Sound) (he : c.peek.kind ≠ .eof) :
    c.edge + ((c.source.drop c.edge).takeWhile Text.isBlank).length ≤ c.peek.start := by
  have hplaced := hs.placed_peek he
  have hle := hs.edge_le_peek
  obtain ⟨d, x, hx⟩ := List.exists_cons_of_ne_nil hplaced.text_ne_nil
  have hd : Text.isBlank d = false := hplaced.not_blank (.inl (by simp [hx]))
  have hlen : (Text.slice c.source c.edge c.peek.start).length = c.peek.start - c.edge :=
    slice_length (hplaced.lt.le.trans hplaced.le)
  rw [← slice_append_drop hle, hplaced.drop_eq, hx, List.takeWhile_append]
  split
  · rw [List.cons_append, List.takeWhile_cons_of_neg (by simp [hd]), List.append_nil, hlen]
    omega
  · have := (List.takeWhile_prefix (l := Text.slice c.source c.edge c.peek.start) Text.isBlank).length_le
    omega

/-- A body starts in front of all tokens that are ahead. -/
theorem Cursor.Sound.bodyStart_le {c : Cursor} (hs : c.Sound) :
    ∀ t ∈ c.ahead, c.edge + ((c.source.drop c.edge).takeWhile Text.isBlank).length ≤ t.start := by
  intro t ht
  obtain ⟨u, us, hu⟩ := List.exists_cons_of_ne_nil (List.ne_nil_of_mem ht)
  have hpeek : c.peek = u := by simp [Cursor.peek, hu]
  exact (hs.skipBlank_le (hpeek ▸ (hs.placed_ahead (t := u) (by simp [hu])).ne_eof)).trans (hs.peek_le_start ht)

/-- A statement between two offsets, and the pieces behind it. -/
theorem Pieces.statementBetween {s : Text} {ps : List Text} {a b c : Nat} (hab : a ≤ b)
    (h : Pieces s ps b c) :
    Pieces s ((Grammar.statementBetween s a b).map Statement.text ++ ps) a c := by
  rw [Grammar.statementBetween]
  split
  next => exact h.mono_left hab
  next => exact ⟨a, b, le_rfl, hab, rfl, h⟩

/-- The statements up to a closing brace are pieces of the source before it. -/
theorem statementsFrom_pieces {s : Text} {eof : Token} {ts : List Token} {b : Grammar.Body}
    {ss : List Statement} {n : Nat} (ho : Token.Ordered s ts)
    (h : Grammar.statementsFrom s eof b ts = some (ss, n)) (hb : ∀ t ∈ ts, b.start ≤ t.start) :
    ∃ t, ts[n]? = some t ∧ Pieces s (ss.map Statement.text) b.start t.start := by
  induction ts generalizing b ss n with
  | nil => cases h
  | cons t ts ih =>
    obtain ⟨-, hots, hnext⟩ := Token.Ordered.append_iff.mp (show Token.Ordered s ([t] ++ ts) from ho)
    replace hnext : ∀ u ∈ ts, t.stop ≤ u.start := hnext t (by simp)
    have ht := hb t (by simp)
    have hlt := (ho.inside t (by simp)).1
    simp only [Grammar.statementsFrom] at h
    split_ifs at h
    · cases h
      refine ⟨t, rfl, ?_⟩
      have hend : Pieces s [] t.start t.start := le_refl t.start
      simpa using hend.statementBetween ht
    · obtain ⟨⟨rest, m⟩, hrest, h⟩ := Option.map_eq_some_iff.mp h
      cases h
      obtain ⟨u, us, rfl⟩ : ∃ u us, ts = u :: us := by
        cases ts with
        | nil => cases hrest
        | cons u us => exact ⟨u, us, rfl⟩
      have hu : ∀ v ∈ u :: us, u.start ≤ v.start := by
        intro v hv
        rcases List.mem_cons.mp hv with rfl | hv
        · exact le_rfl
        · have := (hots.inside u (by simp)).1
          have := (List.pairwise_cons.mp hots.pairwise).1 v hv
          omega
      obtain ⟨z, hz, hpieces⟩ := ih hots hrest hu
      refine ⟨z, by simpa using hz, ?_⟩
      rw [List.map_append]
      exact (hpieces.mono_left (hlt.le.trans (hnext u (by simp)))).statementBetween ht
    · obtain ⟨⟨rest, m⟩, hrest, h⟩ := Option.map_eq_some_iff.mp h
      cases h
      obtain ⟨z, hz, hpieces⟩ := ih hots hrest fun u hu => hlt.le.trans (hnext u hu)
      refine ⟨z, by simpa using hz, ?_⟩
      rw [List.map_append]
      exact Pieces.statementBetween ht hpieces
    · obtain ⟨⟨rest, m⟩, hrest, h⟩ := Option.map_eq_some_iff.mp h
      cases h
      obtain ⟨z, hz, hpieces⟩ := ih hots hrest fun u hu => hb u (by simp [hu])
      exact ⟨z, by simpa using hz, hpieces⟩

/-- Nodes, a body of pieces and the brace behind it make a closure. -/
theorem Cursor.Holds.shows_closure {c c₁ c₂ : Cursor} {ns : List Node} {pieces : List Text}
    (hs : c.Sound) (h : c.Holds ns c₁) (hlt : c.peek.start < c₁.edge) (hl : c₁.Leads c₂)
    (he : c₂.peek.kind ≠ .eof) (hp : Pieces c₂.source pieces c₁.edge c₂.peek.start) :
    c.Shows ⟨(c₂.advance 1).sliceFrom c.peek, none, ns, pieces⟩ (c₂.advance 1) := by
  obtain ⟨hl₁, head, hhead, hhold⟩ := h
  obtain ⟨body, hbody⟩ := hl.behind
  have hl₃ := hl.sound.advance 1
  have hlt₃ : c.peek.start < (c₂.advance 1).edge := hlt.trans_le (hl.trans hl₃).edge_le
  have hts : (c₂.advance 1).behind = (head ++ body.reverse ++ [c₂.peek]).reverse ++ c.behind := by
    rw [hl.sound.behind_advance he, ← hbody, hhead]
    simp
  refine ⟨⟨(hl₁.trans hl).trans hl₃, _, hts, ?_⟩, hlt₃⟩
  rw [sliceFrom_eq rfl hlt₃, ← ((hl₁.trans hl).trans hl₃).cover_taken hts hs]
  refine .closure ?_ (hl₁.extent_taken hhead (hs.taken_ne_nil hhead hlt)) hp
  rw [← hl.source] at hhold
  exact hhold

namespace Grammar

variable {g : Grammar} {c c' : Cursor} (hg : g.Verbatim) (hs : c.Sound)
include hg hs

section Signatures

theorem captureClause_shows (hk : c.peek.isSymbol "[" = true) :
    Spec g.captureClause c fun k c' => c.Shows k.node c' := by
  refine Spec.current_bind (Spec.bind (Spec.bracketed_holds (f := Capture.node) hs hk
    fun c₁ hl₁ => Spec.current_bind ?_) fun items c₁ hl₁ ⟨hitems, hlt⟩ => Spec.sliceFrom_bind ?_)
  · refine Spec.bind (captureSpecifier_spec hl₁.sound) fun specifier c₂ hl₂ _ => ?_
    refine Spec.bind (captureName_spec hl₂.sound) fun name c₃ hl₃ _ => ?_
    refine Spec.bind (hg.expressions c₃ hl₃.sound) fun e c₄ hl₄ he => Spec.sliceFrom_bind ?_
    have hl := hl₂.trans hl₃
    exact Spec.pure hl₄.sound ((hl.ahead he.holds).shows hl₁.sound
      ((hl.peek_le hl₁.sound).trans_lt he.lt)).holds
  · rw [← Capture.nodes_eq] at hitems
    exact Spec.pure hl₁.sound (hitems.shows hs hlt)

theorem closureParameter_shows : Spec g.closureParameter c fun p c' => c.Shows p.node c' := by
  refine Spec.current_bind ?_
  extract_lets jp jp'
  refine Spec.ite (fun _ => Spec.fail hs) fun hk => Spec.consume_bind hs (Spec.current_bind ?_)
  have heof : c.peek.kind ≠ .eof := by simp_all
  have hl₁ := hs.advance 1
  have hjp : ∀ name c₂, (c.advance 1).Leads c₂ → Spec (jp name) c₂ fun p c' => c.Shows p.node c' := by
    intro name c₂ hl₂
    refine Spec.current_bind ?_
    extract_lets jp'
    refine Spec.ite (fun _ => ?_) fun _ => ?_
    · have hl₃ := hl₂.sound.advance 1
      refine Spec.skip_bind hl₂.sound (Spec.bind (hg.types _ hl₃.sound) fun T c₄ hl₄ hT => ?_)
      refine Spec.bind (skipEllipsis_spec hl₄.sound) fun _ c₅ hl₅ _ => Spec.pure_bind ?_
      exact Spec.sliceFrom_bind (Spec.pure hl₅.sound
        ((((hl₁.trans hl₂).trans hl₃).ahead (hT.holds.lead hl₅)).shows hs
          (hs.peek_lt heof ((hl₂.trans hl₃).trans (hl₄.trans hl₅)))))
    · exact Spec.pure_bind (Spec.sliceFrom_bind (Spec.pure hl₂.sound
        ((hl₁.trans hl₂).holds.shows hs (hs.peek_lt heof hl₂))))
  refine Spec.ite (fun _ => ?_) fun _ => Spec.pure_bind (hjp _ _ hl₁.sound.refl)
  exact Spec.consume_bind hl₁.sound (Spec.pure_bind (hjp _ _ (hl₁.sound.advance 1)))

theorem closureParameters_holds : Spec g.closureParameters c fun o c' =>
    c.Holds (o.map ParameterClause.node).toList c' := by
  refine Spec.current_bind (Spec.ite (fun hk => ?_) fun _ => Spec.ite (fun hk => ?_) fun _ =>
    Spec.pure hs hs.refl.holds)
  · refine Spec.bind (Spec.bracketed_holds (f := ClosureParameter.node) hs hk fun c₁ hl₁ =>
      (closureParameter_shows hg hl₁.sound).mono fun _ _ _ h => h.holds) ?_
    intro ps c₁ hl₁ ⟨hps, hlt⟩
    exact Spec.sliceFrom_bind (Spec.pure hl₁.sound (hps.shows hs hlt).holds)
  · have hk : c.peek.kind = .identifier := by
      simp only [Bool.and_eq_true, beq_iff_eq] at hk
      exact hk.1.1
    refine Spec.bind (shorthandNames_spec hs hk) fun names c₁ hl₁ hlt => ?_
    exact Spec.sliceFrom_bind (Spec.pure hl₁.sound (hl₁.holds.shows hs hlt).holds)

theorem returnClause_holds : Spec g.returnClause c fun o c' =>
    c.Holds (o.map ReturnClause.node).toList c' := by
  refine Spec.current_bind (Spec.ite (fun _ => ?_) fun _ => Spec.pure hs hs.refl.holds)
  have hl₁ := hs.advance 1
  refine Spec.skip_bind hs (Spec.bind (hg.types _ hl₁.sound) fun T c₂ hl₂ hT => Spec.sliceFrom_bind ?_)
  exact Spec.pure hl₂.sound
    ((hl₁.ahead hT.holds).shows hs ((hl₁.peek_le hs).trans_lt hT.lt)).holds

theorem closureSignature_shows : Spec g.closureSignature c fun s c' => c.Shows s.node c' := by
  refine Spec.current_bind (Spec.bind (attributesRule_holds hg hs) fun as c₁ hl₁ _ => ?_)
  refine Spec.current_bind ?_
  extract_lets jp
  have hjp : ∀ (capture : Option CaptureClause) (c₂ : Cursor),
      c₁.Holds (capture.map CaptureClause.node).toList c₂ → Spec (jp capture) c₂ fun s c' => c.Shows s.node c' := by
    intro capture c₂ hcapture
    refine Spec.bind (closureParameters_holds hg hcapture.leads.sound) fun ps c₃ hl₃ hps => ?_
    refine Spec.bind (effects_spec hl₃.sound) fun fx c₄ hl₄ _ => ?_
    refine Spec.bind (returnClause_holds hg hl₄.sound) fun r c₅ hl₅ hr => ?_
    refine Spec.current_bind (Spec.ite (fun hin => ?_) fun _ => Spec.fail hl₅.sound)
    have hk := Token.kind_of_isIdentifierIn hin
    have hl₆ := hl₅.sound.advance 1
    have hlt : c.peek.start < (c₅.advance 1).edge := by
      have hle := (((hl₁.trans hcapture.leads).trans hl₃).trans (hl₄.trans hl₅)).peek_le hs
      exact hle.trans_lt (hl₅.sound.peek_lt (by simp [hk]) hl₆.sound.refl)
    refine Spec.skip_bind hl₅.sound (Spec.sliceFrom_bind (Spec.pure hl₆.sound ?_))
    rw [Signature.node_eq]
    exact (hl₁.ahead ((hcapture.trans (hps.lead hl₄)).trans (hr.lead hl₆))).shows hs hlt
  refine Spec.ite (fun hk => ?_) fun _ => Spec.pure_bind (hjp none c₁ hl₁.sound.refl.holds)
  exact Spec.bind (captureClause_shows hg hl₁.sound hk) fun k c₂ _ h =>
    Spec.pure_bind (hjp (some k) c₂ h.holds)

end Signatures

section Closures

omit hg in
/-- Splitting a body finds pieces of the source up to the closing brace. -/
theorem statements_pieces (hb : c.behind ≠ []) : Spec statements c fun ss c' =>
    Pieces c'.source (ss.map Statement.text) c.edge c'.peek.start := by
  refine Spec.get_bind ?_
  rw [Cursor.previous_stop hb]
  extract_lets stop start
  cases hss : statementsFrom c.source c.eof { start } c.ahead with
  | none => exact Spec.skip_bind hs (Spec.fail (hs.advance _).sound)
  | some r =>
    obtain ⟨ss, n⟩ := r
    refine Spec.skip_bind hs (Spec.pure (hs.advance n).sound ?_)
    have ho : Token.Ordered c.source c.ahead :=
      (Token.Ordered.append_iff.mp hs.arranged.ordered).2.1
    obtain ⟨t, ht, hpieces⟩ := statementsFrom_pieces ho hss hs.bodyStart_le
    have hpeek : (c.advance n).peek = t := by
      rw [show (c.advance n).peek = c.peek n from c.peek_advance n 0, Cursor.peek, ht]
      rfl
    rw [hpeek]
    exact hpieces.mono_left (Nat.le_add_right _ _)

theorem closureRule_shows : Spec g.closureRule c fun k c' => c.Shows k.node c' := by
  refine Spec.expect_bind hs fun hopening => ?_
  have hk := hs.kind_of_reads (m := '\x7b') rfl hopening
  have heof : c.peek.kind ≠ .eof := by simp [hk]
  have hl₁ := hs.advance 1
  refine Spec.bind (Spec.attempt (closureSignature_shows hg hl₁.sound)) fun signature c₂ hl₂ hsig => ?_
  have hlt := hs.peek_lt heof hl₂
  refine Spec.bind (statements_pieces hl₂.sound (Cursor.behind_ne_nil_of_edge (by omega))) ?_
  intro ss c₃ hl₃ hpieces
  refine Spec.expect_bind hl₃.sound fun hclosing => Spec.sliceFrom_bind
    (Spec.pure (hl₃.sound.advance 1).sound ?_)
  have hk₃ := hl₃.sound.kind_of_reads (m := '\x7d') rfl hclosing
  have hholds : c.Holds (signature.map Signature.node).toList c₂ := by
    cases signature with
    | none => exact (hl₁.trans hl₂).holds
    | some s => exact hl₁.ahead (hsig.1 s rfl).holds
  rw [Closure.node_eq]
  exact hholds.shows_closure hs hlt hl₃ (by simp [hk₃]) hpieces

theorem trailingClosure_holds : Spec g.trailingClosure c fun o c' =>
    c.Holds (o.map Closure.node).toList c' := by
  refine Spec.get_bind (Spec.ite (fun _ => ?_) fun _ => Spec.pure hs hs.refl.holds)
  exact Spec.bind (closureRule_shows hg hs) fun k c₁ hl₁ hk => Spec.pure hl₁.sound hk.holds

theorem expansionRule_shows : Spec g.expansionRule c fun e c' => c.Shows e.node c' := by
  have hl₁ := hs.advance 1
  refine Spec.consume_bind hs ?_
  extract_lets jp
  refine Spec.ite (fun _ => Spec.throw hl₁.sound) fun hk => Spec.get_bind ?_
  have heof : c.peek.kind ≠ .eof := by simp_all
  refine Spec.whether (Q := fun _ => True) hl₁.sound (fun _ => ?_) (fun _ => trivial) ?_
  · exact (Spec.attempt (specializationClause_spec hg.toReliable hl₁.sound)).lead
  intro c₂ hl₂ _
  have hjp : ∀ arguments c₃, c₂.Holds (Argument.nodes arguments) c₃ →
      Spec (jp arguments) c₃ fun e c' => c.Shows e.node c' := by
    intro arguments c₃ harguments
    have hl₃ := harguments.leads
    refine Spec.bind (trailingClosure_holds hg hl₃.sound) fun trailing c₄ hl₄ htrailing => ?_
    have hlt := hs.peek_lt heof (hl₂.trans (hl₃.trans hl₄))
    refine Spec.sliceFrom_bind (Spec.get_bind (Spec.pure hl₄.sound ?_))
    have hshows := ((hl₁.trans hl₂).ahead (harguments.trans htrailing)).shows_at hs hlt
    rw [← Cursor.previous_stop (Cursor.behind_ne_nil_of_edge (by omega))] at hshows
    rw [MacroExpansion.node_eq]
    exact hshows
  refine Spec.current_bind (Spec.ite (fun hparen => ?_) fun _ =>
    Spec.pure_bind (hjp [] _ hl₂.sound.refl.holds))
  simp only [Bool.and_eq_true] at hparen
  exact Spec.bind (arguments_holds hg hl₂.sound hparen.1) fun as c₃ _ has => hjp as c₃ has.1

end Closures

end Grammar

end SwiftMacros
