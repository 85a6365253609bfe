import Mathlib
import SwiftMacros.Proofs.Grammar.Relaid

/-! Splitting a body again once it has been laid out. A statement that started behind a semicolon can be
joined to the one before it then, but no new statement starts where none did. -/

namespace SwiftMacros

open Token (Matched Alike dropSeparators)

/-- The source from `a` to the closing brace at `z` is divided into statements, and all but the first start
at an offset in `A`. -/
inductive Divided (s : Text) (A : Nat → Prop) : Nat → List Statement → Nat → Prop
  | last {a z : Nat} : a ≤ z → Divided s A a (Grammar.statementBetween s a z) z
  | next {a b z : Nat} {ss : List Statement} : a ≤ b → A b → Divided s A b ss z →
      Divided s A a (Grammar.statementBetween s a b ++ ss) z

namespace Grammar

variable {s t : Text} {eof eof' e e' : Token} {U U' Y : List Token} {b b' : Body} {A A' : Nat → Prop}
  {front : Nat} {ss : List Statement}

/-- A token that continues a statement still does if it is followed by one with space in front. -/
theorem continuesStatement_alike {l l' u u' next next' : Token} (hl : Alike l l') (hu : Alike u u')
    (hspace : next.spaceBefore = true → next'.spaceBefore = true) (h : continuesStatement l u next = true) :
    continuesStatement l' u' next' = true := by
  have hoperator : u.kind = .operator → u'.text = u.text := fun hk => hu.text (by simp [hk])
  simp only [continuesStatement, Bool.or_eq_true, Bool.and_eq_true, hl.kind, hl.isSymbolIn, hu.kind,
    hu.isIdentifierIn] at h ⊢
  refine h.imp_right fun ⟨⟨hk, htext⟩, hnext⟩ => ⟨⟨hk, ?_⟩, hspace hnext⟩
  rwa [hoperator (beq_iff_eq.mp hk)]

theorem Body.take_alike (hb : b'.depth = b.depth) {u u' : Token} (hu : Alike u u') :
    (b'.take u').depth = (b.take u).depth := by
  simp only [Body.take, hu.isOpener, hu.isCloser, hb]

theorem not_brace_of_semicolon {u : Token} (h : u.isSymbol ";" = true) : u.isSymbol "\x7d" = false := by
  simp only [Token.isSymbol, Token.has, Bool.and_eq_true, beq_iff_eq] at h
  simp [Token.isSymbol, Token.has, h.1, h.2]

/-- The first token behind separators starts a statement. -/
theorem starts_dropSeparators (hU : ∀ p ∈ starts eof b (U ++ e :: Y), A p) :
    ∀ v ∈ (dropSeparators b.depth U).head?, U.head? = some v ∨ A v.start := by
  induction U generalizing b with
  | nil => simp [dropSeparators]
  | cons u us ih =>
    intro v hv
    rw [dropSeparators] at hv
    split at hv
    next hsemicolon =>
      have hclose : ¬ (b.depth = 0 ∧ u.isSymbol "\x7d" = true) := fun h => by
        simp [not_brace_of_semicolon hsemicolon.2] at h
      simp only [List.cons_append, starts, if_neg hclose, if_pos hsemicolon, List.forall_mem_cons] at hU
      rcases ih hU.2 v hv with hhead | hA
      · obtain ⟨vs, rfl⟩ := List.head?_eq_some_iff.mp hhead
        exact .inr hU.1
      · exact .inr hA
    next =>
      exact .inl hv

/-- The laid out body is divided at no token that did not start a statement before. In a body that has been
read up to some token, the last token is the same, or the next one starts a statement. -/
theorem statementsFrom_rejoined (he : e'.isSymbol "\x7d" = true ∧ e'.spaceBefore = true)
    (h : statementsFrom s eof b (U ++ e :: Y) = some (ss, U.length)) (hA : ∀ p ∈ starts eof b (U ++ e :: Y), A p)
    (hU : (dropSeparators b.depth U).Forall₂ (Matched A A' front) U') (hdepth : b'.depth = b.depth)
    (hlast : b'.hasToken = true → (b.hasToken = true ∧ Alike b.last b'.last) ∨ ∀ u ∈ U.head?, A u.start)
    (hfront : ∀ u ∈ U.tail, front ≤ u.start) (hfront' : b'.hasToken = true → ∀ u ∈ U.head?, front ≤ u.start)
    (hle : ∀ u ∈ U' ++ [e'], b'.start ≤ u.start)
    (horder : (U' ++ [e']).Pairwise fun u v => u.start ≤ v.start) :
    ∃ ss', statementsFrom t eof' b' (U' ++ [e']) = some (ss', U'.length) ∧ Divided t A' b'.start ss' e'.start := by
  induction U generalizing b b' ss U' with
  | nil =>
    cases hU
    have hclose : b.depth = 0 := by
      by_contra hdepth
      simp only [List.nil_append, statementsFrom, hdepth, false_and, if_false, List.length_nil] at h
      split at h
      · obtain ⟨p, -, hp⟩ := Option.map_eq_some_iff.mp h
        cases hp
      · obtain ⟨p, -, hp⟩ := Option.map_eq_some_iff.mp h
        cases hp
    refine ⟨_, ?_, .last (hle e' (by simp))⟩
    rw [List.nil_append, statementsFrom, if_pos ⟨hdepth.trans hclose, he.1⟩]
    rfl
  | cons u us ih =>
    have hclose : ¬ (b.depth = 0 ∧ u.isSymbol "\x7d" = true) := fun hclose => by
      rw [List.cons_append, statementsFrom, if_pos hclose] at h
      cases h
    by_cases hsemicolon : b.depth = 0 ∧ u.isSymbol ";" = true
    · -- the next token starts a statement
      rw [List.cons_append, statementsFrom, if_neg hclose, if_pos hsemicolon] at h
      obtain ⟨⟨rest, m⟩, hrest, h⟩ := Option.map_eq_some_iff.mp h
      cases h
      simp only [List.cons_append, starts, if_neg hclose, if_pos hsemicolon, List.forall_mem_cons] at hA
      rw [dropSeparators, if_pos hsemicolon] at hU
      refine ih hrest hA.2 hU hdepth (fun _ => .inr fun v hv => ?_) (fun v hv => hfront v (List.mem_of_mem_tail hv))
        (fun _ v hv => hfront v (List.mem_of_mem_head? hv)) hle horder
      obtain ⟨vs, rfl⟩ := List.head?_eq_some_iff.mp hv
      exact hA.1
    · rw [dropSeparators, if_neg hsemicolon] at hU
      obtain ⟨u', us', hu, hus, rfl⟩ := List.forall₂_cons_left_iff.mp hU
      generalize hnext : (us ++ e :: Y).head?.getD eof = next at *
      generalize hnext' : (us' ++ [e']).head?.getD eof' = next'
      -- what the first run goes on with
      obtain ⟨b₁, ss₁, hb₁, hrest, hA₁, hstart⟩ : ∃ b₁ ss₁, (b₁.depth = (b.take u).depth ∧ b₁.hasToken = true ∧ b₁.last = u) ∧
          statementsFrom s eof b₁ (us ++ e :: Y) = some (ss₁, us.length) ∧
          (∀ p ∈ starts eof b₁ (us ++ e :: Y), A p) ∧ (b.endsBefore u next = true → A u.start) := by
        simp only [List.cons_append, statementsFrom, if_neg hclose, if_neg hsemicolon, hnext] at h
        simp only [List.cons_append, starts, if_neg hclose, if_neg hsemicolon, hnext] at hA
        split at h
        next hends =>
          rw [if_pos hends, List.forall_mem_cons] at hA
          obtain ⟨⟨rest, m⟩, hrest, h⟩ := Option.map_eq_some_iff.mp h
          cases h
          exact ⟨{ b with start := u.start }.take u, rest, ⟨rfl, rfl, rfl⟩, hrest, hA.2, fun _ => hA.1⟩
        next hends =>
          rw [if_neg hends] at hA
          obtain ⟨⟨rest, m⟩, hrest, h⟩ := Option.map_eq_some_iff.mp h
          cases h
          exact ⟨b.take u, rest, ⟨rfl, rfl, rfl⟩, hrest, hA, fun h => absurd h hends⟩
      have hspace : next.spaceBefore = true → next'.spaceBefore = true := by
        intro hspace
        subst hnext'
        cases us' with
        | nil => exact he.2
        | cons v' vs' =>
          obtain ⟨v, vs, hv, -, hvs⟩ := List.forall₂_cons_right_iff.mp hus
          by_cases hAv : A v.start
          · exact (hv.opens hAv).2.2
          · have hhead := (starts_dropSeparators hA₁ v (by rw [hb₁.1]; exact congrArg List.head? hvs)).resolve_right hAv
            obtain ⟨ws, rfl⟩ := List.head?_eq_some_iff.mp hhead
            subst hnext
            exact (hv.gap hAv (hfront v (by simp))).2.trans hspace
      have hends : b'.endsBefore u' next' = true → A' u'.start := by
        intro hends'
        by_contra hA'
        have hAu : ¬ A u.start := fun hAu => hA' (hu.opens hAu).1
        simp only [Body.endsBefore, Bool.and_eq_true, beq_iff_eq, Bool.not_eq_true', hdepth] at hends' hstart
        obtain ⟨⟨⟨hd, htoken⟩, hnew⟩, hcontinues⟩ := hends'
        obtain ⟨htoken', hlike⟩ := (hlast htoken).resolve_right fun hall => hAu (hall u rfl)
        rw [(hu.gap hAu (hfront' htoken u rfl)).1] at hnew
        refine hAu (hstart ⟨⟨⟨hd, htoken'⟩, hnew⟩, ?_⟩)
        by_contra hgoes
        simp [continuesStatement_alike hlike hu.toAlike hspace (by simpa using hgoes)] at hcontinues
      have ih' : ∀ b₁' : Body, b₁'.depth = (b'.take u').depth → b₁'.last = u' →
          (∀ v ∈ us' ++ [e'], b₁'.start ≤ v.start) → ∃ ss', statementsFrom t eof' b₁' (us' ++ [e']) = some (ss', us'.length) ∧
            Divided t A' b₁'.start ss' e'.start := by
        intro b₁' hdepth₁ hlast₁ hle₁
        have hdepth' : b₁'.depth = b₁.depth := by rw [hdepth₁, hb₁.1, Body.take_alike hdepth hu.toAlike]
        refine ih hrest hA₁ ?_ hdepth' (fun _ => .inl ⟨hb₁.2.1, ?_⟩) (fun v hv => hfront v (List.mem_of_mem_tail hv))
          (fun _ v hv => hfront v (List.mem_of_mem_head? hv)) hle₁ (List.pairwise_cons.mp horder).2
        · rw [hb₁.1]
          exact hus
        · rw [hb₁.2.2, hlast₁]
          exact hu.toAlike
      have hclose' : ¬ (b'.depth = 0 ∧ u'.isSymbol "\x7d" = true) := by rwa [hdepth, hu.isSymbol]
      have hsemicolon' : ¬ (b'.depth = 0 ∧ u'.isSymbol ";" = true) := by rwa [hdepth, hu.isSymbol]
      simp only [List.cons_append, statementsFrom, if_neg hclose', if_neg hsemicolon', hnext']
      split
      next hends' =>
        obtain ⟨rest, hrest', hdivided⟩ := ih' ({ b' with start := u'.start }.take u') rfl rfl
          (List.pairwise_cons.mp horder).1
        exact ⟨_, by rw [hrest']; rfl, .next (hle u' (by simp)) (hends hends') hdivided⟩
      next =>
        obtain ⟨rest, hrest', hdivided⟩ := ih' (b'.take u') rfl rfl fun v hv => hle v (by simp [hv])
        exact ⟨rest, by rw [hrest']; rfl, hdivided⟩

end Grammar

end SwiftMacros
