import SwiftMacros.Proofs.Parser.Spec

/-! When a parser answers. An answer of a rule is made of answers of its parts, and if the parts answer
so does the rule; so each equation below can be read both ways, as what a reading consists of and as
how to make one. Loops answer after as many rounds as their items give. -/

namespace SwiftMacros.Parser

variable {α β σ : Type} {a : α} {b : β} {c c' : Cursor} {p q : Parser α} {f : α → Parser β}

section Steps

theorem bind_eq_ok : (p >>= f) c = .ok b c' ↔ ∃ a c₁, p c = .ok a c₁ ∧ f a c₁ = .ok b c' :=
  ⟨of_bind_ok, fun ⟨_, _, h, h'⟩ => (bind_of_ok h).trans h'⟩

theorem pure_eq_ok {a' : α} : (pure a : Parser α) c = .ok a' c' ↔ a = a' ∧ c = c' := by
  simp only [pure, EStateM.pure, EStateM.Result.ok.injEq]

theorem pure_bind_eq_ok : (pure a >>= f) c = .ok b c' ↔ f a c = .ok b c' := by
  rw [pure_bind]

theorem throw_eq_ok {e : SyntaxError} : (throw e : Parser α) c = .ok a c' ↔ False :=
  ⟨fun h => (by cases h), False.elim⟩

theorem fail_eq_ok {w : Wanted} : (fail w : Parser α) c = .ok a c' ↔ False :=
  ⟨fun h => (by cases h), False.elim⟩

theorem fail_bind_eq_ok {w : Wanted} : (fail w >>= f) c = .ok b c' ↔ False :=
  ⟨fun h => (by cases h), False.elim⟩

theorem ite_eq_ok {P : Prop} [Decidable P] :
    (if P then p else q) c = .ok a c' ↔ P ∧ p c = .ok a c' ∨ ¬ P ∧ q c = .ok a c' := by
  split <;> simp [*]

theorem get_bind_eq_ok {f : Cursor → Parser β} : (get >>= f) c = .ok b c' ↔ f c c = .ok b c' := Iff.rfl

theorem current_bind_eq_ok {f : Token → Parser β} :
    (current >>= f) c = .ok b c' ↔ f c.peek c = .ok b c' := Iff.rfl

theorem sliceFrom_bind_eq_ok {t : Token} {f : Text → Parser β} :
    (sliceFrom t >>= f) c = .ok b c' ↔ f (c.sliceFrom t) c = .ok b c' := Iff.rfl

theorem consume_bind_eq_ok {f : Token → Parser β} :
    (consume >>= f) c = .ok b c' ↔ f c.peek (c.advance 1) = .ok b c' := Iff.rfl

theorem skip_bind_eq_ok {n : Nat} {f : Unit → Parser β} :
    (skip n >>= f) c = .ok b c' ↔ f () (c.advance n) = .ok b c' := Iff.rfl

theorem skip_eq_ok {n : Nat} {u : Unit} : skip n c = .ok u c' ↔ c.advance n = c' := by
  simp [skip, modify, modifyGet, MonadStateOf.modifyGet, EStateM.modifyGet]

theorem expect_eq_ok {text : Text} {t : Token} :
    expect text c = .ok t c' ↔ c.peek.reads text = true ∧ c.peek = t ∧ c.advance 1 = c' := by
  rw [expect, get_bind_eq_ok, ite_eq_ok]
  simp only [throw_eq_ok, and_false, or_false]
  exact and_congr_right fun _ => pure_eq_ok

theorem expect_bind_eq_ok {text : Text} {f : Token → Parser β} :
    (expect text >>= f) c = .ok b c' ↔
      c.peek.reads text = true ∧ f c.peek (c.advance 1) = .ok b c' := by
  simp only [bind_eq_ok, expect_eq_ok]
  exact ⟨fun ⟨_, _, ⟨hr, rfl, rfl⟩, h⟩ => ⟨hr, h⟩, fun ⟨hr, h⟩ => ⟨_, _, ⟨hr, rfl, rfl⟩, h⟩⟩

theorem consumePart_eq_ok {n : Nat} {t : Token} : consumePart n c = .ok t c' ↔
    (c.splitOperator n).peek = t ∧ (c.splitOperator n).advance 1 = c' := pure_eq_ok

theorem consumePart_bind_eq_ok {n : Nat} {f : Token → Parser β} : (consumePart n >>= f) c = .ok b c' ↔
    f (c.splitOperator n).peek ((c.splitOperator n).advance 1) = .ok b c' := Iff.rfl

theorem consumeOperator_bind_eq_ok {text : String} {f : Token → Parser β} :
    (consumeOperator text >>= f) c = .ok b c' ↔ c.peek.isOperatorWith text = true ∧
      f (c.splitOperator text.length).peek ((c.splitOperator text.length).advance 1) = .ok b c' := by
  rw [consumeOperator]
  simp only [bind_eq_ok (p := current >>= _), current_bind_eq_ok, ite_eq_ok, fail_eq_ok, and_false,
    or_false, consumePart_eq_ok]
  exact ⟨fun ⟨_, _, ⟨hr, rfl, rfl⟩, h⟩ => ⟨hr, h⟩, fun ⟨hr, h⟩ => ⟨_, _, ⟨hr, rfl, rfl⟩, h⟩⟩

theorem attempt_eq_some : attempt p c = .ok (some a) c' ↔ p c = .ok a c' := by
  rw [attempt]
  cases p c <;> simp

theorem attempt_eq_none :
    attempt p c = .ok none c' ↔ ∃ e c₁, p c = .error e c₁ ∧ c₁.rewind c.position = c' := by
  rw [attempt]
  cases p c <;> simp

end Steps

section Loops

/-- The items that a loop gives on its way from one cursor to another. -/
inductive Rounds (item : Parser (Option α)) : Cursor → List α → Cursor → Prop
  | stop {c c' : Cursor} : item c = .ok none c' → Rounds item c [] c'
  | round {c c₁ c' : Cursor} {a : α} {as : List α} : item c = .ok (some a) c₁ →
      Rounds item c₁ as c' → Rounds item c (a :: as) c'

/-- The values that a loop goes through on its way from one cursor to another. -/
inductive Steps (step : σ → Parser (Option σ)) : Nat → σ → Cursor → σ → Cursor → Prop
  | stop {s : σ} {c c' : Cursor} : step s c = .ok none c' → Steps step 0 s c s c'
  | step {n : Nat} {s s₁ s' : σ} {c c₁ c' : Cursor} : step s c = .ok (some s₁) c₁ →
      Steps step n s₁ c₁ s' c' → Steps step (n + 1) s c s' c'

theorem collectWithin_eq_ok {item : Parser (Option α)} {n : Nat} {as : List α} :
    collectWithin item n c = .ok as c' ↔ Rounds item c as c' ∧ as.length < n := by
  induction n generalizing c as with
  | zero => exact ⟨fun h => (by cases h), fun h => absurd h.2 (Nat.not_lt_zero _)⟩
  | succ n ih =>
    rw [collectWithin, bind_eq_ok]
    constructor
    · rintro ⟨o, c₁, ho, h⟩
      cases o with
      | none =>
        obtain ⟨rfl, rfl⟩ := pure_eq_ok.mp h
        exact ⟨.stop ho, Nat.succ_pos n⟩
      | some a =>
        obtain ⟨as, c₂, has, h⟩ := bind_eq_ok.mp h
        obtain ⟨rfl, rfl⟩ := pure_eq_ok.mp h
        obtain ⟨hrounds, hlt⟩ := ih.mp has
        exact ⟨.round ho hrounds, by simpa using hlt⟩
    · rintro ⟨hrounds, hlt⟩
      cases hrounds with
      | stop ho => exact ⟨none, _, ho, rfl⟩
      | round ho hrounds =>
        refine ⟨some _, _, ho, bind_eq_ok.mpr ⟨_, _, ih.mpr ⟨hrounds, by simpa using hlt⟩, rfl⟩⟩

theorem collect_eq_ok {item : Parser (Option α)} {as : List α} :
    collect item c = .ok as c' ↔ Rounds item c as c' ∧ as.length ≤ c.room := by
  rw [collect, get_bind_eq_ok, collectWithin_eq_ok, Nat.lt_succ_iff]

/-- What holds at the start of a loop, and behind each item that is read where it holds, holds at the
end as well; and no more items are asked for there. -/
theorem of_collectWhile {more : Cursor → Bool} {item : Parser α} {as : List α}
    {I : List α → Cursor → Prop} (h : collectWhile more item c = .ok as c') (hc : I [] c)
    (hitem : ∀ as c a c', I as c → more c = true → item c = .ok a c' → I (as ++ [a]) c') :
    I as c' ∧ more c' = false := by
  have hrounds : ∀ {c c' : Cursor} {as bs : List α}, Rounds (get >>= fun c => if more c = true then
      item >>= fun a => pure (some a) else pure none) c as c' → I bs c → I (bs ++ as) c' ∧ more c' = false := by
    intro c c' as bs hr hb
    induction hr generalizing bs with
    | stop ho =>
      obtain ⟨hm, h⟩ | ⟨hm, h⟩ := ite_eq_ok.mp (get_bind_eq_ok.mp ho)
      · obtain ⟨a, c₁, -, h⟩ := bind_eq_ok.mp h
        cases (pure_eq_ok.mp h).1
      · obtain ⟨-, rfl⟩ := pure_eq_ok.mp h
        exact ⟨by rwa [List.append_nil], by simpa using hm⟩
    | @round c c₁ c' a as ho _ ih =>
      obtain ⟨hm, h⟩ | ⟨-, h⟩ := ite_eq_ok.mp (get_bind_eq_ok.mp ho)
      · obtain ⟨a', c₂, ha, h⟩ := bind_eq_ok.mp h
        obtain ⟨ha', rfl⟩ := pure_eq_ok.mp h
        obtain rfl := Option.some.inj ha'
        simpa using ih (hitem _ _ _ _ hb hm ha)
      · cases (pure_eq_ok.mp h).1
  exact hrounds (collect_eq_ok.mp h).1 hc

theorem extendWithin_eq_ok {step : σ → Parser (Option σ)} {n : Nat} {s s' : σ} :
    extendWithin step n s c = .ok s' c' ↔ ∃ m < n, Steps step m s c s' c' := by
  induction n generalizing c s with
  | zero => exact ⟨fun h => (by cases h), fun ⟨m, h, _⟩ => absurd h (Nat.not_lt_zero _)⟩
  | succ n ih =>
    rw [extendWithin, bind_eq_ok]
    constructor
    · rintro ⟨o, c₁, ho, h⟩
      cases o with
      | none =>
        obtain ⟨rfl, rfl⟩ := pure_eq_ok.mp h
        exact ⟨0, Nat.succ_pos n, .stop ho⟩
      | some s₁ =>
        obtain ⟨m, hm, hsteps⟩ := ih.mp h
        exact ⟨m + 1, by omega, .step ho hsteps⟩
    · rintro ⟨m, hm, hsteps⟩
      cases hsteps with
      | stop ho => exact ⟨none, _, ho, rfl⟩
      | step ho hsteps => exact ⟨some _, _, ho, ih.mpr ⟨_, by omega, hsteps⟩⟩

theorem extend_eq_ok {step : σ → Parser (Option σ)} {s s' : σ} :
    extend step s c = .ok s' c' ↔ ∃ n ≤ c.room, Steps step n s c s' c' := by
  simp only [extend, get_bind_eq_ok, extendWithin_eq_ok, Nat.lt_succ_iff]

end Loops

end SwiftMacros.Parser
