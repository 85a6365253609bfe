import Mathlib
import SwiftMacros.Proofs.Cursor.Room
import SwiftMacros.Proofs.Grammar.Reading

/-! Parsers that come to an end. Two parsers are compared that differ in what they read nested parts
with. As long as there is not more room ahead than they are good for, they do the same, and neither
fails because it has run out of rounds or levels. That is a matter of tokens taken: each round of a
loop takes one, so there is room enough for all rounds, and nested parts stand behind one, where there
is less room. -/

namespace SwiftMacros.Parser

variable {α β σ : Type}

/-- At `c` both parsers do the same. They read on, and fail only for what they read; `Q` holds of their
answers. -/
def Halts (p q : Parser α) (c : Cursor) (Q : α → Cursor → Prop) : Prop :=
  q c = p c ∧ match p c with
    | .ok a c' => c.Onward c' ∧ Q a c'
    | .error e c' => c.Onward c' ∧ e.fault ≠ .stalled

/-- Both parsers do the same wherever there is less room than `n`. -/
def Terminating (n : Nat) (p q : Parser α) : Prop :=
  ∀ c : Cursor, c.Sized → c.room < n → Halts p q c fun _ _ => True

/-- The parsers are terminating, and where they answer they have taken a token. -/
def Advancing (n : Nat) (p q : Parser α) : Prop :=
  ∀ c : Cursor, c.Sized → c.room < n → Halts p q c fun _ c' => c.position < c'.position

/-- The parsers are terminating, and where they have something to answer they have taken a token. -/
def Stepping (n : Nat) (p q : Parser (Option α)) : Prop :=
  ∀ c : Cursor, c.Sized → c.room < n →
    Halts p q c fun o c' => o.isSome = true → c.position < c'.position

variable {p q : Parser α} {f g : α → Parser β} {c c' : Cursor} {n : Nat} {Q : α → Cursor → Prop}
  {R : β → Cursor → Prop}

namespace Halts

theorem mono {Q' : α → Cursor → Prop} (h : Halts p q c Q)
    (hq : ∀ a c', c.Onward c' → Q a c' → Q' a c') : Halts p q c Q' := by
  obtain ⟨heq, h⟩ := h
  refine ⟨heq, ?_⟩
  split at h
  · exact ⟨h.1, hq _ _ h.1 h.2⟩
  · exact h

theorem bind (hs : c.Sized) (h : Halts p q c Q)
    (hf : ∀ a c', c'.Sized → c.Onward c' → Q a c' → Halts (f a) (g a) c' R) :
    Halts (p >>= f) (q >>= g) c R := by
  obtain ⟨heq, h⟩ := h
  cases hp : p c with
  | error e c' =>
    rw [hp] at h heq
    rw [Halts, bind_of_error hp, bind_of_error heq]
    exact ⟨rfl, h⟩
  | ok a c' =>
    rw [hp] at h heq
    obtain ⟨hsame, hfa⟩ := hf a c' (hs.onward h.1) h.1 h.2
    rw [Halts, bind_of_ok hp, bind_of_ok heq]
    refine ⟨hsame, ?_⟩
    split at hfa
    · exact ⟨h.1.trans hfa.1, hfa.2⟩
    · exact ⟨h.1.trans hfa.1, hfa.2⟩

/-- Where a token has been taken there is less room, and this stays so. -/
theorem behind (hs : c.Sized) (hr : c.room < n + 1) (ho : c.Onward c') (hlt : c.position < c'.position)
    (h : Terminating n p q) : Halts p q c' fun _ c'' => c.position < c''.position := by
  have := ho.room_add_position_le hs
  exact (h c' (hs.onward ho) (by omega)).mono fun _ _ ho' _ => hlt.trans_le ho'.position_le

/-- Behind a token that has been taken, all that is good for less room can be read. -/
theorem take (hs : c.Sized) (hr : c.room < n + 1)
    (h : Halts p q c fun _ c' => c.position < c'.position) (hf : ∀ a, Terminating n (f a) (g a)) :
    Halts (p >>= f) (q >>= g) c fun _ c' => c.position < c'.position :=
  bind hs h fun a _ _ ho hlt => behind hs hr ho hlt (hf a)

/-- A round of a loop that takes a token first. -/
theorem step {f g : α → Parser (Option β)} (hs : c.Sized) (hr : c.room < n)
    (h : Halts p q c fun _ c' => c.position < c'.position) (hf : ∀ a, Terminating n (f a) (g a)) :
    Halts (p >>= f) (q >>= g) c fun o c' => o.isSome = true → c.position < c'.position :=
  (take hs (Nat.lt_succ_of_lt hr) h hf).mono fun _ _ _ hlt _ => hlt

/-- The last round of a loop. -/
theorem stop : Halts (Pure.pure none : Parser (Option α)) (Pure.pure none) c
    fun o c' => o.isSome = true → c.position < c'.position :=
  ⟨rfl, .refl c, fun h => Bool.noConfusion h⟩

theorem pure {a : α} (h : Q a c) : Halts (Pure.pure a) (Pure.pure a) c Q := ⟨rfl, .refl c, h⟩

theorem fail {w : Wanted} : Halts (fail w : Parser α) (Parser.fail w) c Q :=
  ⟨rfl, .refl c, by simp [SyntaxError.locate]⟩

/-- A parser that has failed does not go on. -/
theorem fail_bind {w : Wanted} {f g : β → Parser α} :
    Halts (Parser.fail w >>= f) (Parser.fail w >>= g) c Q := ⟨rfl, .refl c, by simp [SyntaxError.locate]⟩

theorem throw_bind {e : SyntaxError} (he : e.fault ≠ .stalled) {f g : β → Parser α} :
    Halts (throwThe SyntaxError e >>= f) (throwThe SyntaxError e >>= g) c Q := ⟨rfl, .refl c, he⟩

theorem get_bind {f g : Cursor → Parser β} (h : Halts (f c) (g c) c R) :
    Halts (get >>= f) (get >>= g) c R := h

theorem current_bind {f g : Token → Parser β} (h : Halts (f c.peek) (g c.peek) c R) :
    Halts (current >>= f) (current >>= g) c R := h

theorem ite {b : Prop} [Decidable b] {p' q' : Parser α} (hp : b → Halts p q c Q)
    (hq : ¬ b → Halts p' q' c Q) : Halts (if b then p else p') (if b then q else q') c Q := by
  split
  · exact hp ‹_›
  · exact hq ‹_›

/-- Moving past tokens takes one where there is one. -/
theorem skip_of_ahead {k : Nat} (h : c.ahead ≠ []) (hn : 0 < k) :
    Halts (Parser.skip k) (Parser.skip k) c fun _ c' => c.position < c'.position :=
  ⟨rfl, c.advance_onward k, Cursor.Sized.position_lt_advance h hn⟩

section Tokens

variable (hs : c.Sized)
include hs

theorem skip {k : Nat} (hk : c.peek.kind ≠ .eof) (hn : 0 < k) :
    Halts (skip k) (Parser.skip k) c fun _ c' => c.position < c'.position :=
  skip_of_ahead (hs.ahead_ne_nil hk) hn

theorem consume (hk : c.peek.kind ≠ .eof) :
    Halts consume Parser.consume c fun _ c' => c.position < c'.position :=
  ⟨rfl, c.advance_onward 1, Cursor.Sized.position_lt_advance (hs.ahead_ne_nil hk) Nat.one_pos⟩

/-- What comes behind the token at the cursor, if there is one. -/
theorem consume_bind {f g : Token → Parser β} (h : ∀ c' : Cursor, c'.Sized → c.Onward c' →
      (c.peek.kind ≠ .eof → c.position < c'.position) → Halts (f c.peek) (g c.peek) c' R) :
    Halts (Parser.consume >>= f) (Parser.consume >>= g) c R := by
  refine bind (p := Parser.consume) hs (Q := fun t c' => t = c.peek ∧
    (c.peek.kind ≠ .eof → c.position < c'.position)) ?_ ?_
  · exact ⟨rfl, c.advance_onward 1, rfl, fun hk => (consume hs hk).2.2⟩
  · rintro _ c' hs' ho ⟨rfl, htook⟩
    exact h c' hs' ho htook

theorem expect (text : Text) :
    Halts (expect text) (Parser.expect text) c fun _ c' => c.position < c'.position := by
  refine get_bind (ite (fun hr => consume hs ?_) fun _ => ⟨rfl, .refl c, by simp [SyntaxError.locate]⟩)
  simp only [Token.reads, Bool.and_eq_true, bne_iff_ne] at hr
  exact hr.2

theorem consumePart {k : Nat} (hk : c.peek.kind = .operator) (hn : 0 < k) :
    Halts (consumePart k) (Parser.consumePart k) c fun _ c' => c.position < c'.position := by
  have ho := c.splitOperator_onward hn
  have hkind : (c.splitOperator k).peek.kind ≠ .eof := by
    have hne := hs.ahead_ne_nil (by simp [hk])
    obtain ⟨t, ts, ha⟩ := List.exists_cons_of_ne_nil hne
    have hpeek : c.peek = t := by simp [Cursor.peek, ha]
    rw [hpeek] at hk
    simp only [Cursor.splitOperator, ha]
    split <;> simp [Cursor.peek, ha, hk]
  refine bind (p := modify _) (Q := fun _ c' => c' = c.splitOperator k) hs ⟨rfl, ho, rfl⟩ ?_
  rintro _ _ hs' - rfl
  have hposition : (c.splitOperator k).position = c.position :=
    congrArg List.length (c.behind_splitOperator k)
  exact hposition ▸ consume hs' hkind

theorem consumeOperator {text : String} (hn : 0 < text.length) :
    Halts (consumeOperator text) (Parser.consumeOperator text) c fun _ c' => c.position < c'.position := by
  refine current_bind (ite (fun h => consumePart hs ?_ hn) fun _ => fail)
  simp only [Token.isOperatorWith, Bool.and_eq_true, beq_iff_eq] at h
  exact h.1

theorem skipBalanced (hk : c.peek.kind ≠ .eof) :
    Halts skipBalanced Parser.skipBalanced c fun _ c' => c.position < c'.position := by
  refine get_bind ?_
  split
  · next k hlength => exact skip hs hk (balancedLength?_pos hlength)
  · exact bind hs (Q := fun _ _ => True) ⟨rfl, c.advance_onward _, trivial⟩ fun _ _ _ _ _ => fail

end Tokens

/-- A failing attempt gives back the tokens that it took. -/
theorem attempt (h : Halts p q c Q) : Halts (attempt p) (Parser.attempt q) c fun _ _ => True := by
  obtain ⟨heq, h⟩ := h
  unfold Halts Parser.attempt
  rw [heq]
  cases hp : p c with
  | ok a c' =>
    rw [hp] at h
    exact ⟨rfl, h.1, trivial⟩
  | error e c' =>
    rw [hp] at h
    exact ⟨rfl, h.1.rewind.1, trivial⟩

end Halts

section Weaken

theorem Terminating.mono {m : Nat} (h : Terminating n p q) (hm : m ≤ n) : Terminating m p q :=
  fun c hs hr => h c hs (hr.trans_le hm)

theorem Advancing.mono {m : Nat} (h : Advancing n p q) (hm : m ≤ n) : Advancing m p q :=
  fun c hs hr => h c hs (hr.trans_le hm)

theorem Advancing.terminating (h : Advancing n p q) : Terminating n p q :=
  fun c hs hr => (h c hs hr).mono fun _ _ _ _ => trivial

end Weaken

namespace Terminating

theorem pure (a : α) : Terminating n (Pure.pure a) (Pure.pure a) := fun _ _ _ => .pure trivial

theorem fail (w : Wanted) : Terminating n (fail w : Parser α) (Parser.fail w) := fun _ _ _ => .fail

theorem get : Terminating n (MonadState.get : Parser Cursor) MonadState.get :=
  fun c _ _ => ⟨rfl, .refl c, trivial⟩

theorem current : Terminating n current current := fun c _ _ => ⟨rfl, .refl c, trivial⟩

theorem sliceFrom (t : Token) : Terminating n (sliceFrom t) (Parser.sliceFrom t) :=
  fun c _ _ => ⟨rfl, .refl c, trivial⟩

/-- A part of the source is kept in the answer. -/
theorem keep (t : Token) (f : Text → α) : Terminating n (Parser.sliceFrom t >>= fun s => Pure.pure (f s))
    (Parser.sliceFrom t >>= fun s => Pure.pure (f s)) := fun c _ _ => ⟨rfl, .refl c, trivial⟩

theorem skip (k : Nat) : Terminating n (skip k) (Parser.skip k) :=
  fun c _ _ => ⟨rfl, c.advance_onward k, trivial⟩

theorem consume : Terminating n consume Parser.consume := fun c _ _ => ⟨rfl, c.advance_onward 1, trivial⟩

theorem expect (text : Text) : Terminating n (expect text) (Parser.expect text) :=
  fun _ hs _ => (Halts.expect hs text).mono fun _ _ _ _ => trivial

theorem bind (hp : Terminating n p q) (hf : ∀ a, Terminating n (f a) (g a)) :
    Terminating n (p >>= f) (q >>= g) := fun c hs hr =>
  .bind hs (hp c hs hr) fun a c' hs' ho _ => hf a c' hs' (by
    have := ho.room_add_position_le hs
    have := ho.position_le
    omega)

theorem consumeOperator {text : String} (h : 0 < text.length) :
    Terminating n (consumeOperator text) (Parser.consumeOperator text) :=
  fun _ hs _ => (Halts.consumeOperator hs h).mono fun _ _ _ _ => trivial

theorem skipBalanced : Terminating n skipBalanced Parser.skipBalanced := by
  refine .bind .get fun c => ?_
  split
  · exact .skip _
  · exact .bind (.skip _) fun _ => .fail _

theorem consumePart {k : Nat} (hk : 0 < k) : Terminating n (consumePart k) (Parser.consumePart k) :=
  .bind (p := modify _) (fun c _ _ => ⟨rfl, c.splitOperator_onward hk, trivial⟩) fun _ => .consume

theorem ite {b : Prop} [Decidable b] {p' q' : Parser α} (hp : Terminating n p q) (hq : Terminating n p' q') :
    Terminating n (if b then p else p') (if b then q else q') := by
  split
  · exact hp
  · exact hq

theorem attempt (hp : Terminating n p q) : Terminating n (attempt p) (Parser.attempt q) :=
  fun c hs hr => (hp c hs hr).attempt

end Terminating

namespace Advancing

theorem expect (text : Text) : Advancing n (expect text) (Parser.expect text) :=
  fun _ hs _ => .expect hs text

theorem consumeOperator {text : String} (h : 0 < text.length) :
    Advancing n (consumeOperator text) (Parser.consumeOperator text) := fun _ hs _ => .consumeOperator hs h

theorem bind (hp : Advancing n p q) (hf : ∀ a, Terminating n (f a) (g a)) :
    Advancing n (p >>= f) (q >>= g) := fun c hs hr =>
  .bind hs (hp c hs hr) fun a c' hs' ho hlt => (hf a c' hs' (by
    have := ho.room_add_position_le hs
    omega)).mono fun _ _ ho' _ => hlt.trans_le ho'.position_le

/-- What comes behind the first token is read with less room. -/
theorem take (hp : Advancing (n + 1) p q) (hf : ∀ a, Terminating n (f a) (g a)) :
    Advancing (n + 1) (p >>= f) (q >>= g) := fun c hs hr => .take hs hr (hp c hs hr) hf

theorem ite {b : Prop} [Decidable b] {p' q' : Parser α} (hp : Advancing n p q) (hq : Advancing n p' q') :
    Advancing n (if b then p else p') (if b then q else q') := by
  split
  · exact hp
  · exact hq

end Advancing

/-- A token is taken behind what may take none. -/
theorem Terminating.bind_advancing (hp : Terminating n p q) (hf : ∀ a, Advancing n (f a) (g a)) :
    Advancing n (p >>= f) (q >>= g) := fun c hs hr =>
  .bind hs (hp c hs hr) fun a c' hs' ho _ => (hf a c' hs' (by
    have := ho.room_add_position_le hs
    have := ho.position_le
    omega)).mono fun _ _ _ hlt => ho.position_le.trans_lt hlt

section Loops

/-- There are rounds enough for the room ahead, however many more there are. -/
theorem Stepping.collectWithin {p q : Parser (Option α)} (h : Stepping n p q) {m : Nat} (hs : c.Sized)
    (hr : c.room < n) (hm : c.room < m) :
    Halts (collectWithin p m) (Parser.collectWithin q m) c fun _ _ => True := by
  induction m generalizing c with
  | zero => exact absurd hm (Nat.not_lt_zero _)
  | succ m ih =>
    refine .bind hs (h c hs hr) fun o c' hs' ho hstep => ?_
    have hroom := ho.room_add_position_le hs
    cases o with
    | none => exact .pure trivial
    | some a =>
      have hlt := hstep rfl
      exact .bind hs' (ih hs' (by omega) (by omega)) fun _ _ _ _ _ => .pure trivial

theorem Terminating.collect {p q : Parser (Option α)} (h : Stepping n p q) :
    Terminating n (collect p) (Parser.collect q) := fun _ hs hr =>
  .get_bind (h.collectWithin hs hr (Nat.lt_succ_self _))

section While

variable {more : Cursor → Bool} (h : ∀ c : Cursor, c.Sized → c.room < n → more c = true →
  Halts p q c fun _ c' => c.position < c'.position)
include h

theorem Stepping.whenever : Stepping n (do if more (← get) then return some (← p) else return none)
    (do if more (← get) then return some (← q) else return none) := fun c hs hr =>
  .get_bind (.ite (fun hm => .step hs hr (h c hs hr hm) fun _ => .pure _) fun _ => .stop)

theorem Terminating.collectWhile : Terminating n (collectWhile more p) (Parser.collectWhile more q) :=
  .collect (.whenever h)

/-- A loop takes a token if it is entered at all. -/
theorem Halts.collectWhile (hs : c.Sized) (hr : c.room < n) (hm : more c = true) :
    Halts (collectWhile more p) (Parser.collectWhile more q) c fun _ c' => c.position < c'.position := by
  refine .get_bind (.bind hs (Q := fun o c' => o.isSome = true ∧ c.position < c'.position) ?_ ?_)
  · refine .get_bind ?_
    rw [if_pos hm, if_pos hm]
    exact .bind hs (h c hs hr hm) fun _ _ _ _ hlt => .pure ⟨rfl, hlt⟩
  · rintro o c' hs' ho ⟨hsome, hlt⟩
    obtain ⟨a, rfl⟩ := Option.isSome_iff_exists.mp hsome
    have hroom := ho.room_add_position_le hs
    exact .bind hs' ((Stepping.whenever h).collectWithin hs' (by omega) (by omega))
      fun _ _ _ ho' _ => .pure (hlt.trans_le ho'.position_le)

end While

theorem Stepping.extendWithin {step step' : σ → Parser (Option σ)}
    (h : ∀ s, Stepping n (step s) (step' s)) {m : Nat} (hs : c.Sized) (hr : c.room < n)
    (hm : c.room < m) (s : σ) :
    Halts (extendWithin step m s) (Parser.extendWithin step' m s) c fun _ _ => True := by
  induction m generalizing c s with
  | zero => exact absurd hm (Nat.not_lt_zero _)
  | succ m ih =>
    refine .bind hs (h s c hs hr) fun o c' hs' ho hstep => ?_
    have hroom := ho.room_add_position_le hs
    cases o with
    | none => exact .pure trivial
    | some s' =>
      have hlt := hstep rfl
      exact ih hs' (by omega) (by omega) s'

theorem Terminating.extend {step step' : σ → Parser (Option σ)} (h : ∀ s, Stepping n (step s) (step' s))
    (s : σ) : Terminating n (extend step s) (Parser.extend step' s) := fun _ hs hr =>
  .get_bind (Stepping.extendWithin h hs hr (Nat.lt_succ_self _) s)

/-- What is in brackets stands behind the opening one, so that it is read with less room. -/
theorem Advancing.bracketed (first last : String) (separator : Wanted) (h : Advancing n p q) :
    Advancing (n + 1) (bracketed first last separator p) (Parser.bracketed first last separator q) := by
  refine .take (.expect _) fun _ => .bind (.collectWhile fun c hs hr _ => ?_) fun _ =>
    .bind (.expect _) fun _ => .pure _
  exact .take hs (Nat.lt_succ_of_lt hr) (h c hs hr) fun _ => .bind .current fun _ =>
    .ite (.bind (.skip _) fun _ => .pure _) (.ite (.bind (.fail _) fun _ => .pure _) (.pure _))

/-- Items behind commas. -/
theorem Terminating.commas (h : Terminating n p q) :
    Terminating n (Parser.collectWhile (·.peek.isSymbol ",") (Parser.skip 1 >>= fun _ => p))
      (Parser.collectWhile (·.peek.isSymbol ",") (Parser.skip 1 >>= fun _ => q)) :=
  .collectWhile fun _ hs hr hcomma => .take hs (Nat.lt_succ_of_lt hr)
    (.skip hs (by simp [Token.kind_of_isSymbol hcomma]) Nat.one_pos) fun _ => h

theorem Terminating.separated (h : Terminating n p q) : Terminating n (separated p) (Parser.separated q) :=
  .bind h fun _ => .bind (.commas h) fun _ => .pure _

end Loops

end SwiftMacros.Parser
