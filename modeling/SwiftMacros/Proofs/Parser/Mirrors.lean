import Mathlib
import SwiftMacros.Proofs.Cursor.Shifted
import SwiftMacros.Proofs.Parser.Answers
import SwiftMacros.Proofs.Parser.Forward

/-! Two runs on sources that differ in white space. A parser takes the same tokens of both, and answers or
fails in both. What can be told of its answers has two parts: their shape, on which the reading goes on, is
always the same, and so is what they hold, unless the white space has been read in between. -/

namespace SwiftMacros.Parser

open Token (isMarkChar)

variable {α β γ δ σ τ : Type}

/-- What `p` does at `c`, `p'` does at the counterpart `c'`. The answers have the same shape `s`, and are related
by `E` if the reading is clear. -/
structure Mirrors (S : Respacing) (s : α → σ) (E : α → α → Prop) (p p' : Parser α) (c c' : Cursor) : Prop where
  ok : ∀ a c₁, p c = .ok a c₁ → ∃ a' c₁', p' c' = .ok a' c₁' ∧ s a' = s a ∧ c₁.Mirror S c₁' ∧ c.Leads c₁ ∧
    (S.Clear c₁ → E a a')
  error : ∀ e c₁, p c = .error e c₁ → ∃ e' c₁', p' c' = .error e' c₁' ∧ c₁.Mirror S c₁' ∧ c.Leads c₁

/-- The answers are related by `E` if the reading is clear. -/
abbrev Accord (S : Respacing) (E : α → α → Prop) (p p' : Parser α) (c c' : Cursor) : Prop :=
  Mirrors S (fun _ => ()) E p p' c c'

namespace Mirrors

variable {S : Respacing} {s : α → σ} {u : β → τ} {E E' : α → α → Prop} {F : β → β → Prop}
  {p p' q q' : Parser α} {f f' : α → Parser β} {c c' c₁ c₁' : Cursor}

/-- The parsers can be told in another way where they stand. -/
theorem of_eq (h : Mirrors S s E q q' c c') (hp : p c = q c) (hp' : p' c' = q' c') :
    Mirrors S s E p p' c c' :=
  ⟨fun a c₁ ha => hp' ▸ h.ok a c₁ (hp ▸ ha), fun e c₁ he => hp' ▸ h.error e c₁ (hp ▸ he)⟩

theorem mono (h : Mirrors S s E p p' c c') (hE : ∀ a a', E a a' → E' a a') : Mirrors S s E' p p' c c' := by
  refine ⟨fun a c₁ ha => ?_, h.error⟩
  obtain ⟨a', c₁', ha', hs, h₁, hl, hEa⟩ := h.ok a c₁ ha
  exact ⟨a', c₁', ha', hs, h₁, hl, fun hc => hE a a' (hEa hc)⟩

/-- What is known of the first parser is told of its answer too. -/
theorem known {Q : α → Cursor → Prop} (h : Mirrors S s E p p' c c') (hp : Spec p c Q) :
    Mirrors S s (fun a a' => E a a' ∧ ∃ c₁, c.Leads c₁ ∧ Q a c₁) p p' c c' := by
  refine ⟨fun a c₁ ha => ?_, h.error⟩
  obtain ⟨a', c₁', ha', hs, h₁, hl, hE⟩ := h.ok a c₁ ha
  exact ⟨a', c₁', ha', hs, h₁, hl, fun hc => ⟨hE hc, c₁, hp.ok ha⟩⟩

/-- The shape of the answers does not matter. -/
theorem forget (h : Mirrors S s E p p' c c') : Accord S E p p' c c' := by
  refine ⟨fun a c₁ ha => ?_, h.error⟩
  obtain ⟨a', c₁', ha', -, hrest⟩ := h.ok a c₁ ha
  exact ⟨a', c₁', ha', rfl, hrest⟩

/-- Both parsers answer where they stand. -/
theorem stay {a a' : α} (h : c.Mirror S c') (hs : s a' = s a) (hE : S.Clear c → E a a') (hp : p c = .ok a c)
    (hp' : p' c' = .ok a' c') : Mirrors S s E p p' c c' := by
  refine ⟨fun b c₁ hb => ?_, fun e c₁ he => ?_⟩
  · obtain ⟨rfl, rfl⟩ : a = b ∧ c = c₁ := by simpa [hp] using hb
    exact ⟨a', c', hp', hs, h, h.sound.refl, hE⟩
  · rw [hp] at he
    cases he

theorem pure {a a' : α} (h : c.Mirror S c') (hs : s a' = s a) (hE : E a a') :
    Mirrors S s E (Pure.pure a) (Pure.pure a') c c' := stay h hs (fun _ => hE) rfl rfl

theorem throw {e e' : SyntaxError} (h : c.Mirror S c') :
    Mirrors S s E (throwThe SyntaxError e : Parser α) (throwThe SyntaxError e') c c' := by
  refine ⟨fun a c₁ ha => ?_, fun x c₁ hx => ?_⟩
  · cases ha
  · cases hx
    exact ⟨_, c', rfl, h, h.sound.refl⟩

theorem fail {w w' : Wanted} (h : c.Mirror S c') :
    Mirrors S s E (Parser.fail w) (Parser.fail w') c c' := (throw h).of_eq rfl rfl

theorem fail_bind {w w' : Wanted} (h : c.Mirror S c') :
    Mirrors S u F (Parser.fail w >>= f) (Parser.fail w' >>= f') c c' := (throw h).of_eq rfl rfl

theorem stall (h : c.Mirror S c') : Mirrors S s E Parser.stall Parser.stall c c' := (throw h).of_eq rfl rfl

/-- One reading after another. What is told of the first answer goes on into what is told of the second. -/
theorem bind (h : Mirrors S s E p p' c c') (hf : ∀ a a' c₁ c₁', s a' = s a → c₁.Mirror S c₁' →
      Mirrors S u (fun b b' => E a a' → F b b') (f a) (f' a') c₁ c₁') :
    Mirrors S u F (p >>= f) (p' >>= f') c c' := by
  cases hp : p c with
  | error e c₁ =>
    refine ⟨fun b c₂ hb => ?_, fun x c₂ hx => ?_⟩
    · rw [bind_of_error hp] at hb
      cases hb
    · rw [bind_of_error hp] at hx
      cases hx
      obtain ⟨e', c₁', he', h₁, hl⟩ := h.error e c₁ hp
      exact ⟨e', c₁', bind_of_error he', h₁, hl⟩
  | ok a c₁ =>
    obtain ⟨a', c₁', ha', hs, h₁, hl, hE⟩ := h.ok a c₁ hp
    have hfa := hf a a' c₁ c₁' hs h₁
    refine ⟨fun b c₂ hb => ?_, fun x c₂ hx => ?_⟩
    · rw [bind_of_ok hp] at hb
      obtain ⟨b', c₂', hb', hu, h₂, hl', hF⟩ := hfa.ok b c₂ hb
      exact ⟨b', c₂', (bind_of_ok ha').trans hb', hu, h₂, hl.trans hl', fun hc =>
        hF hc (hE (Cursor.Mirror.clear_of_leads hc hl'))⟩
    · rw [bind_of_ok hp] at hx
      obtain ⟨e', c₂', he', h₂, hl'⟩ := hfa.error x c₂ hx
      exact ⟨e', c₂', (bind_of_ok ha').trans he', h₂, hl.trans hl'⟩

/-- One reading after another, where nothing is told of the first answer. -/
theorem next (h : Mirrors S s E p p' c c') (hf : ∀ a a' c₁ c₁', s a' = s a → c₁.Mirror S c₁' →
      Mirrors S u F (f a) (f' a') c₁ c₁') : Mirrors S u F (p >>= f) (p' >>= f') c c' :=
  h.bind fun a a' c₁ c₁' ha h₁ => (hf a a' c₁ c₁' ha h₁).mono fun _ _ hF _ => hF

/-- Both parsers move first. -/
theorem step {p p' q q' : Parser β} (hl : c.Leads c₁) (hq : Mirrors S u F q q' c₁ c₁') (hp : p c = q c₁)
    (hp' : p' c' = q' c₁') : Mirrors S u F p p' c c' := by
  refine ⟨fun b c₂ hb => ?_, fun x c₂ hx => ?_⟩
  · obtain ⟨b', c₂', hb', hu, h₂, hl', hF⟩ := hq.ok b c₂ (hp ▸ hb)
    exact ⟨b', c₂', hp'.trans hb', hu, h₂, hl.trans hl', hF⟩
  · obtain ⟨e', c₂', he', h₂, hl'⟩ := hq.error x c₂ (hp ▸ hx)
    exact ⟨e', c₂', hp'.trans he', h₂, hl.trans hl'⟩

theorem pure_bind {a a' : α} (h : Mirrors S u F (f a) (f' a') c c') :
    Mirrors S u F (Pure.pure a >>= f) (Pure.pure a' >>= f') c c' := h.of_eq rfl rfl

theorem ite {b b' : Bool} (hb : b' = b) (hp : b = true → Mirrors S s E p p' c c')
    (hq : b = false → Mirrors S s E q q' c c') :
    Mirrors S s E (if b then p else q) (if b' then p' else q') c c' := by
  rw [hb]
  cases b with
  | true => exact hp rfl
  | false => exact hq rfl

theorem get_bind {f f' : Cursor → Parser α} (h : Mirrors S s E (f c) (f' c') c c') :
    Mirrors S s E (get >>= f) (get >>= f') c c' := h.of_eq rfl rfl

theorem current_bind {f f' : Token → Parser α} (h : Mirrors S s E (f c.peek) (f' c'.peek) c c') :
    Mirrors S s E (current >>= f) (current >>= f') c c' := h.of_eq rfl rfl

/-- The source of what has been read, of which nothing is told. -/
theorem sliceFrom_next {t t' : Token} {f f' : Text → Parser β} (hf : ∀ x x', Mirrors S u F (f x) (f' x') c c') :
    Mirrors S u F (Parser.sliceFrom t >>= f) (Parser.sliceFrom t' >>= f') c c' :=
  (hf (c.sliceFrom t) (c'.sliceFrom t')).of_eq rfl rfl

section Tokens

variable (h : c.Mirror S c')
include h

theorem skip_bind {n : Nat} {f f' : Unit → Parser β} (hf : (c.advance n).Mirror S (c'.advance n) →
    Mirrors S u F (f ()) (f' ()) (c.advance n) (c'.advance n)) :
    Mirrors S u F (skip n >>= f) (skip n >>= f') c c' :=
  step (h.sound.advance n) (hf (h.advance n)) rfl rfl

theorem skip {n : Nat} : Accord S (fun _ _ => True) (Parser.skip n) (Parser.skip n) c c' :=
  step (h.sound.advance n) (pure (a := ()) (h.advance n) rfl trivial) rfl rfl

theorem consume_bind {f f' : Token → Parser β} (hf : (c.advance 1).Mirror S (c'.advance 1) →
    Mirrors S u F (f c.peek) (f' c'.peek) (c.advance 1) (c'.advance 1)) :
    Mirrors S u F (consume >>= f) (consume >>= f') c c' :=
  step (h.sound.advance 1) (hf (h.advance 1)) rfl rfl

/-- The source of what has been read. -/
theorem sliceFrom {t t' : Token} (ht : S.Begins t t') :
    Accord S Eq (Parser.sliceFrom t) (Parser.sliceFrom t') c c' :=
  stay h rfl (fun hc => h.slice hc ht) rfl rfl

theorem sliceFrom_bind {t t' : Token} (ht : S.Begins t t') {f f' : Text → Parser β}
    (hf : ∀ x x', Mirrors S u (fun b b' => x = x' → F b b') (f x) (f' x') c c') :
    Mirrors S u F (Parser.sliceFrom t >>= f) (Parser.sliceFrom t' >>= f') c c' := by
  have hrest := hf (c.sliceFrom t) (c'.sliceFrom t')
  refine ⟨fun b c₁ hb => ?_, hrest.error⟩
  obtain ⟨b', c₁', hb', hu, h₁, hl, hF⟩ := hrest.ok b c₁ hb
  exact ⟨b', c₁', hb', hu, h₁, hl, fun hc =>
    hF hc (h.slice (Cursor.Mirror.clear_of_leads hc hl) ht)⟩

/-- The source of what has been read goes into the answer. -/
theorem keep {t t' : Token} (ht : S.Begins t t') {g g' : Text → α} (hs : ∀ x x', s (g' x') = s (g x))
    (hE : ∀ x, E (g x) (g' x)) : Mirrors S s E (Parser.sliceFrom t >>= fun x => Pure.pure (g x))
      (Parser.sliceFrom t' >>= fun x => Pure.pure (g' x)) c c' :=
  sliceFrom_bind h ht fun x x' => pure h (hs x x') fun hx => hx ▸ hE x

/-- A text is asked for. -/
theorem expect_bind {m : Text} {f f' : Token → Parser β} (hf : (c.advance 1).Mirror S (c'.advance 1) →
    Mirrors S u F (f c.peek) (f' c'.peek) (c.advance 1) (c'.advance 1)) :
    Mirrors S u F (expect m >>= f) (expect m >>= f') c c' := by
  have heq : ∀ (d : Cursor) (k : Token → Parser β), (expect m >>= k) d = (if d.peek.reads m then consume >>= k else
      throwThe SyntaxError (.locate (.unexpectedToken m d.peek.kind d.peek.text) d.peek) >>= k) d := by
    intro d k
    rw [expect, ← apply_ite (· >>= _)]
    rfl
  refine of_eq (ite ((h.peek 0).reads m) (fun _ => consume_bind h hf) fun _ => ?_) (heq c f) (heq c' f')
  exact (throw h).of_eq rfl rfl

/-- A mark is split off an operator and taken. -/
theorem consumePart_bind (hm : c.peek.isMark = true ∨ ∃ m, isMarkChar m = true ∧
      c.peek.isOperatorWith (String.singleton m) = true) {f f' : Token → Parser β}
    (hf : ∀ t t' c₁ c₁', S.Begins t t' → c₁.Mirror S c₁' → Mirrors S u F (f t) (f' t') c₁ c₁') :
    Mirrors S u F (consumePart 1 >>= f) (consumePart 1 >>= f') c c' := by
  have hfirst : ∀ d ∈ c.peek.text.head?, isMarkChar d = true := by
    intro d hd
    rcases hm with hm | ⟨m, hmark, hm⟩
    · obtain ⟨-, m, hm, hmark⟩ := Token.mark_of_isMark hm
      rw [hm] at hd
      cases hd
      exact hmark
    · simp only [Token.isOperatorWith, Bool.and_eq_true, String.toList_singleton, List.isPrefixOf_iff_prefix] at hm
      obtain ⟨y, hy⟩ := hm.2
      rw [← hy] at hd
      cases hd
      exact hmark
  have h₁ := h.split hfirst
  exact step (h.sound.splitOperator hfirst) (consume_bind h₁ fun h₂ => hf _ _ _ _ h₁.begins h₂) rfl rfl

/-- Taking a mark from the front of an operator. -/
theorem consumeOperator_bind {m : Char} (hmark : isMarkChar m = true) {f f' : Token → Parser β}
    (hf : ∀ t t' c₁ c₁', S.Begins t t' → c₁.Mirror S c₁' → Mirrors S u F (f t) (f' t') c₁ c₁') :
    Mirrors S u F (consumeOperator (String.singleton m) >>= f)
      (consumeOperator (String.singleton m) >>= f') c c' := by
  have heq : ∀ (d : Cursor) (k : Token → Parser β), (consumeOperator (String.singleton m) >>= k) d =
      (if d.peek.isOperatorWith (String.singleton m) then consumePart 1 >>= k else
        Parser.fail (.mark (String.singleton m).toList) >>= k) d := by
    intro d k
    rw [consumeOperator, ← apply_ite (· >>= _), String.length_singleton]
    rfl
  exact of_eq (ite ((h.peek 0).isOperatorWith _) (fun hop => consumePart_bind h (.inr ⟨m, hmark, hop⟩) hf)
    fun _ => fail_bind h) (heq c f) (heq c' f')

end Tokens

/-- A group of brackets is passed over. -/
theorem skipBalanced (h : c.Mirror S c') :
    Accord S (fun _ _ => True) Parser.skipBalanced Parser.skipBalanced c c' := by
  have hsome : ∀ {d : Cursor} {n : Nat}, balancedLength? 0 d.ahead = some n →
      Parser.skipBalanced d = Parser.skip n d := by
    intro d n hn
    rw [Parser.skipBalanced, run_get_bind, hn]
  have hnone : ∀ {d : Cursor}, balancedLength? 0 d.ahead = none →
      Parser.skipBalanced d = (Parser.skip d.ahead.length >>= fun _ => Parser.fail .closer) d := by
    intro d hn
    rw [Parser.skipBalanced, run_get_bind, hn]
  have hlength := Token.balancedLength_same h.ahead 0
  cases hn : balancedLength? 0 c.ahead with
  | some n =>
    rw [hn] at hlength
    exact of_eq (skip h) (hsome hn) (hsome hlength)
  | none =>
    rw [hn] at hlength
    have hfail := hnone hlength
    rw [← h.ahead.length_eq] at hfail
    refine of_eq ?_ (hnone hn) hfail
    exact skip_bind h fun h₁ => fail h₁

/-- Both attempts that fail go back. -/
theorem attempt (h : c.Mirror S c') (hp : Mirrors S s E p p' c c') :
    Mirrors S (Option.map s) (Option.Rel E) (Parser.attempt p) (Parser.attempt p') c c' := by
  cases hc : p c with
  | ok a c₁ =>
    obtain ⟨a', c₁', hc', hs, h₁, hl, hE⟩ := hp.ok a c₁ hc
    have hsome : Mirrors S (Option.map s) (Option.Rel E) (Pure.pure (some a)) (Pure.pure (some a')) c₁ c₁' := by
      refine stay h₁ ?_ (fun hclear => .some (hE hclear)) rfl rfl
      exact congrArg some hs
    exact step hl hsome (attempt_eq_some.mpr hc) (attempt_eq_some.mpr hc')
  | error e c₁ =>
    obtain ⟨e', c₁', hc', h₁, hl⟩ := hp.error e c₁ hc
    have hnone : Mirrors S (Option.map s) (Option.Rel E) (Pure.pure none) (Pure.pure none)
        (c₁.rewind c.position) (c₁'.rewind c'.position) := pure (h.rewind hl h₁) rfl .none
    exact step hl.rewind.1 hnone (attempt_eq_none.mpr ⟨e, c₁, hc, rfl⟩) (attempt_eq_none.mpr ⟨e', c₁', hc', rfl⟩)

section Loops

variable {item item' : Parser (Option α)} {step step' : γ → Parser (Option γ)} {v : γ → δ} {G : γ → γ → Prop}

theorem collectWithin (hi : ∀ c c', c.Mirror S c' → Mirrors S (Option.map s) (Option.Rel E) item item' c c')
    (n : Nat) (h : c.Mirror S c') : Mirrors S (List.map s) (List.Forall₂ E) (Parser.collectWithin item n)
      (Parser.collectWithin item' n) c c' := by
  induction n generalizing c c' with
  | zero => exact stall h
  | succ n ih =>
    refine bind (hi c c' h) fun o o' c₁ c₁' ho h₁ => ?_
    cases o with
    | none =>
      obtain rfl : o' = none := by simpa using ho
      exact pure h₁ rfl fun _ => .nil
    | some a =>
      obtain ⟨a', rfl, ha⟩ := Option.map_eq_some_iff.mp ho
      refine bind (ih h₁) fun as as' c₂ c₂' has h₂ => pure h₂ ?_ fun hE hEs => ?_
      · rw [List.map_cons, List.map_cons, ha, has]
      · cases hEs with
        | some hEa => exact .cons hEa hE

theorem collect (hi : ∀ c c', c.Mirror S c' → Mirrors S (Option.map s) (Option.Rel E) item item' c c')
    (h : c.Mirror S c') : Mirrors S (List.map s) (List.Forall₂ E) (Parser.collect item)
      (Parser.collect item') c c' :=
  get_bind (by rw [h.room]; exact collectWithin hi _ h)

theorem collectWhile {more : Cursor → Bool} {item item' : Parser α}
    (hm : ∀ c c', c.Mirror S c' → more c' = more c)
    (hi : ∀ c c', c.Mirror S c' → more c = true → Mirrors S s E item item' c c') (h : c.Mirror S c') :
    Mirrors S (List.map s) (List.Forall₂ E) (Parser.collectWhile more item) (Parser.collectWhile more item') c c' :=
  collect (fun c c' h => get_bind (ite (hm c c' h) (fun hmore => bind (hi c c' h hmore) fun _ _ _ _ ha h₁ =>
    pure h₁ (congrArg some ha) fun hE => .some hE) fun _ => pure h rfl .none)) h

theorem extendWithin (hi : ∀ x x' c c', v x' = v x → c.Mirror S c' →
      Mirrors S (Option.map v) (fun o o' => G x x' → Option.Rel G o o') (step x) (step' x') c c')
    (n : Nat) {x x' : γ} (hv : v x' = v x) (h : c.Mirror S c') :
    Mirrors S v (fun y y' => G x x' → G y y') (Parser.extendWithin step n x) (Parser.extendWithin step' n x') c c' := by
  induction n generalizing c c' x x' with
  | zero => exact stall h
  | succ n ih =>
    refine bind (hi x x' c c' hv h) fun o o' c₁ c₁' ho h₁ => ?_
    cases o with
    | none =>
      obtain rfl : o' = none := by simpa using ho
      exact pure h₁ hv fun _ hG => hG
    | some y =>
      obtain ⟨y', rfl, hy⟩ := Option.map_eq_some_iff.mp ho
      refine (ih hy h₁).mono fun z z' hz hstep hG => hz ?_
      cases hstep hG with
      | some hG => exact hG

/-- A value that is changed as long as a step answers. -/
theorem extend (hi : ∀ x x' c c', v x' = v x → c.Mirror S c' →
      Mirrors S (Option.map v) (fun o o' => G x x' → Option.Rel G o o') (step x) (step' x') c c')
    {x x' : γ} (hv : v x' = v x) (h : c.Mirror S c') :
    Mirrors S v (fun y y' => G x x' → G y y') (Parser.extend step x) (Parser.extend step' x') c c' :=
  get_bind (by rw [h.room]; exact extendWithin hi _ hv h)

variable {first last : String} {separator : Wanted} {item item' : Parser α}

/-- Items between two marks. -/
theorem bracketed (hi : ∀ c c', c.Mirror S c' → Mirrors S s E item item' c c') (h : c.Mirror S c') :
    Mirrors S (List.map s) (List.Forall₂ E) (Parser.bracketed first last separator item)
      (Parser.bracketed first last separator item') c c' := by
  refine expect_bind h fun h₁ => bind (collectWhile (fun _ _ h₂ => by rw [(h₂.peek 0).isSymbol]) (fun _ _ h₂ _ =>
    bind (hi _ _ h₂) fun a a' c₃ c₃' ha h₃ => ?_) h₁) fun as as' c₂ c₂' has h₂ => expect_bind h₂ fun h₃ =>
      pure h₃ has id
  refine current_bind (ite ((h₃.peek 0).isSymbol _) (fun _ => skip_bind h₃ fun h₄ => pure h₄ ha id) fun _ =>
    ite (by rw [(h₃.peek 0).isSymbol]) (fun _ => fail_bind h₃) fun _ => pure h₃ ha id)

theorem separated (hi : ∀ c c', c.Mirror S c' → Mirrors S s E item item' c c') (h : c.Mirror S c') :
    Mirrors S (List.map s) (List.Forall₂ E) (Parser.separated item) (Parser.separated item') c c' := by
  refine bind (hi c c' h) fun a a' c₁ c₁' ha h₁ => bind (collectWhile (fun _ _ h₂ => (h₂.peek 0).isSymbol _)
    (fun _ _ h₂ _ => skip_bind h₂ fun h₃ => hi _ _ h₃) h₁) fun as as' c₂ c₂' has h₂ => pure h₂ ?_ fun hE hEa => ?_
  · rw [List.map_cons, List.map_cons, ha, has]
  · exact .cons hEa hE

end Loops

end Mirrors

end SwiftMacros.Parser
