import Mathlib
import SwiftMacros.Proofs.Parser.Mirrors

/-! Readings that come across the white space in which two sources differ. What is read in front of it is the
same, and so is what is read behind it, so the answers are related if the white space is not within one of their
parts. -/

namespace SwiftMacros.Parser

variable {α β σ τ : Type}

/-- `p` starts in front of the white space, and answers behind it. Then `p'` answers too, and the answers are
related by `E`. -/
def Crosses (S : Respacing) (E : α → α → Prop) (p p' : Parser α) (c c' : Cursor) : Prop :=
  ∀ a c₁, p c = .ok a c₁ → S.Ahead c ∧ c₁.behind ≠ [] ∧
    ∃ a' c₁', p' c' = .ok a' c₁' ∧ E a a' ∧ c₁.Mirror (S.beyond c₁.behind) c₁'

namespace Crosses

variable {S : Respacing} {s : α → σ} {u : β → τ} {E E' : α → α → Prop} {F : β → β → Prop}
  {p p' q q' : Parser α} {f f' : α → Parser β} {c c' c₁ c₁' : Cursor}

theorem of_eq (h : Crosses S E q q' c c') (hp : p c = q c) (hp' : p' c' = q' c') : Crosses S E p p' c c' :=
  fun a c₁ ha => hp' ▸ h a c₁ (hp ▸ ha)

theorem get_bind {f f' : Cursor → Parser α} (h : Crosses S E (f c) (f' c') c c') :
    Crosses S E (get >>= f) (get >>= f') c c' := h.of_eq rfl rfl

theorem current_bind {f f' : Token → Parser α} (h : Crosses S E (f c.peek) (f' c'.peek) c c') :
    Crosses S E (current >>= f) (current >>= f') c c' := h.of_eq rfl rfl

theorem ite {b b' : Bool} (hb : b' = b) (hp : b = true → Crosses S E p p' c c')
    (hq : b = false → Crosses S E q q' c c') :
    Crosses S E (if b then p else q) (if b' then p' else q') c c' := by
  rw [hb]
  cases b with
  | true => exact hp rfl
  | false => exact hq rfl

/-- Something is read in front of the white space. -/
theorem early (h : Mirrors S s E p p' c c') (hf : ∀ a a' c₁ c₁', p c = .ok a c₁ → s a' = s a → c₁.Mirror S c₁' →
      Crosses S (fun b b' => (S.base ≠ [] → E a a') → F b b') (f a) (f' a') c₁ c₁') :
    Crosses S F (p >>= f) (p' >>= f') c c' := by
  intro b c₂ hb
  obtain ⟨a, c₁, ha, hb⟩ := bind_eq_ok.mp hb
  obtain ⟨a', c₁', ha', hs, h₁, hl, hE⟩ := h.ok a c₁ ha
  obtain ⟨hahead, hne, b', c₂', hb', hF, h₂⟩ := hf a a' c₁ c₁' ha hs h₁ b c₂ hb
  exact ⟨Cursor.Mirror.ahead_of_leads hahead hl, hne, b', c₂', bind_eq_ok.mpr ⟨a', c₁', ha', hb'⟩,
    hF fun hbase => hE ⟨hbase, .inr hahead⟩, h₂⟩

/-- The white space ends where the reading starts. -/
theorem here (h : c.Mirror S c') (hbase : S.base ≠ []) (hplace : c.peek.start = S.place)
    (hp : c.Mirror (S.beyond c.behind) c' → Mirrors (S.beyond c.behind) s E p p' c c') : Crosses S E p p' c c' := by
  intro a c₁ ha
  obtain ⟨hahead, hright⟩ := h.at_place hplace
  have hne := h.behind_ne_nil hbase
  obtain ⟨a', c₁', ha', -, h₁, hl, hE⟩ := (hp (h.crossed hright)).ok a c₁ ha
  exact ⟨hahead, hl.behind_ne_nil hne, a', c₁', ha', hE ⟨hne, .inl trivial⟩, h₁.restart⟩

/-- Something is read behind the white space. -/
theorem late (h : Crosses S E p p' c c') (hf : ∀ a a' c₁ c₁', E a a' → c₁.Mirror (S.beyond c₁.behind) c₁' →
      Mirrors (S.beyond c₁.behind) u F (f a) (f' a') c₁ c₁') : Crosses S F (p >>= f) (p' >>= f') c c' := by
  intro b c₂ hb
  obtain ⟨a, c₁, ha, hb⟩ := bind_eq_ok.mp hb
  obtain ⟨hahead, hne, a', c₁', ha', hE, h₁⟩ := h a c₁ ha
  obtain ⟨b', c₂', hb', -, h₂, hl, hF⟩ := (hf a a' c₁ c₁' hE h₁).ok b c₂ hb
  exact ⟨hahead, hl.behind_ne_nil hne, b', c₂', bind_eq_ok.mpr ⟨a', c₁', ha', hb'⟩, hF ⟨hne, .inl trivial⟩,
    h₂.restart⟩

theorem skip_bind {n : Nat} {f f' : Unit → Parser β} (h : c.Mirror S c')
    (hf : (c.advance n).Mirror S (c'.advance n) → Crosses S F (f ()) (f' ()) (c.advance n) (c'.advance n)) :
    Crosses S F (skip n >>= f) (skip n >>= f') c c' := by
  intro b c₂ hb
  obtain ⟨hahead, hrest⟩ := hf (h.advance n) b c₂ hb
  exact ⟨Cursor.Mirror.ahead_of_leads hahead (h.sound.advance n), hrest⟩

theorem consume_bind {f f' : Token → Parser β} (h : c.Mirror S c')
    (hf : (c.advance 1).Mirror S (c'.advance 1) → Crosses S F (f c.peek) (f' c'.peek) (c.advance 1) (c'.advance 1)) :
    Crosses S F (consume >>= f) (consume >>= f') c c' := by
  intro b c₂ hb
  obtain ⟨hahead, hrest⟩ := hf (h.advance 1) b c₂ hb
  exact ⟨Cursor.Mirror.ahead_of_leads hahead (h.sound.advance 1), hrest⟩

theorem expect_bind {m : Text} {f f' : Token → Parser β} (h : c.Mirror S c')
    (hf : (c.advance 1).Mirror S (c'.advance 1) → Crosses S F (f c.peek) (f' c'.peek) (c.advance 1) (c'.advance 1)) :
    Crosses S F (expect m >>= f) (expect m >>= f') c c' := by
  intro b c₂ hb
  obtain ⟨hreads, hb⟩ := expect_bind_eq_ok.mp hb
  obtain ⟨hahead, hne, b', c₂', hb', hrest⟩ := hf (h.advance 1) b c₂ hb
  exact ⟨Cursor.Mirror.ahead_of_leads hahead (h.sound.advance 1), hne, b', c₂',
    expect_bind_eq_ok.mpr ⟨((h.peek 0).reads m).trans hreads, hb'⟩, hrest⟩

section Loops

variable {item item' : Parser (Option α)} {P : Nat → Cursor → Prop}
  (hitem : ∀ {S : Respacing} {c c' : Cursor}, c.Mirror S c' →
    Mirrors S (Option.map s) (Option.Rel E) item item' c c')
  (hround : ∀ {n : Nat} {c c₁ : Cursor} {o : Option α}, P (n + 1) c → item c = .ok o c₁ → o.isSome ∧ P n c₁)
  (hcross : ∀ {c c' : Cursor}, c.Mirror S c' → P 0 c → Crosses S (Option.Rel E) item item' c c')
include hitem hround hcross

/-- The white space is come across after `n` rounds. -/
theorem collectWithin (hbase : S.base ≠ []) (m : Nat) {n : Nat} (h : c.Mirror S c') (hP : P n c) :
    Crosses S (List.Forall₂ E) (Parser.collectWithin item m) (Parser.collectWithin item' m) c c' := by
  induction m generalizing n c c' with
  | zero =>
    intro a c₁ ha
    cases ha
  | succ m ih =>
    cases n with
    | zero =>
      refine late (u := fun _ => ()) (hcross h hP) fun o o' c₁ c₁' ho h₁ => ?_
      cases ho with
      | none => exact .pure h₁ rfl .nil
      | some ha => exact .bind (.collectWithin (fun _ _ h₂ => hitem h₂) m h₁) fun _ _ _ _ _ h₂ => .pure h₂ rfl (.cons ha)
    | succ n =>
      refine early (hitem h) fun o o' c₁ c₁' ho hs h₁ => ?_
      obtain ⟨hsome, hP⟩ := hround hP ho
      obtain ⟨a, rfl⟩ := Option.isSome_iff_exists.mp hsome
      obtain ⟨a', rfl, -⟩ := Option.map_eq_some_iff.mp hs
      refine late (ih h₁ hP) fun as as' c₂ c₂' has h₂ => .pure (s := fun _ => ()) h₂ rfl fun ha => ?_
      cases ha hbase with
      | some ha => exact .cons ha has

theorem collect (hbase : S.base ≠ []) {n : Nat} (h : c.Mirror S c') (hP : P n c) :
    Crosses S (List.Forall₂ E) (Parser.collect item) (Parser.collect item') c c' :=
  get_bind (by rw [h.room]; exact collectWithin hitem hround hcross hbase _ h hP)

end Loops

section Lists

variable {item item' : Parser α} {P : Nat → Cursor → Prop}
  (hitem : ∀ {S : Respacing} {c c' : Cursor}, c.Mirror S c' → Mirrors S s E item item' c c')
  (hcross : ∀ {c c' : Cursor}, c.Mirror S c' → P 0 c → Crosses S E item item' c c')
include hitem hcross

theorem collectWhile {more : Cursor → Bool}
    (hmore : ∀ {S : Respacing} {c c' : Cursor}, c.Mirror S c' → more c' = more c)
    (hgo : ∀ {n : Nat} {c : Cursor}, P n c → more c = true)
    (hround : ∀ {n : Nat} {c c₁ : Cursor} {a : α}, P (n + 1) c → item c = .ok a c₁ → P n c₁)
    (hbase : S.base ≠ []) {n : Nat} (h : c.Mirror S c') (hP : P n c) :
    Crosses S (List.Forall₂ E) (Parser.collectWhile more item) (Parser.collectWhile more item') c c' := by
  refine collect (s := s) (fun h₁ => ?_) (fun hP ho => ?_) (fun h₁ hP => ?_) hbase h hP
  · exact .get_bind (.ite (hmore h₁) (fun _ => .bind (hitem h₁) fun _ _ _ _ ha h₂ => .pure h₂ (congrArg some ha) .some)
      fun _ => .pure h₁ rfl .none)
  · rw [get_bind_eq_ok, if_pos (hgo hP)] at ho
    obtain ⟨a, c₂, ha, ho⟩ := bind_eq_ok.mp ho
    obtain ⟨rfl, rfl⟩ := pure_eq_ok.mp ho
    exact ⟨rfl, hround hP ha⟩
  · exact get_bind (ite (hmore h₁) (fun _ => late (u := fun _ => ()) (hcross h₁ hP) fun _ _ _ _ ha h₂ =>
      .pure h₂ rfl (.some ha)) fun hfalse => absurd (hgo hP) (by simp [hfalse]))

/-- The white space is come across behind `n` items. -/
theorem separated (hround : ∀ {n : Nat} {c c₁ : Cursor} {a : α}, P (n + 1) c → item c = .ok a c₁ →
      c₁.peek.isSymbol "," = true ∧ P n (c₁.advance 1))
    (hbase : S.base ≠ []) {n : Nat} (h : c.Mirror S c') (hP : P n c) :
    Crosses S (List.Forall₂ E) (Parser.separated item) (Parser.separated item') c c' := by
  have hmore : ∀ {S : Respacing} {c c' : Cursor}, c.Mirror S c' →
      c'.peek.isSymbol "," = c.peek.isSymbol "," := fun h => (h.peek 0).isSymbol _
  have hnext : ∀ {S : Respacing} {c c' : Cursor}, c.Mirror S c' →
      Mirrors S s E (skip 1 >>= fun _ => item) (skip 1 >>= fun _ => item') c c' := fun h =>
    .skip_bind h fun h₁ => hitem h₁
  cases n with
  | zero =>
    exact late (u := fun _ => ()) (hcross h hP) fun a a' c₁ c₁' ha h₁ => .bind
      (.collectWhile (fun _ _ h₂ => hmore h₂) (fun _ _ h₂ _ => hnext h₂) h₁) fun _ _ _ _ _ h₂ => .pure h₂ rfl (.cons ha)
  | succ n =>
    refine early (hitem h) fun a a' c₁ c₁' ha _ h₁ => late (u := fun _ => ()) (collectWhile (n := n) (s := s)
      (P := fun k c => c.peek.isSymbol "," = true ∧ P k (c.advance 1)) hnext (fun h₂ hP => skip_bind h₂ fun h₃ =>
        hcross h₃ hP.2) hmore (fun hP => hP.1) (fun hP ha => hround hP.2 ha) hbase h₁ (hround hP ha))
      fun as as' c₂ c₂' has h₂ => .pure h₂ rfl fun ha => .cons (ha hbase) has

end Lists

end Crosses

end SwiftMacros.Parser
