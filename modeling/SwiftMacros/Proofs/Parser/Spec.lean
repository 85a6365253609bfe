import Mathlib
import SwiftMacros.Proofs.Cursor.Sound
import SwiftMacros.Parser

/-! What a parser guarantees. From a sound cursor it leads to a sound one, whether it answers or
fails; on an answer a postcondition holds as well. The rules below take a parser apart along its
text: a bind, a choice, a loop, an attempt. -/

namespace SwiftMacros.Parser

open Token (Word Reads lexeme isMarkChar isOperatorWith Placed Joint)

variable {α β σ : Type}

/-- From `c`, the parser `p` leads to a sound cursor, and its answers satisfy `Q`. -/
def Spec (p : Parser α) (c : Cursor) (Q : α → Cursor → Prop) : Prop :=
  match p c with
  | .ok a c' => c.Leads c' ∧ Q a c'
  | .error _ c' => c.Leads c'

theorem balancedLength?_pos {depth : Int} {ts : List Token} {n : Nat}
    (h : balancedLength? depth ts = some n) : 1 ≤ n := by
  cases ts with
  | nil => cases h
  | cons t ts =>
    simp only [balancedLength?] at h
    split_ifs at h
    · obtain ⟨m, -, rfl⟩ := Option.map_eq_some_iff.mp h
      omega
    · cases h
      omega
    · obtain ⟨m, -, rfl⟩ := Option.map_eq_some_iff.mp h
      omega
    · obtain ⟨m, -, rfl⟩ := Option.map_eq_some_iff.mp h
      omega

section Bind

variable {p : Parser α} {f : α → Parser β} {c c' : Cursor} {a : α} {b : β} {e : SyntaxError}

theorem run_get_bind {f : Cursor → Parser β} : (get >>= f) c = f c c := rfl

theorem bind_of_ok (h : p c = .ok a c') : (p >>= f) c = f a c' := by
  simp only [bind, EStateM.bind, h]

theorem bind_of_error (h : p c = .error e c') : (p >>= f) c = .error e c' := by
  simp only [bind, EStateM.bind, h]

theorem of_bind_ok (h : (p >>= f) c = .ok b c') : ∃ a c₁, p c = .ok a c₁ ∧ f a c₁ = .ok b c' := by
  cases hp : p c with
  | error e c₁ =>
    rw [bind_of_error hp] at h
    cases h
  | ok a c₁ =>
    rw [bind_of_ok hp] at h
    exact ⟨a, c₁, rfl, h⟩

end Bind

namespace Spec

variable {p q : Parser α} {f : α → Parser β} {c c' : Cursor} {Q : α → Cursor → Prop}
  {Q' : β → Cursor → Prop}

theorem pure {a : α} (h : c.Sound) (hp : Q a c) : Spec (pure a) c Q := ⟨h.refl, hp⟩

theorem throw {e : SyntaxError} (h : c.Sound) : Spec (throw e) c Q := h.refl

theorem fail {w : Wanted} (h : c.Sound) : Spec (fail w) c Q := h.refl

theorem stall (h : c.Sound) : Spec stall c Q := h.refl

/-- A parser goes on from where a cursor leads to. -/
theorem ok (h : Spec p c Q) {a : α} (hp : p c = .ok a c') : c.Leads c' ∧ Q a c' := by
  simpa only [Spec, hp] using h

theorem error (h : Spec p c Q) {e : SyntaxError} (hp : p c = .error e c') : c.Leads c' := by
  simpa only [Spec, hp] using h

theorem and {Q' : α → Cursor → Prop} (h : Spec p c Q) (h' : Spec p c Q') :
    Spec p c fun a c' => Q a c' ∧ Q' a c' := by
  simp only [Spec] at h h' ⊢
  split
  · simp_all
  · simp_all

theorem mono {Q' : α → Cursor → Prop} (h : Spec p c Q)
    (hp : ∀ a c', c.Leads c' → Q a c' → Q' a c') : Spec p c Q' := by
  simp only [Spec] at h ⊢
  split at h
  · exact ⟨h.1, hp _ _ h.1 h.2⟩
  · exact h

/-- What a parser leads to when nothing is asked of its answers. -/
theorem lead (h : Spec p c Q) : Spec p c fun _ _ => True := h.mono fun _ _ _ _ => trivial

theorem bind (h : Spec p c Q)
    (hf : ∀ a c', c.Leads c' → Q a c' → Spec (f a) c' Q') : Spec (p >>= f) c Q' := by
  simp only [Spec, Bind.bind, EStateM.bind] at h ⊢
  cases hp : p c with
  | error e c' =>
    rw [hp] at h
    exact h
  | ok a c' =>
    rw [hp] at h
    have hfa := hf a c' h.1 h.2
    simp only [Spec] at hfa
    split at hfa <;> rename_i heq
    · simp only [heq]
      exact ⟨h.1.trans hfa.1, hfa.2⟩
    · simp only [heq]
      exact h.1.trans hfa

theorem get_bind {f : Cursor → Parser β} (h : Spec (f c) c Q') : Spec (get >>= f) c Q' := h

theorem current_bind {f : Token → Parser β} (h : Spec (f c.peek) c Q') :
    Spec (current >>= f) c Q' := h

theorem sliceFrom {t : Token} {Q : Text → Cursor → Prop} (h : c.Sound)
    (hp : Q (c.sliceFrom t) c) : Spec (sliceFrom t) c Q := ⟨h.refl, hp⟩

theorem sliceFrom_bind {t : Token} {f : Text → Parser β} (h : Spec (f (c.sliceFrom t)) c Q') :
    Spec (Parser.sliceFrom t >>= f) c Q' := h

theorem pure_bind {a : α} (h : Spec (f a) c Q') : Spec (Pure.pure a >>= f) c Q' := h

theorem ite {b : Prop} [Decidable b] (hp : b → Spec p c Q) (hq : ¬ b → Spec q c Q) :
    Spec (if b then p else q) c Q := by
  split
  · exact hp ‹_›
  · exact hq ‹_›

/-- One of two parsers, and what comes behind both. -/
theorem branch {b : Prop} [Decidable b] (hp : b → Spec p c Q) (hq : ¬ b → Spec q c Q)
    (hf : ∀ a c', c.Leads c' → Q a c' → Spec (f a) c' Q') :
    Spec (if b then p >>= f else q >>= f) c Q' :=
  ite (fun h => bind (hp h) hf) fun h => bind (hq h) hf

/-- A parser that is run or not, and what comes behind. -/
theorem optional {b : Prop} [Decidable b] {p : Parser Unit} {f : Unit → Parser β}
    {Q : Unit → Cursor → Prop} (hs : c.Sound) (hp : b → Spec p c Q) (hn : ¬ b → Q () c)
    (hf : ∀ c', c.Leads c' → Q () c' → Spec (f ()) c' Q') :
    Spec (if b then p >>= f else f ()) c Q' :=
  ite (fun h => bind (hp h) fun _ => hf) fun h => hf c hs.refl (hn h)

/-- A parser that is run or not, where its answer does not matter. -/
theorem whether {b : Prop} [Decidable b] {q : Parser β} {Q : Cursor → Prop} (hs : c.Sound)
    (hp : b → Spec p c fun _ c' => Q c') (hn : ¬ b → Q c)
    (hq : ∀ c', c.Leads c' → Q c' → Spec q c' Q') :
    Spec (if b then p >>= fun _ => q else q) c Q' :=
  ite (fun h => bind (hp h) fun _ => hq) fun h => hq c hs.refl (hn h)

theorem skip_bind {n : Nat} {f : Unit → Parser β} (hs : c.Sound)
    (h : Spec (f ()) (c.advance n) Q') : Spec (skip n >>= f) c Q' :=
  bind (p := skip n) (Q := fun _ c' => c' = c.advance n) ⟨hs.advance n, rfl⟩
    (by rintro _ _ - rfl; exact h)

theorem consume_bind {f : Token → Parser β} (hs : c.Sound)
    (h : Spec (f c.peek) (c.advance 1) Q') : Spec (consume >>= f) c Q' :=
  bind (p := consume) (Q := fun t c' => t = c.peek ∧ c' = c.advance 1) ⟨hs.advance 1, rfl, rfl⟩
    (by rintro _ _ - ⟨rfl, rfl⟩; exact h)

theorem expect_bind {text : Text} {f : Token → Parser β} (hs : c.Sound)
    (h : c.peek.reads text = true → Spec (f c.peek) (c.advance 1) Q') :
    Spec (expect text >>= f) c Q' := by
  refine bind (p := expect text)
    (Q := fun t c' => c.peek.reads text = true ∧ t = c.peek ∧ c' = c.advance 1) ?_ ?_
  · refine get_bind (ite (fun hr => ?_) fun _ => throw hs)
    exact ⟨hs.advance 1, hr, rfl, rfl⟩
  · rintro _ _ - ⟨hr, rfl, rfl⟩
    exact h hr

/-- Splitting a mark off an operator and taking it. -/
theorem consumePart_bind {f : Token → Parser β} {m : Char} (hs : c.Sound)
    (hk : c.peek.kind = .operator) (hm : c.peek.text.head? = some m) (hmark : isMarkChar m = true)
    (h : ∀ t c', c.Leads c' → t.start = c.peek.start → t.kind = .operator → t.text = [m] →
      c'.behind = t :: c.behind → c'.edge = c.peek.start + 1 → Spec (f t) c' Q') :
    Spec (consumePart 1 >>= f) c Q' := by
  have hsplit := hs.splitOperator (fun d hd => by
    obtain rfl : m = d := by simpa [hm] using hd
    exact hmark)
  obtain ⟨hstart, hkind, htext⟩ := hs.peek_splitOperator hk hm
  have heof : (c.splitOperator 1).peek.kind ≠ .eof := by simp [hkind]
  have hplaced := hsplit.sound.placed_peek heof
  have hlen := hplaced.length
  have hlt := hplaced.lt
  rw [htext, List.length_singleton] at hlen
  refine bind (p := consumePart 1)
    (Q := fun t c' => t = (c.splitOperator 1).peek ∧ c' = (c.splitOperator 1).advance 1)
    ⟨hsplit.trans (hsplit.sound.advance 1), rfl, rfl⟩ ?_
  rintro _ _ hl ⟨rfl, rfl⟩
  refine h _ _ hl hstart hkind htext ?_ ?_
  · rw [hsplit.sound.behind_advance heof, Cursor.behind_splitOperator]
  · rw [hsplit.sound.edge_advance heof]
    omega

/-- Taking a mark from the front of an operator. -/
theorem consumeOperator_bind {f : Token → Parser β} {m : Char} (hs : c.Sound)
    (hmark : isMarkChar m = true)
    (h : c.peek.kind = .operator → ∀ t c', c.Leads c' → t.start = c.peek.start →
      t.kind = .operator → t.text = [m] → c'.behind = t :: c.behind →
      c'.edge = c.peek.start + 1 → Spec (f t) c' Q') :
    Spec (consumeOperator (String.singleton m) >>= f) c Q' := by
  refine bind (p := consumeOperator (String.singleton m))
    (Q := fun t c' => c.peek.kind = .operator ∧ t.start = c.peek.start ∧ t.kind = .operator ∧
      t.text = [m] ∧ c'.behind = t :: c.behind ∧ c'.edge = c.peek.start + 1) ?_ ?_
  · refine current_bind (ite (fun hop => ?_) fun _ => fail hs)
    simp only [isOperatorWith, Bool.and_eq_true, beq_iff_eq] at hop
    obtain ⟨hk, hp⟩ := hop
    have hm : c.peek.text.head? = some m := by
      rw [String.toList_singleton, List.isPrefixOf_iff_prefix] at hp
      obtain ⟨x, hx⟩ := hp
      rw [← hx]
      rfl
    have := consumePart_bind (f := fun t => Pure.pure t) hs hk hm hmark
      fun t c' hl h1 h2 h3 h4 h5 => pure (Q := fun t c' => c.peek.kind = .operator ∧
        t.start = c.peek.start ∧ t.kind = .operator ∧ t.text = [m] ∧ c'.behind = t :: c.behind ∧
        c'.edge = c.peek.start + 1) hl.sound ⟨hk, h1, h2, h3, h4, h5⟩
    rw [bind_pure] at this
    simpa using this
  · rintro t c' hl ⟨hk, h1, h2, h3, h4, h5⟩
    exact h hk t c' hl h1 h2 h3 h4 h5

/-- An attempt that fails takes nothing. -/
theorem attempt (h : Spec p c Q) :
    Spec (attempt p) c fun o c' =>
      (∀ a, o = some a → Q a c') ∧ (o = none → c'.behind = c.behind) := by
  unfold Spec Parser.attempt at *
  cases hp : p c with
  | ok a c' =>
    rw [hp] at h
    exact ⟨h.1, by simpa using h.2⟩
  | error e c' =>
    rw [hp] at h
    exact ⟨h.rewind.1, by simp, fun _ => h.rewind.2⟩

section Loops

variable {item : Parser (Option α)} {I Q : List α → Cursor → Prop}

/-- A loop keeps an invariant of the items read so far. -/
theorem collectWithin {c₀ : Cursor} (hitem : ∀ as c, c₀.Leads c → I as c → Spec item c fun o c' =>
      (∀ a, o = some a → I (as ++ [a]) c') ∧ (o = none → Q as c'))
    (n : Nat) (as : List α) (hs : c₀.Leads c) (hi : I as c) :
    Spec (collectWithin item n) c fun bs c' => Q (as ++ bs) c' := by
  induction n generalizing as c with
  | zero => exact stall hs.sound
  | succ n ih =>
    refine bind (hitem as c hs hi) fun o c' hl ho => ?_
    cases o with
    | none => exact pure hl.sound (by simpa using ho.2 rfl)
    | some a =>
      refine bind (ih (as ++ [a]) (hs.trans hl) (ho.1 a rfl)) fun bs c'' hl' hbs => ?_
      exact pure hl'.sound (by simpa using hbs)

theorem collect (hitem : ∀ as c', c.Leads c' → I as c' → Spec item c' fun o c'' =>
      (∀ a, o = some a → I (as ++ [a]) c'') ∧ (o = none → Q as c''))
    (hs : c.Sound) (hi : I [] c) : Spec (collect item) c Q :=
  get_bind (by simpa using collectWithin hitem (c.room + 1) [] hs.refl hi)

theorem collectWhile {more : Cursor → Bool} {item : Parser α}
    (hitem : ∀ as c', c.Leads c' → I as c' → more c' = true →
      Spec item c' fun a c'' => I (as ++ [a]) c'')
    (hs : c.Sound) (hi : I [] c) :
    Spec (collectWhile more item) c fun as c' => I as c' ∧ more c' = false := by
  refine collect (fun as c' hl hi => get_bind (ite (fun hm => ?_) fun hm => ?_)) hs hi
  · exact bind (hitem as c' hl hi hm) fun a c'' hl ha => pure hl.sound (by simpa using ha)
  · exact pure hl.sound (by simpa using ⟨hi, by simpa using hm⟩)

/-- Items between two marks: the invariant holds behind the opening mark and behind each comma, and
at the closing mark. -/
theorem bracketed {first last : String} {separator : Wanted} {item : Parser α} (hs : c.Sound)
    (hi : I [] (c.advance 1))
    (hitem : ∀ as c', (c.advance 1).Leads c' → I as c' → c'.peek.isSymbol last = false →
      Spec item c' fun a c'' =>
        (c''.peek.isSymbol "," = true → I (as ++ [a]) (c''.advance 1)) ∧
        (c''.peek.isSymbol last = true → I (as ++ [a]) c'')) :
    Spec (bracketed first last separator item) c fun as c' =>
      ∃ c'', (c.advance 1).Leads c'' ∧ I as c'' ∧ c''.peek.isSymbol last = true ∧
        c' = c''.advance 1 := by
  refine expect_bind hs fun _ => ?_
  have hs' := (hs.advance 1).sound
  refine bind (collectWhile (I := I) (fun as c' hl hi hm => ?_) hs' hi) fun as c' hl ha => ?_
  · refine bind (hitem as c' hl hi (by simpa using hm)) fun a c'' hl' ha => ?_
    refine current_bind (ite (fun hcomma => ?_) fun _ => ite (fun hlast => ?_) fun hlast => ?_)
    · exact skip_bind hl'.sound (pure (hl'.sound.advance 1).sound (ha.1 hcomma))
    · exact bind (fail hl'.sound) (Q := fun _ _ => False) fun _ _ _ h => h.elim
    · exact pure_bind (pure hl'.sound (ha.2 (by simpa using hlast)))
  · exact expect_bind hl.sound fun _ => pure (hl.sound.advance 1).sound
      ⟨c', hl, ha.1, by simpa using ha.2, rfl⟩

/-- Items with commas between them: the invariant holds behind each item. -/
theorem separated {item : Parser α} (hfirst : Spec item c fun a c' => I [a] c')
    (hitem : ∀ as c', c.Leads c' → I as c' → c'.peek.isSymbol "," = true →
      Spec item (c'.advance 1) fun a c'' => I (as ++ [a]) c'') :
    Spec (separated item) c I := by
  refine bind hfirst fun a c' hl ha => ?_
  refine bind (collectWhile (I := fun as c => I (a :: as) c)
    (fun as c'' hl' hi hm => skip_bind hl'.sound (hitem _ _ (hl.trans hl') hi hm)) hl.sound ha)
    fun as c'' hl' has => pure hl'.sound has.1

end Loops

section Extend

variable {step : σ → Parser (Option σ)} {I Q : σ → Cursor → Prop}

theorem extendWithin {c₀ : Cursor} (hstep : ∀ s c, c₀.Leads c → I s c → Spec (step s) c fun o c' =>
      (∀ s', o = some s' → I s' c') ∧ (o = none → Q s c'))
    (n : Nat) (s : σ) (hs : c₀.Leads c) (hi : I s c) : Spec (extendWithin step n s) c Q := by
  induction n generalizing s c with
  | zero => exact stall hs.sound
  | succ n ih =>
    refine bind (hstep s c hs hi) fun o c' hl ho => ?_
    cases o with
    | none => exact pure hl.sound (ho.2 rfl)
    | some s' => exact ih s' (hs.trans hl) (ho.1 s' rfl)

theorem extend (hstep : ∀ s c', c.Leads c' → I s c' → Spec (step s) c' fun o c'' =>
      (∀ s', o = some s' → I s' c'') ∧ (o = none → Q s c''))
    {s : σ} (hs : c.Sound) (hi : I s c) : Spec (extend step s) c Q :=
  get_bind (extendWithin hstep (c.room + 1) s hs.refl hi)

end Extend

/-- Passing over what an opener holds takes it at least. -/
theorem skipBalanced (hs : c.Sound) : Spec skipBalanced c fun _ c' => (c.advance 1).Leads c' := by
  refine get_bind ?_
  cases hn : balancedLength? 0 c.ahead with
  | none => exact skip_bind hs (fail (hs.advance _).sound)
  | some n =>
    obtain ⟨m, rfl⟩ := Nat.exists_eq_add_of_le (balancedLength?_pos hn)
    refine ⟨hs.advance _, ?_⟩
    beta_reduce
    rw [Cursor.advance_add]
    exact (hs.advance 1).sound.advance m

end Spec

end SwiftMacros.Parser
