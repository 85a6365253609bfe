import Mathlib
import SwiftMacros.Proofs.Cursor.Pieces
import SwiftMacros.Proofs.Parser.Spec
import SwiftMacros.Proofs.Parser.Answers

/-! Reading forward. From any cursor at all, whatever has been split before, a parser takes tokens and
splits operators ahead of it, and no more than that, whether it answers or fails. What reads forward is
closed under all that parsers are made of, so this holds without a look at what they answer. -/

namespace SwiftMacros

namespace Cursor

/-- `c'` comes from `c` by taking tokens and splitting operators. -/
structure Onward (c c' : Cursor) : Prop where
  source : c'.source = c.source
  eof : c'.eof = c.eof
  taken : ∃ ts, c'.behind = ts.reverse ++ c.behind ∧ Token.Splits c.ahead (ts ++ c'.ahead)

namespace Onward

variable {c c' c'' : Cursor}

theorem refl (c : Cursor) : c.Onward c := ⟨rfl, rfl, [], rfl, .refl _⟩

theorem trans (h : c.Onward c') (h' : c'.Onward c'') : c.Onward c'' := by
  obtain ⟨ts, hb, hs⟩ := h.taken
  obtain ⟨us, hb', hs'⟩ := h'.taken
  refine ⟨h'.source.trans h.source, h'.eof.trans h.eof, ts ++ us, by simp [hb, hb'], ?_⟩
  rw [List.append_assoc]
  exact hs.trans (hs'.append ts)

theorem inner (h : c.Onward c') : Token.Splits c.inner c'.inner := by
  obtain ⟨ts, hb, hs⟩ := h.taken
  rw [Cursor.inner, Cursor.inner, hb, List.reverse_append, List.reverse_reverse, List.append_assoc]
  exact hs.append _

/-- As long as no token has been taken, the token at the cursor starts where it did. -/
theorem peek_start (h : c.Onward c') (hb : c'.behind = c.behind) : c'.peek.start = c.peek.start := by
  obtain ⟨ts, hts, hs⟩ := h.taken
  obtain rfl : ts = [] := by simpa [hb] using hts
  have hpeek : ∀ d : Cursor, d.peek.start = (d.ahead.head?.map Token.start).getD d.eof.start := by
    intro d
    cases ha : d.ahead <;> simp [peek, ha]
  rw [hpeek, hpeek, h.eof, ← hs.head_start, List.nil_append]

/-- Going back to where a reading started gives up all that it has taken, and no split. -/
theorem rewind (h : c.Onward c') :
    c.Onward (c'.rewind c.position) ∧ (c'.rewind c.position).behind = c.behind := by
  obtain ⟨ts, hb, hs⟩ := h.taken
  have hk : c'.behind.length - c.position = ts.reverse.length := by
    simp [hb, position]
  have hle : c.position ≤ c'.behind.length := by simp [hb, position]
  have hbehind : (c'.rewind c.position).behind = c.behind := by
    rw [rewind_of_le hle]
    simp only [hk]
    rw [hb, List.drop_left]
  have hahead : (c'.rewind c.position).ahead = ts ++ c'.ahead := by
    rw [rewind_of_le hle]
    simp only [hk]
    rw [hb, List.take_left, List.reverse_reverse]
  exact ⟨⟨h.source, h.eof, [], hbehind, by rw [hahead]; exact hs⟩, hbehind⟩

end Onward

theorem advance_onward (c : Cursor) (n : Nat) : c.Onward (c.advance n) := by
  refine ⟨rfl, rfl, c.ahead.take n, rfl, ?_⟩
  rw [Cursor.advance, List.take_append_drop]
  exact .refl _

theorem splitOperator_onward (c : Cursor) {n : Nat} (hn : 0 < n) : c.Onward (c.splitOperator n) := by
  simp only [Cursor.splitOperator]
  split
  · exact .refl c
  · rename_i t ts hahead
    split
    · rename_i hsplit
      exact ⟨rfl, rfl, [], rfl, hahead ▸ .single hsplit.1 hn hsplit.2 ts⟩
    · exact .refl c

end Cursor

namespace Parser

variable {α β σ : Type}

/-- The cursor that a parser leaves behind, whether it answers or fails. -/
def after (p : Parser α) (c : Cursor) : Cursor :=
  match p c with
  | .ok _ c' => c'
  | .error _ c' => c'

/-- The parser takes tokens and splits operators, and does nothing else to a cursor. -/
def Forward (p : Parser α) : Prop := ∀ c : Cursor, c.Onward (after p c)

/-- What is read between two brackets. -/
def bracketedItems (last : String) (separator : Wanted) (item : Parser α) : Parser (List α) :=
  collectWhile (fun c => !c.peek.isSymbol last) do
    let a ← item
    let t ← current
    if t.isSymbol "," then skip 1
    else if !t.isSymbol last then fail separator
    return a

theorem bracketed_eq (first last : String) (separator : Wanted) (item : Parser α) :
    bracketed first last separator item = expect first.toList >>= fun _ =>
      bracketedItems last separator item >>= fun as => expect last.toList >>= fun _ => pure as := rfl

namespace Forward

variable {p q : Parser α} {f : α → Parser β}

theorem pure (a : α) : Forward (Pure.pure a) := Cursor.Onward.refl

theorem throw (e : SyntaxError) : Forward (throwThe SyntaxError e : Parser α) := Cursor.Onward.refl

theorem get : Forward (MonadState.get : Parser Cursor) := Cursor.Onward.refl

theorem current : Forward current := Cursor.Onward.refl

theorem fail (w : Wanted) : Forward (fail w : Parser α) := Cursor.Onward.refl

theorem stall : Forward (stall : Parser α) := Cursor.Onward.refl

theorem sliceFrom (t : Token) : Forward (sliceFrom t) := Cursor.Onward.refl

/-- A part of the source is kept in the answer. -/
theorem keep (t : Token) (f : Text → α) :
    Forward (Parser.sliceFrom t >>= fun s => Pure.pure (f s)) := Cursor.Onward.refl

theorem skip (n : Nat) : Forward (skip n) := fun c => c.advance_onward n

theorem consume : Forward consume := fun c => c.advance_onward 1

theorem bind (hp : Forward p) (hf : ∀ a, Forward (f a)) : Forward (p >>= f) := by
  intro c
  have h := hp c
  unfold after at h ⊢
  cases hc : p c with
  | error e c' =>
    rw [hc] at h
    rwa [bind_of_error hc]
  | ok a c' =>
    rw [hc] at h
    rw [bind_of_ok hc]
    exact h.trans (hf a c')

theorem ite {b : Prop} [Decidable b] (hp : Forward p) (hq : Forward q) :
    Forward (if b then p else q) := by
  split
  · exact hp
  · exact hq

theorem attempt (hp : Forward p) : Forward (attempt p) := by
  intro c
  have h := hp c
  unfold after at h
  unfold after Parser.attempt
  cases hc : p c with
  | error e c' =>
    rw [hc] at h
    exact h.rewind.1
  | ok a c' =>
    rw [hc] at h
    exact h

theorem expect (text : Text) : Forward (expect text) := get.bind fun _ => ite consume (throw _)

theorem expectEof : Forward expectEof := get.bind fun _ => ite (pure _) (throw _)

theorem consumePart {n : Nat} (hn : 0 < n) : Forward (consumePart n) :=
  bind (p := modify _) (fun c => c.splitOperator_onward hn) fun _ => consume

theorem consumeOperator {text : String} (h : 0 < text.length) : Forward (consumeOperator text) :=
  current.bind fun _ => ite (consumePart h) (fail _)

theorem skipBalanced : Forward skipBalanced := by
  refine get.bind fun c => ?_
  split
  · exact skip _
  · exact bind (skip _) fun _ => fail _

section Loops

variable {item : Parser (Option α)} {step : σ → Parser (Option σ)}

theorem collect (h : Forward item) : Forward (collect item) := by
  have hwithin : ∀ n, Forward (collectWithin item n) := by
    intro n
    induction n with
    | zero => exact stall
    | succ n ih =>
      refine bind h fun o => ?_
      cases o with
      | none => exact pure _
      | some a => exact ih.bind fun _ => pure _
  exact get.bind fun c => hwithin _

theorem collectWhile (more : Cursor → Bool) {item : Parser α} (h : Forward item) :
    Forward (collectWhile more item) :=
  collect (get.bind fun _ => ite (h.bind fun _ => pure _) (pure _))

theorem extend (h : ∀ s, Forward (step s)) (s : σ) : Forward (extend step s) := by
  have hwithin : ∀ n s, Forward (extendWithin step n s) := by
    intro n
    induction n with
    | zero => exact fun _ => stall
    | succ n ih =>
      refine fun s => bind (h s) fun o => ?_
      cases o with
      | none => exact pure _
      | some s' => exact ih s'
  exact get.bind fun c => hwithin _ s

theorem bracketedItems (last : String) (separator : Wanted) {item : Parser α} (h : Forward item) :
    Forward (bracketedItems last separator item) := by
  refine collectWhile _ (h.bind fun _ => current.bind fun _ => ite ((skip _).bind fun _ => pure _) (ite ?_ (pure _)))
  exact (fail _).bind fun _ => pure _

theorem bracketed (first last : String) (separator : Wanted) {item : Parser α} (h : Forward item) :
    Forward (bracketed first last separator item) :=
  (expect _).bind fun _ => (bracketedItems last separator h).bind fun _ => (expect _).bind fun _ => pure _

/-- Items in brackets are read behind the opening one. -/
theorem bracketed_onward {first last : String} {separator : Wanted} {item : Parser α} (h : Forward item)
    {c c' : Cursor} {as : List α} (has : Parser.bracketed first last separator item c = .ok as c') :
    (c.advance 1).Onward c' := by
  rw [bracketed_eq, expect_bind_eq_ok] at has
  have hrest := ((bracketedItems last separator h).bind fun as =>
    (expect last.toList).bind fun _ => pure as) (c.advance 1)
  rwa [after, has.2] at hrest

theorem separated {item : Parser α} (h : Forward item) : Forward (separated item) :=
  h.bind fun _ => bind (collectWhile _ ((skip _).bind fun _ => h)) fun _ => pure _

end Loops

end Forward

/-- A failing attempt to read forward puts the cursor back on a token that starts where the one
before it did, with the same tokens passed. -/
theorem Forward.failed_attempt {p : Parser α} (hp : Forward p) {c c₁ : Cursor} {e : SyntaxError}
    (he : p c = .error e c₁) : ∃ c', Parser.attempt p c = .ok none c' ∧ c'.behind = c.behind ∧
      c'.peek.start = c.peek.start := by
  have h := hp c
  unfold after at h
  rw [he] at h
  obtain ⟨honward, hbehind⟩ := Cursor.Onward.rewind h
  refine ⟨c₁.rewind c.position, by unfold Parser.attempt; rw [he], hbehind, honward.peek_start hbehind⟩

end Parser

end SwiftMacros
