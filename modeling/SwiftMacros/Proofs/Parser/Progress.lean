import Mathlib
import SwiftMacros.Proofs.Grammar.Terminating
import SwiftMacros.Proofs.Parser.Session

/-! Reading makes progress and stops. This holds at every place in a text, whatever operators have been
split before. A parser gives an answer or a syntax error that tells what is wrong with the text; it never
runs out of rounds or levels, of which there have to be no more than characters left. Where it answers
with something that cannot be empty, the next token starts further on. -/

namespace SwiftMacros

namespace Cursor

/-- A cursor on the tokens of a text has the end of it behind tokens that are lined up. -/
theorem SplitsTo.sized {text : Text} {c₀ c : Cursor} (h₀ : ofText text = .ok c₀)
    (h : c₀.SplitsTo c) : c.Sized ∧ c.eof.start = text.length := by
  obtain ⟨rfl, -, hlaid, hkind, -, hstart, -⟩ := laid_ofText h₀
  have hlined := ((hlaid.lined (Nat.zero_le _)).splits h.inner).1
  obtain ⟨m, -, hahead⟩ := hlined.of_append
  refine ⟨⟨by rw [h.eof, hkind], ?_⟩, by rw [h.eof, hstart]⟩
  rw [h.eof, hstart]
  exact hahead.mono (Nat.zero_le m)

/-- `c'` comes from `c` by reading on. It is at a token, behind which there is none but the end of the
text at most. -/
structure ReadsTo (c c' : Cursor) : Prop where
  onward : c.Onward c'
  inside : c'.tokens[c'.position]? = some c'.peek
  last : c'.tokens.getLast? = some c.eof

theorem Onward.readsTo {c c' : Cursor} (h : c.Onward c') : c.ReadsTo c' :=
  ⟨h, c'.tokens_position, by rw [tokens_eq, List.getLast?_concat, h.eof]⟩

end Cursor

namespace Parser

variable {α : Type} {c : Cursor} {rule : Grammar → Parser α}

/-- Reading by a rule comes to an end at `c`. Any grammar with more levels than there is room ahead
reads the same, so that it does not matter what would be done below them; no loop runs out of rounds;
and the cursor goes on, but not past the end of the text. -/
structure Terminates (rule : Grammar → Parser α) (c : Cursor) : Prop where
  levels : ∀ lowest n, c.room < n → rule (Grammar.above lowest n) c = withGrammar rule c
  rounds : ∀ e c', withGrammar rule c = .error e c' → e.fault ≠ .stalled
  cursor : c.ReadsTo (after (withGrammar rule) c)

/-- The token behind what the parser answers with starts further on. -/
def Progresses (p : Parser α) (c : Cursor) : Prop := ∀ a c', p c = .ok a c' → c.peek.start < c'.peek.start

theorem withGrammar_eq (rule : Grammar → Parser α) (c : Cursor) :
    withGrammar rule c = rule (Grammar.upTo (c.room + 1)) c := rfl

/-- What is read with a grammar that is large enough for the room ahead is read with any other. -/
theorem withGrammar_halts {Q : Cursor → α → Cursor → Prop}
    (h : ∀ (n : Nat) (g g' : Grammar), g.Terminating n g' → ∀ c : Cursor, c.Sized → c.room < n + 1 →
      Halts (rule g) (rule g') c (Q c))
    (hs : c.Sized) (lowest : Grammar) :
    Halts (withGrammar rule) (rule (Grammar.above lowest (c.room + 1))) c (Q c) := by
  have hg := Grammar.above_terminating (Grammar.upTo 0) lowest (c.room + 1)
  rw [← Grammar.upTo_eq_above] at hg
  have hhalts := h _ _ _ hg c hs (by omega)
  unfold Halts at hhalts ⊢
  rwa [withGrammar_eq]

theorem Terminates.of_terminating
    (h : ∀ (n : Nat) (g g' : Grammar), g.Terminating n g' → Terminating (n + 1) (rule g) (rule g'))
    (hs : c.Sized) : Terminates rule c := by
  have hhalts := withGrammar_halts h hs
  obtain ⟨-, houtcome⟩ := hhalts (Grammar.upTo 0)
  refine ⟨fun lowest n hn => ?_, fun e c' he => ?_, ?_⟩
  · obtain ⟨m, rfl⟩ := Nat.exists_eq_add_of_le hn
    rw [Grammar.above_add]
    exact (hhalts _).1
  · rw [he] at houtcome
    exact houtcome.2
  · unfold after
    cases hc : withGrammar rule c with
    | ok a c' =>
      rw [hc] at houtcome
      exact houtcome.1.readsTo
    | error e c' =>
      rw [hc] at houtcome
      exact houtcome.1.readsTo

theorem Progresses.of_advancing
    (h : ∀ (n : Nat) (g g' : Grammar), g.Terminating n g' → Advancing (n + 1) (rule g) (rule g'))
    (hs : c.Sized) : Progresses (withGrammar rule) c := by
  intro a c' hc
  obtain ⟨-, houtcome⟩ := withGrammar_halts h hs (Grammar.upTo 0)
  rw [hc] at houtcome
  exact houtcome.1.start_lt hs houtcome.2

/-- At every place in a text, with whatever operators split, reading comes to an end. This holds of
what is only attempted on the way, too, where a failure goes unnoticed. There is no more room than
there are characters left; and everything but a declaration takes characters where it is read. -/
theorem reading_ends {text : Text} {c₀ c : Cursor} (h₀ : Cursor.ofText text = .ok c₀)
    (hc : c₀.SplitsTo c) :
    (Terminates Grammar.typeRule c ∧ Terminates Grammar.expressionRule c ∧ Terminates Grammar.closureRule c ∧
      Terminates Grammar.attributeRule c ∧ Terminates Grammar.expansionRule c ∧ Terminates Grammar.memberBlockRule c ∧
      Terminates Grammar.declarationRule c) ∧
    (Terminates (fun g => g.arguments "(" ")") c ∧ Terminates Grammar.specializationClause c ∧
      Terminates Grammar.closureSignature c) ∧
    c.peek.start + c.room ≤ text.length ∧
    (Progresses type c ∧ Progresses expression c ∧ Progresses closure c ∧ Progresses attributeHere c ∧
      Progresses expansion c ∧ Progresses memberBlock c) := by
  obtain ⟨hs, hend⟩ := hc.sized h₀
  refine ⟨⟨?_, ?_, ?_, ?_, ?_, ?_, ?_⟩, ⟨?_, ?_, ?_⟩, hend ▸ hs.peek_add_room_le, ?_, ?_, ?_, ?_, ?_, ?_⟩
  · exact .of_terminating (fun _ _ _ hg => (Grammar.typeRule_advancing hg).terminating) hs
  · exact .of_terminating (fun _ _ _ hg => (Grammar.expressionRule_advancing hg).terminating) hs
  · exact .of_terminating (fun _ _ _ hg => (Grammar.closureRule_advancing hg).terminating) hs
  · exact .of_terminating (fun _ _ _ hg => (Grammar.attributeRule_advancing hg).terminating) hs
  · exact .of_terminating (fun _ _ _ hg => (Grammar.expansionRule_advancing hg).terminating) hs
  · exact .of_terminating (fun _ _ _ hg => (Grammar.memberBlockRule_advancing hg).terminating) hs
  · exact .of_terminating (fun _ _ _ hg => Grammar.declarationRule_terminating hg) hs
  · exact .of_terminating (fun _ _ _ hg => (Grammar.arguments_advancing hg _ _).terminating) hs
  · exact .of_terminating (fun _ _ _ hg => (Grammar.specializationClause_advancing hg).terminating) hs
  · exact .of_terminating (fun _ _ _ hg => Grammar.closureSignature_terminating hg) hs
  · exact .of_advancing (fun _ _ _ hg => Grammar.typeRule_advancing hg) hs
  · exact .of_advancing (fun _ _ _ hg => Grammar.expressionRule_advancing hg) hs
  · exact .of_advancing (fun _ _ _ hg => Grammar.closureRule_advancing hg) hs
  · exact .of_advancing (fun _ _ _ hg => Grammar.attributeRule_advancing hg) hs
  · exact .of_advancing (fun _ _ _ hg => Grammar.expansionRule_advancing hg) hs
  · exact .of_advancing (fun _ _ _ hg => Grammar.memberBlockRule_advancing hg) hs

/-- Reading `A<B??>` as a type leaves more tokens than there were, and what is behind it still ends. -/
theorem reading_ends_marks : ∃ c₀ c, Cursor.ofText "A<B??>c".toList = .ok c₀ ∧ c₀.SplitsTo c ∧
    c₀.tokens.length = 6 ∧ c.tokens.length = 8 ∧ Progresses type c₀ ∧ Terminates Grammar.expressionRule c ∧
    Progresses expression c := by
  have hlengths : (Cursor.ofText "A<B??>c".toList).toOption.map (fun c =>
      (c.tokens.length, (session [.type] c).tokens.length)) = some (6, 8) := by
    decide +kernel
  obtain ⟨c₀, h₀⟩ : ∃ c₀, Cursor.ofText "A<B??>c".toList = .ok c₀ := ⟨_, rfl⟩
  rw [h₀] at hlengths
  obtain ⟨hbefore, hafter⟩ := Prod.mk.inj (Option.some.inj hlengths)
  have hstart : c₀.SplitsTo c₀ := ⟨rfl, rfl, .refl _⟩
  have hsplits : c₀.SplitsTo (session [.type] c₀) := session_splitsTo (by decide) hstart
  obtain ⟨-, -, -, htype, -⟩ := reading_ends h₀ hstart
  obtain ⟨⟨-, hends, -⟩, -, -, -, hexpression, -⟩ := reading_ends h₀ hsplits
  exact ⟨c₀, _, h₀, hsplits, hbefore, hafter, htype, hends, hexpression⟩

end Parser

end SwiftMacros
