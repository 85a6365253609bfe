import Mathlib
import SwiftMacros.Proofs.Parser.Spec
import SwiftMacros.Proofs.Cursor.Slice
import SwiftMacros.Proofs.Tree.Covers

/-! Nodes and the cursors before and behind what they are read from. The tokens of a node are those
that were taken between the two, and its text is the source from the token at the first cursor to the
edge of the second. -/

namespace SwiftMacros

open SwiftMacros.Parser (Spec)

theorem Token.Refines.cons_start {ts us : List Token} {u : Token} (h : Refines ts (u :: us)) :
    ∃ t ts', ts = t :: ts' ∧ t.start = u.start := by
  cases h with
  | keep _ _ => exact ⟨u, _, rfl, rfl⟩
  | split _ _ _ => exact ⟨_, _, rfl, rfl⟩

theorem Arranged.ordered {s : Text} {ts : List Token} (h : Arranged s ts) : Token.Ordered s ts :=
  ⟨h.pairwise, fun t ht => ⟨(h.placed t ht).lt, (h.placed t ht).le, (h.placed t ht).text⟩⟩

namespace Cursor

variable {c c' c'' : Cursor} {n : Node} {ns ms : List Node} {ts : List Token}

/-- Between the two cursors the nodes are read one behind the other. -/
structure Holds (c : Cursor) (ns : List Node) (c' : Cursor) : Prop where
  leads : c.Leads c'
  taken : ∃ ts, c'.behind = ts.reverse ++ c.behind ∧ Node.Hold c'.source ns ts

/-- The node is read from all tokens between the two cursors. -/
structure Covers (c : Cursor) (n : Node) (c' : Cursor) : Prop where
  leads : c.Leads c'
  taken : ∃ ts, c'.behind = ts.reverse ++ c.behind ∧ Node.Covers c'.source n ts

/-- The node is read from the tokens between the two cursors, of which there are some. -/
structure Shows (c : Cursor) (n : Node) (c' : Cursor) : Prop extends c.Covers n c' where
  lt : c.peek.start < c'.edge

section Taken

variable (h : c.Leads c') (hb : c'.behind = ts.reverse ++ c.behind)
include h hb

/-- The tokens that were taken stand from the token at the first cursor to the edge of the second. -/
theorem Leads.extent_taken (hts : ts ≠ []) : Token.extent? ts = some (c.peek.start, c'.edge) := by
  have hrefines : Token.Refines c.ahead (ts ++ c'.ahead) := by
    have := h.refines
    rw [inner, inner, hb, List.reverse_append, List.reverse_reverse, List.append_assoc] at this
    exact this.of_append _
  obtain ⟨t, ts, rfl⟩ := List.exists_cons_of_ne_nil hts
  obtain ⟨u, us, hu, hstart⟩ := hrefines.cons_start
  have hpeek : c.peek = u := by simp [peek, hu]
  have hedge : c'.edge = (ts.getLast?.getD t).stop := by
    rcases List.eq_nil_or_concat ts with rfl | ⟨vs, v, rfl⟩
    · simp [edge, hb]
    · simp [edge, hb]
  rw [Token.extent?, hpeek, hstart, hedge]

theorem Leads.cover_taken (hs : c.Sound) : Token.cover c'.source ts = c.upTo c' := by
  rcases eq_or_ne ts [] with rfl | hts
  · have hedge : c'.edge = c.edge := by simp [edge, hb]
    rw [upTo, Text.slice, hedge, Nat.sub_eq_zero_of_le hs.edge_le_peek]
    rfl
  · exact Token.cover_of_extent (h.extent_taken hb hts)

end Taken

theorem Sound.taken_ne_nil (hs : c.Sound) (hb : c'.behind = ts.reverse ++ c.behind)
    (hlt : c.peek.start < c'.edge) : ts ≠ [] := by
  rintro rfl
  have hedge : c'.edge = c.edge := by simp [edge, hb]
  have := hs.edge_le_peek
  omega

theorem Leads.holds (h : c.Leads c') : c.Holds [] c' := by
  obtain ⟨ts, hts⟩ := h.behind
  exact ⟨h, ts.reverse, by simpa using hts.symm, .nil _⟩

theorem Holds.trans (h : c.Holds ns c') (h' : c'.Holds ms c'') : c.Holds (ns ++ ms) c'' := by
  obtain ⟨hl, ts, hts, hhold⟩ := h
  obtain ⟨hl', us, hus, hhold'⟩ := h'
  refine ⟨hl.trans hl', ts ++ us, by rw [hus, hts]; simp, ?_⟩
  rw [← hl'.source] at hhold
  exact hhold.append hhold'

theorem Holds.lead (h : c.Holds ns c') (hl : c'.Leads c'') : c.Holds ns c'' := by
  simpa using h.trans hl.holds

theorem Leads.ahead (hl : c.Leads c') (h : c'.Holds ns c'') : c.Holds ns c'' := hl.holds.trans h

theorem Covers.holds (h : c.Covers n c') : c.Holds [n] c' := by
  obtain ⟨hl, ts, hts, hcovers⟩ := h
  exact ⟨hl, ts, hts, hcovers.hold⟩

/-- One more node behind some. -/
theorem Holds.concat {α : Type} {node : α → Node} {as : List α} {a : α} (h : c.Holds (as.map node) c')
    (ha : c'.Holds [node a] c'') : c.Holds ((as ++ [a]).map node) c'' := by
  rw [List.map_append]
  exact h.trans ha

/-- A cursor that has as much behind it stands in for another. -/
theorem Covers.of_behind (h : c.Covers n c') (hl : c.Leads c'') (hb : c''.behind = c'.behind) :
    c.Covers n c'' := by
  obtain ⟨hl', ts, hts, hcovers⟩ := h
  refine ⟨hl, ts, hb.trans hts, ?_⟩
  rw [hl.source, ← hl'.source]
  exact hcovers

/-- Nothing at all is read at the start of a source. -/
theorem Leads.covers_nil (h : c.Leads c') (hb : c'.behind = []) : c.Covers (.of []) c' := by
  obtain ⟨-, ts, hts, hhold⟩ := h.holds
  obtain rfl : ts = [] := by
    rw [hb, List.nil_eq, List.append_eq_nil_iff] at hts
    simpa using hts.1
  exact ⟨h, [], hts, .node none (by simp) hhold⟩

section Sound

variable (hs : c.Sound)
include hs

/-- A node shows the source between the two cursors. -/
theorem Covers.text_eq (h : c.Covers n c') : n.text = c.upTo c' := by
  obtain ⟨hl, ts, hts, hcovers⟩ := h
  rw [hcovers.text_eq, hl.cover_taken hts hs]

/-- What is kept of the source from the token at a cursor makes a node of what was read since. -/
theorem Holds.shows (h : c.Holds ns c') (hlt : c.peek.start < c'.edge) :
    c.Shows (.of (c'.sliceFrom c.peek) ns) c' := by
  obtain ⟨hl, ts, hts, hhold⟩ := h
  refine ⟨⟨hl, ts, hts, ?_⟩, hlt⟩
  rw [sliceFrom_eq rfl hlt, ← hl.cover_taken hts hs]
  exact .node none (by simp) hhold

/-- A node that knows where it stands. -/
theorem Holds.shows_at (h : c.Holds ns c') (hlt : c.peek.start < c'.edge) :
    c.Shows ⟨c'.sliceFrom c.peek, some (c.peek.start, c'.edge), ns, []⟩ c' := by
  obtain ⟨hl, ts, hts, hhold⟩ := h
  refine ⟨⟨hl, ts, hts, ?_⟩, hlt⟩
  rw [sliceFrom_eq rfl hlt, ← hl.cover_taken hts hs]
  refine .node _ (fun p hp => ?_) hhold
  rw [← Option.mem_some_iff.mp hp]
  exact hl.extent_taken hts (hs.taken_ne_nil hts hlt)

/-- A node that may be read from no token at all. -/
theorem Leads.covers (h : c.Leads c') (hb : c'.behind ≠ []) : c.Covers (.of (c'.sliceFrom c.peek)) c' := by
  obtain ⟨-, ts, hts, hhold⟩ := h.holds
  refine ⟨h, ts, hts, ?_⟩
  rw [sliceFrom, previous_stop hb, ← upTo, ← h.cover_taken hts hs]
  exact .node none (by simp) hhold

/-- A token is a node. -/
theorem Sound.shows_peek (he : c.peek.kind ≠ .eof) : c.Shows (.of c.peek.text) (c.advance 1) := by
  have hlt := hs.peek_lt he (hs.advance 1).sound.refl
  rw [← hs.upTo_advance he, ← sliceFrom_eq rfl hlt]
  exact (hs.advance 1).holds.shows hs hlt

end Sound

end Cursor

namespace Parser.Spec

variable {α : Type} {c : Cursor} {f : α → Node} {item : Parser α}

/-- The nodes between two marks. -/
theorem bracketed_holds {first last : String} {separator : Wanted} (hs : c.Sound)
    (hfirst : c.peek.isSymbol first = true)
    (hitem : ∀ c', (c.advance 1).Leads c' → Spec item c' fun a c'' => c'.Holds [f a] c'') :
    Spec (Parser.bracketed first last separator item) c fun as c' =>
      c.Holds (as.map f) c' ∧ c.peek.start < c'.edge := by
  refine (Spec.bracketed (I := fun as c' => (c.advance 1).Holds (as.map f) c') hs
    (hs.advance 1).sound.refl.holds fun as c' hl hi _ => ?_).mono fun as c' _ ⟨c'', hl, hi, _, heq⟩ => ?_
  · refine (hitem c' hl).mono fun a c'' hl' ha => ?_
    exact ⟨fun _ => (hi.concat ha).lead (hl'.sound.advance 1), fun _ => hi.concat ha⟩
  · subst heq
    have hl' := hl.trans (hl.sound.advance 1)
    refine ⟨(hs.advance 1).ahead (hi.lead (hl.sound.advance 1)), hs.peek_lt ?_ hl'⟩
    simp only [Token.isSymbol, Token.has, Bool.and_eq_true, beq_iff_eq] at hfirst
    simp [hfirst.1]

/-- The nodes with commas between them. -/
theorem separated_holds (hs : c.Sound)
    (hitem : ∀ c' : Cursor, c.Leads c' → Spec item c' fun a c'' => c'.Shows (f a) c'') :
    Spec (Parser.separated item) c fun as c' => c.Holds (as.map f) c' ∧ c.peek.start < c'.edge := by
  refine Spec.separated ((hitem c hs.refl).mono fun a c' _ ha => ⟨ha.holds, ha.lt⟩)
    fun as c' hl ⟨hi, hlt⟩ _ => ?_
  have hl' := hl.sound.advance 1
  refine (hitem _ (hl.trans hl')).mono fun a c'' hl'' ha => ?_
  exact ⟨(hi.lead hl').concat ha.holds, hlt.trans_le (hl'.trans hl'').edge_le⟩

/-- The nodes of a loop. -/
theorem collectWhile_holds {more : Cursor → Bool} (hs : c.Sound)
    (hitem : ∀ c' : Cursor, c.Leads c' → more c' = true → Spec item c' fun a c'' => c'.Holds [f a] c'') :
    Spec (Parser.collectWhile more item) c fun as c' => c.Holds (as.map f) c' :=
  (collectWhile (I := fun as c' => c.Holds (as.map f) c')
    (fun _ c' hl hi hm => (hitem c' hl hm).mono fun _ _ _ ha => hi.concat ha) hs hs.refl.holds).mono
    fun _ _ _ h => h.1

end Parser.Spec

end SwiftMacros
