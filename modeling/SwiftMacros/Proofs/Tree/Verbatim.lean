import Mathlib
import SwiftMacros.Proofs.Tree.Declaration
import SwiftMacros.Proofs.Grammar.Declaration
import SwiftMacros.Proofs.Token.Coordinates

/-! Whatever is read is read verbatim. Every node of a tree shows the source from the first to the last
of the tokens that it was read from, and its children are read from some of these, one behind the
other. A text that is read as a whole is the root, but for the trivia at its ends. -/

namespace SwiftMacros

open SwiftMacros.Parser

theorem Grammar.upTo_verbatim (n : Nat) : (Grammar.upTo n).Verbatim := by
  induction n with
  | zero =>
    exact ⟨Grammar.upTo_reliable 0, fun _ h => .stall h, fun _ h => .stall h, fun _ h => .stall h,
      fun _ h => .stall h⟩
  | succ n ih =>
    exact ⟨Grammar.upTo_reliable (n + 1), fun _ h => Grammar.typeRule_shows ih h,
      fun _ h => Grammar.constraintRule_shows ih h, fun _ h => Grammar.expressionRule_shows ih h,
      fun _ h => Grammar.operandRule_shows ih h⟩

theorem Parser.withGrammar_verbatim {α : Type} {rule : Grammar → Parser α} {c : Cursor}
    {Q : α → Cursor → Prop} (h : ∀ g : Grammar, g.Verbatim → Spec (rule g) c Q) :
    Spec (withGrammar rule) c Q :=
  Spec.get_bind (h _ (Grammar.upTo_verbatim _))

/-- The node is read from the tokens `ts` that were taken between the two cursors. -/
def Node.Verbatim (t : Text) (c c' : Cursor) (n : Node) : Prop :=
  ∃ ts, c'.behind = ts.reverse ++ c.behind ∧ Token.Refines c.ahead (ts ++ c'.ahead) ∧
    Token.Ordered t ts ∧ n.Covers t ts ∧ (ts = [] → n.text = []) ∧
    ∀ a b, Token.extent? ts = some (a, b) → n.Between t a b

theorem Cursor.Covers.verbatim {c c' : Cursor} {n : Node} (h : c.Covers n c') :
    n.Verbatim c.source c c' := by
  obtain ⟨hl, ts, hts, hcovers⟩ := h
  have ho := hl.sound.arranged.ordered
  have hinner : c'.inner = c.behind.reverse ++ (ts ++ c'.ahead) := by
    rw [Cursor.inner, hts, List.reverse_append, List.reverse_reverse, List.append_assoc]
  have hrefines := hl.refines
  rw [hinner] at ho hrefines
  rw [hl.source] at ho hcovers
  have hots := (Token.Ordered.append_iff.mp (Token.Ordered.append_iff.mp ho).2.1).1
  refine ⟨ts, hts, hrefines.of_append _, hots, hcovers, ?_, (hcovers.between hots).1⟩
  rintro rfl
  exact hcovers.text_eq

namespace Token

/-- The second text is the first without the trivia at its ends. -/
def Trimmed (t x : Text) : Prop :=
  ∃ lead body trail e, tokenize t = .ok (lead ++ body ++ trail ++ [e]) ∧ e.kind = .eof ∧
    (∀ u ∈ lead ++ trail, u.kind.isTrivia = true) ∧
    (∀ u, body.head? = some u ∨ body.getLast? = some u → u.kind.isTrivia = false) ∧
    body.flatMap text = x ∧ lead.flatMap text ++ x ++ trail.flatMap text = t

variable {s : Text} {ts us : List Token} {a b : Nat}

theorem Covers.append (h : Covers a b (ts ++ us)) : ∃ m, Covers a m ts ∧ Covers m b us := by
  induction ts generalizing a with
  | nil => exact ⟨a, rfl, h⟩
  | cons t ts ih =>
    obtain ⟨hstart, hlt, hrest⟩ := h
    obtain ⟨m, hts, hus⟩ := ih hrest
    exact ⟨m, ⟨hstart, hlt, hts⟩, hus⟩

theorem Covers.concat {t : Token} (h : Covers a b (ts ++ [t])) : t.stop = b := by
  obtain ⟨m, -, -, -, hstop⟩ := h.append
  exact hstop

/-- Splitting operators does not change where the last token stops. -/
theorem Refines.stop_getLast? (h : Refines ts us) :
    us.getLast?.map Token.stop = ts.getLast?.map Token.stop := by
  induction h with
  | nil => rfl
  | @keep t ts us h ih =>
    cases h with
    | nil => rfl
    | keep => simpa using ih
    | split => simpa using ih
  | @split t ts us hk hlen h ih =>
    obtain ⟨u, us, rfl⟩ : ∃ u vs, us = u :: vs := by
      cases h with
      | keep => exact ⟨_, _, rfl⟩
      | split => exact ⟨_, _, rfl⟩
    rw [List.getLast?_cons_cons, ih]
    cases ts with
    | nil => rfl
    | cons v ts => rw [List.getLast?_cons_cons, List.getLast?_cons_cons]

/-- Some tokens of which not all are trivia have a first and a last one that is none. -/
theorem exists_trim {p : Token → Bool} (h : us.filter p ≠ []) :
    ∃ lead body trail u v rest front, us = lead ++ body ++ trail ∧ (∀ w ∈ lead ++ trail, p w = false) ∧
      body = u :: rest ∧ body = front ++ [v] ∧ p u = true ∧ p v = true ∧
      (us.filter p).head? = some u ∧ (us.filter p).getLast? = some v := by
  obtain ⟨u, fs, hu⟩ := List.exists_cons_of_ne_nil h
  obtain ⟨lead, rest, rfl, hlead, hpu, -⟩ := List.filter_eq_cons_iff.mp hu
  have hne : (u :: rest).reverse.filter p ≠ [] := by
    simp [hpu]
  obtain ⟨v, gs, hv⟩ := List.exists_cons_of_ne_nil hne
  obtain ⟨trail, front, hsplit, htrail, hpv, -⟩ := List.filter_eq_cons_iff.mp hv
  have hbody : u :: rest = front.reverse ++ [v] ++ trail.reverse := by
    rw [← List.reverse_inj, hsplit]
    simp
  obtain ⟨w, ws, hw⟩ := List.exists_cons_of_ne_nil (l := front.reverse ++ [v]) (by simp)
  obtain rfl : u = w := by
    rw [hw, List.cons_append] at hbody
    exact (List.cons.inj hbody).1
  have htrailing : trail.reverse.filter p = [] := by
    simpa [List.filter_eq_nil_iff] using htrail
  refine ⟨lead, front.reverse ++ [v], trail.reverse, u, v, ws, front.reverse, ?_, ?_, hw, rfl, hpu, hpv,
    by rw [hu]; rfl, ?_⟩
  · rw [hbody]
    simp
  · simpa [or_imp, forall_and] using ⟨by simpa using hlead, by simpa using htrail⟩
  · rw [hbody, List.filter_append, List.filter_append, List.filter_append, htrailing]
    simp [hpv]

end Token

/-- What is read from all tokens of a text is the text without the trivia at its ends. -/
theorem Cursor.Shows.trimmed {t : Text} {c c' : Cursor} {n : Node} (hc : Cursor.ofText t = .ok c)
    (h : c.Shows n c') (hend : c'.ahead = []) : Token.Trimmed t n.text := by
  obtain ⟨hs, rfl, hbehind⟩ := Cursor.sound_ofText hc
  obtain ⟨ts, hts, hrefines, -⟩ := h.toCovers.verbatim
  rw [hbehind, List.append_nil] at hts
  rw [hend, List.append_nil] at hrefines
  obtain ⟨as, has⟩ := hs.ahead_eq (h.leads.peek_ne_eof h.lt hs)
  cases htok : Token.tokenize c.source with
  | error e =>
    rw [Cursor.ofText, htok] at hc
    cases hc
  | ok all =>
    obtain ⟨d, hd, htokens⟩ := Cursor.tokens_ofText htok
    obtain rfl : c = d := Except.ok.inj (hc.symm.trans hd)
    obtain ⟨us, e, rfl, ⟨hkind, -⟩, hcov, -, hall, -⟩ := Token.tokenize_located htok
    have hfilter : c.ahead.map Token.unspaced = us.filter fun u => !u.kind.isTrivia := by
      have hmap := Token.significant_unspaced htok
      rw [← htokens, Cursor.tokens, hbehind, List.filter_append, List.map_append,
        List.filter_singleton, hkind] at hmap
      exact (List.append_inj' hmap rfl).1
    obtain ⟨lead, body, trail, u, v, rest, front, rfl, htrivia, hfirst, hlast, hu, hv, hhead, hend⟩ :=
      Token.exists_trim (show us.filter (fun u => !u.kind.isTrivia) ≠ [] by simp [← hfilter, has])
    rw [← hfilter] at hhead hend
    obtain ⟨j, hcov', hcovt⟩ := hcov.append
    obtain ⟨i, hcovl, hcovb⟩ := hcov'.append
    -- the first and the last token of the body are those between which the node was read
    have hi : c.peek.start = i := by
      rw [has, List.map_cons, List.head?_cons, Option.some.injEq] at hhead
      rw [hfirst, ← hhead] at hcovb
      exact hcovb.1
    have hj : c'.edge = j := by
      rw [hlast] at hcovb
      have hstop := hrefines.stop_getLast?
      rw [List.getLast?_map] at hend
      obtain ⟨w, hw, rfl⟩ := Option.map_eq_some_iff.mp hend
      rw [hw] at hstop
      rw [Cursor.edge, hts, List.head?_reverse, hstop, ← hcovb.concat]
      rfl
    have hlocated : ∀ w ∈ lead ++ body ++ trail, Token.Located c.source w := fun w hw =>
      (hall w (List.mem_append_left _ hw)).2
    obtain ⟨hi', htextl⟩ := hcovl.flatMap_text fun w hw => hlocated w (by simp [hw])
    obtain ⟨hij, htextb⟩ := hcovb.flatMap_text fun w hw => hlocated w (by simp [hw])
    obtain ⟨hj', htextt⟩ := hcovt.flatMap_text fun w hw => hlocated w (by simp [hw])
    have htext : n.text = Text.slice c.source i j := by
      rw [h.text_eq hs, Cursor.upTo, h.leads.source, hi, hj]
    refine ⟨lead, body, trail, e, htok, hkind, by simpa using htrivia, fun w hw => ?_,
      htextb.trans htext.symm, ?_⟩
    · rcases hw with hw | hw
      · rw [hfirst, List.head?_cons, Option.some.injEq] at hw
        simpa [← hw] using hu
      · rw [hlast, List.getLast?_concat, Option.some.injEq] at hw
        simpa [← hw] using hv
    · rw [htextl, htext, htextt, slice_append_slice hi' hij, slice_append_slice (hi'.trans hij) hj']
      simp [Text.slice]

namespace Parser

/-- Reading a whole text takes all of its tokens. -/
theorem of_runOn_whole {α : Type} {p : Parser α} {t : Text} {a : α}
    (h : runOn (whole p) t = .ok a) :
    ∃ c c', Cursor.ofText t = .ok c ∧ p c = .ok a c' ∧ c'.ahead = [] := by
  cases hc : Cursor.ofText t with
  | error e =>
    rw [runOn, hc] at h
    cases h
  | ok c =>
    simp only [runOn, hc] at h
    split at h
    next b c₂ hw =>
      obtain rfl : b = a := Except.ok.inj h
      obtain ⟨b, c₁, hp, hrest⟩ := of_bind_ok hw
      obtain ⟨u, c₃, hend, hpure⟩ := of_bind_ok hrest
      cases hpure
      refine ⟨c, c₁, rfl, hp, ?_⟩
      obtain ⟨d, c₄, hget, hend⟩ := of_bind_ok hend
      cases hget
      split at hend
      next heof => simpa [Cursor.isEof] using heof
      next => cases hend
    next => cases h

/-- What is read up to the end of a text is read of the whole. -/
theorem runOn_whole_of_ok {α : Type} {p : Parser α} {t : Text} {a : α} {c c' : Cursor}
    (hc : Cursor.ofText t = .ok c) (hp : p c = .ok a c') (hend : c'.ahead = []) : runOn (whole p) t = .ok a := by
  have heof : expectEof c' = .ok () c' := by
    show (if c'.isEof = true then _ else _ : Parser Unit) c' = _
    rw [if_pos (by simp [Cursor.isEof, hend])]
    rfl
  have hwhole : whole p c = .ok a c' := (bind_of_ok hp).trans ((bind_of_ok heof).trans rfl)
  simp only [runOn, hc, hwhole]

/-- What is not read up to the end of a text is rejected at the first token left. -/
theorem runOn_whole_of_trailing {α : Type} {p : Parser α} {t : Text} {a : α} {c c' : Cursor}
    (hc : Cursor.ofText t = .ok c) (hp : p c = .ok a c') (hend : c'.ahead ≠ []) :
    runOn (whole p) t = .error (.locate (.trailingToken c'.peek.text) c'.peek) := by
  have heof : expectEof c' = .error (.locate (.trailingToken c'.peek.text) c'.peek) c' := by
    show (if c'.isEof = true then _ else _ : Parser Unit) c' = _
    rw [if_neg (by simpa [Cursor.isEof] using hend)]
    rfl
  have hwhole : whole p c = .error _ c' := (bind_of_ok hp).trans (bind_of_error heof)
  simp only [runOn, hc, hwhole]

/-- Whatever is read from a cursor on a text is verbatim, with all nodes in it. A type and an expression
that are a whole text show it without the trivia at its ends. -/
theorem nodes_verbatim {t : Text} {c₀ c : Cursor} (h₀ : Cursor.ofText t = .ok c₀)
    (hc : c₀.Rereads c) :
    (∀ T c', type c = .ok T c' → T.node.Verbatim t c c') ∧
    (∀ e c', expression c = .ok e c' → e.node.Verbatim t c c') ∧
    (∀ k c', closure c = .ok k c' → k.node.Verbatim t c c') ∧
    (∀ a c', attributeHere c = .ok a c' → a.node.Verbatim t c c') ∧
    (∀ e c', expansion c = .ok e c' → e.node.Verbatim t c c') ∧
    (∀ m c', member c = .ok m c' → m.node.Verbatim t c c') ∧
    (∀ d c', declaration c = .ok d c' → d.node.Verbatim t c c') ∧
    (∀ T, runOn (whole type) t = .ok T → Token.Trimmed t T.text) ∧
    ∀ e, runOn (whole expression) t = .ok e → Token.Trimmed t e.toText := by
  obtain ⟨-, hsource, -⟩ := Cursor.sound_ofText h₀
  have hs := hc.sound
  rw [← hsource, ← hc.source]
  have htype : ∀ d : Cursor, d.Sound → Spec type d fun T c' => d.Shows T.node c' := fun d hs =>
    withGrammar_verbatim fun _ hg => Grammar.typeRule_shows hg hs
  have hexpression : ∀ d : Cursor, d.Sound → Spec expression d fun e c' => d.Shows e.node c' :=
    fun d hs => withGrammar_verbatim fun _ hg => Grammar.expressionRule_shows hg hs
  refine ⟨fun T c' h => ?_, fun e c' h => ?_, fun k c' h => ?_, fun a c' h => ?_, fun e c' h => ?_,
    fun m c' h => ?_, fun d c' h => ?_, fun T h => ?_, fun e h => ?_⟩
  · exact ((htype c hs).ok h).2.verbatim
  · exact ((hexpression c hs).ok h).2.verbatim
  · exact ((withGrammar_verbatim fun _ hg => Grammar.closureRule_shows hg hs).ok h).2.verbatim
  · exact ((withGrammar_verbatim fun _ hg => Grammar.attributeRule_shows hg hs).ok h).2.verbatim
  · exact ((withGrammar_verbatim fun _ hg => Grammar.expansionRule_shows hg hs).ok h).2.verbatim
  · exact ((withGrammar_verbatim fun _ hg => Grammar.memberRule_covers hg hs).ok h).2.verbatim
  · exact ((withGrammar_verbatim fun _ hg => Grammar.declarationRule_covers hg hs).ok h).2.verbatim
  · obtain ⟨d, d', hd, hp, hend⟩ := of_runOn_whole h
    have hshows := ((htype d (Cursor.sound_ofText hd).1).ok hp).2
    rw [← TypeTree.node_text]
    exact hshows.trimmed hd hend
  · obtain ⟨d, d', hd, hp, hend⟩ := of_runOn_whole h
    have hshows := ((hexpression d (Cursor.sound_ofText hd).1).ok hp).2
    have htext : e.node.text ≠ [] := by
      rw [hshows.text_eq (Cursor.sound_ofText hd).1]
      exact hshows.leads.upTo_ne_nil hshows.lt
    rw [e.toText_eq htext]
    exact hshows.trimmed hd hend

/-- An optional dictionary behind a space and in front of a comment. -/
theorem nodes_verbatim_optional : ∃ c T c', Cursor.ofText " [K: V]? // x".toList = .ok c ∧
    type c = .ok T c' ∧ T.node.Verbatim " [K: V]? // x".toList c c' ∧
    Token.Trimmed " [K: V]? // x".toList "[K: V]?".toList := by
  have htext : ((runOn (whole type) " [K: V]? // x".toList).toOption.map TypeTree.text) =
      some "[K: V]?".toList := by
    decide +kernel
  cases hT : runOn (whole type) " [K: V]? // x".toList with
  | error e =>
    rw [hT] at htext
    cases htext
  | ok T =>
    rw [hT] at htext
    obtain ⟨c, c', hc, hread, -⟩ := of_runOn_whole hT
    obtain ⟨htype, -, -, -, -, -, -, htrimmed, -⟩ :=
      nodes_verbatim hc (Cursor.sound_ofText hc).1.refl.rereads
    exact ⟨c, T, c', hc, hread, htype T c' hread, Option.some.inj htext ▸ htrimmed T hT⟩

end Parser

end SwiftMacros
