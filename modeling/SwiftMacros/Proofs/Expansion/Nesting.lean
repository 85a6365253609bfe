import Mathlib
import SwiftMacros.Proofs.Expansion.Called

/-! Markers inside one another, over a whole run. Each pass expands the outermost of those that are left and defers the
others. So if each marker of the source is read with a closure behind it, as many passes do as they are deep at first.
Whether they are so read can be computed. -/

namespace SwiftMacros

open Token (Word Tail Shallow Held)

section Checked

/-- Operators of one character are not split. -/
theorem Token.Refines.eq_of_short {ts us : List Token} (h : Token.Refines ts us)
    (hts : ∀ t ∈ ts, t.kind = .operator → t.text.length ≤ 1) : us = ts := by
  induction h with
  | nil => rfl
  | keep t _ ih => rw [ih fun u hu => hts u (List.mem_cons_of_mem t hu)]
  | split hk hlen => exact absurd (hts _ (by simp) hk) (by omega)

namespace Cursor

variable {m : Word → Bool} {c d c₁ : Cursor} {e : MacroExpansion} {B R : List Token} {o z : Token}

/-- A macro with a block right behind it is read with a closure up to the end of the block, if with a closure at all. -/
theorem Calls.of_brace (hs : d.Sound) (hahead : d.ahead = d.peek :: (o :: B ++ [z]) ++ R) (ho : o.isSymbol "\x7b" = true)
    (hB : Token.nested [] B = true) (hz : z.isSymbol "\x7d" = true) (hsettled : Token.settled (o :: B ++ [z]) = true)
    (he : Parser.expansion d = .ok e c₁) (htrailing : e.trailing.isSome = true) :
    ∃ k, d.Calls (o :: B ++ [z]) k o B z c₁ := by
  have hread := he
  rw [← Grammar.expansionRule_upTo hs (Nat.lt_succ_self _), Grammar.expansionRule_eq_ok] at hread
  obtain ⟨-, x, c₂, as, c₃, k, hx, has, hk, rfl⟩ := hread
  have hnext : (d.advance 1).ahead = o :: B ++ z :: R := by simp [advance, hahead]
  have hpeek : (d.advance 1).peek = o := by simp [peek, hnext]
  have hkind := Token.kind_of_isSymbol ho
  -- neither generic arguments nor others stand in front of the brace
  obtain rfl : c₂ = d.advance 1 := by
    rw [Grammar.specialization, Parser.get_bind_eq_ok, if_neg (by
      simp [Grammar.genericsFollow, hpeek, Token.isOperatorWith, hkind]),
      Parser.pure_eq_ok] at hx
    exact hx.2.symm
  obtain rfl : c₃ = d.advance 1 := by
    have hparen : o.isSymbol "(" = false := by
      simp only [Token.isSymbol, Token.has, Bool.and_eq_true, beq_iff_eq] at ho
      simp [Token.isSymbol, Token.has, ho]
    rw [Grammar.parenthesized, Parser.current_bind_eq_ok, if_neg (by simp [hpeek, hparen]), Parser.pure_eq_ok] at has
    exact has.2.symm
  obtain ⟨k, rfl⟩ := Option.isSome_iff_exists.mp htrailing
  obtain ⟨-, _, hk, heq⟩ | ⟨-, hnone, -⟩ := Grammar.trailingClosure_eq_ok.mp hk
  · obtain rfl := Option.some.inj heq
    exact ⟨k, ⟨R, hahead⟩, hsettled, ⟨_, he, rfl⟩, ⟨_, (hs.advance 1).sound.refl, (hs.advance 1).sound, ⟨R, hnext⟩, ho,
      ⟨hB, Token.settled_front (show Token.settled (B ++ z :: []) = true from
        Token.settled_suffix hsettled ⟨[o], rfl⟩) hB (Token.isCloser_of_isSymbol hz (by simp))⟩, hz, d.room, (hs.advance 1).room_le hs, hk⟩,
      ⟨[], rfl, ⟨rfl, trivial⟩, ho, hB, hz⟩⟩
  · cases hnone

/-- Whether the macro at the cursor is read with a closure right behind it, `n` tokens between its braces. -/
def callsAt (d : Cursor) (n : Nat) : Bool :=
  (d.peek 1).isSymbol "\x7b" && (d.peek (n + 2)).isSymbol "\x7d" && Token.nested [] ((d.ahead.drop 2).take n) &&
    Token.settled ((d.ahead.drop 1).take (n + 2)) && match Parser.expansion d with
      | .ok e _ => e.trailing.isSome
      | .error .. => false

theorem exists_calls_of_callsAt {n : Nat} (hs : d.Sound) (hk : d.peek.kind ≠ .eof) (h : d.callsAt n = true) :
    (∃ s k o B z c₁, d.Calls s k o B z c₁) ∧ ∀ e d', Parser.expansion d = .ok e d' → e.trailing.isSome = true := by
  simp only [callsAt, Bool.and_eq_true] at h
  obtain ⟨⟨⟨⟨ho, hz⟩, hB⟩, hsettled⟩, hread⟩ := h
  split at hread
  next e c₁ he =>
    have hget : ∀ i, (d.peek i).kind = .symbol → d.ahead[i]? = some (d.peek i) := fun i hi => by
      cases ha : d.ahead[i]? with
      | none => simp [peek, ha, hs.eof_kind] at hi
      | some t => simp [peek, ha]
    obtain ⟨us, hahead⟩ := hs.ahead_eq hk
    obtain ⟨vs, rfl⟩ : ∃ vs, us = d.peek 1 :: vs := by
      have := hget 1 (Token.kind_of_isSymbol ho)
      rw [hahead, List.getElem?_cons_succ] at this
      cases us with
      | nil => simp at this
      | cons u vs => exact ⟨vs, by simpa using this⟩
    obtain ⟨hlen, hlast⟩ : ∃ h : n < vs.length, vs[n] = d.peek (n + 2) := by
      have := hget (n + 2) (Token.kind_of_isSymbol hz)
      rw [hahead, List.getElem?_cons_succ, List.getElem?_cons_succ] at this
      exact List.getElem?_eq_some_iff.mp this
    have hvs : vs = vs.take n ++ d.peek (n + 2) :: vs.drop (n + 1) := by
      rw [← hlast, List.getElem_cons_drop, List.take_append_drop]
    have hbody : (d.ahead.drop 2).take n = vs.take n := by rw [hahead]; rfl
    have htail : (d.ahead.drop 1).take (n + 2) = d.peek 1 :: vs.take n ++ [d.peek (n + 2)] := by
      rw [hahead, List.drop_one, List.tail_cons, List.take_succ_cons, List.take_add_one, List.getElem?_eq_getElem hlen, hlast]
      rfl
    rw [hbody] at hB
    rw [htail] at hsettled
    obtain ⟨k, hcalls⟩ := Calls.of_brace (R := vs.drop (n + 1)) hs (by rw [hahead]; simp [← hvs]) ho hB hz hsettled he hread
    refine ⟨⟨_, k, _, _, _, c₁, hcalls⟩, fun e' d' he' => ?_⟩
    obtain ⟨rfl, -⟩ : e' = e ∧ d' = c₁ := by simpa [he] using he'.symm
    exact hread
  next => cases hread

/-- The cursor on the same tokens, at another place. -/
def moveTo (c : Cursor) (i : Nat) : Cursor := { c with behind := (c.inner.take i).reverse, ahead := c.inner.drop i }

/-- Where no operator can be split, it is enough to look at each place of the source. -/
theorem Called.of_callsAt (hs : c.Sound) (hm : ∀ w, m w = true → w.1 = .poundName)
    (hshort : ∀ t ∈ c.inner, t.kind = .operator → t.text.length ≤ 1)
    (h : ∀ i < c.inner.length, m (c.moveTo i).peek.word = true → ∃ n, (c.moveTo i).callsAt n = true) : c.Called m := by
  have hkind : ∀ d : Cursor, m d.peek.word = true → d.peek.kind ≠ .eof := fun d hmark => by
    simp [show d.peek.kind = .poundName from hm _ hmark]
  have hplace : ∀ d, c.Rereads d → m d.peek.word = true → ∃ n, d.callsAt n = true := fun d hd hmark => by
    obtain ⟨us, hahead⟩ := hd.sound.ahead_eq (hkind d hmark)
    have hinner : d.behind.reverse ++ d.ahead = c.inner := hd.refines.eq_of_short hshort
    have hmove : c.moveTo d.behind.length = d := by
      rw [moveTo, ← hinner, ← hd.source, ← hd.eof, ← List.length_reverse, List.take_left, List.drop_left,
        List.reverse_reverse]
    have := h d.behind.length (by rw [← hinner, hahead]; simp)
    rw [hmove] at this
    exact this hmark
  refine ⟨fun d hd hmark => ?_, fun d e d' hd hmark he => ?_⟩
  · obtain ⟨n, hn⟩ := hplace d (hd.rereads hs) hmark
    exact (exists_calls_of_callsAt (hd.rereads hs).sound (hkind d hmark) hn).1
  · obtain ⟨n, hn⟩ := hplace d hd hmark
    exact (exists_calls_of_callsAt hd.sound (hkind d hmark) hn).2 e d' he

end Cursor

end Checked

namespace Expansion

variable {s : Settings} {code : Text} {c : Cursor}

/-- Passes over markers that are each read with a closure behind it end before they are used up. -/
theorem history_nested {n d : Nat} (hc : Cursor.ofText code = .ok c)
    (hmembers : Site.all (Registry.ofSettings s) .member c.tokens = []) (hcalled : c.Called (Registry.ofSettings s).marks)
    (hdeep : Shallow (Registry.ofSettings s).marks d c.inner) (hd : d ≤ n) (hn : 1 ≤ n) :
    (∀ p ∈ history { settings := s } (Registry.ofSettings s) n code, p.failures = [] ∧ p.Regular s) ∧
      settled (history { settings := s } (Registry.ofSettings s) n code) = true ∧
      (history { settings := s } (Registry.ofSettings s) n code).length ≤ max d 1 := by
  induction n generalizing code c d with
  | zero => omega
  | succ n ih =>
    obtain ⟨hs, hsource, -⟩ := Cursor.sound_ofText hc
    obtain ⟨q, hq⟩ : ∃ q, Pass.ofCursor { settings := s } (Registry.ofSettings s) c = q := ⟨_, rfl⟩
    have hcode : Cursor.ofText q.code = .ok c := by
      rw [← hq, show (Pass.ofCursor { settings := s } (Registry.ofSettings s) c).code = c.source from rfl, hsource]
      exact hc
    rw [history_of_ok hc hq]
    have hclean : q.failures = [] ∧ q.Regular s :=
      ⟨Pass.failures_eq_nil hcode hq hmembers hcalled, .of_expressions hcode hq hmembers⟩
    cases hempty : q.selection.deferred.isEmpty with
    | true =>
      rw [if_pos rfl]
      exact ⟨by simpa using hclean, by simpa [settled] using hempty, by simp⟩
    | false =>
      rw [if_neg Bool.false_ne_true]
      -- markers are deferred, so that they are two deep at least
      have hdeferred : q.selection.deferred ≠ [] := by simpa using hempty
      obtain ⟨d, rfl⟩ : ∃ e, d = e + 2 := by
        rcases d with _ | _ | d
        · exact absurd (Pass.deferred_eq_nil hcode hq hmembers hcalled (.of_none hdeep)) hdeferred
        · exact absurd (Pass.deferred_eq_nil hcode hq hmembers hcalled hdeep) hdeferred
        · exact ⟨d, rfl⟩
      obtain ⟨c', hc', hmembers'⟩ := Pass.memberless_after hcode hq hmembers
      obtain ⟨hcalled', hdeep'⟩ := Pass.called_after hcode hq hmembers hcalled hdeep hc'
      obtain ⟨hall, hsettled, hlength⟩ := ih hc' hmembers' hcalled' hdeep' (by omega) (by omega)
      refine ⟨List.forall_mem_cons.mpr ⟨hclean, hall⟩, by rwa [settled_cons hempty], ?_⟩
      rw [List.length_cons]
      omega

/-- As many passes as markers are nested suffice. Let no declaration be annotated, and let each marker of the source be
read with a closure behind it, in matching brackets. Then a pass that defers a site makes an edit; and if the markers
of the source are at most `d` deep and at least `d` passes are allowed, the run succeeds within `d` passes, or one,
does not warn that they are used up, and leaves no marker. -/
theorem run_nested (path : Option Text) (hc : Cursor.ofText (Text.unifyLineEnds code) = .ok c)
    (hmembers : Site.all (Registry.ofSettings s) .member c.tokens = [])
    (hcalled : c.Called (Registry.ofSettings s).marks) :
    let passes := passesOf s (Registry.ofSettings s) code
    let result := run s (Registry.ofSettings s) code path
    (∀ p ∈ passes, p.selection.deferred ≠ [] → p.edits ≠ []) ∧
      ∀ d, (∀ p ∈ passes.head?, p.depth ≤ d) → d ≤ s.maxPasses →
        result.success = true ∧ passes.length ≤ max d 1 ∧ limitWarning s ∉ result.warnings ∧
          ∃ t, Siteless (Registry.ofSettings s) t ∧
            result.code = if Text.hasCrLf code then Text.restoreLineEnds t else t := by
  intro passes result
  refine ⟨fun p hp hdeferred => ?_, fun d hdepth hd => ?_⟩
  · obtain ⟨c, hc, rfl⟩ := mem_history hp
    exact Pass.edits_ne_nil (Cursor.sound_ofText hc).1 hdeferred
  -- markers are as deep as the first pass finds them
  have hdeep : Shallow (Registry.ofSettings s).marks d c.inner := by
    obtain ⟨hs, hsource, -⟩ := Cursor.sound_ofText hc
    obtain ⟨q, hq⟩ : ∃ q, Pass.ofCursor { settings := s } (Registry.ofSettings s) c = q := ⟨_, rfl⟩
    have hcode : Cursor.ofText q.code = .ok c := by
      rw [← hq, show (Pass.ofCursor { settings := s } (Registry.ofSettings s) c).code = c.source from rfl, hsource]
      exact hc
    obtain ⟨n, hn⟩ := Nat.exists_eq_add_of_le' s.one_le_maxPasses
    refine Pass.shallow_of_depth_le hcode hq hcalled (hdepth q ?_)
    show q ∈ (history { settings := s } (Registry.ofSettings s) s.maxPasses (Text.unifyLineEnds code)).head?
    rw [hn, history_of_ok hc hq]
    rfl
  obtain ⟨hall, hsettled, hlength⟩ : (∀ p ∈ passes, p.failures = [] ∧ p.Regular s) ∧ settled passes = true ∧
      passes.length ≤ max d 1 := history_nested hc hmembers hcalled hdeep hd s.one_le_maxPasses
  obtain ⟨hiff, hrun⟩ := run_history s (Registry.ofSettings s) code path
  rw [passesOf_ofSettings] at hiff hrun
  have hfulfilled : Fulfilled s.maxPasses passes := ⟨fun p hp => (hall p hp).1, .inl hsettled⟩
  obtain ⟨-, hresult, hwarnings⟩ := hrun hfulfilled
  refine ⟨hiff.mpr hfulfilled, hlength, ?_, ?_⟩
  · rw [hwarnings, if_pos hsettled, List.append_nil, List.mem_flatMap]
    rintro ⟨p, hp, hwarning⟩
    obtain ⟨c, hc, rfl⟩ := mem_history hp
    exact limitWarning_notMem (Cursor.sound_ofText hc).1 hwarning
  · obtain ⟨p, -, hsiteless, hremainder⟩ := siteless_remainder hall hsettled
    exact ⟨p.after, hsiteless, by rw [hresult, passesOf, hremainder]⟩

/-- A closure in the closure of another marker, expanded in two passes. -/
theorem run_nested_two : ∃ code, code =
      "let f = #WeakSelfClosure \x7b let g = #WeakSelfClosure \x7b run() \x7d \x7d".toList ∧
    (∀ p ∈ (passesOf {} (Registry.ofSettings {}) code).head?, p.depth = 2) ∧
    (run {} (Registry.ofSettings {}) code).success = true ∧
    (passesOf {} (Registry.ofSettings {}) code).length ≤ 2 ∧
    Siteless (Registry.ofSettings {}) (run {} (Registry.ofSettings {}) code).code := by
  obtain ⟨code, hcode⟩ : ∃ code, code =
      "let f = #WeakSelfClosure \x7b let g = #WeakSelfClosure \x7b run() \x7d \x7d".toList := ⟨_, rfl⟩
  refine ⟨code, hcode, ?_⟩
  have hflat : Text.hasCrLf code = false := by
    rw [hcode]
    decide +kernel
  have hfirst : (Cursor.ofText (Text.unifyLineEnds code)).toOption.any (fun c =>
      (Site.all (Registry.ofSettings {}) .member c.tokens).isEmpty &&
      c.inner.all (fun t => t.kind != .operator || t.text.length ≤ 1) &&
      (List.range c.inner.length).all fun i => !(Registry.ofSettings {}).marks (c.moveTo i).peek.word ||
        (List.range c.inner.length).any fun n => (c.moveTo i).callsAt n) = true := by
    rw [hcode]
    decide +kernel
  have hdepths : (passesOf {} (Registry.ofSettings {}) code).head?.map Pass.depth = some 2 := by
    rw [hcode]
    decide +kernel
  have hdepth : ∀ p ∈ (passesOf {} (Registry.ofSettings {}) code).head?, p.depth = 2 := fun p hp => by
    rw [Option.mem_def.mp hp] at hdepths
    simpa using hdepths
  obtain ⟨c, hc, hmembers, hshort, hcalls⟩ : ∃ c, Cursor.ofText (Text.unifyLineEnds code) = .ok c ∧
      Site.all (Registry.ofSettings {}) .member c.tokens = [] ∧
      (∀ t ∈ c.inner, t.kind = .operator → t.text.length ≤ 1) ∧
      ∀ i < c.inner.length, (Registry.ofSettings {}).marks (c.moveTo i).peek.word = true →
        ∃ n, (c.moveTo i).callsAt n = true := by
    cases hc : Cursor.ofText (Text.unifyLineEnds code) with
    | error e => simp [hc, Except.toOption] at hfirst
    | ok c =>
      simp only [hc, Except.toOption, Option.any_some, Bool.and_eq_true, List.all_eq_true, List.mem_range,
        Bool.or_eq_true, Bool.not_eq_true', List.any_eq_true, List.isEmpty_iff] at hfirst
      obtain ⟨⟨hmembers, hshort⟩, hcalls⟩ := hfirst
      refine ⟨c, rfl, hmembers, fun t ht hk => ?_, fun i hi hmark => ?_⟩
      · simpa [hk] using hshort t ht
      · obtain ⟨n, -, hn⟩ := (hcalls i hi).resolve_left fun hnone => by rw [hmark] at hnone; cases hnone
        exact ⟨n, hn⟩
  have hcalled := Cursor.Called.of_callsAt (Cursor.sound_ofText hc).1 (fun _ => Registry.kind_of_marks) hshort hcalls
  obtain ⟨-, hrun⟩ := run_nested none hc hmembers hcalled
  obtain ⟨hsuccess, hlength, -, t, ht, hresult⟩ := hrun 2 (fun p hp => (hdepth p hp).le) (by decide)
  rw [hflat, if_neg Bool.false_ne_true] at hresult
  exact ⟨hdepth, hsuccess, hlength, hresult ▸ ht⟩

/-- Two markers, one in the closure of the other, and each is read with its closure. Behind the stray closing
bracket a semicolon of the inner closure ends a statement of the outer one and is dropped; without it the effects
of the inner closure are read as they were not before, and the second pass fails. -/
theorem run_fails_nested :
    let r := Registry.ofSettings {}
    let code := "#WeakSelfClosure \x7b ) #WeakSelfClosure \x7b @a(if ) in x \x7b \x7d ; ) in y ( \x7d".toList
    ((Cursor.ofText code).toOption.any fun c => (Site.all r .member c.tokens).isEmpty &&
      (Site.all r .expression c.tokens).length == 2 && (Site.all r .expression c.tokens).all fun x =>
        (c.seek? x.token.start).any fun d => match Parser.expansion d with
          | .ok e _ => e.trailing.isSome
          | .error .. => false) = true ∧
      (run {} r code).success = false := by
  decide +kernel

end Expansion

end SwiftMacros
