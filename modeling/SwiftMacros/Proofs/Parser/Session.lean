import Mathlib
import SwiftMacros.Proofs.Grammar.Forward
import SwiftMacros.Proofs.Cursor.Sound

/-! Sessions: a parser that is asked for one thing after the other, whatever fails on the way. The
tokens of the source are only refined by that. Operators come to stand in pieces, and all that was there
in the first place can still be found where it was. -/

namespace SwiftMacros

namespace Cursor

/-- `c'` has the tokens of `c`, with operators split; its place among them does not matter. -/
structure SplitsTo (c c' : Cursor) : Prop where
  source : c'.source = c.source
  eof : c'.eof = c.eof
  inner : Token.Splits c.inner c'.inner

theorem SplitsTo.trans {c c' c'' : Cursor} (h : c.SplitsTo c') (h' : c'.SplitsTo c'') :
    c.SplitsTo c'' :=
  ⟨h'.source.trans h.source, h'.eof.trans h.eof, h.inner.trans h'.inner⟩

theorem SplitsTo.onward {c c' c'' : Cursor} (h : c.SplitsTo c') (h' : c'.Onward c'') :
    c.SplitsTo c'' :=
  ⟨h'.source.trans h.source, h'.eof.trans h.eof, h.inner.trans h'.inner⟩

theorem tokens_eq (c : Cursor) : c.tokens = c.inner ++ [c.eof] := rfl

/-- There is a token at the cursor, be it the end of the source. -/
theorem tokens_position (c : Cursor) : c.tokens[c.position]? = some c.peek := by
  have hlen : c.behind.reverse.length = c.position := List.length_reverse
  rw [tokens, List.append_assoc, ← hlen, List.getElem?_append_right le_rfl, Nat.sub_self, peek]
  cases c.ahead <;> rfl

/-- Looking up a token changes no more than the place of the cursor. -/
theorem seek_splitsTo {c c' : Cursor} {offset : Nat} (h : c.seek? offset = some c') :
    c.SplitsTo c' := by
  unfold seek? at h
  dsimp only at h
  split at h
  · cases h
    refine ⟨rfl, rfl, ?_⟩
    simp only [inner, List.reverse_reverse, List.takeWhile_append_dropWhile]
    exact .refl _
  · cases h

/-- A token is found by its start if all tokens start one behind the other. -/
theorem seek_of_mem {c : Cursor} (h : c.tokens.Pairwise fun t u => t.start < u.start) {t : Token}
    (ht : t ∈ c.tokens) : ∃ c', c.seek? t.start = some c' ∧ c'.peek = t := by
  obtain ⟨xs, ys, hsplit⟩ := List.append_of_mem ht
  rw [hsplit, List.pairwise_append] at h
  have hbefore : ∀ u ∈ xs, decide (u.start < t.start) = true :=
    fun u hu => decide_eq_true (h.2.2 u hu t (by simp))
  have hfound : ∀ found : Cursor, found.ahead = c.inner.dropWhile (fun u => u.start < t.start) →
      found.eof = c.eof → found.peek = t := by
    intro found hahead heof
    rcases List.eq_nil_or_concat ys with rfl | ⟨ys, y, rfl⟩
    · -- the token is the end of the source
      obtain ⟨hinner, heq⟩ := List.append_inj' (c.tokens_eq.symm.trans hsplit) rfl
      rw [hinner, List.dropWhile_eq_nil_iff.mpr hbefore] at hahead
      rw [peek, hahead, heof]
      exact List.singleton_injective heq
    · have hinner : c.inner = xs ++ t :: ys := by
        rw [tokens_eq, List.concat_eq_append, ← List.cons_append, ← List.append_assoc] at hsplit
        exact (List.append_inj' hsplit rfl).1
      rw [hinner, List.dropWhile_append_of_pos hbefore, List.dropWhile_cons_of_neg (by simp)] at hahead
      rw [peek, hahead]
      rfl
  rw [seek?]
  have := hfound { c with
    behind := (c.inner.takeWhile fun u => u.start < t.start).reverse
    ahead := c.inner.dropWhile fun u => u.start < t.start } rfl rfl
  exact ⟨_, if_pos (congrArg Token.start this), this⟩

end Cursor

namespace Parser

/-- A cursor is moved to a token that is there, and left alone otherwise. -/
theorem seek_cases (offset : Int) (c : Cursor) :
    (∃ c', 0 ≤ offset ∧ c.seek? offset.toNat = some c' ∧ seek offset c = .ok () c') ∨
      ∃ e, seek offset c = .error e c := by
  rw [seek, run_get_bind]
  by_cases h : 0 ≤ offset
  · rw [if_pos h]
    cases hf : c.seek? offset.toNat with
    | none => exact .inr ⟨_, rfl⟩
    | some found => exact .inl ⟨found, h, rfl, rfl⟩
  · rw [if_neg h]
    exact .inr ⟨_, rfl⟩

theorem seek_of_found {c c' : Cursor} {n : Nat} (h : c.seek? n = some c') : seek n c = .ok () c' := by
  rw [seek, run_get_bind, if_pos (Int.natCast_nonneg n), Int.toNat_natCast, h]
  rfl

/-- What a parser can be asked for. -/
inductive Operation where
  | consume
  | expect (text : Text)
  | expectEof
  | skipBalanced
  | split (n : Nat)
  | seek (offset : Int)
  | type
  | expression
  | closure
  | expansion
  | attributeHere
  | attributes
  | modifiers
  | member
  | memberBlock
  | declaration
  | group
  | attempt (body : List Operation)

namespace Operation

mutual

/-- The operation without its answer. -/
def run : Operation → Parser Unit
  | consume => do let _ ← Parser.consume; return ()
  | expect text => do let _ ← Parser.expect text; return ()
  | expectEof => Parser.expectEof
  | skipBalanced => Parser.skipBalanced
  | split n => modify (·.splitOperator n)
  | seek offset => Parser.seek offset
  | type => do let _ ← Parser.type; return ()
  | expression => do let _ ← Parser.expression; return ()
  | closure => do let _ ← Parser.closure; return ()
  | expansion => do let _ ← Parser.expansion; return ()
  | attributeHere => do let _ ← Parser.attributeHere; return ()
  | attributes => do let _ ← Parser.attributes; return ()
  | modifiers => do let _ ← Parser.modifiers; return ()
  | member => do let _ ← Parser.member; return ()
  | memberBlock => do let _ ← Parser.memberBlock; return ()
  | declaration => do let _ ← Parser.declaration; return ()
  | group => do let _ ← Parser.group; return ()
  | attempt body => do let _ ← Parser.attempt (runAll body); return ()

/-- One operation after the other, up to the first that fails. -/
def runAll : List Operation → Parser Unit
  | [] => return ()
  | op :: ops => do
    op.run
    runAll ops

end

mutual

/-- Whether the operation reads on: it does not move to another place, and splits no operator in front
of its first character. -/
def readsOn : Operation → Bool
  | split n => 0 < n
  | seek _ => false
  | attempt body => allReadOn body
  | _ => true

def allReadOn : List Operation → Bool
  | [] => true
  | op :: ops => op.readsOn && allReadOn ops

end

/-- Whether the operation reads on or moves to another place. -/
def isSound : Operation → Bool
  | seek _ => true
  | op => op.readsOn

mutual

theorem run_forward : ∀ {op : Operation}, op.readsOn = true → Forward op.run
  | consume, _ => .bind .consume fun _ => .pure _
  | expect _, _ => .bind (.expect _) fun _ => .pure _
  | expectEof, _ => .expectEof
  | skipBalanced, _ => .skipBalanced
  | split _, h => fun c => c.splitOperator_onward (of_decide_eq_true h)
  | type, _ => .bind (.withGrammar fun _ => Grammar.typeRule_forward) fun _ => .pure _
  | expression, _ => .bind (.withGrammar fun _ => Grammar.expressionRule_forward) fun _ => .pure _
  | closure, _ => .bind (.withGrammar fun _ => Grammar.closureRule_forward) fun _ => .pure _
  | expansion, _ => .bind (.withGrammar fun _ => Grammar.expansionRule_forward) fun _ => .pure _
  | attributeHere, _ => .bind (.withGrammar fun _ => Grammar.attributeRule_forward) fun _ => .pure _
  | attributes, _ => .bind (.withGrammar fun _ => Grammar.attributesRule_forward) fun _ => .pure _
  | modifiers, _ => .bind (.withGrammar fun _ => Grammar.modifiersRule_forward) fun _ => .pure _
  | member, _ => .bind (.withGrammar fun _ => Grammar.memberRule_forward) fun _ => .pure _
  | memberBlock, _ => .bind (.withGrammar fun _ => Grammar.memberBlockRule_forward) fun _ => .pure _
  | declaration, _ => .bind (.withGrammar fun _ => Grammar.declarationRule_forward) fun _ => .pure _
  | group, _ => .bind group_forward fun _ => .pure _
  | attempt _, h => .bind (.attempt (runAll_forward h)) fun _ => .pure _

theorem runAll_forward : ∀ {ops : List Operation}, allReadOn ops = true → Forward (runAll ops)
  | [], _ => .pure _
  | _ :: _, h =>
    have ⟨hop, hops⟩ := Bool.and_eq_true_iff.mp h
    .bind (run_forward hop) fun _ => runAll_forward hops

end

/-- An operation leaves the tokens as they are but for operators that it splits, whether it fails or
not. -/
theorem run_splitsTo {op : Operation} (h : op.isSound = true) {c₀ c : Cursor} (hc : c₀.SplitsTo c) :
    c₀.SplitsTo (after op.run c) := by
  cases op with
  | seek offset =>
    rw [run, after]
    obtain ⟨c', -, hfound, hseek⟩ | ⟨e, hseek⟩ := seek_cases offset c
    · rw [hseek]
      exact hc.trans (Cursor.seek_splitsTo hfound)
    · rw [hseek]
      exact hc
  | _ => exact hc.onward (run_forward h c)

end Operation

/-- The cursor after one operation and the next and so on, where one that fails leaves the cursor at
the place it failed at. -/
def session (ops : List Operation) (c : Cursor) : Cursor :=
  ops.foldl (fun c op => after op.run c) c

theorem session_splitsTo {ops : List Operation} (h : ∀ op ∈ ops, op.isSound = true) {c₀ c : Cursor}
    (hc : c₀.SplitsTo c) : c₀.SplitsTo (session ops c) := by
  induction ops generalizing c with
  | nil => exact hc
  | cons op ops ih =>
    exact ih (fun op hop => h op (by simp [hop])) (Operation.run_splitsTo (h op (by simp)) hc)

/-- What is left of the tokens `ts` and the end `e` of a text `s` at a cursor. Operators are in pieces,
and nothing else is changed. All tokens know their text, line and column; they start one behind the
other, the end of the text is the last of them, and the cursor is at one of them. What reads on and
fails in an attempt gets back to a token with the same start, and each token of the text is found by
its start. -/
structure Refined (s : Text) (ts : List Token) (e : Token) (c : Cursor) : Prop where
  pieces : ∃ us, c.tokens = us ++ [e] ∧ Token.Pieced ts us
  located : ∀ u ∈ c.tokens, Token.Located s u
  increasing : c.tokens.Pairwise fun t u => t.start < u.start
  inside : c.tokens[c.position]? = some c.peek
  attempts : ∀ body, Operation.allReadOn body = true → ∀ fault c₁,
    Operation.runAll body c = .error fault c₁ → ∃ c', attempt (Operation.runAll body) c = .ok none c' ∧
      c'.behind = c.behind ∧ c'.peek.start = c.peek.start
  finds : ∀ t ∈ ts ++ [e], ∃ c', seek t.start c = .ok () c' ∧ c'.peek.start = t.start

/-- Splitting the operators of a text refines its tokens. -/
theorem refined_of_splitsTo {s : Text} {ts : List Token} (h : Token.tokenize s = .ok ts) {c₀ c : Cursor}
    (h₀ : Cursor.ofText s = .ok c₀) (hc : c₀.SplitsTo c) : Refined s c₀.inner c₀.eof c := by
  obtain ⟨hsound, rfl, -⟩ := Cursor.sound_ofText h₀
  have htokens : c₀.tokens = Token.significant ts := by
    obtain ⟨c', hc', htokens⟩ := Cursor.tokens_ofText h
    rwa [Except.ok.inj (h₀.symm.trans hc')]
  have hlocated := Token.significant_located h
  rw [← htokens, Cursor.tokens_eq] at hlocated
  have hplaced := hsound.arranged.placed
  have hpieced : Token.Pieced c₀.inner c.inner :=
    (Token.Pieced.refl fun t ht => ⟨(hplaced t ht).lt, (hplaced t ht).length⟩).splits hc.inner
  have hincreasing : c.tokens.Pairwise fun t u => t.start < u.start := by
    rw [Cursor.tokens_eq, List.pairwise_append]
    refine ⟨hpieced.pairwise hsound.arranged.pairwise, List.pairwise_singleton _ _, fun u hu e he => ?_⟩
    obtain ⟨t, ht, vs, hvs, hmem⟩ := hpieced.mem_right u hu
    have hbounds := hvs.covers.bounds.2 u hmem
    have hle := (hplaced t ht).le
    rw [List.mem_singleton.mp he, hc.eof, hsound.eof_start]
    omega
  refine ⟨⟨c.inner, by rw [Cursor.tokens_eq, hc.eof], hpieced⟩, ?_, hincreasing, c.tokens_position,
    fun body hbody fault c₁ he => (Operation.runAll_forward hbody).failed_attempt he, ?_⟩
  · rw [Cursor.tokens_eq]
    refine List.forall_mem_append.mpr ⟨fun u hu => ?_, ?_⟩
    · obtain ⟨t, ht, vs, hvs, hmem⟩ := hpieced.mem_right u hu
      exact hvs.located (hlocated t (by simp [ht])) (hplaced t ht) u hmem
    · simpa [hc.eof] using hlocated c₀.eof (by simp)
  · intro t ht
    have hstart : ∃ u ∈ c.tokens, u.start = t.start := by
      rcases List.mem_append.mp ht with ht | ht
      · obtain ⟨u, hu, hstart⟩ := hpieced.exists_start (fun t ht => (hplaced t ht).lt) t ht
        exact ⟨u, by simp [Cursor.tokens_eq, hu], hstart⟩
      · exact ⟨c.eof, by simp [Cursor.tokens_eq], by rw [hc.eof, List.mem_singleton.mp ht]⟩
    obtain ⟨u, hu, hstart⟩ := hstart
    obtain ⟨found, hfound, hpeek⟩ := Cursor.seek_of_mem hincreasing hu
    rw [hstart] at hfound
    exact ⟨found, seek_of_found hfound, by rw [hpeek, hstart]⟩

/-- Whatever a parser is asked for, one thing after the other, the tokens of its source are only
refined. -/
theorem session_refined {s : Text} {ts : List Token} (h : Token.tokenize s = .ok ts)
    (ops : List Operation) (hops : ∀ op ∈ ops, op.isSound = true) :
    ∃ c us e, Cursor.ofText s = .ok c ∧ Token.significant ts = us ++ [e] ∧ e.kind = .eof ∧
      Refined s us e (session ops c) := by
  obtain ⟨c, hc, htokens⟩ := Cursor.tokens_ofText h
  exact ⟨c, c.inner, c.eof, hc, htokens.symm, (Cursor.sound_ofText hc).1.eof_kind,
    refined_of_splitsTo h hc (session_splitsTo hops ⟨rfl, rfl, .refl _⟩)⟩

/-- The marks `??>` come to stand in three pieces, in which an attempt and what follows find them. -/
theorem session_refined_marks : ∃ c us e, Cursor.ofText "A<B??>c".toList = .ok c ∧ e.kind = .eof ∧
    Refined "A<B??>c".toList us e
      (session [.type, .seek 3, .split 1, .seek 9, .seek 0, .attempt [.type, .expectEof]] c) ∧
    (session [.type, .seek 3, .split 1, .seek 9, .seek 0, .attempt [.type, .expectEof]] c).tokens.map
      (·.text) = [['A'], ['<'], ['B'], ['?'], ['?'], ['>'], ['c'], []] := by
  have hts : Token.tokenize "A<B??>c".toList = .ok
      [⟨.identifier, ['A'], 1, 0, 0, 1, false, false⟩, ⟨.operator, ['<'], 1, 1, 1, 2, false, false⟩,
        ⟨.identifier, ['B'], 1, 2, 2, 3, false, false⟩,
        ⟨.operator, ['?', '?', '>'], 1, 3, 3, 6, false, false⟩,
        ⟨.identifier, ['c'], 1, 6, 6, 7, false, false⟩, ⟨.eof, [], 1, 7, 7, 7, false, false⟩] := by
    rfl
  obtain ⟨c, us, e, hc, -, he, hrefined⟩ := session_refined hts
    [.type, .seek 3, .split 1, .seek 9, .seek 0, .attempt [.type, .expectEof]] (by decide)
  have htexts : (Cursor.ofText "A<B??>c".toList).toOption.map (fun c =>
      (session [.type, .seek 3, .split 1, .seek 9, .seek 0, .attempt [.type, .expectEof]] c).tokens.map
        (·.text)) = some [['A'], ['<'], ['B'], ['?'], ['?'], ['>'], ['c'], []] := by
    decide +kernel
  rw [hc] at htexts
  exact ⟨c, us, e, hc, he, hrefined, Option.some.inj htexts⟩

/-- Splitting an operator in front of its first character puts an empty token there, which starts where
the operator does. -/
theorem session_split_nothing : ∃ c, Cursor.ofText "+1".toList = .ok c ∧
    (session [.split 0] c).tokens.map (fun t => (t.text, t.start)) =
      [([], 0), (['+'], 0), (['1'], 1), ([], 2)] ∧
    ∀ us e, ¬ Refined "+1".toList us e (session [.split 0] c) := by
  have hcursor : Cursor.ofText "+1".toList = .ok _ := rfl
  refine ⟨_, hcursor, by rfl, fun us e h => ?_⟩
  have := h.increasing
  revert this
  decide

end Parser

end SwiftMacros
