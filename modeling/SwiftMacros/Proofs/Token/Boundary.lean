import Mathlib
import SwiftMacros.Proofs.Token.Coordinates

/-! Lexing is local. A text can be cut at any boundary between two of its tokens, and another text set
behind the cut on a line of its own. The significant tokens in front of the cut stay as they are, and
those of the other text come behind them, as far further on as that text is. -/

namespace SwiftMacros

/-- The place in a text that has `lines` more lines and `chars` more characters in front. -/
def Place.further (lines chars : Nat) (p : Place) : Place :=
  ⟨p.offset + chars, p.line + lines, p.lineStart + chars⟩

namespace Token

/-- The token in a text that has `lines` more lines and `chars` more characters in front. -/
def further (lines chars : Nat) (t : Token) : Token :=
  { t with line := t.line + lines, start := t.start + chars, stop := t.stop + chars }

section Lexemes

variable {x y u v r : Text} {k : Kind}

theorem newlineLength_eq_some_iff {t : Text} {n : Nat} : newlineLength? t = some n ↔
    (∃ u, t = '\n' :: u ∧ n = 1) ∨ ∃ u, t = '\r' :: '\n' :: u ∧ n = 2 := by
  constructor
  · intro h
    unfold newlineLength? at h
    split at h
    · exact .inl ⟨_, rfl, by simpa using h.symm⟩
    · exact .inr ⟨_, rfl, by simpa using h.symm⟩
    · cases h
  · rintro (⟨u, rfl, rfl⟩ | ⟨u, rfl, rfl⟩) <;> rfl

/-- A line end takes itself, in front of any text. -/
theorem newlineLength_append (h : newlineLength? (y ++ u) = some y.length) (u' : Text) :
    newlineLength? (y ++ u') = some y.length := by
  rcases newlineLength_eq_some_iff.mp h with ⟨w, hw, hn⟩ | ⟨w, hw, hn⟩
  · obtain ⟨c, rfl⟩ := List.length_eq_one_iff.mp hn
    obtain ⟨rfl, -⟩ : c = '\n' ∧ _ := by simpa using hw
    rfl
  · obtain ⟨c, d, rfl⟩ := List.length_eq_two.mp hn
    obtain ⟨rfl, rfl, -⟩ : c = '\r' ∧ d = '\n' ∧ _ := by simpa using hw
    rfl

/-- A run of white space in front of a line end, or of what had been behind it, stays one; a single
carriage return belongs to the line end. -/
theorem newlineLength_space (hy : ∀ c ∈ y, isSpaceChar c = true) (hne : y ≠ [])
    (hnone : newlineLength? (y ++ (v ++ r)) = none) (q : Text) :
    newlineLength? (y ++ (v ++ '\n' :: q)) = none ∨ y = ['\r'] ∧ v = [] := by
  have hspace : isSpaceChar '\n' = false := by decide
  by_contra hcon
  rw [not_or, Option.eq_none_iff_forall_ne_some] at hcon
  obtain ⟨hsome, hlone⟩ := hcon
  push Not at hsome
  obtain ⟨n, hn⟩ := hsome
  obtain ⟨c, z, rfl⟩ := List.exists_cons_of_ne_nil hne
  rcases newlineLength_eq_some_iff.mp hn with ⟨w, hw, -⟩ | ⟨w, hw, -⟩
  · obtain ⟨rfl, -⟩ : c = '\n' ∧ _ := by simpa using hw
    simp [hspace] at hy
  · obtain ⟨rfl, hz⟩ : c = '\r' ∧ z ++ (v ++ '\n' :: q) = '\n' :: w := by simpa using hw
    cases z with
    | nil =>
      cases v with
      | nil => exact hlone ⟨rfl, rfl⟩
      | cons d v =>
        obtain ⟨rfl, -⟩ : d = '\n' ∧ _ := by simpa using hz
        cases hnone
    | cons d z =>
      obtain ⟨rfl, -⟩ : d = '\n' ∧ _ := by simpa using hz
      simp [hspace] at hy

/-- A lexeme in front of a boundary stays if a line end is put at the boundary. Only a carriage return at
the boundary becomes a part of the line end. -/
theorem lexeme_break (hy : y ≠ []) (h : lexeme (y ++ (v ++ r)) = .ok (k, y.length)) (q : Text) :
    lexeme (y ++ (v ++ '\n' :: q)) = .ok (k, y.length) ∨ k.isTrivia = true ∧ y = ['\r'] ∧ v = [] := by
  have hhead : ∀ {p : Char → Prop}, p '\n' → (∀ c ∈ (v ++ r).head?, p c) →
      ∀ c ∈ (v ++ '\n' :: q).head?, p c := by
    intro p hp hall c hc
    cases v with
    | nil =>
      cases hc
      exact hp
    | cons d v => exact hall c hc
  cases hk : k.isTrivia with
  | false =>
    left
    have hstop : Stops ('\n' :: q) := stops_cons (by decide)
    rw [← List.append_assoc] at h ⊢
    exact lexeme_append h (by simp) hk (.inl (hstop.apart _)) fun hquote => by cases hquote
  | true =>
    rcases trivia_cases h hk with hgap | ⟨z, rfl, hz, hu⟩ | ⟨hblock, hc⟩
    · obtain ⟨c, z, rfl⟩ := List.exists_cons_of_ne_nil hy
      have hc : isGap c = true := hgap c (by simp)
      rw [List.cons_append, lexeme_gap_eq hc, ← List.cons_append] at h ⊢
      cases hn : newlineLength? (c :: z ++ (v ++ r)) with
      | some n =>
        rw [hn] at h
        cases h
        left
        rw [newlineLength_append hn, Option.elim_some]
      | none =>
        rw [hn] at h
        obtain ⟨rfl, hrun⟩ : k = .whitespace ∧
            runLength isSpaceChar (c :: z ++ (v ++ r)) = (c :: z).length := by
          simpa [eq_comm] using h
        obtain ⟨hall, hend⟩ := of_runLength_eq hrun.ge
        rcases newlineLength_space hall hy hn q with hnone | hlone
        · left
          rw [hnone, Option.elim_none, runLength_stop (hhead (by decide) (hend hrun)), runLength,
            List.takeWhile_eq_self_iff.mpr hall]
        · exact .inr ⟨rfl, hlone⟩
    · left
      rw [lexeme_lineComment hz hu] at h
      cases h
      exact lexeme_lineComment hz (hhead rfl hu)
    · left
      rw [(lexeme_blockComment hblock hc (v ++ r)).1] at h
      cases h
      exact (lexeme_blockComment hblock hc _).1

end Lexemes

section Places

variable (lines chars : Nat)

theorem further_advance (p : Place) (c : Char) :
    (p.further lines chars).advance c = (p.advance c).further lines chars := by
  unfold Place.advance
  split
  · simp only [Place.further, Nat.add_right_comm]
  · simp only [Place.further, Nat.add_right_comm]

theorem further_foldl (p : Place) (x : Text) :
    x.foldl Place.advance (p.further lines chars) = (x.foldl Place.advance p).further lines chars := by
  induction x generalizing p with
  | nil => rfl
  | cons c x ih => rw [List.foldl_cons, List.foldl_cons, further_advance, ih]

theorem further_tokenAt (p : Place) (k : Kind) (x : Text) :
    tokenAt (p.further lines chars) k x = (tokenAt p k x).further lines chars := by
  simp only [tokenAt, further, Place.further, Place.column, Nat.add_sub_add_right,
    Nat.add_right_comm]

/-- Behind a text and a line end, a text starts as many lines further on as there are line ends, and at
the start of a line. -/
theorem foldl_newline (p : Text) : (p ++ ['\n']).foldl Place.advance {} =
    Place.further (p.count '\n' + 1) (p.length + 1) {} := by
  obtain ⟨hexact, -⟩ := (Place.Exact.start (p ++ ['\n'])).foldl
    (show (p ++ ['\n']).drop 0 = (p ++ ['\n']) ++ [] by simp)
  have hoffset := foldl_advance_offset {} (p ++ ['\n'])
  have hline := hexact.line
  have hstart := hexact.lineStart
  have hp : (p ++ ['\n'])[p.length]? = some '\n' := by simp
  rw [hoffset] at hline hstart
  simp only [Nat.zero_add, List.length_append, List.length_singleton] at hoffset hline hstart
  rw [Text.lineStart_succ hp, if_pos rfl] at hstart
  rw [List.take_of_length_le (by simp), List.count_append, List.count_singleton_self] at hline
  generalize (p ++ ['\n']).foldl Place.advance {} = place at hoffset hline hstart
  cases place
  simp only [Place.further, Place.mk.injEq]
  simp only at hoffset hline hstart
  omega

end Places

namespace Lexes

variable {p p' p'' : Place} {t u v x r : Text} {ts us : List Token}

theorem append (h : Lexes p t ts p' u) (h' : Lexes p' u us p'' v) : Lexes p t (ts ++ us) p'' v := by
  induction h with
  | done => exact h'
  | token hx hl _ ih => exact .token hx hl (ih h')

/-- What has been read is in front of the rest. -/
theorem split (h : Lexes p t ts p' u) : ∃ x, t = x ++ u ∧ p' = x.foldl Place.advance p := by
  induction h with
  | done => exact ⟨[], rfl, rfl⟩
  | @token p p' x u r k ts _ _ _ ih =>
    obtain ⟨y, rfl, rfl⟩ := ih
    exact ⟨x ++ y, by rw [List.append_assoc], by rw [List.foldl_append]⟩

/-- Where nothing is passed, nothing is read. -/
theorem eq_nil_of_self (h : Lexes p t ts p' t) : ts = [] := by
  generalize hu : t = u at h
  cases h with
  | done => rfl
  | @token _ _ x w _ _ _ hx _ hrest =>
    obtain ⟨z, hz, -⟩ := hrest.split
    have hlength := congrArg List.length hz
    have hpos := List.length_pos_iff.mpr hx
    simp only [List.length_append] at hlength
    omega

/-- What is read does not depend on where it stands. -/
theorem further (h : Lexes p t ts p' u) (lines chars : Nat) :
    Lexes (p.further lines chars) t (ts.map (Token.further lines chars)) (p'.further lines chars) u := by
  induction h with
  | done => exact .done _ _
  | token hx hl _ ih =>
    rw [List.map_cons, ← further_tokenAt]
    refine .token hx hl ?_
    rw [further_foldl]
    exact ih

/-- A text that is read to its end is tokenized. -/
theorem tokensFrom (h : Lexes p t ts p' u) (hu : u = []) :
    tokensFrom p 0 t = .ok (ts ++ [tokenAt p' .eof []]) := by
  induction h with
  | done =>
    subst hu
    rfl
  | token hx hl _ ih =>
    rw [tokensFrom_lexeme hx hl, ih hu]
    rfl

/-- The lexemes of a text are not empty, and none is the end of the text. -/
theorem kind_ne_eof (h : Lexes p t ts p' u) : ∀ k ∈ ts, k.kind ≠ .eof ∧ k.start < k.stop := by
  induction h with
  | done => simp
  | @token p p' x u r k ts hx hl _ ih =>
    have hpos := List.length_pos_iff.mpr hx
    exact List.forall_mem_cons.mpr ⟨⟨lexeme_ne_eof hl, by simp only [tokenAt]; omega⟩, ih⟩

/-- A reading can be divided where one of its tokens starts or stops. -/
theorem divide (h : Lexes p t ts p' u) {k : Token} {n : Nat} (hk : k ∈ ts)
    (hn : k.start = n ∨ k.stop = n) :
    ∃ us vs m w, ts = us ++ vs ∧ Lexes p t us m w ∧ Lexes m w vs p' u ∧ m.offset = n := by
  induction h with
  | done => cases hk
  | @token p p' x u r k' ts hx hl hrest ih =>
    rcases List.mem_cons.mp hk with rfl | hk
    · rcases hn with rfl | rfl
      · exact ⟨[], _, p, x ++ u, rfl, .done _ _, .token hx hl hrest, rfl⟩
      · exact ⟨[_], ts, _, u, rfl, .token hx hl (.done _ _), hrest, foldl_advance_offset p x⟩
    · obtain ⟨us, vs, m, w, rfl, hus, hvs, hm⟩ := ih hk
      exact ⟨_ :: us, vs, m, w, rfl, .token hx hl hus, hvs, hm⟩

/-- The text in front of a boundary has the same significant tokens if a line end is put at the
boundary. -/
theorem broken (h : Lexes p t ts p' r) (ht : t = x ++ r) (q : Text) :
    ∃ us, Lexes p (x ++ '\n' :: q) us ((x ++ ['\n']).foldl Place.advance p) q ∧
      us.filter (fun k => !k.kind.isTrivia) = ts.filter fun k => !k.kind.isTrivia := by
  have hnewline : ∀ w, lexeme ('\n' :: w) = .ok (.newline, 1) := fun _ => rfl
  have hreturn : ∀ w, lexeme ('\r' :: '\n' :: w) = .ok (.newline, 2) := fun _ => rfl
  induction h generalizing x with
  | done p r =>
    obtain rfl : x = [] := by simpa using ht
    exact ⟨[tokenAt p .newline ['\n']], .token (x := ['\n']) (by simp) (hnewline q) (.done _ q), rfl⟩
  | @token p p' y w r k ts hy hl hrest ih =>
    obtain ⟨z, rfl, -⟩ := hrest.split
    obtain rfl : x = y ++ z := by simpa [← List.append_assoc] using ht.symm
    rcases lexeme_break hy hl q with hl' | ⟨hk, rfl, rfl⟩
    · obtain ⟨us, hus, hfilter⟩ := ih rfl
      refine ⟨tokenAt p k y :: us, ?_, by rw [List.filter_cons, List.filter_cons, hfilter]⟩
      rw [List.append_assoc, List.append_assoc, List.foldl_append]
      exact .token hy hl' hus
    · -- nothing but trivia can be read from an empty text
      refine ⟨[tokenAt p .newline ['\r', '\n']],
        .token (x := ['\r', '\n']) (by simp) (hreturn q) (.done _ q), ?_⟩
      obtain rfl : ts = [] := hrest.eq_nil_of_self
      simp only [List.filter_cons, tokenAt, hk, List.filter_nil]
      rfl

end Lexes

/-- A token starts or stops at the offset. -/
def Boundary (ts : List Token) (n : Nat) : Prop := ∃ t ∈ ts, t.start = n ∨ t.stop = n

/-- The tokens of a text stand on both sides of a boundary. -/
theorem tokenize_divide {p r : Text} {ts : List Token} (h : tokenize (p ++ r) = .ok ts)
    (hp : Boundary ts p.length) : ∃ us vs m p', ts = us ++ vs ++ [tokenAt p' .eof []] ∧
      Lexes {} (p ++ r) us m r ∧ Lexes m r vs p' [] ∧ m.offset = p.length := by
  obtain ⟨ws, p', rfl, hlexes⟩ := (tokensFrom_lexes {} (p ++ r)).1 ts h
  have hdivide : ∃ us vs m w, ws = us ++ vs ∧ Lexes {} (p ++ r) us m w ∧ Lexes m w vs p' [] ∧
      m.offset = p.length := by
    obtain ⟨k, hk, hn⟩ := hp
    rcases List.mem_append.mp hk with hk | hk
    · exact hlexes.divide hk hn
    · obtain rfl := List.mem_singleton.mp hk
      have hend : p'.offset = p.length := by simpa [tokenAt] using hn
      exact ⟨ws, [], p', [], (List.append_nil _).symm, hlexes, .done _ _, hend⟩
  obtain ⟨us, vs, m, w, rfl, hus, hvs, hm⟩ := hdivide
  obtain ⟨x, hx, rfl⟩ := hus.split
  rw [foldl_advance_offset, Nat.zero_add] at hm
  obtain ⟨rfl, rfl⟩ := List.append_inj hx hm.symm
  exact ⟨us, vs, _, p', rfl, hus, hvs, by rw [foldl_advance_offset, Nat.zero_add]⟩

/-- Tokens that differ in nothing but what they tell of the trivia before them are in the same filters
of kind and place. -/
theorem filter_unspaced (P : Token → Bool) (hP : ∀ t : Token, P t.unspaced = P t) (ts : List Token) :
    (ts.filter P).map unspaced = (ts.map unspaced).filter P := by
  rw [List.filter_map]
  exact congrArg _ (List.filter_congr fun t _ => (hP t).symm)

/-- A boundary between tokens is a place to cut at. With a line end and another text put behind it, the
text in front keeps its significant tokens as they are; those of the other text come behind them, each
as much further on as there are line ends and characters in front of it, in the same column. The one
end token is that of the other text. -/
theorem tokenize_break {p r q : Text} {ts us : List Token} (hts : tokenize (p ++ r) = .ok ts)
    (hp : Boundary ts p.length) (hus : tokenize q = .ok us) :
    ∃ vs, tokenize (p ++ '\n' :: q) = .ok vs ∧ (significant vs).map unspaced =
      ((significant ts).filter fun t => t.kind != .eof && t.stop ≤ p.length).map unspaced ++
        ((significant us).map unspaced).map (further (p.count '\n' + 1) (p.length + 1)) := by
  obtain ⟨fs, gs, m, p', rfl, hfs, hgs, hm⟩ := tokenize_divide hts hp
  obtain ⟨ws, hws, hfilter⟩ := hfs.broken rfl q
  obtain ⟨ks, e, rfl, hks⟩ := (tokensFrom_lexes {} q).1 us hus
  have hmoved := hks.further (p.count '\n' + 1) (p.length + 1)
  rw [foldl_newline] at hws
  refine ⟨_, (hws.append hmoved).tokensFrom rfl, ?_⟩
  have hvs : tokenize (p ++ '\n' :: q) = .ok _ := (hws.append hmoved).tokensFrom rfl
  -- the tokens in front of the cut are those that stop there or before
  have hfront : (fs ++ gs ++ [tokenAt p' .eof []]).filter
      (fun t => t.kind != .eof && t.stop ≤ p.length) = fs := by
    have hin : ∀ t ∈ fs, (t.kind != .eof && decide (t.stop ≤ p.length)) = true := fun t ht => by
      have hstop := (hfs.spread.1 t ht).2
      simp [(hfs.kind_ne_eof t ht).1]
      omega
    have hout : ∀ t ∈ gs, ¬ (t.kind != .eof && decide (t.stop ≤ p.length)) = true := fun t ht => by
      have hstart := (hgs.spread.1 t ht).1
      have hlt := (hgs.kind_ne_eof t ht).2
      simp
      omega
    rw [List.filter_append, List.filter_append, List.filter_eq_self.mpr hin,
      List.filter_eq_nil_iff.mpr hout]
    simp [tokenAt]
  rw [significant_unspaced hvs, filter_unspaced _ (fun _ => rfl), significant_unspaced hts,
    significant_unspaced hus, List.filter_comm, hfront, further_tokenAt, List.filter_append,
    List.filter_append, hfilter, List.append_assoc, ← List.filter_append, ← List.map_singleton,
    ← List.map_append, List.filter_map]
  rfl

/-- A carriage return in front of the boundary becomes a part of the line end that is put there. -/
theorem tokenize_break_return : ∃ vs, tokenize "a\r\n`b`".toList = .ok vs ∧
    (significant vs).map unspaced =
      [⟨.identifier, ['a'], 1, 0, 0, 1, false, false⟩,
        ⟨.identifier, "`b`".toList, 2, 0, 3, 6, false, false⟩, ⟨.eof, [], 2, 3, 6, 6, false, false⟩] := by
  have hts : tokenize ("a\r".toList ++ "+1".toList) = .ok
      [⟨.identifier, ['a'], 1, 0, 0, 1, false, false⟩, ⟨.whitespace, ['\r'], 1, 1, 1, 2, false, false⟩,
        ⟨.operator, ['+'], 1, 2, 2, 3, false, false⟩, ⟨.integer, ['1'], 1, 3, 3, 4, false, false⟩,
        ⟨.eof, [], 1, 4, 4, 4, false, false⟩] := by rfl
  have hus : tokenize "`b`".toList = .ok
      [⟨.identifier, "`b`".toList, 1, 0, 0, 3, false, false⟩, ⟨.eof, [], 1, 3, 3, 3, false, false⟩] := by
    rfl
  exact tokenize_break hts ⟨_, List.mem_cons_of_mem _ (List.mem_cons_self ..), .inr rfl⟩ hus

end Token

end SwiftMacros
