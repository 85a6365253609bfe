import Mathlib
import SwiftMacros.Proofs.Cursor.Pieces
import SwiftMacros.Proofs.Token.Laid

/-! Where lexical errors point. A fault is met within a lexeme: at its start, at the start of a literal nested
in it, or at the end of the text. The error counts the lines before the lexeme and the columns from the line on
which the lexeme starts, so it points at the fault if no line ends between the two, and else nowhere. -/

namespace SwiftMacros

namespace Token

section Stack

/-- A step does not look below the innermost frame. -/
theorem Frame.step_below (top : Frame) (rest below : List Frame) (offset : Nat) (t : Text) :
    top.step (rest ++ below) offset t = (top.step rest offset t).map fun next => (next.1 ++ below, next.2) := by
  cases top with
  | literal start q =>
    simp only [step]
    split
    · rfl
    · split
      · rfl
      · split
        · split <;> rfl
        · rfl
  | interpolation depth =>
    simp only [step]
    split
    · rfl
    · split <;> rfl

/-- Offsets that are reached by a scan are behind where it starts. -/
theorem lt_of_scanLiteral {top : Frame} {rest : List Frame} {skip offset n : Nat} {t : Text}
    (h : scanLiteral (top :: rest) skip offset t = .ok n) : offset < n := by
  have := scanLiteral_needs h
  have := needs_cons_pos top rest
  omega

/-- A scan that is to start at `n` can be entered at any character before. -/
theorem scanLiteral_resume {n offset : Nat} (h : offset < n) (stack : List Frame) (c : Char) (t : Text) :
    scanLiteral stack (n - offset) offset (c :: t) = scanLiteral stack (n - (offset + 1)) (offset + 1) t := by
  obtain ⟨m, rfl⟩ := Nat.exists_eq_add_of_le h
  have hskip : offset + 1 + m - offset = m + 1 := by omega
  rw [Nat.succ_eq_add_one, hskip, Nat.add_sub_cancel_left]
  cases stack with
  | nil =>
    simp only [scanLiteral, Except.ok.injEq]
    omega
  | cons top rest => simp only [scanLiteral]

/-- What is open below waits for what is above to end. -/
theorem scanLiteral_below (stack below : List Frame) (skip offset : Nat) (t : Text) :
    scanLiteral (stack ++ below) skip offset t =
      (scanLiteral stack skip offset t).bind fun n => scanLiteral below (n - offset) offset t := by
  induction t generalizing stack skip offset with
  | nil =>
    match stack with
    | [] => simp [scanLiteral, Except.bind]
    | .literal _ _ :: _ | .interpolation _ :: _ => rfl
  | cons c t ih =>
    cases stack with
    | nil => simp [scanLiteral, Except.bind]
    | cons top rest =>
      cases skip with
      | succ skip =>
        have hrest := ih (top :: rest) skip (offset + 1)
        simp only [List.cons_append, scanLiteral] at hrest ⊢
        rw [hrest]
        cases hscan : scanLiteral (top :: rest) skip (offset + 1) t with
        | error f => rfl
        | ok n => exact (scanLiteral_resume (by have := lt_of_scanLiteral hscan; omega) below c t).symm
      | zero =>
        simp only [List.cons_append, scanLiteral, Frame.step_below top rest below]
        cases hstep : top.step rest offset (c :: t) with
        | error f => rfl
        | ok next =>
          obtain ⟨stack, k⟩ := next
          simp only [Except.map]
          rw [ih]
          cases hscan : scanLiteral stack (k - 1) (offset + 1) t with
          | error f => rfl
          | ok n =>
            have := scanLiteral_needs hscan
            exact (scanLiteral_resume (by omega) below c t).symm

/-- The frame when offsets are counted from a point `k` further in front. -/
def Frame.later (k : Nat) : Frame → Frame
  | .literal start q => .literal (start + k) q
  | .interpolation depth => .interpolation depth

def LexFault.later (k : Nat) (f : LexFault) : LexFault := ⟨f.fault, f.offset + k⟩

theorem Frame.step_later (k : Nat) (top : Frame) (rest : List Frame) (offset : Nat) (t : Text) :
    (top.later k).step (rest.map (later k)) (offset + k) t =
      ((top.step rest offset t).map fun next => (next.1.map (later k), next.2)).mapError (LexFault.later k) := by
  cases top with
  | literal start q =>
    simp only [later, step]
    split
    · rfl
    · split
      · rfl
      · split
        · split <;> rfl
        · rfl
  | interpolation depth =>
    simp only [later, step]
    split
    · rfl
    · split <;> rfl

/-- A scan does not depend on where offsets are counted from. -/
theorem scanLiteral_later (k : Nat) (stack : List Frame) (skip offset : Nat) (t : Text) :
    scanLiteral (stack.map (Frame.later k)) skip (offset + k) t =
      ((scanLiteral stack skip offset t).map (· + k)).mapError (LexFault.later k) := by
  induction t generalizing stack skip offset with
  | nil =>
    match stack with
    | [] =>
      simp only [List.map_nil, scanLiteral, Except.map, Except.mapError, Nat.add_right_comm]
    | .literal _ _ :: _ | .interpolation _ :: _ => rfl
  | cons c t ih =>
    cases stack with
    | nil => simp only [List.map_nil, scanLiteral, Except.map, Except.mapError, Nat.add_right_comm]
    | cons top rest =>
      have ih' := fun stack skip => ih stack skip (offset + 1)
      simp only [Nat.add_right_comm offset 1 k] at ih'
      cases skip with
      | succ skip =>
        have hrest := ih' (top :: rest) skip
        simpa only [List.map_cons, scanLiteral] using hrest
      | zero =>
        simp only [List.map_cons, scanLiteral, Frame.step_later]
        cases top.step rest offset (c :: t) with
        | error f => rfl
        | ok next => exact ih' next.1 (next.2 - 1)

end Stack

/-- A literal starts at the front of the text and does not end, not because of anything nested in it. -/
def Unterminated (t : Text) : Prop :=
  ∃ q, Quoting.opens? t = some q ∧ literalLength q t = .error ⟨.unterminatedString, 0⟩

theorem Frame.step_error {top : Frame} {rest : List Frame} {offset : Nat} {t : Text} {f : LexFault}
    (h : top.step rest offset t = .error f) : f.fault = .unterminatedString ∧ ∃ q, top = .literal f.offset q := by
  cases top with
  | literal start q =>
    simp only [step] at h
    split at h
    · cases h
    · split at h
      · cases h
        exact ⟨rfl, q, rfl⟩
      · split at h
        · split at h <;> cases h
        · cases h
  | interpolation depth =>
    simp only [step] at h
    split at h
    · cases h
    · split at h <;> cases h

/-- A step opens a literal that starts there, or none. -/
theorem Frame.step_opens {top : Frame} {rest stack : List Frame} {offset n : Nat} {t : Text}
    (h : top.step rest offset t = .ok (stack, n)) :
    (∃ q, Quoting.opens? t = some q ∧ stack = .literal offset q :: top :: rest ∧ n = q.opening.length) ∨
      ∀ start q, .literal start q ∈ stack → .literal start q ∈ top :: rest := by
  cases top with
  | literal start q =>
    refine .inr fun start' q' hmem => ?_
    simp only [step] at h
    split at h
    · cases h
      exact List.mem_cons_of_mem _ hmem
    · split at h
      · cases h
      · split at h
        · split at h
          · cases h
            simpa using hmem
          · cases h
            exact hmem
        · cases h
          exact hmem
  | interpolation depth =>
    simp only [step] at h
    split at h
    · rename_i q hq
      cases h
      exact .inl ⟨q, hq, rfl, rfl⟩
    · refine .inr fun start' q' hmem => ?_
      split at h <;> cases h <;> simpa using hmem

/-- A literal that fails by itself when it is opened within others does so when it stands alone. -/
theorem unterminated_of_scan {q : Quoting} {offset n : Nat} {c : Char} {t : Text} {f : LexFault}
    (hopen : Quoting.opens? (c :: t) = some q) (hn : n = q.opening.length)
    (h : scanLiteral [.literal offset q] (n - 1) (offset + 1) t = .error f) (hfault : f.fault = .unterminatedString)
    (hoffset : f.offset = offset) : Unterminated (c :: t) := by
  refine ⟨q, hopen, ?_⟩
  obtain ⟨m, hm⟩ : ∃ m, q.opening.length = m + 1 := Nat.exists_eq_succ_of_ne_zero (opening_length_pos q).ne'
  have hlater := scanLiteral_later offset [.literal 0 q] m 1 t
  rw [hn, hm, Nat.add_sub_cancel, Nat.add_comm offset] at h
  rw [List.map_singleton, Frame.later, Nat.zero_add, h] at hlater
  rw [literalLength, hm]
  simp only [scanLiteral]
  cases hscan : scanLiteral [.literal 0 q] m 1 t with
  | ok n =>
    rw [hscan] at hlater
    cases hlater
  | error f' =>
    rw [hscan] at hlater
    obtain rfl := Except.error.inj hlater
    obtain ⟨fault, k⟩ := f'
    simp only [LexFault.later] at hfault hoffset
    have hk : k = 0 := by omega
    rw [hfault, hk]

/-- A scan fails at a literal that was open before or is opened later, or at the end of the text. -/
theorem scanLiteral_error {stack : List Frame} {skip offset : Nat} {t : Text} {f : LexFault}
    (h : scanLiteral stack skip offset t = .error f) :
    f = ⟨.unterminatedInterpolation, offset + t.length⟩ ∨ (f.fault = .unterminatedString ∧
      ((∃ q, .literal f.offset q ∈ stack) ∨ ∃ k, f.offset = offset + k ∧ Unterminated (t.drop k))) := by
  induction t generalizing stack skip offset f with
  | nil =>
    cases stack with
    | nil => cases h
    | cons top rest =>
      cases top with
      | literal start q =>
        cases h
        exact .inr ⟨rfl, .inl ⟨q, List.mem_cons_self⟩⟩
      | interpolation depth =>
        cases h
        exact .inl rfl
  | cons c t ih =>
    -- a fault behind the first character
    have hlater : ∀ {stack' : List Frame} {skip' : Nat}, scanLiteral stack' skip' (offset + 1) t = .error f →
        f = ⟨.unterminatedInterpolation, offset + (c :: t).length⟩ ∨ (f.fault = .unterminatedString ∧
          ((∃ q, .literal f.offset q ∈ stack') ∨ ∃ k, f.offset = offset + k ∧ Unterminated ((c :: t).drop k))) := by
      intro stack' skip' hscan
      rcases ih hscan with rfl | ⟨hfault, ⟨q, hq⟩ | ⟨k, hk, hdrop⟩⟩
      · left
        rw [List.length_cons, Nat.add_right_comm, Nat.add_assoc]
      · exact .inr ⟨hfault, .inl ⟨q, hq⟩⟩
      · exact .inr ⟨hfault, .inr ⟨k + 1, by omega, hdrop⟩⟩
    cases stack with
    | nil => simp [scanLiteral] at h
    | cons top rest =>
      cases skip with
      | succ skip =>
        simp only [scanLiteral] at h
        exact hlater h
      | zero =>
        simp only [scanLiteral] at h
        cases hstep : top.step rest offset (c :: t) with
        | error f' =>
          rw [hstep] at h
          cases h
          obtain ⟨hfault, q, rfl⟩ := Frame.step_error hstep
          exact .inr ⟨hfault, .inl ⟨q, List.mem_cons_self⟩⟩
        | ok next =>
          obtain ⟨stack', n⟩ := next
          simp only [hstep] at h
          rcases Frame.step_opens hstep with ⟨q, hopen, rfl, hn⟩ | hsub
          · -- the fault is in the literal that is opened here, or behind its end
            have hbelow := scanLiteral_below [.literal offset q] (top :: rest) (n - 1) (offset + 1) t
            rw [List.singleton_append, h] at hbelow
            cases hscan : scanLiteral [.literal offset q] (n - 1) (offset + 1) t with
            | ok m =>
              rw [hscan] at hbelow
              exact hlater hbelow.symm
            | error f' =>
              rw [hscan] at hbelow
              obtain rfl := Except.error.inj hbelow
              rcases hlater hscan with hend | ⟨hfault, ⟨q', hq'⟩ | hk⟩
              · exact .inl hend
              · refine .inr ⟨hfault, .inr ?_⟩
                have hoffset : f.offset = offset := (Frame.literal.inj (List.mem_singleton.mp hq')).1
                exact ⟨0, hoffset, unterminated_of_scan hopen hn hscan hfault hoffset⟩
              · exact .inr ⟨hfault, .inr hk⟩
          · rcases hlater h with hend | ⟨hfault, ⟨q, hq⟩ | hk⟩
            · exact .inl hend
            · exact .inr ⟨hfault, .inl ⟨q, hsub _ q hq⟩⟩
            · exact .inr ⟨hfault, .inr hk⟩

theorem literalLength_error {q : Quoting} {t : Text} {f : LexFault} (hopen : Quoting.opens? t = some q)
    (h : literalLength q t = .error f) : f = ⟨.unterminatedInterpolation, t.length⟩ ∨
      (f.fault = .unterminatedString ∧ Unterminated (t.drop f.offset)) := by
  rcases scanLiteral_error h with rfl | ⟨hfault, ⟨q', hq'⟩ | ⟨k, hk, hdrop⟩⟩
  · exact .inl (by rw [Nat.zero_add])
  · obtain ⟨hzero, -⟩ := Frame.literal.inj (List.mem_singleton.mp hq')
    obtain ⟨fault, k⟩ := f
    simp only at hfault hzero
    subst hfault hzero
    exact .inr ⟨rfl, q, hopen, h⟩
  · rw [Nat.zero_add] at hk
    exact .inr ⟨hfault, hk ▸ hdrop⟩

/-- The three ways in which no lexeme is read. -/
theorem lexeme_error_cases {t : Text} {f : LexFault} (h : lexeme t = .error f) :
    (∃ q, Quoting.opens? t = some q ∧ literalLength q t = .error f) ∨
    (blockOpen.isPrefixOf t = true ∧ commentLength? t = none ∧ f = ⟨.unterminatedComment, 0⟩) ∨
    (Quoting.opens? t = none ∧ blockOpen.isPrefixOf t = false ∧ simpleLexeme? t = none ∧
      f = ⟨.unexpectedCharacter (t.head?.getD ' '), 0⟩) := by
  simp only [lexeme, show "/*".toList = blockOpen by decide] at h
  cases hopen : Quoting.opens? t with
  | some q =>
    cases hl : literalLength q t with
    | ok n =>
      simp only [hopen, hl, Except.map] at h
      cases h
    | error f' =>
      simp only [hopen, hl, Except.map] at h
      cases h
      exact .inl ⟨q, rfl, hl⟩
  | none =>
    cases hblock : blockOpen.isPrefixOf t with
    | true =>
      cases hc : commentLength? t with
      | some n => simp [hopen, hblock, hc] at h
      | none =>
        simp only [hopen, hblock, hc, if_true] at h
        cases h
        exact .inr (.inl ⟨rfl, rfl, rfl⟩)
    | false =>
      cases hs : simpleLexeme? t with
      | some l => simp [hopen, hblock, hs] at h
      | none =>
        simp only [hopen, hblock, hs, Bool.false_eq_true, if_false] at h
        cases h
        exact .inr (.inr ⟨rfl, rfl, rfl, rfl⟩)

/-- What is at the offset `o` of the source when the lexeme that starts at `a` has a fault there. -/
inductive FaultAt (s : Text) (a : Nat) : Nat → Fault → Prop
  /-- No lexeme starts with the character. -/
  | character (c : Char) : (s.drop a).head? = some c → Quoting.opens? (s.drop a) = none →
      blockOpen.isPrefixOf (s.drop a) = false → simpleLexeme? (s.drop a) = none → FaultAt s a a (.unexpectedCharacter c)
  | comment : blockOpen.isPrefixOf (s.drop a) = true → commentLength? (s.drop a) = none →
      FaultAt s a a .unterminatedComment
  | string {o : Nat} : a ≤ o → o < s.length → Unterminated (s.drop o) → FaultAt s a o .unterminatedString
  | interpolation : a ≤ s.length → FaultAt s a s.length .unterminatedInterpolation

theorem FaultAt.bounds {s : Text} {a o : Nat} {f : Fault} (h : FaultAt s a o f) (ha : a ≤ s.length) :
    a ≤ o ∧ o ≤ s.length := by
  cases h with
  | character | comment => exact ⟨le_rfl, ha⟩
  | string hao ho => exact ⟨hao, ho.le⟩
  | interpolation => exact ⟨ha, le_rfl⟩

/-- The fault of a lexeme is in it, and what is there is at fault. -/
theorem faultAt_of_lexeme {s : Text} {a : Nat} (ha : a < s.length) {f : LexFault}
    (h : lexeme (s.drop a) = .error f) : FaultAt s a (a + f.offset) f.fault := by
  rcases lexeme_error_cases h with ⟨q, hopen, hl⟩ | ⟨hblock, hc, rfl⟩ | ⟨hopen, hblock, hs, rfl⟩
  · rcases literalLength_error hopen hl with rfl | ⟨hfault, hat⟩
    · have hend : a + (s.drop a).length = s.length := by
        rw [List.length_drop]
        omega
      rw [hend]
      exact .interpolation ha.le
    · rw [List.drop_drop] at hat
      have hlt : a + f.offset < s.length := by
        by_contra hge
        obtain ⟨q', hq', -⟩ := hat
        rw [List.drop_eq_nil_iff.mpr (by omega)] at hq'
        cases hq'
      rw [hfault]
      exact .string (Nat.le_add_right _ _) hlt hat
  · exact .comment hblock hc
  · have hhead : (s.drop a).head? = some s[a] := by rw [List.head?_drop, List.getElem?_eq_getElem ha]
    rw [hhead]
    exact .character _ hhead hopen hblock hs

end Token

/-- The error gives the line and the column of the offset `o`. -/
structure SyntaxError.PointsAt (e : SyntaxError) (s : Text) (o : Nat) : Prop where
  line : e.line = 1 + (s.take o).count '\n'
  column : o = Text.lineStart s o + e.column

instance (e : SyntaxError) (s : Text) (o : Nat) : Decidable (e.PointsAt s o) :=
  decidable_of_iff (e.line = 1 + (s.take o).count '\n' ∧ o = Text.lineStart s o + e.column)
    ⟨fun h => ⟨h.1, h.2⟩, fun h => ⟨h.line, h.column⟩⟩

namespace Text

variable {s : Text} {a b : Nat}

/-- As many line ends are before two offsets as long as none is between them. -/
theorem count_eq_iff (hab : a ≤ b) : (s.take b).count '\n' = (s.take a).count '\n' ↔ '\n' ∉ slice s a b := by
  have hsplit := slice_append_slice (s := s) (Nat.zero_le a) hab
  have htake : ∀ n, slice s 0 n = s.take n := fun n => by rw [slice, List.drop_zero, Nat.sub_zero]
  rw [htake, htake] at hsplit
  rw [← hsplit, List.count_append, Nat.add_eq_left, List.count_eq_zero]

/-- Offsets with as many line ends before them are on one line. -/
theorem lineStart_eq_of_count (ha : a ≤ s.length) (hb : b ≤ s.length)
    (h : (s.take b).count '\n' = (s.take a).count '\n') : lineStart s b = lineStart s a := by
  rcases Nat.le_total a b with hab | hba
  · exact lineStart_eq hab hb ((count_eq_iff hab).mp h)
  · exact (lineStart_eq hba ha ((count_eq_iff hba).mp h.symm)).symm

end Text

namespace Token

/-- Where a lexical error points. The lexemes up to the offset `a` are read, and the next one has a fault at the
offset `o`: a character there starts no lexeme, a comment or a literal that does not end starts there, or an
interpolation is open at the end of the text. The error gives the line of `a`, and counts the column of `o` from
the start of that line. It points at `o` if no line ends between the two, and else at no offset of the text. -/
theorem tokenize_error {s : Text} {e : SyntaxError} (h : tokenize s = .error e) : ∃ a o,
    (∃ us p, Lexes {} s us p (s.drop a) ∧ p.offset = a) ∧ lexeme (s.drop a) = .error ⟨e.fault, o - a⟩ ∧
      FaultAt s a o e.fault ∧ a ≤ o ∧ o ≤ s.length ∧
      e.line = 1 + (s.take a).count '\n' ∧ e.column = o - Text.lineStart s a ∧
      (e.PointsAt s o ↔ '\n' ∉ Text.slice s a o) ∧ ∀ o' ≤ s.length, e.PointsAt s o' → o' = o := by
  obtain ⟨us, p, u, f, hlexes, hu, hf, rfl⟩ := (tokensFrom_lexes {} s).2 e h
  obtain ⟨hexact, rfl, -⟩ := hlexes.located (.start s) rfl
  have hlt : p.offset < s.length := by
    by_contra hge
    exact hu (List.drop_eq_nil_iff.mpr (by omega))
  have hfault := faultAt_of_lexeme hlt hf
  obtain ⟨hao, ho⟩ := hfault.bounds hlt.le
  have hstart := Text.lineStart_le s p.offset
  have hline : (p.error f).line = 1 + (s.take p.offset).count '\n' := hexact.line
  have hcolumn : (p.error f).column = p.offset + f.offset - Text.lineStart s p.offset := by
    rw [Place.error, hexact.lineStart]
  -- an offset that the error points at is on the line of the lexeme, and so is the fault
  have honly : ∀ o' ≤ s.length, (p.error f).PointsAt s o' → o' = p.offset + f.offset := by
    intro o' ho' hpoints
    have hcount : (s.take o').count '\n' = (s.take p.offset).count '\n' := by
      have := hpoints.line
      omega
    have hsame := Text.lineStart_eq_of_count hlt.le ho' hcount
    have := hpoints.column
    rw [hsame, hcolumn] at this
    omega
  refine ⟨p.offset, p.offset + f.offset, ⟨us, p, hlexes, rfl⟩, ?_, hfault, hao, ho, hline, hcolumn, ⟨fun hpoints => ?_, fun hnone => ?_⟩, honly⟩
  · rw [Nat.add_sub_cancel_left]
    exact hf
  · rw [← Text.count_eq_iff hao]
    have := hpoints.line
    omega
  · have hsame := Text.lineStart_eq hao ho hnone
    refine ⟨?_, ?_⟩
    · rw [hline, (Text.count_eq_iff hao).mpr hnone]
    · rw [hsame, hcolumn]
      omega

/-- A literal that does not end, in an interpolation of a literal of one line. -/
theorem tokenize_error_inline : ∃ a, tokenize "\"a\\(\"b".toList = .error ⟨.unterminatedString, 1, 4⟩ ∧
    FaultAt "\"a\\(\"b".toList a 4 .unterminatedString ∧
    SyntaxError.PointsAt ⟨.unterminatedString, 1, 4⟩ "\"a\\(\"b".toList 4 := by
  have he : tokenize "\"a\\(\"b".toList = .error ⟨.unterminatedString, 1, 4⟩ := by decide +kernel
  obtain ⟨a, o, -, -, hfault, -, -, -, -, hiff, honly⟩ := tokenize_error he
  have hpoints := hiff.mpr fun hmem => absurd (List.mem_of_mem_drop (List.mem_of_mem_take hmem)) (by decide)
  have ho : 4 = o := honly 4 (by decide) (by decide +kernel)
  exact ⟨a, he, ho ▸ hfault, ho ▸ hpoints⟩

/-- A literal that does not end, in an interpolation of a literal of two lines: it starts in column 2 of the second
line, and is reported in column 6 of the first, which has no such column. -/
theorem tokenize_error_nested : tokenize "\"\"\"\n\\(\"a".toList = .error ⟨.unterminatedString, 1, 6⟩ ∧
    ∀ o ≤ 8, ¬ SyntaxError.PointsAt ⟨.unterminatedString, 1, 6⟩ "\"\"\"\n\\(\"a".toList o := by
  constructor <;> decide +kernel

end Token

end SwiftMacros
