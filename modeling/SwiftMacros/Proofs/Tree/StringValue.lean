import Mathlib
import SwiftMacros.Proofs.Token.Coordinates
import SwiftMacros.Proofs.Token.Nested
import SwiftMacros.Tree.Expression

/-! The value of a string literal, against the way the literal is scanned. A token of a literal consists of
the delimiters that it was scanned with and a body between them, and it can be taken apart in no other way
that prefers three quotes to one. Its value is that body. -/

namespace SwiftMacros

open SwiftMacros.Token

/-- Line ends in front of a text that does not start with one. -/
theorem exists_leading_newlines (t : Text) : ∃ n, t = List.replicate n '\n' ++ t.dropWhile (· == '\n') ∧
    (t.dropWhile (· == '\n')).head? ≠ some '\n' := by
  have hall : ∀ c ∈ t.takeWhile (· == '\n'), c = '\n' := fun c hc => by
    simpa using List.mem_takeWhile_imp hc
  refine ⟨(t.takeWhile (· == '\n')).length, ?_, ?_⟩
  · rw [← List.eq_replicate_of_mem hall, List.takeWhile_append_dropWhile]
  · intro hhead
    have hnot := List.head?_dropWhile_not (· == '\n') t
    rw [hhead] at hnot
    cases hnot

/-- What is between the line ends next to the delimiters neither starts nor ends with a line end. -/
theorem trimLineEnds_spec (t : Text) : ∃ m n,
    t = List.replicate m '\n' ++ (trimLineEnds t ++ List.replicate n '\n') ∧
      (trimLineEnds t).head? ≠ some '\n' ∧ (trimLineEnds t).getLast? ≠ some '\n' := by
  obtain ⟨m, hfront, hhead⟩ := exists_leading_newlines t
  obtain ⟨n, hback, hlast⟩ := exists_leading_newlines (t.dropWhile (· == '\n')).reverse
  have hsplit : t.dropWhile (· == '\n') = trimLineEnds t ++ List.replicate n '\n' := by
    rw [trimLineEnds, Text.dropWhileEnd, ← List.reverse_replicate, ← List.reverse_append, ← hback,
      List.reverse_reverse]
  refine ⟨m, n, hsplit ▸ hfront, fun h => hhead ?_, ?_⟩
  · rw [hsplit, List.head?_append, h]
    rfl
  · rwa [trimLineEnds, Text.dropWhileEnd, List.getLast?_reverse]

theorem bodyBetween?_eq_some {opening body closing t : Text} :
    bodyBetween? opening closing t = some body ↔ t = opening ++ (body ++ closing) := by
  constructor
  · intro h
    simp only [bodyBetween?, Bool.and_eq_true, List.isPrefixOf_iff_prefix, List.isSuffixOf_iff_suffix,
      Option.ite_none_right_eq_some, Option.some.injEq] at h
    obtain ⟨⟨⟨u, rfl⟩, hsuffix⟩, hbody⟩ := h
    rw [List.drop_left] at hsuffix hbody
    obtain ⟨v, rfl⟩ := hsuffix
    rw [List.length_append, Nat.add_sub_cancel, List.take_left] at hbody
    rw [hbody]
  · rintro rfl
    simp [bodyBetween?, List.isPrefixOf_iff_prefix]

namespace Token

namespace Quoting

/-- A literal of one line that its own delimiter opens has no further quotes behind that. -/
theorem lone_of_opens? {q : Quoting} {t : Text} (h : opens? (q.opening ++ t) = some q) : q.Lone t := by
  obtain ⟨pounds, multiline⟩ := q
  induction pounds with
  | zero =>
    rintro rfl hp
    have hquote : opens? ('"' :: t) = some ⟨0, false⟩ := h
    rw [opens?_quote, List.isPrefixOf_iff_prefix.mpr hp] at hquote
    cases hquote
  | succ n ih =>
    rw [opening_succ, List.cons_append, opens?_pound] at h
    refine ih ?_
    cases ho : opens? (opening ⟨n, multiline⟩ ++ t) with
    | none =>
      rw [ho] at h
      cases h
    | some q =>
      rw [ho] at h
      obtain ⟨m, b⟩ := q
      cases h
      rfl

theorem poundCount_opening (q : Quoting) (t : Text) : poundCount (q.opening ++ t) = q.pounds := by
  have hquotes : (q.quotes ++ t).takeWhile (· == '#') = [] := by
    cases hm : q.multiline <;> simp [quotes, hm]
  rw [poundCount, runLength, opening, poundText, List.append_assoc, List.takeWhile_append_of_pos (by simp), hquotes]
  simp

theorem Lone.of_append {q : Quoting} {t u : Text} (h : q.Lone (t ++ u)) : q.Lone t :=
  fun hline hp => h hline (hp.trans (List.prefix_append t u))

end Quoting

/-- The text `t` is `body` between the delimiters `q`. Any delimiters and body that it consists of have as many
pounds; three quotes are among them only if `q` has three; and the body is another only if the quotes are. -/
structure Delimited (q : Quoting) (body t : Text) : Prop where
  text : t = q.opening ++ (body ++ q.closing)
  pounds {q' : Quoting} {body' : Text} : t = q'.opening ++ (body' ++ q'.closing) → q'.pounds = q.pounds
  quotes {q' : Quoting} {body' : Text} : t = q'.opening ++ (body' ++ q'.closing) → q'.multiline = true → q.multiline = true
  body {body' : Text} : t = q.opening ++ (body' ++ q.closing) → body' = body

section Delimiters

variable {q : Quoting} {body t : Text}

theorem delimited_of_lone (h : q.Lone (body ++ q.closing)) : Delimited q body (q.opening ++ (body ++ q.closing)) := by
  have hpounds : ∀ {q' : Quoting} {u : Text}, q.opening ++ (body ++ q.closing) = q'.opening ++ u →
      q'.pounds = q.pounds := by
    intro q' u heq
    rw [← q'.poundCount_opening, ← heq, q.poundCount_opening]
  refine ⟨rfl, hpounds, fun {q' body'} heq hm => ?_, fun heq => ?_⟩
  · -- three quotes where the literal is of one line are its opening quote and two more behind it
    by_contra hline
    rw [Bool.not_eq_true] at hline
    have hopening : q'.opening = q.opening ++ ['"', '"'] := by
      simp [Quoting.opening, Quoting.poundText, Quoting.quotes, hpounds heq, hm, hline]
    rw [hopening, List.append_assoc] at heq
    exact h hline ⟨_, (List.append_cancel_left heq).symm⟩
  · exact (List.append_cancel_right (List.append_cancel_left heq)).symm

/-- A string lexeme is a body between the delimiters that open it. -/
theorem lexeme_delimited {n : Nat} (h : lexeme t = .ok (.string, n)) : ∃ q body, Quoting.opens? t = some q ∧
    literalLength q t = .ok n ∧ Delimited q body (t.take n) := by
  obtain ⟨x, u, rfl, rfl, -⟩ := lexeme_split h
  rcases lexeme_cases h with ⟨q, hopen, -, hl⟩ | ⟨-, -, hc, -⟩ | ⟨-, -, hs⟩
  · have hbound := (literalLength_bounds hl).1
    obtain ⟨y, rfl⟩ := List.prefix_of_prefix_length_le (Quoting.opens?_prefix hopen) (List.prefix_append x u) (by omega)
    have hsuffix : q.closing <:+ q.opening ++ y := scanLiteral_suffix rfl
      (show scanLiteral [.literal 0 q] q.opening.length 0 (q.opening ++ y ++ u) = .ok (0 + (q.opening ++ y).length) by
        simpa [literalLength] using hl)
    rw [List.length_append] at hbound
    obtain ⟨body, rfl⟩ := List.suffix_of_suffix_length_le hsuffix (List.suffix_append q.opening y)
      (by rw [q.closing_length]; omega)
    rw [List.append_assoc] at hopen
    refine ⟨q, body, ?_, hl, ?_⟩
    · rw [List.append_assoc]
      exact hopen
    · rw [List.take_left]
      exact delimited_of_lone (Quoting.lone_of_opens? hopen).of_append
  · cases hc
  · exact absurd rfl (simpleLexeme_ne_string hs)

end Delimiters

namespace Delimited

variable {q : Quoting} {body t : Text}

theorem getLast?_ne (h : Delimited q body t) : t.getLast? ≠ some '\n' := by
  have hne : q.closing ≠ [] := List.ne_nil_of_length_pos (q.closing_length ▸ opening_length_pos q)
  rw [h.text, ← List.append_assoc, List.getLast?_append_of_ne_nil _ hne]
  intro hlast
  have hblank := delimiter_not_blank (q := q) (.inr (List.mem_of_getLast? hlast))
  cases hblank

/-- The pattern of the quotes that the literal was scanned with finds its body. -/
theorem quotedBody?_quotes (h : Delimited q body t) : quotedBody? q.quotes q.pounds t = some body := by
  rw [quotedBody?, h.text]
  exact congrArg (Option.or · _) (bodyBetween?_eq_some.mpr rfl)

/-- The pattern of three quotes finds a body only in literals of several lines. -/
theorem quotedBody?_three (h : Delimited q body t) :
    quotedBody? ['"', '"', '"'] q.pounds t = if q.multiline then some body else none := by
  cases hm : q.multiline with
  | true =>
    have hbody := h.quotedBody?_quotes
    rwa [Quoting.quotes, if_pos hm] at hbody
  | false =>
    have hnone : bodyBetween? (Quoting.opening ⟨q.pounds, true⟩) (Quoting.closing ⟨q.pounds, true⟩) t = none := by
      rw [Option.eq_none_iff_forall_ne_some]
      intro body' hbody
      have hmultiline := h.quotes (bodyBetween?_eq_some.mp hbody) rfl
      rw [hm] at hmultiline
      cases hmultiline
    rw [quotedBody?, if_neg h.getLast?_ne]
    exact congrArg (Option.or · none) hnone

theorem stringValue (h : Delimited q body t) : stringValue t = if q.multiline then trimLineEnds body else body := by
  have hpounds : (t.takeWhile (· == '#')).length = q.pounds := by
    rw [h.text]
    exact q.poundCount_opening _
  simp only [SwiftMacros.stringValue, hpounds, h.quotedBody?_three]
  cases hm : q.multiline with
  | true => rfl
  | false =>
    have hbody := h.quotedBody?_quotes
    rw [Quoting.quotes, hm, if_neg Bool.false_ne_true] at hbody
    simp [hbody]

end Delimited

/-- The value of each string token is what it has between the delimiters it was scanned with. The pattern that
takes it apart finds these delimiters, and no others: as many pounds, three quotes only if the scan found three,
and the same body. The value of a literal of one line between its delimiters is the token again; that of several
lines is the body without the line ends around it. -/
theorem tokenize_stringValue {s : Text} {ts : List Token} (h : tokenize s = .ok ts) :
    ∀ t ∈ ts, t.kind = .string → ∃ q body, Quoting.opens? (s.drop t.start) = some q ∧
      literalLength q (s.drop t.start) = .ok t.text.length ∧ Delimited q body t.text ∧
      (t.text.takeWhile (· == '#')).length = q.pounds ∧
      quotedBody? ['"', '"', '"'] q.pounds t.text = (if q.multiline then some body else none) ∧
      quotedBody? q.quotes q.pounds t.text = some body ∧
      (q.multiline = false → stringValue t.text = body ∧ q.opening ++ (stringValue t.text ++ q.closing) = t.text) ∧
      (q.multiline = true → ∃ m n,
        body = List.replicate m '\n' ++ (stringValue t.text ++ List.replicate n '\n') ∧
        (stringValue t.text).head? ≠ some '\n' ∧ (stringValue t.text).getLast? ≠ some '\n') := by
  obtain ⟨us, e, rfl, hlast, -, -, hlexemes, hlocated, -⟩ := tokenize_lossless h
  intro t ht hk
  have hmem : t ∈ us := by
    rcases List.mem_append.mp ht with hu | he
    · exact hu
    · rw [List.mem_singleton.mp he, hlast.1] at hk
      cases hk
  have hlexeme := (hlexemes t hmem).2
  rw [hk] at hlexeme
  obtain ⟨q, body, hopen, hlength, hdelimited⟩ := lexeme_delimited hlexeme
  have htext : t.text = (s.drop t.start).take (t.stop - t.start) := (hlocated t ht).text
  rw [← htext] at hdelimited
  refine ⟨q, body, hopen, ?_, hdelimited, ?_, hdelimited.quotedBody?_three, hdelimited.quotedBody?_quotes, ?_, ?_⟩
  · rw [hlength, htext, List.length_take_of_le (literalLength_bounds hlength).2]
  · rw [hdelimited.text]
    exact q.poundCount_opening _
  · intro hm
    have hvalue := hdelimited.stringValue
    rw [hm, if_neg Bool.false_ne_true] at hvalue
    exact ⟨hvalue, by rw [hvalue, ← hdelimited.text]⟩
  · intro hm
    rw [hdelimited.stringValue, if_pos hm]
    exact trimLineEnds_spec body

/-- The body of a raw literal that starts and ends with a quote. -/
theorem tokenize_stringValue_raw : ∃ t q body, tokenize "#\"\"a\"\"#".toList =
      .ok [t, ⟨.eof, [], 1, 7, 7, 7, false, false⟩] ∧ t.kind = .string ∧ Delimited q body t.text ∧
      q.multiline = false ∧ stringValue t.text = body ∧ body = "\"a\"".toList := by
  have hts : tokenize "#\"\"a\"\"#".toList = .ok [⟨.string, "#\"\"a\"\"#".toList, 1, 0, 0, 7, false, false⟩,
      ⟨.eof, [], 1, 7, 7, 7, false, false⟩] := by
    decide +kernel
  obtain ⟨q, body, hopen, -, hdelimited, -, -, -, hline, -⟩ := tokenize_stringValue hts _ (List.mem_cons_self ..) rfl
  have hq : q = ⟨1, false⟩ := by
    have hraw : Quoting.opens? "#\"\"a\"\"#".toList = some ⟨1, false⟩ := by decide
    exact Option.some.inj (hopen.symm.trans hraw)
  have hvalue := (hline (congrArg Quoting.multiline hq)).1
  exact ⟨_, q, body, hts, rfl, hdelimited, congrArg Quoting.multiline hq, hvalue, hvalue.symm.trans (by decide)⟩

end Token

end SwiftMacros
