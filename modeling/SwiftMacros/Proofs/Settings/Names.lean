import Mathlib
import SwiftMacros.Proofs.Cursor.Sound
import SwiftMacros.Expansion.Site
import SwiftMacros.Settings.Reading

/-! The names that settings give to the two macros, and whether a source can use them. Three parts have
their own idea of a name: the settings ask for an identifier, the lexer takes word characters behind a
sigil, and the registry keeps one macro for each name. They part where an identifier goes on with a mark
that is no word character, which no token can then read, and where both macros have one name, at which the
registry knows only the second. Everything else that is accepted is found wherever it stands. -/

namespace SwiftMacros

open Token (Word Kind)

section Characters

/-- Whether no range of `s` meets a range of `s'`. -/
def CharSet.isApart (s s' : CharSet) : Bool :=
  s.all fun r => s'.all fun r' => r.2 < r'.1 || r'.2 < r.1

theorem CharSet.not_contains_of_isApart {s s' : CharSet} {c : Char} (h : s.isApart s' = true)
    (hc : s.contains c = true) : s'.contains c = false := by
  obtain ⟨r, hr, hin⟩ := List.any_eq_true.mp hc
  rw [contains, List.any_eq_false]
  intro r' hr' hin'
  have hapart := List.all_eq_true.mp (List.all_eq_true.mp h r hr) r' hr'
  simp only [Bool.and_eq_true, Bool.or_eq_true, decide_eq_true_eq] at hin hin' hapart
  omega

namespace Text

variable {c : Char}

theorem isDecimal_of_isLetter (h : isLetter c = true) : isDecimal c = false := by
  by_cases hascii : c.toNat < 128
  · simp only [isLetter, isDecimal, hascii, if_true] at h ⊢
    simp only [Char.isAlpha, Char.isUpper, Char.isLower, Char.isDigit] at h ⊢
    grind
  · simp only [isLetter, isDecimal, hascii, if_false] at h ⊢
    exact CharSet.not_contains_of_isApart (by decide +kernel) h

/-- No decimal digit starts an identifier. -/
theorem isDecimal_of_isIdentifierStart (h : isIdentifierStart c = true) : isDecimal c = false := by
  simp only [isIdentifierStart, Bool.or_eq_true, Bool.and_eq_true, beq_iff_eq] at h
  rcases h with (rfl | ⟨hletter, -⟩) | hbeside
  · decide
  · exact isDecimal_of_isLetter hletter
  · have hascii : CharSet.contains [(0, 127)] c = false :=
      CharSet.not_contains_of_isApart (by decide) hbeside
    have hlarge : ¬ c.toNat < 128 := by
      simp only [CharSet.contains, List.any_cons, List.any_nil, Nat.zero_le, decide_true, Bool.true_and,
        Bool.or_false, decide_eq_false_iff_not] at hascii
      omega
    rw [isDecimal, if_neg hlarge]
    exact CharSet.not_contains_of_isApart (by decide +kernel) hbeside

theorem isNameStart_eq (h : isIdentifierStart c = true) : isNameStart c = isWord c := by
  rw [isNameStart, isDecimal_of_isIdentifierStart h, Bool.not_false, Bool.and_true]

/-- An identifier is not empty, and all its characters can continue one. -/
theorem exists_cons_of_isIdentifier {t : Text} (h : isIdentifier t = true) :
    ∃ c u, t = c :: u ∧ isIdentifierStart c = true ∧ ∀ d ∈ c :: u, isIdentifierPart d = true := by
  cases t with
  | nil => cases h
  | cons c u =>
    rw [isIdentifier, Bool.and_eq_true, List.all_eq_true] at h
    refine ⟨c, u, rfl, h.1, List.forall_mem_cons.mpr ⟨?_, h.2⟩⟩
    simp [isIdentifierPart, h.1]

end Text

end Characters

namespace Settings

variable {co : Coercions}

theorem isIdentifier_of_readName {v : Value} {name : Text} (h : readName co v = .ok name) :
    Text.isIdentifier name = true := by
  simp only [readName] at h
  cases ht : co.toText v with
  | error e => rw [ht] at h; cases h
  | ok given =>
    rw [ht] at h
    simp only [Bind.bind, Except.bind] at h
    split at h
    next hid => cases h; exact hid
    next => cases h

/-- A name that is read from a table, or left out of it, is an identifier. -/
theorem isIdentifier_of_read {es : Entries} {key : String} {default name : Text}
    (hdefault : Text.isIdentifier default = true) (h : es.read key default (single (readName co)) = .ok name) :
    Text.isIdentifier name = true := by
  rw [Entries.read] at h
  split at h
  next => cases h; exact hdefault
  next v _ =>
    cases hv : readName co v with
    | error e => rw [single, hv] at h; cases h
    | ok n =>
      rw [single, hv] at h
      cases h
      exact isIdentifier_of_readName hv

/-- Both names of settings that are accepted are identifiers. -/
theorem isIdentifier_of_ofEntries {es : Entries} {s : Settings} (h : ofEntries co es = .ok s) :
    Text.isIdentifier s.fluentSetter = true ∧ Text.isIdentifier s.weakSelf = true := by
  simp only [ofEntries] at h
  split at h
  next hf hw _ _ _ _ =>
    cases h
    exact ⟨isIdentifier_of_read (by decide) hf, isIdentifier_of_read (by decide) hw⟩
  next => cases h

/-- A table of two names is accepted if the names are. -/
theorem ofEntries_of_readName {u v : Value} {f w : Text} (hf : readName co u = .ok f)
    (hw : readName co v = .ok w) :
    ofEntries co [("fluent_setter_macro".toList, u), ("weak_self_macro".toList, v)] =
      .ok { fluentSetter := f, weakSelf := w } := by
  have hfluent : Entries.read [("fluent_setter_macro".toList, u), ("weak_self_macro".toList, v)]
      "fluent_setter_macro" (default : Settings).fluentSetter (single (readName co)) = .ok f := by
    change ((single (readName co) u).mapError _ : Except (List FieldError) Text) = _
    rw [single, hf]
    rfl
  have hweak : Entries.read [("fluent_setter_macro".toList, u), ("weak_self_macro".toList, v)]
      "weak_self_macro" (default : Settings).weakSelf (single (readName co)) = .ok w := by
    change ((single (readName co) v).mapError _ : Except (List FieldError) Text) = _
    rw [single, hw]
    rfl
  simp only [ofEntries, hfluent, hweak]
  rfl

end Settings

section Tokens

namespace Token

/-- The sigils, each with the kind of the names it stands before. -/
def sigils : List (Kind × Char) := [(.atName, '@'), (.poundName, '#')]

/-- The tokens of a text that is a single lexeme on one line. -/
def alone (k : Kind) (t : Text) : List Token :=
  [⟨k, t, 1, 0, 0, t.length, false, false⟩, ⟨.eof, [], 1, t.length, t.length, t.length, false, false⟩]

variable {k : Kind} {sigil c : Char} {x : Text}

/-- A sigil and a name behind it are read as far as the word characters go. -/
theorem lexeme_of_sigil (hk : (k, sigil) ∈ sigils) (hc : Text.isNameStart c = true) (t : Text) :
    lexeme (sigil :: c :: t) = .ok (k, 2 + runLength Text.isWord t) := by
  have hne : ∀ d, Text.isNameStart d = false → c ≠ d := by
    rintro d hd rfl
    simp [hc] at hd
  have hlength : sigilNameLength? sigil (sigil :: c :: t) = some (2 + runLength Text.isWord t) := by
    simp only [sigilNameLength?, nameLength?_eq, hc, if_true, Option.map_some, Option.some.injEq]
    omega
  simp only [sigils, List.mem_cons, Prod.mk.injEq, List.not_mem_nil, or_false] at hk
  have hopen : Quoting.opens? (sigil :: c :: t) = none := by
    rcases hk with ⟨-, rfl⟩ | ⟨-, rfl⟩
    · exact Quoting.opens?_eq_none (by decide) (by decide) _
    · rw [Quoting.opens?_pound, Quoting.opens?_eq_none (hne _ (by decide)) (hne _ (by decide)), Option.map_none]
  have hsimple : simpleLexeme? (sigil :: c :: t) = firstOf openClasses (sigil :: c :: t) := by
    rcases hk with ⟨-, rfl⟩ | ⟨-, rfl⟩ <;> exact simpleLexeme_eq (by decide) (by decide) rfl
  have hnumber : floatLength? (sigil :: c :: t) = none ∧ integerLength? (sigil :: c :: t) = none := by
    rcases hk with ⟨-, rfl⟩ | ⟨-, rfl⟩ <;> exact ⟨rfl, rfl⟩
  have hblock : blockOpen.isPrefixOf (sigil :: c :: t) = false := by
    rcases hk with ⟨-, rfl⟩ | ⟨-, rfl⟩ <;> rfl
  refine lexeme_of_simple hopen hblock (hsimple.trans ?_)
  simp only [firstOf, openClasses, List.findSome?_cons, hnumber, Option.map_none]
  rcases hk with ⟨rfl, rfl⟩ | ⟨rfl, rfl⟩
  · have hpound : sigilNameLength? '#' ('@' :: c :: t) = none := rfl
    rw [hpound, hlength, Option.map_none, Option.map_some]
  · rw [hlength, Option.map_some]

theorem foldl_advance_line (p : Place) (hx : '\n' ∉ x) :
    x.foldl Place.advance p = ⟨p.offset + x.length, p.line, p.lineStart⟩ := by
  induction x generalizing p with
  | nil => rfl
  | cons c x ih =>
    obtain ⟨hc, hx⟩ := not_or.mp (List.mem_cons.not.mp hx)
    rw [List.foldl_cons, ih _ hx, Place.advance, if_neg (Ne.symm hc), List.length_cons]
    simp only [Place.mk.injEq, and_true]
    omega

/-- A text is a single token if it is a single lexeme without a line end, and only then. -/
theorem tokenize_alone (hx : x ≠ []) (hline : '\n' ∉ x) :
    tokenize x = .ok (alone k x) ↔ lexeme x = .ok (k, x.length) := by
  constructor
  · intro h
    obtain ⟨c, y, rfl⟩ := List.exists_cons_of_ne_nil hx
    rw [tokenize, tokensFrom] at h
    split at h
    next => cases h
    next kind n hl =>
      cases hrest : tokensFrom (Place.advance {} c) (n - 1) y with
      | error e => rw [hrest] at h; cases h
      | ok ts =>
        rw [hrest] at h
        obtain ⟨htoken, -⟩ := List.cons.inj (Except.ok.inj h)
        obtain ⟨rfl, -, -, -, -, hstop, -⟩ := Token.mk.injEq .. ▸ htoken
        rw [hl, ← hstop]
        simp
  · intro h
    have hlexeme := tokensFrom_lexeme (u := []) hx (by rwa [List.append_nil]) {}
    rw [List.append_nil] at hlexeme
    rw [tokenize, hlexeme, foldl_advance_line {} hline]
    simp [tokensFrom, tokenAt, alone, Place.column, Except.map]

/-- A sigil and an identifier are a single token if all characters of the identifier are word characters,
and only then. -/
theorem tokenize_sigil (hk : (k, sigil) ∈ sigils) (hx : Text.isIdentifier x = true) :
    tokenize (sigil :: x) = .ok (alone k (sigil :: x)) ↔ ∀ c ∈ x, Text.isWord c = true := by
  obtain ⟨c, y, rfl, hstart, hpart⟩ := Text.exists_cons_of_isIdentifier hx
  have hline : '\n' ∉ sigil :: c :: y := by
    have hpart' : Text.isIdentifierPart '\n' = false := by decide +kernel
    have hparts : ∀ d ∈ c :: y, d ≠ '\n' := by
      rintro _ hd rfl
      rw [hpart _ hd] at hpart'
      cases hpart'
    have hsigil : sigil ≠ '\n' := by
      rintro rfl
      simp [sigils] at hk
    exact fun hmem => (List.mem_cons.mp hmem).elim (fun h => hsigil h.symm) fun h => hparts _ h rfl
  rw [tokenize_alone (by simp) hline]
  constructor
  · intro h
    obtain ⟨d, z, heq, hd, hz⟩ := lexeme_sigilName (r := []) hk (by rwa [List.append_nil])
    obtain ⟨-, rfl, rfl⟩ := List.cons.injEq .. ▸ heq
    exact List.forall_mem_cons.mpr ⟨(Bool.and_eq_true _ _ ▸ hd).1, hz⟩
  · intro h
    obtain ⟨hc, hy⟩ := List.forall_mem_cons.mp h
    have hrun : runLength Text.isWord y = y.length := by
      rw [runLength, List.takeWhile_eq_self_iff.mpr hy]
    rw [lexeme_of_sigil hk ((Text.isNameStart_eq hstart).trans hc), hrun, List.length_cons, List.length_cons,
      Nat.add_comm]

end Token

end Tokens

section Registry

namespace Registry

/-- A name that is registered stands for its macro from then on; no other name is touched. -/
theorem find?_register (r : Registry) (name n : Text) (m : Macro) :
    (r.register name m).find? n = if name = n then some m else r.find? n := by
  obtain ⟨es⟩ := r
  simp only [register, find?]
  induction es with
  | nil => by_cases h : name = n <;> simp [insertEntry, h]
  | cons e es ih =>
    obtain ⟨key, value⟩ := e
    rw [insertEntry]
    by_cases hkey : key = name
    · subst hkey
      by_cases h : key = n <;> simp [h]
    · rw [if_neg hkey]
      by_cases h : key = n
      · subst h
        simp [Ne.symm hkey]
      · simpa [h] using ih

/-- The member macro is found under its name unless the expression macro has the same. -/
theorem withRole?_member (s : Settings) (n : Text) : (ofSettings s).withRole? n .member =
    if s.fluentSetter = n ∧ s.weakSelf ≠ n then some (Macro.fluentSetter s.fluentSetter) else none := by
  simp only [withRole?, ofSettings, find?_register]
  by_cases hw : s.weakSelf = n <;> by_cases hf : s.fluentSetter = n <;>
    simp [hw, hf, find?, Macro.role, Macro.weakSelf, Macro.fluentSetter]

/-- The expression macro is found under its name. -/
theorem withRole?_expression (s : Settings) (n : Text) : (ofSettings s).withRole? n .expression =
    if s.weakSelf = n then some (Macro.weakSelf s.weakSelf) else none := by
  simp only [withRole?, ofSettings, find?_register]
  by_cases hw : s.weakSelf = n <;> by_cases hf : s.fluentSetter = n <;>
    simp [hw, hf, find?, Macro.role, Macro.weakSelf, Macro.fluentSetter]

end Registry

end Registry

section Sites

variable {code : Text} {c : Cursor} {sigil : Char} {role : Role} {r : Registry} {m : Macro} {name : Text}

/-- A token that names a macro is its sigil and a name of word characters. -/
theorem Cursor.text_of_sigil (hc : Cursor.ofText code = .ok c) {t : Token} (ht : t ∈ c.tokens)
    (hk : (t.kind, sigil) ∈ Token.sigils) :
    t.text = sigil :: t.text.drop 1 ∧ ∀ d ∈ t.text.drop 1, Text.isWord d = true := by
  obtain ⟨hs, -, -⟩ := Cursor.sound_ofText hc
  have hkinds : t.kind ≠ .operator ∧ t.kind ≠ .eof := by
    simp only [Token.sigils, List.mem_cons, Prod.mk.injEq, List.not_mem_nil, or_false] at hk
    rcases hk with ⟨hk, -⟩ | ⟨hk, -⟩ <;> simp [hk]
  have hmem : t ∈ c.inner := by
    rcases List.mem_append.mp ht with ht | ht
    · exact ht
    · exact absurd (List.mem_singleton.mp ht ▸ hs.eof_kind) hkinds.2
  obtain ⟨d, y, htext, hd, hy⟩ :=
    Token.lexeme_sigilName hk ((hs.arranged.placed t hmem).lexeme_text hkinds.1)
  rw [htext, List.drop_one, List.tail_cons]
  exact ⟨rfl, List.forall_mem_cons.mpr ⟨(Bool.and_eq_true _ _ ▸ hd).1, hy⟩⟩

/-- Where one name stands for a macro of a role, the sites of the role are the tokens of its kind that read
the sigil and the name. -/
theorem Site.all_of_name (hsigil : (tokenKind role, sigil) ∈ Token.sigils)
    (hr : ∀ n, r.withRole? n role = if name = n then some m else none) (hc : Cursor.ofText code = .ok c) :
    Site.all r role c.tokens =
      (c.tokens.filter fun t => t.word = (tokenKind role, sigil :: name)).map (⟨m, ·⟩) := by
  rw [← List.filterMap_eq_map, List.filterMap_filter, Site.all]
  refine List.filterMap_congr fun t ht => ?_
  by_cases hk : t.kind = tokenKind role
  · obtain ⟨htext, -⟩ := Cursor.text_of_sigil hc ht (hk ▸ hsigil)
    have hword : t.word = (tokenKind role, sigil :: name) ↔ name = t.text.drop 1 := by
      rw [Token.word, hk, htext]
      simp [eq_comm]
    rw [if_pos hk, hr]
    by_cases hname : name = t.text.drop 1
    · rw [if_pos hname, if_pos (decide_eq_true (hword.mpr hname))]
      rfl
    · rw [if_neg hname, if_neg (by simpa using hword.not.mpr hname)]
      rfl
  · have hword : t.word ≠ (tokenKind role, sigil :: name) := fun h => hk (congrArg Prod.fst h)
    simp [hk, hword]

/-- A role has no sites if the registry knows no name of word characters that has it. -/
theorem Site.all_eq_nil (hsigil : (tokenKind role, sigil) ∈ Token.sigils)
    (hr : ∀ n, (∀ d ∈ n, Text.isWord d = true) → r.withRole? n role = none) (hc : Cursor.ofText code = .ok c) :
    Site.all r role c.tokens = [] := by
  rw [Site.all, List.filterMap_eq_nil_iff]
  intro t ht
  rw [ite_eq_right_iff]
  intro hk
  rw [hr _ (Cursor.text_of_sigil hc ht (hk ▸ hsigil)).2, Option.map_none]

end Sites

/-- Whether the names that settings give to the macros can be used. For all settings that are accepted, each
name is a token behind its sigil if and only if it is made of word characters. The expression macro is found
under its name, and the member macro if the names are different, and only then. Where these conditions hold,
the sites of a macro in any text are exactly the tokens that read its name behind its sigil; where one of them
does not, no text has a site of the macro. -/
theorem Settings.names_found {co : Coercions} {es : Entries} {s : Settings} (h : ofEntries co es = .ok s) :
    (Token.tokenize ('@' :: s.fluentSetter) = .ok (Token.alone .atName ('@' :: s.fluentSetter)) ↔
      ∀ c ∈ s.fluentSetter, Text.isWord c = true) ∧
    (Token.tokenize ('#' :: s.weakSelf) = .ok (Token.alone .poundName ('#' :: s.weakSelf)) ↔
      ∀ c ∈ s.weakSelf, Text.isWord c = true) ∧
    ((Registry.ofSettings s).withRole? s.fluentSetter .member = some (Macro.fluentSetter s.fluentSetter) ↔
      s.fluentSetter ≠ s.weakSelf) ∧
    (Registry.ofSettings s).withRole? s.weakSelf .expression = some (Macro.weakSelf s.weakSelf) ∧
    ∀ code c, Cursor.ofText code = .ok c →
      Site.all (Registry.ofSettings s) .member c.tokens =
        (if s.fluentSetter ≠ s.weakSelf ∧ ∀ c ∈ s.fluentSetter, Text.isWord c = true then
          (c.tokens.filter fun t => t.word = (.atName, '@' :: s.fluentSetter)).map
            (⟨Macro.fluentSetter s.fluentSetter, ·⟩)
        else []) ∧
      Site.all (Registry.ofSettings s) .expression c.tokens =
        if ∀ c ∈ s.weakSelf, Text.isWord c = true then
          (c.tokens.filter fun t => t.word = (.poundName, '#' :: s.weakSelf)).map
            (⟨Macro.weakSelf s.weakSelf, ·⟩)
        else [] := by
  obtain ⟨hfluent, hweak⟩ := isIdentifier_of_ofEntries h
  have hat : (Site.tokenKind .member, '@') ∈ Token.sigils := by simp [Site.tokenKind, Token.sigils]
  have hpound : (Site.tokenKind .expression, '#') ∈ Token.sigils := by simp [Site.tokenKind, Token.sigils]
  refine ⟨Token.tokenize_sigil hat hfluent, Token.tokenize_sigil hpound hweak, ?_, ?_,
    fun code c hc => ⟨?_, ?_⟩⟩
  · rw [Registry.withRole?_member]
    simp [eq_comm]
  · rw [Registry.withRole?_expression, if_pos rfl]
  · split
    next hfound =>
      refine Site.all_of_name hat (fun n => ?_) hc
      rw [Registry.withRole?_member]
      exact if_congr ⟨And.left, fun hn => ⟨hn, fun hw => hfound.1 (hn.trans hw.symm)⟩⟩ rfl rfl
    next hlost =>
      refine Site.all_eq_nil hat (fun n hn => ?_) hc
      rw [Registry.withRole?_member, if_neg]
      rintro ⟨rfl, hne⟩
      exact hlost ⟨hne.symm, hn⟩
  · split
    next => exact Site.all_of_name hpound (Registry.withRole?_expression s) hc
    next hlost =>
      refine Site.all_eq_nil hpound (fun n hn => ?_) hc
      rw [Registry.withRole?_expression, if_neg]
      rintro rfl
      exact hlost hn

/-- Names with letters beyond ASCII, one of them given with white space and a sigil. -/
theorem Settings.names_found_accepted : ∃ s, ofEntries Value.lax [("fluent_setter_macro".toList, .text " @wähle".toList),
      ("weak_self_macro".toList, .text "слабо".toList)] = .ok s ∧
    Token.tokenize "@wähle".toList = .ok (Token.alone .atName "@wähle".toList) ∧
    (Registry.ofSettings s).withRole? "wähle".toList .member = some (Macro.fluentSetter "wähle".toList) ∧
    ∃ c, Cursor.ofText "@wähle #слабо".toList = .ok c ∧
      (Site.all (Registry.ofSettings s) .member c.tokens).map (·.token.start) = [0] ∧
      (Site.all (Registry.ofSettings s) .expression c.tokens).map (·.token.start) = [7] := by
  have hf : readName Value.lax (.text " @wähle".toList) = .ok "wähle".toList := by decide +kernel
  have hw : readName Value.lax (.text "слабо".toList) = .ok "слабо".toList := by decide +kernel
  have hs := ofEntries_of_readName hf hw
  obtain ⟨hat, -, hmember, -, hsites⟩ := names_found hs
  have hfluent : ∀ c ∈ "wähle".toList, Text.isWord c = true := List.all_eq_true.mp (by decide +kernel)
  have hweak : ∀ c ∈ "слабо".toList, Text.isWord c = true := List.all_eq_true.mp (by decide +kernel)
  have hne : "wähle".toList ≠ "слабо".toList := by decide
  have hts : Token.tokenize "@wähle #слабо".toList = .ok [⟨.atName, "@wähle".toList, 1, 0, 0, 6, false, false⟩,
      ⟨.whitespace, [' '], 1, 6, 6, 7, false, false⟩, ⟨.poundName, "#слабо".toList, 1, 7, 7, 13, false, false⟩,
      ⟨.eof, [], 1, 13, 13, 13, false, false⟩] := by
    decide +kernel
  obtain ⟨c, hc, htokens⟩ := Cursor.tokens_ofText hts
  obtain ⟨hmembers, hexpressions⟩ := hsites _ c hc
  refine ⟨_, hs, hat.mpr hfluent, hmember.mpr hne, c, hc, ?_, ?_⟩
  · rw [hmembers, if_pos ⟨hne, hfluent⟩, htokens]
    decide +kernel
  · rw [hexpressions, if_pos hweak, htokens]
    decide +kernel

/-- An identifier that is accepted and is no token behind a sigil, and a name that is given to both macros. -/
theorem Settings.names_missed :
    (∃ s, ofEntries Value.lax [("fluent_setter_macro".toList, .text "n\u0303".toList),
        ("weak_self_macro".toList, .text ['w'])] = .ok s ∧
      Token.tokenize ('@' :: s.fluentSetter) = .error ⟨.unexpectedCharacter '\u0303', 1, 2⟩) ∧
    ∃ s, ofEntries Value.lax [("fluent_setter_macro".toList, .text ['m']), ("weak_self_macro".toList, .text ['m'])] = .ok s ∧
      (Registry.ofSettings s).withRole? s.fluentSetter .member = none := by
  refine ⟨⟨_, ofEntries_of_readName (f := "n\u0303".toList) (w := ['w']) (by decide +kernel) (by decide +kernel), ?_⟩,
    ⟨_, ofEntries_of_readName (f := ['m']) (w := ['m']) (by decide +kernel) (by decide +kernel), rfl⟩⟩
  decide +kernel

end SwiftMacros
