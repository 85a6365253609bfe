import Mathlib
import SwiftMacros.Proofs.Grammar.Declaration
import SwiftMacros.Proofs.Text.Lines
import SwiftMacros.Proofs.Token.Seam
import SwiftMacros.Setter.Method

/-! Setters are read as code. If the access modifier is made of plain names, a method is read as the
same lexemes whatever stands behind it, also where its lines have been indented. It has a carriage
return only if the source has one. -/

namespace SwiftMacros

open Token (Word Reads Legible LegibleIn IsName IsNameIn Relined Reindented)

namespace Token

/-- A text that is read as the same lexemes whatever stands behind it. -/
def Sealed (t : Text) : Prop := ∀ r, ∃ ls, Reads (t ++ r) ls r

/-- The lexemes that a text has by itself, and in front of any other text. -/
structure ReadsAs (t : Text) (ls : List Word) : Prop where
  words : words t = .ok ls
  before (r : Text) : Reads (t ++ r) ls r

/-- The lexemes of a sealed text are those that it has by itself. -/
theorem Sealed.readsAs {t : Text} (h : Sealed t) : ∃ ls, ReadsAs t ls := by
  have halone : ∀ {r : Text} {ls : List Word}, Reads (t ++ r) ls r → Reads t ls [] := by
    intro r ls hr
    have halone : Reads (t ++ []) ls [] := hr.append rfl (.inl (stops_nil.apart t)) (by simp)
    rwa [List.append_nil] at halone
  obtain ⟨ls, hls⟩ := h []
  refine ⟨ls, words_of_reads (halone hls), fun r => ?_⟩
  obtain ⟨ms, hms⟩ := h r
  rwa [(halone hls).unique (halone hms)]

/-- Whether a text is an identifier of ASCII characters. -/
def isAsciiName (t : Text) : Bool :=
  t.head?.any (fun c => c.isAlpha || c == '_') && t.all fun c => c.isAlphanum || c == '_'

theorem isWord_of_ascii {c : Char} (h : (c.isAlphanum || c == '_') = true) :
    Text.isWord c = true := by
  rw [Bool.or_eq_true, beq_iff_eq] at h
  rcases h with h | rfl
  · exact isWord_of_isAlphanum h
  · rfl

theorem not_decimal_of_alpha {c : Char} (h : (c.isAlpha || c == '_') = true) :
    Text.isDecimal c = false := by
  rw [Bool.or_eq_true, beq_iff_eq] at h
  rcases h with h | rfl
  · have hword : c.toNat < 128 ∧ c.isDigit = false := by
      simp only [Char.isAlpha, Char.isUpper, Char.isLower, Bool.or_eq_true, Bool.and_eq_true,
        decide_eq_true_eq, ge_iff_le, UInt32.le_iff_toNat_le] at h
      simp only [Char.isDigit, Char.toNat, Bool.and_eq_false_iff, decide_eq_false_iff_not, ge_iff_le,
        UInt32.le_iff_toNat_le]
      rcases h with ⟨h, h'⟩ | ⟨h, h'⟩
      · exact ⟨h'.trans_lt (by decide), .inr fun hle => absurd (h.trans hle) (by decide)⟩
      · exact ⟨h'.trans_lt (by decide), .inr fun hle => absurd (h.trans hle) (by decide)⟩
    simp [Text.isDecimal, hword]
  · rfl

/-- An identifier of ASCII characters is read as a name. -/
theorem isName_of_ascii {t : Text} (h : isAsciiName t = true) : IsName t := by
  obtain ⟨c, t, rfl⟩ : ∃ c u, t = c :: u := by
    cases t with
    | nil => cases h
    | cons c t => exact ⟨c, t, rfl⟩
  simp only [isAsciiName, List.head?_cons, Option.any_some, Bool.and_eq_true, List.all_cons] at h
  obtain ⟨hfirst, hc, ht⟩ := h
  have hdecimal := not_decimal_of_alpha hfirst
  have hword := isWord_of_ascii hc
  have hrun : runLength Text.isWord t = t.length := by
    rw [runLength, List.takeWhile_eq_self_iff.mpr fun d hd => isWord_of_ascii (List.all_eq_true.mp ht d hd)]
  have hne : ∀ d ∈ ['"', '#', '`', '/', '@', '$', '0', ' ', '\t', '\x0c', '\r', '\n'], c ≠ d := by
    rintro d hd rfl
    fin_cases hd <;> cases hfirst
  simp only [List.forall_mem_cons] at hne
  obtain ⟨hquote, hpound, hback, hslash, hat, hdollar, hzero, hspace, htab, hfeed, hreturn, hline, -⟩ := hne
  have hgap : isGap c = false := by simp [isGap, isSpaceChar, hspace, htab, hfeed, hreturn, hline]
  have hdigits : digitsLength? (c :: t) = none := by simp [digitsLength?, hdecimal]
  have hmarked : ∀ m p, markedLength? m p (c :: t) = none := fun m p => by
    simp [markedLength?_eq, hzero]
  have hlexeme : firstOf openClasses (c :: t) = some (.identifier, t.length + 1) := by
    simp [firstOf, openClasses, floatLength?, hexFloatLength?, decimalFloatLength?, integerLength?,
      hdigits, hmarked, sigilNameLength?, hpound, hat, dollarLength?, hdollar, nameLength?,
      Text.isNameStart, hword, hdecimal, hrun, Nat.add_comm]
  refine ⟨[], lexeme_of_simple ?_ ?_ ?_⟩
  · exact Quoting.opens?_eq_none hpound hquote _
  · simp [blockOpen, List.isPrefixOf, Ne.symm hslash]
  · rw [List.append_nil, simpleLexeme_eq hgap hback, hlexeme]
    · rfl
    · simp [lineComment, List.isPrefixOf, Ne.symm hslash]

theorem Legible.then_gap {t u : Text} {c : Char} (hc : isGap c = true) (h : Legible t)
    (hu : Legible u) : Legible (t ++ c :: u) := by
  refine h.then (hu.gap hc) (stops_cons ?_) ?_
  · exact isStop_of_isBlank (isBlank_of_isGap hc)
  · rintro ⟨rfl⟩
    cases hc

/-- A name starts with no point. -/
theorem IsName.head_ne {n : Text} (h : IsName n) : n.head? ≠ some '.' := by
  obtain ⟨r, hr⟩ := h
  intro hn
  obtain ⟨t, rfl⟩ := List.head?_eq_some_iff.mp hn
  by_cases hrange : ['.', '.'].isPrefixOf (t ++ r) ∨ ['.', '<'].isPrefixOf (t ++ r)
  · rw [List.cons_append, lexeme_range hrange] at hr
    cases hr
  · rw [List.cons_append, lexeme_point hrange] at hr
    cases hr

/-- A member of something, in front of a text that starts with white space. -/
theorem IsName.legible_member {n u : Text} (h : IsName n) (hu : Legible u) :
    Legible ('.' :: (n ++ ' ' :: u)) := by
  obtain ⟨ls, hls⟩ := Legible.then_gap (c := ' ') rfl h.legible hu
  have hpoint : ¬ (['.', '.'].isPrefixOf (n ++ ' ' :: u) ∨ ['.', '<'].isPrefixOf (n ++ ' ' :: u)) := by
    have hhead := h.head_ne
    cases n with
    | nil => simp [List.isPrefixOf]
    | cons c n =>
      have hc : ('.' == c) = false := beq_eq_false_iff_ne.mpr fun heq => hhead (by rw [heq]; rfl)
      simp [List.isPrefixOf, hc]
  exact ⟨_, (Reads.chunk (.lexeme (x := ['.']) (lexeme_point hpoint) rfl) (.done _)).trans hls⟩

/-- A setting of a member. -/
theorem IsName.legible_set {n u : Text} (h : IsName n) (hu : Legible u) {object : Text}
    (ho : ∀ t, lexeme (object ++ '.' :: t) = .ok (.identifier, object.length)) :
    Legible (object ++ '.' :: (n ++ ' ' :: u)) := by
  obtain ⟨ls, hls⟩ := h.legible_member hu
  exact ⟨_, (Reads.chunk (.lexeme (ho _) rfl) (.done _)).trans hls⟩

end Token

namespace Text

theorem joinLines_concat {ls : List Text} (h : ls ≠ []) (l : Text) :
    joinLines (ls ++ [l]) = joinLines ls ++ '\n' :: l := by
  induction ls with
  | nil => exact absurd rfl h
  | cons m ms ih =>
    cases ms with
    | nil => rw [List.cons_append, List.nil_append, joinLines_cons]; rfl
    | cons n ns =>
      rw [List.cons_append, List.cons_append, joinLines_cons, ← List.cons_append, ih (by simp),
        joinLines_cons]
      simp

end Text

namespace Setter

open Text (isIndent)

/-- An access modifier that can stand before a method: none, or plain names with spaces between. -/
def PlainAccess (access : Text) : Prop :=
  access = [] ∨ ∃ ws, ws ≠ [] ∧ (∀ w ∈ ws, Token.isAsciiName w = true) ∧ access = Text.join [' '] ws

structure Readable (s : Text) (f : Setter) : Prop where
  name : IsNameIn s f.name
  signature : LegibleIn s f.signature

variable {access indent s : Text} {f : Setter} {kind : Composite}

theorem legible_words {ws : List Text} (h : ∀ w ∈ ws, Token.isAsciiName w = true) :
    Legible (Text.join [' '] ws) := by
  induction ws with
  | nil => exact Legible.nil
  | cons w ws ih =>
    obtain ⟨hw, hws⟩ := List.forall_mem_cons.mp h
    have hname := Token.isName_of_ascii hw
    cases ws with
    | nil => exact hname.legible
    | cons v vs =>
      rw [Text.join, List.append_assoc]
      exact hname.legible.then (Legible.gap rfl (ih hws)) (Token.stops_cons (by decide)) (by simp)

theorem PlainAccess.legible (h : PlainAccess access) : Legible access := by
  obtain rfl | ⟨ws, -, hws, rfl⟩ := h
  · exact Legible.nil
  · exact legible_words hws

/-- What stands before the body of a method. -/
theorem legible_head (ha : PlainAccess access) (hf : f.Readable s) :
    Legible ((if access.isEmpty then [] else access ++ [' ']) ++ "func ".toList ++ f.name ++
      "(_ value: ".toList ++ f.signature ++ ") -> Self \x7b".toList) := by
  have hfunc : Legible "func".toList := (Token.isName_of_ascii (by decide)).legible
  have hvalue : Legible "_ value".toList :=
    Token.Legible.then_gap (t := "_".toList) rfl (Token.isName_of_ascii (by decide)).legible
      (Token.isName_of_ascii (t := "value".toList) (by decide)).legible
  have hself : Legible " -> Self \x7b".toList :=
    .of_words (w := [(.arrow, "->".toList), (.identifier, "Self".toList),
      (.symbol, ['\x7b'])]) (by decide) (by decide)
  have hlead : Legible ((if access.isEmpty then [] else access ++ [' ']) ++ "func".toList) := by
    cases access with
    | nil => exact hfunc
    | cons c t =>
      have := Token.Legible.then_gap (c := ' ') rfl ha.legible hfunc
      simpa using this
  have := Token.Legible.then_gap (c := ' ') rfl hlead <| hf.name.1.legible.then_symbol (c := '(') rfl <|
    hvalue.then_symbol (c := ':') rfl <| Legible.gap (c := ' ') rfl <|
      hf.signature.legible.then_symbol (c := ')') rfl hself
  simpa using this

theorem legible_body (hf : f.Readable s) : ∀ l ∈ body kind f.name, Legible l := by
  have hvalue : Legible "= value".toList :=
    .of_words (w := [(.operator, ['=']), (.identifier, "value".toList)])
      (by decide) (by decide)
  have hset : ∀ object : Text,
      (∀ t, Token.lexeme (object ++ '.' :: t) = .ok (.identifier, object.length)) →
        Legible (object ++ ".".toList ++ f.name ++ " = value".toList) := by
    intro object ho
    have := hf.name.1.legible_set hvalue ho
    simpa using this
  have hcopy : ∀ t, Token.lexeme ("copy".toList ++ '.' :: t) = .ok (.identifier, 4) := fun t => by rfl
  have hself : ∀ t, Token.lexeme ("self".toList ++ '.' :: t) = .ok (.identifier, 4) := fun t => by rfl
  cases kind with
  | value =>
    simp only [body, List.forall_mem_cons]
    refine ⟨.of_words (w := [(.identifier, "var".toList), (.identifier, "copy".toList),
      (.operator, ['=']), (.identifier, "self".toList)]) (by decide) (by decide), ?_,
      .of_words (w := [(.identifier, "return".toList), (.identifier, "copy".toList)])
        (by decide) (by decide), by simp⟩
    exact hset "copy".toList hcopy
  | reference =>
    simp only [body, List.forall_mem_cons]
    refine ⟨hset "self".toList hself, .of_words (w := [(.identifier, "return".toList),
      (.identifier, "self".toList)]) (by decide) (by decide), by simp⟩

theorem reads_lines {ls : List Text} (hne : ls ≠ []) (h : ∀ l ∈ ls, Legible l) (r : Text) :
    ∃ ws, Reads (Text.joinLines ls ++ '\n' :: r) ws r := by
  induction ls with
  | nil => exact absurd rfl hne
  | cons l ls ih =>
    obtain ⟨⟨ws, hws⟩, hls⟩ := List.forall_mem_cons.mp h
    cases ls with
    | nil => exact ⟨ws, hws.before_gap rfl r⟩
    | cons m ms =>
      obtain ⟨vs, hvs⟩ := ih (by simp) hls
      rw [Text.joinLines_cons, List.append_assoc, List.cons_append]
      exact ⟨_, (hws.before_gap rfl _).trans hvs⟩

/-- The lines of a block are indented one by one. -/
theorem indented_block {ls : List Text} (hne : ls ≠ []) (inner : Text) :
    Edit.indented inner (Text.joinLines (ls ++ ["\x7d".toList])) =
      Edit.indented inner (Text.joinLines ls) ++ '\n' :: (inner ++ ['\x7d']) := by
  have hlast : (Text.lines "\x7d".toList).map (fun line => if line.isEmpty then [] else inner ++ line) =
      [inner ++ ['\x7d']] := rfl
  rw [Text.joinLines_concat hne, Edit.indented, Text.lines_append, List.map_append, hlast,
    Text.joinLines_concat (by simpa using Text.lines_ne_nil _)]
  rfl

/-- An indented method is sealed. -/
theorem sealed_indented {inner : Text} (ha : PlainAccess access) (hf : f.Readable s)
    (hindent : ∀ c ∈ indent, isIndent c = true) (hinner : ∀ c ∈ inner, isIndent c = true) :
    Token.Sealed (Edit.indented inner (method kind access indent f)) := by
  have hgaps : ∀ {t : Text}, (∀ c ∈ t, isIndent c = true) → ∀ c ∈ t, Token.isGap c = true :=
    fun h c hc => Token.isGap_of_isIndent (h c hc)
  intro r
  rw [method, indented_block (by simp)]
  have hlegible : ∀ l ∈ ((if access.isEmpty then [] else access ++ [' ']) ++ "func ".toList ++ f.name ++
      "(_ value: ".toList ++ f.signature ++ ") -> Self \x7b".toList) ::
        (body kind f.name).map (indent ++ ·), Legible l := by
    rw [List.forall_mem_cons]
    refine ⟨legible_head ha hf, fun l hl => ?_⟩
    obtain ⟨l, hl', rfl⟩ := List.mem_map.mp hl
    obtain ⟨ws, hws⟩ := legible_body hf l hl'
    exact ⟨ws, (Reads.of_gaps (hgaps hindent) l).trans hws⟩
  obtain ⟨ws, hws⟩ := reads_lines (by simp) hlegible (inner ++ '\x7d' :: r)
  obtain ⟨ws', -, hws'⟩ := hws.reindented (Edit.indented_reindented hinner _)
  have hbrace := Token.reads_symbol (c := '\x7d') (by decide) r
  have := hws'.trans ((Reads.of_gaps (hgaps hinner) _).trans hbrace)
  exact ⟨_, by simpa using this⟩

theorem PlainAccess.not_mem (h : PlainAccess access) : '\r' ∉ access := by
  obtain rfl | ⟨ws, -, hws, rfl⟩ := h
  · exact List.not_mem_nil
  · refine Text.not_mem_join (by decide) fun w hw hmem => ?_
    have hword := hws w hw
    simp only [Token.isAsciiName, Bool.and_eq_true, List.all_eq_true] at hword
    have := hword.2 _ hmem
    cases this

/-- A method has no carriage return of its own. -/
theorem not_mem_method (ha : PlainAccess access) (hf : f.Readable s)
    (hindent : ∀ c ∈ indent, isIndent c = true) (hs : '\r' ∉ s) :
    '\r' ∉ method kind access indent f := by
  have hname := hf.name.2 hs
  have hsignature := hf.signature.flat hs
  have haccess := ha.not_mem
  have hunit : '\r' ∉ indent := fun hmem => by cases hindent _ hmem
  refine Text.not_mem_join (by decide) fun l hl => ?_
  rw [List.mem_append, List.mem_cons, List.mem_map, List.mem_singleton] at hl
  rcases hl with (rfl | ⟨l, hl, rfl⟩) | rfl
  · split <;> simp [hname, hsignature, haccess]
  · have hbody : '\r' ∉ l := by
      cases kind <;> simp only [body, List.mem_cons, List.not_mem_nil, or_false] at hl
      · rcases hl with rfl | rfl | rfl <;> simp [hname]
      · rcases hl with rfl | rfl <;> simp [hname]
    simp [hunit, hbody]
  · decide

end Setter

/-- The setters of a declaration whose members are readable are so too. -/
theorem Group.setters_readable {s : Text} {g : Group} {l : SetterList}
    (hg : ∀ m ∈ g.block.members, m.Readable s) (h : g.setters = .ok l) :
    ∀ f ∈ l.setters, f.Readable s := by
  unfold Group.setters at h
  cases hkind : g.composite with
  | error e => rw [hkind] at h; cases h
  | ok kind =>
    have hps : g.eligibleProperties =
        .ok ((g.block.members.flatMap Member.properties).filter Property.isEligible) := by
      rw [Group.eligibleProperties, Group.properties, hkind]
      rfl
    rw [hkind, hps] at h
    cases h
    intro f hf
    obtain ⟨p, hp, hsome⟩ := List.mem_filterMap.mp (List.mem_of_mem_filter hf)
    obtain ⟨m, hm, hpm⟩ := List.mem_flatMap.mp (List.mem_of_mem_filter hp)
    have hread := hg m hm p hpm
    obtain ⟨t, ht, rfl⟩ := Option.map_eq_some_iff.mp hsome
    refine ⟨hread.name, ?_⟩
    rw [Property.signature?, Option.or_eq_some_iff] at ht
    rcases ht with ht | ⟨-, ht⟩
    · obtain ⟨T, hT, rfl⟩ := Option.map_eq_some_iff.mp ht
      exact hread.type T hT
    · obtain ⟨e, he, rfl⟩ := Option.map_eq_some_iff.mp ht
      exact hread.initializer e he

end SwiftMacros
