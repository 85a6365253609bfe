import Mathlib
import SwiftMacros.Proofs.Expansion.Lexical
import SwiftMacros.Proofs.Expansion.Siteless

/-! Expansion reaches a fixed point. In the last pass every site is taken, and what a site does to the
tokens takes its own token out; what is put in place of it holds no token of a site but those that
stood in it, and these are sites that are taken as well and so stand elsewhere. -/

namespace SwiftMacros

open Token (Word Reads Change Relined mark respell)

/-- Whether a registry has a macro for a lexeme. -/
def Registry.recognizes (r : Registry) (w : Word) : Bool :=
  w.1 == .atName && (r.withRole? (w.2.drop 1) .member).isSome ||
    w.1 == .poundName && (r.withRole? (w.2.drop 1) .expression).isSome

namespace Token

/-- The kinds of the tokens that name macros. -/
def Kind.isSigil (k : Kind) : Bool := k == .atName || k == .poundName

/-- Behind its sigil, the name of a macro is made of word characters. -/
theorem newline_not_mem_sigil {x r : Text} {k : Kind} (h : lexeme (x ++ r) = .ok (k, x.length))
    (hk : k.isSigil = true) : '\n' ∉ x := by
  obtain ⟨sigil, hmem, hline⟩ : ∃ sigil, (k, sigil) ∈ [(Kind.atName, '@'), (.poundName, '#')] ∧
      sigil ≠ '\n' := by
    simp only [Kind.isSigil, Bool.or_eq_true, beq_iff_eq] at hk
    rcases hk with rfl | rfl
    · exact ⟨'@', by simp, by decide⟩
    · exact ⟨'#', by simp, by decide⟩
  obtain ⟨c, y, rfl, hc, hy⟩ := lexeme_sigilName hmem h
  simp only [List.mem_cons, not_or]
  refine ⟨hline.symm, ?_, fun hmem => ?_⟩
  · rintro rfl
    cases hc
  · have := hy _ hmem
    cases this

/-- The significant lexemes of a text are those of its tokens. -/
theorem tokenize_of_words {t : Text} {ls : List Word} (h : words t = .ok ls) :
    ∃ ts, tokenize t = .ok ts ∧ ls = ((significant ts).filter (·.kind != .eof)).map word := by
  cases hts : tokenize t with
  | error e =>
    rw [words, hts] at h
    cases h
  | ok ts =>
    rw [words, hts] at h
    cases h
    exact ⟨ts, rfl, rfl⟩

/-- A name of a macro stands on one line. -/
theorem Reads.sigil_line {t r : Text} {ls : List Word} (h : Reads t ls r) :
    ∀ w ∈ ls, w.1.isSigil = true → '\n' ∉ w.2 := by
  induction h with
  | done => simp
  | @chunk x u r a ls hc _ ih =>
    intro w hw
    rcases List.mem_append.mp hw with hw | hw
    · cases hc with
      | gap => cases hw
      | lineComment => cases hw
      | blockComment => cases hw
      | @lexeme k x _ hl hk =>
        obtain rfl := List.mem_singleton.mp hw
        exact fun hsigil => newline_not_mem_sigil hl hsigil
    · exact ih w hw

/-- Lexemes that are moved sideways keep the names of macros. -/
theorem mem_of_relined {ls ms : List Word} (h : ls.Forall₂ Word.Relined ms)
    (hline : ∀ w ∈ ls, w.1.isSigil = true → '\n' ∉ w.2) {w : Word} (hw : w ∈ ms)
    (hk : w.1.isSigil = true) : w ∈ ls := by
  induction h with
  | nil => cases hw
  | @cons a b ls ms hab _ ih =>
    rcases List.mem_cons.mp hw with rfl | hw
    · have hb : w = a := Prod.ext hab.1.symm (hab.2.eq_of_line (hline a (by simp) (hab.1 ▸ hk)))
      simp [hb]
    · exact List.mem_cons_of_mem _ (ih (fun w hw => hline w (by simp [hw])) hw)

end Token

section Registry

variable {r : Registry} {ts : List Token} {t : Token} {w : Word}

theorem Registry.recognizes_iff : r.recognizes w = true ↔
    ∃ role m, w.1 = Site.tokenKind role ∧ r.withRole? (w.2.drop 1) role = some m := by
  simp only [recognizes, Bool.or_eq_true, Bool.and_eq_true, beq_iff_eq, Option.isSome_iff_exists]
  constructor
  · rintro (⟨hk, m, hm⟩ | ⟨hk, m, hm⟩)
    · exact ⟨.member, m, hk, hm⟩
    · exact ⟨.expression, m, hk, hm⟩
  · rintro ⟨_ | _, m, hk, hm⟩
    · exact .inl ⟨hk, m, hm⟩
    · exact .inr ⟨hk, m, hm⟩

theorem Registry.isSigil_of_recognizes (h : r.recognizes w = true) : w.1.isSigil = true := by
  obtain ⟨role, m, hk, -⟩ := recognizes_iff.mp h
  rw [hk]
  cases role <;> rfl

/-- A token that is recognized stands at a site. -/
theorem Site.exists_of_recognizes (ht : t ∈ ts) (h : r.recognizes t.word = true) :
    ∃ role, ∃ x ∈ Site.all r role ts, x.token = t := by
  obtain ⟨role, m, hk, hm⟩ := Registry.recognizes_iff.mp h
  have hk : t.kind = tokenKind role := hk
  have hm : r.withRole? (t.text.drop 1) role = some m := hm
  exact ⟨role, ⟨m, t⟩, List.mem_filterMap.mpr ⟨t, ht, by rw [if_pos hk, hm]; rfl⟩, rfl⟩

/-- The token of a site is recognized. -/
theorem Site.recognizes_of_mem_all {role : Role} {x : Site} (h : x ∈ Site.all r role ts) :
    x.token ∈ ts ∧ x.token.kind = tokenKind role ∧ r.recognizes x.token.word = true := by
  obtain ⟨t, ht, hx⟩ := List.mem_filterMap.mp h
  split at hx
  next hk =>
    obtain ⟨m, hm, rfl⟩ := Option.map_eq_some_iff.mp hx
    exact ⟨ht, hk, Registry.recognizes_iff.mpr ⟨role, m, hk, hm⟩⟩
  next => cases hx

/-- Whether a text has a site is told by its lexemes. -/
theorem siteless_iff {t : Text} {ls : List Word} (h : Token.words t = .ok ls) :
    Siteless r t ↔ ∀ w ∈ ls, r.recognizes w = false := by
  obtain ⟨ts, hts, rfl⟩ := Token.tokenize_of_words h
  have hsiteless : Siteless r t ↔ ∀ role, Site.all r role (Token.significant ts) = [] := by
    simp only [Siteless, hts, Except.ok.injEq, exists_eq_left', Token.significant,
      Site.all_significantFrom]
  rw [hsiteless]
  constructor
  · intro hnone w hw
    obtain ⟨u, hu, rfl⟩ := List.mem_map.mp hw
    by_contra hrec
    obtain ⟨role, x, hx, -⟩ := Site.exists_of_recognizes (List.mem_of_mem_filter hu)
      (Bool.not_eq_false _ ▸ hrec)
    rw [hnone role] at hx
    cases hx
  · intro hnone role
    rw [List.eq_nil_iff_forall_not_mem]
    intro x hx
    obtain ⟨hmem, hk, hrec⟩ := Site.recognizes_of_mem_all hx
    have hne : x.token.kind ≠ .eof := by
      rw [hk]
      cases role <;> decide
    have := hnone _ (List.mem_map_of_mem (List.mem_filter.mpr ⟨hmem, by simpa using hne⟩))
    rw [hrec] at this
    cases this

end Registry

section Replacements

open Signature.Words (commas inBrackets opened_append opened_eq)

variable {ctx : Context} {c c' : Cursor} {k : Closure} {w : Word} {ls : List Word}

/-- The names of macros in a signature that captures `self` as well are those of the signature. -/
theorem Signature.Words.mem_of_weakened {v : Signature.Words} (hw : w ∈ v.weakened.all)
    (hk : w.1.isSigil = true) : w ∈ v.all := by
  have hmark : ∀ c, w ≠ mark c := by
    rintro c rfl
    cases hk
  have hword : ∀ t : Text, w ≠ (.identifier, t) := by
    rintro t rfl
    cases hk
  -- among the captures, commas apart, only those of the signature can name a macro
  have hitems : w ∈ inBrackets (v.items ++ [[(.identifier, "weak".toList), (.identifier, "self".toList)]])
      false → w ∈ commas v.items := by
    rw [inBrackets, ← opened_append, opened_eq]
    split <;> simp [hmark, hword]
  have hcaptures : w ∈ commas v.items →
      w ∈ (v.captures.map fun q => inBrackets q.1 q.2).getD [] := by
    unfold items
    cases v.captures with
    | none => simp [commas]
    | some p => simpa [inBrackets] using fun h => .inr (.inl h)
  simp only [all, weakened, Option.map_some, Option.getD_some, List.mem_append] at hw ⊢
  rcases hw with ((((hw | hw) | hw) | hw) | hw) | hw
  · simp [hw]
  · exact .inl (.inl (.inl (.inl (.inr (hcaptures (hitems hw))))))
  · simp [hw]
  · simp [hw]
  · simp [hw]
  · exact .inr hw

/-- The names of macros in a replacement stand in the closure that it is made of. -/
theorem WeakSelf.mem_of_replacement {code : Text} {start : Nat} (h : ReadsClosure c k c')
    (hs : c.Sound) (hsource : c'.source = c.source) (hctx : ∀ d ∈ ctx.unit, Text.isIndent d = true)
    (hls : Token.ReadsAs (replacement ctx code start k) ls) (hw : w ∈ ls)
    (hk : w.1.isSigil = true) : ∃ ms, Reads k.text ms [] ∧ w ∈ ms := by
  have hunit : ∀ d ∈ (ctx.withIndent (unitFor (Text.lineIndent code start) ctx.indent)).indent,
      Text.isIndent d = true :=
    Context.isIndent_indent (isIndent_unitFor (Context.isIndent_indent hctx))
  have hmoved : Relined _ (replacement ctx code start k) :=
    Edit.indentContinuation_relined Text.isIndent_leadingIndent _
  obtain ⟨v, body, lss, hv, hnone, -, hread, hss, hflat⟩ := h.reads hs hsource
  refine ⟨_, hread, ?_⟩
  obtain ⟨ms, hms, hread'⟩ := weakenClosure_relined hunit hv hnone hss []
  obtain ⟨ns, hns, hread''⟩ := hread'.relined rfl hmoved
  rw [(hls.before []).unique hread''] at hw
  have hw := Token.mem_of_relined hns hread'.sigil_line hw hk
  have hmark : ∀ c, w ≠ mark c := by
    rintro c rfl
    cases hk
  have hguard : w ∉ guardWords := fun hmem => by
    have hall : ∀ v ∈ guardWords, v.1.isSigil = false := by decide
    rw [hall w hmem] at hk
    cases hk
  simp only [List.cons_append, List.append_assoc, List.mem_cons, List.mem_append, hmark,
    hguard, List.not_mem_nil, false_or, or_false] at hw ⊢
  rcases hw with hw | hw
  · have hsignature := Signature.Words.mem_of_weakened hw hk
    cases hsig : k.signature with
    | none =>
      rw [hnone hsig] at hsignature
      have hin := List.mem_singleton.mp hsignature
      rw [hin] at hk
      cases hk
    | some s => exact .inl (by simpa using hsignature)
  · right
    have hbody : w ∈ lss.flatten := Token.mem_of_relined hms (fun w hw => by
      rw [hflat] at hw
      refine hread.sigil_line w ?_
      simp [Token.mem_of_mem_dropSemicolons hw]) hw hk
    rw [hflat] at hbody
    exact Token.mem_of_mem_dropSemicolons hbody

/-- The names of macros in what an expression gives way to are those of tokens behind its sigil. -/
theorem Site.Expresses.token_of_replacement {x : Site} {c c₁ : Cursor} {e : MacroExpansion}
    {f : Closure} (hlaid : Token.Laid c.source 0 c.inner) (hc : c.Rereads c₁)
    (h : x.Expresses c₁ e) (hf : e.trailing = some f)
    (hctx : ∀ d ∈ ctx.unit, Text.isIndent d = true)
    (hls : Token.ReadsAs (WeakSelf.replacement ctx c.source e.start f) ls) (hw : w ∈ ls)
    (hk : w.1.isSigil = true) : ∃ t ∈ c.inner, t.word = w ∧ e.start < t.start ∧ t.start < e.stop := by
  obtain ⟨c₂, c₃, hread, -, hleads, he⟩ := h.reads hc.sound
  obtain ⟨c₄, hl₄, hclosure⟩ := he.trailing f hf
  have hsource₃ : c₃.source = c.source := hleads.source.trans (hread.source.trans hc.source)
  have hsource₄ : c₃.source = c₄.source :=
    hleads.source.trans ((hread.sound.advance 1).trans hl₄).source.symm
  obtain ⟨ms, hms, hw⟩ := WeakSelf.mem_of_replacement hclosure hl₄.sound hsource₄ hctx hls hw hk
  obtain ⟨-, -, -, -, -, hstop, -⟩ := hclosure.reads hl₄.sound hsource₄
  rw [hsource₃] at hstop
  have hbrace := hl₄.sound.kind_of_reads (m := '\x7b') rfl hclosure.opening
  have hstart := ((hl₄.sound.placed_peek (by simp [hbrace])).whole (by simp [hbrace])).1
  rw [← hsource₄, hsource₃] at hstart
  -- the closure is read as the tokens between its ends
  obtain ⟨us, vs, hinner, -, hvs, -⟩ := hlaid.split (cut_zero _) hstart (Nat.zero_le _)
  obtain ⟨us', vs', rfl, hread', -, hwithin, -⟩ := hvs.split hstart hstop hclosure.lt.le
  have htext : f.text = Text.slice c.source c₄.peek.start c₃.edge := by
    rw [hclosure.text, Cursor.upTo, hsource₃]
  rw [htext] at hms
  rw [hms.unique (reads_slice hclosure.lt.le hread')] at hw
  obtain ⟨t, ht, rfl⟩ := List.mem_map.mp hw
  obtain ⟨hlo, hhi⟩ := hwithin t ht
  have hedge := hleads.sound.edge_le_length
  rw [hleads.source] at hedge
  have hbehind := hread.sound.peek_lt (hread.sound.peek_ne_eof (he.lt.trans_le hedge)) hl₄
  have hahead := hl₄.sound.edge_le_peek
  refine ⟨t, by simp [hinner, ht], rfl, ?_, ?_⟩
  · rw [he.start]
    omega
  · rw [he.stop]
    exact hhi

end Replacements

section Insertions

variable {s : Settings} {m : Made} {lss : List (List Word)}

/-- The members of a declaration are inserted by an edit that has their lexemes. -/
theorem Made.exists_insertion {code : Text}
    (h : (m.methods s code).Forall₂ Token.ReadsAs lss) (hne : lss ≠ []) :
    ∃ e ∈ m.edits s code, Token.words e.text = .ok lss.flatten := by
  obtain ⟨u, hu, hread⟩ : ∃ u, (m.insertion s code).text = '\n' :: u ∧
      ∀ r, Reads (u ++ r) lss.flatten r :=
    Edit.insertion_text Text.isIndent_leadingIndent (h.imp fun _ _ h => h.before)
  have hmethods : (m.methods s code).isEmpty = false := by
    rw [List.isEmpty_eq_false_iff]
    exact fun hnil => hne (List.forall₂_nil_left_iff.mp (hnil ▸ h))
  refine ⟨m.insertion s code, by simp [edits_eq, hmethods], ?_⟩
  rw [hu, Token.words_eq_ok_iff]
  exact ⟨[], .chunk (x := ['\n']) (a := []) (.gap rfl) (by simpa using hread []), .inl rfl⟩

/-- Where a declaration is read that starts with an attribute, a member macro stands. -/
theorem Site.Declares.role {r : Registry} {role : Role} {x : Site} {c c₁ : Cursor} {g : Group}
    {a : Attribute} (hs : c.Sound) (hx : x ∈ Site.all r role c.tokens) (hc : c.Rereads c₁)
    (h : x.Declares c₁ g) (ha : a ∈ g.attributes.head?) : x.called.role = .member := by
  obtain ⟨hkind, hplaced⟩ := Site.placed_of_mem_all hs hx
  obtain ⟨c₂, c₃, hread, hpeek, -, hg⟩ := h.spans hc.sound
  have hat := (hg.first a ha).1
  have hlexeme := ((hread.sound.placed_peek (by simp [hat])).whole (by simp [hat])).2
  have hlexeme' := (hplaced.whole (by rw [hkind]; cases role <;> decide)).2
  rw [hat, hpeek, hread.source, hc.source, hlexeme', hkind] at hlexeme
  rw [Site.role_of_mem_all hx]
  cases role with
  | member => rfl
  | expression => cases hlexeme

end Insertions

namespace Pass

open Edit (Clear Carries)

variable {s : Settings} {r : Registry} {c : Cursor} {k : Candidate}

/-- What a site that is taken does to the tokens takes its own token out. -/
theorem Candidate.Retold.covers {cs : List Change} (h : Candidate.Retold s c k cs) :
    ∃ d ∈ cs, d.covers k.site.token.start = true := by
  cases h with
  | @member c₁ m lss rereads declares tag start =>
    obtain ⟨c₂, c₃, -, -, -, hg⟩ := declares.spans rereads.sound
    have hlt := hg.lt _ (List.mem_of_mem_head? tag)
    refine ⟨_, List.mem_cons_self, ?_⟩
    simp only [Change.covers, start, le_refl, decide_true, Bool.true_and, decide_eq_true_eq]
    omega
  | @expression c₁ e f ls rereads expresses trailing start =>
    obtain ⟨c₂, c₃, -, -, -, he⟩ := expresses.reads rereads.sound
    have hlt := he.lt
    rw [← he.start, ← he.stop] at hlt
    refine ⟨_, List.mem_singleton_self _, ?_⟩
    simp only [Change.covers, start, le_refl, decide_true, Bool.true_and, decide_eq_true_eq]
    omega

/-- The edits of different sites keep clear of each other. -/
theorem Selection.Sound.clear_of_ne {code : Text} {t : Selection} (h : t.Sound code)
    {k k' : Candidate} (hk : k ∈ t.taken) (hk' : k' ∈ t.taken) (hne : k ≠ k') {d e : Edit}
    (hd : d ∈ k.expanded.edits) (he : e ∈ k'.expanded.edits) : Clear d e := by
  have hpair := (List.pairwise_flatMap.mp h.clear).2
  have : Std.Symm fun k k' : Candidate => ∀ d ∈ k.expanded.edits, ∀ e ∈ k'.expanded.edits,
      Clear d e := ⟨fun _ _ h d hd e he => (h e he d hd).symm⟩
  exact hpair.forall hk hk' hne d hd e he

/-- What is inserted into the declarations of a pass has no site. -/
def Mute (r : Registry) (p : Pass) : Prop :=
  ∀ k ∈ p.selection.taken, k.site.called.role = .member → ∀ e ∈ k.expanded.edits,
    ∀ ts, Token.tokenize e.text = .ok ts → ∀ role, Site.all r role ts = []

/-- All sites of the source are taken, and what is done at them to the tokens is told by `f`. -/
structure Selection.Exhausts (s : Settings) (r : Registry) (c : Cursor) (t : Selection)
    (f : Candidate → List Change) : Prop where
  sound : t.Sound c.source
  laid : Token.Laid c.source 0 c.inner
  sites : ∀ k ∈ t.taken, ∃ role, k.site ∈ Site.all r role c.tokens
  retold : ∀ k ∈ t.taken, Candidate.Retold s c k (f k)
  carries : ∀ k ∈ t.taken, k.expanded.edits.Forall₂ (Carries c.source) (f k)
  all : ∀ u ∈ c.inner, r.recognizes u.word = true → ∃ k ∈ t.taken, k.site.token = u

namespace Selection.Exhausts

variable {t : Selection} {f : Candidate → List Change} (h : t.Exhausts s r c f)
include h

/-- Each token of a site stands where an edit replaces the source. -/
theorem replaced {u : Token} (hu : u ∈ c.inner) (hrec : r.recognizes u.word = true) :
    ∃ k ∈ t.taken, k.site.token = u ∧ (∃ d ∈ f k, d.covers u.start = true) ∧
      ∃ e ∈ k.expanded.edits, e.start ≤ u.start ∧ u.start < e.stop := by
  obtain ⟨k, hk, rfl⟩ := h.all u hu hrec
  obtain ⟨d, hd, hcovers⟩ := (h.retold k hk).covers
  obtain ⟨e, he, hcarry⟩ := Edit.mem_right (h.carries k hk) hd
  refine ⟨k, hk, rfl, ⟨d, hd, hcovers⟩, e, he, ?_⟩
  simp only [Change.covers, Bool.and_eq_true, decide_eq_true_eq] at hcovers
  exact ⟨hcarry.le.trans hcovers.1, hcovers.2.trans_le hcarry.stop_le⟩

/-- What an expression that is taken gives way to names no macro: the sites in its closure would be
taken as well, and their edits would not keep clear of its own. -/
theorem replacement_mute (hk : k ∈ t.taken) {c₁ : Cursor} {e : MacroExpansion} {g : Closure}
    {ls : List Word} (rereads : c.Rereads c₁) (expresses : k.site.Expresses c₁ e)
    (trailing : e.trailing = some g) (start : e.start = k.site.token.start)
    (edits : k.expanded.edits =
      [⟨e.start, e.stop, WeakSelf.replacement { settings := s } c.source e.start g⟩])
    (reads : Token.ReadsAs (WeakSelf.replacement { settings := s } c.source e.start g) ls) :
    ∀ w ∈ ls, r.recognizes w = false := by
  intro w hw
  by_contra hrec
  rw [Bool.not_eq_false] at hrec
  obtain ⟨u, hu, rfl, hlo, hhi⟩ := expresses.token_of_replacement h.laid rereads trailing (by simp)
    reads hw (Registry.isSigil_of_recognizes hrec)
  obtain ⟨k', hk', rfl, -, e', he', hlo', hhi'⟩ := h.replaced hu hrec
  have hne : k ≠ k' := by
    rintro rfl
    omega
  have hclear := Edit.clear_iff.mp
    (h.sound.clear_of_ne hk hk' hne (edits ▸ List.mem_singleton_self _) he')
  simp only at hclear
  omega

/-- What is put into the source names no macro, if what is inserted into declarations does not. -/
theorem changes_mute (hs : c.Sound) (hmute : ∀ k ∈ t.taken, k.site.called.role = .member →
      ∀ e ∈ k.expanded.edits, ∀ ts, Token.tokenize e.text = .ok ts → ∀ role, Site.all r role ts = [])
    (hk : k ∈ t.taken) {d : Change} (hd : d ∈ f k) : ∀ w ∈ d.words, r.recognizes w = false := by
  have hretold := h.retold k hk
  generalize f k = cs at hd hretold
  cases hretold with
  | @member c₁ m lss rereads declares tag start setters edits methods =>
    rcases List.mem_cons.mp hd with rfl | hd
    · simp
    by_cases hne : lss = []
    · simp [hne] at hd
    rw [if_neg (by simpa using hne), List.mem_singleton] at hd
    subst hd
    obtain ⟨role, hx⟩ := h.sites k hk
    obtain ⟨e, he, hwords⟩ := Made.exists_insertion methods hne
    refine (siteless_iff hwords).mp ?_
    obtain ⟨ts, hts, -⟩ := Token.tokenize_of_words hwords
    exact ⟨ts, hts, hmute k hk (declares.role hs hx rereads tag) e (edits ▸ he) ts hts⟩
  | expression rereads expresses trailing start edits reads =>
    obtain rfl := List.mem_singleton.mp hd
    exact h.replacement_mute hk rereads expresses trailing start edits reads

end Selection.Exhausts

section Regular

variable {code : Text}

/-- What a pass asks of its source in order to be lexically sound, and of what it inserts. -/
structure Regular (s : Settings) (p : Pass) : Prop where
  detached : ∀ c, Cursor.ofText p.code = .ok c → Detached (Registry.ofSettings s) c
  accessible : ∀ c, Cursor.ofText p.code = .ok c →
    Accessible { settings := s } (Registry.ofSettings s) c
  mute : Mute (Registry.ofSettings s) p

variable {p : Pass} (h : Cursor.ofText p.code = .ok c)
  (hp : Pass.ofCursor { settings := s } (Registry.ofSettings s) c = p) (hregular : p.Regular s)
include h hp hregular

/-- A pass that takes all sites leaves none. -/
theorem siteless_after (hf : p.failures = []) (hd : p.selection.deferred = []) :
    Siteless (Registry.ofSettings s) p.after := by
  obtain ⟨hs, hsource, -⟩ := Cursor.sound_ofText h
  obtain ⟨-, -, hlaid, -⟩ := Cursor.laid_ofText h
  have hdetached := hregular.detached c h
  have haccess := hregular.accessible c h
  choose! f hretold using fun k hk => (retold_taken hs hdetached haccess k hk).1
  have hexhausts : p.selection.Exhausts s (Registry.ofSettings s) c f := by
    refine ⟨?_, hsource ▸ hlaid, fun k hk => ?_, fun k hk => (hretold k (hp ▸ hk)).1,
      fun k hk => (hretold k (hp ▸ hk)).2, ?_⟩
    · exact hp ▸ selection_sound { settings := s } (Registry.ofSettings s) hs
    · obtain ⟨-, -, -, hsite | ⟨hsite, -⟩⟩ := attempt_of_taken hs (hp ▸ hk)
      · exact ⟨_, hsite⟩
      · exact ⟨_, hsite⟩
    · intro u hu hrec
      obtain ⟨role, x, hx, rfl⟩ := Site.exists_of_recognizes (List.mem_append_left [c.eof] hu) hrec
      obtain ⟨k, hk, rfl⟩ := taken_of_settled hf hd x (by
        rw [← hp, attempts_sites _ _ hs]
        cases role <;> simp [show c.tokens = c.inner ++ [c.eof] from rfl, hx])
      exact ⟨k, hk, rfl⟩
  have hwords : Token.words p.after = .ok (respell (p.selection.taken.flatMap f) c.inner) := by
    have := words_of_carries h fun k hk => (hretold k hk).2
    rwa [hp] at this
  rw [siteless_iff hwords]
  intro w hw
  rcases Token.mem_respell hw with ⟨u, hu, rfl, hkept⟩ | ⟨d, hd, hw⟩
  · by_contra hrec
    rw [Bool.not_eq_false] at hrec
    obtain ⟨k, hk, -, ⟨d, hd, hcovers⟩, -⟩ := hexhausts.replaced hu hrec
    rw [hkept d (List.mem_flatMap.mpr ⟨k, hk, hd⟩)] at hcovers
    cases hcovers
  · obtain ⟨k, hk, hd⟩ := List.mem_flatMap.mp hd
    exact hexhausts.changes_mute hs hregular.mute hk hd w hw

/-- A pass brings in no carriage return. -/
theorem not_mem_after (hcode : '\r' ∉ p.code) : '\r' ∉ p.after := by
  obtain ⟨hs, hsource, -⟩ := Cursor.sound_ofText h
  refine Edit.not_mem_applyAll hcode fun e he => ?_
  obtain ⟨k, hk, he⟩ := List.mem_flatMap.mp he
  exact (retold_taken hs (hregular.detached c h) (hregular.accessible c h) k (hp ▸ hk)).2
    (hsource ▸ hcode) e he

end Regular

end Pass

namespace Expansion

variable {s : Settings} {code : Text}

/-- No pass brings in a carriage return. -/
theorem not_mem_history {n : Nat} (hcode : '\r' ∉ code)
    (h : ∀ p ∈ history { settings := s } (Registry.ofSettings s) n code, p.Regular s) :
    ∀ p ∈ history { settings := s } (Registry.ofSettings s) n code, '\r' ∉ p.after := by
  induction n generalizing code with
  | zero => simp [history]
  | succ n ih =>
    cases hc : Cursor.ofText code with
    | error e =>
      rw [history, hc]
      simp
    | ok c =>
      obtain ⟨-, rfl, -⟩ := Cursor.sound_ofText hc
      rw [history_of_ok hc rfl] at h ⊢
      obtain ⟨hfirst, hrest⟩ := List.forall_mem_cons.mp h
      have hafter := Pass.not_mem_after hc rfl hfirst hcode
      refine List.forall_mem_cons.mpr ⟨hafter, ?_⟩
      split
      · simp
      · exact ih hafter (by simpa [*] using hrest)

/-- If regular passes are free of failures and the last one defers nothing, it leaves no site. -/
theorem siteless_remainder {n : Nat}
    (hpasses : ∀ p ∈ history { settings := s } (Registry.ofSettings s) n code, p.failures = [] ∧ p.Regular s)
    (hsettled : settled (history { settings := s } (Registry.ofSettings s) n code) = true) :
    ∃ p ∈ history { settings := s } (Registry.ofSettings s) n code, Siteless (Registry.ofSettings s) p.after ∧
      remainder code (history { settings := s } (Registry.ofSettings s) n code) = p.after := by
  obtain ⟨p, hlast, hdeferred⟩ : ∃ p ∈ (history { settings := s } (Registry.ofSettings s) n code).getLast?,
      p.selection.deferred = [] := by
    simpa [settled, Option.any_eq_true] using hsettled
  have hmem := List.mem_of_mem_getLast? hlast
  obtain ⟨c, hc, hp⟩ := mem_history hmem
  obtain ⟨hclean, hregular⟩ := hpasses p hmem
  refine ⟨p, hmem, Pass.siteless_after hc hp hregular hclean hdeferred, ?_⟩
  rw [remainder, Option.mem_def.mp hlast]
  rfl

/-- Expansion reaches a fixed point. If a run succeeds within the number of passes, and each of its
passes is regular, its result has no site. A further run succeeds, reports nothing, and leaves it as
it is. -/
theorem run_fixed (path : Option Text) (hcode : '\r' ∉ code)
    (hsuccess : (run s (Registry.ofSettings s) code path).success = true)
    (hlimit : limitWarning s ∉ (run s (Registry.ofSettings s) code path).warnings)
    (hregular : ∀ p ∈ passesOf s (Registry.ofSettings s) code, p.Regular s) :
    Siteless (Registry.ofSettings s) (run s (Registry.ofSettings s) code path).code ∧
      ∀ path',
        let again := run s (Registry.ofSettings s) (run s (Registry.ofSettings s) code path).code path'
        again.success = true ∧ again.diagnostics = [] ∧
          again.code = (run s (Registry.ofSettings s) code path).code := by
  have hflat := Text.hasCrLf_of_not_mem hcode
  obtain ⟨hiff, hrun⟩ := run_history s (Registry.ofSettings s) code path
  rw [passesOf_ofSettings] at hiff hrun
  have hfulfilled := hiff.mp hsuccess
  obtain ⟨-, hresult, hwarnings⟩ := hrun hfulfilled
  rw [hflat, if_neg Bool.false_ne_true] at hresult
  have hsettled : settled (passesOf s (Registry.ofSettings s) code) = true := by
    by_contra hnot
    rw [hwarnings, if_neg hnot] at hlimit
    simp at hlimit
  have hunified := Text.unifyLineEnds_of_not_hasCrLf hflat
  obtain ⟨p, hmem, hsiteless, hremainder⟩ := siteless_remainder
    (fun p hp => ⟨hfulfilled.clean p hp, hregular p hp⟩) hsettled
  have hafter : (run s (Registry.ofSettings s) code path).code = p.after := hresult.trans hremainder
  have hflat' := Text.hasCrLf_of_not_mem <| not_mem_history (n := s.maxPasses)
    (by rwa [hunified]) hregular p hmem
  rw [hafter]
  refine ⟨hsiteless, fun path' => ?_⟩
  have hunified' := Text.unifyLineEnds_of_not_hasCrLf hflat'
  obtain ⟨hagain, hnone, -, hcode'⟩ := run_of_siteless s path' (hunified'.symm ▸ hsiteless)
  rw [hflat', if_neg Bool.false_ne_true, hunified'] at hcode'
  exact ⟨hagain, hnone, hcode'⟩

/-- A closure in a closure and a declaration with a public setter, expanded in two passes. -/
theorem run_fixed_nested : ∃ code, code =
      ("let f = #WeakSelfClosure \x7b let g = #WeakSelfClosure \x7b run() \x7d \x7d\n" ++
        "@fluentSetterMacro(\"public\")\nstruct A \x7b var x: Int \x7d").toList ∧
    (passesOf {} (Registry.ofSettings {}) code).length = 2 ∧
    Siteless (Registry.ofSettings {}) (run {} (Registry.ofSettings {}) code).code ∧
    (run {} (Registry.ofSettings {}) (run {} (Registry.ofSettings {}) code).code).code =
      (run {} (Registry.ofSettings {}) code).code := by
  refine ⟨_, rfl, ?_⟩
  generalize hcode : ("let f = #WeakSelfClosure \x7b let g = #WeakSelfClosure \x7b run() \x7d \x7d\n" ++
    "@fluentSetterMacro(\"public\")\nstruct A \x7b var x: Int \x7d").toList = code
  have hflat : '\r' ∉ code := by
    rw [← hcode]
    decide +kernel
  have hlength : (passesOf {} (Registry.ofSettings {}) code).length = 2 := by
    rw [← hcode]
    decide +kernel
  have hsuccess : (run {} (Registry.ofSettings {}) code).success = true := by
    rw [← hcode]
    decide +kernel
  have hlimit : limitWarning {} ∉ (run {} (Registry.ofSettings {}) code).warnings := by
    rw [← hcode]
    decide +kernel
  have hfacts : (passesOf {} (Registry.ofSettings {}) code).all (fun p =>
      (Cursor.ofText p.code).toOption.all fun c =>
        ((Site.all (Registry.ofSettings {}) .member c.tokens).all fun x =>
          (c.source.take x.token.start).getLast?.all fun d =>
            !Text.isWord d && !Token.isOperatorChar d) &&
        ((Pass.memberCursors { settings := {} } (Registry.ofSettings {}) c).all fun q =>
          (q.1.access? q.2).all (· == "public".toList)) &&
        p.selection.taken.all fun k => k.site.called.role ≠ .member || k.expanded.edits.all fun e =>
          (Token.tokenize e.text).toOption.all fun ts => (Site.all (Registry.ofSettings {}) .member ts).isEmpty &&
            (Site.all (Registry.ofSettings {}) .expression ts).isEmpty) = true := by
    rw [← hcode]
    decide +kernel
  have hregular : ∀ p ∈ passesOf {} (Registry.ofSettings {}) code, p.Regular {} := by
    intro p hp
    have hpass := List.all_eq_true.mp hfacts p hp
    obtain ⟨c, hc, -⟩ := mem_history hp
    simp only [hc, Except.toOption, Option.all_some, Bool.and_eq_true, List.all_eq_true,
      Option.all_eq_true, Bool.not_eq_true', beq_iff_eq, Bool.or_eq_true, decide_eq_true_eq,
      List.isEmpty_iff] at hpass
    obtain ⟨⟨hdetached, haccess⟩, hmute⟩ := hpass
    refine ⟨fun d hd => ?_, fun d hd => ?_, fun k hk hrole e he ts hts role => ?_⟩
    · obtain rfl : c = d := by simpa [hc] using hd
      exact hdetached
    · obtain rfl : c = d := by simpa [hc] using hd
      intro q hq t ht
      rw [haccess q hq t ht]
      exact .inr ⟨["public".toList], by simp, by decide, rfl⟩
    · have hnone := (hmute k hk).resolve_left (by simp [hrole]) e he ts (by rw [hts])
      cases role
      · exact hnone.1
      · exact hnone.2
  obtain ⟨hsiteless, hagain⟩ := run_fixed none hflat hsuccess hlimit hregular
  exact ⟨hlength, hsiteless, (hagain none).2.2⟩

/-- Behind a stray closing bracket a semicolon in the arguments of an attribute ends a statement and
is dropped. So the second pass reads an access modifier where the first one reads none; it is no plain
name, and the result cannot be tokenized. -/
theorem run_not_fixed_stray :
    let first := run {} (Registry.ofSettings {})
      ("#WeakSelfClosure \x7b ) @fluentSetterMacro(#\"a \" b\"# ; ) struct A \x7b var x = 1 \x7d \x7d").toList
    first.success = true ∧ first.warnings = [] ∧
      (run {} (Registry.ofSettings {}) first.code).success = false := by
  decide +kernel

end Expansion

end SwiftMacros
