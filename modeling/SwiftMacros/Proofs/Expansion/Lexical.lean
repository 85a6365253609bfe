import Mathlib
import SwiftMacros.Proofs.Expansion.History
import SwiftMacros.Proofs.Expansion.Respell

/-! A pass is lexically sound. What each site that is taken does to the source, its edits, is carried
by what it does to the tokens; so the source of the next pass has the tokens of this one with the
attributes taken out, the lexemes of the methods in front of the closing braces, and those of the
replacements in place of the expressions. -/

namespace SwiftMacros

open Token (Word Reads Change respell)

section Sites

variable {ctx : Context} {x : Site} {c c₁ c₂ : Cursor} {y : Expanded} {g : Group}
  {e : MacroExpansion}

/-- From the cursor, the declaration is read at the site. -/
def Site.Declares (x : Site) (c : Cursor) (g : Group) : Prop :=
  ∃ c', (Parser.seek x.token.start >>= fun _ => Parser.annotatedGroup x.token) c = .ok (.ok g) c'

/-- The access modifier that the attribute of the declaration asks for. -/
def Site.access? (x : Site) (c : Cursor) : Option Text :=
  match (Parser.seek x.token.start >>= fun _ => Parser.annotatedGroup x.token) c with
  | .ok (.ok g) _ => g.attributes.head?.map Attribute.access
  | _ => none

theorem Site.Declares.access (h : x.Declares c g) {a : Attribute} (ha : a ∈ g.attributes.head?) :
    a.access ∈ x.access? c := by
  obtain ⟨c', h⟩ := h
  rw [Site.access?, h]
  exact Option.map_eq_some_iff.mpr ⟨a, ha, rfl⟩

/-- From the cursor, the expression is read at the site. -/
def Site.Expresses (x : Site) (c : Cursor) (e : MacroExpansion) : Prop :=
  ∃ c', (Parser.seek x.token.start >>= fun _ => Parser.expansion) c = .ok e c'

/-- The cursors from which sites are attempted one after the other. -/
def Site.cursors (ctx : Context) : List Site → Cursor → List (Site × Cursor)
  | [], _ => []
  | s :: ss, c => (s, c) :: cursors ctx ss (s.attempt ctx c).2

theorem Site.attemptAll_cursors (ctx : Context) (ss : List Site) (c : Cursor) :
    (attemptAll ctx ss c).1 = (cursors ctx ss c).map fun p => (p.1.attempt ctx p.2).1 := by
  induction ss generalizing c with
  | nil => rfl
  | cons s ss ih => exact congrArg (_ :: ·) (ih _)

/-- All attempts are made at cursors on the same tokens. -/
theorem Site.rereads_of_mem_cursors {ss : List Site} (hs : c.Sound) {p : Site × Cursor}
    (hp : p ∈ cursors ctx ss c) : p.1 ∈ ss ∧ c.Rereads p.2 := by
  induction ss generalizing c with
  | nil => cases hp
  | cons s ss ih =>
    rcases List.mem_cons.mp hp with rfl | hp
    · exact ⟨by simp, hs.refl.rereads⟩
    · obtain ⟨hread, -⟩ := s.attempt_spec ctx hs
      obtain ⟨hmem, hrereads⟩ := ih hread.sound hp
      exact ⟨by simp [hmem], hread.trans hrereads⟩

/-- A cursor that is put on an offset reads the same tokens from there. -/
theorem Parser.seek_rereads {offset : Nat} (hs : c.Sound) {u : Unit}
    (h : Parser.seek offset c = .ok u c₁) : c.Rereads c₁ ∧ c₁.peek.start = offset := by
  rw [Parser.seek, Parser.run_get_bind, if_pos (Int.natCast_nonneg offset), Int.toNat_natCast] at h
  cases hf : c.seek? offset with
  | none =>
    rw [hf] at h
    cases h
  | some found =>
    rw [hf] at h
    cases h
    exact hs.seek hf

/-- A declaration that is read stands at its site. -/
theorem Site.Declares.spans (h : x.Declares c g) (hs : c.Sound) :
    ∃ c₁ c₂, c.Rereads c₁ ∧ c₁.peek.start = x.token.start ∧ c₁.Leads c₂ ∧ g.Spans c₁ c₂ := by
  obtain ⟨c₂, h⟩ := h
  obtain ⟨u, c₁, hseek, hread⟩ := Parser.of_bind_ok h
  obtain ⟨hrereads, hstart⟩ := Parser.seek_rereads hs hseek
  obtain ⟨hl, hg⟩ := (Parser.annotatedGroup_spec hrereads.sound).ok hread
  exact ⟨c₁, c₂, hrereads, hstart, hl, hg g rfl⟩

theorem Site.Expresses.reads (h : x.Expresses c e) (hs : c.Sound) :
    ∃ c₁ c₂, c.Rereads c₁ ∧ c₁.peek.start = x.token.start ∧ c₁.Leads c₂ ∧ ReadsExpansion c₁ e c₂ := by
  obtain ⟨c₂, h⟩ := h
  obtain ⟨u, c₁, hseek, hread⟩ := Parser.of_bind_ok h
  obtain ⟨hrereads, hstart⟩ := Parser.seek_rereads hs hseek
  obtain ⟨hl, he⟩ := (Parser.expansion_spec hrereads.sound).ok hread
  exact ⟨c₁, c₂, hrereads, hstart, hl, he⟩

/-- What has been read at a site that expands. -/
theorem Site.attempt_cases (hs : c.Sound)
    (hy : (x.attempt ctx c).1.production.result = .ok y) :
    (x.called.role = .member ∧ ∃ g a, x.Declares c g ∧ a ∈ g.attributes.head? ∧
      (Expanded.ofMember ctx c.source x.called g a).result = .ok y) ∨
    (x.called.role = .expression ∧ ∃ e, x.Expresses c e ∧
      (Expanded.ofExpression ctx c.source x.called e).result = .ok y) := by
  unfold Site.attempt at hy
  dsimp only at hy
  cases hseek : Parser.seek x.token.start c with
  | error e c₁ =>
    rw [Parser.bind_of_error hseek] at hy
    cases hy
  | ok u c₁ =>
    have hsource := (Parser.seek_rereads hs hseek).1.source
    rw [Parser.bind_of_ok hseek] at hy
    cases hrole : x.called.role with
    | member =>
      rw [hrole] at hy
      dsimp only at hy
      rw [Parser.memberSite, Parser.run_get_bind] at hy
      cases hgroup : Parser.annotatedGroup x.token c₁ with
      | error e c₂ =>
        rw [Parser.bind_of_error hgroup] at hy
        cases hy
      | ok o c₂ =>
        rw [Parser.bind_of_ok hgroup] at hy
        cases o with
        | error e => cases hy
        | ok g =>
          cases ha : g.attributes with
          | nil =>
            simp only [ha] at hy
            cases hy
          | cons a as =>
            simp only [ha] at hy
            exact .inl ⟨rfl, g, a, ⟨c₂, (Parser.bind_of_ok hseek).trans hgroup⟩, by rw [ha]; rfl,
              hsource ▸ hy⟩
    | expression =>
      have hread : Parser.expressionSite ctx x = (get >>= fun c' : Cursor =>
          Parser.expansion >>= fun e => return Expanded.ofExpression ctx c'.source x.called e) := rfl
      rw [hrole, hread] at hy
      dsimp only at hy
      rw [Parser.bind_of_ok (p := get) (a := c₁) rfl] at hy
      cases he : Parser.expansion c₁ with
      | error e c₂ =>
        rw [Parser.bind_of_error he] at hy
        cases hy
      | ok e c₂ =>
        rw [Parser.bind_of_ok he] at hy
        exact .inr ⟨rfl, e, ⟨c₂, (Parser.bind_of_ok hseek).trans he⟩, hsource ▸ hy⟩

/-- The token of a site stands in the source. -/
theorem Site.placed_of_mem_all {r : Registry} {role : Role} (hs : c.Sound)
    (h : x ∈ Site.all r role c.tokens) :
    x.token.kind = Site.tokenKind role ∧ Token.Placed c.source x.token := by
  obtain ⟨t, ht, hx⟩ := List.mem_filterMap.mp h
  split at hx
  next hk =>
    obtain ⟨m, -, rfl⟩ := Option.map_eq_some_iff.mp hx
    refine ⟨hk, hs.arranged.placed t ?_⟩
    rcases List.mem_append.mp ht with ht | ht
    · exact ht
    · rw [List.mem_singleton.mp ht, hs.eof_kind] at hk
      cases role <;> cases hk
  next => cases hx

/-- Where the source is cut in front of a site, its sigil stands. -/
theorem Site.sigil_of_mem_all {r : Registry} {role : Role} {sigil : Char} (hs : c.Sound)
    (hx : x ∈ Site.all r role c.tokens)
    (hsigil : (role, sigil) ∈ [(Role.member, '@'), (.expression, '#')]) :
    c.source[x.token.start]? = some sigil ∧ Cut c.source x.token.start := by
  obtain ⟨hkind, hplaced⟩ := placed_of_mem_all hs hx
  have hoperator : x.token.kind ≠ .operator := by
    rw [hkind]
    cases role <;> decide
  have hmem : (x.token.kind, sigil) ∈ [(Token.Kind.atName, '@'), (.poundName, '#')] := by
    rw [hkind]
    cases role <;> simpa [tokenKind] using hsigil
  refine ⟨?_, (hplaced.whole hoperator).1⟩
  rw [← List.head?_drop, hplaced.drop_eq, List.head?_append,
    Token.lexeme_sigil hmem (hplaced.lexeme_text hoperator)]
  rfl

end Sites

section Indents

open Text (isIndent)

theorem Text.isIndent_leadingIndent {t : Text} : ∀ c ∈ Text.leadingIndent t, isIndent c = true :=
  fun _ hc => List.mem_takeWhile_imp hc

theorem Settings.isIndent_indent (s : Settings) : ∀ c ∈ s.indent, isIndent c = true := by
  intro c hc
  rw [List.eq_of_mem_replicate hc]
  rfl

theorem isIndent_unitFor {indent unit : Text} (h : ∀ c ∈ unit, isIndent c = true) :
    ∀ c ∈ unitFor indent unit, isIndent c = true := by
  rw [unitFor]
  split
  · simp [isIndent]
  · exact h

end Indents

namespace Made

/-- The indent of the members that are inserted. -/
def inner (s : Settings) (code : Text) (m : Made) : Text :=
  (m.group.block.indent? code).getD (Text.lineIndent code m.group.start ++ s.indent)

/-- The methods of the setters as they are inserted. -/
def methods (s : Settings) (code : Text) (m : Made) : List Text :=
  (Setter.methods m.list.kind m.tag.access (unitFor (m.inner s code) s.indent) m.list.setters).map
    (Edit.indented (m.inner s code))

/-- The edit that inserts the methods. -/
def insertion (s : Settings) (code : Text) (m : Made) : Edit :=
  Edit.insertion code m.group.block
    (Setter.methods m.list.kind m.tag.access (unitFor (m.inner s code) s.indent) m.list.setters)
    (Text.lineIndent code m.group.start) (m.inner s code)

/-- The lexemes of the attribute are taken out, and those of the methods put in front of the closing
brace. -/
def changes (m : Made) (lss : List (List Word)) : List Change :=
  ⟨m.tag.start, m.tag.stop, []⟩ ::
    if lss.isEmpty then [] else [⟨m.group.block.stop - 1, m.group.block.stop - 1, lss.flatten⟩]

variable {s : Settings} {code : Text} {m : Made} {c₁ c₂ : Cursor}

theorem edits_eq : m.edits s code = Edit.removal code m.tag.start m.tag.stop ::
    if (m.methods s code).isEmpty then [] else [m.insertion s code] := by
  rw [methods, List.isEmpty_map]
  cases hms : (Setter.methods m.list.kind m.tag.access (unitFor (m.inner s code) s.indent)
    m.list.setters).isEmpty with
  | true => exact if_pos hms
  | false => exact if_neg (hms ▸ Bool.false_ne_true)

theorem isIndent_inner : ∀ c ∈ m.inner s code, Text.isIndent c = true := by
  intro c hc
  rw [inner, MemberBlock.indent?] at hc
  cases hindent : (Option.map Text.leadingIndent (((Text.lines (Text.slice code
      (m.group.block.start + 1) (m.group.block.stop - 1))).drop 1).find? fun line =>
        !Text.allBlank line)).filter (!·.isEmpty) with
  | none =>
    rw [hindent, Option.getD_none, List.mem_append] at hc
    exact hc.elim (Text.isIndent_leadingIndent c) (s.isIndent_indent c)
  | some t =>
    rw [hindent] at hc
    obtain ⟨l, -, rfl⟩ := Option.map_eq_some_iff.mp (Option.filter_eq_some_iff.mp hindent).1
    exact Text.isIndent_leadingIndent c hc

/-- A method is read as the same lexemes wherever it is inserted. -/
theorem methods_sealed (hg : m.group.Spans c₁ c₂) (hlist : m.group.setters = .ok m.list)
    (haccess : Setter.PlainAccess m.tag.access) : ∀ t ∈ m.methods s code, Token.Sealed t := by
  intro t ht
  obtain ⟨u, hu, rfl⟩ := List.mem_map.mp ht
  obtain ⟨f, hf, rfl⟩ := List.mem_map.mp hu
  exact Setter.sealed_indented haccess (Group.setters_readable hg.block.members hlist f hf)
    (isIndent_unitFor s.isIndent_indent) isIndent_inner

/-- The edits of a declaration bring in no carriage return. -/
theorem flat (hg : m.group.Spans c₁ c₂) (hsource : c₂.source = code)
    (hlist : m.group.setters = .ok m.list) (haccess : Setter.PlainAccess m.tag.access)
    (hcode : '\r' ∉ code) : ∀ e ∈ m.edits s code, '\r' ∉ e.text := by
  subst hsource
  have hmethods : ∀ t ∈ m.methods s c₂.source, '\r' ∉ t := by
    intro t ht
    obtain ⟨u, hu, rfl⟩ := List.mem_map.mp ht
    obtain ⟨f, hf, rfl⟩ := List.mem_map.mp hu
    refine (Edit.indented_reindented isIndent_inner _).not_mem rfl ?_
    exact Setter.not_mem_method haccess (Group.setters_readable hg.block.members hlist f hf)
      (isIndent_unitFor s.isIndent_indent) hcode
  have houter : '\r' ∉ Text.lineIndent c₂.source m.group.start := fun hmem => by
    cases Text.isIndent_leadingIndent _ hmem
  have hremoval : '\r' ∉ (Edit.removal c₂.source m.tag.start m.tag.stop).text := by
    unfold Edit.removal
    dsimp only
    split <;> simp
  have hinsertion : '\r' ∉ (m.insertion s c₂.source).text := by
    have hjoin : '\r' ∉ Text.join "\n\n".toList (m.methods s c₂.source) :=
      Text.not_mem_join (by decide) hmethods
    unfold insertion Edit.insertion
    dsimp only
    unfold methods at hjoin
    split <;> simpa [houter] using hjoin
  rw [edits_eq]
  refine List.forall_mem_cons.mpr ⟨hremoval, ?_⟩
  split
  · simp
  · simpa using hinsertion

/-- The edits of a declaration carry its changes. -/
theorem carries (hg : m.group.Spans c₁ c₂) (hsource : c₂.source = code)
    (htag : m.tag ∈ m.group.attributes.head?) (hlist : m.group.setters = .ok m.list)
    (haccess : Setter.PlainAccess m.tag.access) (hat : code[m.tag.start]? = some '@')
    (hsettled : Token.Settled (code.take m.tag.start)) :
    ∃ lss, (m.methods s code).Forall₂ Token.ReadsAs lss ∧
      (m.edits s code).Forall₂ (Edit.Carries code) (m.changes lss) := by
  subst hsource
  obtain ⟨as, has⟩ := List.head?_eq_some_iff.mp htag
  have hmem : m.tag ∈ m.group.attributes := by simp [has]
  obtain ⟨lss, hlss⟩ : ∃ lss, (m.methods s c₂.source).Forall₂ Token.ReadsAs lss := by
    have hreads : ∀ t ∈ m.methods s c₂.source, ∃ ls, Token.ReadsAs t ls := fun t ht =>
      (methods_sealed hg hlist haccess t ht).readsAs
    choose! f hf using hreads
    exact ⟨_, List.forall₂_map_right_iff.mpr (List.forall₂_same.mpr hf)⟩
  refine ⟨lss, hlss, ?_⟩
  have hremoval := Edit.removal_carries (hg.lt _ hmem) (hg.before _ hmem) hg.block.opening
    (hg.cut_start _ hmem) (hg.cut_stop _ hmem) hat (hg.next _ hmem) hsettled
  have hempty : lss.isEmpty = (m.methods s c₂.source).isEmpty := by
    rw [Bool.eq_iff_iff, List.isEmpty_iff_length_eq_zero, List.isEmpty_iff_length_eq_zero,
      hlss.length_eq]
  have hinsertion : Edit.Carries c₂.source (m.insertion s c₂.source) _ :=
    Edit.insertion_carries hg.block Text.isIndent_leadingIndent (hlss.imp fun _ _ h => h.before)
  rw [changes, hempty, edits_eq]
  refine .cons hremoval ?_
  split
  · exact .nil
  · exact .cons hinsertion .nil

end Made

section Replacements

variable {ctx : Context} {c c' : Cursor} {k : Closure} {unit indent : Text}

theorem Context.isIndent_indent (h : ∀ c ∈ ctx.unit, Text.isIndent c = true) :
    ∀ c ∈ ctx.indent, Text.isIndent c = true := by
  rw [Context.indent]
  split
  · exact ctx.settings.isIndent_indent
  · exact h

/-- The text in place of an expression that captures `self` weakly. -/
def WeakSelf.replacement (ctx : Context) (code : Text) (start : Nat) (k : Closure) : Text :=
  let indent := Text.lineIndent code start
  Edit.indentContinuation indent
    (weakenClosure (ctx.withIndent (unitFor indent ctx.indent)).indent k).toText

theorem Expanded.ofExpression_weak {code : Text} {m : Macro} (hm : m.action = .weakCapture)
    {e : MacroExpansion} {y : Expanded} (hy : (Expanded.ofExpression ctx code m e).result = .ok y) :
    ∃ k, e.trailing = some k ∧ y.span = (e.start, e.stop) ∧
      y.edits = [⟨e.start, e.stop, WeakSelf.replacement ctx code e.start k⟩] := by
  unfold Expanded.ofExpression Macro.expandExpression WeakSelf.weaken at hy
  rw [hm] at hy
  cases hk : e.trailing with
  | none =>
    simp only [hk] at hy
    cases hy
  | some k =>
    simp only [hk] at hy
    cases hy
    exact ⟨k, rfl, rfl, rfl⟩

/-- A weakened closure starts with its brace. -/
theorem WeakSelf.weakenClosure_head (unit : Text) (k : Closure) :
    (weakenClosure unit k).toText.head? = some '\x7b' := by
  obtain ⟨l, ms, hl⟩ : ∃ l ms, (guardStatement unit :: k.statements).map (Statement.layout unit) ++
      ["\x7d".toList] = l :: ms := List.exists_cons_of_ne_nil (by simp)
  have htext : (weakenClosure unit k).toText =
      Text.joinLines (("\x7b ".toList ++ (addCapture k.signature).toText) :: l :: ms) := by
    rw [← hl]
    rfl
  rw [htext, Text.joinLines_cons]
  rfl

theorem WeakSelf.not_mem_replacement (ctx : Context) (code : Text) (start : Nat)
    (hctx : ∀ d ∈ ctx.unit, Text.isIndent d = true) (h : ReadsClosure c k c') (hs : c.Sound)
    (hc : '\r' ∉ c.source) : '\r' ∉ replacement ctx code start k :=
  (Edit.indentContinuation_relined Text.isIndent_leadingIndent _).not_mem rfl
    (weakenClosure_flat h hs
      (Context.isIndent_indent (isIndent_unitFor (Context.isIndent_indent hctx))) hc)

theorem WeakSelf.replacement_head (ctx : Context) (code : Text) (start : Nat) (k : Closure) :
    ∃ u, replacement ctx code start k = '\x7b' :: u := by
  have hmoved : Token.Relined _ (replacement ctx code start k) :=
    Edit.indentContinuation_relined Text.isIndent_leadingIndent _
  have hhead := hmoved.head?_eq
  rw [weakenClosure_head] at hhead
  obtain ⟨u, hu⟩ := List.head?_eq_some_iff.mp hhead.symm
  exact ⟨u, hu⟩

/-- A closure that is put in place of an expression is read as the same lexemes wherever it stands. -/
theorem WeakSelf.sealed_replacement (ctx : Context) (code : Text) (start : Nat)
    (hctx : ∀ d ∈ ctx.unit, Text.isIndent d = true) (h : ReadsClosure c k c') (hs : c.Sound)
    (hsource : c'.source = c.source) : Token.Sealed (replacement ctx code start k) := by
  have hunit : ∀ d ∈ (ctx.withIndent (unitFor (Text.lineIndent code start) ctx.indent)).indent,
      Text.isIndent d = true :=
    Context.isIndent_indent (isIndent_unitFor (Context.isIndent_indent hctx))
  have hmoved : Token.Relined _ (replacement ctx code start k) :=
    Edit.indentContinuation_relined Text.isIndent_leadingIndent _
  obtain ⟨w, body, lss, hw, hnone, -, -, hss, -⟩ := h.reads hs hsource
  intro r
  obtain ⟨ls, -, hread⟩ := weakenClosure_relined hunit hw hnone hss r
  obtain ⟨ls', -, hread'⟩ := hread.relined rfl hmoved
  exact ⟨ls', hread'⟩

end Replacements

namespace Pass

open Edit (Carries)

variable {s : Settings} {c : Cursor} {k : Candidate}

/-- What a site that is taken does to the tokens of the source. -/
inductive Candidate.Retold (s : Settings) (c : Cursor) (k : Candidate) : List Change → Prop
  /-- The attribute is taken out, and the methods of the setters are put in front of the brace. -/
  | member {c₁ : Cursor} {m : Made} {lss : List (List Word)} (rereads : c.Rereads c₁)
      (declares : k.site.Declares c₁ m.group) (tag : m.tag ∈ m.group.attributes.head?)
      (start : m.tag.start = k.site.token.start) (setters : m.group.setters = .ok m.list)
      (edits : k.expanded.edits = m.edits s c.source)
      (methods : (m.methods s c.source).Forall₂ Token.ReadsAs lss) :
      Retold s c k (m.changes lss)
  /-- The expression gives way to its closure, which captures `self` weakly. -/
  | expression {c₁ : Cursor} {e : MacroExpansion} {f : Closure} {ls : List Word}
      (rereads : c.Rereads c₁) (expresses : k.site.Expresses c₁ e) (trailing : e.trailing = some f)
      (start : e.start = k.site.token.start)
      (edits : k.expanded.edits =
        [⟨e.start, e.stop, WeakSelf.replacement { settings := s } c.source e.start f⟩])
      (reads : Token.ReadsAs (WeakSelf.replacement { settings := s } c.source e.start f) ls) :
      Retold s c k [⟨e.start, e.stop, ls⟩]

/-- No attribute of a member macro has a word or an operator directly in front of it. -/
def Detached (r : Registry) (c : Cursor) : Prop :=
  ∀ x ∈ Site.all r .member c.tokens, Token.Settled (c.source.take x.token.start)

/-- The member sites of a pass and the cursors from which they are attempted. -/
def memberCursors (ctx : Context) (r : Registry) (c : Cursor) : List (Site × Cursor) :=
  let c' := (Site.attemptAll ctx (Site.all r .expression c.tokens) c).2
  Site.cursors ctx (Site.all r .member c'.tokens) c'

/-- The access modifiers that the attributes ask for are plain names. -/
def Accessible (ctx : Context) (r : Registry) (c : Cursor) : Prop :=
  ∀ p ∈ memberCursors ctx r c, ∀ t ∈ p.1.access? p.2, Setter.PlainAccess t

section Retelling

variable {x : Site} {y : Expanded} {c₁ : Cursor} (hs : c.Sound) (hc : c.Rereads c₁)
  (hy : (x.attempt { settings := s } c₁).1.production.result = .ok y)
include hs hc hy

/-- A declaration that is expanded does to the tokens what its edits do to the text. -/
theorem Candidate.retold_member (hx : x ∈ Site.all (Registry.ofSettings s) .member c.tokens)
    (hsettled : Token.Settled (c.source.take x.token.start))
    (haccess : ∀ t ∈ x.access? c₁, Setter.PlainAccess t) :
    (∃ cs, Candidate.Retold s c ⟨x, y⟩ cs ∧ y.edits.Forall₂ (Carries c.source) cs) ∧
      ('\r' ∉ c.source → ∀ e ∈ y.edits, '\r' ∉ e.text) := by
  rcases Site.attempt_cases hc.sound hy with ⟨-, g, a, hdeclares, ha, hexpand⟩ | ⟨hrole, -⟩
  · obtain ⟨hat, -⟩ := Site.sigil_of_mem_all hs hx (.head _)
    rw [hc.source] at hexpand
    obtain ⟨l, hl, hedits⟩ := Expanded.ofMember_setters (Site.setters_of_mem_all hx) hexpand
    obtain ⟨c₂, c₃, hread, hpeek, hleads, hg⟩ := hdeclares.spans hc.sound
    have hstart : a.start = x.token.start := (hg.first a ha).2.trans hpeek
    have hsource := hleads.source.trans (hread.source.trans hc.source)
    have hplain := haccess _ (hdeclares.access ha)
    obtain ⟨lss, hmethods, hcarries⟩ := Made.carries (m := ⟨g, a, l⟩) (s := s) hg hsource ha hl hplain
      (by rw [hstart]; exact hat) (by rw [hstart]; exact hsettled)
    exact ⟨⟨_, .member (m := ⟨g, a, l⟩) hc hdeclares ha hstart hl hedits hmethods, hedits ▸ hcarries⟩,
      fun hcode => hedits ▸ Made.flat (m := ⟨g, a, l⟩) hg hsource hl hplain hcode⟩
  · rw [Site.role_of_mem_all hx] at hrole
    cases hrole

/-- An expression that is expanded does to the tokens what its edit does to the text. -/
theorem Candidate.retold_expression
    (hx : x ∈ Site.all (Registry.ofSettings s) .expression c.tokens) :
    (∃ cs, Candidate.Retold s c ⟨x, y⟩ cs ∧ y.edits.Forall₂ (Carries c.source) cs) ∧
      ('\r' ∉ c.source → ∀ e ∈ y.edits, '\r' ∉ e.text) := by
  rcases Site.attempt_cases hc.sound hy with ⟨hrole, -⟩ | ⟨-, e, hexpresses, hexpand⟩
  · rw [Site.role_of_mem_all hx] at hrole
    cases hrole
  · obtain ⟨hpound, hcut⟩ := Site.sigil_of_mem_all hs hx (.tail _ (.head _))
    rw [hc.source] at hexpand
    obtain ⟨f, hf, -, hedits⟩ := Expanded.ofExpression_weak (Site.weakCapture_of_mem_all hx) hexpand
    obtain ⟨c₂, c₃, hread, hpeek, hleads, he⟩ := hexpresses.reads hc.sound
    have hstart : e.start = x.token.start := he.start.trans hpeek
    obtain ⟨c₄, hl₄, hclosure⟩ := he.trailing f hf
    have hsource₄ := hleads.source.trans ((hread.sound.advance 1).trans hl₄).source.symm
    obtain ⟨u, hu⟩ := WeakSelf.replacement_head { settings := s } c.source e.start f
    obtain ⟨ls, hls⟩ := (WeakSelf.sealed_replacement { settings := s } c.source e.start
      (by simp) hclosure hl₄.sound hsource₄).readsAs
    obtain ⟨-, -, -, -, -, hcut', -⟩ := hclosure.reads hl₄.sound hsource₄
    rw [hleads.source.trans (hread.source.trans hc.source), ← he.stop] at hcut'
    refine ⟨⟨_, .expression hc hexpresses hf hstart hedits hls, ?_⟩, fun hcode => ?_⟩ <;> rw [hedits]
    swap
    · have hsource₂ := hl₄.source.trans ((hread.sound.advance 1).source.trans
        (hread.source.trans hc.source))
      simpa using WeakSelf.not_mem_replacement { settings := s } c.source e.start (by simp) hclosure
        hl₄.sound (hsource₂ ▸ hcode)
    refine .cons (Edit.replacement_carries ?_ (hstart ▸ hcut) hcut' (hstart ▸ hpound) hu hls.before) .nil
    rw [he.start, he.stop]
    exact he.lt

end Retelling

/-- A candidate has been attempted from one of the cursors. -/
theorem mem_cursors_of_candidate {ctx : Context} {ss : List Site}
    (hk : k ∈ candidates (Site.attemptAll ctx ss c).1) : ∃ c₁, (k.site, c₁) ∈ Site.cursors ctx ss c ∧
      (k.site.attempt ctx c₁).1.production.result = .ok k.expanded := by
  obtain ⟨a, ha, hsite, hx⟩ := mem_candidates hk
  rw [Site.attemptAll_cursors] at ha
  obtain ⟨⟨x, c₁⟩, hmem, rfl⟩ := List.mem_map.mp ha
  obtain rfl : x = k.site := (Site.attempt_site x).symm.trans hsite
  exact ⟨c₁, hmem, hx⟩

/-- A site that is taken has been attempted, at a cursor on the tokens of the source. -/
theorem attempt_of_taken {ctx : Context} {r : Registry} (hs : c.Sound)
    (hk : k ∈ (Pass.ofCursor ctx r c).selection.taken) :
    ∃ c₁, c.Rereads c₁ ∧ (k.site.attempt ctx c₁).1.production.result = .ok k.expanded ∧
      (k.site ∈ Site.all r .expression c.tokens ∨
        k.site ∈ Site.all r .member c.tokens ∧ (k.site, c₁) ∈ memberCursors ctx r c) := by
  obtain ⟨hread, -⟩ := Site.attemptAll_spec ctx (Site.all r .expression c.tokens) hs
  rcases Selection.free_of_taken_foldl hk with hk | ⟨hk, -⟩
  · rcases Selection.mem_of_taken_addExpression hk with hk | hk
    · cases hk
    · obtain ⟨c₁, hmem, hx⟩ := mem_cursors_of_candidate hk
      obtain ⟨hsite, hrereads⟩ := Site.rereads_of_mem_cursors hs hmem
      exact ⟨c₁, hrereads, hx, .inl hsite⟩
  · obtain ⟨c₁, hmem, hx⟩ := mem_cursors_of_candidate hk
    obtain ⟨hsite, hrereads⟩ := Site.rereads_of_mem_cursors hread.sound hmem
    rw [Site.all_of_rereads hread] at hsite
    exact ⟨c₁, hread.trans hrereads, hx, .inr ⟨hsite, hmem⟩⟩

/-- The edits of candidates carry their changes, candidate by candidate. -/
theorem carries_flatMap {ks : List Candidate} {f : Candidate → List Change} {code : Text}
    (h : ∀ k ∈ ks, k.expanded.edits.Forall₂ (Carries code) (f k)) :
    (ks.flatMap (·.expanded.edits)).Forall₂ (Carries code) (ks.flatMap f) := by
  rw [List.flatMap_def, List.flatMap_def]
  exact List.rel_flatten (List.forall₂_map_left_iff.mpr (List.forall₂_map_right_iff.mpr
    (List.forall₂_same.mpr h)))

/-- All that is taken does to the tokens what its edits do to the text. -/
theorem retold_taken (hs : c.Sound) (hdetached : Detached (Registry.ofSettings s) c)
    (haccess : Accessible { settings := s } (Registry.ofSettings s) c) :
    ∀ k ∈ (Pass.ofCursor { settings := s } (Registry.ofSettings s) c).selection.taken,
      (∃ cs, Candidate.Retold s c k cs ∧ k.expanded.edits.Forall₂ (Carries c.source) cs) ∧
        ('\r' ∉ c.source → ∀ e ∈ k.expanded.edits, '\r' ∉ e.text) := by
  intro k hk
  obtain ⟨c₁, hrereads, hx, hsite | ⟨hsite, hcursor⟩⟩ := attempt_of_taken hs hk
  · exact Candidate.retold_expression hs hrereads hx hsite
  · exact Candidate.retold_member hs hrereads hx hsite (hdetached _ hsite)
      (haccess (k.site, c₁) hcursor)

/-- If the edits of all that is taken carry changes, the source of the next pass has the tokens that
these changes make. -/
theorem words_of_carries {ctx : Context} {r : Registry} {code : Text} (h : Cursor.ofText code = .ok c)
    {f : Candidate → List Change} (hf : ∀ k ∈ (Pass.ofCursor ctx r c).selection.taken,
      k.expanded.edits.Forall₂ (Carries c.source) (f k)) :
    Token.words (Pass.ofCursor ctx r c).after =
      .ok (respell ((Pass.ofCursor ctx r c).selection.taken.flatMap f) c.inner) := by
  obtain ⟨hs, rfl, -⟩ := Cursor.sound_ofText h
  obtain ⟨-, -, hlaid, -⟩ := Cursor.laid_ofText h
  obtain ⟨-, hwithin, hclear⟩ := selection_sound ctx r hs
  exact Edit.words_applyAll (carries_flatMap hf) hwithin hclear hlaid

/-- A pass is lexically sound, if the attributes are detached from what stands in front of them and
ask for access modifiers that are plain names. What it makes of a source is read as the tokens of the
source, with the attribute of each declaration that is taken left out, the lexemes of its methods, as
they are inserted, in front of its closing brace, and those of its replacement in place of each
expression that is taken. -/
theorem words_after {code : Text} (s : Settings) (h : Cursor.ofText code = .ok c)
    (hdetached : Detached (Registry.ofSettings s) c)
    (haccess : Accessible { settings := s } (Registry.ofSettings s) c) :
    let p := Pass.ofCursor { settings := s } (Registry.ofSettings s) c
    ∃ css, p.selection.taken.Forall₂ (Candidate.Retold s c) css ∧
      Token.words p.after = .ok (respell css.flatten c.inner) := by
  intro p
  obtain ⟨hs, -, -⟩ := Cursor.sound_ofText h
  choose! f hf using fun k hk => (retold_taken hs hdetached haccess k hk).1
  refine ⟨p.selection.taken.map f, List.forall₂_map_right_iff.mpr
    (List.forall₂_same.mpr fun k hk => (hf k hk).1), ?_⟩
  rw [← List.flatMap_def]
  exact words_of_carries h fun k hk => (hf k hk).2

/-- A closure that is replaced and a declaration with a public setter. -/
theorem words_after_public : ∃ c, Cursor.ofText ("let f = #WeakSelfClosure \x7b run() \x7d\n" ++
      "@fluentSetterMacro(\"public\")\nstruct A \x7b var x: Int \x7d").toList = .ok c ∧
    Detached (Registry.ofSettings {}) c ∧ Accessible { settings := {} } (Registry.ofSettings {}) c ∧
    (Pass.ofCursor { settings := {} } (Registry.ofSettings {}) c).selection.taken.length = 2 ∧
    ∃ css, (Pass.ofCursor { settings := {} } (Registry.ofSettings {}) c).selection.taken.Forall₂
        (Candidate.Retold {} c) css ∧
      Token.words (Pass.ofCursor { settings := {} } (Registry.ofSettings {}) c).after =
        .ok (respell css.flatten c.inner) := by
  generalize hcode : ("let f = #WeakSelfClosure \x7b run() \x7d\n" ++
    "@fluentSetterMacro(\"public\")\nstruct A \x7b var x: Int \x7d").toList = code
  have hfacts : ((Cursor.ofText code).map fun c =>
      ((Site.all (Registry.ofSettings {}) .member c.tokens).all fun x =>
        (c.source.take x.token.start).getLast?.all fun d =>
          !Text.isWord d && !Token.isOperatorChar d) &&
      ((memberCursors { settings := {} } (Registry.ofSettings {}) c).all fun p =>
        (p.1.access? p.2).all (· == "public".toList)) &&
      (Pass.ofCursor { settings := {} } (Registry.ofSettings {}) c).selection.taken.length ==
        2).toOption = some true := by
    rw [← hcode]
    decide +kernel
  cases hc : Cursor.ofText code with
  | error e => rw [hc] at hfacts; cases hfacts
  | ok c =>
    rw [hc] at hfacts
    simp only [Except.map, Except.toOption, Option.some.injEq, Bool.and_eq_true, List.all_eq_true,
      Option.all_eq_true, Bool.not_eq_true', beq_iff_eq] at hfacts
    obtain ⟨⟨hdetached, haccess⟩, htaken⟩ := hfacts
    have haccess : Accessible { settings := {} } (Registry.ofSettings {}) c := by
      intro p hp t ht
      rw [haccess p hp t ht]
      exact .inr ⟨["public".toList], by simp, by decide, rfl⟩
    exact ⟨c, rfl, hdetached, haccess, htaken, words_after {} hc hdetached haccess⟩

/-- Whether the words that a pass leaves are not those it would leave with the method it adds by
itself. -/
def unlike (s : Settings) (c : Cursor) (k : Candidate) : Bool :=
  match (Parser.seek k.site.token.start >>= fun _ => Parser.annotatedGroup k.site.token) c with
  | .ok (.ok g) _ =>
    match g.attributes.head?, g.setters with
    | some a, .ok l =>
      match (Setter.methods l.kind a.access (unitFor (Made.inner s c.source ⟨g, a, l⟩)
          s.indent) l.setters).map Token.words with
      | [.ok ls] => decide (k.expanded.edits = Made.edits s c.source ⟨g, a, l⟩) &&
        (Token.words (Pass.ofCursor { settings := s } (Registry.ofSettings s) c).after).toOption
          != some (respell (Made.changes ⟨g, a, l⟩ [ls]) c.inner)
      | _ => false
    | _, _ => false
  | _ => false

/-- The lines of a literal in a method are indented with it, and so are not the lexeme that the method
has by itself. -/
theorem words_after_literal : ∃ (c : Cursor) (m : Made) (ls : List Word), Cursor.ofText
      "@fluentSetterMacro\nstruct A \x7b\n    var x = y[\"\"\"\n    a\n    \"\"\"]\n\x7d".toList = .ok c ∧
    Detached (Registry.ofSettings {}) c ∧ Accessible { settings := {} } (Registry.ofSettings {}) c ∧
    (∃ k, (Pass.ofCursor { settings := {} } (Registry.ofSettings {}) c).selection.taken = [k] ∧
      k.site.Declares c m.group ∧ m.tag ∈ m.group.attributes.head? ∧
      m.group.setters = .ok m.list ∧ k.expanded.edits = m.edits {} c.source) ∧
    (Setter.methods m.list.kind m.tag.access (unitFor (m.inner {} c.source) (Settings.indent {}))
      m.list.setters).map Token.words = [.ok ls] ∧
    Token.words (Pass.ofCursor { settings := {} } (Registry.ofSettings {}) c).after ≠
      .ok (respell (m.changes [ls]) c.inner) := by
  generalize hcode : "@fluentSetterMacro\nstruct A \x7b\n    var x = y[\"\"\"\n    a\n    \"\"\"]\n\x7d".toList =
    code
  have hfacts : ((Cursor.ofText code).map fun c =>
      ((Site.all (Registry.ofSettings {}) .member c.tokens).all fun x =>
        (c.source.take x.token.start).getLast?.all fun d =>
          !Text.isWord d && !Token.isOperatorChar d) &&
      ((memberCursors { settings := {} } (Registry.ofSettings {}) c).all fun p =>
        (p.1.access? p.2).all (· == [])) &&
      (Pass.ofCursor { settings := {} } (Registry.ofSettings {}) c).selection.taken.length == 1 &&
      (Pass.ofCursor { settings := {} } (Registry.ofSettings {}) c).selection.taken.all
        (unlike {} c)).toOption = some true := by
    rw [← hcode]
    decide +kernel
  cases hc : Cursor.ofText code with
  | error e => rw [hc] at hfacts; cases hfacts
  | ok c =>
    rw [hc] at hfacts
    simp only [Except.map, Except.toOption, Option.some.injEq, Bool.and_eq_true, List.all_eq_true,
      Option.all_eq_true, Bool.not_eq_true', beq_iff_eq] at hfacts
    obtain ⟨⟨⟨hdetached, haccess⟩, hone⟩, hpass⟩ := hfacts
    have haccess : Accessible { settings := {} } (Registry.ofSettings {}) c := fun p hp t ht =>
      .inl (haccess p hp t ht)
    obtain ⟨k, hk⟩ := List.length_eq_one_iff.mp hone
    have hk' := hpass k (hk ▸ List.mem_singleton_self k)
    unfold unlike at hk'
    split at hk'
    next g c' hread =>
      split at hk'
      next a l ha hl =>
        split at hk'
        next ls hls =>
          rw [Bool.and_eq_true, decide_eq_true_eq, bne_iff_ne] at hk'
          exact ⟨c, ⟨g, a, l⟩, ls, rfl, hdetached, haccess, ⟨k, hk, ⟨c', hread⟩, ha, hl, hk'.1⟩, hls,
            fun heq => hk'.2 (by rw [heq, Except.toOption])⟩
        next => cases hk'
      next => cases hk'
    next => cases hk'

end Pass

end SwiftMacros
