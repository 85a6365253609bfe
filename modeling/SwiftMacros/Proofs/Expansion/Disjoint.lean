import Mathlib
import SwiftMacros.Proofs.Expansion.Edit
import SwiftMacros.Proofs.Grammar.Declaration
import SwiftMacros.Proofs.Text.Lines
import SwiftMacros.Expansion.Site
import SwiftMacros.Expansion.Pass

/-! What a site that expands has read, and where its edits stand. The attribute is removed in front
of the member block, and the members are inserted inside of it; an expression is replaced as a
whole. -/

namespace SwiftMacros

open SwiftMacros.Parser

namespace Edit

variable {code : Text} {start stop brace : Nat}

/-- A removal takes the attribute and white space around it, and ends before what follows. -/
theorem removal_bounds (hle : stop ≤ brace) (hb : code[brace]? = some '\x7b') :
    (removal code start stop).text = [] ∧ (removal code start stop).start ≤ start ∧
      stop ≤ (removal code start stop).stop ∧ (removal code start stop).stop ≤ brace := by
  have hlength := (List.getElem?_eq_some_iff.mp hb).1
  have hafter : (code.drop stop)[brace - stop]? = some '\x7b' := by
    rw [List.getElem?_drop, ← hb]
    congr 1
    omega
  rw [removal]
  have hstart := Text.lineStart_le code start
  have hend : stop ≤ Text.lineEnd code stop := Nat.le_add_right _ _
  split
  next h =>
    have hbrace : Text.lineEnd code stop ≤ brace := by
      by_contra hlt
      have hmem : '\x7b' ∈ Text.slice code stop (Text.lineEnd code stop) := by
        rw [List.mem_iff_getElem?]
        exact ⟨brace - stop, by rw [Text.slice, List.getElem?_take, if_pos (by omega), hafter]⟩
      have := List.all_eq_true.mp h.2 _ hmem
      cases this
    have hne : Text.lineEnd code stop ≠ brace := by
      intro heq
      rcases Text.lineEnd_eq (t := code) (n := stop) (by omega) with h | h
      · rw [heq, hb] at h
        cases h
      · omega
    refine ⟨rfl, hstart, ?_, ?_⟩ <;> simp only <;> omega
  next h =>
    have := Text.takeWhile_length_le (p := Text.isIndent) hafter rfl
    refine ⟨rfl, le_rfl, Nat.le_add_right _ _, ?_⟩
    simp only [Text.leadingIndent]
    omega

/-- Members are inserted between the braces. -/
theorem insertion_bounds {block : MemberBlock} (hlt : block.start + 1 < block.stop)
    (hle : block.stop ≤ code.length) (members : List Text) (outer inner : Text) :
    block.start < (insertion code block members outer inner).start ∧
      (insertion code block members outer inner).start ≤
        (insertion code block members outer inner).stop ∧
      (insertion code block members outer inner).stop = block.stop - 1 := by
  have htrim := Text.trimEnd_length_le (Text.slice code (block.start + 1) (block.stop - 1))
  rw [slice_length (by omega)] at htrim
  refine ⟨?_, ?_, rfl⟩ <;> simp only [insertion] <;> omega

end Edit

variable {ctx : Context} {s : Site} {c : Cursor}

/-- What stands at a site that has been read, and what its macro makes of it. -/
inductive Site.Answers (ctx : Context) (s : Site) (code : Text) : Production Expanded → Prop
  | member {c c' : Cursor} {g : Group} {a : Attribute} {as : List Attribute} (hs : c.Sound)
      (hl : c.Leads c') (source : c.source = code) (start : c.peek.start = s.token.start)
      (spans : g.Spans c c') (attributes : g.attributes = a :: as) (role : s.called.role = .member) :
      Answers ctx s code (Expanded.ofMember ctx code s.called g a)
  | expression {c c' : Cursor} {e : MacroExpansion} (hs : c.Sound) (hl : c.Leads c')
      (source : c.source = code) (start : c.peek.start = s.token.start)
      (reads : ReadsExpansion c e c') (role : s.called.role = .expression) :
      Answers ctx s code (Expanded.ofExpression ctx code s.called e)

/-- A site that has been read, or one of which there is no more to say than why it fails. -/
def Attempt.Answered (ctx : Context) (code : Text) (a : Attempt) : Prop :=
  a.site.Answers ctx code a.production ∨ ∃ e, a.production = ⟨.error e, []⟩

theorem Attempt.Answered.answers {code : Text} {a : Attempt} {x : Expanded}
    (h : a.Answered ctx code) (hx : a.production.result = .ok x) :
    a.site.Answers ctx code a.production := by
  rcases h with h | ⟨e, he⟩
  · exact h
  · rw [he] at hx
    cases hx

namespace Parser

theorem annotatedGroup_spec {t : Token} (hs : c.Sound) : Spec (annotatedGroup t) c fun r c' =>
    ∀ g, r = .ok g → g.Spans c c' := by
  refine Spec.bind (declaration_spec hs) fun d c₁ hl₁ hd => ?_
  cases d with
  | group g =>
    refine Spec.pure hl₁.sound ?_
    rintro _ ⟨rfl⟩
    exact hd g rfl
  | member m => exact Spec.pure hl₁.sound (by simp)

theorem memberSite_spec (hs : c.Sound) (hstart : c.peek.start = s.token.start)
    (hrole : s.called.role = .member) : Spec (memberSite ctx s) c fun p _ =>
      Attempt.Answered ctx c.source ⟨s, p⟩ := by
  refine Spec.get_bind (Spec.bind (annotatedGroup_spec hs) fun r c₁ hl₁ hr => ?_)
  cases r with
  | error e => exact Spec.pure hl₁.sound (.inr ⟨e, rfl⟩)
  | ok g =>
    have hg := hr g rfl
    dsimp only
    split
    next => exact Spec.pure hl₁.sound (.inr ⟨_, rfl⟩)
    next a as ha => exact Spec.pure hl₁.sound (.inl (.member hs hl₁ rfl hstart hg ha hrole))

theorem expressionSite_spec (hs : c.Sound) (hstart : c.peek.start = s.token.start)
    (hrole : s.called.role = .expression) : Spec (expressionSite ctx s) c fun p _ =>
      Attempt.Answered ctx c.source ⟨s, p⟩ :=
  Spec.get_bind (Spec.bind (expansion_spec hs) fun _ _ hl₁ he =>
    Spec.pure hl₁.sound (.inl (.expression hs hl₁ rfl hstart he hrole)))

end Parser

/-- An attempt leaves a sound cursor on the same tokens, and a site that expands has been read. -/
theorem Site.attempt_spec (ctx : Context) (s : Site) (hs : c.Sound) :
    c.Rereads (s.attempt ctx c).2 ∧ (s.attempt ctx c).1.Answered ctx c.source := by
  cases hseek : c.seek? s.token.start with
  | none =>
    have hp : ∀ p : Unit → Parser (Production Expanded), (seek s.token.start >>= p) c =
        .error (SyntaxError.mk (.noTokenAt s.token.start) 0 0) c := by
      intro p
      simp [seek, hseek, Bind.bind, EStateM.bind, get, getThe, MonadStateOf.get, EStateM.get, throw,
        throwThe, MonadExceptOf.throw, EStateM.throw]
    simp only [attempt, hp]
    exact ⟨hs.refl.rereads, .inr ⟨_, rfl⟩⟩
  | some found =>
    have hp : ∀ p : Unit → Parser (Production Expanded), (seek s.token.start >>= p) c = p () found := by
      intro p
      simp [seek, hseek, Bind.bind, EStateM.bind, get, getThe, MonadStateOf.get, EStateM.get, set,
        MonadStateOf.set, EStateM.set]
    obtain ⟨hfound, hstart⟩ := hs.seek hseek
    simp only [attempt, hp]
    rw [← hfound.source]
    have hmember (hrole : s.called.role = .member) : Spec (memberSite ctx s) found fun p _ =>
        Attempt.Answered ctx found.source ⟨s, p⟩ := memberSite_spec hfound.sound hstart hrole
    have hexpression (hrole : s.called.role = .expression) : Spec (expressionSite ctx s) found fun p _ =>
        Attempt.Answered ctx found.source ⟨s, p⟩ := expressionSite_spec hfound.sound hstart hrole
    split <;> rename_i heq <;> cases hrole : s.called.role <;> rw [hrole] at heq
    · obtain ⟨hl, hp⟩ := (hmember hrole).ok heq
      exact ⟨hfound.trans hl.rereads, hp⟩
    · obtain ⟨hl, hp⟩ := (hexpression hrole).ok heq
      exact ⟨hfound.trans hl.rereads, hp⟩
    · exact ⟨hfound.trans ((hmember hrole).error heq).rereads, .inr ⟨_, rfl⟩⟩
    · exact ⟨hfound.trans ((hexpression hrole).error heq).rereads, .inr ⟨_, rfl⟩⟩

end SwiftMacros

/-! The edits that a pass accepts are disjoint. Those of one site keep clear of each other, and a site
is taken only if its edits keep clear of all that are taken already; so the order in which the edits
are applied does not matter. -/

namespace SwiftMacros

namespace Edit

/-- `d` inserts text where the range of `e` starts, or inside of it. -/
def InsertsInto (d e : Edit) : Prop :=
  d.start = d.stop ∧ (d.start = e.start ∨ e.start < d.start ∧ d.start < e.stop)

/-- One of two edits ends no later than the other starts, and neither inserts into the other. -/
structure Apart (d e : Edit) : Prop where
  disjoint : d.stop ≤ e.start ∨ e.stop ≤ d.start
  left : ¬ d.InsertsInto e
  right : ¬ e.InsertsInto d

theorem Clear.apart {d e : Edit} (h : Clear d e) : d.Apart e := by
  have := clear_iff.mp h
  exact ⟨by omega, by rw [InsertsInto]; omega, by rw [InsertsInto]; omega⟩

end Edit

/-- The edits of an expansion replace ranges of the source and keep clear of each other. -/
structure Expanded.Fits (x : Expanded) (code : Text) : Prop where
  within : ∀ e ∈ x.edits, Edit.Within code e
  clear : x.edits.Pairwise Edit.Clear

theorem Production.map_ok {α β : Type} {p : Production α} {f : α → β} {b : β}
    (h : (p.map f).result = .ok b) : ∃ a, p.result = .ok a ∧ f a = b := by
  cases hp : p.result with
  | error e => simp [Production.map, hp, Except.map] at h
  | ok a => exact ⟨a, rfl, by simpa [Production.map, hp, Except.map] using h⟩

namespace Site.Answers

variable {ctx : Context} {s : Site} {code : Text} {p : Production Expanded} {x : Expanded}

theorem fits (h : s.Answers ctx code p) (hx : p.result = .ok x) : x.Fits code ∧
    (s.called.role = .expression → x.edits.map Edit.span = [x.span]) := by
  cases h with
  | @member c c' g a as hs hl source start spans attributes role =>
    obtain ⟨ms, -, rfl⟩ := Production.map_ok hx
    have ha : a ∈ g.attributes := by simp [attributes]
    have hblock := spans.block
    rw [hl.source.trans source] at hblock
    have hlt := spans.lt a ha
    have hbrace := hblock.lt
    have hle := hblock.le
    obtain ⟨-, hr1, hr2, hr3⟩ := (Edit.removal_bounds (spans.before a ha) hblock.opening :
      (Edit.removal code a.start a.stop).text = [] ∧ _)
    have hremoval : Edit.Within code (Edit.removal code a.start a.stop) := ⟨by omega, by omega⟩
    refine ⟨?_, by simp [role]⟩
    dsimp only
    by_cases hms : ms.isEmpty
    · exact ⟨by simpa [hms] using hremoval, by simp [hms]⟩
    · obtain ⟨hi1, hi2, hi3⟩ := Edit.insertion_bounds hblock.lt hle ms
        (Text.lineIndent code g.start)
        ((g.block.indent? code).getD (Text.lineIndent code g.start ++ ctx.indent))
      refine ⟨?_, ?_⟩
      · simpa [hms] using ⟨hremoval, ⟨hi2, by omega⟩⟩
      · simpa [hms] using Edit.clear_iff.mpr (.inl (by omega))
  | @expression c c' e hs hl source start reads role =>
    obtain ⟨t, -, rfl⟩ := Production.map_ok hx
    have hle := hl.sound.edge_le_length
    have hlt := reads.lt
    rw [hl.source, source, ← reads.stop] at hle
    rw [← reads.stop, ← reads.start] at hlt
    refine ⟨⟨?_, by simp⟩, fun _ => ?_⟩
    · simpa using ⟨hlt.le, hle⟩
    · simp [Edit.span]
      omega

end Site.Answers

section Attempts

variable {ctx : Context} {c : Cursor}

theorem Site.attempt_site (s : Site) : (s.attempt ctx c).1.site = s := by
  simp only [attempt]
  split <;> rfl

/-- Attempts one after the other are each made at a sound cursor on the same tokens. -/
theorem Site.attemptAll_spec (ctx : Context) (ss : List Site) (hs : c.Sound) :
    c.Rereads (attemptAll ctx ss c).2 ∧ ∀ a ∈ (attemptAll ctx ss c).1, a.site ∈ ss ∧
      a.Answered ctx c.source := by
  induction ss generalizing c with
  | nil => exact ⟨hs.refl.rereads, by simp [attemptAll]⟩
  | cons s ss ih =>
    obtain ⟨hs₁, ha⟩ := s.attempt_spec ctx hs
    obtain ⟨hs₂, has⟩ := ih hs₁.sound
    refine ⟨hs₁.trans hs₂, fun a hmem => ?_⟩
    rcases (List.mem_cons (a := a) (b := (s.attempt ctx c).1)).mp hmem with h | hmem
    · have hsite : (s.attempt ctx c).1.site = s := attempt_site s
      rw [← h] at hsite ha
      exact ⟨by simp [hsite], ha⟩
    · obtain ⟨hsite, hanswers⟩ := has a hmem
      exact ⟨by simp [hsite], hs₁.source ▸ hanswers⟩

/-- A site stands at one of the tokens. -/
theorem Site.token_mem_of_mem_all {r : Registry} {role : Role} {ts : List Token} {s : Site}
    (h : s ∈ Site.all r role ts) : s.token ∈ ts := by
  obtain ⟨t, ht, hsite⟩ := List.mem_filterMap.mp h
  split at hsite
  · obtain ⟨m, -, rfl⟩ := Option.map_eq_some_iff.mp hsite
    exact ht
  · cases hsite

theorem Site.role_of_mem_all {r : Registry} {role : Role} {ts : List Token} {s : Site}
    (h : s ∈ Site.all r role ts) : s.called.role = role := by
  obtain ⟨t, -, ht⟩ := List.mem_filterMap.mp h
  split at ht
  · obtain ⟨m, hm, rfl⟩ := Option.map_eq_some_iff.mp ht
    have := (Option.filter_eq_some_iff.mp hm).2
    simpa using this
  · cases ht

end Attempts

namespace Pass

open Edit (Clear)

variable {code : Text} {k : Candidate} {spans : List Span} {t : Selection}

/-- What a selection keeps to: it occupies the ranges of the edits taken, all clear of each other. -/
structure Selection.Sound (code : Text) (t : Selection) : Prop where
  occupied : t.occupied = (t.taken.flatMap (·.expanded.edits)).map Edit.span
  within : ∀ e ∈ t.taken.flatMap (·.expanded.edits), Edit.Within code e
  clear : (t.taken.flatMap (·.expanded.edits)).Pairwise Clear

namespace Selection.Sound

theorem take (h : t.Sound code) (hk : k.expanded.Fits code)
    (hspans : k.expanded.edits.map Edit.span = spans) (hfree : t.isOccupied spans = false) :
    (t.take k spans).Sound code := by
  obtain ⟨hocc, hwithin, hclear⟩ := h
  subst hspans
  have hedits : (t.take k (k.expanded.edits.map Edit.span)).taken.flatMap (·.expanded.edits) =
      t.taken.flatMap (·.expanded.edits) ++ k.expanded.edits := by
    simp [Selection.take]
  refine ⟨?_, ?_, ?_⟩
  · rw [hedits, List.map_append, ← hocc]
    rfl
  · rw [hedits]
    simpa [or_imp, forall_and] using ⟨by simpa using hwithin, hk.within⟩
  · rw [hedits, List.pairwise_append]
    refine ⟨hclear, hk.clear, fun d hd e he => ?_⟩
    have hall : ∀ a ∈ k.expanded.edits.map Edit.span, ∀ b ∈ t.occupied,
        Span.overlaps a b = false := by
      simpa [Selection.isOccupied, List.any_eq_false] using hfree
    have := hall e.span (List.mem_map_of_mem he) d.span (hocc ▸ List.mem_map_of_mem hd)
    exact Clear.symm this

theorem defer {reason : String} (h : t.Sound code) : (t.defer k reason).Sound code :=
  ⟨h.occupied, h.within, h.clear⟩

theorem addExpression (h : t.Sound code) (hk : k.expanded.Fits code)
    (hspan : k.expanded.edits.map Edit.span = [k.expanded.span]) : (t.addExpression k).Sound code := by
  rw [Selection.addExpression]
  split
  next => exact h.defer
  next hfree => exact h.take hk hspan (by simpa using hfree)

theorem addMember {markers : List Nat} (h : t.Sound code) (hk : k.expanded.Fits code) :
    (t.addMember markers k).Sound code := by
  simp only [Selection.addMember]
  split
  next => exact h.defer
  next =>
    split
    next => exact h.defer
    next hfree => exact h.take hk rfl (by simpa using hfree)

end Selection.Sound

/-- A property that every step of a selection keeps. -/
theorem foldl_sound {f : Selection → Candidate → Selection} {ks : List Candidate}
    (hf : ∀ k ∈ ks, ∀ t : Selection, t.Sound code → (f t k).Sound code) (h : t.Sound code) :
    (ks.foldl f t).Sound code := by
  induction ks generalizing t with
  | nil => exact h
  | cons k ks ih =>
    exact ih (fun k' hk' => hf k' (by simp [hk'])) (hf k (by simp) t h)

theorem mem_candidates {as : List Attempt} (h : k ∈ candidates as) :
    ∃ a ∈ as, a.site = k.site ∧ a.production.result = .ok k.expanded := by
  obtain ⟨a, ha, hk⟩ := List.mem_filterMap.mp h
  obtain ⟨x, hx, rfl⟩ := Option.map_eq_some_iff.mp hk
  refine ⟨a, ha, rfl, ?_⟩
  cases hp : a.production.result with
  | error e => simp [Attempt.expanded?, hp, Except.toOption] at hx
  | ok y => simpa [Attempt.expanded?, hp, Except.toOption] using hx

/-- The selection of a pass is sound. -/
theorem selection_sound {c : Cursor} (ctx : Context) (r : Registry) (hs : c.Sound) :
    ((Pass.ofCursor ctx r c).selection).Sound c.source := by
  obtain ⟨hs₁, hexpressions⟩ := Site.attemptAll_spec ctx (Site.all r .expression c.tokens) hs
  obtain ⟨-, hmembers⟩ := Site.attemptAll_spec ctx (Site.all r .member
    (Site.attemptAll ctx (Site.all r .expression c.tokens) c).2.tokens) hs₁.sound
  refine foldl_sound (fun k hk t ht => ?_) (foldl_sound (fun k hk t ht => ?_)
    ⟨rfl, by simp, .nil⟩)
  · obtain ⟨a, ha, hsite, hx⟩ := mem_candidates hk
    obtain ⟨hmem, hanswers⟩ := hmembers a ha
    rw [hs₁.source] at hanswers
    exact ht.addMember ((hanswers.answers hx).fits hx).1
  · obtain ⟨a, ha, hsite, hx⟩ := mem_candidates hk
    obtain ⟨hmem, hanswers⟩ := hexpressions a ha
    obtain ⟨hfits, hspan⟩ := (hanswers.answers hx).fits hx
    exact ht.addExpression hfits (hspan (Site.role_of_mem_all hmem))

/-- The edits that a pass accepts replace ranges of the source that are apart, and in whatever order
they are applied, the result is the source with each range replaced and all else kept. -/
theorem edits_disjoint {c : Cursor} (ctx : Context) (r : Registry) (h : Cursor.ofText code = .ok c) :
    (∀ e ∈ (Pass.ofCursor ctx r c).edits, e.start ≤ e.stop ∧ e.stop ≤ code.length) ∧
      (Pass.ofCursor ctx r c).edits.Pairwise Edit.Apart ∧
      ∀ es, es.Perm (Pass.ofCursor ctx r c).edits →
        Edit.applyAll code es = Edit.rewritten code (Pass.ofCursor ctx r c).edits := by
  obtain ⟨hs, hsource, -⟩ := Cursor.sound_ofText h
  obtain ⟨-, hwithin, hclear⟩ := selection_sound ctx r hs
  rw [hsource] at hwithin
  refine ⟨fun e he => ⟨(hwithin e he).le, (hwithin e he).stop_le⟩, hclear.imp fun h => h.apart, ?_⟩
  intro es hperm
  rw [Edit.applyAll_eq_rewritten (fun e he => hwithin e (hperm.mem_iff.mp he))
    ((hperm.pairwise_iff fun h => Clear.symm h).mpr hclear)]
  exact Edit.rewritten_perm hclear hperm

/-- A closure and a declaration with their three edits. -/
theorem edits_disjoint_closure_struct : ∃ c, Cursor.ofText
    "let f = #WeakSelfClosure { run() }\n@fluentSetterMacro\nstruct A { var x: Int }".toList =
      .ok c ∧ (Pass.ofCursor { settings := {} } (Registry.ofSettings {}) c).edits.length = 3 ∧
        (Pass.ofCursor { settings := {} } (Registry.ofSettings {}) c).edits.Pairwise Edit.Apart := by
  have hedits : ((Cursor.ofText
      "let f = #WeakSelfClosure { run() }\n@fluentSetterMacro\nstruct A { var x: Int }".toList).map
        fun c => (Pass.ofCursor { settings := {} } (Registry.ofSettings {}) c).edits.length).toOption =
          some 3 := by
    decide +kernel
  cases hc : Cursor.ofText
      "let f = #WeakSelfClosure { run() }\n@fluentSetterMacro\nstruct A { var x: Int }".toList with
  | error e => rw [hc] at hedits; cases hedits
  | ok c =>
    rw [hc] at hedits
    exact ⟨c, rfl, Option.some.inj hedits, (edits_disjoint _ _ hc).2.1⟩

end Pass

end SwiftMacros
