import Mathlib
import SwiftMacros.Proofs.Expansion.Disjoint

/-! What a pass takes and what it defers. Each candidate is one of the two. An expression is deferred
for one that is taken, starts before it and ends behind its start. A declaration is deferred for every
candidate among the expressions in it: if that one is taken, its marker lies in the declaration; if it
is deferred, then for an expression whose marker lies in the declaration too, or that starts before it
and so covers the attribute that is to be removed. -/

namespace SwiftMacros

theorem Span.overlaps_eq_false_iff {a b : Span} :
    a.overlaps b = false ↔ b.2 ≤ a.1 ∨ a.2 ≤ b.1 := by
  rw [Span.overlaps, Bool.and_eq_false_iff, decide_eq_false_iff_not, decide_eq_false_iff_not, not_lt,
    not_lt]

theorem Span.holds_eq_false_iff {a : Span} {n : Nat} :
    a.holds n = false ↔ n < a.1 ∨ a.2 ≤ n := by
  rw [Span.holds, Bool.and_eq_false_iff, decide_eq_false_iff_not, decide_eq_false_iff_not, not_le,
    not_lt]

namespace Site.Answers

variable {ctx : Context} {s : Site} {code : Text} {p : Production Expanded} {x : Expanded}

/-- What an expansion covers starts with the token of its site. -/
theorem span_start (h : s.Answers ctx code p) (hx : p.result = .ok x) :
    x.span.1 = s.token.start := by
  cases h with
  | member hs hl source start spans attributes role =>
    obtain ⟨ms, -, rfl⟩ := Production.map_ok hx
    exact spans.start.trans start
  | expression hs hl source start reads role =>
    obtain ⟨t, -, rfl⟩ := Production.map_ok hx
    exact reads.start.trans start

/-- A declaration starts with the attribute that is removed. -/
theorem removes_start (h : s.Answers ctx code p) (hx : p.result = .ok x)
    (hrole : s.called.role = .member) : ∃ e ∈ x.edits, e.start ≤ x.span.1 ∧ x.span.1 < e.stop := by
  cases h with
  | @member c c' g a as hs hl source start spans attributes role =>
    obtain ⟨ms, -, rfl⟩ := Production.map_ok hx
    have ha : a ∈ g.attributes := by simp [attributes]
    have hblock := spans.block
    rw [hl.source.trans source] at hblock
    have hlt := spans.lt a ha
    have hfirst : a.start = g.start := (spans.first a (by simp [attributes])).2.trans spans.start.symm
    obtain ⟨-, hr1, hr2, -⟩ := (Edit.removal_bounds (spans.before a ha) hblock.opening :
      (Edit.removal code a.start a.stop).text = [] ∧ _)
    refine ⟨Edit.removal code a.start a.stop, ?_, by dsimp only; omega, by dsimp only; omega⟩
    dsimp only
    split <;> simp
  | expression hs hl source start reads role => rw [role] at hrole; cases hrole

end Site.Answers

section Attempts

variable {ctx : Context} {c : Cursor}

theorem Site.attemptAll_sites (ctx : Context) (ss : List Site) (c : Cursor) :
    (attemptAll ctx ss c).1.map (·.site) = ss := by
  induction ss generalizing c with
  | nil => rfl
  | cons s ss ih => simp [attemptAll, ih, Site.attempt_site]

/-- Tokens stand in the order of the list, the end of the source last. -/
theorem Cursor.Sound.tokens_pairwise (h : c.Sound) :
    c.tokens.Pairwise fun t u => t.start < u.start := by
  have hplaced : ∀ t ∈ c.inner, Token.Placed c.source t := fun t ht => h.arranged.placed t ht
  show (c.inner ++ [c.eof]).Pairwise _
  rw [List.pairwise_append]
  refine ⟨?_, List.pairwise_singleton _ _, fun t ht u hu => ?_⟩
  · exact h.arranged.pairwise.imp_of_mem fun ht _ hle => (hplaced _ ht).lt.trans_le hle
  · rw [List.mem_singleton.mp hu, h.eof_start]
    exact (hplaced t ht).lt.trans_le (hplaced t ht).le

theorem Site.all_pairwise {r : Registry} {role : Role} (h : c.Sound) :
    (Site.all r role c.tokens).Pairwise fun s t => s.token.start < t.token.start := by
  rw [Site.all, List.pairwise_filterMap]
  refine h.tokens_pairwise.imp fun {t u} hlt a ha b hb => ?_
  split at ha
  · split at hb
    · obtain ⟨-, -, rfl⟩ := Option.map_eq_some_iff.mp ha
      obtain ⟨-, -, rfl⟩ := Option.map_eq_some_iff.mp hb
      exact hlt
    · cases hb
  · cases ha

end Attempts

namespace Pass

variable {k : Candidate} {ks : List Candidate} {markers : List Nat} {t u : Selection}

namespace Selection

/-- A later selection keeps what has been decided. -/
structure Extends (t u : Selection) : Prop where
  taken : t.taken ⊆ u.taken
  occupied : t.occupied ⊆ u.occupied
  deferred : t.deferred ⊆ u.deferred

/-- It has been decided whether the candidate is taken. -/
def Settles (t : Selection) (k : Candidate) : Prop := k ∈ t.taken ∨ k ∈ t.deferred.map Prod.fst

theorem Extends.refl (t : Selection) : t.Extends t := ⟨by simp, by simp, by simp⟩

theorem Extends.trans {v : Selection} (h : t.Extends u) (h' : u.Extends v) : t.Extends v :=
  ⟨List.Subset.trans h.taken h'.taken, List.Subset.trans h.occupied h'.occupied,
    List.Subset.trans h.deferred h'.deferred⟩

theorem Extends.settles (h : t.Extends u) (hk : t.Settles k) : u.Settles k :=
  hk.imp (fun hk => h.taken hk) (List.map_subset _ h.deferred ·)

theorem take_extends (t : Selection) (k : Candidate) (spans : List Span) :
    t.Extends (t.take k spans) ∧ (t.take k spans).Settles k :=
  ⟨⟨by simp [take], by simp [take], by simp [take]⟩, .inl (by simp [take])⟩

theorem defer_extends (t : Selection) (k : Candidate) (reason : String) :
    t.Extends (t.defer k reason) ∧ (t.defer k reason).Settles k :=
  ⟨⟨by simp [defer], by simp [defer], by simp [defer]⟩, .inr (by simp [defer])⟩

theorem addExpression_extends (t : Selection) (k : Candidate) :
    t.Extends (t.addExpression k) ∧ (t.addExpression k).Settles k := by
  unfold addExpression
  split
  · exact t.defer_extends k _
  · exact t.take_extends k _

theorem addMember_extends (markers : List Nat) (t : Selection) (k : Candidate) :
    t.Extends (t.addMember markers k) ∧ (t.addMember markers k).Settles k := by
  unfold addMember
  dsimp only
  split
  · exact t.defer_extends k _
  · split
    · exact t.defer_extends k _
    · exact t.take_extends k _

/-- A selection of one candidate after the other decides on all of them. -/
theorem foldl_extends {f : Selection → Candidate → Selection}
    (hf : ∀ t k, t.Extends (f t k) ∧ (f t k).Settles k) (t : Selection) :
    t.Extends (ks.foldl f t) ∧ ∀ k ∈ ks, (ks.foldl f t).Settles k := by
  induction ks generalizing t with
  | nil => exact ⟨.refl t, by simp⟩
  | cons k ks ih =>
    obtain ⟨hfirst, hk⟩ := hf t k
    obtain ⟨hrest, hks⟩ := ih (f t k)
    exact ⟨hfirst.trans hrest, List.forall_mem_cons.mpr ⟨hrest.settles hk, hks⟩⟩

/-- The ranges taken are those of the expressions, and each expression deferred starts in one of them,
behind its start. -/
structure Nested (t : Selection) : Prop where
  occupied : t.occupied = t.taken.map (·.expanded.span)
  deferred : ∀ d ∈ t.deferred.map Prod.fst, ∃ b ∈ t.taken,
    b.expanded.span.1 < d.expanded.span.1 ∧ d.expanded.span.1 < b.expanded.span.2

theorem Nested.addExpression (h : t.Nested)
    (hk : ∀ b ∈ t.taken, b.expanded.span.1 < k.expanded.span.1) : (t.addExpression k).Nested := by
  obtain ⟨hocc, hdef⟩ := h
  unfold Selection.addExpression
  split
  next hover =>
    refine ⟨hocc, ?_⟩
    -- the expression meets a range that is taken, which starts before it
    obtain ⟨s, hs, hs'⟩ : ∃ s ∈ t.occupied, Span.overlaps k.expanded.span s = true := by
      simpa [isOccupied] using hover
    rw [hocc] at hs
    obtain ⟨b, hb, rfl⟩ := List.mem_map.mp hs
    have hlt : k.expanded.span.1 < b.expanded.span.2 := by
      simp only [Span.overlaps, Bool.and_eq_true, decide_eq_true_eq] at hs'
      exact hs'.1
    simp only [defer, List.map_append, List.map_cons, List.map_nil, List.mem_append,
      List.mem_singleton]
    rintro d (hd | rfl)
    · exact hdef d hd
    · exact ⟨b, hb, hk b hb, hlt⟩
  next =>
    refine ⟨by simp [take, hocc], fun d hd => ?_⟩
    obtain ⟨b, hb, hbd⟩ := hdef d hd
    exact ⟨b, by simp [take, hb], hbd⟩

theorem taken_addExpression (t : Selection) (k : Candidate) :
    ∀ b ∈ (t.addExpression k).taken, b ∈ t.taken ∨ b = k := by
  unfold addExpression
  split
  · exact fun b hb => .inl hb
  · simp [take]

theorem mem_of_taken_addExpression {b : Candidate}
    (h : b ∈ (ks.foldl Selection.addExpression t).taken) : b ∈ t.taken ∨ b ∈ ks := by
  induction ks generalizing t with
  | nil => exact .inl h
  | cons k ks ih =>
    rcases ih h with hb | hb
    · exact (taken_addExpression t k b hb).imp id fun heq => by simp [heq]
    · exact .inr (by simp [hb])

/-- Expressions are deferred only inside of others if they come in source order. -/
theorem Nested.foldl (h : t.Nested)
    (hks : ks.Pairwise fun a b => a.expanded.span.1 < b.expanded.span.1)
    (hbefore : ∀ b ∈ t.taken, ∀ k ∈ ks, b.expanded.span.1 < k.expanded.span.1) :
    (ks.foldl Selection.addExpression t).Nested := by
  induction ks generalizing t with
  | nil => exact h
  | cons k ks ih =>
    obtain ⟨hk, hks⟩ := List.pairwise_cons.mp hks
    refine ih (h.addExpression fun b hb => hbefore b hb k (by simp)) hks fun b hb j hj => ?_
    rcases taken_addExpression t k b hb with hb | rfl
    · exact hbefore b hb j (by simp [hj])
    · exact hk j hj

/-- A declaration is taken if none of the markers lies in it and its edits keep clear of what is
occupied. -/
theorem free_of_taken_foldl (h : k ∈ (ks.foldl (addMember markers) t).taken) :
    k ∈ t.taken ∨ k ∈ ks ∧ (∀ m ∈ markers, Span.holds k.expanded.span m = false) ∧
      ∀ b ∈ t.occupied, ∀ e ∈ k.expanded.edits, Span.overlaps e.span b = false := by
  induction ks generalizing t with
  | nil => exact .inl h
  | cons j ks ih =>
    rcases ih h with hk | ⟨hk, hmarkers, hfree⟩
    · unfold addMember at hk
      dsimp only at hk
      split at hk
      · exact .inl hk
      · rename_i hmarkers
        split at hk
        · exact .inl hk
        · rename_i hfree
          rcases List.mem_append.mp hk with hk | hk
          · exact .inl hk
          · obtain rfl := List.mem_singleton.mp hk
            refine .inr ⟨by simp, by simpa [List.any_eq_false] using hmarkers, fun b hb e he => ?_⟩
            have hall : ∀ e ∈ k.expanded.edits, ∀ b ∈ t.occupied,
                Span.overlaps e.span b = false := by
              simpa [isOccupied, List.any_eq_false] using hfree
            exact hall e he b hb
    · exact .inr ⟨by simp [hk], hmarkers, fun b hb => hfree b ((addMember_extends markers t j).1.occupied hb)⟩

/-- If anything is deferred, there is a range that is occupied. -/
def Occupied (t : Selection) : Prop := t.deferred ≠ [] → t.occupied ≠ []

theorem occupied_of_isOccupied {spans : List Span} (h : t.isOccupied spans = true) :
    t.occupied ≠ [] := by
  intro hnil
  simp [isOccupied, hnil] at h

/-- Expressions are deferred for others, and those occupy their ranges. -/
theorem Occupied.foldl_addExpression (h : t.Occupied) (htaken : t.taken ≠ [] → t.occupied ≠ []) :
    (ks.foldl addExpression t).Occupied ∧
      ((ks.foldl addExpression t).taken ≠ [] → (ks.foldl addExpression t).occupied ≠ []) := by
  induction ks generalizing t with
  | nil => exact ⟨h, htaken⟩
  | cons k ks ih =>
    rw [List.foldl_cons]
    unfold addExpression
    split
    next hover => exact ih (fun _ => occupied_of_isOccupied hover) htaken
    next => exact ih (fun _ => by simp [take]) fun _ => by simp [take]

/-- Declarations are deferred for a marker or for a range that is occupied. -/
theorem Occupied.foldl_addMember (h : t.Occupied) (hmarkers : markers ≠ [] → t.occupied ≠ []) :
    (ks.foldl (addMember markers) t).Occupied := by
  induction ks generalizing t with
  | nil => exact h
  | cons k ks ih =>
    rw [List.foldl_cons]
    unfold addMember
    dsimp only
    split
    next hany =>
      refine ih (fun _ => hmarkers fun hnil => ?_) hmarkers
      simp [hnil] at hany
    next =>
      split
      next hover => exact ih (fun _ => occupied_of_isOccupied hover) hmarkers
      next =>
        exact ih (fun hdef => List.append_ne_nil_of_left_ne_nil (h hdef) _) fun hne =>
          List.append_ne_nil_of_left_ne_nil (hmarkers hne) _

end Selection

/-- Every candidate of a pass is taken or deferred. -/
theorem selection_settles (p : Pass) : ∀ k ∈ candidates p.expressions ++ candidates p.members,
    p.selection.Settles k := by
  set t := (candidates p.expressions).foldl Selection.addExpression {} with ht
  have hexpressions : ∀ k ∈ candidates p.expressions, t.Settles k :=
    (Selection.foldl_extends Selection.addExpression_extends {}).2
  have hselection : p.selection =
      (candidates p.members).foldl (Selection.addMember (t.taken.map (·.expanded.span.1))) t := rfl
  obtain ⟨hmembers, hsettles⟩ : t.Extends p.selection ∧
      ∀ k ∈ candidates p.members, p.selection.Settles k := by
    rw [hselection]
    exact Selection.foldl_extends (Selection.addMember_extends _) t
  intro k hk
  rcases List.mem_append.mp hk with hk | hk
  · exact hmembers.settles (hexpressions k hk)
  · exact hsettles k hk

theorem selection_occupied (p : Pass) : p.selection.Occupied := by
  have hstart : ({} : Selection).Occupied := by simp [Selection.Occupied]
  obtain ⟨h, htaken⟩ : ((candidates p.expressions).foldl Selection.addExpression {}).Occupied ∧ _ :=
    hstart.foldl_addExpression (by simp)
  exact h.foldl_addMember fun hne => htaken (by simpa using hne)

section Markers

variable {ctx : Context} {r : Registry} {c : Cursor}

/-- What an expansion among the attempts at the sites of a sound cursor answers to. -/
theorem answers_of_mem_candidates {ss : List Site} (hs : c.Sound)
    (hk : k ∈ candidates (Site.attemptAll ctx ss c).1) :
    ∃ p, k.site.Answers ctx c.source p ∧ p.result = .ok k.expanded ∧ k.site ∈ ss := by
  obtain ⟨a, ha, hsite, hx⟩ := mem_candidates hk
  obtain ⟨hmem, hanswers⟩ := (Site.attemptAll_spec ctx ss hs).2 a ha
  rw [← hsite]
  exact ⟨a.production, hanswers.answers hx, hx, hmem⟩

/-- The expressions of a pass come in source order. -/
theorem candidates_pairwise (hs : c.Sound) :
    (candidates (Site.attemptAll ctx (Site.all r .expression c.tokens) c).1).Pairwise
      fun a b => a.expanded.span.1 < b.expanded.span.1 := by
  have hstart : ∀ k ∈ candidates (Site.attemptAll ctx (Site.all r .expression c.tokens) c).1,
      k.expanded.span.1 = k.site.token.start := by
    intro k hk
    obtain ⟨p, hp, hx, -⟩ := answers_of_mem_candidates hs hk
    exact hp.span_start hx
  have hsites : (Site.attemptAll ctx (Site.all r .expression c.tokens) c).1.Pairwise
      fun a b => a.site.token.start < b.site.token.start := by
    have : (Site.all r .expression c.tokens).Pairwise fun s t => s.token.start < t.token.start :=
      Site.all_pairwise hs
    rw [← Site.attemptAll_sites ctx (Site.all r .expression c.tokens) c, List.pairwise_map] at this
    exact this
  have hcandidates : (candidates (Site.attemptAll ctx (Site.all r .expression c.tokens) c).1).Pairwise
      fun a b => a.site.token.start < b.site.token.start := by
    rw [candidates, List.pairwise_filterMap]
    refine hsites.imp fun hlt x hx y hy => ?_
    obtain ⟨-, -, rfl⟩ := Option.map_eq_some_iff.mp hx
    obtain ⟨-, -, rfl⟩ := Option.map_eq_some_iff.mp hy
    exact hlt
  exact hcandidates.imp_of_mem fun ha hb hlt => by rwa [hstart _ ha, hstart _ hb]

/-- A pass that defers a site accepts an edit. -/
theorem edits_ne_nil (hs : c.Sound) (h : (Pass.ofCursor ctx r c).selection.deferred ≠ []) :
    (Pass.ofCursor ctx r c).edits ≠ [] := by
  have hoccupied := (Pass.ofCursor ctx r c).selection_occupied h
  rw [(selection_sound ctx r hs).occupied, ne_eq, List.map_eq_nil_iff] at hoccupied
  exact hoccupied

/-- No expansion stands at an expression inside of a declaration that is taken. -/
theorem not_holds_of_taken (hs : c.Sound) {k a : Candidate}
    (hk : k ∈ (Pass.ofCursor ctx r c).selection.taken) (hrole : k.site.called.role = .member)
    (ha : a ∈ candidates (Pass.ofCursor ctx r c).expressions) :
    k.expanded.span.holds a.expanded.span.1 = false := by
  obtain ⟨hs₁, -⟩ := Site.attemptAll_spec ctx (Site.all r .expression c.tokens) hs
  have hnested : ((candidates (Pass.ofCursor ctx r c).expressions).foldl
      Selection.addExpression {}).Nested :=
    Selection.Nested.foldl ⟨rfl, by simp⟩ (candidates_pairwise hs) (by simp)
  have hsettles := (Selection.foldl_extends Selection.addExpression_extends {}).2 a ha
  have hexpression : ∀ b ∈ ((candidates (Pass.ofCursor ctx r c).expressions).foldl
      Selection.addExpression {}).taken, b.site.called.role = .expression := by
    intro b hb
    rcases Selection.mem_of_taken_addExpression hb with hb | hb
    · cases hb
    · obtain ⟨-, -, -, hmem⟩ := answers_of_mem_candidates hs hb
      exact Site.role_of_mem_all hmem
  generalize hselected : (candidates (Pass.ofCursor ctx r c).expressions).foldl
    Selection.addExpression {} = t at hnested hsettles hexpression
  have hselection : (Pass.ofCursor ctx r c).selection =
      (candidates (Pass.ofCursor ctx r c).members).foldl
        (Selection.addMember (t.taken.map (·.expanded.span.1))) t := by
    rw [← hselected]
    rfl
  rw [hselection] at hk
  rcases Selection.free_of_taken_foldl hk with hk | ⟨hk, hmarkers, hfree⟩
  · rw [hexpression k hk] at hrole
    cases hrole
  have houtside : ∀ b ∈ t.taken, k.expanded.span.holds b.expanded.span.1 = false := fun b hb =>
    hmarkers _ (List.mem_map_of_mem hb)
  rcases hsettles with ha | ha
  · exact houtside a ha
  -- the expression is deferred for one that starts before it
  obtain ⟨b, hb, hlt, hgt⟩ := hnested.deferred a ha
  obtain ⟨p, hp, hx, -⟩ := answers_of_mem_candidates hs₁.sound hk
  obtain ⟨e, he, he₁, he₂⟩ := hp.removes_start hx hrole
  have hclear := hfree b.expanded.span (by rw [hnested.occupied]; exact List.mem_map_of_mem hb) e he
  have hout := houtside b hb
  rw [Span.overlaps_eq_false_iff, Edit.span] at hclear
  rw [Span.holds_eq_false_iff] at hout ⊢
  omega

/-- A declaration is taken only if the attempt at every expression whose token lies in it fails; one
that has an expression in it which expands is deferred. -/
theorem declarations_last {code : Text} (ctx : Context) (r : Registry)
    (h : Cursor.ofText code = .ok c) :
    let p := Pass.ofCursor ctx r c
    p.expressions.map (·.site) = Site.all r .expression c.tokens ∧
      (∀ k ∈ p.selection.taken, k.site.called.role = .member → ∀ a ∈ p.expressions,
        k.expanded.span.holds a.site.token.start = true → ∃ e, a.failure? = some e) ∧
      ∀ k ∈ candidates p.members, ∀ a ∈ p.expressions, a.failure? = none →
        k.expanded.span.holds a.site.token.start = true → k ∈ p.selection.deferred.map Prod.fst := by
  obtain ⟨hs, -, -⟩ := Cursor.sound_ofText h
  obtain ⟨hs₁, -⟩ := Site.attemptAll_spec ctx (Site.all r .expression c.tokens) hs
  intro p
  have hexpands : ∀ a ∈ p.expressions, a.failure? = none → ∃ b ∈ candidates p.expressions,
      b.expanded.span.1 = a.site.token.start := by
    intro a ha hok
    obtain ⟨x, hx⟩ : ∃ x, a.production.result = .ok x := by
      unfold Attempt.failure? at hok
      split at hok
      · exact ⟨_, ‹_›⟩
      · cases hok
    have hb : (⟨a.site, x⟩ : Candidate) ∈ candidates p.expressions := by
      refine List.mem_filterMap.mpr ⟨a, ha, ?_⟩
      simp [Attempt.expanded?, hx, Except.toOption]
    obtain ⟨q, hq, hx', -⟩ := answers_of_mem_candidates hs hb
    exact ⟨_, hb, hq.span_start hx'⟩
  have htaken : ∀ k ∈ p.selection.taken, k.site.called.role = .member → ∀ a ∈ p.expressions,
      k.expanded.span.holds a.site.token.start = true → ∃ e, a.failure? = some e := by
    intro k hk hrole a ha hholds
    cases hf : a.failure? with
    | some e => exact ⟨e, rfl⟩
    | none =>
      obtain ⟨b, hb, hstart⟩ := hexpands a ha hf
      rw [← hstart, not_holds_of_taken hs hk hrole hb] at hholds
      cases hholds
  refine ⟨Site.attemptAll_sites ctx _ c, htaken, fun k hk a ha hok hholds => ?_⟩
  obtain ⟨-, -, -, hmem⟩ := answers_of_mem_candidates hs₁.sound hk
  rcases p.selection_settles k (List.mem_append_right _ hk) with hk | hk
  · obtain ⟨e, he⟩ := htaken k hk (Site.role_of_mem_all hmem) a ha hholds
    rw [hok] at he
    cases he
  · exact hk

/-- Of two declarations the one with a marker that has no closure is taken, the other is deferred. -/
theorem declarations_last_two : ∃ c, Cursor.ofText ("@fluentSetterMacro\nstruct A \x7b var f = " ++
      "#WeakSelfClosure(1) \x7d\n@fluentSetterMacro\nstruct B \x7b var g = " ++
        "#WeakSelfClosure \x7b a \x7d \x7d").toList = .ok c ∧
    (∃ k ∈ (Pass.ofCursor { settings := {} } (Registry.ofSettings {}) c).selection.taken,
      ∃ a ∈ (Pass.ofCursor { settings := {} } (Registry.ofSettings {}) c).expressions,
        k.site.called.role = .member ∧ k.expanded.span.holds a.site.token.start = true ∧
          ∃ e, a.failure? = some e) ∧
    ∃ k ∈ candidates (Pass.ofCursor { settings := {} } (Registry.ofSettings {}) c).members,
      ∃ a ∈ (Pass.ofCursor { settings := {} } (Registry.ofSettings {}) c).expressions,
        a.failure? = none ∧ k.expanded.span.holds a.site.token.start = true ∧
          k ∈ (Pass.ofCursor { settings := {} } (Registry.ofSettings {}) c).selection.deferred.map
            Prod.fst := by
  generalize hcode : ("@fluentSetterMacro\nstruct A \x7b var f = " ++
    "#WeakSelfClosure(1) \x7d\n@fluentSetterMacro\nstruct B \x7b var g = " ++
      "#WeakSelfClosure \x7b a \x7d \x7d").toList = code
  have hfacts : ((Cursor.ofText code).map fun c =>
      let p := Pass.ofCursor { settings := {} } (Registry.ofSettings {}) c
      p.selection.taken.any (fun k => decide (k.site.called.role = .member) &&
        p.expressions.any fun a => k.expanded.span.holds a.site.token.start) &&
      (candidates p.members).any fun k => p.expressions.any fun a =>
        a.failure?.isNone && k.expanded.span.holds a.site.token.start).toOption = some true := by
    rw [← hcode]
    decide +kernel
  cases hc : Cursor.ofText code with
  | error e => rw [hc] at hfacts; cases hfacts
  | ok c =>
    rw [hc] at hfacts
    obtain ⟨-, htaken, hdeferred⟩ :=
      declarations_last { settings := {} } (Registry.ofSettings {}) hc
    simp only [Except.map, Except.toOption, Option.some.injEq, Bool.and_eq_true, List.any_eq_true,
      decide_eq_true_eq, Option.isNone_iff_eq_none] at hfacts
    obtain ⟨⟨k, hk, hrole, a, ha, hholds⟩, j, hj, b, hb, hok, hholds'⟩ := hfacts
    exact ⟨c, rfl, ⟨k, hk, a, ha, hrole, hholds, htaken k hk hrole a ha hholds⟩,
      j, hj, b, hb, hok, hholds', hdeferred j hj b hb hok hholds'⟩

end Markers

end Pass

end SwiftMacros
