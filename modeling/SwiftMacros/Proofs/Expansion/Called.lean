import Mathlib
import SwiftMacros.Proofs.Expansion.Copies

/-! A pass over markers that are read with closures behind them. Each of them is tried from a cursor that has read
others before, and expanded; the outermost ones are taken, and what stands behind the others is copied into the next
source. So each marker of the next source is read with a closure behind it as well, and they are in one another less
deep. -/

/-- One more element counts. -/
theorem List.countP_lt_countP {α : Type} {p q : α → Bool} {l : List α} {a : α} (h : ∀ x ∈ l, p x = true → q x = true)
    (ha : a ∈ l) (hp : p a = false) (hq : q a = true) : l.countP p < l.countP q := by
  obtain ⟨xs, ys, rfl⟩ := List.append_of_mem ha
  rw [countP_append, countP_append, countP_cons_of_neg (by simp [hp]), countP_cons_of_pos hq]
  have hxs := countP_mono_left fun x hx => h x (mem_append_left (a :: ys) hx)
  have hys := countP_mono_left fun x hx => h x (mem_append_right xs (mem_cons_of_mem a hx))
  omega

namespace SwiftMacros

open Token (Word Tail Shallow Held)
open Pass (Candidate Selection)

/-- Whether a registry has an expression macro for a lexeme. -/
def Registry.marks (r : Registry) (w : Word) : Bool :=
  w.1 == .poundName && (r.withRole? (w.2.drop 1) .expression).isSome

section Marks

variable {r : Registry} {ts : List Token} {t : Token} {x : Site} {w : Word}

theorem Registry.kind_of_marks (h : r.marks w = true) : w.1 = .poundName := by
  simp only [marks, Bool.and_eq_true, beq_iff_eq] at h
  exact h.1

theorem Site.marks_of_mem_all (h : x ∈ Site.all r .expression ts) : x.token ∈ ts ∧ r.marks x.token.word = true := by
  obtain ⟨t, ht, hx⟩ := List.mem_filterMap.mp h
  split at hx
  next hk =>
    obtain ⟨m, hm, rfl⟩ := Option.map_eq_some_iff.mp hx
    have hk : t.word.1 = .poundName := hk
    exact ⟨ht, by rw [Registry.marks, hk, show t.word.2 = t.text from rfl, hm]; rfl⟩
  next => cases hx

theorem Site.exists_of_marks (ht : t ∈ ts) (h : r.marks t.word = true) :
    ∃ x ∈ Site.all r .expression ts, x.token = t := by
  simp only [Registry.marks, Bool.and_eq_true, beq_iff_eq, Option.isSome_iff_exists] at h
  obtain ⟨hk, m, hm⟩ := h
  exact ⟨⟨m, t⟩, List.mem_filterMap.mpr ⟨t, ht, by
    rw [if_pos (show t.kind = tokenKind .expression from hk)]
    simpa [Token.word] using hm⟩, rfl⟩

end Marks

section Sites

variable {r : Registry} {ctx : Context} {c d : Cursor} {x : Site}

/-- The marker at a site is read with the closure `f` behind it, up to the brace `z`, and gives way to that closure
with the weak capture. -/
structure Site.Rewrites (ctx : Context) (r : Registry) (c : Cursor) (x : Site) (y : Expanded) (f : Closure) (z : Token) :
    Prop where
  calls : ∃ d s o B c₁, c.Visits r.marks d ∧ d.peek = x.token ∧ d.Calls s f o B z c₁
  span : y.span = (x.token.start, z.stop)
  edits : y.edits = [⟨x.token.start, z.stop, WeakSelf.replacement ctx c.source x.token.start f⟩]

/-- What stands behind the marker in the source. -/
theorem Site.Rewrites.origin {y : Expanded} {f : Closure} {z : Token} (h : x.Rewrites ctx r c y f z) (hs : c.Sound)
    (hx : x ∈ Site.all r .expression c.tokens) :
    ∃ X A o B R, c.inner = X ++ x.token :: (A ++ o :: B ++ [z]) ++ R ∧ Token.Block A o B z := by
  obtain ⟨d, s, o, B, c₁, hd, hpeek, hcalls⟩ := h.calls
  obtain ⟨X, A, B₀, R, hinner, hblock, -⟩ :=
    hcalls.origin (fun _ => Registry.kind_of_marks) hs hd (hpeek ▸ (Site.marks_of_mem_all hx).2)
  exact ⟨X, A, o, B₀, R, hpeek ▸ hinner, hblock⟩

/-- A marker that starts in what is covered is that one, or stands in front of the closing brace. -/
theorem Site.inside {X A B R xs us : List Token} {o z t : Token} (hs : c.Sound)
    (hinner : c.inner = X ++ x.token :: (A ++ o :: B ++ [z]) ++ R) (hblock : Token.Block A o B z)
    (hc : c.inner = xs ++ t :: us) (ht : t.kind = .poundName) (hne : x.token ≠ t) (hle : x.token.start ≤ t.start)
    (hlt : t.start < z.stop) : ∃ Y V, A ++ o :: B = Y ++ t :: V ∧ us = V ++ z :: R := by
  have htc : t ∈ c.inner := by simp [hc]
  have hpos := (hs.arranged.placed t htc).lt
  have hbefore : x.token.stop ≤ t.start := (hs.ordered (by simp [hinner]) htc hne).resolve_right (by omega)
  have hz : t ≠ z := fun heq => by
    have := Token.kind_of_isSymbol hblock.closing
    simp [← heq, ht] at this
  have hin : t.stop ≤ z.start := (hs.ordered htc (by simp [hinner]) hz).resolve_right (by omega)
  exact hs.between (P := X) (o := x.token) (by simp [hinner]) hc hbefore (by omega)

theorem Site.Rewrites.lt {y : Expanded} {f : Closure} {z : Token} (h : x.Rewrites ctx r c y f z) (hs : c.Sound)
    (hx : x ∈ Site.all r .expression c.tokens) : x.token.start < z.stop := by
  obtain ⟨X, A, o, B, R, hinner, -⟩ := h.origin hs hx
  exact hs.start_lt (P := X) (W := x.token :: (A ++ o :: B)) (Q := R) (by simp [hinner]) (by simp)

/-- Where each marker is read with a closure behind it, it gives way to that. -/
theorem Site.attempt_called (hs : c.Sound) (hcalled : c.Called r.marks) (hd : c.Visits r.marks d)
    (hx : x ∈ Site.all r .expression c.tokens) (hweak : x.called.action = .weakCapture) :
    ∃ y f z c₁, x.attempt ctx d = (⟨x, ⟨.ok y, []⟩⟩, c₁) ∧ x.Rewrites ctx r c y f z ∧ c.Visits r.marks c₁ := by
  obtain ⟨hmem, hmark⟩ := Site.marks_of_mem_all hx
  have hkind : x.token.kind = .poundName := Registry.kind_of_marks hmark
  have hrereads := hd.rereads hs
  obtain ⟨xs, us, hinner⟩ : ∃ xs us, d.inner = xs ++ x.token :: us := by
    have hin : x.token ∈ c.inner := (List.mem_append.mp hmem).resolve_right fun h => by
      simp [List.mem_singleton.mp h, hs.eof_kind] at hkind
    obtain ⟨xs, us, hc⟩ := List.append_of_mem hin
    obtain ⟨xs', us', h, -⟩ := (hc ▸ hrereads.refines).divide_at (by simp [hkind])
    exact ⟨xs', us', h⟩
  obtain ⟨d₁, hseek, -, hahead, hread⟩ := hrereads.sound.seek_to hinner
  have hpeek : d₁.peek = x.token := by simp [Cursor.peek, hahead]
  have hd₁ : c.Visits r.marks d₁ := hd.seek hseek
  obtain ⟨s, k, o, B, z, c₁, hcalls⟩ := hcalled.reads d₁ hd₁ (hpeek ▸ hmark)
  obtain ⟨e, he, htrailing⟩ := hcalls.reads
  obtain ⟨d₂, -, hbraces⟩ := hcalls.braces
  have hspans := ((Parser.expansion_spec hread.sound).ok he).2
  have hstart : e.start = x.token.start := by rw [hspans.start, hpeek]
  have hstop : e.stop = z.stop := by rw [hspans.stop, hbraces.edge_eq]
  have hp : (Parser.seek x.token.start >>= fun _ => Parser.expressionSite ctx x) d =
      .ok (Expanded.ofExpression ctx c.source x.called e) c₁ := by
    rw [Parser.bind_of_ok hseek, Parser.expressionSite, Parser.run_get_bind, Parser.bind_of_ok he,
      (hd₁.rereads hs).source]
    rfl
  refine ⟨?_, k, z, c₁, ?attempt, ⟨⟨d₁, s, o, B, c₁, hd₁, hpeek, hcalls⟩, ?span, ?edits⟩, hd₁.read (hpeek ▸ hmark) he⟩
  case attempt =>
    simp only [Site.attempt, Site.role_of_mem_all hx]
    rw [hp]
    simp only [Expanded.ofExpression, Macro.expandExpression, hweak, WeakSelf.weaken, htrailing]
    rfl
  case span => rw [hstart, hstop]
  case edits =>
    rw [hstart, hstop]
    rfl


/-- Where each marker is read with a closure behind it, so it is from any cursor at which a site is attempted. -/
theorem Site.visits_of_mem_cursors {ss : List Site} (hs : c.Sound) (hcalled : c.Called r.marks)
    (hss : ∀ x ∈ ss, x ∈ Site.all r .expression c.tokens ∧ x.called.action = .weakCapture)
    (hd : c.Visits r.marks d) {q : Site × Cursor} (hq : q ∈ Site.cursors ctx ss d) :
    q.1 ∈ ss ∧ c.Visits r.marks q.2 := by
  induction ss generalizing d with
  | nil => cases hq
  | cons x ss ih =>
    obtain ⟨⟨hx, hweak⟩, hss⟩ := List.forall_mem_cons.mp hss
    rcases List.mem_cons.mp hq with rfl | hq
    · exact ⟨by simp, hd⟩
    · obtain ⟨y, f, z, c₁, hattempt, -, hd₁⟩ := Site.attempt_called hs hcalled hd hx hweak
      rw [hattempt] at hq
      obtain ⟨hmem, hvisits⟩ := ih hss hd₁ hq
      exact ⟨by simp [hmem], hvisits⟩

end Sites

namespace Pass

variable {s : Settings} {c : Cursor} {p : Pass} {k : Candidate} {t : Token} {n : Nat}

/-- How deep the expressions of a pass are in one another: at the start of each, those are counted that it
stands in. -/
def depth (p : Pass) : Nat :=
  ((candidates p.expressions).map fun k =>
    (candidates p.expressions).countP fun b => b.expanded.span.holds k.expanded.span.1).foldr max 0

theorem le_depth (hk : k ∈ candidates p.expressions) :
    ((candidates p.expressions).countP fun b => b.expanded.span.holds k.expanded.span.1) ≤ p.depth := by
  have hfold : ∀ {ns : List Nat} {n : Nat}, n ∈ ns → n ≤ ns.foldr max 0 := fun {ns n} h => by
    induction ns with
    | nil => cases h
    | cons m ns ih =>
      rcases List.mem_cons.mp h with rfl | h
      · exact le_max_left _ _
      · exact (ih h).trans (le_max_right _ _)
  exact hfold (List.mem_map_of_mem hk)

theorem Selection.mem_of_deferred_addExpression {ks : List Candidate} {t : Selection} {a : Candidate × Text}
    (h : a ∈ (ks.foldl Selection.addExpression t).deferred) : a ∈ t.deferred ∨ a.1 ∈ ks := by
  induction ks generalizing t with
  | nil => exact .inl h
  | cons k ks ih =>
    rcases ih h with ha | ha
    · rw [addExpression] at ha
      split at ha
      · rcases List.mem_append.mp ha with ha | ha
        · exact .inl ha
        · obtain rfl := List.mem_singleton.mp ha
          exact .inr (by simp)
      · exact .inl ha
    · exact .inr (by simp [ha])

section Called

variable (h : Cursor.ofText p.code = .ok c) (hp : Pass.ofCursor { settings := s } (Registry.ofSettings s) c = p)
include h hp

/-- Where no declaration is annotated, a pass attempts expressions only. -/
theorem members_eq_nil (hmembers : Site.all (Registry.ofSettings s) .member c.tokens = []) : p.members = [] := by
  obtain ⟨hread, -⟩ := Site.attemptAll_spec { settings := s } (Site.all (Registry.ofSettings s) .expression c.tokens)
    (Cursor.sound_ofText h).1
  rw [← hp]
  show (Site.attemptAll _ (Site.all _ .member _) _).1 = []
  rw [Site.all_of_rereads hread, hmembers]
  rfl

/-- A pass over expressions selects among them only. -/
theorem selection_expressions (hmembers : Site.all (Registry.ofSettings s) .member c.tokens = []) :
    p.selection = (candidates p.expressions).foldl Selection.addExpression {} := by
  rw [selection, members_eq_nil h hp hmembers]
  rfl

section Attempts

variable (hcalled : c.Called (Registry.ofSettings s).marks)
include hcalled

/-- Each attempt expands a marker. -/
theorem attempt_called {a : Attempt} (ha : a ∈ p.expressions) : ∃ y f z, a.production.result = .ok y ∧
    a.site ∈ Site.all (Registry.ofSettings s) .expression c.tokens ∧
      a.site.Rewrites { settings := s } (Registry.ofSettings s) c y f z := by
  have hs := (Cursor.sound_ofText h).1
  rw [← hp] at ha
  replace ha : a ∈ (Site.attemptAll { settings := s } (Site.all (Registry.ofSettings s) .expression c.tokens) c).1 := ha
  rw [Site.attemptAll_cursors] at ha
  obtain ⟨q, hq, rfl⟩ := List.mem_map.mp ha
  obtain ⟨hx, hd⟩ := Site.visits_of_mem_cursors hs hcalled
    (fun x hx => ⟨hx, Site.weakCapture_of_mem_all hx⟩) .here hq
  obtain ⟨y, f, z, c₁, hattempt, hrewrites, -⟩ :=
    Site.attempt_called hs hcalled hd hx (Site.weakCapture_of_mem_all hx)
  rw [hattempt]
  exact ⟨y, f, z, rfl, hx, hrewrites⟩

theorem candidate_called (hk : k ∈ candidates p.expressions) : ∃ f z,
    k.site ∈ Site.all (Registry.ofSettings s) .expression c.tokens ∧
      k.site.Rewrites { settings := s } (Registry.ofSettings s) c k.expanded f z := by
  obtain ⟨a, ha, hsite, hx⟩ := mem_candidates hk
  obtain ⟨y, f, z, hy, hmem, hrewrites⟩ := attempt_called h hp hcalled ha
  obtain rfl : y = k.expanded := Except.ok.inj (hy.symm.trans hx)
  exact ⟨f, z, hsite ▸ hmem, hsite ▸ hrewrites⟩

/-- Each marker is a candidate. -/
theorem exists_candidate (ht : t ∈ c.inner) (hmark : (Registry.ofSettings s).marks t.word = true) :
    ∃ k ∈ candidates p.expressions, k.site.token = t := by
  obtain ⟨x, hx, rfl⟩ := Site.exists_of_marks (List.mem_append_left [c.eof] ht) hmark
  have hsites : p.expressions.map (·.site) = Site.all (Registry.ofSettings s) .expression c.tokens := by
    rw [← hp]
    exact Site.attemptAll_sites _ _ c
  obtain ⟨a, ha, rfl⟩ := List.mem_map.mp (hsites ▸ hx)
  obtain ⟨y, f, z, hy, -⟩ := attempt_called h hp hcalled ha
  exact ⟨⟨a.site, y⟩, List.mem_filterMap.mpr ⟨a, ha, by simp [Attempt.expanded?, hy, Except.toOption]⟩, rfl⟩

end Attempts

theorem selection_nested (hmembers : Site.all (Registry.ofSettings s) .member c.tokens = []) : p.selection.Nested := by
  have hpair : (candidates p.expressions).Pairwise fun a b => a.expanded.span.1 < b.expanded.span.1 := by
    rw [← hp]
    exact candidates_pairwise (Cursor.sound_ofText h).1
  rw [selection_expressions h hp hmembers]
  exact .foldl ⟨rfl, by simp⟩ hpair (by simp)

theorem candidate_of_taken (hmembers : Site.all (Registry.ofSettings s) .member c.tokens = [])
    (hk : k ∈ p.selection.taken) : k ∈ candidates p.expressions := by
  rw [selection_expressions h hp hmembers] at hk
  exact (Selection.mem_of_taken_addExpression hk).resolve_left (by simp)

section Edits

variable (hmembers : Site.all (Registry.ofSettings s) .member c.tokens = []) (hcalled : c.Called (Registry.ofSettings s).marks)
include hmembers hcalled

/-- Each marker stands where an edit replaces the source. -/
theorem exists_edit (ht : t ∈ c.inner) (hmark : (Registry.ofSettings s).marks t.word = true) :
    ∃ e ∈ p.edits, e.start ≤ t.start ∧ t.start < e.stop := by
  obtain ⟨k, hk, rfl⟩ := exists_candidate h hp hcalled ht hmark
  obtain ⟨f, z, hx, hrewrites⟩ := candidate_called h hp hcalled hk
  have hstart : k.expanded.span.1 = k.site.token.start := by rw [hrewrites.span]
  rcases selection_settles p k (List.mem_append_left _ hk) with hk | hd
  · exact ⟨_, List.mem_flatMap.mpr ⟨k, hk, by rw [hrewrites.edits]; exact List.mem_singleton_self _⟩, le_rfl,
      hrewrites.lt (Cursor.sound_ofText h).1 hx⟩
  · obtain ⟨b, hb, hlt, hlt'⟩ := (selection_nested h hp hmembers).deferred k hd
    obtain ⟨f', z', -, hrewrites'⟩ := candidate_called h hp hcalled (candidate_of_taken h hp hmembers hb)
    refine ⟨_, List.mem_flatMap.mpr ⟨b, hb, by rw [hrewrites'.edits]; exact List.mem_singleton_self _⟩, ?_⟩
    rw [hrewrites'.span, hstart] at hlt hlt'
    exact ⟨hlt.le, hlt'⟩

/-- What is put in place of a marker holds what is behind the markers in its closure. -/
theorem edit_holds (hdeep : Shallow (Registry.ofSettings s).marks (n + 1) c.inner) :
    ∀ e ∈ p.edits, e.Holds (Registry.ofSettings s).marks (c.Inside (Registry.ofSettings s).marks n) p.code := by
  intro e he
  obtain ⟨k, hk, he⟩ := List.mem_flatMap.mp he
  obtain ⟨f, z, hx, hrewrites⟩ := candidate_called h hp hcalled (candidate_of_taken h hp hmembers hk)
  obtain ⟨hs, hsource, -⟩ := Cursor.sound_ofText h
  obtain ⟨d, s', o, B, c₁, hd, hpeek, hcalls⟩ := hrewrites.calls
  rw [hrewrites.edits, List.mem_singleton] at he
  subst he
  have hm := fun w => Registry.kind_of_marks (r := Registry.ofSettings s) (w := w)
  have hmark := hpeek ▸ (Site.marks_of_mem_all hx).2
  obtain ⟨X, A, B₀, R, hinner, hblock, -⟩ := hcalls.origin hm hs hd hmark
  refine ⟨hsource ▸ (Site.sigil_of_mem_all hs hx (.tail _ (.head _))).2, ?_, WeakSelf.replacement_head _ _ _ _,
    fun g r => ?_⟩
  · exact hsource ▸ (hs.arranged.placed z (by simp [hinner])).cut_stop (by simp [Token.kind_of_isSymbol hblock.closing])
  · exact hcalls.replacement_bears hm hs hd hmark h hcalled hdeep (by simp) _ _ g r

end Edits


section Depth

variable (hcalled : c.Called (Registry.ofSettings s).marks)
include hcalled

/-- What a marker stands in, another one stands in that is behind it up to the end of its block. -/
theorem holds_inner {X S R : List Token} {u : Token} (hk : k ∈ candidates p.expressions) (hc : c.inner = X ++ t :: S ++ R)
    (ht : t.kind = .poundName) (hS : Token.segment [] false S = true) (hu : u ∈ S)
    (hholds : k.expanded.span.holds t.start = true) : k.expanded.span.holds u.start = true := by
  obtain ⟨hs, -⟩ := Cursor.sound_ofText h
  obtain ⟨f, z, hx, hrewrites⟩ := candidate_called h hp hcalled hk
  obtain ⟨X', A, o, B, R', hinner, hblock⟩ := hrewrites.origin hs hx
  rw [hrewrites.span] at hholds ⊢
  simp only [Span.holds, Bool.and_eq_true, decide_eq_true_eq] at hholds ⊢
  have htc : t ∈ c.inner := by simp [hc]
  have hpair := hs.arranged.pairwise
  rw [hc] at hpair
  have hlater := (List.pairwise_cons.mp (List.pairwise_append.mp (List.pairwise_append.mp hpair).1).2.1).1 u hu
  have hlt := (hs.arranged.placed t htc).lt
  refine ⟨by omega, ?_⟩
  suffices hin : ∃ P W Q, c.inner = P ++ (W ++ [z]) ++ Q ∧ u ∈ W ++ [z] by
    obtain ⟨P, W, Q, hsplit, hu⟩ := hin
    exact hs.start_lt hsplit hu
  rcases eq_or_ne k.site.token t with heq | hne
  · -- both have the same block behind them
    have hnodup : c.inner.Nodup := by
      have := hs.nodup_ahead
      rwa [← List.nil_append c.ahead, ← List.reverse_nil, ← (Cursor.laid_ofText h).2.1] at this
    rw [heq] at hinner
    obtain ⟨rfl, hrest⟩ := Token.split_unique (show (X ++ t :: (S ++ R)).Nodup by simpa [hc] using hnodup)
      (show _ = X' ++ t :: ((A ++ o :: B ++ [z]) ++ R') by simpa [hc] using hinner)
    obtain ⟨rfl, -⟩ := Token.segment_unique hS hblock.segment hrest
    exact ⟨X ++ [t], A ++ o :: B, R', by simp [hinner], hu⟩
  · -- the other one stands in the block
    obtain ⟨Y, V, hY, hV⟩ := Site.inside hs hinner hblock (show c.inner = X ++ t :: (S ++ R) by simp [hc]) ht hne
      hholds.1 hholds.2
    obtain ⟨vs, hvs, -⟩ := hblock.inner
      (show A ++ o :: B ++ [z] = Y ++ t :: (V ++ [z]) by rw [hY]; simp) ht hS
      (show S <+: V ++ [z] ++ R' from ⟨R, by simpa using hV⟩)
    refine ⟨X' ++ k.site.token :: (Y ++ [t]), V, R', ?_, hvs ▸ List.mem_append_left vs hu⟩
    rw [hinner, hY]
    simp

/-- A marker that stands in another one stands in more candidates. -/
theorem deeper {X S R : List Token} {u : Token} (hc : c.inner = X ++ t :: S ++ R) (ht : t.kind = .poundName)
    (hS : Token.segment [] false S = true) (hu : u ∈ S) (hmark : (Registry.ofSettings s).marks u.word = true) :
    ((candidates p.expressions).countP fun b => b.expanded.span.holds t.start) <
        ((candidates p.expressions).countP fun b => b.expanded.span.holds u.start) ∧
      ((candidates p.expressions).countP fun b => b.expanded.span.holds u.start) ≤ p.depth := by
  obtain ⟨hs, -⟩ := Cursor.sound_ofText h
  obtain ⟨k, hk, rfl⟩ := exists_candidate h hp hcalled (by rw [hc]; simp [hu]) hmark
  obtain ⟨f, z, hx, hrewrites⟩ := candidate_called h hp hcalled hk
  have hspan : k.expanded.span = (k.site.token.start, z.stop) := hrewrites.span
  refine ⟨List.countP_lt_countP (fun b hb => holds_inner h hp hcalled hb hc ht hS hu) hk ?_ ?_, ?_⟩
  · -- it starts behind the other one
    have hpair := hs.arranged.pairwise
    rw [hc] at hpair
    have hle := (List.pairwise_cons.mp (List.pairwise_append.mp (List.pairwise_append.mp hpair).1).2.1).1 _ hu
    have hlt := (hs.arranged.placed t (by simp [hc])).lt
    simp only [hspan, Span.holds, Bool.and_eq_false_iff, decide_eq_false_iff_not]
    omega
  · simpa [hspan, Span.holds] using hrewrites.lt hs hx
  · have := le_depth hk
    rwa [hspan] at this

/-- The deeper a marker stands, the less deep are those that stand in it. -/
theorem shallow_of_depth {X S R : List Token} (hc : c.inner = X ++ t :: S ++ R)
    (ht : (Registry.ofSettings s).marks t.word = true) (hS : Token.segment [] false S = true)
    (hd : p.depth ≤ ((candidates p.expressions).countP fun b => b.expanded.span.holds t.start) + n) :
    Shallow (Registry.ofSettings s).marks n S := by
  induction n generalizing X t S R with
  | zero =>
    intro u hu
    by_contra hmark
    have := deeper h hp hcalled hc (Registry.kind_of_marks ht) hS hu (by simpa using hmark)
    omega
  | succ n ih =>
    rintro xs u S' ys rfl hu hS'
    have := deeper h hp hcalled hc (Registry.kind_of_marks ht) hS (by simp) hu
    exact ih (X := X ++ t :: xs) (R := ys ++ R) (by simp [hc]) hu hS' (by omega)

/-- Markers are no deeper in one another than the expressions of the pass. -/
theorem shallow_of_depth_le (hd : p.depth ≤ n) : Shallow (Registry.ofSettings s).marks n c.inner := by
  have hcount : ∀ t ∈ c.inner, (Registry.ofSettings s).marks t.word = true →
      1 ≤ (candidates p.expressions).countP fun b => b.expanded.span.holds t.start := by
    intro t ht hmark
    obtain ⟨k, hk, rfl⟩ := exists_candidate h hp hcalled ht hmark
    obtain ⟨f, z, hx, hrewrites⟩ := candidate_called h hp hcalled hk
    refine List.countP_pos_iff.mpr ⟨k, hk, ?_⟩
    simpa [hrewrites.span, Span.holds] using hrewrites.lt (Cursor.sound_ofText h).1 hx
  cases n with
  | zero =>
    intro t ht
    by_contra hmark
    obtain ⟨k, hk, rfl⟩ := exists_candidate h hp hcalled ht (by simpa using hmark)
    obtain ⟨f, z, hx, hrewrites⟩ := candidate_called h hp hcalled hk
    have hle : ((candidates p.expressions).countP fun b => b.expanded.span.holds k.site.token.start) ≤ p.depth := by
      have := le_depth hk
      rwa [hrewrites.span] at this
    have := hcount _ ht (by simpa using hmark)
    omega
  | succ n =>
    intro xs t S ys hc hmark hS
    have := hcount t (by simp [hc]) hmark
    exact shallow_of_depth h hp hcalled hc hmark hS (by omega)

end Depth

section Markers

variable (hmembers : Site.all (Registry.ofSettings s) .member c.tokens = [])
include hmembers

/-- Where no declaration is annotated, nothing stands in the way of a pass. -/
theorem Regular.of_expressions : p.Regular s where
  detached d hd x hx := by
    obtain rfl : c = d := by simpa [h] using hd
    simp [hmembers] at hx
  accessible d hd q hq := by
    obtain rfl : c = d := by simpa [h] using hd
    obtain ⟨hs, -, -⟩ := Cursor.sound_ofText h
    obtain ⟨hread, -⟩ := Site.attemptAll_spec { settings := s } (Site.all (Registry.ofSettings s) .expression c.tokens) hs
    simp [memberCursors, Site.all_of_rereads hread, hmembers, Site.cursors] at hq
  mute k hk hrole := by
    obtain ⟨hs, -, -⟩ := Cursor.sound_ofText h
    obtain ⟨-, -, -, hsite | ⟨hsite, -⟩⟩ := attempt_of_taken hs (hp ▸ hk)
    · simp [Site.role_of_mem_all hsite] at hrole
    · simp [hmembers] at hsite

/-- The names of macros in what a pass leaves stand in its source. -/
theorem exists_token_of_sigil : ∃ ls, Token.words p.after = .ok ls ∧
    ∀ w ∈ ls, w.1.isSigil = true → ∃ t ∈ c.inner, t.word = w := by
  obtain ⟨hs, hsource, -⟩ := Cursor.sound_ofText h
  obtain ⟨-, -, hlaid, -⟩ := Cursor.laid_ofText h
  have hregular := Regular.of_expressions h hp hmembers
  choose! f hretold using fun k hk => (retold_taken hs (hregular.detached c h) (hregular.accessible c h) k hk).1
  have hwords := words_of_carries h fun k hk => (hretold k hk).2
  rw [hp] at hwords hretold
  refine ⟨_, hwords, fun w hw hk => ?_⟩
  rcases Token.mem_respell hw with ⟨t, ht, heq, -⟩ | ⟨d, hd, hw⟩
  · exact ⟨t, ht, heq⟩
  obtain ⟨k, hk', hd⟩ := List.mem_flatMap.mp hd
  have hretold := (hretold k hk').1
  generalize f k = cs at hd hretold
  cases hretold with
  | member rereads declares tag =>
    obtain ⟨-, -, -, hsite | ⟨hsite, -⟩⟩ := attempt_of_taken hs (hp.symm ▸ hk')
    · have hrole := declares.role hs hsite rereads tag
      simp [Site.role_of_mem_all hsite] at hrole
    · simp [hmembers] at hsite
  | expression rereads expresses trailing start edits reads =>
    obtain rfl := List.mem_singleton.mp hd
    obtain ⟨t, ht, heq, -⟩ :=
      expresses.token_of_replacement (hsource ▸ hlaid) rereads trailing (by simp) reads hw hk
    exact ⟨t, ht, heq⟩

/-- A pass brings in no annotation. -/
theorem memberless_after : ∃ c', Cursor.ofText p.after = .ok c' ∧
    Site.all (Registry.ofSettings s) .member c'.tokens = [] := by
  obtain ⟨ls, hwords, hold⟩ := exists_token_of_sigil h hp hmembers
  obtain ⟨ts, hts, rfl⟩ := Token.tokenize_of_words hwords
  obtain ⟨c', hc', htokens⟩ := Cursor.tokens_ofText hts
  refine ⟨c', hc', ?_⟩
  rw [htokens]
  by_contra hne
  obtain ⟨x, hx⟩ := List.exists_mem_of_ne_nil _ hne
  obtain ⟨hmem, hkind, hrec⟩ := Site.recognizes_of_mem_all hx
  obtain ⟨t, ht, heq⟩ := hold x.token.word
    (List.mem_map_of_mem (List.mem_filter.mpr ⟨hmem, by simp [hkind, Site.tokenKind]⟩))
    (Registry.isSigil_of_recognizes hrec)
  -- the token in the source would stand at a site of a declaration as well
  obtain ⟨role, y, hy, rfl⟩ := Site.exists_of_recognizes (List.mem_append_left [c.eof] ht) (heq ▸ hrec)
  have hkind' := (Site.recognizes_of_mem_all hy).2.1
  rw [show y.token.kind = x.token.kind from congrArg Prod.fst heq, hkind] at hkind'
  cases role with
  | member => simp [show c.inner ++ [c.eof] = c.tokens from rfl, hmembers] at hy
  | expression => cases hkind'

variable (hcalled : c.Called (Registry.ofSettings s).marks)
include hcalled

/-- All attempts succeed where each marker is read with a closure behind it. -/
theorem failures_eq_nil : p.failures = [] := by
  refine (failures_eq_nil_iff _).mpr fun a ha => ?_
  rw [attempts, members_eq_nil h hp hmembers, List.append_nil] at ha
  obtain ⟨y, f, z, hy, -⟩ := attempt_called h hp hcalled ha
  simp [Attempt.failure?, hy]

/-- Markers are deferred only where one stands in another. -/
theorem deferred_eq_nil (hdeep : Shallow (Registry.ofSettings s).marks 1 c.inner) : p.selection.deferred = [] := by
  by_contra hne
  obtain ⟨a, ha⟩ := List.exists_mem_of_ne_nil _ hne
  obtain ⟨hs, -⟩ := Cursor.sound_ofText h
  obtain ⟨b, hb, hlt, hlt'⟩ := (selection_nested h hp hmembers).deferred a.1 (List.mem_map_of_mem ha)
  rw [selection_expressions h hp hmembers] at ha
  obtain ⟨f, z, hx, hrewrites⟩ := candidate_called h hp hcalled (candidate_of_taken h hp hmembers hb)
  obtain ⟨f', z', hx', hrewrites'⟩ := candidate_called h hp hcalled
    ((Selection.mem_of_deferred_addExpression ha).resolve_left (by simp))
  obtain ⟨X, A, o, B, R, hinner, hblock⟩ := hrewrites.origin hs hx
  obtain ⟨X', A', o', B', R', hinner', -⟩ := hrewrites'.origin hs hx'
  have hmark := (Site.marks_of_mem_all hx').2
  rw [hrewrites.span, hrewrites'.span] at hlt hlt'
  obtain ⟨Y, V, hY, -⟩ := Site.inside hs hinner hblock (show c.inner = X' ++ a.1.site.token :: _ by simpa using hinner')
    (Registry.kind_of_marks hmark) (fun heq => by simp [heq] at hlt) hlt.le hlt'
  have := hdeep X b.site.token _ R hinner (Site.marks_of_mem_all hx).2 hblock.segment a.1.site.token (by rw [hY]; simp)
  simp [hmark] at this

/-- In the next source each marker is read with a closure behind it as well, and markers are less deep in one
another. -/
theorem called_after (hdeep : Shallow (Registry.ofSettings s).marks (n + 1) c.inner) {c' : Cursor}
    (hc' : Cursor.ofText p.after = .ok c') :
    c'.Called (Registry.ofSettings s).marks ∧ Shallow (Registry.ofSettings s).marks n c'.inner := by
  obtain ⟨hs, hsource, -⟩ := Cursor.sound_ofText h
  obtain ⟨-, -, hlaid, -⟩ := Cursor.laid_ofText h
  have hs' := (Cursor.sound_ofText hc').1
  have hm := fun w => Registry.kind_of_marks (r := Registry.ofSettings s) (w := w)
  have hsound := selection_sound { settings := s } (Registry.ofSettings s) hs
  rw [hp, hsource] at hsound
  have hheld : Held (Registry.ofSettings s).marks (c.Inside (Registry.ofSettings s).marks n) (c'.inner.map Token.spot) :=
    Edit.applyAll_held (edit_holds h hp hmembers hcalled hdeep) hsound.within hsound.clear hlaid
      (fun t ht hmark => exists_edit h hp hmembers hcalled ht hmark) hc'
  cases n with
  | zero =>
    -- no marker is left
    have hnone : ∀ t ∈ c'.inner, (Registry.ofSettings s).marks t.word = false := fun t ht => by
      by_contra hmark
      obtain ⟨xs, ys, hinner⟩ := List.append_of_mem ht
      obtain ⟨_, _, _, ⟨-, i, hi, -⟩, -⟩ := hheld.tokens (hinner ▸ List.suffix_append xs _) (by simpa using hmark)
      omega
    have hcopied : c.Copied (Registry.ofSettings s).marks 0 c'.inner := fun xs t us hinner ht =>
      absurd ht (by simp [hnone t (by simp [hinner])])
    exact ⟨hcopied.called hs hcalled hm hc', .of_none hnone⟩
  | succ n =>
    have hcopied := Cursor.Copied.of_held hheld hs
    exact ⟨hcopied.called hs hcalled hm hc', hcopied.shallow hm hs'⟩

end Markers

end Called

end Pass

end SwiftMacros
