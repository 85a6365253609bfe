import Mathlib
import SwiftMacros.Proofs.Cursor.Slice
import SwiftMacros.Proofs.Cursor.Retrace
import SwiftMacros.Proofs.Token.Respell

/-! The grains of a text that is put together. Where grains are cut out of a source behind a name, a
symbol or a mark, they stand in front of anything that no name goes on with: marks that meet are one
operator then, but its grains are still the single marks. -/

namespace SwiftMacros

open Token (Word Reads Chunk Follows Free Laid Rest lexeme isMarkChar isSymbolChar isGap operatorGrains
  grainsFrom stopFrom isOperatorChar)

namespace Token

/-- The front of a text up to the last part is read as grains, each with the gap before it. -/
inductive Yields : Text → List Grain → Text → Prop
  | done (r : Text) : Yields r [] r
  | word {gap x u r : Text} {k : Kind} {A : List Grain} : Reads (gap ++ (x ++ u)) [] (x ++ u) →
      lexeme (x ++ u) = .ok (k, x.length) → k.isTrivia = false → Yields u A r →
      Yields (gap ++ (x ++ u)) (Word.grains gap (k, x) ++ A) r

section Reading

variable {s t u v w x r r' : Text} {ls : List Word} {A B : List Grain}

/-- What has been read stands if something behind it is replaced by a text that can follow. -/
theorem Reads.append_within (h : Reads t ls (w ++ r)) (ht : t = u ++ (w ++ r)) (hr : Follows (u ++ w) r r')
    (hq : r'.head? = some '"' → r.head? = some '"') : Reads (u ++ (w ++ r')) ls (w ++ r') := by
  generalize hv : w ++ r = v at h
  induction h generalizing u with
  | done =>
    obtain rfl : u = [] := by
      subst hv
      simpa using ht
    exact .done _
  | @chunk x z _ a ls hc hrest ih =>
    subst hv
    obtain ⟨y, rfl⟩ := hrest.suffix
    obtain rfl : u = x ++ y := by simpa [← List.append_assoc] using ht.symm
    rw [List.append_assoc]
    refine .chunk ?_ (ih rfl (hr.of_suffix ⟨x, by simp⟩) rfl)
    rw [← List.append_assoc] at hc ⊢
    exact hc.append (by simpa using hr) hq

/-- Reading stops in front of a lexeme if nothing of it is read. -/
theorem Chunk.eq_of_reads {p : Word} (hc : Chunk x [p] w) (h : Reads (x ++ w) [] r) : r = x ++ w := by
  generalize ht : x ++ w = t at h
  generalize hnil : ([] : List Word) = ls at h
  cases h with
  | done => rfl
  | @chunk y z _ a ls hc' hrest =>
    obtain ⟨-, rfl, -⟩ := hc.unique hc' ht
    cases hnil

/-- What can be left of a text starts with no lexeme. -/
theorem Chunk.not_rest {p : Word} (hc : Chunk x [p] w) : ¬ Rest (x ++ w) := by
  rintro (h | ⟨y, -, h⟩)
  · exact hc.ne_nil (List.append_eq_nil_iff.mp h).1
  · cases hc with
    | lexeme hl hk =>
      rw [not_significant_of_lineComment (h ▸ List.prefix_append _ _) hl] at hk
      cases hk

theorem Chunk.rest_ne {p : Word} {gap : Text} (hc : Chunk x [p] w) (h : Reads (gap ++ (x ++ w)) [] (x ++ w))
    (hr : Reads (gap ++ (x ++ w)) [] u) : ¬ Rest u := by
  intro hu
  rcases Nat.le_total u.length (x ++ w).length with hle | hle
  · obtain ⟨ns, hns, h⟩ := h.between hr hle
    obtain rfl := (List.append_eq_nil_iff.mp hns.symm).2
    exact hc.not_rest (hc.eq_of_reads h ▸ hu)
  · obtain ⟨ns, -, h⟩ := hr.between h hle
    exact hc.not_rest (hu.eq_of_reads h ▸ hu)

/-- The gap before the grains of a lexeme stands in the first of them only. -/
theorem Word.exists_grains {w : Word} (hw : w.2 ≠ []) :
    ∃ (b : Grain) (C : List Grain), ∀ gap, Word.grains gap w = { b with gap := gap } :: C := by
  obtain ⟨k, x⟩ := w
  obtain ⟨c, x, rfl⟩ := List.exists_cons_of_ne_nil hw
  by_cases hk : k = .operator
  · by_cases hm : isMarkChar c = true
    · exact ⟨⟨[], .operator, [c]⟩, operatorGrains [] x, fun gap => by simp [Word.grains, hk, operatorGrains, hm]⟩
    · exact ⟨⟨[], .operator, c :: x⟩, [], fun gap => by simp [Word.grains, hk, operatorGrains, hm]⟩
  · exact ⟨⟨[], k, c :: x⟩, [], fun gap => by simp [Word.grains, hk]⟩

namespace Yields

theorem trans (h : Yields t A u) (h' : Yields u B r) : Yields t (A ++ B) r := by
  induction h with
  | done => exact h'
  | word hgap hl hk _ ih =>
    rw [List.append_assoc]
    exact .word hgap hl hk (ih h')

theorem reads (h : Yields t A r) : ∃ ls, Reads t ls r := by
  induction h with
  | done => exact ⟨[], .done _⟩
  | word hgap hl hk _ ih =>
    obtain ⟨ls, hls⟩ := ih
    exact ⟨_, hgap.trans (.chunk (.lexeme hl hk) hls)⟩

/-- A text is spelled by its grains. -/
theorem spell_eq (h : Yields t A r) : t = Grain.spell A ++ r := by
  induction h with
  | done => rfl
  | @word gap x u r k A hgap hl hk _ ih =>
    have hx : x ≠ [] := List.ne_nil_of_length_pos (lexeme_bounds hl hk).1
    have hword := Word.spell_grains gap (w := (k, x)) hx
    rw [Grain.spell, List.flatMap_append]
    rw [Grain.spell] at hword ih
    rw [hword, ih]
    simp

/-- The grains stand if something behind them is replaced by a text that can follow. -/
theorem append_within (h : Yields t A (w ++ r)) (ht : t = u ++ (w ++ r)) (hr : Follows (u ++ w) r r')
    (hq : r'.head? = some '"' → r.head? = some '"') : Yields (u ++ (w ++ r')) A (w ++ r') := by
  generalize hv : w ++ r = v at h
  induction h generalizing u with
  | done =>
    obtain rfl : u = [] := by
      subst hv
      simpa using ht
    exact .done _
  | @word gap x z _ k A hgap hl hk hrest ih =>
    subst hv
    obtain ⟨ls, hls⟩ := hrest.reads
    obtain ⟨y, rfl⟩ := hls.suffix
    obtain rfl : u = gap ++ (x ++ y) := by simpa [← List.append_assoc] using ht.symm
    have hr₁ : Follows (x ++ (y ++ w)) r r' := hr.of_suffix ⟨gap, by simp⟩
    have hgap' : Reads (gap ++ (x ++ (y ++ (w ++ r')))) [] (x ++ (y ++ (w ++ r'))) := by
      have := Reads.append_within (w := x ++ (y ++ w)) (u := gap) (by simpa using hgap) (by simp)
        (by simpa using hr) hq
      simpa using this
    have hl' : lexeme (x ++ (y ++ (w ++ r'))) = .ok (k, x.length) := by
      have hl : lexeme ((x ++ (y ++ w)) ++ r) = .ok (k, x.length) := by simpa using hl
      simpa using lexeme_append hl (by simp) hk hr₁ hq
    have := Yields.word hgap' hl' hk (ih rfl (hr₁.of_suffix ⟨x, by simp⟩) rfl)
    simpa using this

/-- The gap before the first grain can be made longer. -/
theorem gap {c : Char} {a : Grain} (hc : isGap c = true) (h : Yields t (a :: A) r) :
    Yields (c :: t) ({ a with gap := c :: a.gap } :: A) r := by
  generalize hA : a :: A = A' at h
  cases h with
  | done => cases hA
  | @word gap x u _ k B hgap hl hk hrest =>
    have hx : x ≠ [] := List.ne_nil_of_length_pos (lexeme_bounds hl hk).1
    obtain ⟨b, C, hC⟩ := Word.exists_grains (w := (k, x)) hx
    have hreads : Reads ((c :: gap) ++ (x ++ u)) [] (x ++ u) := .chunk (x := [c]) (a := []) (.gap hc) hgap
    have hyields := Yields.word hreads hl hk hrest
    rw [hC] at hA hyields
    obtain ⟨rfl, rfl⟩ := List.cons.inj hA
    exact hyields

/-- Two readings of a text up to what can be left of it give the same grains. -/
theorem unique (h : Yields t A r) (h' : Yields t B r') (hr : Reads r [] u) (hu : Rest u)
    (hr' : Reads r' [] v) (hv : Rest v) : A = B := by
  induction h generalizing B with
  | done =>
    cases h' with
    | done => rfl
    | word hgap hl hk _ => exact ((Chunk.lexeme hl hk).rest_ne hgap hr hu).elim
  | @word gap x z _ k A hgap hl hk hrest ih =>
    have hc := Chunk.lexeme hl hk
    generalize ht : gap ++ (x ++ z) = t at h'
    cases h' with
    | done =>
      subst ht
      exact (hc.rest_ne hgap hr' hv).elim
    | @word gap' y w _ k' B hgap' hl' hk' hrest' =>
      have hc' := Chunk.lexeme hl' hk'
      have heq : x ++ z = y ++ w := by
        rcases Nat.le_total (y ++ w).length (x ++ z).length with hle | hle
        · obtain ⟨ns, hns, h⟩ := hgap.between (ht ▸ hgap') hle
          obtain rfl := (List.append_eq_nil_iff.mp hns.symm).2
          exact (hc.eq_of_reads h).symm
        · obtain ⟨ns, hns, h⟩ := hgap'.between (ht ▸ hgap) hle
          obtain rfl := (List.append_eq_nil_iff.mp hns.symm).2
          exact hc'.eq_of_reads h
      obtain rfl : gap = gap' := List.append_cancel_right (heq ▸ ht)
      obtain ⟨rfl, hword, rfl⟩ := hc.unique hc' heq
      obtain ⟨rfl, -⟩ := Prod.mk.inj (List.cons.inj hword).1
      rw [ih hrest' hr]

end Yields

end Reading

section Laid

variable {s : Text} {a : Nat} {ts us vs : List Token}

theorem Laid.yields (h : Laid s a (us ++ vs)) :
    Yields (s.drop a) (grainsFrom s a us) (s.drop (stopFrom a us)) ∧ Laid s (stopFrom a us) vs := by
  induction us generalizing a with
  | nil => exact ⟨.done _, h⟩
  | cons t us ih =>
    cases h with
    | cons hr hle hlt hstop htext hl hk h =>
      obtain ⟨hus, hvs⟩ := ih h
      have hlen : t.text.length = t.stop - t.start := by rw [htext, slice_length hstop]
      rw [stopFrom_cons]
      refine ⟨?_, hvs⟩
      rw [← slice_append_drop hle, ← slice_append_drop hlt.le, ← htext] at hr ⊢
      rw [← slice_append_drop hlt.le, ← htext, ← hlen] at hl
      exact .word hr hl hk hus

/-- A text that is read as grains up to its end is made of these grains. -/
theorem Yields.exists_ofText {t : Text} {A : List Grain} (h : Yields t A []) :
    ∃ c, Cursor.ofText t = .ok c ∧ c.grains = A := by
  obtain ⟨ls, hls⟩ := h.reads
  have hwords := words_of_reads hls
  cases hts : tokenize t with
  | error e =>
    rw [words, hts] at hwords
    cases hwords
  | ok ts =>
    obtain ⟨c, hc, -⟩ := Cursor.tokens_ofText hts
    obtain ⟨rfl, hbehind, hlaid, -⟩ := Cursor.laid_ofText hc
    have hinner : c.inner = c.ahead := by simp [Cursor.inner, hbehind]
    have hedge : c.edge = 0 := by simp [Cursor.edge, hbehind]
    rw [hinner, ← List.append_nil c.ahead] at hlaid
    obtain ⟨hyields, hend⟩ := hlaid.yields
    cases hend with
    | nil hr hrest =>
      refine ⟨c, hc, ?_⟩
      rw [Cursor.grains, hedge]
      exact hyields.unique h hr hrest (.done []) (.inl rfl)

end Laid

section Marks

theorem lexeme_mark {c : Char} (hc : isMarkChar c = true) (t : Text) :
    lexeme (c :: t) = .ok (.operator, runLength isOperatorChar (c :: t)) := by
  have hend : isEnd c = true := by simp [isEnd, hc]
  have hop := isOperatorChar_of_isMarkChar hc
  simp only [isMarkChar, Bool.or_eq_true, beq_iff_eq] at hc
  have hrun : nonemptyRun? isOperatorChar (c :: t) = some (runLength isOperatorChar (c :: t)) := by
    rw [nonemptyRun?, runLength_cons, if_pos hop, Nat.add_comm]
    rfl
  have hfirst : firstOf openClasses (c :: t) = some (.operator, runLength isOperatorChar (c :: t)) := by
    rw [firstOf_openClasses_end hend (by rcases hc with ((rfl | rfl) | rfl) | rfl <;> decide), hrun, if_neg]
    · rfl
    · rcases hc with ((rfl | rfl) | rfl) | rfl <;> decide
  refine lexeme_of_simple (Quoting.opens?_eq_none ?_ ?_ _) ?_ ?_
  · rcases hc with ((rfl | rfl) | rfl) | rfl <;> decide
  · rcases hc with ((rfl | rfl) | rfl) | rfl <;> decide
  · rcases hc with ((rfl | rfl) | rfl) | rfl <;> rfl
  · rw [simpleLexeme_eq, hfirst] <;>
      rcases hc with ((rfl | rfl) | rfl) | rfl <;> first | decide | rfl

theorem runLength_append {p : Char → Bool} {y : Text} (hy : ∀ c ∈ y, p c = true) (r : Text) :
    runLength p (y ++ r) = y.length + runLength p r := by
  induction y with
  | nil => simp
  | cons c y ih =>
    rw [List.cons_append, runLength_cons, if_pos (hy c (by simp)), ih fun d hd => hy d (by simp [hd]),
      List.length_cons]
    omega

theorem operatorGrains_append {y : Text} (hy : ∀ c ∈ y, isMarkChar c = true) (hne : y ≠ []) (gap x : Text) :
    operatorGrains gap (y ++ x) = operatorGrains gap y ++ operatorGrains [] x := by
  induction y generalizing gap with
  | nil => exact absurd rfl hne
  | cons c y ih =>
    have hc := hy c (by simp)
    rw [List.cons_append, operatorGrains, if_pos hc, operatorGrains, if_pos hc, List.cons_append]
    rcases eq_or_ne y [] with rfl | hne
    · rfl
    · rw [ih (fun d hd => hy d (by simp [hd])) hne]

/-- Some of the grains of an operator are those of the marks at its front, or all of them. -/
theorem operatorGrains_split {gap x : Text} {W G : List Grain} (h : operatorGrains gap x = W ++ G)
    {b : Grain} (hb : W.getLast? = some b) :
    (∃ y z, x = y ++ z ∧ (∀ c ∈ y, isMarkChar c = true) ∧ y ≠ [] ∧ W = operatorGrains gap y) ∨
      ¬ b.IsMark ∧ G = [] ∧ b.text.getLast? = x.getLast? := by
  induction x generalizing gap W with
  | nil =>
    obtain ⟨rfl, -⟩ := List.append_eq_nil_iff.mp h.symm
    cases hb
  | cons c x ih =>
    obtain ⟨a, W, rfl⟩ : ∃ a V, W = a :: V := List.exists_cons_of_ne_nil (by rintro rfl; cases hb)
    rw [operatorGrains] at h
    split at h
    next hc =>
      obtain ⟨rfl, htail⟩ := List.cons.inj h
      rcases eq_or_ne W [] with rfl | hne
      · exact .inl ⟨[c], x, rfl, by simpa using hc, by simp, by simp [operatorGrains, hc]⟩
      · rw [List.getLast?_cons_of_ne_nil hne] at hb
        rcases ih htail hb with ⟨y, z, rfl, hy, -, rfl⟩ | ⟨hm, hG, hlast⟩
        · exact .inl ⟨c :: y, z, rfl, by simpa [hc] using hy, by simp, by simp [operatorGrains, hc]⟩
        · have hx : x ≠ [] := by
            rintro rfl
            exact hne (List.append_eq_nil_iff.mp htail.symm).1
          exact .inr ⟨hm, hG, by rw [hlast, List.getLast?_cons_of_ne_nil hx]⟩
    next hc =>
      obtain ⟨rfl, htail⟩ := List.cons.inj h
      obtain ⟨rfl, rfl⟩ := List.append_eq_nil_iff.mp htail.symm
      cases hb
      refine .inr ⟨?_, rfl, rfl⟩
      rintro ⟨m, hm, hword⟩
      obtain ⟨-, htext⟩ := Prod.mk.inj hword
      exact hc (show isMarkChar c = true by rw [(List.cons.inj htext).1]; exact hm)

/-- Marks go on with an operator. -/
theorem Yields.marks {gap y r : Text} {B : List Grain} (hy : ∀ c ∈ y, isMarkChar c = true) (hne : y ≠ [])
    (hgap : Reads (gap ++ (y ++ r)) [] (y ++ r)) (hr : Free r) (h : Yields r B []) :
    Yields (gap ++ (y ++ r)) (operatorGrains gap y ++ B) [] := by
  have hword : ∀ x, Word.grains gap (.operator, x) = operatorGrains gap x := fun _ => if_pos rfl
  by_cases hop : ∀ c ∈ r.head?, isOperatorChar c = false
  · rw [← hword]
    exact .word hgap (lexeme_marks hy hne hop) rfl h
  · obtain ⟨m, r, rfl⟩ : ∃ m t, r = m :: t := by
      cases r with
      | nil => simp at hop
      | cons m t => exact ⟨m, t, rfl⟩
    have hm : isMarkChar m = true := by
      rcases hr m r rfl with hs | hm | ⟨rfl, -⟩
      · simp [isOperatorChar_of_isStop hs] at hop
      · exact hm
      · simp [isOperatorChar] at hop
    generalize ht : m :: r = t at h
    cases h with
    | done => cases ht
    | @word gap' x u _ k B hgap' hl hk hrest =>
      -- no gap is before the operator that the rest starts with
      have hlm := lexeme_mark hm r
      obtain ⟨z, w, hz, hlen, hzne⟩ := lexeme_split hlm
      have hchunk : Chunk z [(.operator, z)] w := .lexeme (by rw [← hz, hlen, hlm]) rfl
      have heq := hchunk.eq_of_reads (r := x ++ u) (by rw [← hz, ht]; exact hgap')
      rw [← hz, ht] at heq
      obtain rfl : gap' = [] := by simpa using heq
      rw [List.nil_append] at ht hgap' ⊢
      rw [ht] at hlm
      obtain ⟨rfl, hx⟩ := Prod.mk.inj (Except.ok.inj (hl.symm.trans hlm))
      obtain ⟨c, y, rfl⟩ := List.exists_cons_of_ne_nil hne
      have hlexeme : lexeme ((c :: y ++ x) ++ u) = .ok (.operator, (c :: y ++ x).length) := by
        rw [List.append_assoc, List.cons_append, lexeme_mark (hy c (by simp)), ← List.cons_append,
          runLength_append fun d hd => isOperatorChar_of_isMarkChar (hy d hd), ← hx, List.length_append]
      have hgap₁ : Reads (gap ++ ((c :: y ++ x) ++ u)) [] ((c :: y ++ x) ++ u) := by simpa [ht] using hgap
      have hyields := Yields.word hgap₁ hlexeme rfl hrest
      rw [hword, operatorGrains_append hy hne, List.append_assoc] at hyields
      simpa [Word.grains, List.append_assoc] using hyields

end Marks

section Split

/-- A text is parted behind the grains `W`, of which `b` is the last: in front of `q` there are marks of
an operator, with the gap before it, or no marks, if the last grain ends a lexeme. -/
structure Parting (t : Text) (W : List Grain) (b : Grain) (v gap y q : Text) (V : List Grain) : Prop where
  text : t = v ++ (gap ++ (y ++ q))
  yields : Yields t V (gap ++ (y ++ q))
  before : Reads (gap ++ (y ++ q)) [] (y ++ q)
  grains : W = V ++ operatorGrains gap y
  marks : ∀ c ∈ y, isMarkChar c = true
  last : y = [] → gap = [] ∧ v ≠ [] ∧ ¬ b.IsMark ∧ v.getLast? = b.text.getLast?

/-- The grains of a lexeme can be parted. -/
theorem Parting.of_word {gap x u : Text} {k : Kind} {W G : List Grain} {b : Grain}
    (hgap : Reads (gap ++ (x ++ u)) [] (x ++ u)) (hl : lexeme (x ++ u) = .ok (k, x.length))
    (hk : k.isTrivia = false) (hG : Word.grains gap (k, x) = W ++ G) (hb : W.getLast? = some b) :
    ∃ v gap' y q V, Parting (gap ++ (x ++ u)) W b v gap' y q V := by
  have hx : x ≠ [] := List.ne_nil_of_length_pos (lexeme_bounds hl hk).1
  have hfull : ¬ b.IsMark → G = [] → b.text.getLast? = x.getLast? →
      Parting (gap ++ (x ++ u)) W b (gap ++ x) [] [] u W := by
    rintro hm rfl hlast
    refine ⟨by simp, ?_, .done _, by simp [operatorGrains], by simp, fun _ => ⟨rfl, by simp [hx], hm, ?_⟩⟩
    · have := Yields.word hgap hl hk (.done u)
      rwa [List.append_nil, hG, List.append_nil] at this
    · rw [List.getLast?_append_of_ne_nil _ hx, hlast]
  rw [Word.grains] at hG
  split at hG
  next =>
    rcases operatorGrains_split hG hb with ⟨y, z, rfl, hy, hne, rfl⟩ | ⟨hm, hnil, hlast⟩
    · exact ⟨[], gap, y, z ++ u, [], by simp, by simpa using Yields.done _, by simpa using hgap, rfl, hy,
        fun h => absurd h hne⟩
    · exact ⟨_, _, _, _, _, hfull hm hnil hlast⟩
  next hk =>
    obtain ⟨a, W, rfl⟩ : ∃ a V, W = a :: V := List.exists_cons_of_ne_nil (by rintro rfl; cases hb)
    obtain ⟨rfl, htail⟩ := List.cons.inj hG
    obtain ⟨rfl, rfl⟩ := List.append_eq_nil_iff.mp htail.symm
    cases hb
    refine ⟨_, _, _, _, _, hfull ?_ rfl rfl⟩
    rintro ⟨m, -, hword⟩
    exact hk (Prod.mk.inj hword).1

/-- Where grains are parted, so is the text. -/
theorem Yields.split {t r : Text} {A W Y : List Grain} (h : Yields t A r) (hA : A = W ++ Y) {b : Grain}
    (hb : W.getLast? = some b) : ∃ v gap y q V, Parting t W b v gap y q V := by
  induction h generalizing W with
  | done =>
    obtain ⟨rfl, -⟩ := List.append_eq_nil_iff.mp hA.symm
    cases hb
  | @word gap x u r k A hgap hl hk hrest ih =>
    rcases List.append_eq_append_iff.mp hA with ⟨V, rfl, rfl⟩ | ⟨G, hG, -⟩
    · rcases eq_or_ne V [] with rfl | hne
      · exact Parting.of_word (G := []) hgap hl hk (by simp) hb
      · rw [List.getLast?_append_of_ne_nil _ hne] at hb
        obtain ⟨v, gap', y, q, V, rfl, hV, hr, rfl, hy, hlast⟩ := ih rfl hb
        refine ⟨gap ++ (x ++ v), gap', y, q, _, by simp, .word hgap hl hk hV, hr, by simp, hy, fun hnil => ?_⟩
        obtain ⟨hgap', hv, hm, hlast⟩ := hlast hnil
        exact ⟨hgap', by simp [hv], hm, by rw [← List.append_assoc, List.getLast?_append_of_ne_nil _ hv, hlast]⟩
    · exact Parting.of_word hgap hl hk hG hb

end Split

end Token

namespace Grain

open Token (Yields Parting)

/-- What no name and no literal goes on with. -/
def Loose (r : Text) : Prop := Free r ∧ r.head? ≠ some '"'

/-- What nothing goes on with. -/
def Halting (r : Text) : Prop := Token.Stops r ∧ r.head? ≠ some '"'

/-- The grains stand in front of any text that `S` holds of. -/
def Stands (S : Text → Prop) (A : List Grain) : Prop :=
  ∀ r B, S r → Yields r B [] → Yields (spell A ++ r) (A ++ B) []

section Stands

variable {S S' : Text → Prop} {A B : List Grain} {r : Text}

theorem Halting.loose (h : Halting r) : Loose r := ⟨h.1.free, h.2⟩

theorem halting_symbol {c : Char} (hc : isSymbolChar c = true) (r : Text) : Halting (c :: r) :=
  ⟨Token.stops_cons (Token.isStop_of_isSymbolChar hc), by simpa using Token.isSymbolChar_ne_quote hc⟩

theorem halting_nil : Halting [] := ⟨Token.stops_nil, by simp⟩

theorem Stands.nil : Stands S [] := fun _ _ _ h => h

@[simp] theorem spell_append (A B : List Grain) : spell (A ++ B) = spell A ++ spell B := List.flatMap_append

@[simp] theorem spell_cons (a : Grain) (A : List Grain) : spell (a :: A) = a.gap ++ a.text ++ spell A := rfl

@[simp] theorem spell_nil : spell [] = [] := rfl

theorem Stands.append (h : Stands S A) (h' : Stands S' B) (hS : ∀ r, S' r → S (spell B ++ r)) :
    Stands S' (A ++ B) := by
  intro r C hr hC
  rw [spell_append, List.append_assoc, List.append_assoc]
  exact h _ _ (hS r hr) (h' r C hr hC)

/-- A symbol stands in front of anything. -/
theorem Stands.symbol {c : Char} (hc : isSymbolChar c = true) (h : Stands S A) :
    Stands S (⟨[], .symbol, [c]⟩ :: A) := fun r B hr hB =>
  @Yields.word [] [c] _ _ _ (A ++ B) (.done _) (Token.lexeme_of_symbol hc _) rfl (h r B hr hB)

/-- White space stands in front of anything. -/
theorem Stands.gap {c : Char} {a : Grain} (hc : isGap c = true) (h : Stands S (a :: A)) :
    Stands S ({ a with gap := c :: a.gap } :: A) := fun r B hr hB =>
  (h r B hr hB).gap hc

theorem Stands.mark {c : Char} (hc : isMarkChar c = true) : Stands Loose [⟨[], .operator, [c]⟩] := by
  intro r B hr hB
  have hreads : Reads ([] ++ ([c] ++ r)) [] ([c] ++ r) := .done _
  have hyields := Yields.marks (by simpa using hc) (by simp) hreads hr.1 hB
  simpa [Token.operatorGrains, hc] using hyields

/-- Grains that have been read stand if what is behind the last of them can be told apart from it. -/
theorem Stands.of_yields {t : Text} {W Y : List Grain} {b : Grain} (h : Yields t (W ++ Y) r)
    (hb : W.getLast? = some b) (hS : ∀ r, S r → Loose r)
    (hlast : ∀ v r, ¬ b.IsMark → v.getLast? = b.text.getLast? → S r → Token.Apart v r) : Stands S W := by
  obtain ⟨v, gap, y, q, V, rfl, hV, hgap, rfl, hy, hend⟩ := h.split rfl hb
  have hv : v = spell V := List.append_cancel_right hV.spell_eq
  intro r' B hr hB
  rcases eq_or_ne y [] with rfl | hne
  · obtain ⟨rfl, -, hm, hlast'⟩ := hend rfl
    have hfollows : Follows (v ++ []) q r' := .inl (by simpa using hlast v r' hm hlast' hr)
    have := (hV.append_within (w := []) rfl hfollows fun h => absurd h (hS r' hr).2).trans hB
    simpa [Token.operatorGrains, ← hv] using this
  · obtain ⟨m, y, rfl⟩ := List.exists_cons_of_ne_nil hne
    have hfollows : ∀ x, Follows x (m :: y ++ q) (m :: y ++ r') := fun x => .inr ⟨m, hy m (by simp), rfl, rfl⟩
    have hV' := hV.append_within (w := gap) (u := v) rfl (hfollows _) id
    have hgap' := Reads.append hgap (u := gap) rfl (hfollows _) id
    have := hV'.trans (Yields.marks hy (by simp) hgap' (hS r' hr).1 hB)
    rw [spell_append, Token.spell_operatorGrains gap (by simp), ← hv]
    simpa using this

end Stands

end Grain

section Sources

open Grain (Stands Loose Halting)

/-- A token that is no operator is none of the pieces that marks have been split off. -/
theorem Token.Marked.exists_token {ts bs us : List Token} {t : Token} (h : Marked ts (bs ++ t :: us))
    (hk : t.kind ≠ .operator) : ∃ as vs, ts = as ++ t :: vs ∧ Marked vs us := by
  generalize hw : bs ++ t :: us = ws at h
  induction h generalizing bs with
  | nil => simp at hw
  | @keep u ts ws h ih =>
    cases bs with
    | nil =>
      obtain ⟨rfl, rfl⟩ := List.cons.inj hw
      exact ⟨[], ts, rfl, h⟩
    | cons b bs =>
      obtain ⟨rfl, htail⟩ := List.cons.inj hw
      obtain ⟨as, vs, rfl, hvs⟩ := ih htail
      exact ⟨_ :: as, vs, rfl, hvs⟩
  | @split u m x ts ws hu htext hm h ih =>
    cases bs with
    | nil =>
      obtain ⟨rfl, -⟩ := List.cons.inj hw
      exact absurd hu hk
    | cons b bs =>
      obtain ⟨as, vs, has, hvs⟩ := ih (List.cons.inj hw).2
      cases as with
      | nil =>
        obtain ⟨rfl, -⟩ := List.cons.inj has
        exact absurd hu hk
      | cons a as =>
        obtain ⟨-, rfl⟩ := List.cons.inj has
        exact ⟨u :: as, vs, rfl, hvs⟩

/-- The last character of a name or of a symbol. -/
theorem Token.Placed.firm_last {s : Text} {t : Token} (h : Placed s t) (hf : t.Firm)
    (hk : t.kind ≠ .operator) : ∀ d ∈ t.text.getLast?, isOperatorChar d = false ∧ d ≠ '.' := by
  have hl := h.lexeme_text hk
  rcases hf with hk | hk | ⟨hk', -⟩
  · rw [hk] at hl
    exact Token.lexeme_identifier hl
  · rw [hk] at hl
    obtain ⟨c, u, hu, hc, hlen⟩ := Token.lexeme_symbol hl
    obtain ⟨d, hd⟩ := List.length_eq_one_iff.mp hlen
    rw [hd, List.singleton_append, List.cons.injEq] at hu
    intro e he
    obtain rfl : c = e := by simpa [hd, hu.1] using he
    simp only [Token.isSymbolChar, List.contains_iff_mem] at hc
    simp at hc
    rcases hc with rfl | rfl | rfl | rfl | rfl | rfl | rfl | rfl | rfl <;> decide
  · exact absurd hk' hk

namespace Cursor

variable {c c' : Cursor} {a : Grain} {A W : List Grain}

/-- The source from a token on that is no operator is read as the grains ahead. -/
theorem Reached.yields (h : c.Reached) (hk : c.peek.kind ≠ .operator) (hA : c.grains = a :: A) :
    ∃ r, Token.Yields (c.source.drop c.peek.start) ({ a with gap := [] } :: A) r := by
  have hne := (h.faces hA).ne_eof
  obtain ⟨us, hus⟩ := h.sound.ahead_eq hne
  obtain ⟨ts, hlaid, -, hmarked⟩ := h.marked
  rw [inner, hus] at hmarked
  obtain ⟨as, vs, rfl, hvs⟩ := hmarked.exists_token hk
  obtain ⟨-, hrest⟩ := hlaid.yields
  cases hrest with
  | cons hr hle hlt hstop htext hl hkind hrest =>
    have hlaid' : Laid c.source c.peek.start (c.peek :: vs ++ []) := by
      rw [List.append_nil]
      exact .cons (.done _) le_rfl hlt hstop htext hl hkind hrest
    obtain ⟨hyields, -⟩ := hlaid'.yields
    have hx := (h.sound.placed_peek hne).text_ne_nil
    obtain ⟨b, C, hC⟩ := Token.Word.exists_grains (w := c.peek.word) hx
    have hself : Text.slice c.source c.peek.start c.peek.start = [] := by simp [Text.slice]
    rw [grainsFrom, ← hvs.grainsFrom_eq, hC, hself] at hyields
    rw [grains, hus, grainsFrom, hC] at hA
    obtain ⟨rfl, rfl⟩ := List.cons.inj hA
    exact ⟨_, hyields⟩

/-- What is taken up to the end of a lexeme stands in front of stops, and if it ends with a name, a
symbol or a mark, in front of anything that no name goes on with. -/
theorem Reached.stands (h : c.Reached) (hk : c.peek.kind ≠ .operator) (hl : c.Leads c')
    (hW : c.grains = a :: W ++ c'.grains) : Stands Halting ({ a with gap := [] } :: W) ∧
      ((∃ t ∈ c'.behind.head?, t.Firm) → Stands Loose ({ a with gap := [] } :: W)) := by
  obtain ⟨r, hyields⟩ := h.yields hk hW
  obtain ⟨b, hb⟩ : ∃ b, (({ a with gap := [] } : Grain) :: W).getLast? = some b :=
    ⟨_, List.getLast?_eq_some_getLast (by simp)⟩
  refine ⟨.of_yields hyields hb (fun _ hr => hr.loose) fun v r _ _ hr => hr.1.apart v, ?_⟩
  rintro ⟨t, ht, hfirm⟩
  -- the last grain is the token taken last
  have hword : b.word = t.word := by
    obtain ⟨ts, hbehind, hgrains⟩ := h.grains_eq hl
    have hts := List.append_cancel_right (hW.symm.trans hgrains)
    rcases List.eq_nil_or_concat ts with rfl | ⟨ts, u, rfl⟩
    · cases hts
    · obtain rfl : u = t := by simpa [hbehind] using ht
      obtain ⟨gap, hu⟩ : ∃ gap, grainsFrom c.source (stopFrom c.edge ts) [u] = [⟨gap, u.kind, u.text⟩] := by
        refine ⟨Text.slice c.source (stopFrom c.edge ts) u.start, ?_⟩
        rcases hfirm with hk | hk | ⟨hk, m, hm, htext⟩
        · simp [grainsFrom, Token.Word.grains, Token.word, hk]
        · simp [grainsFrom, Token.Word.grains, Token.word, hk]
        · simp [grainsFrom, Token.Word.grains, Token.word, hk, htext, operatorGrains, hm]
      rw [List.concat_eq_append, Token.grainsFrom_append, hu] at hts
      cases W with
      | nil =>
        cases hb
        have : ([a] : List Grain).getLast? = some ⟨gap, u.kind, u.text⟩ := by rw [hts]; simp
        cases this
        rfl
      | cons w W =>
        rw [List.getLast?_cons_of_ne_nil (by simp)] at hb
        have := congrArg List.getLast? hts
        rw [List.getLast?_cons_of_ne_nil (by simp), hb] at this
        simp only [List.getLast?_append, List.getLast?_singleton, Option.some_or, Option.some.injEq] at this
        rw [this]
        rfl
  refine .of_yields hyields hb (fun _ hr => hr) fun v r hm hv hr => ⟨hr.1, fun e he d hd => ?_⟩
  have hplaced := hl.sound.placed_behind (t := t) (List.mem_of_mem_head? ht)
  have htk : t.kind ≠ .operator := by
    intro htk
    rcases hfirm with hk | hk | ⟨-, m, hm', htext⟩
    · simp [hk] at htk
    · simp [hk] at htk
    · exact hm ⟨m, hm', by rw [hword, Token.word, htk, htext]⟩
  have := hplaced.firm_last hfirm htk d (by rwa [hv, show b.text = t.text from congrArg Prod.snd hword] at hd)
  exact ⟨fun _ => this, fun _ => this.2⟩

end Cursor

end Sources

end SwiftMacros
