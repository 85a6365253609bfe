import Mathlib
import SwiftMacros.Proofs.Expansion.FieldReport
import SwiftMacros.Proofs.Token.Respell
import SwiftMacros.Proofs.Setter
import SwiftMacros.Proofs.WeakSelf

/-! Edits of a text against changes to its tokens. If each edit does to the lexemes around it what a
change does, then edits one after the other make of a source what the changes make of its tokens: at
no seam a lexeme is merged, split or swallowed. -/

namespace SwiftMacros

open Token (Word Reads Calm Change Laid Rest isStop respell)

section Introducing

variable {code : Text} {p n : Nat}

theorem Grammar.openingWords_isFence :
    ∀ w ∈ Grammar.openingWords, Token.isFence w.toList = true := by decide +kernel

theorem Grammar.openingWords_isWord {w : String} (hw : w ∈ Grammar.openingWords) :
    ∀ c ∈ w.toList, Text.isWord c = true := by
  have h : (Grammar.openingWords.all fun w => w.toList.all Char.isAlphanum) = true := by
    decide +kernel
  exact fun c hc =>
    Token.isWord_of_isAlphanum (List.all_eq_true.mp (List.all_eq_true.mp h w hw) c hc)

/-- White space and comments start with white space or a slash. -/
theorem Token.Reads.head_of_nil {t r : Text} (h : Reads t [] r) :
    t = r ∨ ∃ c u, t = c :: u ∧ (Token.isGap c = true ∨ c = '/') := by
  generalize hls : ([] : List Word) = ls at h
  cases h with
  | done => exact .inl rfl
  | @chunk x u r a ls hc hrest =>
    obtain ⟨rfl, -⟩ := List.append_eq_nil_iff.mp hls.symm
    refine .inr ?_
    cases hc with
    | @gap c r hg => exact ⟨c, _, rfl, .inl hg⟩
    | lineComment => exact ⟨'/', _, rfl, .inr rfl⟩
    | blockComment hp =>
      obtain ⟨y, rfl⟩ := hp
      exact ⟨'/', _, rfl, .inr rfl⟩

/-- What introduces a declaration starts calm. -/
theorem Introduces.front (h : Introduces code p) :
    (∃ c u, code.drop p = c :: u ∧ ∀ t, Calm (c :: t)) ∨
      ∃ w ∈ Grammar.openingWords, w.toList <+: code.drop p := by
  obtain ⟨n, hle, hread, hfirst⟩ := h
  rcases hread.head_of_nil with heq | ⟨c, u, hc, hgap⟩
  · rw [heq]
    rcases hfirst with hat | hword
    · obtain ⟨u, hu⟩ : ∃ u, code.drop n = '@' :: u := by
        rw [← List.head?_drop] at hat
        exact List.head?_eq_some_iff.mp hat
      exact .inl ⟨'@', u, hu, Token.calm_stop (by decide) (by decide)⟩
    · exact .inr hword
  · refine .inl ⟨c, u, hc, ?_⟩
    rcases hgap with hgap | rfl
    · refine Token.calm_stop (Token.isStop_of_isBlank (Token.isBlank_of_isGap hgap)) ?_
      rintro rfl
      cases hgap
    · exact Token.calm_cons (by decide) (by decide) (by decide)

theorem Introduces.calm (h : Introduces code p) : Calm (code.drop p) := by
  rcases h.front with ⟨c, u, hc, hcalm⟩ | ⟨w, hw, u, hu⟩
  · exact hc ▸ hcalm u
  · exact hu ▸ Token.calm_of_isFence (Grammar.openingWords_isFence w hw) u

end Introducing

namespace Edit

/-- The edit does to the lexemes of the text what the change does. It starts where no word goes on,
and replaces nothing but what the change takes out and white space and comments. -/
structure Carries (code : Text) (e : Edit) (c : Change) : Prop where
  le : e.start ≤ c.start
  start_le : c.start ≤ c.stop
  stop_le : c.stop ≤ e.stop
  cut_start : Cut code c.start
  cut_stop : Cut code c.stop
  cut_end : Cut code e.stop
  behind : Reads (code.drop c.stop) [] (code.drop e.stop)
  first : ∃ d, code[c.start]? = some d ∧ Token.isGap d = false ∧ d ≠ '/' ∧
    (d = '\x7d' ↔ c.start = e.stop)
  anchor : c.start = e.stop → (∀ d ∈ Text.slice code e.start e.stop, Text.isBlank d = true) ∧
    ∀ d ∈ (code.take e.start).getLast?, Text.isBlank d = false
  outside : ∀ d, code[e.start]? = some d → Text.isWord d = false
  text : (e.text = [] ∧ c.words = [] ∧ Introduces code e.stop) ∨
    ∃ d u, e.text = d :: u ∧ isStop d = true ∧ d ≠ '"'
  seam : ∀ p ls r, p ≤ e.start → Reads (code.drop p) ls (code.drop c.start) →
    (e.text = [] → Calm r) → Reads (Text.slice code p e.start ++ (e.text ++ r)) (ls ++ c.words) r

variable {code : Text} {e : Edit} {es : List Edit} {cs : List Change} {p : Nat}

/-- What edits leave of a place that introduces a declaration is calm. -/
theorem calm_assemble (h : es.Forall₂ (Carries code) cs) (hes : Ascending code.length p es)
    (hp : Introduces code p) : Calm (assemble code p es) := by
  induction h generalizing p with
  | nil => exact hp.calm
  | @cons e c es cs he _ ih =>
    obtain ⟨hpe, -, hes⟩ := hes
    rw [assemble]
    rcases hpe.lt_or_eq with hlt | rfl
    · -- the front of what is introduced stays
      rcases hp.front with ⟨d, u, hd, hcalm⟩ | ⟨w, hw, u, hu⟩
      · obtain ⟨v, hv⟩ : ∃ v, Text.slice code p e.start = d :: v := by
          rw [Text.slice, hd, show e.start - p = (e.start - p - 1) + 1 by omega, List.take_succ_cons]
          exact ⟨_, rfl⟩
        rw [hv]
        exact hcalm _
      · -- the edit does not start inside of the word
        have hlength := he.le.trans (he.start_le.trans (he.stop_le.trans he.cut_end.1))
        have hword : w.toList.length ≤ e.start - p := by
          by_contra hshort
          obtain ⟨d, hd⟩ : ∃ d, w.toList[e.start - p]? = some d :=
            ⟨_, List.getElem?_eq_getElem (by omega)⟩
          have hcode : code[e.start]? = some d := by
            rw [show e.start = p + (e.start - p) by omega, ← List.getElem?_drop, ← hu,
              List.getElem?_append_left (by omega), hd]
          have := Grammar.openingWords_isWord hw d (List.mem_of_getElem? hd)
          rw [he.outside d hcode] at this
          cases this
        obtain ⟨v, hv⟩ : ∃ v, Text.slice code p e.start = w.toList ++ v := by
          rw [Text.slice, ← hu, List.take_append, List.take_of_length_le hword]
          exact ⟨_, rfl⟩
        rw [hv, List.append_assoc, List.append_assoc]
        exact Token.calm_of_isFence (Grammar.openingWords_isFence w hw) _
    · rw [show Text.slice code e.start e.start = [] by simp [Text.slice], List.nil_append]
      rcases he.text with ⟨htext, -, hnext⟩ | ⟨d, u, htext, hd, hq⟩
      · rw [htext, List.nil_append]
        exact ih hes hnext
      · rw [htext, List.cons_append]
        exact Token.calm_stop hd hq _

section Assembly

variable {ts : List Token} {a b : Nat} {d : Char}

theorem mem_right {c : Change} (h : es.Forall₂ (Carries code) cs) (hc : c ∈ cs) :
    ∃ e ∈ es, Carries code e c := by
  induction h with
  | nil => cases hc
  | @cons e d es cs he _ ih =>
    rcases List.mem_cons.mp hc with rfl | hc
    · exact ⟨e, by simp, he⟩
    · obtain ⟨e', he', h'⟩ := ih hc
      exact ⟨e', by simp [he'], h'⟩

/-- From a place where something else stands nothing is passed over as white space or comment. -/
theorem eq_of_solid (h : Reads (code.drop a) [] (code.drop b)) (ha : code[a]? = some d)
    (hd : Token.isGap d = false ∧ d ≠ '/') (hb : b ≤ code.length) : b = a := by
  have hlt := (List.getElem?_eq_some_iff.mp ha).1
  rcases h.head_of_nil with heq | ⟨c, u, hc, hgap⟩
  · have := congrArg List.length heq
    simp only [List.length_drop] at this
    omega
  · rw [← List.head?_drop, hc, List.head?_cons, Option.some.injEq] at ha
    rw [ha, hd.1] at hgap
    exact absurd hgap (by simp [hd.2])

/-- There a token stands. -/
theorem exists_token_of_solid (h : Laid code a ts) (ha : code[a]? = some d)
    (hd : Token.isGap d = false ∧ d ≠ '/') :
    ∃ t us, ts = t :: us ∧ t.start = a ∧ ∀ u ∈ us, a < u.start := by
  have hlt := (List.getElem?_eq_some_iff.mp ha).1
  cases h with
  | nil hr hrest =>
    exfalso
    rcases hr.head_of_nil with heq | ⟨c, u, hc, hgap⟩
    · rw [← List.head?_drop, heq] at ha
      rcases hrest with rfl | ⟨x, -, rfl⟩
      · cases ha
      · exact hd.2 (Option.some.inj ha).symm
    · rw [← List.head?_drop, hc, List.head?_cons, Option.some.injEq] at ha
      rw [ha, hd.1] at hgap
      exact absurd hgap (by simp [hd.2])
  | @cons a t us hr hle hlt' hstop htext hl hk hts =>
    have hstart := eq_of_solid hr ha hd (hlt'.le.trans hstop)
    refine ⟨t, us, rfl, hstart, fun u hu => ?_⟩
    have := hts.le_start u hu
    omega

/-- What one edit and the change that it carries make of the tokens in front of it and at it. -/
theorem respell_cons_edit {c : Change} {us vs ms ws : List Token} (he : Carries code e c)
    (hcs : ∀ d ∈ cs, e.stop ≤ d.start) (hvs : Laid code c.start vs) (heq : vs = ms ++ ws)
    (hus : ∀ t ∈ us, t.start < c.start) (hms : ∀ t ∈ ms, c.start ≤ t.start ∧ t.start < c.stop)
    (hws : ∀ t ∈ ws, e.stop ≤ t.start) :
    respell (c :: cs) (us ++ vs) = us.map Token.word ++ c.words ++ respell cs ws := by
  obtain ⟨d, hd, hgap, hslash, -⟩ := he.first
  have hle := he.start_le
  have hstop := he.stop_le
  have hfront : respell (c :: cs) us = us.map Token.word := by
    refine Token.respell_of_lt fun t ht d hd => ?_
    have := hus t ht
    rcases List.mem_cons.mp hd with rfl | hd
    · exact this
    · have := hcs d hd
      omega
  obtain ⟨t, rest, hrest, hstart, hbehind⟩ := exists_token_of_solid hvs hd ⟨hgap, hslash⟩
  rw [Token.respell_append, hfront, List.append_assoc]
  congr 1
  rcases hle.lt_or_eq with hlt | hpoint
  · -- the tokens of the range
    obtain ⟨ms', rfl⟩ : ∃ ms', ms = t :: ms' := by
      cases ms with
      | nil =>
        rw [heq, List.nil_append] at hrest
        have := hws t (by simp [hrest])
        omega
      | cons u us =>
        rw [hrest, List.cons_append, List.cons.injEq] at heq
        exact ⟨us, by rw [heq.1]⟩
    have hms' : ∀ u ∈ ms', c.start < u.start ∧ u.start < c.stop := fun u hu => by
      refine ⟨hbehind u ?_, (hms u (by simp [hu])).2⟩
      rw [hrest, List.cons_append, List.cons.injEq] at heq
      simp [heq.2, hu]
    rw [heq, Token.respell_append, Token.respell_range hstart hlt hms' fun d hd =>
      hstop.trans (hcs d hd)]
    congr 1
    exact Token.respell_of_ge fun u hu => by
      have := hws u hu
      omega
  · -- no tokens are taken out
    obtain rfl : ms = [] := by
      rw [List.eq_nil_iff_forall_not_mem]
      intro u hu
      have := hms u hu
      omega
    rw [List.nil_append] at heq
    rw [← heq, hrest, Token.respell_point hstart hpoint.ge hbehind]

/-- Edits one after the other make of a source what their changes make of its tokens. -/
theorem assemble_reads (h : es.Forall₂ (Carries code) cs) (hes : Ascending code.length p es)
    (hp : Cut code p) (hl : Laid code p ts) :
    ∃ r, Reads (assemble code p es) (respell cs ts) r ∧ Rest r := by
  induction h generalizing p ts with
  | nil =>
    obtain ⟨r, hr, hrest⟩ := hl.reads
    rw [Token.respell_of_lt fun _ _ c hc => absurd hc List.not_mem_nil]
    exact ⟨r, hr, hrest⟩
  | @cons e c es cs he hrest ih =>
    obtain ⟨hpe, -, hes⟩ := hes
    have hcs : ∀ d ∈ cs, e.stop ≤ d.start := fun d hd => by
      obtain ⟨e', he', hd'⟩ := mem_right hrest hd
      exact (hes.start_le e' he').trans hd'.le
    obtain ⟨us, vs, rfl, hus, hvs, hus', -⟩ := hl.split hp he.cut_start (hpe.trans he.le)
    obtain ⟨ms, vs', hvs', hms, hlaid, hms', -⟩ := hvs.split he.cut_start he.cut_stop he.start_le
    obtain ⟨ns, ws, rfl, hns, hws, -, hws'⟩ := hlaid.split he.cut_stop he.cut_end he.stop_le
    obtain rfl : ns = [] := by simpa using hns.unique he.behind
    rw [List.nil_append] at hvs'
    obtain ⟨r, hr, hend⟩ := ih hes he.cut_end hws
    have hcalm : e.text = [] → Calm (assemble code e.stop es) := fun htext => by
      rcases he.text with ⟨-, -, hnext⟩ | ⟨d, u, hd, -⟩
      · exact calm_assemble hrest hes hnext
      · rw [htext] at hd
        cases hd
    refine ⟨r, ?_, hend⟩
    rw [respell_cons_edit he hcs hvs hvs' (fun t ht => (hus' t ht).2) hms' hws', assemble,
      List.append_assoc]
    exact (he.seam p _ _ hpe hus hcalm).trans hr

end Assembly

section Order

variable {d : Edit} {c' : Change} {ts : List Token}

/-- The change of the edit that stands in front is at an earlier token. -/
theorem Carries.start_lt {c : Change} (h : Carries code e c) (h' : Carries code d c')
    (hclear : max e.stop (e.start + 1) ≤ d.start) : c.start < c'.start := by
  have hle := (h.start_le.trans h.stop_le).trans ((le_max_left _ _).trans hclear)
  refine (hle.trans h'.le).lt_of_ne fun heq => ?_
  -- both would stand at the same brace, and what stands in front of that is white space or not
  have hstop : c.start = e.stop := by
    have := h.start_le.trans h.stop_le
    have := h'.le
    omega
  have hstart : d.start = e.stop := by
    have := h'.le
    omega
  obtain ⟨x, hx, -, -, hbrace⟩ := h.first
  obtain ⟨x', hx', -, -, hbrace'⟩ := h'.first
  obtain rfl : x' = x := by
    rw [← heq, hx] at hx'
    exact (Option.some.inj hx').symm
  have hpoint := hbrace'.mp (hbrace.mpr hstop)
  obtain ⟨-, hsolid⟩ := h'.anchor hpoint
  obtain ⟨hblank, -⟩ := h.anchor hstop
  have hlength := h.cut_end.1
  obtain ⟨y, hy⟩ : ∃ y, code[d.start - 1]? = some y := ⟨_, List.getElem?_eq_getElem (by omega)⟩
  have hlast : (code.take d.start).getLast? = some y := by
    rw [List.getLast?_eq_getElem?, List.length_take, Nat.min_eq_left (by omega),
      List.getElem?_take, if_pos (by omega), hy]
  have hmem : y ∈ Text.slice code e.start e.stop := List.mem_iff_getElem?.mpr
    ⟨d.start - 1 - e.start, by
      rw [Text.slice, List.getElem?_take, if_pos (by omega), List.getElem?_drop, ← hy]
      congr 1
      omega⟩
  have := hsolid y hlast
  rw [hblank y hmem] at this
  cases this

theorem Carries.start_ne {c : Change} (h : Carries code e c) (h' : Carries code d c')
    (hclear : Clear e d) : c.start ≠ c'.start := by
  rcases clear_iff.mp hclear with hlt | hlt
  · exact (h.start_lt h' hlt).ne
  · exact (h'.start_lt h hlt).ne'

theorem start_pairwise (h : es.Forall₂ (Carries code) cs) (hc : es.Pairwise Clear) :
    cs.Pairwise fun c c' => c.start ≠ c'.start := by
  induction h with
  | nil => exact .nil
  | @cons e c es cs he hrest ih =>
    obtain ⟨hfirst, hc⟩ := List.pairwise_cons.mp hc
    refine .cons (fun c' hc' => ?_) (ih hc)
    obtain ⟨d, hd, hd'⟩ := mem_right hrest hc'
    exact he.start_ne hd' (hfirst d hd)

/-- Whatever their order, edits that keep clear of each other make of a source what their changes
make of its tokens. -/
theorem words_applyAll (h : es.Forall₂ (Carries code) cs) (hw : ∀ e ∈ es, Within code e)
    (hc : es.Pairwise Clear) (hl : Laid code 0 ts) :
    Token.words (applyAll code es) = .ok (respell cs ts) := by
  obtain ⟨cs', hcs', hperm⟩ :=
    List.perm_comp_forall₂ ((List.reverse_perm _).trans (ordered_perm es)) h
  rw [applyAll_eq_assemble hw hc, ← Token.respell_perm (start_pairwise h hc) hperm,
    Token.words_eq_ok_iff]
  exact assemble_reads hcs' (ascending_ordered hw hc) (cut_zero code) hl

end Order

section Sites

variable {start stop brace : Nat} {d : Char}

theorem mem_slice {a b : Nat} {c : Char} (h : c ∈ Text.slice code a b) :
    ∃ i, a ≤ i ∧ i < b ∧ code[i]? = some c := by
  obtain ⟨j, hj, hc⟩ := List.getElem_of_mem h
  have hlt : j < b - a := by
    have := hj
    rw [Text.slice, List.length_take] at this
    omega
  refine ⟨a + j, by omega, by omega, ?_⟩
  rw [← List.getElem?_drop, ← hc, ← List.getElem?_eq_getElem hj, Text.slice, List.getElem?_take,
    if_pos hlt]

theorem not_blank_of_word {c : Char} (hc : Text.isWord c = true) : Text.isBlank c = false := by
  by_contra h
  rw [Bool.not_eq_false] at h
  rw [(Token.isStop_iff.mp (Token.isStop_of_isBlank h)).1] at hc
  cases hc

/-- Behind the attribute a removal takes white space only. -/
theorem removal_stop_blank (start : Nat) (hle : stop ≤ code.length) :
    ∀ c ∈ Text.slice code stop (removal code start stop).stop, Text.isBlank c = true := by
  rw [removal]
  split
  next h =>
    intro c hc
    obtain ⟨i, hi, hlt, hget⟩ := mem_slice hc
    rcases Nat.lt_or_ge i (Text.lineEnd code stop) with hbefore | hafter
    · refine List.all_eq_true.mp h.2 c (List.mem_iff_getElem?.mpr ⟨i - stop, ?_⟩)
      rw [Text.slice, List.getElem?_take, if_pos (by omega), List.getElem?_drop,
        Nat.add_sub_cancel' hi, hget]
    · obtain rfl : i = Text.lineEnd code stop := by
        dsimp only at hlt
        omega
      rcases Text.lineEnd_eq hle with hline | hend
      · rw [hget, Option.some.injEq] at hline
        subst hline
        rfl
      · rw [hend, List.getElem?_eq_none le_rfl] at hget
        cases hget
  next h =>
    intro c hc
    rw [Text.slice, Nat.add_sub_cancel_left, Text.leadingIndent,
      List.prefix_iff_eq_take.mp (List.takeWhile_prefix _) |>.symm] at hc
    exact Token.isBlank_of_isIndent (List.mem_takeWhile_imp hc)

/-- A removal starts at the attribute, or at its line if only white space stands before it. -/
theorem removal_start_cases (code : Text) (start stop : Nat) :
    (removal code start stop).start = start ∨
    (removal code start stop).start = Text.lineStart code start ∧
      ∀ c ∈ Text.slice code (Text.lineStart code start) start, Text.isBlank c = true := by
  rw [removal]
  split
  next h => exact .inr ⟨rfl, List.all_eq_true.mp h.1⟩
  next => exact .inl rfl

/-- In front of a removal all is read as before. -/
theorem removal_seam {p : Nat} {ls : List Word} {r : Text}
    (hat : code[start]? = some '@') (hsettled : Token.Settled (code.take start))
    (hp : p ≤ (removal code start stop).start) (hread : Reads (code.drop p) ls (code.drop start))
    (hr : Calm r) : Reads (Text.slice code p (removal code start stop).start ++ r) ls r := by
  have hlast : ∀ a ≤ start, ∀ d ∈ (Text.slice code p a).getLast?, d ∈ (code.take a).getLast? := by
    intro a ha d hd
    rcases Nat.lt_or_ge a p with hlt | hge
    · rw [Text.slice, Nat.sub_eq_zero_of_le hlt.le] at hd
      cases hd
    · have hsplit := slice_append_slice (s := code) (Nat.zero_le p) hge
      simp only [Text.slice, List.drop_zero, Nat.sub_zero] at hsplit hd
      rw [← hsplit, List.getLast?_append, hd]
      rfl
  rcases removal_start_cases code start stop with heq | ⟨heq, hblank⟩
  · rw [heq] at hp ⊢
    refine hread.seam (slice_append_drop hp).symm (fun d hd => hsettled d (hlast start le_rfl d hd)) ?_ hr
    intro c hc
    rw [List.head?_drop, hat] at hc
    cases hc
    decide
  · rw [heq] at hp ⊢
    have hstart := Text.lineStart_le code start
    have hsplit : code.drop p = Text.slice code p (Text.lineStart code start) ++
        Text.slice code (Text.lineStart code start) start ++ code.drop start := by
      rw [List.append_assoc, slice_append_drop hstart, slice_append_drop hp]
    rcases List.eq_nil_or_concat (Text.slice code p (Text.lineStart code start)) with hnil | ⟨x, d, hx⟩
    · rw [hnil, List.nil_append] at hsplit ⊢
      rw [(hread.blank hsplit hblank).1]
      exact .done r
    · -- the line end in front is white space as well
      obtain rfl : d = '\n' := by
        refine (Text.slice_lineStart code start).2.2 d (hlast _ hstart d ?_)
        rw [hx]
        simp
      rw [List.concat_eq_append] at hx
      rw [hx] at hsplit ⊢
      have := hread.trim (x := x) (w := '\n' :: Text.slice code (Text.lineStart code start) start)
        (by rw [hsplit]; simp) (by simpa using ⟨by decide, hblank⟩) r
      simpa using this

/-- Behind a removal stands what introduces a declaration, as it does behind the attribute. -/
theorem removal_introduces (start : Nat) (hle : stop ≤ brace) (hb : code[brace]? = some '\x7b')
    (hnext : Introduces code stop) : Reads (code.drop stop) [] (code.drop (removal code start stop).stop) ∧
      Introduces code (removal code start stop).stop := by
  obtain ⟨-, -, hbehind, -⟩ := @removal_bounds code start stop brace hle hb
  have hlength := (List.getElem?_eq_some_iff.mp hb).1
  have hblank := removal_stop_blank start (hle.trans hlength.le)
  have hsplit := slice_append_drop (s := code) hbehind
  obtain ⟨n, hn, hread, hfirst⟩ := hnext
  have hnotblank : ∃ d, code[n]? = some d ∧ Text.isBlank d = false := by
    rcases hfirst with hat | ⟨w, hw, hprefix⟩
    · exact ⟨'@', hat, by decide⟩
    · obtain ⟨d, u, hd⟩ : ∃ d u, w.toList = d :: u := by
        cases hl : w.toList with
        | nil =>
          have := Grammar.openingWords_isFence w hw
          rw [hl] at this
          cases this
        | cons d u => exact ⟨d, u, rfl⟩
      refine ⟨d, ?_, not_blank_of_word (Grammar.openingWords_isWord hw d (by simp [hd]))⟩
      obtain ⟨v, hv⟩ := hprefix
      rw [← List.head?_drop, ← hv, hd]
      rfl
  have hen : (removal code start stop).stop ≤ n := by
    by_contra hlt
    obtain ⟨d, hd, hnot⟩ := hnotblank
    have hmem : d ∈ Text.slice code stop (removal code start stop).stop := by
      refine List.mem_iff_getElem?.mpr ⟨n - stop, ?_⟩
      rw [Text.slice, List.getElem?_take, if_pos (by omega), List.getElem?_drop,
        Nat.add_sub_cancel' hn, hd]
    rw [hblank d hmem] at hnot
    cases hnot
  obtain ⟨hgaps, hread'⟩ := (hsplit ▸ hread).drop_blanks hblank (by
    simp only [List.length_drop]
    omega)
  refine ⟨?_, n, hen, hread', hfirst⟩
  rw [← hsplit]
  exact Reads.of_gaps hgaps _

/-- A removal carries the change that takes out the attribute. -/
theorem removal_carries (hlt : start < stop) (hle : stop ≤ brace) (hb : code[brace]? = some '\x7b')
    (hstart : Cut code start) (hstop : Cut code stop) (hat : code[start]? = some '@')
    (hnext : Introduces code stop) (hsettled : Token.Settled (code.take start)) :
    Carries code (removal code start stop) ⟨start, stop, []⟩ := by
  obtain ⟨htext, hbefore, hbehind, hend⟩ := @removal_bounds code start stop brace hle hb
  have hlength := (List.getElem?_eq_some_iff.mp hb).1
  obtain ⟨hgap, hintroduces⟩ := removal_introduces start hle hb hnext
  refine ⟨hbefore, hlt.le, hbehind, hstart, hstop, hstop.of_reads (hend.trans hlength.le) hgap, hgap,
    ⟨'@', hat, by decide, by decide, ?_⟩, fun h => ?_, ?_, .inl ⟨htext, rfl, hintroduces⟩, ?_⟩
  · exact iff_of_false (by decide) (by dsimp only; omega)
  · dsimp only at h
    omega
  · intro d hd
    rcases removal_start_cases code start stop with heq | ⟨heq, hblank⟩
    · rw [heq, hat, Option.some.injEq] at hd
      subst hd
      decide
    · rcases hbefore.lt_or_eq with hlt | heq'
      · refine (Token.isStop_iff.mp (Token.isStop_of_isBlank (hblank d ?_))).1
        refine List.mem_iff_getElem?.mpr ⟨0, ?_⟩
        rw [Text.slice, List.getElem?_take, if_pos (by omega), List.getElem?_drop, ← heq]
        exact hd
      · rw [heq', hat, Option.some.injEq] at hd
        subst hd
        decide
  · intro p ls r hp hread hcalm
    rw [htext, List.nil_append, List.append_nil]
    exact removal_seam hat hsettled hp hread (hcalm htext)

/-- Texts that are read whatever stands behind them, with blank lines between them. -/
theorem reads_join {ts : List Text} {lss : List (List Word)} {r : Text}
    (h : ts.Forall₂ (fun t ls => ∀ r, Reads (t ++ r) ls r) lss) :
    Reads (Text.join "\n\n".toList ts ++ r) lss.flatten r := by
  induction h with
  | nil => exact .done r
  | @cons t ls ts lss ht hts ih =>
    cases hts with
    | nil => simpa [Text.join] using ht r
    | @cons u ms us mss hu hus =>
      have hgaps : ∀ c ∈ "\n\n".toList, Token.isGap c = true := by
        simp [Token.isGap]
      rw [Text.join, List.append_assoc, List.append_assoc]
      exact (ht _).trans ((Reads.of_gaps hgaps _).trans ih)

/-- Behind what stands in a block there is white space up to the brace. -/
theorem insertion_anchor {block : MemberBlock} (hb : block.Spans code) (members : List Text)
    (outer inner : Text) :
    let e := insertion code block members outer inner
    (∀ d ∈ Text.slice code e.start e.stop, Text.isBlank d = true) ∧
      ∀ d ∈ (code.take e.start).getLast?, Text.isBlank d = false := by
  have hlt := hb.lt
  have hle := hb.le
  obtain ⟨w, hw, hblank⟩ := Text.trimEnd_append (Text.slice code (block.start + 1) (block.stop - 1))
  set x := Text.trimEnd (Text.slice code (block.start + 1) (block.stop - 1)) with hx
  have hlength := slice_length (s := code) (a := block.start + 1) (b := block.stop - 1) (by omega)
  rw [hw, List.length_append] at hlength
  have hstart : (insertion code block members outer inner).start = block.start + 1 + x.length := rfl
  have hstop : (insertion code block members outer inner).stop = block.stop - 1 := rfl
  have hsplit := slice_append_slice (s := code) (a := block.start + 1)
    (b := block.start + 1 + x.length) (c := block.stop - 1) (by omega) (by omega)
  obtain ⟨hfront, hback⟩ : Text.slice code (block.start + 1) (block.start + 1 + x.length) = x ∧
      Text.slice code (block.start + 1 + x.length) (block.stop - 1) = w := by
    rw [hw] at hsplit
    exact List.append_inj hsplit (by rw [slice_length (by omega)]; omega)
  dsimp only
  rw [hstart, hstop, hback]
  refine ⟨hblank, fun d hd => ?_⟩
  have htake : code.take (block.start + 1 + x.length) = code.take (block.start + 1) ++ x := by
    rw [Text.slice, Nat.add_sub_cancel_left] at hfront
    rw [List.take_add, hfront]
  rw [htake] at hd
  rcases List.eq_nil_or_concat x with hnil | ⟨y, c, hy⟩
  · have hopening := hb.opening
    rw [hnil, List.append_nil, List.take_add_one, hopening] at hd
    simp only [Option.toList_some, List.getLast?_append, List.getLast?_singleton,
      Option.some_or, Option.mem_def, Option.some.injEq] at hd
    subst hd
    rfl
  · rw [List.concat_eq_append] at hy
    have hlast : x.getLast? = some d := by
      rw [hy] at hd ⊢
      simpa using hd
    rw [hx, Text.trimEnd, Text.dropWhileEnd, List.getLast?_reverse] at hlast
    have := List.head?_dropWhile_not Text.isBlank
      (Text.slice code (block.start + 1) (block.stop - 1)).reverse
    rw [hlast] at this
    simpa using this

/-- What is inserted starts with a line end, and is read as the members are. -/
theorem insertion_text {block : MemberBlock} {members : List Text} {outer inner : Text}
    {lss : List (List Word)} (houter : ∀ c ∈ outer, Text.isIndent c = true)
    (hm : (members.map (indented inner)).Forall₂ (fun t ls => ∀ r, Reads (t ++ r) ls r) lss) :
    ∃ u, (insertion code block members outer inner).text = '\n' :: u ∧
      ∀ r, Reads (u ++ r) lss.flatten r := by
  have hgaps : ∀ c ∈ '\n' :: outer, Token.isGap c = true :=
    List.forall_mem_cons.mpr ⟨rfl, fun c hc => Token.isGap_of_isIndent (houter c hc)⟩
  have htail : ∀ r, Reads (Text.join "\n\n".toList (members.map (indented inner)) ++
      '\n' :: outer ++ r) lss.flatten r := fun r => by
    rw [List.append_assoc]
    simpa using (reads_join hm).trans (Reads.of_gaps hgaps r)
  simp only [insertion]
  split
  · refine ⟨'\n' :: (Text.join "\n\n".toList (members.map (indented inner)) ++ '\n' :: outer),
      rfl, fun r => ?_⟩
    exact .chunk (x := ['\n']) (a := []) (.gap rfl) (htail r)
  · exact ⟨_, rfl, htail⟩

/-- An insertion carries the change that puts the lexemes of the members in front of the brace. -/
theorem insertion_carries {block : MemberBlock} {members : List Text} {outer inner : Text}
    {lss : List (List Word)} (hb : block.Spans code)
    (houter : ∀ c ∈ outer, Text.isIndent c = true)
    (hm : (members.map (indented inner)).Forall₂ (fun t ls => ∀ r, Reads (t ++ r) ls r) lss) :
    Carries code (insertion code block members outer inner)
      ⟨block.stop - 1, block.stop - 1, lss.flatten⟩ := by
  obtain ⟨-, hbefore, hstop⟩ := insertion_bounds hb.lt hb.le members outer inner
  obtain ⟨hblank, hsolid⟩ := insertion_anchor hb members outer inner
  obtain ⟨u, hu, hread⟩ := @insertion_text code block members outer inner lss houter hm
  refine ⟨hstop ▸ hbefore, le_rfl, hstop.ge, hb.cut_closing, hb.cut_closing, hstop ▸ hb.cut_closing,
    hstop ▸ .done _, ⟨'\x7d', hb.closing, by decide, by decide, iff_of_true rfl hstop.symm⟩,
    fun _ => ⟨hblank, hsolid⟩, ?_, .inr ⟨'\n', u, hu, by decide, by decide⟩, ?_⟩
  · intro d hd
    rcases hbefore.lt_or_eq with hlt | heq
    · refine (Token.isStop_iff.mp (Token.isStop_of_isBlank (hblank d ?_))).1
      exact List.mem_iff_getElem?.mpr ⟨0, by
        rw [Text.slice, List.getElem?_take, if_pos (by omega), List.getElem?_drop]
        exact hd⟩
    · rw [heq, hstop, hb.closing, Option.some.injEq] at hd
      subst hd
      decide
  · intro p ls r hp hfront _
    rw [hu]
    have hsplit : code.drop p = Text.slice code p (insertion code block members outer inner).start ++
        Text.slice code (insertion code block members outer inner).start (block.stop - 1) ++
          code.drop (block.stop - 1) := by
      rw [List.append_assoc, slice_append_drop (hstop ▸ hbefore), slice_append_drop hp]
    exact (hfront.trim hsplit (hstop ▸ hblank) (u ++ r)).trans (hread r)

/-- A replacement carries the change that puts its lexemes in place of those of its range. -/
theorem replacement_carries {text u : Text} {ls : List Word} (hlt : start < stop)
    (hstart : Cut code start) (hstop : Cut code stop) (hpound : code[start]? = some '#')
    (htext : text = '\x7b' :: u) (hread : ∀ r, Reads (text ++ r) ls r) :
    Carries code ⟨start, stop, text⟩ ⟨start, stop, ls⟩ := by
  refine ⟨le_rfl, hlt.le, le_rfl, hstart, hstop, hstop, .done _,
    ⟨'#', hpound, by decide, by decide, iff_of_false (by decide) hlt.ne⟩, fun h => absurd h hlt.ne, ?_,
    .inr ⟨'\x7b', u, htext, by decide, by decide⟩, ?_⟩
  · intro d hd
    rw [hpound, Option.some.injEq] at hd
    subst hd
    decide
  · intro p ms r hp hfront _
    have hbrace : Token.Stops (text ++ r) := by
      rw [htext]
      exact Token.stops_cons (by decide)
    refine (hfront.append (slice_append_drop hp).symm ?_ ?_).trans (hread r)
    · exact .inl (hbrace.apart _)
    · rw [htext]
      rintro ⟨⟩

end Sites

end Edit

end SwiftMacros
