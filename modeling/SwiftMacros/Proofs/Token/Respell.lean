import Mathlib
import SwiftMacros.Proofs.Cursor.Arranged

/-! Changes to the tokens of a source. A change takes out the tokens that start in a range and puts
lexemes where the range starts. Cuts divide the tokens of a source, and what changes make of them is
told part by part. -/

namespace SwiftMacros.Token

/-- Lexemes in place of the tokens that start in a range. -/
structure Change where
  start : Nat
  stop : Nat
  words : List Word

namespace Change

/-- Whether a token that starts at an offset is taken out. -/
def covers (c : Change) (offset : Nat) : Bool := c.start ≤ offset && offset < c.stop

/-- What changes make of a token: the lexemes that are put where it starts, and the token itself
unless it is taken out. -/
def respell (cs : List Change) (t : Token) : List Word :=
  (cs.filter (·.start = t.start)).flatMap (·.words) ++
    if cs.any (·.covers t.start) then [] else [t.word]

end Change

/-- What changes make of the tokens of a source. -/
def respell (cs : List Change) (ts : List Token) : List Word := ts.flatMap (Change.respell cs)

section Respell

variable {c : Change} {cs ds : List Change} {t : Token} {ts us : List Token}

theorem respell_append (cs : List Change) (ts us : List Token) :
    respell cs (ts ++ us) = respell cs ts ++ respell cs us := List.flatMap_append

theorem respell_cons (cs : List Change) (t : Token) (ts : List Token) :
    respell cs (t :: ts) = Change.respell cs t ++ respell cs ts := List.flatMap_cons

/-- A lexeme behind changes is that of a token which is not taken out, or one of a change. -/
theorem mem_respell {w : Word} (h : w ∈ respell cs ts) :
    (∃ t ∈ ts, t.word = w ∧ ∀ c ∈ cs, c.covers t.start = false) ∨ ∃ c ∈ cs, w ∈ c.words := by
  obtain ⟨t, ht, hw⟩ := List.mem_flatMap.mp h
  rcases List.mem_append.mp hw with hw | hw
  · obtain ⟨c, hc, hw⟩ := List.mem_flatMap.mp hw
    exact .inr ⟨c, List.mem_of_mem_filter hc, hw⟩
  · split at hw
    · cases hw
    · rename_i hany
      exact .inl ⟨t, ht, (List.mem_singleton.mp hw).symm, by simpa using hany⟩

/-- Tokens in front of all changes stay. -/
theorem respell_of_lt (h : ∀ t ∈ ts, ∀ c ∈ cs, t.start < c.start) : respell cs ts = ts.map word := by
  induction ts with
  | nil => rfl
  | cons t ts ih =>
    have ht := h t (by simp)
    have hnone : cs.filter (·.start = t.start) = [] := by
      simpa [List.filter_eq_nil_iff] using fun c hc => (ht c hc).ne'
    have hany : cs.any (·.covers t.start) = false := by
      simp only [List.any_eq_false, Change.covers, Bool.and_eq_true, decide_eq_true_eq, not_and]
      intro c hc hle
      exact absurd (ht c hc) (by omega)
    rw [respell_cons, ih fun u hu => h u (by simp [hu]), Change.respell, hnone, hany]
    rfl

/-- A change does nothing to the tokens behind its range. -/
theorem respell_of_ge (h : ∀ t ∈ ts, c.start < t.start ∧ c.stop ≤ t.start) :
    respell (c :: cs) ts = respell cs ts := by
  refine List.flatMap_congr fun t ht => ?_
  obtain ⟨hstart, hstop⟩ := h t ht
  have hcovers : c.covers t.start = false := by
    simp only [Change.covers, Bool.and_eq_false_iff, decide_eq_false_iff_not]
    omega
  simp [Change.respell, hstart.ne, hcovers]

/-- The tokens of its range give way to the lexemes of a change. -/
theorem respell_range (ht : t.start = c.start) (hlt : c.start < c.stop)
    (hts : ∀ u ∈ ts, c.start < u.start ∧ u.start < c.stop)
    (hcs : ∀ d ∈ cs, c.stop ≤ d.start) : respell (c :: cs) (t :: ts) = c.words := by
  have hnone : ∀ u ∈ t :: ts, cs.filter (·.start = u.start) = [] := by
    intro u hu
    simp only [List.filter_eq_nil_iff, decide_eq_true_eq]
    intro d hd
    have := hcs d hd
    rcases List.mem_cons.mp hu with rfl | hu
    · omega
    · have := hts u hu
      omega
  have hcovers : ∀ u ∈ t :: ts, c.covers u.start = true := by
    intro u hu
    simp only [Change.covers, Bool.and_eq_true, decide_eq_true_eq]
    rcases List.mem_cons.mp hu with rfl | hu
    · omega
    · have := hts u hu
      omega
  have hrest : respell (c :: cs) ts = [] := by
    rw [respell, List.flatMap_eq_nil_iff]
    intro u hu
    simp [Change.respell, (hts u hu).1.ne, hnone u (by simp [hu]), hcovers u (by simp [hu])]
  rw [respell_cons, hrest, Change.respell, List.any_cons, hcovers t (by simp)]
  simp [ht.symm, hnone t (by simp)]

/-- A change without a range puts its lexemes in front of a token. -/
theorem respell_point (ht : t.start = c.start) (hc : c.stop ≤ c.start)
    (hts : ∀ u ∈ ts, c.start < u.start) :
    respell (c :: cs) (t :: ts) = c.words ++ respell cs (t :: ts) := by
  have hcovers : c.covers t.start = false := by
    simp only [Change.covers, Bool.and_eq_false_iff, decide_eq_false_iff_not]
    omega
  have hrest : respell (c :: cs) ts = respell cs ts := respell_of_ge fun u hu => by
    have := hts u hu
    omega
  rw [respell_cons, respell_cons, hrest, Change.respell, Change.respell, List.any_cons, hcovers]
  simp [ht.symm]

/-- The order of changes does not matter if no two start at the same token. -/
theorem respell_perm (hc : cs.Pairwise fun c d => c.start ≠ d.start) (hp : ds.Perm cs) :
    respell ds ts = respell cs ts := by
  refine List.flatMap_congr fun t _ => ?_
  have hone : ∀ es : List Change, es.Pairwise (fun c d => c.start ≠ d.start) →
      (es.filter (·.start = t.start)).Pairwise fun _ _ => False := by
    intro es hes
    refine (hes.filter fun e => e.start = t.start).imp_of_mem fun hd he h => h ?_
    rw [List.mem_filter, decide_eq_true_eq] at hd he
    rw [hd.2, he.2]
  have hfilter : ds.filter (·.start = t.start) = cs.filter (·.start = t.start) :=
    List.Perm.eq_of_pairwise (fun _ _ _ _ h => h.elim)
      (hone ds ((hp.pairwise_iff fun h => Ne.symm h).mpr hc)) (hone cs hc) (hp.filter _)
  rw [Change.respell, Change.respell, hfilter, hp.any_eq]

end Respell

section Cuts

variable {s x u r : Text} {a b : Nat} {ls : List Word} {ts : List Token}

/-- A line comment without a line end is read no further. -/
theorem Rest.eq_of_reads (h : Rest r) (hr : Reads r ls u) : u = r := by
  generalize hv : r = v at hr
  cases hr with
  | done => rfl
  | @chunk x w _ a ls hc hrest =>
    rcases h with rfl | ⟨y, hy, rfl⟩
    · exact absurd (List.append_eq_nil_iff.mp hv.symm).1 hc.ne_nil
    · have hline : '\n' ∉ lineComment ++ y := by
        simpa [lineComment] using fun hmem => hy _ hmem rfl
      exfalso
      generalize hx : x = z at hc
      cases hc with
      | gap hg =>
        subst hx
        cases hv
        revert hg
        decide
      | lineComment =>
        subst hx
        exact hline (hv ▸ by simp)
      | blockComment hp =>
        obtain ⟨z, rfl⟩ := hp
        subst hx
        cases hv
      | lexeme hl hk =>
        subst hx
        have := not_significant_of_lineComment (hv ▸ List.prefix_append lineComment y) hl
        simp [hk] at this

/-- A reading takes the chunk at the front as a whole. -/
theorem Chunk.le_of_reads {y : List Word} (hc : Chunk x y u) (hr : Reads (x ++ u) ls r)
    (hne : r ≠ x ++ u) : r.length ≤ u.length := by
  generalize ht : x ++ u = t at hr hne
  cases hr with
  | done => exact absurd rfl hne
  | chunk hc' hrest =>
    obtain ⟨rfl, -, rfl⟩ := hc.unique hc' ht
    exact hrest.suffix.length_le

theorem Laid.le_start (h : Laid s a ts) : ∀ t ∈ ts, a ≤ t.start := by
  induction h with
  | nil => simp
  | cons _ hle hlt _ _ _ _ _ ih =>
    simp only [List.forall_mem_cons]
    exact ⟨hle, fun u hu => hle.trans (hlt.le.trans (ih u hu))⟩

/-- A cut divides the tokens behind another one. -/
theorem Laid.split (h : Laid s a ts) (ha : Cut s a) (hb : Cut s b) (hab : a ≤ b) :
    ∃ us vs, ts = us ++ vs ∧ Reads (s.drop a) (us.map word) (s.drop b) ∧ Laid s b vs ∧
      (∀ t ∈ us, a ≤ t.start ∧ t.start < b) ∧ ∀ t ∈ vs, b ≤ t.start := by
  induction h with
  | @nil a r hr hrest =>
    obtain ⟨ls, hls⟩ := ha.reads hb hab
    have hle : r.length ≤ (s.drop b).length := by
      by_contra hlt
      obtain ⟨ns, -, hns⟩ := hr.between hls (by omega)
      rw [hrest.eq_of_reads hns] at hlt
      omega
    obtain ⟨ns, hns, hrest'⟩ := hls.between hr hle
    obtain ⟨rfl, rfl⟩ := List.append_eq_nil_iff.mp hns.symm
    exact ⟨[], [], rfl, hls, .nil hrest' hrest, by simp, by simp⟩
  | @cons a t ts hr hle hlt hstop htext hl hk hts ih =>
    have hbefore := (Laid.cons hr hle hlt hstop htext hl hk hts).le_start
    have hstart : Cut s t.start := ha.of_reads (by omega) hr
    have hsplit : s.drop t.start = t.text ++ s.drop t.stop := by
      rw [htext, slice_append_drop hlt.le]
    have hchunk : Chunk t.text [t.word] (s.drop t.stop) := by
      rw [hsplit] at hl
      have hlen : t.text.length = t.stop - t.start := by rw [htext, slice_length hstop]
      exact .lexeme (hlen ▸ hl) hk
    have hword : Reads (s.drop t.start) [t.word] (s.drop t.stop) := hsplit ▸ .chunk hchunk (.done _)
    rcases Nat.lt_or_ge t.start b with hlt' | hge
    · obtain ⟨ls, hls⟩ := hstart.reads hb hlt'.le
      have hb' := hb.1
      have hle' : t.stop ≤ b := by
        have := hchunk.le_of_reads (hsplit ▸ hls) (by
          rw [← hsplit]
          intro h
          have := congrArg List.length h
          simp only [List.length_drop] at this
          omega)
        simp only [List.length_drop] at this
        omega
      obtain ⟨us, vs, rfl, hus, hvs, hlo, hhi⟩ := ih (hstart.of_reads hstop hword) hle'
      refine ⟨t :: us, vs, rfl, ?_, hvs, ?_, hhi⟩
      · exact hr.trans (hword.trans hus)
      · simp only [List.forall_mem_cons]
        exact ⟨⟨hle, hlt'⟩, fun u hu => ⟨by have := (hlo u hu).1; omega, (hlo u hu).2⟩⟩
    · obtain ⟨ls, hls⟩ := ha.reads hb hab
      obtain ⟨ns, hns, hread⟩ := hls.between hr (by simp only [List.length_drop]; omega)
      obtain ⟨rfl, rfl⟩ := List.append_eq_nil_iff.mp hns.symm
      have hlaid : Laid s b (t :: ts) := .cons hread hge hlt hstop htext hl hk hts
      exact ⟨[], t :: ts, rfl, hls, hlaid, by simp, hlaid.le_start⟩

end Cuts

end SwiftMacros.Token
