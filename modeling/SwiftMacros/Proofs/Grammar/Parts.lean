import Mathlib
import SwiftMacros.Proofs.Grammar.Visits

/-! The parts of a signature. Each of them is a slice of the source, and a macro in one of them has its closure
there as well; so the part holds what is behind the macro, wherever it is put. -/

namespace SwiftMacros

open Token (Word Stretch Held Bears isMarkChar nested segment)
open SwiftMacros.Parser

namespace Token

variable {m : Word → Bool} {K : Token → List Token → Prop} {s : Text} {a b z : Nat} {g k : Gap} {ts us : List Token}

/-- A slice of a source holds what is behind the macros in it, if that ends there. -/
theorem Stretch.bears_slice (h : Stretch s a z g k ts us) (hb : Brink s b) (hab : a ≤ b) (hbz : b ≤ z)
    (hm : ∀ w, m w = true → w.1 = .poundName)
    (hK : ∀ t vs, t :: vs <:+ ts → m t.word = true → t.start < b → ∃ W x, (W ++ [x]) <+: vs ++ us ∧ K t (W ++ [x]) ∧
      x.isCloser = true ∧ x.stop ≤ b) : Bears m K (Text.slice s a b) := by
  -- behind the last cut there are marks only
  obtain ⟨q, haq, hqb, hq, hall⟩ : ∃ q, a ≤ q ∧ q ≤ b ∧ Cut s q ∧ ∀ c ∈ Text.slice s q b, isMarkChar c = true := by
    obtain ⟨p, hpb, hp, hall⟩ := hb
    rcases Nat.le_total a p with hap | hpa
    · exact ⟨p, hap, hpb, hp, hall⟩
    · refine ⟨a, le_rfl, hab, h.cut, fun c hc => hall c ?_⟩
      rw [← slice_append_slice hpa hab]
      exact List.mem_append_right _ hc
  obtain ⟨ts₁, ts₂, j, rfl, h₁, h₂⟩ := h.split hq haq (hqb.trans hbz)
  have hsplit : s.drop a = Text.slice s a q ++ s.drop q := (slice_append_drop haq).symm
  have hheld : Held m K (ts₁.map spot) := by
    refine .of_tokens fun t vs hts ht => ?_
    obtain ⟨xs, rfl⟩ := hts
    have hlt := (h₁.bounds t (by simp)).2
    obtain ⟨W, x, hpre, hKx, hx, hstop⟩ := hK t (vs ++ ts₂) ⟨xs, by simp⟩ ht (by omega)
    rw [List.append_assoc] at hpre
    rcases List.prefix_or_prefix_of_prefix hpre (List.prefix_append vs (ts₂ ++ us)) with hpre' | ⟨Y, hY⟩
    · exact ⟨_, hpre', hKx⟩
    rcases List.eq_nil_or_concat Y with rfl | ⟨Y, y, rfl⟩
    · exact ⟨_, by simp [← hY], hKx⟩
    -- a closing mark is none of those marks
    rw [List.concat_eq_append, ← List.append_assoc] at hY
    obtain ⟨rfl, hyx⟩ := List.append_inj' hY rfl
    obtain rfl : y = x := List.singleton_inj.mp hyx
    have hmem : y ∈ ts₂ ++ us := by
      rw [List.append_assoc, List.prefix_append_right_inj] at hpre
      exact hpre.subset (by simp)
    have hplaced := (h₂.laid.arranged hq).1 y hmem
    have hle := h₂.laid.le_start y hmem
    have hinside : ∀ c ∈ y.text, isMarkChar c = true := fun c hc => hall c (by
      rw [hplaced.text] at hc
      rw [← slice_append_slice hle (hplaced.lt.le.trans hstop), ← slice_append_slice hplaced.lt.le hstop]
      exact List.mem_append_right _ (List.mem_append_left _ hc))
    have hclose := hx
    simp only [isCloser, isSymbolIn, List.any_cons, List.any_nil, Bool.or_false, Bool.and_eq_true, Bool.or_eq_true,
      beq_iff_eq] at hclose
    rcases hclose.2 with h | h | h <;> simp [h, isMarkChar] at hinside
  rcases eq_or_ne (Text.slice s q b) [] with hnil | hne
  · have hscan := h₁.scans.append hsplit (show Follows _ _ [] from .inl (stops_nil.apart _)) (by simp)
    rw [← slice_append_slice haq hqb, hnil]
    exact .of_scans hscan hheld
  · obtain ⟨c, y, hy⟩ := List.exists_cons_of_ne_nil hne
    have hc : isMarkChar c = true := hall c (by simp [hy])
    have hhead : (s.drop q).head? = some c := by
      rw [← slice_append_drop hqb, hy]
      rfl
    have hscan := h₁.scans.append hsplit
      (show Follows _ _ (Text.slice s q b) from .inr ⟨c, hc, hhead, by simp [hy]⟩) (by rw [hy, hhead]; exact id)
    have hmarks : Reads (Text.slice s q b) [(.operator, Text.slice s q b)] [] := by
      simpa using reads_marks (r := []) hall hne (by simp)
    obtain ⟨ms, j', hms, hwords⟩ := hmarks.scans j
    rw [← slice_append_slice haq hqb]
    refine .of_scans (hscan.trans hms) (hheld.append (.of_none fun p hp => ?_))
    have hword : p.2 = (.operator, Text.slice s q b) := by
      have := List.mem_map_of_mem (f := Prod.snd) hp
      rw [hwords] at this
      simpa using this
    rw [Bool.eq_false_iff]
    intro hmark
    have := hm _ hmark
    rw [hword] at this
    cases this

end Token

namespace Cursor

variable {loose : Token → Bool} {c c₀ c₁ : Cursor} {z : Token} {x : Text}

/-- The text is that of tokens that are taken behind `c` and in front of the closing mark `z`. Their brackets are in
pairs, and those outside of all brackets pass. -/
def Part (loose : Token → Bool) (z : Token) (c : Cursor) (x : Text) : Prop :=
  ∃ (a b : Cursor) (ds : List Token), c.Leads a ∧ a.Takes loose b ∧ b.Fenced (ds ++ [z]) ∧
    (a.peek.kind ≠ .operator ∨ a.Blunt) ∧ a.peek.start < b.edge ∧ x = a.upTo b

/-- Tokens that have been read end in front of the edge. -/
theorem Sound.stop_le_edge (h : c.Sound) {t : Token} (ht : t ∈ c.behind) : t.stop ≤ c.edge := by
  obtain ⟨u, us, hu⟩ := List.exists_cons_of_ne_nil (List.ne_nil_of_mem ht)
  have hpair := h.arranged.pairwise
  rw [inner, hu, List.pairwise_append, List.pairwise_reverse, List.pairwise_cons] at hpair
  rw [hu] at ht
  rcases List.mem_cons.mp ht with rfl | ht
  · simp [edge, hu]
  · have := hpair.1.1 t ht
    have := (h.placed_behind (t := u) (by simp [hu])).lt
    simp only [edge, hu, List.head?_cons, Option.map_some, Option.getD_some]
    omega

/-- The text of a part holds what is behind the macros in it. -/
theorem Part.bears {m : Word → Bool} {K : Token → List Token → Prop} {text : Text} (h : c₁.Part loose z x)
    (hc : Cursor.ofText text = .ok c₀) (h₁ : c₀.Rereads c₁) (hz : z.isCloser = true)
    (hm : ∀ w, m w = true → w.1 = .poundName) (hloose : ∀ t, loose t = true → m t.word = false)
    (hK : ∀ xs t us, c₀.inner = xs ++ t :: us → m t.word = true → c₁.edge ≤ t.start → t.start < z.start →
      ∃ s R, us = s ++ R ∧ segment [] false s = true ∧ K t s) : Bears m K x := by
  obtain ⟨a, b, ds, hca, htakes, hb, hfront, hlt, rfl⟩ := h
  obtain ⟨-, rfl, -⟩ := sound_ofText hc
  obtain ⟨-, -, hlaid, -⟩ := laid_ofText hc
  have hcb := (h₁.trans hca.rereads).trans htakes.leads.rereads
  obtain ⟨u, bs, hu⟩ := List.exists_cons_of_ne_nil (behind_ne_nil_of_edge (c := b) (by omega))
  have hedge : b.edge = u.stop := by simp [edge, hu]
  obtain ⟨W, R, hahead, -⟩ := Token.Fenced.split hb.ahead
  have hbz : b.edge ≤ z.start := hedge ▸ hb.sound.stop_le_start (t := u) (by simp [hu]) (by simp [hahead])
  -- the source up to the closing mark
  have hrefines : Token.Refines c₀.inner ((b.behind.reverse ++ W) ++ z :: R) := by
    simpa [inner, hahead] using hcb.refines
  obtain ⟨U, V, hUV, -, -⟩ := hrefines.split_at (by simp [Token.kind_of_isCloser hz])
  have hspaced := spaced_ofText hc
  rw [hUV] at hlaid hspaced
  obtain ⟨k, hU⟩ := hlaid.stretch hspaced (cut_zero _)
  have heof := (htakes.leads).peek_ne_eof hlt (h₁.trans hca.rereads).sound
  have hcut := (h₁.trans hca.rereads).sound.cut_peek hfront heof
  rw [(h₁.trans hca.rereads).source] at hcut
  obtain ⟨U₁, U₂, j, rfl, -, hU₂⟩ := hU.split hcut (Nat.zero_le _) (hlt.le.trans hbz)
  have hbrink := hb.sound.brink_edge
  rw [hcb.source] at hbrink
  rw [upTo, hcb.source]
  refine hU₂.bears_slice hbrink hlt.le hbz hm fun t vs hts ht htb => ?_
  obtain ⟨xs, rfl⟩ := hts
  have hta := (hU₂.bounds t (by simp)).1
  have hle := hca.edge_le.trans (h₁.trans hca.rereads).sound.edge_le_peek
  obtain ⟨s, R', hs, hsegment, hKs⟩ := hK (U₁ ++ xs) t (vs ++ z :: V) (by simp [hUV]) ht (by omega) (by omega)
  obtain ⟨S, y, rfl, hy⟩ := Token.segment_last hsegment
  refine ⟨S, y, ⟨R', hs.symm⟩, hKs, hy, ?_⟩
  -- the macro is among the tokens of the part
  obtain ⟨w, hw, hnested, hlevel⟩ := htakes.taken
  have hwhole : Token.Refines ((U₁ ++ xs) ++ t :: (S ++ y :: R')) (a.behind.reverse ++ w ++ b.ahead) := by
    have hsplit : c₀.inner = (U₁ ++ xs) ++ t :: (S ++ y :: R') := by
      rw [hUV, show S ++ y :: R' = S ++ [y] ++ R' by simp, ← hs]
      simp
    have := hcb.refines
    rwa [hsplit, inner, hw, List.reverse_append, List.reverse_reverse] at this
  obtain ⟨X', Y', hX', -, hY'⟩ := hwhole.divide_at (by
    have := hm _ ht
    simp only [Token.word] at this
    simp [this])
  obtain ⟨ys, zs, rfl, rfl⟩ : ∃ ys zs, w = ys ++ t :: zs ∧ Y' = zs ++ b.ahead := by
    rcases List.append_cons_cases hX' with ⟨zs, -, hzs⟩ | ⟨zs, hzs, rfl⟩
    · have := hb.sound.stop_le_start (t := u) (by simp [hu]) (u := t) (by simp [hzs])
      omega
    · rcases List.append_cons_cases hzs with ⟨ys, -, rfl⟩ | ⟨ys, hys, -⟩
      · exact ⟨ys, zs, rfl, rfl⟩
      · have hmem : t ∈ a.behind := by
          rw [← List.mem_reverse, hys]
          simp
        obtain ⟨v, hv⟩ := (h₁.trans hca.rereads).sound.ahead_eq heof
        have hle := (h₁.trans hca.rereads).sound.stop_le_start hmem (u := a.peek) (by simp [hv])
        have := ((h₁.trans hca.rereads).sound.placed_behind hmem).lt
        omega
  -- its segment ends there
  obtain ⟨S₁, r₁, heq, hS₁, -⟩ := hY'.divide_at (by simp [Token.kind_of_isCloser hy])
  have hsegment₁ : segment [] false (S₁ ++ [y]) = true := by
    rwa [Token.segment_refines (hS₁.both (.refl [y]))]
  obtain ⟨vs₁, hvs₁⟩ : S₁ ++ [y] <+: zs := by
    rw [show S₁ ++ y :: r₁ = S₁ ++ [y] ++ r₁ by simp] at heq
    have hplain := Token.not_bracket_of_kind (t := t) (by
      have := hm _ ht
      simp only [Token.word] at this
      simp [this])
    rcases hlevel.cases hnested (List.suffix_append ys (t :: zs)) hplain.2 with (hq | ⟨-, s', ⟨r, rfl⟩, hs'⟩) | ⟨ks, A, x, B, rfl, hA, hx⟩
    · rw [hloose t hq] at ht
      cases ht
    · rw [List.append_assoc] at heq
      obtain ⟨rfl, -⟩ := Token.segment_unique hsegment₁ hs' heq.symm
      exact List.prefix_append _ _
    · rw [List.append_assoc] at heq
      exact (Token.nested_front (Token.nested_of_segment hsegment₁) hA hx heq.symm).trans (List.prefix_append _ _)
  have hmem : y ∈ b.behind := by
    rw [hw, ← hvs₁]
    simp
  exact hb.sound.stop_le_edge hmem

end Cursor

/-- A parser that keeps to the brackets does so where it answers as specified. -/
theorem Parser.Spec.walks {α : Type} {loose : Token → Bool} {es : List Token} {p : Parser α} {c : Cursor}
    {Q : α → Cursor → Prop} (h : Spec p c Q) (hw : Parser.Walks loose es p c) :
    Spec p c fun a c' => c'.Fenced es ∧ c.Takes loose c' ∧ Q a c' := by
  unfold Spec at h ⊢
  cases hp : p c with
  | error y c' => simpa only [hp] using h
  | ok a c' =>
    rw [hp] at h
    exact ⟨h.1, (hw a c' hp).1, (hw a c' hp).2, h.2⟩

/-- All that a signature is laid out from is as `P` tells. -/
structure Signature.Parted (P : Text → Prop) (s : Signature) : Prop where
  attributes : ∀ t ∈ s.attributes, P t
  items : ∀ i ∈ (s.capture.map CaptureClause.items).getD [], P i.toText
  parameters : ∀ q ∈ s.parameters, P q.toText
  effects : ∃ ts, s.effects = Text.join [' '] ts ∧ ∀ t ∈ ts, P t
  result : ∀ r ∈ s.result, P r.toText

theorem Signature.Parted.mono {P Q : Text → Prop} {s : Signature} (h : s.Parted P) (hPQ : ∀ t, P t → Q t) : s.Parted Q where
  attributes t ht := hPQ t (h.attributes t ht)
  items i hi := hPQ _ (h.items i hi)
  parameters q hq := hPQ _ (h.parameters q hq)
  effects := h.effects.imp fun _ hts => ⟨hts.1, fun t ht => hPQ t (hts.2 t ht)⟩
  result r hr := hPQ _ (h.result r hr)

namespace Grammar

open Cursor (Amid Part Takes)

variable {g : Grammar} {c₀ c d d' : Cursor} {loose : Token → Bool} {z e : Token} {ds es : List Token} {n : Nat}

theorem Amid.leads (h : Amid c₀ es n d) (hd : d'.Fenced ds) (hl : d.Leads d') : Amid c₀ ds n d' :=
  ⟨hd, h.rereads.trans hl.rereads, (hl.room_le h.sound).trans_lt h.room⟩

theorem Takes.part (ds : List Token) (h : d.Takes loose d') (hcd : c.Leads d) (hd : d'.Fenced (ds ++ [z]))
    (hfront : d.peek.kind ≠ .operator ∨ d.Blunt) (hlt : d.peek.start < d'.edge) : c.Part loose z (d.upTo d') :=
  ⟨d, d', ds, hcd, h, hd, hfront, hlt, rfl⟩

section Parts

/-- One of the words that tell of effects. -/
theorem effect_part (hc : Amid c₀ (e :: es) (n + 1) d) (hm : isEffect d.peek = true) : Spec (do
      let t ← consume
      if t.text == "throws".toList && parenFollows (← get) then skipBalanced
      sliceFrom t) d fun t d' => (d'.Fenced (e :: es) ∧ d.Takes Token.idle d') ∧ d.peek.start < d'.edge ∧ t = d.upTo d' := by
  have hs₁ := (hc.sound.advance 1).sound
  have hk := Token.kind_of_isIdentifierIn hm
  have hw : Parser.Walks Token.idle (e :: es) (do
      let t ← consume
      if t.text == "throws".toList && parenFollows (← get) then skipBalanced
      sliceFrom t) d := by
    refine .consume_bind hc (Token.not_bracket_of_identifier hm) (Token.idle_of_isIdentifierIn hm) fun hc₂ => .get_bind
      (.ite (fun hp => ?_) fun _ => .sliceFrom hc₂)
    simp only [Bool.and_eq_true] at hp
    obtain ⟨hparen, ho⟩ := opener_of_parenFollows hp.2
    exact .bind hc₂ (.skipBalanced hc₂ ho (Token.idle_of_isSymbol hparen (by decide))) fun _ _ hc₃ => .sliceFrom hc₃
  refine (Spec.walks (Q := fun t d' => d.peek.start < d'.edge ∧ t = d.upTo d') ?_ hw).mono
    fun _ _ _ h => ⟨⟨h.1, h.2.1⟩, h.2.2⟩
  refine Spec.consume_bind hc.sound (Spec.get_bind (Spec.optional (Q := fun _ _ => True) hs₁
    (fun _ => (Spec.skipBalanced hs₁).lead) (fun _ => trivial) fun c₂ hl₂ _ => ?_))
  have hlt := hc.sound.peek_lt (by simp [hk]) hl₂
  exact Spec.sliceFrom hl₂.sound ⟨hlt, Cursor.sliceFrom_eq rfl hlt⟩

theorem closureParameters_text (hg : g.Reliable) (hs : d.Sound) : Spec g.closureParameters d fun o d' => ∀ q ∈ o,
    d.peek.kind ≠ .operator ∧ d.peek.start < d'.edge ∧ q.toText = d.upTo d' := by
  refine Spec.current_bind (Spec.ite (fun hk => ?_) fun _ => Spec.ite (fun hk => ?_) fun _ => Spec.pure hs (by simp))
  · refine Spec.bind (Spec.listed hs hk fun c₁ hl₁ _ => (closureParameter_spec hg hl₁.sound).mono fun p _ _ _ =>
      show True from trivial) fun ps c₁ hl₁ ⟨_, _, hlt⟩ => Spec.sliceFrom_bind (Spec.pure hl₁.sound ?_)
    rintro _ ⟨rfl⟩
    exact ⟨by simp [Token.kind_of_isSymbol hk], hlt, Cursor.sliceFrom_eq rfl hlt⟩
  · have hk : d.peek.kind = .identifier := by
      simp only [Bool.and_eq_true, beq_iff_eq] at hk
      exact hk.1.1
    refine Spec.bind (shorthandNames_spec hs hk) fun names c₁ hl₁ hlt => Spec.sliceFrom_bind (Spec.pure hl₁.sound ?_)
    rintro _ ⟨rfl⟩
    refine ⟨by simp [hk], hlt, ?_⟩
    rw [Cursor.sliceFrom_eq rfl hlt]
    obtain ⟨a, x, hx⟩ := List.exists_cons_of_ne_nil (hl₁.upTo_ne_nil hlt)
    rw [hx]
    rfl

theorem returnClause_text (hg : g.Reliable) (hs : d.Sound) : Spec g.returnClause d fun o d' => ∀ r ∈ o,
    d.peek.kind ≠ .operator ∧ d.peek.start < d'.edge ∧ r.toText = d.upTo d' := by
  refine Spec.current_bind (Spec.ite (fun hk => ?_) fun _ => Spec.pure hs (by simp))
  have hk := Token.kind_of_has hk
  refine Spec.skip_bind hs (Spec.bind (hg.type _ (hs.advance 1).sound) fun T c₁ hl₁ _ => Spec.sliceFrom_bind
    (Spec.pure hl₁.sound ?_))
  have hlt := hs.peek_lt (by simp [hk]) hl₁
  rintro _ ⟨rfl⟩
  refine ⟨by simp [hk], hlt, ?_⟩
  rw [Cursor.sliceFrom_eq rfl hlt]
  obtain ⟨a, x, hx⟩ := List.exists_cons_of_ne_nil (((hs.advance 1).trans hl₁).upTo_ne_nil hlt)
  rw [hx]
  rfl

variable (hg : g.Walks c₀ loose n)
include hg

theorem captureClause_parts (hc : Amid c₀ [z] (n + 1) d) (hcd : c.Leads d) (hk : d.peek.isSymbol "[" = true) :
    Spec g.captureClause d fun k d' => d'.Fenced [z] ∧ ∀ i ∈ k.items, c.Part loose z i.toText := by
  have hs := hc.sound
  have hsymbol := Token.kind_of_isSymbol hk
  obtain ⟨x, hx, -, hx₁⟩ := hc.fenced.advance_opener (Token.isOpener_of_isSymbol hk (.inr rfl))
  have hc₁ : Amid c₀ [x, z] n (d.advance 1) := ⟨hx₁, hc.rereads.trans (hs.advance 1).rereads,
    ((hs.advance 1).room_lt hs (by simp [hc.fenced.behind_advance])).trans_le (Nat.lt_succ_iff.mp hc.room)⟩
  refine Spec.current_bind (Spec.bind (Spec.bracketed (I := fun is c₁ => Amid c₀ [x, z] n c₁ ∧
    (∀ i ∈ is, c.Part loose z i.toText) ∧ (c₁.Blunt ∨ c₁.peek.isSymbol "]" = true)) hs
    ⟨hc₁, by simp, .inl (hs.blunt_advance (by simp [hsymbol]) (by simp [hsymbol]))⟩ fun is c₁ hl₁ hi hlast => ?_)
    fun is c₁ hl₁ ⟨c₂, hl₂, ⟨hc₂, hi, _⟩, hlast, heq⟩ => Spec.sliceFrom_bind (Spec.pure hl₁.sound ?_))
  · obtain ⟨hc₁, hi, hblunt⟩ := hi
    replace hblunt := hblunt.resolve_right (by simp [hlast])
    refine ((captureItem_spec hc₁.sound hg.fences.reliable).walks (captureItem_walks hg hc₁)).mono
      fun i c₂ hl₂ ⟨hc₂, htakes, hlt, htext⟩ => ?_
    have hall : ∀ j ∈ is ++ [i], c.Part loose z j.toText := by
      simp only [List.mem_append, List.mem_singleton, or_imp, forall_and, forall_eq]
      exact ⟨hi, htext ▸ Takes.part [x] htakes ((hcd.trans (hs.advance 1)).trans hl₁) hc₂ (.inr hblunt) hlt⟩
    have hc₂ := hc₁.takes hc₂ htakes
    refine ⟨fun hcomma => ?_, fun hend => ⟨hc₂, hall, .inr hend⟩⟩
    have hk := Token.kind_of_isSymbol hcomma
    exact ⟨Amid.leads hc₂ (hc₂.fenced.advance (Token.not_bracket_of_symbol hcomma (by decide))) (hc₂.sound.advance 1), hall,
      .inl (hc₂.sound.blunt_advance (by simp [hk]) (by simp [hk]))⟩
  · subst heq
    exact ⟨(hc₂.fenced.advance_closer (Token.isCloser_of_isSymbol hlast (by simp))).2, hi⟩

theorem attributes_parts (hc : Amid c₀ [z] (n + 1) c) : Spec g.attributesRule c fun as d =>
    Amid c₀ [z] (n + 1) d ∧ ∀ a ∈ as, c.Part loose z a.text := by
  refine (Spec.collectWhile (I := fun as d => Amid c₀ [z] (n + 1) d ∧ ∀ a ∈ as, c.Part loose z a.text)
    (fun as d hl hi hk => ?_) hc.sound ⟨hc, by simp⟩).mono fun _ _ _ h => h.1
  obtain ⟨hd, has⟩ := hi
  have hk : d.peek.kind = .atName := by simpa using hk
  refine ((g.attributeRule_spec hg.fences.reliable hd.sound).walks (attributeRule_walks hg.fences hd hk)).mono
    fun a d' _ ⟨hd', htakes, ha⟩ => ⟨hd.takes hd' htakes, ?_⟩
  simp only [List.mem_append, List.mem_singleton, or_imp, forall_and, forall_eq]
  exact ⟨has, ha.text ▸ Takes.part [] (htakes.mono hg.of_quiet) hl hd' (.inl (by simp [hk])) ha.lt⟩

omit hg in
theorem effects_parts (hquiet : ∀ t : Token, t.idle = true → loose t = true) (hcd : c.Leads d)
    (hd : Amid c₀ [z] (n + 1) d) : Spec effects d fun t d' => Amid c₀ [z] (n + 1) d' ∧
      ∃ ts, t = Text.join [' '] ts ∧ ∀ t ∈ ts, c.Part loose z t := by
  refine Spec.bind (Spec.collectWhile (I := fun ts d => Amid c₀ [z] (n + 1) d ∧ ∀ t ∈ ts, c.Part loose z t)
    (fun ts d₁ hl hi hm => ?_) hd.sound ⟨hd, by simp⟩) fun ts d₁ hl h => Spec.pure hl.sound ⟨h.1.1, ts, rfl, h.1.2⟩
  obtain ⟨hd₁, hts⟩ := hi
  refine (effect_part hd₁ hm).mono fun t d₂ _ ⟨⟨hd₂, htakes⟩, hlt, htext⟩ => ⟨hd₁.takes hd₂ htakes, ?_⟩
  simp only [List.mem_append, List.mem_singleton, or_imp, forall_and, forall_eq]
  exact ⟨hts, htext ▸ Takes.part [] (htakes.mono hquiet) (hcd.trans hl) hd₂
    (.inl (by simp [Token.kind_of_isIdentifierIn hm])) hlt⟩

/-- A signature is laid out from parts of the source. -/
theorem closureSignature_parts (hc : Amid c₀ [z] (n + 1) c) :
    Spec g.closureSignature c fun s _ => s.Parted (c.Part loose z) := by
  have hr := hg.fences.reliable
  refine Spec.current_bind (Spec.bind (attributes_parts hg hc) fun as d hl₁ has => Spec.current_bind ?_)
  obtain ⟨hd, has⟩ := has
  extract_lets jp
  have hjp : ∀ (capture : Option CaptureClause) (d : Cursor), Amid c₀ [z] (n + 1) d → c.Leads d →
      (∀ i ∈ (capture.map CaptureClause.items).getD [], c.Part loose z i.toText) →
      Spec (jp capture) d fun s _ => s.Parted (c.Part loose z) := by
    intro capture d hd hl₂ hitems
    refine Spec.bind ((closureParameters_text hr hd.sound).walks (closureParameters_walks hg hd)) fun ps d₁ hl₃ h₃ => ?_
    obtain ⟨hd₁, ht₁, hps⟩ := h₃
    replace hps : ∀ q ∈ ps, c.Part loose z q.toText := fun q hq => by
      obtain ⟨hk, hlt, htext⟩ := hps q hq
      exact htext ▸ Takes.part [] (ht₁.mono hg.of_quiet) hl₂ hd₁ (.inl hk) hlt
    refine Spec.bind (effects_parts hg.of_quiet (hl₂.trans hl₃) (hd.takes hd₁ ht₁)) fun fx d₂ hl₄ h₄ => ?_
    obtain ⟨hd₂, hfx⟩ := h₄
    refine Spec.bind ((returnClause_text hr hd₂.sound).walks (returnClause_walks hg hd₂)) fun r d₃ hl₅ h₅ => ?_
    obtain ⟨hd₃, ht₃, hres⟩ := h₅
    refine Spec.current_bind (Spec.ite (fun _ => Spec.skip_bind hl₅.sound (Spec.sliceFrom_bind (Spec.pure
      (hl₅.sound.advance 1).sound ⟨?_, hitems, hps, hfx, fun q hq => ?_⟩))) fun _ => Spec.fail hl₅.sound)
    · simpa using has
    · obtain ⟨hk, hlt, htext⟩ := hres q hq
      exact htext ▸ Takes.part [] (ht₃.mono hg.of_quiet) ((hl₂.trans hl₃).trans hl₄) hd₃ (.inl hk) hlt
  refine Spec.ite (fun hk => ?_) fun _ => Spec.pure_bind (hjp none d hd hl₁ (by simp))
  exact Spec.bind (captureClause_parts hg hd hl₁ hk) fun k d₁ hl₂ h₂ => Spec.pure_bind
    (hjp (some k) d₁ (Amid.leads hd h₂.1 hl₂) (hl₁.trans hl₂) h₂.2)

end Parts

end Grammar

end SwiftMacros
