import Mathlib
import SwiftMacros.Proofs.Expansion.Fixpoint
import SwiftMacros.Proofs.Grammar.Bodies

/-! What a pass keeps of the closures that it rewrites. The closure of an expression is put together anew: its
signature gets one more capture, its body a guard, and its lines are moved. What stands in it behind a macro, up to
the end of the block there, is copied nevertheless, and so is what stands outside of all that is replaced. -/

namespace SwiftMacros

open Token (Word Spot Bears Held Scans Gap Reads Tail)

variable {m : Word → Bool} {K : Token → List Token → Prop} {unit : Text} {k : Closure}

namespace WeakSelf

section Rewritten

variable (hm : ∀ w, m w = true → w.1 = .poundName)
include hm

theorem bears_of_reads {t : Text} {ls : List Word} (h : Reads t ls []) (hls : ∀ w ∈ ls, w.1 ≠ .poundName) :
    Bears m K t :=
  .of_reads h fun w hw => Bool.eq_false_iff.mpr fun hmark => hls w hw (hm w hmark)

/-- The capture clause with the weak capture holds what its other items hold. -/
theorem captureClause_bears (items : List Capture) (h : ∀ i ∈ items, Bears m K i.toText) :
    Bears m K (CaptureClause.toText ⟨items ++ [capture], []⟩) := by
  have hmark : ∀ c, m (Token.Kind.symbol, [c]) = false := fun c =>
    Bool.eq_false_iff.mpr fun hmark => by simpa using hm _ hmark
  have hself : Bears m K capture.toText :=
    bears_of_reads hm (show Reads _ [(.identifier, "weak".toList), (.identifier, "self".toList)] [] from
      Token.reads_of_words (by decide) (by decide)) (by decide)
  have hitems : Bears m K (Text.join ", ".toList ((items ++ [capture]).map Capture.toText)) := by
    refine Bears.join (c := ',') (w := [' ']) rfl (by decide) (fun y hy => (hy.gap rfl).symbol rfl (hmark ',')) ?_
    simpa [or_imp, forall_and] using ⟨h, hself⟩
  rw [CaptureClause.toText, Signature.itemTexts_eq]
  exact ((hitems.append (.symbol rfl (hmark ']') .nil) (.inl ((Token.stops_cons rfl).apart _)) (by simp)).symbol rfl
    (hmark '['))

theorem addCapture_bears {o : Option Signature} (h : ∀ s ∈ o, s.Parted (Bears m K)) :
    Bears m K (addCapture o).toText := by
  have hin : Bears m K "in".toList :=
    bears_of_reads hm (show Reads _ [(.identifier, "in".toList)] [] from
      Token.reads_of_words (by decide) (by decide)) (by decide)
  have hblank : ∀ y, Bears m K y → Bears m K (' ' :: [] ++ y) := fun y hy => hy.gap rfl
  cases o with
  | none =>
    rw [addCapture, Signature.toText_eq]
    refine Bears.join (c := ' ') (w := []) rfl (by decide) hblank ?_
    simpa [or_imp, forall_and] using ⟨captureClause_bears hm [] (by simp), hin⟩
  | some s =>
    obtain ⟨hattributes, hitems, hparameters, ⟨ts, heffects, hts⟩, hresult⟩ := h s rfl
    obtain ⟨clause, parameters, effects, result, attributes, text⟩ := s
    obtain rfl : effects = Text.join [' '] ts := heffects
    have heffects : Bears m K (Text.join [' '] ts) := Bears.join (c := ' ') (w := []) rfl (by decide) hblank hts
    rw [addCapture, Signature.toText_eq]
    refine Bears.join (c := ' ') (w := []) rfl (by decide) hblank ?_
    simp only [List.mem_append, or_imp, forall_and]
    refine ⟨⟨⟨⟨⟨hattributes, ?_⟩, ?_⟩, ?_⟩, ?_⟩, by simpa using hin⟩
    · cases clause with
      | none => simpa using captureClause_bears hm [] (by simp)
      | some c => simpa using captureClause_bears hm _ hitems
    · simpa using hparameters
    · split <;> simp [heffects]
    · simpa using hresult

/-- The closure that captures `self` weakly holds what its signature and its body hold. -/
theorem weakenClosure_bears (hunit : ∀ c ∈ unit, Text.isIndent c = true) (hsig : ∀ s ∈ k.signature, s.Parted (Bears m K))
    (hbody : Bears m K ('\n' :: Text.stack (k.statements.map (Statement.layout unit)))) (g : Gap) (r : Text) :
    ∃ ls j, Scans g ((weakenClosure unit k).toText ++ r) ls r j ∧ Held m K ls := by
  have hmark : ∀ c, m (Token.Kind.symbol, [c]) = false := fun c =>
    Bool.eq_false_iff.mpr fun hmark => by simpa using hm _ hmark
  -- the guard stands on lines of its own in front of the body
  obtain ⟨gs, hgs, hguard⟩ := (guardStatement_reads hunit).layout hunit
    (Text.stack (k.statements.map (Statement.layout unit)))
  rw [Token.Word.eq_of_relined (hgs.imp fun _ _ => Token.Word.Laid.relined hunit) (by decide), List.append_cons] at hguard
  have hblocks := (hbody.of_newline.front hguard fun w hw => Bool.eq_false_iff.mpr fun hmark => by
    have hwords : ∀ v ∈ guardWords, v.1 ≠ .poundName := by decide
    exact hwords w hw (hm w hmark)).gap (c := '\n') rfl
  have hall := (((addCapture_bears hm hsig).append hblocks (.inl ((Token.stops_cons rfl).apart _)) (by simp)).gap
    (c := ' ') rfl).symbol (c := '\x7b') rfl (hmark _)
  have htext : (weakenClosure unit k).toText = '\x7b' :: ' ' :: ((addCapture k.signature).toText ++
      '\n' :: ((guardStatement unit).layout unit ++ ['\n'] ++ Text.stack (k.statements.map (Statement.layout unit)))) ++
        ['\x7d'] := by
    have heq : (weakenClosure unit k).toText = ("\x7b ".toList ++ (addCapture k.signature).toText) ++
        Text.body ((guardStatement unit :: k.statements).map (Statement.layout unit)) := by
      rw [← closureLayout_eq]
      rfl
    rw [heq, List.map_cons, Text.body, Text.stack_cons]
    simp
  rw [htext, List.append_assoc]
  exact hall.before_symbol rfl (hmark _) g r

/-- Its lines are moved when it is put in place of an expression, but that keeps it. -/
theorem replacement_bears {ctx : Context} (code : Text) (start : Nat) (hctx : ∀ d ∈ ctx.unit, Text.isIndent d = true)
    (hsig : ∀ s ∈ k.signature, s.Parted (Bears m K))
    (hbody : ∀ unit : Text, (∀ c ∈ unit, Text.isIndent c = true) →
      Bears m K ('\n' :: Text.stack (k.statements.map (Statement.layout unit)))) (g : Gap) (r : Text) :
    ∃ ls j, Scans g (replacement ctx code start k ++ r) ls r j ∧ Held m K ls := by
  have hunit : ∀ d ∈ (ctx.withIndent (unitFor (Text.lineIndent code start) ctx.indent)).indent,
      Text.isIndent d = true :=
    Context.isIndent_indent (isIndent_unitFor (Context.isIndent_indent hctx))
  obtain ⟨ls, j, hls, hheld⟩ := weakenClosure_bears hm hunit hsig (hbody _ hunit) g r
  have hmoved : Token.Relined _ (replacement ctx code start k) :=
    Edit.indentContinuation_relined Text.isIndent_leadingIndent _
  obtain ⟨ms, hms, hscan⟩ := hls.moved Token.Relined.mover rfl hmoved
  have hline : ∀ p ∈ ls, p.2.1 ≠ .string → '\n' ∉ p.2.2 := fun p hp =>
    hls.reads.line p.2 (List.mem_map_of_mem hp)
  refine ⟨ms, j, hscan, hheld.moved (fun w hw => by simp [hm w hw]) ?_⟩
  refine ((List.forall₂_and_left _ _).mpr ⟨hline, hms⟩).imp fun p p' ⟨hp, hgap, hkind, htext⟩ => ?_
  exact ⟨hgap.symm, hkind.symm, fun hk => htext.eq_of_line (hp hk)⟩

end Rewritten

end WeakSelf

namespace Edit

variable {code : Text} {e : Edit} {es : List Edit} {ts : List Token} {p : Nat}

/-- The edit puts a closure in place of a range, and whatever stands behind that the closure is scanned and holds
what is behind tokens. -/
structure Holds (m : Word → Bool) (K : Token → List Token → Prop) (code : Text) (e : Edit) : Prop where
  cut_start : Cut code e.start
  cut_stop : Cut code e.stop
  head : ∃ u, e.text = '\x7b' :: u
  scans : ∀ g r, ∃ ls j, Scans g (e.text ++ r) ls r j ∧ Held m K ls

/-- A text with closures put in place of ranges holds what they hold, if each token of interest stands in one of the
ranges. -/
theorem assemble_scans (h : ∀ e ∈ es, Holds m K code e) (hes : Ascending code.length p es) (hp : Cut code p)
    (hl : Token.Laid code p ts) (hts : ∀ t ∈ ts, m t.word = true → ∃ e ∈ es, e.start ≤ t.start ∧ t.start < e.stop)
    (g : Gap) : ∃ ls r k, Scans g (assemble code p es) ls r k ∧ Token.Rest r ∧ Held m K ls := by
  induction es generalizing p ts g with
  | nil =>
    obtain ⟨r, hr, hrest⟩ := hl.reads
    obtain ⟨ls, k, hls, hwords⟩ := hr.scans g
    refine ⟨ls, r, k, hls, hrest, .of_none fun q hq => ?_⟩
    obtain ⟨t, ht, heq⟩ := List.mem_map.mp (hwords ▸ List.mem_map_of_mem (f := Prod.snd) hq)
    by_contra hmark
    simpa using hts t ht (by simpa [heq] using hmark)
  | cons e es ih =>
    obtain ⟨hpe, hle, hes⟩ := hes
    obtain ⟨he, hrest⟩ := List.forall_mem_cons.mp h
    obtain ⟨us, vs, rfl, hus, hvs, hus', -⟩ := hl.split hp he.cut_start hpe
    obtain ⟨ms, ws, rfl, -, hws, -, hws'⟩ := hvs.split he.cut_start he.cut_stop hle
    obtain ⟨ls₁, j, hls₁, hwords⟩ := hus.scans g
    obtain ⟨u, hu⟩ := he.head
    obtain ⟨ls₂, i, hls₂, hheld₂⟩ := he.scans j (assemble code e.stop es)
    obtain ⟨ls₃, r, k, hls₃, hr, hheld₃⟩ := ih hrest hes he.cut_stop hws (fun t ht hmark => by
      obtain ⟨d, hd, hin⟩ := hts t (by simp [ht]) hmark
      rcases List.mem_cons.mp hd with rfl | hd
      · have := hws' t ht
        omega
      · exact ⟨d, hd, hin⟩) i
    -- what stands in front of the edit has no token of interest
    have hnone : Held m K ls₁ := .of_none fun q hq => by
      obtain ⟨t, ht, heq⟩ := List.mem_map.mp (hwords ▸ List.mem_map_of_mem (f := Prod.snd) hq)
      by_contra hmark
      obtain ⟨d, hd, hle, -⟩ := hts t (by simp [ht]) (by simpa [heq] using hmark)
      have hlt := (hus' t ht).2
      rcases List.mem_cons.mp hd with rfl | hd
      · omega
      · have := hes.start_le d hd
        omega
    have hfront := hls₁.append (slice_append_drop hpe).symm
      (show Token.Follows _ _ (e.text ++ assemble code e.stop es) from .inl ((by rw [hu]; exact Token.stops_cons (by decide) : Token.Stops _).apart _)) (by simp [hu])
    refine ⟨ls₁ ++ (ls₂ ++ ls₃), r, k, ?_, hr, hnone.append (hheld₂.append hheld₃)⟩
    rw [assemble, List.append_assoc]
    exact hfront.trans (hls₂.trans hls₃)

/-- The tokens of the text then stand in front of what they stood in front of. -/
theorem applyAll_held {c' : Cursor} (h : ∀ e ∈ es, Holds m K code e) (hw : ∀ e ∈ es, Within code e)
    (hc : es.Pairwise Clear) (hl : Token.Laid code 0 ts)
    (hts : ∀ t ∈ ts, m t.word = true → ∃ e ∈ es, e.start ≤ t.start ∧ t.start < e.stop)
    (hc' : Cursor.ofText (applyAll code es) = .ok c') : Held m K (c'.inner.map Token.spot) := by
  obtain ⟨-, -, hlaid, -⟩ := Cursor.laid_ofText hc'
  obtain ⟨r', k', hscans, hrest'⟩ := hlaid.scans (Cursor.spaced_ofText hc')
  have hperm := (List.reverse_perm (ordered es)).trans (ordered_perm es)
  obtain ⟨ls, r, k, hls, hrest, hheld⟩ := assemble_scans (fun e he => h e (hperm.mem_iff.mp he))
    (ascending_ordered hw hc) (cut_zero code) hl (fun t ht hmark => by
      obtain ⟨e, he, hin⟩ := hts t ht hmark
      exact ⟨e, hperm.mem_iff.mpr he, hin⟩) {}
  rw [← applyAll_eq_assemble hw hc] at hls
  exact hls.eq_of_rest hrest hscans hrest' ▸ hheld

end Edit

namespace Cursor

variable {n : Nat} {c d c₁ : Cursor} {s B : List Token} {o z : Token} {text : Text}

/-- In brackets, the token `t` stands in front of `s`, in which calls are less than `n` deep. -/
structure Inside (m : Word → Bool) (n : Nat) (c : Cursor) (t : Token) (s : List Token) : Prop where
  place : ∃ xs R, c.inner = xs ++ t :: s ++ R ∧ ∃ f, Token.Fenced [f] (t :: s ++ R)
  tail : ∃ i, n = i + 1 ∧ Tail m i s

/-- Tokens in front of which macros stand as in the source are copies. -/
theorem Copied.of_held {ts : List Token} (h : Held m (c.Inside m (n + 1)) (ts.map Token.spot))
    (hs : c.Sound) : c.Copied m n ts := by
  rintro xs t us rfl ht
  obtain ⟨u, s, s', ⟨⟨ys, R, hc, hf⟩, i, hi, htail⟩, hword, ⟨R', rfl⟩, hakin⟩ := h.tokens (List.suffix_append xs _) ht
  obtain rfl : i = n := by omega
  obtain ⟨d, hd, -⟩ := Visits.here.copies hs hc (hword ▸ ht) hf htail hakin
  exact ⟨d, s, s', R', hd, rfl⟩

/-- Tokens up to one start in front of its end. -/
theorem Sound.start_lt {P W Q : List Token} {t : Token} (hs : c.Sound) (hc : c.inner = P ++ (W ++ [z]) ++ Q)
    (ht : t ∈ W ++ [z]) : t.start < z.stop := by
  have hpair := hs.arranged.pairwise
  have hplaced := hs.arranged.placed
  rw [hc] at hpair hplaced
  have hz := (hplaced z (by simp)).lt
  rcases List.mem_append.mp ht with ht | ht
  · have := (List.pairwise_append.mp (List.pairwise_append.mp (List.pairwise_append.mp hpair).1).2.1).2.2 t ht z (by simp)
    have := (hplaced t (by simp [ht])).lt
    omega
  · rwa [List.mem_singleton.mp ht]

/-- Of two tokens, one ends in front of the other. -/
theorem Sound.ordered {t u : Token} (hs : c.Sound) (ht : t ∈ c.inner) (hu : u ∈ c.inner) (hne : t ≠ u) :
    t.stop ≤ u.start ∨ u.stop ≤ t.start := by
  have hpair : c.inner.Pairwise fun t u => t.stop ≤ u.start ∨ u.stop ≤ t.start := hs.arranged.pairwise.imp .inl
  have : Std.Symm fun t u : Token => t.stop ≤ u.start ∨ u.stop ≤ t.start := ⟨fun _ _ => Or.symm⟩
  exact hpair.forall ht hu hne

/-- A token that stands between two others by its place is one of those between them. -/
theorem Sound.between {P Q R xs us : List Token} {t : Token} (hs : c.Sound) (hc : c.inner = P ++ o :: (Q ++ z :: R))
    (hc' : c.inner = xs ++ t :: us) (hle : o.stop ≤ t.start) (hlt : t.start < z.start) :
    ∃ Y V, Q = Y ++ t :: V ∧ us = V ++ z :: R := by
  have hpair := hs.arranged.pairwise
  have hplaced := hs.arranged.placed
  rw [hc] at hc' hpair hplaced
  obtain ⟨-, hpair, hbefore⟩ := List.pairwise_append.mp hpair
  rw [List.append_cons] at hc'
  rcases List.append_cons_cases hc' with ⟨Y, -, hY⟩ | ⟨Y, hY, -⟩
  · rcases List.append_cons_cases hY with ⟨V, -, hV⟩ | ⟨V, rfl, rfl⟩
    · have hmem : t ∈ z :: R := by simp [hV]
      rcases List.mem_cons.mp hmem with rfl | hmem
      · omega
      · have := (List.pairwise_cons.mp (List.pairwise_append.mp (List.pairwise_cons.mp hpair).2).2.1).1 t hmem
        have := (hplaced z (by simp)).lt
        omega
    · exact ⟨Y, V, rfl, rfl⟩
  · -- the first one, or in front of it
    have ht : t ∈ P ++ [o] := by simp [hY]
    rcases List.mem_append.mp ht with hmem | hmem
    · have := hbefore t hmem o (by simp)
      have := (hplaced t (by simp [hmem])).lt
      have := (hplaced o (by simp)).lt
      omega
    · obtain rfl := List.mem_singleton.mp hmem
      have := (hplaced t (by simp)).lt
      omega

section Called

variable (hm : ∀ w, m w = true → w.1 = .poundName) (hs : c.Sound) (hd : c.Visits m d) (hmark : m d.peek.word = true)
  (h : d.Calls s k o B z c₁)
include hm hs hd hmark h

/-- What a macro that is come to has behind it, as it is in the source. -/
theorem Calls.origin : ∃ X A B₀ R, c.inner = X ++ d.peek :: (A ++ o :: B₀ ++ [z]) ++ R ∧ Token.Block A o B₀ z ∧
    Token.settled (A ++ o :: B₀ ++ [z]) = true := by
  obtain ⟨R₁, hR₁⟩ := h.ahead
  obtain ⟨A₁, rfl, hblock⟩ := h.block
  have hrefines := (hd.rereads hs).refines
  rw [show d.inner = d.behind.reverse ++ d.peek :: (A₁ ++ o :: B ++ [z] ++ R₁) by simp [inner, hR₁]] at hrefines
  obtain ⟨X, V, hinner, -, hV⟩ := hrefines.split_at (by simp [show d.peek.kind = .poundName from hm _ hmark])
  obtain ⟨_, R, rfl, hsplit, -, -⟩ := hV.segment_front hblock.segment
  have hsettled := h.settled
  rw [Token.settled_refines hsplit] at hsettled
  rw [List.append_assoc] at hsplit
  obtain ⟨A, _, rfl, hA, hsplit⟩ := hsplit.split_at (by simp [Token.kind_of_isSymbol hblock.opening])
  obtain ⟨B₀, _, rfl, hB, hlast⟩ := hsplit.split_at (by simp [Token.kind_of_isSymbol hblock.closing])
  cases hlast
  exact ⟨X, A, B₀, R, by simp [hinner], hblock.of_refines hA hB, by simpa using hsettled⟩

/-- A macro between the braces stands in front of a block, and calls in that are less deep. -/
theorem Calls.inside (hcalled : c.Called m) (hdeep : Token.Shallow m (n + 1) c.inner) {xs us : List Token} {t : Token}
    (hc : c.inner = xs ++ t :: us) (ht : m t.word = true) (hle : o.stop ≤ t.start) (hlt : t.start < z.start) :
    ∃ s R, us = s ++ R ∧ (∃ A o C e, s = A ++ o :: C ++ [e] ∧ Token.Block A o C e) ∧ c.Inside m n t s := by
  obtain ⟨X, A, B₀, R, hinner, hblock, hsettled⟩ := h.origin hm hs hd hmark
  have htail : Tail m n (A ++ o :: B₀ ++ [z]) :=
    ⟨⟨A, o, B₀, z, rfl, hblock⟩, hsettled, hdeep X d.peek _ R hinner hmark hblock.segment⟩
  obtain ⟨Y, V, rfl, rfl⟩ := hs.between (P := X ++ d.peek :: A) (Q := B₀) (by simpa using hinner) hc hle hlt
  -- it is read there, up to the end of its block
  obtain ⟨dt, hseek, hbehind, hahead, -⟩ := hs.seek_to hc
  have hpeek : dt.peek = t := by simp [peek, hahead]
  obtain ⟨_, _, o', C, e, _, hcalls⟩ := hcalled.reads dt (.seek .here hseek) (hpeek.symm ▸ ht)
  obtain ⟨R', hR'⟩ := hcalls.ahead
  obtain ⟨A', rfl, hblock'⟩ := hcalls.block
  have hahead' : V ++ z :: R = (A' ++ o' :: C ++ [e]) ++ R' := by simpa [hpeek, hahead] using hR'
  have hkind : t.kind = .poundName := hm _ ht
  have hfront : A ++ o :: (Y ++ t :: V) ++ [z] = (A ++ o :: Y) ++ t :: (V ++ [z]) := by simp
  obtain ⟨f, hf⟩ := htail.fenced hfront hkind R
  obtain ⟨vs, hvs, -⟩ := htail.inner hfront hkind hblock'.segment (R := R) ⟨R', by rw [← hahead']; simp⟩
  refine ⟨_, R', hahead', ⟨A', o', C, e, rfl, hblock'⟩, ⟨xs, R', by rw [hc, hahead']; simp, f, ?_⟩, ?_⟩
  · rw [List.cons_append, ← hahead']
    simpa using hf
  · have hshallow := htail.shallow
    rw [hfront, hvs] at hshallow
    cases n with
    | zero => exact absurd ht (by simp [hshallow t (by simp)])
    | succ i =>
      exact ⟨i, rfl, ⟨A', o', C, e, rfl, hblock'⟩, hcalls.settled, hshallow (A ++ o :: Y) t _ vs (by simp) ht hblock'.segment⟩

/-- What is put in place of a macro holds what is behind the macros between the braces. -/
theorem Calls.replacement_bears {ctx : Context} (hc : Cursor.ofText text = .ok c) (hcalled : c.Called m)
    (hdeep : Token.Shallow m (n + 1) c.inner) (hctx : ∀ d ∈ ctx.unit, Text.isIndent d = true) (code : Text) (start : Nat)
    (g : Gap) (r : Text) : ∃ ls j, Scans g (WeakSelf.replacement ctx code start k ++ r) ls r j ∧
      Held m (c.Inside m n) ls := by
  obtain ⟨d', hl, hbraces⟩ := h.braces
  have hrereads := (hd.rereads hs).trans (((hd.rereads hs).sound.advance 1).trans hl).rereads
  have hedge : (d'.advance 1).edge = o.stop := by simp [edge, hbraces.fenced_inside.2]
  have hK : ∀ xs t us, c.inner = xs ++ t :: us → m t.word = true → (d'.advance 1).edge ≤ t.start → t.start < z.start →
      ∃ s R, us = s ++ R ∧ (∃ A o C e, s = A ++ o :: C ++ [e] ∧ Token.Block A o C e) ∧ c.Inside m n t s :=
    fun xs t us hxs ht hle hlt => h.inside hm hs hd hmark hcalled hdeep hxs ht (hedge ▸ hle) hlt
  exact WeakSelf.replacement_bears hm code start hctx (hbraces.signature_bears hc hrereads hm hcalled.closes hK)
    (fun unit hunit => hbraces.body_bears hc hrereads hunit hm hK) g r

end Called

end Cursor

end SwiftMacros
