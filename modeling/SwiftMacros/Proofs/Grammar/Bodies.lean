import Mathlib
import SwiftMacros.Proofs.Grammar.Parts
import SwiftMacros.Proofs.WeakSelf

/-! The macros in a body that is laid out. Between statements semicolons are left out and lines are moved; but what a
macro has behind it, up to the end of its closure, stands in one statement and stays together. -/

namespace SwiftMacros

open Token (Word Stretch Held Bears Block Level Matched Refines dropSeparators nested pending)
open SwiftMacros.Parser

namespace Token

variable {t w u : Token} {ts us xs ys : List Token} {es : List Text} {P : Token → List Token → Prop}

/-- Behind the first tokens those marks are to come that are pending there. -/
theorem nested_foldl (h : nested es (xs ++ ys) = true) : nested (xs.foldl pending es) ys = true ∧
    ∀ d : Nat, (xs.map word).foldl Word.depth ((es.length + d : Nat) : Int) = ((xs.foldl pending es).length + d : Nat) := by
  induction xs generalizing es with
  | nil => exact ⟨h, fun _ => rfl⟩
  | cons t xs ih =>
    obtain ⟨hrest, hdepth⟩ := ih (nested_pending h)
    refine ⟨hrest, fun d => ?_⟩
    rw [List.map_cons, List.foldl_cons, List.foldl_cons, ← hdepth d]
    congr 1
    rcases t.bracket_cases with ho | hc | ⟨ho, hc⟩
    · rw [depth_opener ho, pending_opener ho, List.length_cons]
      push_cast
      ring
    · cases es with
      | nil => simp [nested_closer_nil hc] at h
      | cons e es =>
        rw [depth_closer hc, pending_closer hc, List.length_cons, List.tail_cons]
        push_cast
        ring
    · rw [depth_plain ho hc, pending_plain ho hc]

theorem Level.foldl (h : Level P es (xs ++ ys)) : Level P (xs.foldl pending es) ys := by
  induction xs generalizing es with
  | nil => exact h
  | cons t xs ih => exact ih h.2

/-- A token that is kept, in the tokens as they were. -/
theorem dropSeparators_cons {d : Int} (h : dropSeparators d us = xs ++ t :: ys) : ∃ vs ws, us = vs ++ t :: ws ∧
    ys = dropSeparators (((vs ++ [t]).map word).foldl Word.depth d) ws := by
  induction us generalizing d xs with
  | nil => simp [dropSeparators] at h
  | cons u us ih =>
    rw [dropSeparators] at h
    split at h
    next hdrop =>
      obtain ⟨vs, ws, rfl, hys⟩ := ih h
      refine ⟨u :: vs, ws, rfl, ?_⟩
      rw [hys, List.cons_append, List.map_cons, List.foldl_cons, depth_of_semicolon (isSymbolIn_word u ▸ hdrop.2)]
    next =>
      cases xs with
      | nil =>
        obtain ⟨rfl, rfl⟩ := List.cons.inj h
        exact ⟨[], us, rfl, rfl⟩
      | cons x xs =>
        obtain ⟨rfl, htail⟩ := List.cons.inj h
        obtain ⟨vs, ws, rfl, hys⟩ := ih htail
        exact ⟨u :: vs, ws, rfl, hys⟩

end Token

section Statements

variable {s unit : Text} {a i z : Nat} {g h : Token.Gap} {ps : List Nat} {ss : List Statement} {us W B : List Token}

/-- A statement behind the first one starts on a new line or behind a semicolon outside of all brackets. -/
theorem Spans.opened (hspans : Spans s a ps ss z) (hus : Stretch s a z g h us W) {xs ys : List Token} {w u : Token}
    (heq : us = xs ++ w :: u :: ys) (hu : u.start ∈ ps) : (u.newlineBefore = true ∧ u.spaceBefore = true) ∨
      w.isSymbol ";" = true ∧ (xs.map Token.word).foldl Word.depth 0 = 0 := by
  induction hspans generalizing us g h xs with
  | last => simp at hu
  | @next a b d z ws ps ss hle hlt hread hrounded hb hd hsep hspans ih =>
    obtain ⟨us₁, ms, us₂, j, i, rfl, hus₁, hms, hus₂, -⟩ := hus.divide hle hread hrounded hb hd hsep hspans.le.1
    have hround : (us₁.map Token.word).foldl Word.depth 0 = 0 := by
      rw [← hread.unique hus₁.reads]
      exact hrounded.depth
    have hsemicolon : ∀ m ∈ ms, m.isSymbol ";" = true ∧ ms = [m] := by
      rcases hsep with ⟨rfl, -⟩ | ⟨-, hmark⟩
      · obtain rfl : ms = [] := List.map_eq_nil_iff.mp hms.reads.eq_nil
        simp
      · obtain ⟨m, rfl, hm⟩ := List.map_eq_singleton_iff.mp (hmark.unique hms.reads).symm
        rw [List.forall_mem_singleton, ← Token.isSymbolIn_word, hm]
        exact ⟨rfl, rfl⟩
    have hge : d ≤ u.start := by
      rcases List.mem_cons.mp hu with heq | hu
      · exact heq.ge
      · exact (hspans.le.2 _ hu).1
    rw [← List.append_assoc, List.append_cons xs w] at heq
    rcases List.append_cons_cases heq with ⟨zs, hzs, hus₂'⟩ | ⟨zs, hzs, -⟩
    · rcases List.eq_nil_or_concat zs with rfl | ⟨zs, w', rfl⟩
      · -- the first token of the next statement
        rw [List.append_nil] at hzs
        rw [List.nil_append] at hus₂'
        rcases List.eq_nil_or_concat ms with rfl | ⟨ms, m, rfl⟩
        · obtain ⟨rfl, hbreak⟩ : b = d ∧ BreaksLine s a d := by
            refine hsep.resolve_right fun hmark => ?_
            have := hmark.2.unique hms.reads
            cases this
          obtain rfl := hms.scans.eq_gap
          subst hus₂'
          obtain ⟨hv, hchunk⟩ := hus₂.laid.chunk
          obtain rfl : u.start = b := hd.head_eq hus₂.laid u rfl
          obtain ⟨ls, hls⟩ := (hv ▸ hus₂.scans).front hchunk (by simp)
          obtain ⟨hspot, -⟩ := List.cons.inj hls
          have hgap := (Prod.mk.inj hspot).1
          have := hbreak.gap hus₁
          rw [← hgap] at this
          exact .inl this
        · obtain ⟨hm, hsingle⟩ := hsemicolon m (by simp)
          obtain rfl : ms = [] := by simpa using hsingle
          obtain ⟨rfl, hwm⟩ := List.append_inj' (show xs ++ [w] = us₁ ++ [m] by simpa using hzs) rfl
          obtain rfl := List.singleton_inj.mp hwm
          exact .inr ⟨hm, hround⟩
      · -- one of those behind it
        rw [List.concat_eq_append] at hus₂' hzs
        obtain ⟨rfl, hww⟩ := List.append_inj' (show xs ++ [w] = (us₁ ++ ms ++ zs) ++ [w'] by simpa using hzs) rfl
        obtain rfl := List.singleton_inj.mp hww
        have hu' : u.start ∈ ps := by
          refine (List.mem_cons.mp hu).resolve_left fun hstart => ?_
          obtain ⟨v, vs, hv, hlt⟩ : ∃ v vs, zs ++ [w] = v :: vs ∧ v.start = d := by
            obtain ⟨v, vs, hv⟩ := List.exists_cons_of_ne_nil (show zs ++ [w] ≠ [] by simp)
            exact ⟨v, vs, hv, hd.head_eq hus₂.laid v (by simp [hus₂', hv])⟩
          have hlaid := hus₂.laid
          rw [hus₂', hv, List.cons_append, List.cons_append] at hlaid
          cases hlaid with
          | cons _ _ hlt _ _ _ _ hlaid =>
            have := hlaid.le_start u (by simp)
            omega
        refine (ih hus₂ (show us₂ = zs ++ w :: u :: ys by simpa using hus₂') hu').imp_right fun ⟨hw, hdepth⟩ => ⟨hw, ?_⟩
        have hmarks : (ms.map Token.word).foldl Word.depth 0 = 0 := by
          cases ms with
          | nil => rfl
          | cons m ms =>
            obtain ⟨hm, hsingle⟩ := hsemicolon m (by simp)
            obtain rfl : ms = [] := by simpa using hsingle
            exact Token.depth_of_semicolon (Token.isSymbolIn_word m ▸ hm) 0
        rw [List.map_append, List.map_append, List.foldl_append, List.foldl_append, hround, hmarks, hdepth]
    · -- the tokens in front of it are in front of the statement
      have hmem : u ∈ us₁ ++ ms := by simp [hzs]
      rcases List.mem_append.mp hmem with hmem | hmem
      · have := (hus₁.bounds u hmem).2
        have := hsep.le
        omega
      · have := (hms.bounds u hmem).2
        omega

/-- The tokens of a block in a body are shown where the body is laid out. -/
theorem Token.Matched.shown {front : Nat} {A' : Nat → Prop} {u v : Token} (h : Matched (· ∈ ps) A' front u v)
    (hu : u.start ∈ ps → u.newlineBefore = true ∧ u.spaceBefore = true) (hfront : front ≤ u.start) :
    Token.Shown u v.spot where
  kind := h.kind
  text := h.text
  gap _ := by
    simp only [Token.spot, Token.Gap.mk.injEq]
    by_cases hps : u.start ∈ ps
    · obtain ⟨-, hline⟩ := h.opens hps
      simp [hline, hu hps]
    · exact h.gap hps hfront

/-- Statements on lines of their own hold what is behind the macros in them. -/
theorem Spans.bears {m : Word → Bool} {K : Token → List Token → Prop} {ws : List Word} (hspans : Spans s i ps ss z)
    (hunit : ∀ c ∈ unit, Text.isIndent c = true) (hB : Stretch s i z g h B W)
    (hhead : ∀ c ∈ (s.drop i).head?, Text.isBlank c = false) (hnested : nested [] B = true)
    (hm : ∀ w, m w = true → w.1 = .poundName)
    (hr : Token.Reads ('\n' :: Text.stack (ss.map (Statement.layout unit))) ws [])
    (hK : ∀ xs t us, B = xs ++ t :: us → m t.word = true → ∃ s R, us = s ++ R ∧
      (∃ A o C e, s = A ++ o :: C ++ [e] ∧ Block A o C e) ∧ K t s) :
    Bears m K ('\n' :: Text.stack (ss.map (Statement.layout unit))) := by
  obtain ⟨t, ht⟩ : ∃ t, '\n' :: Text.stack (ss.map (Statement.layout unit)) = t := ⟨_, rfl⟩
  rw [ht] at hr ⊢
  obtain ⟨c, hc, -⟩ := Cursor.exists_ofText hr (.inl rfl)
  obtain ⟨-, -, hlaid, -⟩ := Cursor.laid_ofText hc
  obtain ⟨k, hT⟩ := hlaid.stretch_end (Cursor.spaced_ofText hc) (cut_zero _) hr
  refine .of_scans (g := {}) (k := k) (by simpa using hT.scans) ?_
  -- the gap in front of the first token is another one
  obtain ⟨front, hfront, hlater⟩ : ∃ front, (∀ u ∈ B.head?, u.start < front) ∧ ∀ u ∈ B.tail, front ≤ u.start := by
    cases B with
    | nil => exact ⟨0, by simp, by simp⟩
    | cons b B =>
      have hlaid := hB.laid
      rw [List.cons_append] at hlaid
      refine ⟨b.start + 1, by simp, fun u hu => ?_⟩
      cases hlaid with
      | cons _ _ hlt _ _ _ _ hlaid =>
        have := hlaid.le_start u (List.mem_append_left _ hu)
        omega
  have hlen : t.length = 1 + (Text.stack (ss.map (Statement.layout unit))).length := by
    rw [← ht, List.length_cons, Nat.add_comm]
  obtain ⟨vs, T', _, hTs, hall, hT', -⟩ := hspans.matched (o := 1) (R := []) (z := t.length) hunit hB
    hhead (fun p hp => .inr hp) (fun p hp => hp) (fun u hu => .inr (hfront u hu))
    (hT.skip_gap (c := '\n') (show t.drop 0 = _ from ht.symm) rfl (by omega)) (by rw [← ht]; simp) hlen.ge (fun _ => rfl) rfl
    (show 1 = 1 + (Text.stack []).length from rfl)
  obtain rfl : T' = [] := by
    cases T' with
    | nil => rfl
    | cons u us =>
      have := hT'.bounds u (by simp)
      omega
  rw [List.append_nil] at hTs
  rw [hTs]
  intro xs p ys heq hp
  obtain ⟨X', _, rfl, -, hX'⟩ := List.map_eq_append_iff.mp heq
  obtain ⟨v, Y', rfl, rfl, rfl⟩ := List.map_eq_cons_iff.mp hX'
  obtain ⟨X, u, Y, hX, -, huv, hY⟩ := hall.divide_at
  have hkind : u.kind = .poundName := huv.kind.symm.trans (hm _ hp)
  have hword : u.word = v.word := Prod.ext huv.kind.symm (huv.text (by simp [hkind])).symm
  have hplain := Token.not_bracket_of_kind (t := u) (by simp [hkind])
  obtain ⟨X₀, Y₀, hB₀, rfl⟩ := Token.dropSeparators_cons hX
  obtain ⟨s₁, R, rfl, ⟨A, o, C, e, rfl, hblock⟩, hKs⟩ := hK X₀ u Y₀ hB₀ (by rw [hword]; exact hp)
  obtain ⟨hrest, hdepth⟩ := Token.nested_foldl (hB₀ ▸ hnested)
  have hdepth₁ : ((X₀ ++ [u]).map Token.word).foldl Word.depth 0 = ((X₀.foldl pending []).length : Nat) := by
    have := hdepth 0
    simp only [List.length_nil, Nat.add_zero, Nat.cast_zero] at this
    rw [List.map_append, List.foldl_append, this]
    exact Token.depth_plain hplain.1 hplain.2 _
  rw [hdepth₁, hblock.separators] at hY
  obtain ⟨σ, R', rfl, hσ, -⟩ := hY.flip.divide
  refine ⟨u, _, σ.map Token.spot, R'.map Token.spot, hKs, hword, List.map_append, ?_⟩
  rw [List.forall₂_map_right_iff]
  suffices hline : ∀ u' ∈ A ++ o :: C ++ [e], (u'.start ∈ ps → u'.newlineBefore = true ∧ u'.spaceBefore = true) ∧
      front ≤ u'.start from
    ((List.forall₂_and_left _ _).mpr ⟨hline, hσ.flip⟩).imp fun u' v' h => Token.Matched.shown h.2 h.1.1 h.1.2
  intro u' hu'
  -- no statement starts in the block unless a line does
  obtain ⟨p, q, hpq⟩ := List.append_of_mem hu'
  refine ⟨fun hps => ?_, hlater u' ?_⟩
  · obtain ⟨x, w, hxw⟩ : ∃ x w, u :: p = x ++ [w] := by
      rcases List.eq_nil_or_concat (u :: p) with h | ⟨x, w, h⟩
      · cases h
      · exact ⟨x, w, by simpa using h⟩
    have hsplit : B = (X₀ ++ x) ++ w :: u' :: (q ++ R) := by
      rw [hB₀, hpq, show u :: (p ++ u' :: q ++ R) = (u :: p) ++ u' :: (q ++ R) by simp, hxw]
      simp
    refine (hspans.opened hB hsplit hps).resolve_right fun ⟨hw, hzero⟩ => ?_
    cases x with
    | nil =>
      obtain ⟨rfl, -⟩ := List.cons.inj (show u :: p = [w] from hxw)
      simp [Token.kind_of_isSymbol hw] at hkind
    | cons y x =>
      obtain ⟨rfl, rfl⟩ := List.cons.inj (show u :: p = y :: (x ++ [w]) from hxw)
      rw [List.append_assoc x] at hpq
      have hnested₁ := Token.nested_of_segment hblock.segment
      have hlevel := hblock.level
      rw [hpq] at hnested₁ hlevel
      obtain ⟨-, hdepth₂⟩ := Token.nested_foldl hnested₁
      have hpending : x.foldl pending [] = [] := by
        have := hdepth₂ (X₀.foldl pending []).length
        rw [show X₀ ++ u :: x = X₀ ++ [u] ++ x by simp, List.map_append, List.foldl_append, hdepth₁] at hzero
        simp only [List.length_nil, Nat.zero_add] at this
        rw [hzero] at this
        exact List.length_eq_zero_iff.mp (by omega)
      have := hlevel.foldl.1 hpending
      simp [hw] at this
  · rw [hB₀]
    have hmem := List.mem_append_left R hu'
    cases X₀ with
    | nil => exact hmem
    | cons x X₀ => exact List.mem_append_right X₀ (List.mem_cons_of_mem u hmem)

end Statements

/-- Blocks of statements are read whatever stands behind them. -/
theorem reads_stack {unit : Text} {ss : List Statement} {lss : List (List Word)}
    (hunit : ∀ c ∈ unit, Text.isIndent c = true) (h : ss.Forall₂ Statement.Reads lss) (r : Text) :
    ∃ ls, Token.Reads (Text.stack (ss.map (Statement.layout unit)) ++ r) ls r := by
  induction h with
  | nil => exact ⟨[], .done r⟩
  | @cons s ls ss lss hs _ ih =>
    obtain ⟨ms, hms⟩ := ih
    obtain ⟨ls', -, hfirst⟩ := hs.layout hunit (Text.stack (ss.map (Statement.layout unit)) ++ r)
    refine ⟨ls' ++ ms, ?_⟩
    rw [List.map_cons, Text.stack_cons]
    simpa using hfirst.trans hms

section Closures

variable {text unit : Text} {c d c' c₁ : Cursor} {k : Closure} {o z : Token} {B : List Token} {m : Word → Bool}
  {K : Token → List Token → Prop}

namespace Token

/-- What has been split off a token is within it. -/
theorem Refines.within {ts us : List Token} (h : Refines ts us) (hts : ∀ t ∈ ts, t.stop = t.start + t.text.length) :
    ∀ u ∈ us, ∃ t ∈ ts, t.start ≤ u.start ∧ u.stop ≤ t.stop := by
  induction h with
  | nil => simp
  | keep t _ ih =>
    obtain ⟨-, hts⟩ := List.forall_mem_cons.mp hts
    refine List.forall_mem_cons.mpr ⟨⟨t, by simp, le_rfl, le_rfl⟩, fun u hu => ?_⟩
    obtain ⟨t', ht', h⟩ := ih hts u hu
    exact ⟨t', by simp [ht'], h⟩
  | @split t ts us hk hlen _ ih =>
    obtain ⟨ht, hts⟩ := List.forall_mem_cons.mp hts
    have hback : t.back.stop = t.back.start + t.back.text.length := by
      simp only [Token.back, List.length_drop]
      omega
    refine List.forall_mem_cons.mpr ⟨⟨t, by simp, le_rfl, by simp only [Token.front]; omega⟩, fun u hu => ?_⟩
    obtain ⟨t', ht', hle⟩ := ih (List.forall_mem_cons.mpr ⟨hback, hts⟩) u hu
    rcases List.mem_cons.mp ht' with rfl | ht'
    · exact ⟨t, by simp, by simp only [Token.back] at hle; omega, hle.2⟩
    · exact ⟨t', by simp [ht'], hle⟩

end Token

/-- A cursor on the tokens of a source is led to from its start. -/
theorem Cursor.Rereads.leads (h : c.Rereads d) (hc : Cursor.ofText text = .ok c) : c.Leads d := by
  obtain ⟨-, hbehind, hlaid, -⟩ := laid_ofText hc
  exact ⟨h.sound, h.source, h.eof, hbehind ▸ List.nil_suffix, h.refines,
    h.refines.within fun t ht => (hlaid.apart (cut_zero _) t ht).1⟩

namespace Cursor.Braces

section Inside

variable (h : d.Braces k o B z c')
include h

theorem peek_eq : d.peek = o := by
  obtain ⟨R, hR⟩ := h.ahead
  simp [peek, hR]

/-- Behind the opening brace, the closing one is to come. -/
theorem fenced_inside : (d.advance 1).Fenced [z] ∧ (d.advance 1).behind = o :: d.behind := by
  obtain ⟨R, hR⟩ := h.ahead
  have hz : z.isCloser = true := Token.isCloser_of_isSymbol h.closing (by simp)
  obtain ⟨ds, hds, -, hfenced⟩ := Token.Fenced.of_nested h.inside.1 h.inside.2 hz (.done R)
  obtain rfl : ds = [] := by simpa using hds
  exact ⟨⟨(h.sound.advance 1).sound, by simpa [advance, hR] using hfenced⟩, by simp [advance, hR]⟩

/-- A closure ends with its closing brace. -/
theorem edge_eq : c'.edge = z.stop := by
  obtain ⟨n, -, hread⟩ := h.reads
  have hg := (show (Grammar.upTo n).Walks d (fun _ => true) n from
    Grammar.upTo_walks (fun _ _ => rfl) (by simp) n).fences
  have hlast := Grammar.closureRule_ends hg h.fenced_inside.1 h.closing _ _ hread
  obtain ⟨bs, hbs⟩ := List.head?_eq_some_iff.mp hlast
  simp [edge, hbs]

/-- What is tried as a signature is behind the opening brace, and the statements behind that. -/
theorem signed : ∃ (n : Nat) (c₁ : Cursor), d.room ≤ n ∧
    attempt (Grammar.upTo n).closureSignature (d.advance 1) = .ok k.signature c₁ ∧ (d.advance 1).Leads c₁ ∧
    c₁.Fenced [z] ∧ Cut c₁.source c₁.edge ∧ (∃ last bs, c₁.behind = last :: bs ∧ last.kind ≠ .operator) ∧
    k.ReadsBody c₁ c' := by
  obtain ⟨n, hn, hread⟩ := h.reads
  obtain ⟨hfenced, hbehind⟩ := h.fenced_inside
  have hg := (show (Grammar.upTo n).Walks d (fun _ => true) n from
    Grammar.upTo_walks (fun _ _ => rfl) (by simp) n).fences
  have hspec := Grammar.closureSignature_spec hg.reliable hfenced.sound
  obtain ⟨c₁, i, -, hsig, hss, hclose, rfl, -⟩ := Grammar.closureRule_eq_ok.mp hread
  obtain ⟨hl, hsome, hnone⟩ := hspec.attempt.ok hsig
  have hkind : o.kind ≠ .operator := by simp [Token.kind_of_isSymbol h.opening]
  have hlast : Cut c₁.source c₁.edge ∧ ∃ last bs, c₁.behind = last :: bs ∧ last.kind ≠ .operator := by
    cases hk : k.signature with
    | none =>
      have hb := (hnone hk).trans hbehind
      refine ⟨?_, o, d.behind, hb, hkind⟩
      have hplaced := h.sound.placed_peek (by rw [h.peek_eq]; simp [Token.kind_of_isSymbol h.opening])
      rw [hl.source, edge, hb]
      rw [h.peek_eq] at hplaced
      exact hplaced.cut_stop hkind
    | some s =>
      obtain ⟨-, -, -, -, hcut, -⟩ := hsome s hk
      rw [hk] at hsig
      obtain ⟨parts, d₁, hparts, hin, rfl, -⟩ := Grammar.closureSignature_eq_ok.mp (attempt_eq_some.mp hsig)
      have hd₁ := Grammar.signatureParts_stays hg hfenced parts d₁ hparts
      exact ⟨hcut, d₁.peek, d₁.behind, hd₁.behind_advance, Token.not_operator_of_identifier hin⟩
  obtain ⟨last, bs, hbs, -⟩ := hlast.2
  refine ⟨n, c₁, hn, hsig, hl, Stays.attempt hfenced hspec (Grammar.closureSignature_stays hg hfenced) _ _ hsig,
    hlast.1, hlast.2, i, ?_, hclose, rfl⟩
  rwa [previous_stop (by simp [hbs])] at hss

end Inside

variable (hc : Cursor.ofText text = .ok c) (hd : c.Rereads d) (h : d.Braces k o B z c')
include hc hd h

/-- Behind what is tried as a signature, the body starts. -/
theorem body_bears (hunit : ∀ c ∈ unit, Text.isIndent c = true) (hm : ∀ w, m w = true → w.1 = .poundName)
    (hK : ∀ xs t us, c.inner = xs ++ t :: us → m t.word = true → (d.advance 1).edge ≤ t.start → t.start < z.start →
      ∃ s R, us = s ++ R ∧ (∃ A o C e, s = A ++ o :: C ++ [e] ∧ Token.Block A o C e) ∧ K t s) :
    Bears m K ('\n' :: Text.stack (k.statements.map (Statement.layout unit))) := by
  obtain ⟨-, c₁, -, -, hl, hfenced, hcut, ⟨last, bs, hbs, hlast⟩, hbody⟩ := h.signed
  obtain ⟨hsource, -, hlaid, -⟩ := laid_ofText hc
  have hspaced := spaced_ofText hc
  have hlead := (hd.leads hc).trans ((hd.sound.advance 1).trans hl)
  obtain ⟨-, lss, -, hlss, -⟩ := hbody.reads hfenced.sound hcut (by simp [hbs])
  obtain ⟨ws, hws⟩ := reads_stack hunit hlss []
  obtain ⟨n, hss, hclose, -⟩ := hbody
  obtain ⟨hstart, -, hspans⟩ := Reached.body_spans ⟨c, by rw [hlead.source, hsource]; exact hc, hlead⟩ hfenced h.closing
    (hlead.within_source (within_ofText hc)) hcut (by simp [hbs]) (by rw [previous_stop (by simp [hbs])]) hss hclose
  -- the tokens of the body as they are in the source
  obtain ⟨V, R, hahead, hV, -⟩ := Token.Fenced.split (show Token.Fenced ([] ++ z :: []) _ from hfenced.ahead)
  have hrefines := hlead.refines
  rw [show c₁.inner = bs.reverse ++ last :: c₁.ahead by simp [inner, hbs]] at hrefines
  obtain ⟨X, Y, hinner, -, hY⟩ := hrefines.split_at hlast
  obtain ⟨U, R₀, rfl, hU, -⟩ := (hahead ▸ hY).split_at (by simp [Token.kind_of_isSymbol h.closing])
  have hnested : nested [] U = true := by rwa [← Token.nested_refines hU]
  have hedge : c₁.edge = last.stop := by simp [edge, hbs]
  have hz : z.isCloser = true := Token.isCloser_of_isSymbol h.closing (by simp)
  rw [hinner] at hlaid hspaced
  obtain ⟨j, hstretch⟩ := hlaid.behind.stretch hspaced.behind (hlaid.cut_stop (cut_zero _))
  rw [← hedge, ← hsource, ← hlead.source] at hstretch
  obtain ⟨_, hB⟩ := hstart.stretch hstretch hspans.le.1
  refine hspans.bears hunit hB hstart.head hnested hm (show Token.Reads _ ws [] by
    simpa using (Token.Reads.of_gaps (w := ['\n']) (by simp [Token.isGap]) _).trans hws) fun xs t us hxs ht => ?_
  obtain ⟨s, R, hus, ⟨A, o', C, e, rfl, hblock⟩, hKs⟩ := hK (X ++ last :: xs) t (us ++ z :: R₀) (by simp [hinner, hxs]) ht
    (by
      have := (hstretch.bounds t (by simp [hxs])).1
      have := hl.edge_le
      omega)
    (hstretch.bounds t (by simp [hxs])).2
  -- what is behind the macro ends in front of the closing brace
  obtain ⟨ks, hks⟩ := Token.exists_nested_suffix hnested (show us <:+ U from ⟨xs ++ [t], by simp [hxs]⟩)
  obtain ⟨R', rfl⟩ := Token.nested_front (Token.nested_of_segment hblock.segment)
    (show nested ([] ++ ks) us = true by simpa using hks) hz hus.symm
  exact ⟨_, R', rfl, ⟨A, o', C, e, rfl, hblock⟩, hKs⟩

/-- Each part of the signature holds what is behind the macros in it. -/
theorem signature_bears (hm : ∀ w, m w = true → w.1 = .poundName)
    (hcloses : ∀ d e d', c.Rereads d → m d.peek.word = true → Parser.expansion d = .ok e d' → e.trailing.isSome = true)
    (hK : ∀ xs t us, c.inner = xs ++ t :: us → m t.word = true → (d.advance 1).edge ≤ t.start → t.start < z.start →
      ∃ s R, us = s ++ R ∧ (∃ A o C e, s = A ++ o :: C ++ [e] ∧ Token.Block A o C e) ∧ K t s) :
    ∀ s ∈ k.signature, s.Parted (Bears m K) := by
  intro s hs
  obtain ⟨n, c₁, hn, hsig, -⟩ := h.signed
  rw [Option.mem_def.mp hs] at hsig
  have hread := hd.trans (h.sound.advance 1).rereads
  have hg : (Grammar.upTo n).Walks c (fun t => !m t.word) n := by
    refine Grammar.upTo_walks (fun t hk => ?_) (fun d d' e hd hmark he => hcloses d e d' hd (by simpa using hmark) he) n
    rw [Bool.not_eq_true', Bool.eq_false_iff]
    exact fun hmark => hk (hm _ hmark)
  have hamid : Amid c [z] (n + 1) (d.advance 1) := ⟨h.fenced_inside.1, hread,
    ((h.sound.advance 1).room_le h.sound).trans_lt (Nat.lt_succ_of_le hn)⟩
  refine ((Grammar.closureSignature_parts hg hamid).ok (attempt_eq_some.mp hsig)).2.mono fun x hx => ?_
  refine hx.bears hc hread (Token.isCloser_of_isSymbol h.closing (by simp)) hm (by simp) fun xs t us hxs ht hle hlt => ?_
  obtain ⟨s, R, rfl, ⟨A, o, C, e, rfl, hblock⟩, hKs⟩ := hK xs t us hxs ht hle hlt
  exact ⟨_, R, rfl, hblock.segment, hKs⟩

end Cursor.Braces

end Closures

end SwiftMacros
