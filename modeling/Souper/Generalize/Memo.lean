import Mathlib.Logic.Relation
import Souper.Inst.Canonical
import Souper.Generalize.Reduce

/-!
# The do-not-repeat set of the reducer

`ReduceRec` keeps the texts of the rules it has explored in `DNR`, and returns at once on a rule
whose text is there. This module compares it with `reduceRecAll`, the same recursion without
`DNR`, which explores every valid sequence of elisions. When the text is canonical and the
solver's verdict depends only on it (`CanonicalText`), both record the same texts: those
reachable from the input by valid elisions. The argument is the one the set relies on: a text
found in `DNR` is never that of a rule on the current path, whose rules reach more operations
than the current one, so the exploration of that text has finished.

## Main definitions

- `reduceRecAll` — `ReduceRec` without `DNR`
- `CanonicalText` — what a canonical text gives the search
- `ElisionStep` — one valid elision, on texts
- `Explored` — what a call leaves behind: every text reachable from its rule's is recorded,
  and nothing else is

## Main results

- `foldlM_reduceStep_explores` — the loop of either search records and explores the text of
  every valid elision of a node it passes
- `reduceRecAll_explores`, `reduceRec_explores` — each search explores the rule it is called on
- `canonicalText_canonText` — with a solver that accepts every rule, the text of
  `Souper.Inst.Canonical`, the rule up to renaming, is canonical
- `reduceRec_texts_eq_reduceRecAll` — the two searches record the same texts
-/

namespace Souper.Generalize

open InstContext Relation

section Search

variable (S : Solver) (getString : InstContext → ParsedReplacement → String)
  (order : InstContext → List Nat → List Nat)

/-- `ReduceRec` without `DNR`: every rule reached by valid elisions is explored, whatever its
text. -/
def reduceRecAll : Nat → ReduceState → ParsedReplacement → Option ReduceState
  | 0, _, _ => none
  | fuel + 1, st, R =>
    match collectAll st.ic R with
    | none => none
    | some insts =>
      if insts.length ≤ 1 then some st
      else (order st.ic insts).foldlM (reduceStep S (reduceRecAll fuel) R) st

/-- The solver's verdict on a rule: `Valid` after `isValid`. -/
def Solver.valid (ic : InstContext) (R : ParsedReplacement) : Bool :=
  (S.isValid ic R.bpcs R.pcs R.mapping).valid

/-- The texts of the recorded rules, printed in the state's context, as `ReduceAndGeneralize`
prints them. -/
def resultTexts (st : ReduceState) : List String := st.results.map (getString st.ic)

/-- The assumption under which `DNR` is sound: the text is canonical, and the solver's verdict
depends only on it. What the search uses of a canonical text: it stays as the context grows;
rules of one text reach equally many operations; and a valid elision of a rule has a
counterpart in every rule of the same text, a node whose elision, from any later state, prints
the same. -/
structure CanonicalText : Prop where
  verdict : ∀ {ic₁ ic₂ : InstContext} {R₁ R₂ : ParsedReplacement},
    getString ic₁ R₁ = getString ic₂ R₂ → S.valid ic₁ R₁ = S.valid ic₂ R₂
  stable : ∀ {ic ic' : InstContext} {R : ParsedReplacement}, ic.WF → ic.Extends ic' →
    (∀ r ∈ R.roots, r < ic.size) → getString ic' R = getString ic R
  card_eq : ∀ {ic₁ ic₂ : InstContext} {R₁ R₂ : ParsedReplacement},
    ic₁.WF → (∀ r ∈ R₁.roots, r < ic₁.size) → ic₂.WF → (∀ r ∈ R₂.roots, r < ic₂.size) →
    getString ic₁ R₁ = getString ic₂ R₂ → (ic₁.nonLeafNodes R₁).card = (ic₂.nonLeafNodes R₂).card
  counterpart : ∀ {st₁ st₂ : ReduceState} {R₁ R₂ : ParsedReplacement} {I₁ : Nat},
    st₁.ic.WF → (∀ r ∈ R₁.roots, r < st₁.ic.size) → st₂.ic.WF →
    (∀ r ∈ R₂.roots, r < st₂.ic.size) → getString st₁.ic R₁ = getString st₂.ic R₂ →
    I₁ ∈ st₁.ic.nodes R₁ → ¬ skipped st₁.ic R₁ I₁ →
    S.valid (elide st₁ R₁ I₁).1.ic (elide st₁ R₁ I₁).2 →
    ∃ I₂ ∈ st₂.ic.nodes R₂, ¬ skipped st₂.ic R₂ I₂ ∧
      ∀ st : ReduceState, st.ic.WF → st₂.ic.Extends st.ic →
        getString (elide st R₂ I₂).1.ic (elide st R₂ I₂).2 =
          getString (elide st₁ R₁ I₁).1.ic (elide st₁ R₁ I₁).2

/-- One valid elision, on texts: a rule of text `t` has a valid elision of text `t'`. -/
def ElisionStep (t t' : String) : Prop :=
  ∃ (st : ReduceState) (R : ParsedReplacement) (I : Nat), st.ic.WF ∧
    (∀ r ∈ R.roots, r < st.ic.size) ∧ getString st.ic R = t ∧ I ∈ st.ic.nodes R ∧
    ¬ skipped st.ic R I ∧ S.valid (elide st R I).1.ic (elide st R I).2 ∧
    getString (elide st R I).1.ic (elide st R I).2 = t'

/-- Every text reachable from `t` by valid elisions is recorded in `st`. -/
def Closed (st : ReduceState) (t : String) : Prop :=
  ∀ t', TransGen (ElisionStep S getString) t t' → t' ∈ resultTexts getString st

/-- Eliding `I` from `R`, from any state after `st`, gives a valid rule of text `t`. -/
def Counterpart (st : ReduceState) (R : ParsedReplacement) (I : Nat) (t : String) : Prop :=
  ∀ st' : ReduceState, st'.ic.WF → st.ic.Extends st'.ic →
    S.valid (elide st' R I).1.ic (elide st' R I).2 ∧
      getString (elide st' R I).1.ic (elide st' R I).2 = t

/-- The text of a valid elision of `I` from `R` is recorded in `st'`, and explored. -/
def Covered (st : ReduceState) (R : ParsedReplacement) (I : Nat) (st' : ReduceState) : Prop :=
  ∀ t, Counterpart S getString st R I t → t ∈ resultTexts getString st' ∧ Closed S getString st' t

/-- Every text recorded in `st'` was recorded in `st`, or is reachable from `t`. -/
def RecordedBelow (st : ReduceState) (t : String) (st' : ReduceState) : Prop :=
  ∀ t' ∈ resultTexts getString st', t' ∈ resultTexts getString st ∨
    TransGen (ElisionStep S getString) t t'

/-- What a call on `R` from `st` leaves in `st'`. -/
structure Explored (st : ReduceState) (R : ParsedReplacement) (st' : ReduceState) : Prop where
  reduced : Reduced st R st'
  below : RecordedBelow S getString st (getString st.ic R) st'
  closed : Closed S getString st' (getString st.ic R)

/-- The invariant of the loop of a call on `R` from `st`, after it passed the nodes `done`: the
state only grew, records texts reachable from `R`'s, keeps the search's invariant `J`, and has
recorded and explored the text of every valid elision of a node passed. -/
structure LoopInv (st : ReduceState) (R : ParsedReplacement) (J : ReduceState → Prop)
    (done : List Nat) (stc : ReduceState) : Prop where
  reduced : Reduced st R stc
  below : RecordedBelow S getString st (getString st.ic R) stc
  inv : J stc
  covered : ∀ I ∈ done, ¬ skipped st.ic R I → Covered S getString st R I stc

/-- `DNR` holds texts whose exploration has finished, and texts whose rules reach more than `n`
operations: those of the rules on the current path. -/
def DnrBelow (st : ReduceState) (n : Nat) : Prop :=
  ∀ t ∈ st.dnr, Closed S getString st t ∨ ∀ (ic : InstContext) (R : ParsedReplacement), ic.WF →
    (∀ r ∈ R.roots, r < ic.size) → getString ic R = t → n < (ic.nonLeafNodes R).card

end Search

-- ════════════════════════════════════════════════════════════════════════
-- A canonical text
-- ════════════════════════════════════════════════════════════════════════

/-- A solver that accepts every rule. -/
def acceptingSolver : Solver where
  isValid _ _ _ _ := ⟨none, true⟩
  abstractPrecondition _ _ _ _ := ⟨false, [], []⟩

/-- Eliding `I` from `R` gives the shape of `R` cut at `I`, renamed one to one. -/
theorem elide_shape {st : ReduceState} {R : ParsedReplacement} {I : Nat} (hwf : st.ic.WF)
    (hR : ∀ r ∈ R.roots, r < st.ic.size) (hI : I < st.ic.size) :
    ∃ c, Set.InjOn c {j | j ∈ (st.ic.shape (· == I) R).labels} ∧
      (elide st R I).1.ic.shape (fun _ => false) (elide st R I).2 =
        (st.ic.shape (· == I) R).relabel c := by
  obtain ⟨hwf', hext, hvar, hcopy⟩ := elide_copy hwf hR hI
  exact shape_copy hwf hwf' hext hR hvar (fun _ => rfl) hcopy

/-- A renaming maps a node the reducer elides to one it elides. -/
theorem not_skipped_of_ruleIso {ic₁ ic₂ : InstContext} {R₁ R₂ : ParsedReplacement} {β : Nat → Nat}
    (hiso : RuleIso ic₁ R₁ ic₂ R₂ β) {I : Nat} (hI : I ∈ ic₁.nodes R₁)
    (hs : ¬ skipped ic₁ R₁ I) : ¬ skipped ic₂ R₂ (β I) := by
  simp only [skipped, hiso.mapping_eq.1, hiso.mapping_eq.2, hiso.k_eq hI,
    hiso.eq_iff hI (mem_nodes_of_mem_roots R₁.lhs_mem_roots),
    hiso.eq_iff hI (mem_nodes_of_mem_roots R₁.rhs_mem_roots)] at hs ⊢
  exact hs

/-- With a solver that accepts every rule, the text of a rule up to renaming is one `DNR` may rely
on: a renaming of a rule has, for each elision, the renamed elision, of the same text. -/
theorem canonicalText_canonText : CanonicalText acceptingSolver canonText where
  verdict _ := rfl
  stable hwf he hR := by rw [canonText, canonText, he.shape_eq hwf hR]
  card_eq hwf₁ _ hwf₂ _ h := by
    obtain ⟨β, hiso⟩ := (canonText_eq_iff hwf₁ hwf₂).mp h
    exact hiso.card_nonLeafNodes.symm
  counterpart {st₁ st₂ R₁ R₂ I₁} hwf₁ hR₁ hwf₂ hR₂ h hI₁ hs₁ _ := by
    obtain ⟨β, hiso⟩ := (canonText_eq_iff hwf₁ hwf₂).mp h
    have hI₂ : β I₁ ∈ st₂.ic.nodes R₂ := hiso.nodes ▸ Finset.mem_image_of_mem β hI₁
    refine ⟨β I₁, hI₂, not_skipped_of_ruleIso hiso hI₁ hs₁, fun st hwf he => ?_⟩
    obtain ⟨c₁, hc₁, hE₁⟩ := elide_shape hwf₁ hR₁ (st₁.ic.lt_size_of_mem_nodes hwf₁ hR₁ hI₁)
    obtain ⟨c₂, hc₂, hE₂⟩ := elide_shape hwf (fun r hr => lt_of_lt_of_le (hR₂ r hr) he.size_le)
      (lt_of_lt_of_le (st₂.ic.lt_size_of_mem_nodes hwf₂ hR₂ hI₂) he.size_le)
    -- the two rules cut at the two nodes are renamings of each other
    have hcut : st.ic.shape (· == β I₁) R₂ = (st₁.ic.shape (· == I₁) R₁).relabel β := by
      rw [he.shape_eq hwf₂ hR₂]; exact hiso.shape_cut hwf₁.toAcyclic hwf₂.toAcyclic hI₁
    rw [hcut] at hc₂ hE₂
    rw [canonText, canonText, hE₁, hE₂, Shape.normalize_relabel _ hc₂,
      Shape.normalize_relabel _ fun a ha b hb => (hiso.eq_iff
        (mem_nodes_of_mem_labels hwf₁.toAcyclic ha) (mem_nodes_of_mem_labels hwf₁.toAcyclic hb)).mp,
      Shape.normalize_relabel _ hc₁]

-- ════════════════════════════════════════════════════════════════════════
-- Growing states
-- ════════════════════════════════════════════════════════════════════════

/-- The roots of every recorded rule exist in the context. -/
def ResultsIn (st : ReduceState) : Prop := ∀ R' ∈ st.results, ∀ r ∈ R'.roots, r < st.ic.size

/-- `st'` comes after `st`: the context only allocated, and `Results` only grew. -/
structure Grows (st st' : ReduceState) : Prop where
  ext : st.ic.Extends st'.ic
  results : st.results <+: st'.results

theorem Grows.trans {st st' st'' : ReduceState} (h : Grows st st') (h' : Grows st' st'') :
    Grows st st'' :=
  ⟨h.ext.trans h'.ext, h.results.trans h'.results⟩

theorem Reduced.grows {st st' : ReduceState} {R : ParsedReplacement} (h : Reduced st R st') :
    Grows st st' := by
  obtain ⟨new, hnew, -⟩ := h.results
  exact ⟨h.ext, new, hnew.symm⟩

theorem Reduced.resultsIn {st st' : ReduceState} {R : ParsedReplacement} (h : Reduced st R st')
    (hin : ResultsIn st) : ResultsIn st' := by
  obtain ⟨new, hnew, hsm⟩ := h.results
  intro R' hR' r hr
  rcases List.mem_append.mp (hnew ▸ hR') with hR' | hR'
  · exact lt_of_lt_of_le (hin R' hR' r hr) h.ext.size_le
  · exact (hsm R' hR').1 r hr

theorem skipped_iff_of_extends {ic ic' : InstContext} (he : ic.Extends ic')
    {R : ParsedReplacement} {I : Nat} (hI : I < ic.size) : skipped ic' R I ↔ skipped ic R I := by
  simp only [skipped, he.get_eq hI]

/-- A rule with at most one node has nothing to elide: its one node is the root `LHS`. -/
theorem skipped_of_length_le_one {ic : InstContext} {R : ParsedReplacement} {insts : List Nat}
    (hmem : ∀ x, x ∈ insts ↔ x ∈ ic.nodes R) (hlen : insts.length ≤ 1) {I : Nat}
    (hI : I ∈ ic.nodes R) : skipped ic R I := by
  have hl : R.mapping.lhs ∈ insts := (hmem _).mpr (Finset.mem_biUnion.mpr
    ⟨_, List.mem_toFinset.mpr R.lhs_mem_roots, ic.mem_reach_self _⟩)
  rcases insts with _ | ⟨x, _ | ⟨y, l⟩⟩
  · cases hl
  · exact .inl ((List.mem_singleton.mp ((hmem I).mpr hI)).trans (List.mem_singleton.mp hl).symm)
  · simp at hlen

section Texts

variable {S : Solver} {getString : InstContext → ParsedReplacement → String}
  (hct : CanonicalText S getString)
include hct

theorem CanonicalText.resultTexts_mono {st st' : ReduceState} (hwf : st.ic.WF) (hin : ResultsIn st)
    (hg : Grows st st') {t : String} (ht : t ∈ resultTexts getString st) :
    t ∈ resultTexts getString st' := by
  obtain ⟨R', hR', rfl⟩ := List.mem_map.mp ht
  exact List.mem_map.mpr ⟨R', hg.results.subset hR', hct.stable hwf hg.ext (hin R' hR')⟩

theorem CanonicalText.resultTexts_eq {st st' : ReduceState} (hwf : st.ic.WF) (hin : ResultsIn st)
    (he : st.ic.Extends st'.ic) (hres : st'.results = st.results) :
    resultTexts getString st' = resultTexts getString st := by
  rw [resultTexts, hres]
  exact List.map_congr_left fun R' hR' => hct.stable hwf he (hin R' hR')

/-- Recording one rule adds its text. -/
theorem CanonicalText.mem_resultTexts_push {st st' : ReduceState} {R' : ParsedReplacement}
    (hwf : st.ic.WF) (hin : ResultsIn st) (he : st.ic.Extends st'.ic)
    (hres : st'.results = st.results ++ [R']) {t : String} :
    t ∈ resultTexts getString st' ↔ t ∈ resultTexts getString st ∨ t = getString st'.ic R' := by
  have hold : st.results.map (getString st'.ic) = resultTexts getString st :=
    List.map_congr_left fun R'' hR'' => hct.stable hwf he (hin R'' hR'')
  rw [resultTexts, hres, List.map_append, hold]
  simp

theorem CanonicalText.closed_mono {st st' : ReduceState} (hwf : st.ic.WF) (hin : ResultsIn st)
    (hg : Grows st st') {t : String} (h : Closed S getString st t) : Closed S getString st' t :=
  fun t' h' => hct.resultTexts_mono hwf hin hg (h t' h')

theorem CanonicalText.covered_mono {st₀ st st' : ReduceState} {R : ParsedReplacement} {I : Nat}
    (hwf : st.ic.WF) (hin : ResultsIn st) (hg : Grows st st')
    (h : Covered S getString st₀ R I st) : Covered S getString st₀ R I st' := fun t ht =>
  ⟨hct.resultTexts_mono hwf hin hg (h t ht).1, hct.closed_mono hwf hin hg (h t ht).2⟩

/-- A valid elision of any rule of `R`'s text has a counterpart node in `R`. -/
theorem CanonicalText.counterpart_of_step {st : ReduceState} {R : ParsedReplacement}
    (hwf : st.ic.WF) (hR : ∀ r ∈ R.roots, r < st.ic.size) {t : String}
    (h : ElisionStep S getString (getString st.ic R) t) :
    ∃ I ∈ st.ic.nodes R, ¬ skipped st.ic R I ∧ Counterpart S getString st R I t := by
  obtain ⟨st₁, R₁, I₁, hwf₁, hR₁, ht, hI₁, hs₁, hv₁, rfl⟩ := h
  obtain ⟨I₂, hI₂, hs₂, htext⟩ := hct.counterpart hwf₁ hR₁ hwf hR ht hI₁ hs₁ hv₁
  exact ⟨I₂, hI₂, hs₂, fun st' hwf' he =>
    ⟨(hct.verdict (htext st' hwf' he)).trans hv₁, htext st' hwf' he⟩⟩

/-- A rule is explored once the text of every valid elision of each of its nodes is recorded and
explored. -/
theorem CanonicalText.closed_of_covered {st st' : ReduceState} {R : ParsedReplacement}
    (hwf : st.ic.WF) (hR : ∀ r ∈ R.roots, r < st.ic.size)
    (h : ∀ I ∈ st.ic.nodes R, ¬ skipped st.ic R I → Covered S getString st R I st') :
    Closed S getString st' (getString st.ic R) := by
  intro t ht
  obtain ⟨t₁, h₁, h₂⟩ := TransGen.head'_iff.mp ht
  obtain ⟨I, hI, hs, hcp⟩ := hct.counterpart_of_step hwf hR h₁
  obtain ⟨ht₁, hcl⟩ := h I hI hs t₁ hcp
  rcases reflTransGen_iff_eq_or_transGen.mp h₂ with rfl | h₂
  exacts [ht₁, hcl t h₂]

end Texts

-- ════════════════════════════════════════════════════════════════════════
-- The loop
-- ════════════════════════════════════════════════════════════════════════

/-- `st₁` is a state a call on `R` from `st` recurses in: `R'` is a valid elision of `R` made in
the intermediate state `stc`, just recorded. -/
structure Child (st : ReduceState) (R : ParsedReplacement) (stc st₁ : ReduceState)
    (R' : ParsedReplacement) : Prop where
  reduced : Reduced st R stc
  grows : Grows stc st₁
  results : st₁.results = stc.results ++ [R']
  dnr : st₁.dnr = stc.dnr
  wf : st₁.ic.WF
  roots : ∀ r ∈ R'.roots, r < st₁.ic.size
  card : (st₁.ic.nonLeafNodes R').card < (st.ic.nonLeafNodes R).card

namespace Child

variable {st stc st₁ st₂ : ReduceState} {R R' : ParsedReplacement}

theorem resultsIn (h : Child st R stc st₁ R') (hin : ResultsIn st) : ResultsIn st₁ := by
  intro R'' hR'' r hr
  rcases List.mem_append.mp (h.results ▸ hR'') with hR'' | hR''
  · exact lt_of_lt_of_le (h.reduced.resultsIn hin R'' hR'' r hr) h.grows.ext.size_le
  · obtain rfl := List.mem_singleton.mp hR''
    exact h.roots r hr

/-- What the recursive call records is smaller than `R` as well. -/
theorem reduced_of (h : Child st R stc st₁ R') (h₂ : Reduced st₁ R' st₂) : Reduced st R st₂ :=
  h.reduced.recurse h₂ h.grows.ext h.wf h.results ⟨h.roots, h.card⟩

end Child

section Loop

variable {S : Solver} {getString : InstContext → ParsedReplacement → String}

theorem foldlM_some_of_inv_done {σ α : Type} (f : σ → α → Option σ) (Inv : List α → σ → Prop)
    (as : List α)
    (hf : ∀ done a s, a ∈ as → Inv done s → ∃ s', f s a = some s' ∧ Inv (done ++ [a]) s') :
    ∀ done s, Inv done s → ∃ s', as.foldlM f s = some s' ∧ Inv (done ++ as) s' := by
  induction as with
  | nil => exact fun done s hs => ⟨s, rfl, by rwa [List.append_nil]⟩
  | cons a as ih =>
    intro done s hs
    obtain ⟨s₁, h₁, hs₁⟩ := hf done a s (List.mem_cons_self _ _) hs
    obtain ⟨s₂, h₂, hs₂⟩ :=
      ih (fun d a' s' ha' => hf d a' s' (List.mem_cons_of_mem _ ha')) _ s₁ hs₁
    rw [List.append_assoc, List.singleton_append] at hs₂
    exact ⟨s₂, by simp [h₁, h₂], hs₂⟩

section Steps

variable (hct : CanonicalText S getString) {st stc st' : ReduceState} {R : ParsedReplacement}
  {J : ReduceState → Prop} {done : List Nat} {I : Nat}
include hct

/-- An iteration that records nothing keeps the loop's invariant, provided the node has no valid
elision, or is skipped. -/
theorem LoopInv.skip (hin : ResultsIn st) (h : LoopInv S getString st R J done stc)
    (hg : Grows stc st') (hwf' : st'.ic.WF) (hres : st'.results = stc.results) (hj : J st')
    (hI : ¬ skipped st.ic R I → ∀ t, ¬ Counterpart S getString st R I t) :
    LoopInv S getString st R J (done ++ [I]) st' := by
  have hinc := h.reduced.resultsIn hin
  refine ⟨h.reduced.extend hwf' hg.ext hres, fun t ht => ?_, hj, fun I' hI' hs' => ?_⟩
  · rw [hct.resultTexts_eq h.reduced.wf hinc hg.ext hres] at ht
    exact h.below t ht
  rcases List.mem_append.mp hI' with hI' | hI'
  · exact hct.covered_mono h.reduced.wf hinc hg (h.covered I' hI' hs')
  · obtain rfl := List.mem_singleton.mp hI'
    exact fun t hcp => absurd hcp (hI hs' t)

/-- An iteration that records a valid elision `R'` of the node `I`, of which the recursive call
then explores the text, keeps the loop's invariant. -/
theorem LoopInv.explored {st₁ st₂ : ReduceState} {R' : ParsedReplacement} (hin : ResultsIn st)
    (h : LoopInv S getString st R J done stc) (hch : Child st R stc st₁ R')
    (hstep : ElisionStep S getString (getString st.ic R) (getString st₁.ic R'))
    (hI : ∀ t, Counterpart S getString st R I t → t = getString st₁.ic R')
    (hexp : Explored S getString st₁ R' st₂) (hj : J st₂) :
    LoopInv S getString st R J (done ++ [I]) st₂ := by
  have hinc := h.reduced.resultsIn hin
  have hpush := fun t => hct.mem_resultTexts_push (t := t) h.reduced.wf hinc hch.grows.ext hch.results
  refine ⟨hch.reduced_of hexp.reduced, fun t ht => ?_, hj, fun I' hI' hs' => ?_⟩
  · rcases hexp.below t ht with ht | ht
    · rcases (hpush t).mp ht with ht | rfl
      exacts [h.below t ht, .inr (.single hstep)]
    · exact .inr (.head hstep ht)
  rcases List.mem_append.mp hI' with hI' | hI'
  · exact hct.covered_mono h.reduced.wf hinc (hch.grows.trans hexp.reduced.grows)
      (h.covered I' hI' hs')
  · obtain rfl := List.mem_singleton.mp hI'
    intro t hcp
    rw [hI t hcp]
    exact ⟨hct.resultTexts_mono hch.wf (hch.resultsIn hin) hexp.reduced.grows
      ((hpush _).mpr (.inr rfl)), hexp.closed⟩

end Steps

/-- The loop of either search over nodes of `R`, from a state `st₀` after the call's state `st`.
Given that each recursive call explores the rule it is called on and keeps an invariant `J` of
the search, the loop records only texts reachable from `R`'s, and records and explores the text
of every valid elision of a node it passes. -/
theorem foldlM_reduceStep_explores (hct : CanonicalText S getString) {st : ReduceState}
    {R : ParsedReplacement} (hwf : st.ic.WF) (hR : ∀ r ∈ R.roots, r < st.ic.size)
    (hin : ResultsIn st) {rec : ReduceState → ParsedReplacement → Option ReduceState}
    {J : ReduceState → Prop}
    (hJ : ∀ stc st', J stc → Reduced st R stc → Grows stc st' → st'.results = stc.results →
      st'.dnr = stc.dnr → J st')
    (hrec : ∀ stc st₁ R', Child st R stc st₁ R' → J stc →
      ∃ st₂, rec st₁ R' = some st₂ ∧ Explored S getString st₁ R' st₂ ∧ J st₂)
    (l : List Nat) (hl : ∀ I ∈ l, I ∈ st.ic.nodes R) (st₀ : ReduceState)
    (h₀ : Reduced st R st₀) (hb₀ : RecordedBelow S getString st (getString st.ic R) st₀)
    (hJ₀ : J st₀) :
    ∃ st', l.foldlM (reduceStep S rec R) st₀ = some st' ∧ Reduced st R st' ∧
      RecordedBelow S getString st (getString st.ic R) st' ∧ J st' ∧
      ∀ I ∈ l, ¬ skipped st.ic R I → Covered S getString st R I st' := by
  suffices step : ∀ done I stc, I ∈ l → LoopInv S getString st R J done stc →
      ∃ st', reduceStep S rec R stc I = some st' ∧ LoopInv S getString st R J (done ++ [I]) st' by
    obtain ⟨st', hrun, hinv⟩ := foldlM_some_of_inv_done _ _ l step [] st₀ ⟨h₀, hb₀, hJ₀, by simp⟩
    exact ⟨st', hrun, hinv.reduced, hinv.below, hinv.inv, hinv.covered⟩
  intro done I stc hI hinv
  have hred := hinv.reduced
  have hIs : I < st.ic.size := st.ic.lt_size_of_mem_nodes hwf hR (hl I hI)
  have hRc : ∀ r ∈ R.roots, r < stc.ic.size := fun r hr =>
    lt_of_lt_of_le (hR r hr) hred.ext.size_le
  have hIc : I ∈ stc.ic.nodes R := by rw [hred.ext.nodes_eq hwf hR]; exact hl I hI
  simp only [reduceStep]
  split_ifs with hs hv
  · -- a skipped node: nothing changes
    exact ⟨stc, rfl, hinv.skip hct hin ⟨.refl _, List.prefix_refl _⟩ hred.wf rfl hinv.inv
      fun hs' => absurd ((skipped_iff_of_extends hred.ext hIs).mp hs) hs'⟩
  all_goals
    obtain ⟨hwf', hext', hroots', -, -⟩ :=
      elide_spec hred.wf hRc (lt_of_lt_of_le hIs hred.ext.size_le)
    have hlt := elide_card_nonLeafNodes_lt hred.wf hRc
      (Finset.mem_filter.mpr ⟨hIc, isOp_of_not_skipped hs⟩)
  · -- a valid elision: it is recorded, and the recursive call explores it
    have hcall : ∀ st₁ : ReduceState, st₁.ic = (elide stc R I).1.ic →
        st₁.results = stc.results ++ [(elide stc R I).2] → st₁.dnr = stc.dnr → ∃ st₂,
          rec st₁ (elide stc R I).2 = some st₂ ∧ LoopInv S getString st R J (done ++ [I]) st₂ := by
      intro st₁ hic hres hdnr
      have hstep : ElisionStep S getString (getString st.ic R) (getString st₁.ic (elide stc R I).2) :=
        ⟨stc, R, I, hred.wf, hRc, hct.stable hwf hred.ext hR, hIc, hs, hv, by rw [hic]⟩
      rw [← hic] at hwf' hroots' hlt hext'
      have hch : Child st R stc st₁ (elide stc R I).2 := ⟨hred, ⟨hext', _, hres.symm⟩, hres, hdnr,
        hwf', hroots', hred.ext.nonLeafNodes_eq hwf hR ▸ hlt⟩
      obtain ⟨st₂, hrun, hexp, hj₂⟩ := hrec _ _ _ hch hinv.inv
      exact ⟨st₂, hrun, hinv.explored hct hin hch hstep
        (fun t hcp => (hcp stc hred.wf hred.ext).2.symm.trans (by rw [hic])) hexp hj₂⟩
    exact hcall _ rfl (by simp) rfl
  · -- an invalid one: only the context, the counter and standard error change
    have hnext : ∀ st' : ReduceState, st'.ic = (elide stc R I).1.ic → st'.results = stc.results →
        st'.dnr = stc.dnr → LoopInv S getString st R J (done ++ [I]) st' := by
      intro st' hic hres hdnr
      rw [← hic] at hwf' hext'
      have hg : Grows stc st' := ⟨hext', [], by simp [hres]⟩
      exact hinv.skip hct hin hg hwf' hres (hJ _ _ hinv.inv hred hg hres hdnr)
        fun _ t hcp => absurd (hcp stc hred.wf hred.ext).1 hv
    exact ⟨_, rfl, hnext _ rfl (by simp) rfl⟩

end Loop

-- ════════════════════════════════════════════════════════════════════════
-- The two searches
-- ════════════════════════════════════════════════════════════════════════

section Run

variable (S : Solver) (getString : InstContext → ParsedReplacement → String)
  (order : InstContext → List Nat → List Nat)

/-- Without `DNR`, a call explores the rule it is called on. -/
theorem reduceRecAll_explores (hord : ∀ ic l, (order ic l).Perm l)
    (hct : CanonicalText S getString) :
    ∀ fuel st R, st.ic.WF → (∀ r ∈ R.roots, r < st.ic.size) → ResultsIn st →
      (st.ic.nonLeafNodes R).card < fuel →
      ∃ st', reduceRecAll S order fuel st R = some st' ∧ Explored S getString st R st' := by
  intro fuel
  induction fuel with
  | zero => intro st R _ _ _ h; omega
  | succ fuel ih =>
    intro st R hwf hR hin hfuel
    obtain ⟨insts, hcol, -, hmem⟩ := collectAll_spec hwf.toAcyclic hR
    simp only [reduceRecAll, hcol]
    split_ifs with hlen
    · exact ⟨st, rfl, .refl hwf st rfl rfl, fun t ht => .inl ht, hct.closed_of_covered hwf hR
        fun I hI hs => absurd (skipped_of_length_le_one hmem hlen hI) hs⟩
    obtain ⟨st', hrun, hred, hb, -, hcov⟩ := foldlM_reduceStep_explores hct hwf hR hin
      (J := fun _ => True) (fun _ _ _ _ _ _ _ => trivial)
      (fun _ st₁ R' hch _ => by
        obtain ⟨st₂, h₂, hexp⟩ := ih st₁ R' hch.wf hch.roots (hch.resultsIn hin)
          (by have := hch.card; omega)
        exact ⟨st₂, h₂, hexp, trivial⟩)
      (order st.ic insts) (fun I hI => (hmem I).mp ((hord _ _).subset hI)) st
      (.refl hwf st rfl rfl) (fun t ht => .inl ht) trivial
    exact ⟨st', hrun, hred, hb, hct.closed_of_covered hwf hR fun I hI =>
      hcov I ((hord _ _).mem_iff.mpr ((hmem I).mpr hI))⟩

/-- A recursive call starts with `DNR` holding only finished texts and texts of rules reaching
more operations than the rule it is called on. -/
theorem Child.dnrBelow {st stc st₁ : ReduceState} {R R' : ParsedReplacement}
    (hct : CanonicalText S getString) (hwf : st.ic.WF) (hR : ∀ r ∈ R.roots, r < st.ic.size)
    (hin : ResultsIn st) (h : Child st R stc st₁ R')
    (hdnr : DnrBelow S getString st (st.ic.nonLeafNodes R).card)
    (hJ : ∀ t ∈ stc.dnr, t ∈ getString st.ic R :: st.dnr ∨ Closed S getString stc t) :
    DnrBelow S getString st₁ (st₁.ic.nonLeafNodes R').card := by
  intro t ht
  rcases hJ t (h.dnr ▸ ht) with ht | hcl
  · rcases List.mem_cons.mp ht with rfl | ht
    · -- the text of the rule being explored: its rules reach more operations than `R'`
      refine .inr fun ic R'' hwf'' hR'' ht'' => ?_
      rw [hct.card_eq hwf'' hR'' hwf hR ht'']
      exact h.card
    rcases hdnr t ht with hcl | hbig
    · exact .inl (hct.closed_mono hwf hin (h.reduced.grows.trans h.grows) hcl)
    · exact .inr fun ic R'' hwf'' hR'' ht'' => h.card.trans (hbig ic R'' hwf'' hR'' ht'')
  · exact .inl (hct.closed_mono h.reduced.wf (h.reduced.resultsIn hin) h.grows hcl)

/-- With `DNR`, a call explores the rule it is called on, from any state whose `DNR` holds only
finished texts and texts of rules reaching more operations; what it adds to `DNR` is finished. -/
theorem reduceRec_explores (hord : ∀ ic l, (order ic l).Perm l)
    (hct : CanonicalText S getString) :
    ∀ fuel st R, st.ic.WF → (∀ r ∈ R.roots, r < st.ic.size) → ResultsIn st →
      DnrBelow S getString st (st.ic.nonLeafNodes R).card → (st.ic.nonLeafNodes R).card < fuel →
      ∃ st', reduceRec S getString order fuel st R = some st' ∧ Explored S getString st R st' ∧
        st.dnr ⊆ st'.dnr ∧ ∀ t ∈ st'.dnr, t ∈ st.dnr ∨ Closed S getString st' t := by
  intro fuel
  induction fuel with
  | zero => intro st R _ _ _ _ h; omega
  | succ fuel ih =>
    intro st R hwf hR hin hdnr hfuel
    obtain ⟨insts, hcol, -, hmem⟩ := collectAll_spec hwf.toAcyclic hR
    simp only [reduceRec, hcol]
    split_ifs with hseen hlen
    · -- a text in `DNR` is not on the current path: its rules would reach more operations
      refine ⟨st, rfl, ⟨.refl hwf st rfl rfl, fun t ht => .inl ht, ?_⟩, List.Subset.refl _,
        fun t ht => .inl ht⟩
      rcases hdnr _ hseen with h | h
      exacts [h, absurd (h st.ic R hwf hR rfl) (lt_irrefl _)]
    · -- nothing to elide
      have hcl : Closed S getString st (getString st.ic R) := hct.closed_of_covered hwf hR
        fun I hI hs => absurd (skipped_of_length_le_one hmem hlen hI) hs
      refine ⟨_, rfl, ⟨.refl hwf _ rfl rfl, fun t ht => .inl ht, hcl⟩,
        List.subset_cons_self _ _, fun t ht => ?_⟩
      rcases List.mem_cons.mp ht with rfl | ht
      exacts [.inr hcl, .inl ht]
    obtain ⟨st', hrun, hred, hb, ⟨hsub, hJ⟩, hcov⟩ := foldlM_reduceStep_explores hct hwf hR hin
      (J := fun stc => getString st.ic R :: st.dnr ⊆ stc.dnr ∧
        ∀ t ∈ stc.dnr, t ∈ getString st.ic R :: st.dnr ∨ Closed S getString stc t)
      (fun stc st' hj hred hg _ hdnr' => ⟨hdnr' ▸ hj.1, fun t ht =>
        (hj.2 t (hdnr' ▸ ht)).imp_right (hct.closed_mono hred.wf (hred.resultsIn hin) hg)⟩)
      (fun stc st₁ R' hch hj => by
        obtain ⟨st₂, h₂, hexp, hsub₂, hnew⟩ := ih st₁ R' hch.wf hch.roots (hch.resultsIn hin)
          (hch.dnrBelow S getString hct hwf hR hin hdnr hj.2) (by have := hch.card; omega)
        refine ⟨st₂, h₂, hexp, hj.1.trans (hch.dnr ▸ hsub₂), fun t ht => ?_⟩
        rcases hnew t ht with ht | hcl
        · exact (hj.2 t (hch.dnr ▸ ht)).imp_right (hct.closed_mono hch.reduced.wf
            (hch.reduced.resultsIn hin) (hch.grows.trans hexp.reduced.grows))
        · exact .inr hcl)
      (order st.ic insts) (fun I hI => (hmem I).mp ((hord _ _).subset hI))
      { st with dnr := getString st.ic R :: st.dnr } (.refl hwf _ rfl rfl) (fun t ht => .inl ht) ⟨List.Subset.refl _, fun t ht => .inl ht⟩
    have hcl : Closed S getString st' (getString st.ic R) := hct.closed_of_covered hwf hR
      fun I hI => hcov I ((hord _ _).mem_iff.mpr ((hmem I).mpr hI))
    refine ⟨st', hrun, ⟨hred, hb, hcl⟩, (List.subset_cons_self _ _).trans hsub, fun t ht => ?_⟩
    rcases hJ t ht with ht | hcl'
    · rcases List.mem_cons.mp ht with rfl | ht
      exacts [.inr hcl, .inl ht]
    · exact .inr hcl'

/-- `DNR` loses no reduction. When the text is canonical and the solver's verdict depends only on
it, `ReduceRec` from the state `ReduceAndGeneralize` starts it in records the same texts as the
same recursion without `DNR`, and those are exactly the texts reachable from the input by valid
elisions. -/
theorem reduceRec_texts_eq_reduceRecAll (hord : ∀ ic l, (order ic l).Perm l)
    (hct : CanonicalText S getString) (ic : InstContext) (hwf : ic.WF) (varnum : Nat)
    (errs : List String) (R : ParsedReplacement) (hR : ∀ r ∈ R.roots, r < ic.size) (fuel : Nat)
    (hfuel : (ic.nonLeafNodes R).card < fuel) :
    ∃ st₁ st₂, reduceRec S getString order fuel ⟨ic, varnum, [], [], errs⟩ R = some st₁ ∧
      reduceRecAll S order fuel ⟨ic, varnum, [], [], errs⟩ R = some st₂ ∧
      (∀ t, t ∈ resultTexts getString st₁ ↔ t ∈ resultTexts getString st₂) ∧
      ∀ t, t ∈ resultTexts getString st₂ ↔
        TransGen (ElisionStep S getString) (getString ic R) t := by
  have hreach : ∀ st', Explored S getString ⟨ic, varnum, [], [], errs⟩ R st' → ∀ t,
      t ∈ resultTexts getString st' ↔ TransGen (ElisionStep S getString) (getString ic R) t :=
    fun st' h t => ⟨fun ht => (h.below t ht).resolve_left (List.not_mem_nil _), h.closed t⟩
  obtain ⟨st₁, h₁, hexp₁, -⟩ := reduceRec_explores S getString order hord hct fuel
    ⟨ic, varnum, [], [], errs⟩ R hwf hR (fun _ h => absurd h (List.not_mem_nil _))
    (fun _ h => absurd h (List.not_mem_nil _)) hfuel
  obtain ⟨st₂, h₂, hexp₂⟩ := reduceRecAll_explores S getString order hord hct fuel
    ⟨ic, varnum, [], [], errs⟩ R hwf hR (fun _ h => absurd h (List.not_mem_nil _)) hfuel
  exact ⟨st₁, st₂, h₁, h₂, fun t => (hreach st₁ hexp₁ t).trans (hreach st₂ hexp₂ t).symm,
    hreach st₂ hexp₂⟩

end Run

/-- The context of the rule `x * x + y * y ⇒ x` at width 8. -/
def sumSquaresIc : InstContext :=
  ⟨[.var 8 "x", .var 8 "y", .op .mul 8 [0, 0], .op .mul 8 [1, 1], .op .add 8 [2, 3]]⟩

/-- The rule `x * x + y * y ⇒ x`. -/
def sumSquaresRule : ParsedReplacement := ⟨⟨4, 0⟩, [], []⟩

/-- On `x * x + y * y ⇒ x`, eliding the two products in either order leaves one rule up to
renaming: `ReduceRec` records four rules of three texts, and of its five calls the one on the
repeated text stops at `DNR`, which holds four texts. -/
theorem reduceRec_texts_eq_reduceRecAll_sumSquares :
    (∀ ic (l : List Nat), ((fun _ l => l : InstContext → List Nat → List Nat) ic l).Perm l) ∧
    CanonicalText acceptingSolver canonText ∧ sumSquaresIc.WF ∧
    (∀ r ∈ sumSquaresRule.roots, r < sumSquaresIc.size) ∧
    (sumSquaresIc.nonLeafNodes sumSquaresRule).card < 4 ∧
    (∃ st₁ st₂, reduceRec acceptingSolver canonText (fun _ l => l) 4
        ⟨sumSquaresIc, 0, [], [], []⟩ sumSquaresRule = some st₁ ∧
      reduceRecAll acceptingSolver (fun _ l => l) 4 ⟨sumSquaresIc, 0, [], [], []⟩ sumSquaresRule =
        some st₂ ∧
      (∀ t, t ∈ resultTexts canonText st₁ ↔ t ∈ resultTexts canonText st₂) ∧
      ∀ t, t ∈ resultTexts canonText st₂ ↔ TransGen (ElisionStep acceptingSolver canonText)
        (canonText sumSquaresIc sumSquaresRule) t) ∧
    (reduceRec acceptingSolver canonText (fun _ l => l) 4 ⟨sumSquaresIc, 0, [], [], []⟩
      sumSquaresRule).map (fun st =>
        (st.results.length, (resultTexts canonText st).eraseDups.length, st.dnr.length)) =
      some (4, 3, 4) :=
  ⟨fun _ l => .refl l, canonicalText_canonText, by decide, by decide, by decide,
    reduceRec_texts_eq_reduceRecAll acceptingSolver canonText (fun _ l => l) (fun _ l => .refl l)
      canonicalText_canonText sumSquaresIc (by decide) 0 [] sumSquaresRule (by decide) 4
      (by decide), by decide⟩

end Souper.Generalize
