import Souper.Inst.Graph

/-!
# What a rule means

Validity is what every procedure of the generalizer asks the solver about, and what its results
promise. The value semantics of Souper's instructions is not under src/, so this file models it
from the spec: values are naturals below `2 ^ width`, a variable takes its value from an
assignment, and a rule holds when, under every assignment that satisfies the variables' facts
and the path conditions, the RHS has the value of the LHS.

## Main definitions

- `evalOp`, `eval` — the value of a node under an assignment
- `VarFacts` — a value meets a variable's refinement facts
- `ValidUnder` — a mapping is valid under path conditions

## Design notes

The kinds modelled are the integer operations with a fixed meaning at every width; any other kind
(`phi`, the flag-carrying arithmetic, the intrinsics) has no value here, and neither has an
undefined operation (division by zero, an over-wide shift). Block path conditions constrain `phi`
nodes, which have no value here, so they are left out of validity.
-/

namespace Souper

/-- `x` read as a two's-complement number of width `w`. -/
def toSigned (w x : Nat) : Int := if x < 2 ^ (w - 1) then x else (x : Int) - 2 ^ w

/-- Modelled from the spec: the value of an operation of kind `K` and width `w` on operand values,
each with its width. -/
def evalOp (K : Kind) (w : Nat) (args : List (Nat × Nat)) : Option Nat :=
  match K, args with
  | .add, [(a, _), (b, _)] => some ((a + b) % 2 ^ w)
  | .sub, [(a, _), (b, _)] => some ((a + 2 ^ w - b) % 2 ^ w)
  | .mul, [(a, _), (b, _)] => some (a * b % 2 ^ w)
  | .udiv, [(a, _), (b, _)] => if b = 0 then none else some (a / b)
  | .urem, [(a, _), (b, _)] => if b = 0 then none else some (a % b)
  | .and, [(a, _), (b, _)] => some (a &&& b)
  | .or, [(a, _), (b, _)] => some (a ||| b)
  | .xor, [(a, _), (b, _)] => some (a ^^^ b)
  | .shl, [(a, _), (b, _)] => if b < w then some (a <<< b % 2 ^ w) else none
  | .lshr, [(a, _), (b, _)] => if b < w then some (a >>> b) else none
  | .eq, [(a, _), (b, _)] => some (if a = b then 1 else 0)
  | .ne, [(a, _), (b, _)] => some (if a = b then 0 else 1)
  | .ult, [(a, _), (b, _)] => some (if a < b then 1 else 0)
  | .ule, [(a, _), (b, _)] => some (if a ≤ b then 1 else 0)
  | .slt, [(a, wa), (b, _)] => some (if toSigned wa a < toSigned wa b then 1 else 0)
  | .sle, [(a, wa), (b, _)] => some (if toSigned wa a ≤ toSigned wa b then 1 else 0)
  | .select, [(c, _), (a, _), (b, _)] => some (if c = 1 then a else b)
  | .zext, [(a, _)] => some a
  | .sext, [(a, wa)] => some ((toSigned wa a) % 2 ^ w).toNat
  | .trunc, [(a, _)] => some (a % 2 ^ w)
  | _, _ => none

namespace InstContext

variable (ic : InstContext) (σ : Nat → Nat)

/-- The value of node `i` under the assignment `σ` of variables (by node), within `fuel` levels. -/
def evalAux : Nat → Nat → Option Nat
  | 0, _ => none
  | fuel + 1, i =>
    match (ic.get i).k with
    | .var => some (σ i % 2 ^ (ic.get i).width)
    | .const => some ((ic.get i).val.toNat % 2 ^ (ic.get i).width)
    | K => do
      let args ← (ic.get i).ops.mapM fun o => (evalAux fuel o).map fun v => (v, (ic.get o).width)
      evalOp K (ic.get i).width args

/-- The value of node `i`: operands are earlier nodes, so `i + 1` levels suffice. -/
def eval (i : Nat) : Option Nat := ic.evalAux σ (i + 1) i

variable {ic σ}

theorem evalAux_var {fuel i : Nat} (h : (ic.get i).k = .var) :
    ic.evalAux σ (fuel + 1) i = some (σ i % 2 ^ (ic.get i).width) := by
  simp [evalAux, h]

theorem evalAux_const {fuel i : Nat} (h : (ic.get i).k = .const) :
    ic.evalAux σ (fuel + 1) i = some ((ic.get i).val.toNat % 2 ^ (ic.get i).width) := by
  simp [evalAux, h]

theorem evalAux_op {fuel i : Nat} (hv : (ic.get i).k ≠ .var) (hc : (ic.get i).k ≠ .const) :
    ic.evalAux σ (fuel + 1) i =
      ((ic.get i).ops.mapM fun o => (ic.evalAux σ fuel o).map fun v => (v, (ic.get o).width)).bind
        (evalOp (ic.get i).k (ic.get i).width) := by
  rw [evalAux]
  split <;> simp_all

end InstContext

/-- The number of leading bits of `x`, at width `w`, equal to its sign bit. -/
def signBits (w x : Nat) : Nat :=
  ((List.range w).reverse.takeWhile fun k => x.testBit k = x.testBit (w - 1)).length

/-- The value `x` meets the refinement facts of the variable `I`. -/
def VarFacts (I : Inst) (x : Nat) : Prop :=
  x &&& I.knownZeros.toNat = 0 ∧ x &&& I.knownOnes.toNat = I.knownOnes.toNat ∧
    I.range.contains x = true ∧ (I.nonZero = true → x ≠ 0) ∧
    (I.nonNegative = true → x < 2 ^ (I.width - 1)) ∧ (I.negative = true → 2 ^ (I.width - 1) ≤ x) ∧
    (I.powOfTwo = true → x ≠ 0 ∧ x &&& (x - 1) = 0) ∧ I.numSignBits ≤ signBits I.width x

instance (I : Inst) (x : Nat) : Decidable (VarFacts I x) := by
  unfold VarFacts; infer_instance

namespace InstContext

variable (ic : InstContext)

/-- Under `σ`, every variable among `nodes` meets its facts. -/
def FactsHold (σ : Nat → Nat) (nodes : Finset Nat) : Prop :=
  ∀ j ∈ nodes, (ic.get j).k = .var → VarFacts (ic.get j) (σ j % 2 ^ (ic.get j).width)

/-- Under `σ`, both sides of every path condition have one value. -/
def PCsHold (σ : Nat → Nat) (pcs : List InstMapping) : Prop :=
  ∀ m ∈ pcs, ∃ v, ic.eval σ m.lhs = some v ∧ ic.eval σ m.rhs = some v

instance (σ : Nat → Nat) (nodes : Finset Nat) : Decidable (ic.FactsHold σ nodes) := by
  unfold FactsHold; infer_instance

/-- `m` is valid under the path conditions `pcs`: under every assignment that meets the facts of
the rule's variables and the path conditions, the RHS has the value the LHS has. -/
def ValidUnder (pcs : List InstMapping) (m : InstMapping) : Prop :=
  ∀ σ, ic.FactsHold σ (ic.nodes ⟨m, pcs, []⟩) → ic.PCsHold σ pcs →
    ∀ v, ic.eval σ m.lhs = some v → ic.eval σ m.rhs = some v

end InstContext

-- ════════════════════════════════════════════════════════════════════════
-- Evaluation in an acyclic context
-- ════════════════════════════════════════════════════════════════════════

theorem mapM_congr_of_mem {α β : Type} {f g : α → Option β} :
    ∀ {l : List α}, (∀ a ∈ l, f a = g a) → l.mapM f = l.mapM g
  | [], _ => rfl
  | a :: l, h => by
    simp only [List.mapM_cons, h a (List.mem_cons_self a l),
      mapM_congr_of_mem fun b hb => h b (List.mem_cons_of_mem a hb)]

namespace InstContext

variable {ic : InstContext} {σ : Nat → Nat} {i : Nat}

/-- Once it exceeds the node's index, fuel does not change a value. -/
theorem evalAux_fuel (h : ic.Acyclic) : ∀ f g i, i < f → i < g →
    ic.evalAux σ f i = ic.evalAux σ g i
  | 0, _, _, hf, _ => absurd hf (Nat.not_lt_zero _)
  | _ + 1, 0, _, _, hg => absurd hg (Nat.not_lt_zero _)
  | f + 1, g + 1, i, hf, hg => by
    by_cases hv : (ic.get i).k = .var
    · rw [evalAux_var hv, evalAux_var hv]
    by_cases hc : (ic.get i).k = .const
    · rw [evalAux_const hc, evalAux_const hc]
    rw [evalAux_op hv hc, evalAux_op hv hc]
    congr 1
    refine mapM_congr_of_mem fun o ho => ?_
    have := h.lt_of_mem_ops ho
    simp only [evalAux_fuel h f g o (by omega) (by omega)]

theorem eval_const (h : (ic.get i).k = .const) :
    ic.eval σ i = some ((ic.get i).val.toNat % 2 ^ (ic.get i).width) :=
  evalAux_const h

/-- An operation's value is `evalOp` of its operands' values, each with its width. -/
theorem eval_op (hac : ic.Acyclic) (hv : (ic.get i).k ≠ .var) (hc : (ic.get i).k ≠ .const) :
    ic.eval σ i = ((ic.get i).ops.mapM fun o => (ic.eval σ o).map fun v => (v, (ic.get o).width)).bind
      (evalOp (ic.get i).k (ic.get i).width) := by
  rw [eval, evalAux_op hv hc]
  congr 1
  exact mapM_congr_of_mem fun o ho => by
    simp only [eval, evalAux_fuel hac i (o + 1) o (hac.lt_of_mem_ops ho) (Nat.lt_succ_self o)]

/-- Allocation does not change the value of an existing node. -/
theorem Extends.evalAux_eq {ic' : InstContext} (he : ic.Extends ic') (hac : ic.Acyclic) :
    ∀ f i, i < ic.size → ic'.evalAux σ f i = ic.evalAux σ f i
  | 0, _, _ => rfl
  | f + 1, i, hi => by
    have hg := he.get_eq hi
    by_cases hv : (ic.get i).k = .var
    · rw [evalAux_var (hg ▸ hv), evalAux_var hv, hg]
    by_cases hc : (ic.get i).k = .const
    · rw [evalAux_const (hg ▸ hc), evalAux_const hc, hg]
    rw [evalAux_op (hg ▸ hv) (hg ▸ hc), evalAux_op hv hc, hg]
    congr 1
    refine mapM_congr_of_mem fun o ho => ?_
    have := hac.lt_of_mem_ops ho
    simp only [Extends.evalAux_eq he hac f o (by omega), he.get_eq (show o < ic.size by omega)]

theorem Extends.eval_eq {ic' : InstContext} (he : ic.Extends ic') (hac : ic.Acyclic)
    (hi : i < ic.size) : ic'.eval σ i = ic.eval σ i :=
  he.evalAux_eq hac _ i hi

/-- The operations, with their operand widths, whose value is defined under every assignment and
fits the result width: the modular arithmetic, the bitwise operations and `select` on operands no
wider than the result, the comparisons at a width of at least one bit, and the casts. Division,
the shifts and the kinds without a value here are left out: they can be undefined. -/
def totalOp (K : Kind) (w : Nat) (ws : List Nat) : Bool :=
  match K, ws with
  | .add, [_, _] | .sub, [_, _] | .mul, [_, _] => true
  | .and, [a, b] | .or, [a, b] | .xor, [a, b] => a ≤ w && b ≤ w
  | .eq, [_, _] | .ne, [_, _] | .ult, [_, _] | .ule, [_, _] | .slt, [_, _] | .sle, [_, _] => 0 < w
  | .select, [_, a, b] => a ≤ w && b ≤ w
  | .zext, [a] => a ≤ w
  | .sext, [_] | .trunc, [_] => true
  | _, _ => false

/-- Node `j` is a leaf, or an operation `totalOp` admits with its operands' widths. -/
def Total (ic : InstContext) (j : Nat) : Prop :=
  (ic.get j).k = .var ∨ (ic.get j).k = .const ∨
    totalOp (ic.get j).k (ic.get j).width ((ic.get j).ops.map fun o => (ic.get o).width) = true

instance decTotal (ic : InstContext) (j : Nat) : Decidable (ic.Total j) := by
  unfold Total; infer_instance

/-- `Total` reads a node and its operands, which allocation does not move. -/
theorem Extends.total_iff {ic' : InstContext} (he : ic.Extends ic') (hwf : ic.WF) {j : Nat}
    (hj : j < ic.size) : ic'.Total j ↔ ic.Total j := by
  have hops : (ic.get j).ops.map (fun o => (ic'.get o).width) =
      (ic.get j).ops.map (fun o => (ic.get o).width) :=
    List.map_congr_left fun o ho => by rw [he.get_eq (lt_trans (hwf.lt_of_mem_ops ho) hj)]
  simp only [InstContext.Total, he.get_eq hj, hops]

theorem ConstantRange.contains_full (w x : Nat) : (ConstantRange.full w).contains x = true := by
  simp [ConstantRange.contains, ConstantRange.full, ConstantRange.isFullSet, APInt.allOnes,
    APInt.isAllOnesValue]

/-- Allocation keeps the validity of a mapping over existing nodes. -/
theorem Extends.validUnder_iff {ic' : InstContext} (he : ic.Extends ic') (hwf : ic.WF)
    {pcs : List InstMapping} {m : InstMapping}
    (hR : ∀ r ∈ (⟨m, pcs, []⟩ : ParsedReplacement).roots, r < ic.size) :
    ic'.ValidUnder pcs m ↔ ic.ValidUnder pcs m := by
  have hev : ∀ σ, ∀ r ∈ (⟨m, pcs, []⟩ : ParsedReplacement).roots, ic'.eval σ r = ic.eval σ r :=
    fun σ r hr => he.eval_eq hwf.toAcyclic (hR r hr)
  have hfacts : ∀ σ, ic'.FactsHold σ (ic'.nodes ⟨m, pcs, []⟩) ↔ ic.FactsHold σ (ic.nodes ⟨m, pcs, []⟩) :=
    fun σ => by
      rw [he.nodes_eq hwf hR]
      exact forall₂_congr fun j hj => by rw [he.get_eq (ic.lt_size_of_mem_nodes hwf hR hj)]
  have hpcs : ∀ σ, ic'.PCsHold σ pcs ↔ ic.PCsHold σ pcs := fun σ =>
    forall₂_congr fun p hp => by
      rw [hev σ _ (ParsedReplacement.mem_roots_of_pc hp).1,
        hev σ _ (ParsedReplacement.mem_roots_of_pc hp).2]
  simp only [ValidUnder, hfacts, hpcs, hev _ _ (ParsedReplacement.lhs_mem_roots _),
    hev _ _ (ParsedReplacement.rhs_mem_roots _)]

-- ════════════════════════════════════════════════════════════════════════
-- Validity and the variables' facts
-- ════════════════════════════════════════════════════════════════════════

/-- `ic'` holds the nodes of `ic` with their kinds, widths, operands and values: only facts may
differ. -/
structure SameShape (ic ic' : InstContext) : Prop where
  k : ∀ j, (ic'.get j).k = (ic.get j).k
  width : ∀ j, (ic'.get j).width = (ic.get j).width
  ops : ∀ j, (ic'.get j).ops = (ic.get j).ops
  val : ∀ j, (ic'.get j).val = (ic.get j).val

theorem SameShape.refl (ic : InstContext) : SameShape ic ic :=
  ⟨fun _ => rfl, fun _ => rfl, fun _ => rfl, fun _ => rfl⟩

theorem SameShape.symm {ic' : InstContext} (h : SameShape ic ic') : SameShape ic' ic :=
  ⟨fun j => (h.k j).symm, fun j => (h.width j).symm, fun j => (h.ops j).symm,
    fun j => (h.val j).symm⟩

theorem SameShape.trans {ic₁ ic₂ ic₃ : InstContext} (h₁ : SameShape ic₁ ic₂) (h₂ : SameShape ic₂ ic₃) :
    SameShape ic₁ ic₃ :=
  ⟨fun j => (h₂.k j).trans (h₁.k j), fun j => (h₂.width j).trans (h₁.width j),
    fun j => (h₂.ops j).trans (h₁.ops j), fun j => (h₂.val j).trans (h₁.val j)⟩

theorem SameShape.reachAux_eq {ic' : InstContext} (h : SameShape ic ic') :
    ∀ f i, ic'.reachAux f i = ic.reachAux f i
  | 0, _ => rfl
  | f + 1, i => by simp only [reachAux, h.ops i, funext (SameShape.reachAux_eq h f)]

theorem SameShape.nodes_eq {ic' : InstContext} (h : SameShape ic ic') (R : ParsedReplacement) :
    ic'.nodes R = ic.nodes R := by
  have : ic'.reach = ic.reach := funext fun i => h.reachAux_eq (i + 1) i
  simp only [nodes, this]

/-- Facts do not take part in evaluation. -/
theorem SameShape.evalAux_eq {ic' : InstContext} (h : SameShape ic ic') :
    ∀ f i, ic'.evalAux σ f i = ic.evalAux σ f i
  | 0, _ => rfl
  | f + 1, i => by
    simp only [evalAux, h.k, h.width, h.ops, h.val, funext (SameShape.evalAux_eq h f)]

/-- Validity moves to a context of the same shape whose variables' facts are at least as strong. -/
theorem SameShape.validUnder {ic' : InstContext} (h : SameShape ic ic') {pcs : List InstMapping}
    {m : InstMapping}
    (hf : ∀ j ∈ ic.nodes ⟨m, pcs, []⟩, (ic.get j).k = .var → ∀ x,
      VarFacts (ic'.get j) x → VarFacts (ic.get j) x)
    (hv : ic.ValidUnder pcs m) : ic'.ValidUnder pcs m := by
  intro σ hfacts hpcs v hl
  have hev : ∀ i, ic'.eval σ i = ic.eval σ i := fun i => h.evalAux_eq _ i
  rw [hev] at hl ⊢
  refine hv σ (fun j hj hk => ?_) (fun p hp => by simpa only [hev] using hpcs p hp) v hl
  rw [h.nodes_eq] at hfacts
  have := hfacts j hj (by rw [h.k]; exact hk)
  rw [h.width] at this
  exact hf j hj hk _ this

-- ════════════════════════════════════════════════════════════════════════
-- Contexts that keep a context's nodes
-- ════════════════════════════════════════════════════════════════════════

/-- `ic'` holds every node of `ic` with its kind, width, operands and value, and maybe more nodes:
what allocation and writes of facts leave of a context. -/
structure KeepsShape (ic ic' : InstContext) : Prop where
  size_le : ic.size ≤ ic'.size
  k : ∀ j < ic.size, (ic'.get j).k = (ic.get j).k
  width : ∀ j < ic.size, (ic'.get j).width = (ic.get j).width
  ops : ∀ j < ic.size, (ic'.get j).ops = (ic.get j).ops
  val : ∀ j < ic.size, (ic'.get j).val = (ic.get j).val

theorem KeepsShape.refl (ic : InstContext) : KeepsShape ic ic :=
  ⟨le_rfl, fun _ _ => rfl, fun _ _ => rfl, fun _ _ => rfl, fun _ _ => rfl⟩

theorem KeepsShape.trans {ic₁ ic₂ ic₃ : InstContext} (h₁ : KeepsShape ic₁ ic₂)
    (h₂ : KeepsShape ic₂ ic₃) : KeepsShape ic₁ ic₃ where
  size_le := h₁.size_le.trans h₂.size_le
  k j hj := (h₂.k j (lt_of_lt_of_le hj h₁.size_le)).trans (h₁.k j hj)
  width j hj := (h₂.width j (lt_of_lt_of_le hj h₁.size_le)).trans (h₁.width j hj)
  ops j hj := (h₂.ops j (lt_of_lt_of_le hj h₁.size_le)).trans (h₁.ops j hj)
  val j hj := (h₂.val j (lt_of_lt_of_le hj h₁.size_le)).trans (h₁.val j hj)

theorem Extends.keepsShape {ic' : InstContext} (he : ic.Extends ic') : KeepsShape ic ic' where
  size_le := he.size_le
  k j hj := by rw [he.get_eq hj]
  width j hj := by rw [he.get_eq hj]
  ops j hj := by rw [he.get_eq hj]
  val j hj := by rw [he.get_eq hj]

theorem SameShape.keepsShape {ic' : InstContext} (h : SameShape ic ic') (hs : ic.size ≤ ic'.size) :
    KeepsShape ic ic' :=
  ⟨hs, fun j _ => h.k j, fun j _ => h.width j, fun j _ => h.ops j, fun j _ => h.val j⟩

/-- A node of `ic` has its value in every context that keeps the nodes of `ic`. -/
theorem KeepsShape.evalAux_eq {ic' : InstContext} (hac : ic.Acyclic) (h : KeepsShape ic ic') :
    ∀ f i, i < ic.size → ic'.evalAux σ f i = ic.evalAux σ f i
  | 0, _, _ => rfl
  | f + 1, i, hi => by
    by_cases hv : (ic.get i).k = .var
    · rw [evalAux_var hv, evalAux_var (by rw [h.k i hi]; exact hv), h.width i hi]
    by_cases hc : (ic.get i).k = .const
    · rw [evalAux_const hc, evalAux_const (by rw [h.k i hi]; exact hc), h.width i hi, h.val i hi]
    rw [evalAux_op hv hc, evalAux_op (by rwa [h.k i hi]) (by rwa [h.k i hi]), h.k i hi,
      h.width i hi, h.ops i hi]
    congr 1
    exact mapM_congr_of_mem fun o ho => by
      have ho' : o < ic.size := (hac i o ho).trans hi
      rw [KeepsShape.evalAux_eq hac h f o ho', h.width o ho']

theorem KeepsShape.eval_eq {ic' : InstContext} (hac : ic.Acyclic) (h : KeepsShape ic ic')
    (hi : i < ic.size) : ic'.eval σ i = ic.eval σ i :=
  h.evalAux_eq hac _ i hi

end InstContext

end Souper
