import Souper.Inst.Graph

/-!
# Width generalization (`InferWidth`, `CloneInst`, `GeneralizeBitWidth`)

`GeneralizeBitWidth` takes a rule whose LHS has one variable and prints it again at every width
from 1 to 63. `CloneInst` rebuilds a node as a tree: it has no memo, so it creates a fresh
variable for every occurrence of a variable, and `GeneralizeBitWidth` clones only the LHS and the
RHS, so the printed rules carry no path conditions.

## Main definitions

- `inferWidth` — `InferWidth`
- `cloneInst` — `CloneInst`, with its recursion bounded by `fuel`
- `generalizeBitWidth` — `GeneralizeBitWidth`: the context, the printed rules, and whether the run
  stopped at an `llvm_unreachable` or an `assert`
- `typed`, `WellTyped` — the per-opcode width typing `InferWidth` follows, of a node and of a clone

## Main results

- `cloneInst_typed` — a clone of a supported node is well typed, of the width `cloneWidth` gives
- `unmixed_of_width` — a rule whose variable is not 1 bit wide mixes no classes of width
- `generalizeBitWidth_typed` — on a supported rule whose variable is not 1 bit wide, or that mixes
  no classes of width, every rule printed is well typed at its width
- `generalizeBitWidth_andSlt` — with a 1-bit variable, an operation that takes a comparison beside
  the variable gives an ill-typed clone: `InferWidth` takes the width from the first operand alone
-/

namespace Souper.Generalize

open InstContext

/-- `InferWidth`: the width of a rebuilt operation from its kind and operands; `none` where the
source reaches `llvm_unreachable` (and where it would read `Ops[0]` of no operands). -/
def inferWidth (ic : InstContext) (K : Kind) (ops : List Nat) : Option Nat :=
  match K with
  | .and | .or | .xor | .sub | .mul | .add => ops.head?.map fun o => (ic.get o).width
  | .slt | .sle | .ult | .ule => some 1
  | _ => none

/-- `WidthMap[I]` with `WidthMap[Vars[0]] = w`: every other key reads as 0. -/
def widthMapFor (v w : Nat) (I : Nat) : Nat := if I = v then w else 0

/-- `CloneInst`, with its recursion bounded by `fuel`. A variable is re-created, fresh, at the
width the map gives it; a constant reaches `llvm_unreachable` (`none`); an operation is
interned over the clones of its operands, taken left to right. -/
def cloneInst (widthMap : Nat → Nat) : Nat → InstContext → Nat → Option (InstContext × Nat)
  | 0, _, _ => none
  | fuel + 1, ic, i =>
    if (ic.get i).k = .var then some (ic.createVar (widthMap i) (ic.get i).name)
    else if (ic.get i).k = .const then none
    else do
      let r ← (ic.get i).ops.foldlM (fun (acc : InstContext × List Nat) op => do
        let c ← cloneInst widthMap fuel acc.1 op
        pure (c.1, acc.2 ++ [c.2])) (ic, [])
      let w ← inferWidth r.1 (ic.get i).k r.2
      pure (r.1.getInst (ic.get i).k w r.2)

/-- Modelled from the spec: `InstContext::getVariablesFor` is not under src/. The distinct
variables a node reaches, in index order. -/
def getVariablesFor (ic : InstContext) (i : Nat) : List Nat := ic.vars i

/-- One iteration of `GeneralizeBitWidth`'s loop: clone the LHS, then the RHS, at width `w`.
What is printed is the rule of the two clones, with no path conditions. -/
def cloneRuleAt (v : Nat) (ic : InstContext) (R : ParsedReplacement) (w : Nat) :
    Option (InstContext × ParsedReplacement) := do
  let l ← cloneInst (widthMapFor v w) (R.mapping.lhs + 1) ic R.mapping.lhs
  let r ← cloneInst (widthMapFor v w) (R.mapping.rhs + 1) l.1 R.mapping.rhs
  pure (r.1, ⟨⟨l.2, r.2⟩, [], []⟩)

/-- The loop over the widths. Each iteration prints before the next one runs, so a stop at an
`llvm_unreachable` keeps what was printed; the flag says whether the run stopped. -/
def widthLoop (v : Nat) (R : ParsedReplacement) :
    InstContext → List Nat → InstContext × List ParsedReplacement × Bool
  | ic, [] => (ic, [], false)
  | ic, w :: ws =>
    match cloneRuleAt v ic R w with
    | none => (ic, [], true)
    | some (ic', R') => ((widthLoop v R ic' ws).1, R' :: (widthLoop v R ic' ws).2.1,
        (widthLoop v R ic' ws).2.2)

/-- `GeneralizeBitWidth`: the rule printed at the widths 1 to 63. The `assert` on the number of
variables stops the run when the LHS has not exactly one. -/
def generalizeBitWidth (ic : InstContext) (R : ParsedReplacement) :
    InstContext × List ParsedReplacement × Bool :=
  match getVariablesFor ic R.mapping.lhs with
  | [v] => widthLoop v R ic (List.range' 1 63)
  | _ => (ic, [], true)

/-- The rule `x + x ⇒ x * x` under the path condition `x = 2`, at width 8. -/
def doubleIc : InstContext :=
  ⟨[.var 8 "x", .op .add 8 [0, 0], .op .mul 8 [0, 0], .const (.ofNat 8 2)]⟩

def doubleRule : ParsedReplacement := ⟨⟨1, 2⟩, [⟨0, 3⟩], []⟩

/-- The first rule `GeneralizeBitWidth` prints for `x + x ⇒ x * x` under `x = 2` is
`x₄ + x₅ ⇒ x₇ * x₈` at width 1: four distinct variables where the input has one, and no path
condition. -/
theorem generalizeBitWidth_double :
    cloneRuleAt 0 doubleIc doubleRule 1 =
      some (⟨doubleIc.insts ++ [.var 1 "x", .var 1 "x", .op .add 1 [4, 5], .var 1 "x",
        .var 1 "x", .op .mul 1 [7, 8]]⟩, ⟨⟨6, 9⟩, [], []⟩) ∧
    (generalizeBitWidth doubleIc doubleRule).2.1.head? = some ⟨⟨6, 9⟩, [], []⟩ := by
  have h₁ : cloneRuleAt 0 doubleIc doubleRule 1 =
      some (⟨doubleIc.insts ++ [.var 1 "x", .var 1 "x", .op .add 1 [4, 5], .var 1 "x",
        .var 1 "x", .op .mul 1 [7, 8]]⟩, ⟨⟨6, 9⟩, [], []⟩) := by decide
  refine ⟨h₁, ?_⟩
  rw [generalizeBitWidth, show getVariablesFor doubleIc doubleRule.mapping.lhs = [0] by decide,
    List.range'_succ]
  dsimp only
  rw [widthLoop.eq_2, h₁]
  rfl

-- ════════════════════════════════════════════════════════════════════════
-- Width typing of the clones
-- ════════════════════════════════════════════════════════════════════════

/-- The kinds to which `InferWidth` gives the width of their first operand. -/
def sameWidthKind : Kind → Bool
  | .and | .or | .xor | .sub | .mul | .add => true
  | _ => false

/-- The kinds to which `InferWidth` gives width 1. -/
def cmpKind : Kind → Bool
  | .slt | .sle | .ult | .ule => true
  | _ => false

/-- The per-opcode width typing of one node: a variable is a leaf; an `And`, `Or`, `Xor`, `Sub`,
`Mul` or `Add` has two operands of its own width; an `Slt`, `Sle`, `Ult` or `Ule` has width 1
and two operands of equal width. No other node is typed: `InferWidth` supports no other kind. -/
def typed (ic : InstContext) (i : Nat) : Bool :=
  match (ic.get i).ops with
  | [] => (ic.get i).k == .var
  | [a, b] =>
    sameWidthKind (ic.get i).k && (ic.get a).width == (ic.get i).width &&
        (ic.get b).width == (ic.get i).width ||
      cmpKind (ic.get i).k && (ic.get i).width == 1 && (ic.get a).width == (ic.get b).width
  | _ => false

/-- The input `GeneralizeBitWidth` supports, below node `i`: every node is typed, and `v` is the
only variable. -/
def TypedOver (ic : InstContext) (v i : Nat) : Prop :=
  ∀ j ∈ ic.reach i, typed ic j = true ∧ ((ic.get j).k = .var → j = v)

instance decTypedOver (ic : InstContext) (v i : Nat) : Decidable (TypedOver ic v i) :=
  inferInstanceAs (Decidable (∀ j ∈ ic.reach i, _))

/-- A clone at width `w` is well typed: every node below `c` is typed, and every variable has
width `w`. -/
def WellTyped (ic : InstContext) (w c : Nat) : Prop :=
  ∀ j ∈ ic.reach c, typed ic j = true ∧ ((ic.get j).k = .var → (ic.get j).width = w)

instance decWellTyped (ic : InstContext) (w c : Nat) : Decidable (WellTyped ic w c) :=
  inferInstanceAs (Decidable (∀ j ∈ ic.reach c, _))

/-- A printed rule is well typed at width `w`: both of its sides exist and are well typed. -/
def RuleTyped (ic : InstContext) (w : Nat) (R : ParsedReplacement) : Prop :=
  R.mapping.lhs < ic.size ∧ R.mapping.rhs < ic.size ∧ WellTyped ic w R.mapping.lhs ∧
    WellTyped ic w R.mapping.rhs

/-- Whether the clone of node `i`, within `fuel` levels, keeps width 1 whatever the width it is
cloned at: a comparison does, and so does an operation `InferWidth` gives the width of `Ops[0]`
when that operand does. -/
def keepsOneAux (ic : InstContext) : Nat → Nat → Bool
  | 0, _ => false
  | fuel + 1, i => cmpKind (ic.get i).k || sameWidthKind (ic.get i).k &&
      match (ic.get i).ops with
      | a :: _ => keepsOneAux ic fuel a
      | [] => false

/-- Whether the clone of node `i` keeps width 1; `i + 1` levels reach every operand. -/
def keepsOne (ic : InstContext) (i : Nat) : Bool := keepsOneAux ic (i + 1) i

/-- A node whose two operands' clones take the same width: both keep width 1, or both take the
width of the clone. -/
def unmixedAt (ic : InstContext) (j : Nat) : Bool :=
  match (ic.get j).ops with
  | [a, b] => keepsOne ic a == keepsOne ic b
  | _ => true

/-- No operation below `i` takes one operand whose clone keeps width 1 beside one whose clone
takes the new width. -/
def Unmixed (ic : InstContext) (i : Nat) : Prop := ∀ j ∈ ic.reach i, unmixedAt ic j = true

instance decUnmixed (ic : InstContext) (i : Nat) : Decidable (Unmixed ic i) :=
  inferInstanceAs (Decidable (∀ j ∈ ic.reach i, _))

/-- The width the clone at width `w` gives node `i`: 1 where it keeps width 1, `w` elsewhere. -/
def cloneWidth (ic : InstContext) (w i : Nat) : Nat := if keepsOne ic i then 1 else w

theorem typed_iff {ic : InstContext} {i : Nat} :
    typed ic i = true ↔ (ic.get i).k = .var ∧ (ic.get i).ops = [] ∨
      ∃ a b, (ic.get i).ops = [a, b] ∧
        (sameWidthKind (ic.get i).k = true ∧ (ic.get a).width = (ic.get i).width ∧
            (ic.get b).width = (ic.get i).width ∨
          cmpKind (ic.get i).k = true ∧ (ic.get i).width = 1 ∧
            (ic.get a).width = (ic.get b).width) := by
  unfold typed
  split <;> simp_all [and_assoc]

theorem isOp_of_kind {K : Kind} (h : sameWidthKind K = true ∨ cmpKind K = true) :
    K ≠ .var ∧ K ≠ .const := by
  cases K <;> first | exact ⟨by decide, by decide⟩ | simp [sameWidthKind, cmpKind] at h

theorem inferWidth_of_sameWidthKind {K : Kind} (h : sameWidthKind K = true) (ic : InstContext)
    (a : Nat) (l : List Nat) : inferWidth ic K (a :: l) = some (ic.get a).width := by
  cases K <;> first | rfl | cases h

theorem inferWidth_of_cmpKind {K : Kind} (h : cmpKind K = true) (ic : InstContext)
    (l : List Nat) : inferWidth ic K l = some 1 := by
  cases K <;> first | rfl | cases h

theorem keepsOneAux_fuel (ic : InstContext) (h : ic.Acyclic) :
    ∀ f f' i, i < f → i < f' → keepsOneAux ic f i = keepsOneAux ic f' i := by
  intro f
  induction f with
  | zero => intro f' i hf; omega
  | succ f ih =>
    intro f' i hf hf'
    obtain ⟨f', rfl⟩ : ∃ f'', f' = f'' + 1 := ⟨f' - 1, by omega⟩
    cases hops : (ic.get i).ops with
    | nil => simp only [keepsOneAux, hops]
    | cons a l =>
      have ha : a < i := h.lt_of_mem_ops (by simp [hops])
      simp only [keepsOneAux, hops, ih f' a (by omega) (by omega)]

/-- The unfolding equation of `keepsOne` at a two-operand node. -/
theorem keepsOne_of_ops {ic : InstContext} (h : ic.Acyclic) {i a b : Nat}
    (hops : (ic.get i).ops = [a, b]) :
    keepsOne ic i = (cmpKind (ic.get i).k || sameWidthKind (ic.get i).k && keepsOne ic a) := by
  have ha : a < i := h.lt_of_mem_ops (by simp [hops])
  simp only [keepsOne, keepsOneAux, hops, keepsOneAux_fuel ic h i (a + 1) a ha (by omega)]

theorem keepsOne_var {ic : InstContext} {i : Nat} (hk : (ic.get i).k = .var) :
    keepsOne ic i = false := by
  simp [keepsOne, keepsOneAux, hk, cmpKind, sameWidthKind]

theorem cmpKind_of_sameWidthKind {K : Kind} (h : sameWidthKind K = true) : cmpKind K = false := by
  cases K <;> first | rfl | cases h

/-- Below a variable that is not 1 bit wide, the clone of a well-typed node keeps width 1
exactly where the node has width 1. -/
theorem keepsOne_iff_width {ic : InstContext} (hwf : ic.WF) {v : Nat}
    (hw : (ic.get v).width ≠ 1) (i : Nat) (ht : TypedOver ic v i) :
    keepsOne ic i = true ↔ (ic.get i).width = 1 := by
  induction i using Nat.strong_induction_on with
  | _ i ih =>
    obtain ⟨hti, hvar⟩ := ht i (ic.mem_reach_self i)
    rcases typed_iff.mp hti with ⟨hk, -⟩ | ⟨a, b, hops, hK⟩
    · -- the variable
      obtain rfl := hvar hk
      simp [keepsOne_var hk, hw]
    · have hta : TypedOver ic v a := fun j hj =>
        ht j (ic.reach_subset_of_mem_ops hwf.toAcyclic (by simp [hops]) hj)
      rw [keepsOne_of_ops hwf.toAcyclic hops]
      rcases hK with ⟨hs, hwa, -⟩ | ⟨hc, hwi, -⟩
      · -- an operation of its first operand's width
        rw [cmpKind_of_sameWidthKind hs, hs, ← hwa]
        simpa using ih a (hwf.lt_of_mem_ops (by simp [hops])) hta
      · -- a comparison
        simp [hc, hwi]

theorem Unmixed.of_mem_ops {ic : InstContext} (h : ic.Acyclic) {i o : Nat}
    (hu : Unmixed ic i) (ho : o ∈ (ic.get i).ops) : Unmixed ic o :=
  fun j hj => hu j (ic.reach_subset_of_mem_ops h ho hj)

/-- The condition is met whenever the variable is not 1 bit wide: there the width of a node
tells which class its clone takes, and typing makes the two operands' widths agree. -/
theorem unmixed_of_width {ic : InstContext} (hwf : ic.WF) {v i : Nat}
    (hw : (ic.get v).width ≠ 1) (ht : TypedOver ic v i) : Unmixed ic i := by
  intro j hj
  have htj : ∀ o ∈ (ic.get j).ops, TypedOver ic v o := fun o ho k hk =>
    ht k (ic.reach_trans hwf.toAcyclic hj (ic.reach_subset_of_mem_ops hwf.toAcyclic ho hk))
  rcases typed_iff.mp (ht j hj).1 with ⟨-, hops⟩ | ⟨a, b, hops, hK⟩
  · simp [unmixedAt, hops]
  · have hab : (ic.get a).width = (ic.get b).width := by
      rcases hK with ⟨-, hwa, hwb⟩ | ⟨-, -, hwab⟩
      exacts [hwa.trans hwb.symm, hwab]
    have key : keepsOne ic a = keepsOne ic b := Bool.eq_iff_iff.mpr <| by
      rw [keepsOne_iff_width hwf hw a (htj a (by simp [hops])),
        keepsOne_iff_width hwf hw b (htj b (by simp [hops])), hab]
    simp [unmixedAt, hops, key]

/-- Typing reads a node and its operands, which allocation does not move. -/
theorem typed_extends {ic ic' : InstContext} (h : ic.WF) (he : ic.Extends ic') {j : Nat}
    (hj : j < ic.size) : typed ic' j = typed ic j := by
  have hops : ∀ o ∈ (ic.get j).ops, ic'.get o = ic.get o := fun o ho =>
    he.get_eq ((h.lt_of_mem_ops ho).trans hj)
  unfold typed
  rw [he.get_eq hj]
  split <;> simp_all

theorem WellTyped.mono {ic ic' : InstContext} (h : ic.WF) (he : ic.Extends ic') {w c : Nat}
    (hc : c < ic.size) (ht : WellTyped ic w c) : WellTyped ic' w c := by
  intro j hj
  rw [he.reach_eq h hc] at hj
  have hjs : j < ic.size := lt_of_le_of_lt (ic.le_of_mem_reach h.toAcyclic hj) hc
  rw [typed_extends h he hjs, he.get_eq hjs]
  exact ht j hj

theorem RuleTyped.mono {ic ic' : InstContext} (h : ic.WF) (he : ic.Extends ic') {w : Nat}
    {R : ParsedReplacement} (ht : RuleTyped ic w R) : RuleTyped ic' w R :=
  ⟨lt_of_lt_of_le ht.1 he.size_le, lt_of_lt_of_le ht.2.1 he.size_le, ht.2.2.1.mono h he ht.1,
    ht.2.2.2.mono h he ht.2.1⟩

/-- A fresh variable of width `w` is a well-typed clone. -/
theorem wellTyped_createVar {ic : InstContext} (h : ic.WF) (w : Nat) (n : String) :
    WellTyped (ic.createVar w n).1 w ic.size := by
  have hleaf : ¬ (ic.createVar w n).1.IsOp ic.size := by simp [IsOp]
  intro j hj
  rw [reach_leaf _ (h.createVar w n) hleaf, Finset.mem_singleton] at hj
  subst hj
  simp [typed]

/-- An operation interned over two well-typed clones, whose widths fit its kind, is a well-typed
clone. -/
theorem wellTyped_getInst {ic : InstContext} (h : ic.WF) {K : Kind} {wd ca cb w : Nat}
    (hK : K ≠ .var ∧ K ≠ .const) (ha : ca < ic.size) (hb : cb < ic.size)
    (hta : WellTyped ic w ca) (htb : WellTyped ic w cb)
    (hnode : sameWidthKind K = true ∧ (ic.get ca).width = wd ∧ (ic.get cb).width = wd ∨
      cmpKind K = true ∧ wd = 1 ∧ (ic.get ca).width = (ic.get cb).width) :
    WellTyped (ic.getInst K wd [ca, cb]).1 w (ic.getInst K wd [ca, cb]).2 := by
  have he := getInst_extends ic K wd [ca, cb]
  have hwf : (ic.getInst K wd [ca, cb]).1.WF := h.getInst hK.1 hK.2 wd (by simp [ha, hb])
  obtain ⟨-, hk, hw, hops⟩ := get_getInst ic K wd [ca, cb]
  intro j hj
  rcases (mem_reach_iff _ hwf.toAcyclic).mp hj with rfl | ⟨o, ho, hjo⟩
  · -- the new operation itself
    refine ⟨typed_iff.mpr (.inr ⟨ca, cb, hops, ?_⟩), fun hv => absurd (hk ▸ hv) hK.1⟩
    rw [hk, hw, he.get_eq ha, he.get_eq hb]
    exact hnode
  · -- a node of one of the operands' clones
    rw [hops] at ho
    rcases List.mem_pair.mp ho with rfl | rfl
    exacts [hta.mono h he ha j hjo, htb.mono h he hb j hjo]

section Clone

variable {ic₀ : InstContext} {v w : Nat}

/-- `CloneInst` on a supported node succeeds within `i + 1` levels, extends the context, and
returns a well-typed clone of the width `cloneWidth` gives, where no operation below mixes the two
classes of width, or where the clone's width is 1 and so the classes agree. -/
theorem cloneInst_typed (hwf₀ : ic₀.WF) :
    ∀ fuel i ic, i < fuel → i < ic₀.size → TypedOver ic₀ v i → (Unmixed ic₀ i ∨ w = 1) →
      ic₀.Extends ic → ic.WF →
      ∃ ic' c, cloneInst (widthMapFor v w) fuel ic i = some (ic', c) ∧ ic.Extends ic' ∧
        ic'.WF ∧ c < ic'.size ∧ (ic'.get c).width = cloneWidth ic₀ w i ∧ WellTyped ic' w c := by
  intro fuel
  induction fuel with
  | zero => intros; omega
  | succ fuel ih =>
    intro i ic hi hi₀ hty hu he hwf
    have hget : ic.get i = ic₀.get i := he.get_eq hi₀
    obtain ⟨ht, hvar⟩ := hty i (ic₀.mem_reach_self i)
    rcases typed_iff.mp ht with ⟨hk, -⟩ | ⟨a, b, hops, hK⟩
    · -- the variable, re-created at width `w`
      obtain rfl := hvar hk
      refine ⟨(ic.createVar w (ic₀.get i).name).1, ic.size,
        by simp [cloneInst, hget, hk, widthMapFor]; rfl, createVar_extends _ _ _,
        hwf.createVar _ _, by simp, by simp [cloneWidth, keepsOne_var hk],
        wellTyped_createVar hwf _ _⟩
    · -- a binary operation: clone both operands, then intern
      have hkind := isOp_of_kind (hK.imp And.left And.left)
      have hsub : ∀ o ∈ (ic₀.get i).ops, o < i ∧ TypedOver ic₀ v o ∧ (Unmixed ic₀ o ∨ w = 1) :=
        fun o ho => ⟨hwf₀.lt_of_mem_ops ho,
          fun j hj => hty j (ic₀.reach_subset_of_mem_ops hwf₀.toAcyclic ho hj),
          hu.imp_left (·.of_mem_ops hwf₀.toAcyclic ho)⟩
      obtain ⟨ha, hta₀, hua⟩ := hsub a (by simp [hops])
      obtain ⟨hb, htb₀, hub⟩ := hsub b (by simp [hops])
      obtain ⟨ic₁, ca, hca, he₁, hwf₁, hca₁, hwa, hta⟩ :=
        ih a ic (by omega) (by omega) hta₀ hua he hwf
      obtain ⟨ic₂, cb, hcb, he₂, hwf₂, hcb₂, hwb, htb⟩ :=
        ih b ic₁ (by omega) (by omega) htb₀ hub (he.trans he₁) hwf₁
      rw [← he₂.get_eq hca₁] at hwa
      have hca₂ : ca < ic₂.size := lt_of_lt_of_le hca₁ he₂.size_le
      -- the two operands' clones have one width
      have hab : cloneWidth ic₀ w a = cloneWidth ic₀ w b := by
        rcases hu with hu | rfl
        · have := hu i (ic₀.mem_reach_self i)
          simp only [unmixedAt, hops, beq_iff_eq] at this
          rw [cloneWidth, cloneWidth, this]
        · simp [cloneWidth]
      have hki := keepsOne_of_ops hwf₀.toAcyclic hops
      -- the width `InferWidth` gives, and the typing of the new node
      obtain ⟨wd, hinfer, hnode, hwd⟩ : ∃ wd, inferWidth ic₂ (ic₀.get i).k [ca, cb] = some wd ∧
          (sameWidthKind (ic₀.get i).k = true ∧ (ic₂.get ca).width = wd ∧
              (ic₂.get cb).width = wd ∨
            cmpKind (ic₀.get i).k = true ∧ wd = 1 ∧ (ic₂.get ca).width = (ic₂.get cb).width) ∧
          wd = cloneWidth ic₀ w i := by
        rcases hK with ⟨hs, -⟩ | ⟨hc, -⟩
        · refine ⟨_, inferWidth_of_sameWidthKind hs _ _ _, .inl ⟨hs, rfl, ?_⟩, ?_⟩
          · rw [hwa, hwb, hab]
          · rw [hwa, cloneWidth, cloneWidth, hki, cmpKind_of_sameWidthKind hs, hs]; rfl
        · refine ⟨1, inferWidth_of_cmpKind hc _ _, .inr ⟨hc, rfl, by rw [hwa, hwb, hab]⟩, ?_⟩
          rw [cloneWidth, hki, hc]; rfl
      refine ⟨_, _, ?_, (he₁.trans he₂).trans (getInst_extends _ _ _ _),
        hwf₂.getInst hkind.1 hkind.2 _ (by simp [hca₂, hcb₂]), (get_getInst _ _ _ _).1, ?_,
        wellTyped_getInst hwf₂ hkind hca₂ hcb₂ (hta.mono hwf₁ he₂ hca₁) htb hnode⟩
      · simp [cloneInst, hget, hkind.1, hkind.2, hops, hca, hcb, hinfer]
      · rw [(get_getInst _ _ _ _).2.2.1, hwd]

/-- One iteration of `GeneralizeBitWidth`'s loop on a supported rule succeeds and prints a rule
well typed at width `w`. -/
theorem cloneRuleAt_typed (hwf₀ : ic₀.WF) {R : ParsedReplacement} (hl : R.mapping.lhs < ic₀.size)
    (hr : R.mapping.rhs < ic₀.size) (htl : TypedOver ic₀ v R.mapping.lhs)
    (htr : TypedOver ic₀ v R.mapping.rhs) (hul : Unmixed ic₀ R.mapping.lhs ∨ w = 1)
    (hur : Unmixed ic₀ R.mapping.rhs ∨ w = 1) {ic : InstContext} (he : ic₀.Extends ic)
    (hwf : ic.WF) :
    ∃ ic' R', cloneRuleAt v ic R w = some (ic', R') ∧ ic.Extends ic' ∧ ic'.WF ∧
      RuleTyped ic' w R' := by
  obtain ⟨ic₁, cl, hcl, he₁, hwf₁, hcl₁, -, htl₁⟩ :=
    cloneInst_typed hwf₀ (R.mapping.lhs + 1) R.mapping.lhs ic (by omega) hl htl hul he hwf
  obtain ⟨ic₂, cr, hcr, he₂, hwf₂, hcr₂, -, htr₂⟩ :=
    cloneInst_typed hwf₀ (R.mapping.rhs + 1) R.mapping.rhs ic₁ (by omega) hr htr hur
      (he.trans he₁) hwf₁
  exact ⟨ic₂, ⟨⟨cl, cr⟩, [], []⟩, by simp [cloneRuleAt, hcl, hcr], he₁.trans he₂, hwf₂,
    lt_of_lt_of_le hcl₁ he₂.size_le, hcr₂, htl₁.mono hwf₁ he₂ hcl₁, htr₂⟩

/-- The loop over the widths: on a supported rule that mixes no classes of width, no iteration
stops, and the rule printed for each width is well typed at that width in the final context. -/
theorem widthLoop_typed (hwf₀ : ic₀.WF) {R : ParsedReplacement} (hl : R.mapping.lhs < ic₀.size)
    (hr : R.mapping.rhs < ic₀.size) (htl : TypedOver ic₀ v R.mapping.lhs)
    (htr : TypedOver ic₀ v R.mapping.rhs) (hul : Unmixed ic₀ R.mapping.lhs)
    (hur : Unmixed ic₀ R.mapping.rhs) :
    ∀ ws ic, ic₀.Extends ic → ic.WF → ∃ ic' Rs, widthLoop v R ic ws = (ic', Rs, false) ∧
      ic.Extends ic' ∧ ic'.WF ∧ List.Forall₂ (fun w R' => RuleTyped ic' w R') ws Rs := by
  intro ws
  induction ws with
  | nil => exact fun ic _ hwf => ⟨ic, [], rfl, .refl _, hwf, .nil⟩
  | cons w ws ih =>
    intro ic he hwf
    obtain ⟨ic₁, R₁, h₁, he₁, hwf₁, ht₁⟩ :=
      cloneRuleAt_typed hwf₀ hl hr htl htr (.inl hul) (.inl hur) he hwf
    obtain ⟨ic', Rs, h', he', hwf', ht'⟩ := ih ic₁ (he.trans he₁) hwf₁
    exact ⟨ic', R₁ :: Rs, by simp [widthLoop, h₁, h'], he₁.trans he', hwf',
      .cons (ht₁.mono hwf₁ he') ht'⟩

end Clone

section Allocation

/-- Whatever the node, a clone that succeeds only allocated: the context stays well formed, and
the clone lies in it. -/
theorem cloneInst_extends (widthMap : Nat → Nat) :
    ∀ fuel ic i p, ic.WF → cloneInst widthMap fuel ic i = some p →
      p.1.WF ∧ ic.Extends p.1 ∧ p.2 < p.1.size := by
  intro fuel
  induction fuel with
  | zero => intro ic i p _ h; cases h
  | succ fuel ih =>
    intro ic i p hwf h
    unfold cloneInst at h
    split_ifs at h with hv hc
    · cases h; exact ⟨hwf.createVar _ _, createVar_extends _ _ _, by simp⟩
    obtain ⟨r, hr, h⟩ := Option.bind_eq_some.mp h
    obtain ⟨w, -, h⟩ := Option.bind_eq_some.mp h
    cases h
    -- the operands' clones, each in the context the previous one left
    obtain ⟨hwf', he', hops⟩ := foldlM_inv _
      (fun acc : InstContext × List Nat => acc.1.WF ∧ ic.Extends acc.1 ∧ ∀ b ∈ acc.2, b < acc.1.size)
      (ic.get i).ops (fun s a s' _ ⟨hs₁, hs₂, hs₃⟩ hstep => by
        obtain ⟨c, hc, hs'⟩ := Option.bind_eq_some.mp hstep
        cases hs'
        obtain ⟨h₁, h₂, h₃⟩ := ih s.1 a c hs₁ hc
        refine ⟨h₁, hs₂.trans h₂, fun b hb => ?_⟩
        rcases List.mem_append.mp hb with hb | hb
        · exact lt_of_lt_of_le (hs₃ b hb) h₂.size_le
        · rw [List.mem_singleton.mp hb]; exact h₃)
      (ic, []) r ⟨hwf, .refl _, by simp⟩ hr
    exact ⟨hwf'.getInst hv hc _ hops, he'.trans (getInst_extends _ _ _ _), (get_getInst _ _ _ _).1⟩

theorem cloneRuleAt_extends {v : Nat} {ic : InstContext} {R : ParsedReplacement} {w : Nat}
    {p : InstContext × ParsedReplacement} (hwf : ic.WF) (h : cloneRuleAt v ic R w = some p) :
    p.1.WF ∧ ic.Extends p.1 := by
  obtain ⟨l, hl, h⟩ := Option.bind_eq_some.mp h
  obtain ⟨r, hr, h⟩ := Option.bind_eq_some.mp h
  cases h
  obtain ⟨hwf₁, he₁, -⟩ := cloneInst_extends _ _ _ _ _ hwf hl
  obtain ⟨hwf₂, he₂, -⟩ := cloneInst_extends _ _ _ _ _ hwf₁ hr
  exact ⟨hwf₂, he₁.trans he₂⟩

/-- `GeneralizeBitWidth` only allocates, whether or not it stops. -/
theorem widthLoop_extends (v : Nat) (R : ParsedReplacement) :
    ∀ ws ic, ic.WF → (widthLoop v R ic ws).1.WF ∧ ic.Extends (widthLoop v R ic ws).1
  | [], ic, hwf => ⟨hwf, .refl _⟩
  | w :: ws, ic, hwf => by
    rw [widthLoop]
    split
    · exact ⟨hwf, .refl _⟩
    · rename_i ic' R' h
      obtain ⟨hwf', he⟩ := cloneRuleAt_extends hwf h
      obtain ⟨h₁, h₂⟩ := widthLoop_extends v R ws ic' hwf'
      exact ⟨h₁, he.trans h₂⟩

theorem generalizeBitWidth_extends {ic : InstContext} (hwf : ic.WF) (R : ParsedReplacement) :
    (generalizeBitWidth ic R).1.WF ∧ ic.Extends (generalizeBitWidth ic R).1 := by
  unfold generalizeBitWidth
  split
  · exact widthLoop_extends _ R _ ic hwf
  · exact ⟨hwf, .refl _⟩

end Allocation

/-- `GeneralizeBitWidth` on a rule whose LHS has the one variable `v`, whose RHS has no other,
built from variables and the operators `InferWidth` supports, and well typed at its widths, where
the variable is not 1 bit wide or no operation mixes the two classes of width: the run does not
stop, and prints 63 rules, the rule for each width `w` from 1 to 63 well typed at `w`. -/
theorem generalizeBitWidth_typed {ic : InstContext} (hwf : ic.WF) {R : ParsedReplacement}
    {v : Nat} (hl : R.mapping.lhs < ic.size) (hr : R.mapping.rhs < ic.size)
    (hv : getVariablesFor ic R.mapping.lhs = [v]) (htl : TypedOver ic v R.mapping.lhs)
    (htr : TypedOver ic v R.mapping.rhs)
    (hw : (ic.get v).width ≠ 1 ∨ Unmixed ic R.mapping.lhs ∧ Unmixed ic R.mapping.rhs) :
    ∃ ic' Rs, generalizeBitWidth ic R = (ic', Rs, false) ∧
      List.Forall₂ (fun w R' => RuleTyped ic' w R') (List.range' 1 63) Rs := by
  obtain ⟨hul, hur⟩ : Unmixed ic R.mapping.lhs ∧ Unmixed ic R.mapping.rhs :=
    hw.elim (fun hw => ⟨unmixed_of_width hwf hw htl, unmixed_of_width hwf hw htr⟩) id
  obtain ⟨ic', Rs, h, -, -, ht⟩ := widthLoop_typed hwf hl hr htl htr hul hur _ ic (.refl _) hwf
  exact ⟨ic', Rs, by rw [generalizeBitWidth, hv]; exact h, ht⟩

/-- The rule `x <s (x & x) ⇒ x <s x` at width 1: a 1-bit variable under a comparison that takes
no other comparison. -/
def sltAndIc : InstContext :=
  ⟨[.var 1 "x", .op .and 1 [0, 0], .op .slt 1 [0, 1], .op .slt 1 [0, 0]]⟩

def sltAndRule : ParsedReplacement := ⟨⟨2, 3⟩, [], []⟩

theorem generalizeBitWidth_typed_sltAnd :
    getVariablesFor sltAndIc sltAndRule.mapping.lhs = [0] ∧ (sltAndIc.get 0).width = 1 ∧
    Unmixed sltAndIc sltAndRule.mapping.lhs ∧ Unmixed sltAndIc sltAndRule.mapping.rhs ∧
    ∃ ic' Rs, generalizeBitWidth sltAndIc sltAndRule = (ic', Rs, false) ∧
      List.Forall₂ (fun w R' => RuleTyped ic' w R') (List.range' 1 63) Rs := by
  have hv : getVariablesFor sltAndIc sltAndRule.mapping.lhs = [0] := by decide
  have hl : Unmixed sltAndIc sltAndRule.mapping.lhs := by decide
  have hr : Unmixed sltAndIc sltAndRule.mapping.rhs := by decide
  exact ⟨hv, rfl, hl, hr, generalizeBitWidth_typed (by decide) (by decide) (by decide) hv
    (by decide) (by decide) (.inr ⟨hl, hr⟩)⟩

/-- The rule `x & (x <s x) ⇒ x <s x` at width 1: a 1-bit variable beside a comparison. -/
def andSltIc : InstContext := ⟨[.var 1 "x", .op .slt 1 [0, 0], .op .and 1 [0, 1]]⟩

def andSltRule : ParsedReplacement := ⟨⟨2, 1⟩, [], []⟩

/-- `x & (x <s x) ⇒ x <s x` has one variable and is well typed at width 1, but the second rule
`GeneralizeBitWidth` prints, at width 2, is `x₁₁ & (x₁₂ <s x₁₃)`: `InferWidth` gives the `And`
its first operand's width 2, while the comparison it is applied to keeps width 1. -/
theorem generalizeBitWidth_andSlt :
    andSltIc.WF ∧ getVariablesFor andSltIc andSltRule.mapping.lhs = [0] ∧
    TypedOver andSltIc 0 andSltRule.mapping.lhs ∧ TypedOver andSltIc 0 andSltRule.mapping.rhs ∧
    ¬ Unmixed andSltIc andSltRule.mapping.lhs ∧
    ∃ ic₁ ic₂ R₁ R₂, cloneRuleAt 0 andSltIc andSltRule 1 = some (ic₁, R₁) ∧
      cloneRuleAt 0 ic₁ andSltRule 2 = some (ic₂, R₂) ∧
      (generalizeBitWidth andSltIc andSltRule).2.1.take 2 = [R₁, R₂] ∧
      ic₂.get R₂.mapping.lhs = .op .and 2 [11, 14] ∧ (ic₂.get 11).width = 2 ∧
      (ic₂.get 14).width = 1 ∧ typed ic₂ R₂.mapping.lhs = false := by
  have h₁ : cloneRuleAt 0 andSltIc andSltRule 1 = some (⟨andSltIc.insts ++ [.var 1 "x",
      .var 1 "x", .var 1 "x", .op .slt 1 [4, 5], .op .and 1 [3, 6], .var 1 "x", .var 1 "x",
      .op .slt 1 [8, 9]]⟩, ⟨⟨7, 10⟩, [], []⟩) := by decide
  have h₂ : cloneRuleAt 0 ⟨andSltIc.insts ++ [.var 1 "x", .var 1 "x", .var 1 "x",
      .op .slt 1 [4, 5], .op .and 1 [3, 6], .var 1 "x", .var 1 "x", .op .slt 1 [8, 9]]⟩
      andSltRule 2 = some (⟨andSltIc.insts ++ [.var 1 "x", .var 1 "x", .var 1 "x",
      .op .slt 1 [4, 5], .op .and 1 [3, 6], .var 1 "x", .var 1 "x", .op .slt 1 [8, 9],
      .var 2 "x", .var 2 "x", .var 2 "x", .op .slt 1 [12, 13], .op .and 2 [11, 14], .var 2 "x",
      .var 2 "x", .op .slt 1 [16, 17]]⟩, ⟨⟨15, 18⟩, [], []⟩) := by decide
  refine ⟨by decide, by decide, by decide, by decide, by decide, _, _, _, _, h₁, h₂, ?_, by decide,
    by decide, by decide, by decide⟩
  rw [generalizeBitWidth, show getVariablesFor andSltIc andSltRule.mapping.lhs = [0] by decide,
    List.range'_succ, List.range'_succ]
  dsimp only
  rw [widthLoop.eq_2, h₁]
  dsimp only
  rw [widthLoop.eq_2, h₂]
  rfl

end Souper.Generalize
