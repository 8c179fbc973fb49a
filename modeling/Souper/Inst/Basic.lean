import Mathlib.Data.List.Basic

/-!
# Souper instructions and the instruction context

The rule language that the generalization tools read and write. An instruction `Inst` has a
kind, a width, an ordered list of operands, and leaf data: a constant's value, a variable's
name and its refinement facts. Every instruction of a run lives in one `InstContext`, an
arena addressed by index, so that an `Inst *` of the tools is a natural number here and
pointer equality is equality of indices.

## Main definitions

- `Kind`, `APInt`, `ConstantRange`, `Inst`
- `InstContext.getInst` — interns an operation by kind, width and operands
- `InstContext.getConst` — interns a constant by value
- `InstContext.createVar` — allocates a fresh variable
- `InstContext.WF` — the context's invariant: acyclic, leaves without operands, interned

## Design notes

`InstContext` itself is not under the repository's `src/`. The spec says the context
canonicalizes nodes of identical kind, width, operands and leaf content, and that it is the
source of fresh variable names from monotonically increasing counters: a variable therefore
carries a fresh number, and `createVar` never returns an existing node. Operands always point
to earlier nodes (the graph is built bottom-up); `WF` states this and every operation keeps
it.
-/

namespace Souper

/-- A result of the fallible generators compares by its constructor and contents. -/
instance decEqExcept {ε α : Type} [DecidableEq ε] [DecidableEq α] : DecidableEq (Except ε α)
  | .ok a, .ok b => decidable_of_iff (a = b) ⟨congrArg _, Except.ok.inj⟩
  | .error a, .error b => decidable_of_iff (a = b) ⟨congrArg _, Except.error.inj⟩
  | .ok _, .error _ => isFalse Except.noConfusion
  | .error _, .ok _ => isFalse Except.noConfusion

/-- `INT_MAX` of a 32-bit `int`. The tools count with `int` counters, and incrementing one at
`INT_MAX`, `2 ^ 31 - 1`, is undefined behaviour. -/
def intMax : Nat := 2147483647

/-- The instruction kinds the tools name (`Inst::Kind`), in enumeration order. -/
inductive Kind where
  | const | var | phi
  | add | addNSW | addNUW | addNW
  | sub | subNSW | subNUW | subNW
  | mul | mulNSW | mulNUW | mulNW
  | udiv | sdiv | urem | srem
  | and | or | xor
  | shl | shlNSW | shlNUW | shlNW
  | lshr | ashr
  | select | zext | sext | trunc
  | eq | ne | ult | slt | ule | sle
  | ctpop | bswap | bitreverse | cttz | ctlz
  | fshl | fshr
  | logb | bitwidth | knownOnesP | knownZerosP
  | none
  deriving DecidableEq, Repr, Inhabited

/-- `llvm::APInt`: a bit vector that carries its own width. -/
structure APInt where
  width : Nat
  bits : BitVec width
  deriving DecidableEq, Repr

namespace APInt

/-- `APInt(W, N)`. -/
def ofNat (w n : Nat) : APInt := ⟨w, BitVec.ofNat w n⟩

/-- `APInt::getAllOnesValue(W)`. -/
def allOnes (w : Nat) : APInt := ⟨w, BitVec.allOnes w⟩

/-- The unsigned value. -/
def toNat (a : APInt) : Nat := a.bits.toNat

/-- `APInt::isAllOnesValue`. -/
def isAllOnesValue (a : APInt) : Bool := a.bits == BitVec.allOnes a.width

/-- A default-constructed `APInt` is the one-bit zero. -/
instance : Inhabited APInt := ⟨ofNat 1 0⟩

end APInt

/-- `llvm::ConstantRange`: the half-open, wrap-aware interval `[lower, upper)`. Equal bounds
denote the full set when they are all-ones and the empty set otherwise. -/
structure ConstantRange where
  lower : APInt
  upper : APInt
  deriving DecidableEq, Repr

namespace ConstantRange

/-- `ConstantRange(W, /*isFullSet=*/true)`. -/
def full (w : Nat) : ConstantRange := ⟨APInt.allOnes w, APInt.allOnes w⟩

/-- `ConstantRange::isFullSet`. -/
def isFullSet (r : ConstantRange) : Bool := r.lower == r.upper && r.lower.isAllOnesValue

/-- `ConstantRange::contains` on an unsigned value. -/
def contains (r : ConstantRange) (x : Nat) : Bool :=
  if r.lower == r.upper then r.isFullSet
  else if r.lower.toNat ≤ r.upper.toNat then r.lower.toNat ≤ x && x < r.upper.toNat
  else r.lower.toNat ≤ x || x < r.upper.toNat

end ConstantRange

/-- A node of a rule's instruction graph (`souper::Inst`). Operands are indices into the
`InstContext` the node belongs to. -/
structure Inst where
  k : Kind
  width : Nat
  ops : List Nat
  val : APInt
  name : String
  knownZeros : APInt
  knownOnes : APInt
  range : ConstantRange
  nonZero : Bool
  nonNegative : Bool
  powOfTwo : Bool
  negative : Bool
  numSignBits : Nat
  demandedBits : APInt
  synthesisConstID : Nat
  deriving DecidableEq, Repr

namespace Inst

/-- A variable as `createVar` makes it: no refinement facts, every bit demanded. -/
def var (w : Nat) (name : String) : Inst where
  k := .var
  width := w
  ops := []
  val := default
  name := name
  knownZeros := .ofNat w 0
  knownOnes := .ofNat w 0
  range := .full w
  nonZero := false
  nonNegative := false
  powOfTwo := false
  negative := false
  numSignBits := 0
  demandedBits := .allOnes w
  synthesisConstID := 0

/-- An operation as `getInst` makes it. -/
def op (K : Kind) (w : Nat) (ops : List Nat) : Inst := { var w "" with k := K, ops := ops }

/-- A constant as `getConst` makes it. -/
def const (v : APInt) : Inst := { var v.width "" with k := .const, val := v }

instance : Inhabited Inst := ⟨op .none 0 []⟩

@[simp] theorem var_k (w : Nat) (n : String) : (var w n).k = .var := rfl
@[simp] theorem var_ops (w : Nat) (n : String) : (var w n).ops = [] := rfl
@[simp] theorem var_width (w : Nat) (n : String) : (var w n).width = w := rfl
@[simp] theorem var_name (w : Nat) (n : String) : (var w n).name = n := rfl
@[simp] theorem op_k (K : Kind) (w : Nat) (l : List Nat) : (op K w l).k = K := rfl
@[simp] theorem op_ops (K : Kind) (w : Nat) (l : List Nat) : (op K w l).ops = l := rfl
@[simp] theorem op_width (K : Kind) (w : Nat) (l : List Nat) : (op K w l).width = w := rfl
@[simp] theorem const_k (v : APInt) : (const v).k = .const := rfl
@[simp] theorem const_ops (v : APInt) : (const v).ops = [] := rfl
@[simp] theorem const_val (v : APInt) : (const v).val = v := rfl

end Inst

/-- The arena that owns every instruction of a run (`souper::InstContext`). -/
structure InstContext where
  insts : List Inst
  deriving DecidableEq, Repr

namespace InstContext

/-- The empty context a run starts from. -/
def empty : InstContext := ⟨[]⟩

/-- Number of nodes allocated so far; the next node gets this index. -/
def size (ic : InstContext) : Nat := ic.insts.length

/-- Dereference a node. -/
def get (ic : InstContext) (i : Nat) : Inst := ic.insts[i]?.getD default

/-- Allocate a node at the end of the arena. -/
def push (ic : InstContext) (I : Inst) : InstContext × Nat := (⟨ic.insts ++ [I]⟩, ic.size)

/-- `InstContext::getInst`: the existing node of this kind, width and operands, or a new one. -/
def getInst (ic : InstContext) (K : Kind) (w : Nat) (ops : List Nat) : InstContext × Nat :=
  match ic.insts.findIdx? (fun I => I.k == K && I.width == w && I.ops == ops) with
  | some i => (ic, i)
  | none => ic.push (.op K w ops)

/-- `InstContext::getConst`: the existing constant with this value, or a new one. -/
def getConst (ic : InstContext) (v : APInt) : InstContext × Nat :=
  match ic.insts.findIdx? (fun I => I.k == .const && I.val == v) with
  | some i => (ic, i)
  | none => ic.push (.const v)

/-- `InstContext::createVar`: always a fresh node. -/
def createVar (ic : InstContext) (w : Nat) (name : String) : InstContext × Nat :=
  ic.push (.var w name)

/-- The largest operand count of any node. -/
def maxOps (ic : InstContext) : Nat := (ic.insts.map fun I => I.ops.length).foldr max 0

/-- An in-place write through an `Inst *` (`I->Field = ...`). -/
def setInst (ic : InstContext) (i : Nat) (I : Inst) : InstContext := ⟨ic.insts.set i I⟩

/-- `ic'` was obtained from `ic` by allocation only. -/
def Extends (ic ic' : InstContext) : Prop := ic.insts <+: ic'.insts

/-- Every operand points to an earlier node, so the graph is a DAG: the part of `WF` that the
walks over the graph rely on. -/
def Acyclic (ic : InstContext) : Prop := ∀ i, ∀ j ∈ (ic.get i).ops, j < i

/-- The context's invariant, kept by every operation of the tools. Operands point to earlier
nodes, so the graph is a DAG built bottom-up; leaves have no operands; and the context
canonicalizes: two operations with the same kind, width and operands, or two constants with
the same value, are one node. -/
structure WF (ic : InstContext) : Prop where
  acyclic : ∀ i < ic.size, ∀ j ∈ (ic.get i).ops, j < i
  leaf_ops : ∀ i < ic.size, (ic.get i).k = .var ∨ (ic.get i).k = .const → (ic.get i).ops = []
  interned_op : ∀ i < ic.size, ∀ j < ic.size, (ic.get i).k ≠ .var → (ic.get i).k ≠ .const →
    (ic.get i).k = (ic.get j).k → (ic.get i).width = (ic.get j).width →
    (ic.get i).ops = (ic.get j).ops → i = j
  interned_const : ∀ i < ic.size, ∀ j < ic.size, (ic.get i).k = .const →
    (ic.get j).k = .const → (ic.get i).val = (ic.get j).val → i = j

instance (ic : InstContext) : Decidable ic.WF :=
  have : Decidable (∀ i < ic.size, ∀ j < ic.size, (ic.get i).k ≠ .var ∧ (ic.get i).k ≠ .const ∧
      (ic.get i).k = (ic.get j).k ∧ (ic.get i).width = (ic.get j).width ∧
      (ic.get i).ops = (ic.get j).ops → i = j) := inferInstance
  decidable_of_iff
    ((∀ i < ic.size, ∀ j ∈ (ic.get i).ops, j < i) ∧
      (∀ i < ic.size, (ic.get i).k = .var ∨ (ic.get i).k = .const → (ic.get i).ops = []) ∧
      (∀ i < ic.size, ∀ j < ic.size, (ic.get i).k ≠ .var ∧ (ic.get i).k ≠ .const ∧
        (ic.get i).k = (ic.get j).k ∧ (ic.get i).width = (ic.get j).width ∧
        (ic.get i).ops = (ic.get j).ops → i = j) ∧
      (∀ i < ic.size, ∀ j < ic.size, (ic.get i).k = .const ∧
        (ic.get j).k = .const ∧ (ic.get i).val = (ic.get j).val → i = j))
    ⟨fun ⟨a, b, c, d⟩ => ⟨a, b, fun i hi j hj h₁ h₂ h₃ h₄ h₅ => c i hi j hj ⟨h₁, h₂, h₃, h₄, h₅⟩,
        fun i hi j hj h₁ h₂ h₃ => d i hi j hj ⟨h₁, h₂, h₃⟩⟩,
      fun h => ⟨h.1, h.2, fun i hi j hj ⟨h₁, h₂, h₃, h₄, h₅⟩ => h.3 i hi j hj h₁ h₂ h₃ h₄ h₅,
        fun i hi j hj ⟨h₁, h₂, h₃⟩ => h.4 i hi j hj h₁ h₂ h₃⟩⟩

-- ════════════════════════════════════════════════════════════════════════
-- Dereferencing
-- ════════════════════════════════════════════════════════════════════════

theorem get_eq_getElem (ic : InstContext) {i : Nat} (h : i < ic.size) :
    ic.get i = ic.insts[i] := by
  simp [get, List.getElem?_eq_getElem h]

@[simp] theorem size_push (ic : InstContext) (I : Inst) : (ic.push I).1.size = ic.size + 1 := by
  simp [push, size]

@[simp] theorem push_snd (ic : InstContext) (I : Inst) : (ic.push I).2 = ic.size := rfl

theorem get_push_lt (ic : InstContext) (I : Inst) {i : Nat} (h : i < ic.size) :
    (ic.push I).1.get i = ic.get i := by
  simp [push, get, List.getElem?_append_left (show i < ic.insts.length from h)]

@[simp] theorem get_push_self (ic : InstContext) (I : Inst) : (ic.push I).1.get ic.size = I := by
  simp [push, get, size]

theorem get_push (ic : InstContext) (I : Inst) (i : Nat) :
    (ic.push I).1.get i = if i < ic.size then ic.get i else if i = ic.size then I else default := by
  split_ifs with h h'
  · exact get_push_lt ic I h
  · subst h'; exact get_push_self ic I
  · have : (ic.insts ++ [I]).length ≤ i := by simp only [size] at h h'; simp; omega
    simp [push, get, List.getElem?_eq_none this]

theorem get_of_size_le (ic : InstContext) {i : Nat} (h : ic.size ≤ i) : ic.get i = default := by
  simp [get, List.getElem?_eq_none (show ic.insts.length ≤ i from h)]

private theorem le_foldr_max {l : List Nat} {a : Nat} (h : a ∈ l) : a ≤ l.foldr max 0 := by
  induction l with
  | nil => cases h
  | cons b l ih =>
    rcases List.mem_cons.mp h with rfl | h
    · exact le_max_left _ _
    · exact (ih h).trans (le_max_right _ _)

theorem length_ops_le_maxOps (ic : InstContext) (i : Nat) : (ic.get i).ops.length ≤ ic.maxOps := by
  by_cases hi : i < ic.size
  · rw [get_eq_getElem ic hi]
    exact le_foldr_max (List.mem_map.mpr ⟨_, List.getElem_mem hi, rfl⟩)
  · rw [get_of_size_le ic (Nat.le_of_not_lt hi)]; simp [default, Inst.op, Inst.var]

theorem get_setInst (ic : InstContext) (i j : Nat) (I : Inst) :
    (ic.setInst i I).get j = if i = j ∧ i < ic.size then I else ic.get j := by
  simp only [setInst, get, size, List.getElem?_set]
  by_cases h : i = j
  · subst h
    by_cases hi : i < ic.insts.length
    · simp [hi]
    · simp [hi, List.getElem?_eq_none (Nat.le_of_not_lt hi)]
  · simp [h]

@[simp] theorem size_setInst (ic : InstContext) (i : Nat) (I : Inst) :
    (ic.setInst i I).size = ic.size := by
  simp [setInst, size]

-- ════════════════════════════════════════════════════════════════════════
-- Allocation only extends the arena
-- ════════════════════════════════════════════════════════════════════════

@[refl] theorem Extends.refl (ic : InstContext) : ic.Extends ic := List.prefix_refl _

theorem Extends.trans {a b c : InstContext} (h₁ : a.Extends b) (h₂ : b.Extends c) :
    a.Extends c := List.IsPrefix.trans h₁ h₂

theorem Extends.size_le {ic ic' : InstContext} (h : ic.Extends ic') : ic.size ≤ ic'.size :=
  h.length_le

theorem Extends.get_eq {ic ic' : InstContext} (h : ic.Extends ic') {i : Nat} (hi : i < ic.size) :
    ic'.get i = ic.get i := by
  obtain ⟨t, ht⟩ := h
  simp only [get, ← ht, List.getElem?_append_left (show i < ic.insts.length from hi)]

theorem extends_push (ic : InstContext) (I : Inst) : ic.Extends (ic.push I).1 :=
  List.prefix_append _ _

/-- `getInst` either finds a node with the asked key or appends one. -/
theorem getInst_cases (ic : InstContext) (K : Kind) (w : Nat) (ops : List Nat) :
    (∃ i < ic.size, ic.getInst K w ops = (ic, i) ∧
      (ic.get i).k = K ∧ (ic.get i).width = w ∧ (ic.get i).ops = ops) ∨
    ((∀ j < ic.size, ¬((ic.get j).k = K ∧ (ic.get j).width = w ∧ (ic.get j).ops = ops)) ∧
      ic.getInst K w ops = ic.push (.op K w ops)) := by
  unfold getInst
  split
  · rename_i i hi
    obtain ⟨hlt, hp, -⟩ := List.findIdx?_eq_some_iff_getElem.mp hi
    left
    refine ⟨i, hlt, rfl, ?_⟩
    simpa [get_eq_getElem ic hlt, and_assoc] using hp
  · rename_i hn
    right
    refine ⟨fun j hj hk => ?_, rfl⟩
    have := List.findIdx?_eq_none_iff.mp hn _ (List.getElem_mem hj)
    simp [← get_eq_getElem ic hj, hk] at this

/-- `getConst` either finds a constant of the asked value or appends one. -/
theorem getConst_cases (ic : InstContext) (v : APInt) :
    (∃ i < ic.size, ic.getConst v = (ic, i) ∧ (ic.get i).k = .const ∧ (ic.get i).val = v) ∨
    ((∀ j < ic.size, (ic.get j).k = .const → (ic.get j).val ≠ v) ∧
      ic.getConst v = ic.push (.const v)) := by
  unfold getConst
  split
  · rename_i i hi
    obtain ⟨hlt, hp, -⟩ := List.findIdx?_eq_some_iff_getElem.mp hi
    left
    refine ⟨i, hlt, rfl, ?_⟩
    simpa [get_eq_getElem ic hlt] using hp
  · rename_i hn
    right
    refine ⟨fun j hj hk hv => ?_, rfl⟩
    have := List.findIdx?_eq_none_iff.mp hn _ (List.getElem_mem hj)
    simp [← get_eq_getElem ic hj, hk, hv] at this

theorem getInst_extends (ic : InstContext) (K : Kind) (w : Nat) (ops : List Nat) :
    ic.Extends (ic.getInst K w ops).1 := by
  rcases getInst_cases ic K w ops with ⟨i, -, h, -⟩ | ⟨-, h⟩
  · rw [h]
  · rw [h]; exact extends_push _ _

theorem getConst_extends (ic : InstContext) (v : APInt) : ic.Extends (ic.getConst v).1 := by
  rcases getConst_cases ic v with ⟨i, -, h, -⟩ | ⟨-, h⟩
  · rw [h]
  · rw [h]; exact extends_push _ _

theorem createVar_extends (ic : InstContext) (w : Nat) (n : String) :
    ic.Extends (ic.createVar w n).1 := extends_push _ _

/-- The node `getInst` returns exists and has the asked kind, width and operands. -/
theorem get_getInst (ic : InstContext) (K : Kind) (w : Nat) (ops : List Nat) :
    (ic.getInst K w ops).2 < (ic.getInst K w ops).1.size ∧
    ((ic.getInst K w ops).1.get (ic.getInst K w ops).2).k = K ∧
    ((ic.getInst K w ops).1.get (ic.getInst K w ops).2).width = w ∧
    ((ic.getInst K w ops).1.get (ic.getInst K w ops).2).ops = ops := by
  rcases getInst_cases ic K w ops with ⟨i, hi, h, hk⟩ | ⟨-, h⟩ <;> rw [h]
  · exact ⟨hi, hk⟩
  · simp

/-- The node `getConst` returns exists and is a constant of the asked value. -/
theorem get_getConst (ic : InstContext) (v : APInt) :
    (ic.getConst v).2 < (ic.getConst v).1.size ∧
    ((ic.getConst v).1.get (ic.getConst v).2).k = .const ∧
    ((ic.getConst v).1.get (ic.getConst v).2).val = v := by
  rcases getConst_cases ic v with ⟨i, hi, h, hk⟩ | ⟨-, h⟩ <;> rw [h]
  · exact ⟨hi, hk⟩
  · simp

@[simp] theorem createVar_snd (ic : InstContext) (w : Nat) (n : String) :
    (ic.createVar w n).2 = ic.size := rfl

@[simp] theorem size_createVar (ic : InstContext) (w : Nat) (n : String) :
    (ic.createVar w n).1.size = ic.size + 1 := size_push _ _

@[simp] theorem get_createVar_self (ic : InstContext) (w : Nat) (n : String) :
    (ic.createVar w n).1.get ic.size = .var w n := get_push_self _ _

/-- Operands have smaller indices; a dangling index has no operands. -/
theorem WF.lt_of_mem_ops {ic : InstContext} (h : ic.WF) {i j : Nat} (hj : j ∈ (ic.get i).ops) :
    j < i := by
  by_cases hi : i < ic.size
  · exact h.acyclic i hi j hj
  · rw [get_of_size_le ic (Nat.le_of_not_lt hi)] at hj
    simp [default, Inst.op, Inst.var] at hj

theorem WF.toAcyclic {ic : InstContext} (h : ic.WF) : ic.Acyclic := fun _ _ hj => h.lt_of_mem_ops hj

theorem Acyclic.lt_of_mem_ops {ic : InstContext} (h : ic.Acyclic) {i j : Nat}
    (hj : j ∈ (ic.get i).ops) : j < i :=
  h i j hj

theorem WF.ops_eq_nil {ic : InstContext} (h : ic.WF) {i : Nat}
    (hk : (ic.get i).k = .var ∨ (ic.get i).k = .const) : (ic.get i).ops = [] := by
  by_cases hi : i < ic.size
  · exact h.leaf_ops i hi hk
  · rw [get_of_size_le ic (Nat.le_of_not_lt hi)]; rfl

-- ════════════════════════════════════════════════════════════════════════
-- Every operation keeps the invariant
-- ════════════════════════════════════════════════════════════════════════

private theorem get_push_of_lt_succ (ic : InstContext) (I : Inst) {i : Nat} (hi : i < ic.size + 1) :
    (ic.push I).1.get i = if i < ic.size then ic.get i else I := by
  rw [get_push]
  by_cases h : i < ic.size
  · simp [h]
  · simp [h, show i = ic.size by omega]

/-- Appending a node keeps the invariant when its operands exist, a leaf has none, and no
existing node has its key. -/
theorem WF.push {ic : InstContext} {I : Inst} (h : ic.WF)
    (hops : ∀ j ∈ I.ops, j < ic.size)
    (hleaf : I.k = .var ∨ I.k = .const → I.ops = [])
    (hop : I.k ≠ .var → I.k ≠ .const → ∀ j < ic.size,
      (ic.get j).k = I.k → (ic.get j).width = I.width → (ic.get j).ops ≠ I.ops)
    (hc : I.k = .const → ∀ j < ic.size, (ic.get j).k = .const → (ic.get j).val ≠ I.val) :
    (ic.push I).1.WF := by
  have hg := fun i (hi : i < ic.size + 1) => get_push_of_lt_succ ic I hi
  constructor
  · intro i hi j hj
    rw [size_push] at hi
    rw [hg i hi] at hj
    split_ifs at hj with h1
    · exact h.acyclic i h1 j hj
    · have := hops j hj; omega
  · intro i hi
    rw [size_push] at hi
    rw [hg i hi]
    split_ifs with h1
    · exact h.leaf_ops i h1
    · exact hleaf
  · intro i hi j hj hv hc' hk hw ho
    rw [size_push] at hi hj
    rw [hg i hi] at hv hc' hk hw ho
    rw [hg j hj] at hk hw ho
    split_ifs at hv hc' hk hw ho with h1 h2 h2
    · exact h.interned_op i h1 j h2 hv hc' hk hw ho
    · exact absurd ho (hop (hk ▸ hv) (hk ▸ hc') i h1 hk hw)
    · exact absurd ho.symm (hop hv hc' j h2 hk.symm hw.symm)
    · omega
  · intro i hi j hj hci hcj hv
    rw [size_push] at hi hj
    rw [hg i hi] at hci hv
    rw [hg j hj] at hcj hv
    split_ifs at hci hcj hv with h1 h2 h2
    · exact h.interned_const i h1 j h2 hci hcj hv
    · exact absurd hv (hc hcj i h1 hci)
    · exact absurd hv.symm (hc hci j h2 hcj)
    · omega

theorem WF.getInst {ic : InstContext} (h : ic.WF) {K : Kind} (hv : K ≠ .var) (hc : K ≠ .const)
    (w : Nat) {ops : List Nat} (hops : ∀ j ∈ ops, j < ic.size) :
    (ic.getInst K w ops).1.WF := by
  rcases getInst_cases ic K w ops with ⟨i, -, hr, -⟩ | ⟨hnew, hr⟩ <;> rw [hr]
  · exact h
  · refine h.push hops (by simp [hv, hc]) (fun _ _ j hj hk hw ho => hnew j hj ⟨?_, ?_, ?_⟩) ?_
    all_goals simp_all

theorem WF.getConst {ic : InstContext} (h : ic.WF) (v : APInt) : (ic.getConst v).1.WF := by
  rcases getConst_cases ic v with ⟨i, -, hr, -⟩ | ⟨hnew, hr⟩ <;> rw [hr]
  · exact h
  · exact h.push (by simp) (by simp) (by simp) (fun _ j hj hk => by simpa using hnew j hj hk)

theorem WF.createVar {ic : InstContext} (h : ic.WF) (w : Nat) (n : String) :
    (ic.createVar w n).1.WF :=
  h.push (by simp) (by simp) (by simp) (by simp)

/-- The invariant reads only each node's kind, width, operands and value: a context that agrees
on those with a well-formed one is well formed. -/
theorem WF.of_keys {ic ic' : InstContext} (h : ic.WF) (hs : ic'.size = ic.size)
    (hk : ∀ j, (ic'.get j).k = (ic.get j).k) (hw : ∀ j, (ic'.get j).width = (ic.get j).width)
    (ho : ∀ j, (ic'.get j).ops = (ic.get j).ops) (hv : ∀ j, (ic'.get j).val = (ic.get j).val) :
    ic'.WF := by
  refine ⟨fun i hi j hj => ?_, fun i hi hl => ?_, fun i hi j hj h₁ h₂ h₃ h₄ h₅ => ?_,
    fun i hi j hj h₁ h₂ h₃ => ?_⟩ <;> simp only [hs, hk, hw, ho, hv] at *
  exacts [h.acyclic i hi j hj, h.leaf_ops i hi hl, h.interned_op i hi j hj h₁ h₂ h₃ h₄ h₅,
    h.interned_const i hi j hj h₁ h₂ h₃]

/-- An in-place write that keeps a node's kind, width, operands and value keeps the invariant:
the tools write only leaf facts in place. -/
theorem WF.setInst {ic : InstContext} (h : ic.WF) {i : Nat} {I : Inst}
    (hk : I.k = (ic.get i).k) (hw : I.width = (ic.get i).width) (ho : I.ops = (ic.get i).ops)
    (hv : I.val = (ic.get i).val) : (ic.setInst i I).WF := by
  refine h.of_keys (size_setInst _ _ _) ?_ ?_ ?_ ?_ <;> intro j <;> rw [get_setInst] <;>
    split_ifs with hj <;> first | rfl | (obtain ⟨rfl, -⟩ := hj; assumption)

end InstContext

end Souper
