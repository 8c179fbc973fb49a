import Souper.Inst.Eval

/-!
# Building nodes (`Builder`)

`Builder` wraps a node and the context that owns it, and builds nodes over it with chained calls,
`Builder(I, IC).Add(1).Xor(x)()`: each call interns one operation over the wrapped node and an
operand, and wraps the result. The operand of a binary call is another builder, a node, a number
taken at the wrapped node's width, or an `APInt`. Three calls encode an operation by another:
`Ugt` builds `Ult` with its operands swapped, `Flip` a `Xor` with the all-ones constant, and
`Negate` a `Sub` from zero.

## Main definitions

- `InstContext.ConstsSized` — every constant is as wide as its value, as `getConst` makes it
- `Builder`, `Builder.Arg`, `Builder.i` — a builder, the operand of a binary call, and the node
  `Builder::i` makes of it
- `Builder.binop`, `Builder.binopw`, `Builder.unop`, `Builder.unopw` — the families the macros
  `BINOP`, `BINOPW`, `UNOP` and `UNOPW` define; each member has its own definition
- `Builder.ugt`, `Builder.flip`, `Builder.negate` — the three encodings
- `Builder.Call`, `Builder.run` — a chain of calls, as client code writes it

## Main results

- `Builder.run_valid` — a chain of calls keeps the context well formed with sized constants, only
  appends to it, and wraps a node of it
- `Builder.encodings_eval` — `Ugt`, `Flip` and `Negate` compute the unsigned comparison, the
  bitwise complement and the two's-complement negation of the wrapped node's value

## Design notes

The C++ class holds a reference to the context; here a builder holds the context, and each call
returns the context it leaves. A builder passed as an operand gives only its node, which later
allocations do not move, and a node's width is read in the context the call starts from, which
allocation does not change. `llvm::APInt(W, N, false)` takes `N` as a `uint64_t` and keeps its
low `W` bits. The `std::string` operand, which `llvm::APInt` parses in radix 10, is left out.
-/

namespace Souper

namespace InstContext

/-- Every constant is as wide as its value. `getConst` keys its table by the `APInt`, whose width
is the node's, so every context the tools build has this property. -/
def ConstsSized (ic : InstContext) : Prop :=
  ∀ i < ic.size, (ic.get i).k = .const → (ic.get i).width = (ic.get i).val.width

instance (ic : InstContext) : Decidable ic.ConstsSized :=
  inferInstanceAs (Decidable (∀ i < ic.size, (ic.get i).k = .const →
    (ic.get i).width = (ic.get i).val.width))

variable {ic : InstContext}

theorem ConstsSized.push (h : ic.ConstsSized) {I : Inst}
    (hI : I.k = .const → I.width = I.val.width) : (ic.push I).1.ConstsSized := by
  intro i hi hk
  rw [size_push] at hi
  rw [get_push] at hk ⊢
  split_ifs at hk ⊢ with h₁ h₂
  · exact h i h₁ hk
  · exact hI hk
  · omega

theorem ConstsSized.getInst (h : ic.ConstsSized) {K : Kind} (hc : K ≠ .const) (w : Nat)
    (ops : List Nat) : (ic.getInst K w ops).1.ConstsSized := by
  rcases getInst_cases ic K w ops with ⟨i, -, hr, -⟩ | ⟨-, hr⟩ <;> rw [hr]
  · exact h
  · exact h.push fun hk => absurd hk hc

theorem ConstsSized.getConst (h : ic.ConstsSized) (v : APInt) : (ic.getConst v).1.ConstsSized := by
  rcases getConst_cases ic v with ⟨i, -, hr, -⟩ | ⟨-, hr⟩ <;> rw [hr]
  · exact h
  · exact h.push fun _ => rfl

/-- The node `getInst` returns computes its kind over its operands' values, each with its width,
found or new. -/
theorem eval_getInst (h : ic.WF) (K : Kind) (hv : K ≠ .var) (hc : K ≠ .const) (w : Nat)
    (ops : List Nat) (hops : ∀ j ∈ ops, j < ic.size) (σ : Nat → Nat) :
    (ic.getInst K w ops).1.eval σ (ic.getInst K w ops).2 =
      (ops.mapM fun o => (ic.eval σ o).map fun v => (v, (ic.get o).width)).bind (evalOp K w) := by
  obtain ⟨-, hk, hw, ho⟩ := get_getInst ic K w ops
  have he := getInst_extends ic K w ops
  rw [eval_op (h.getInst hv hc w hops).toAcyclic (by rw [hk]; exact hv) (by rw [hk]; exact hc), hk,
    hw, ho]
  congr 1
  exact mapM_congr_of_mem fun o hon => by
    rw [he.eval_eq h.toAcyclic (hops o hon), he.get_eq (hops o hon)]

/-- The constant `getConst` returns has the asked value, when constants are as wide as their
values. -/
theorem eval_getConst (hs : ic.ConstsSized) (v : APInt) (σ : Nat → Nat) :
    (ic.getConst v).1.eval σ (ic.getConst v).2 = some v.toNat := by
  obtain ⟨hlt, hk, hv⟩ := get_getConst ic v
  rw [eval_const hk, hs.getConst v _ hlt hk, hv]
  exact congrArg some (Nat.mod_eq_of_lt v.bits.isLt)

end InstContext

/-- The complement of a `w`-bit value: `Xor` with all ones subtracts it from all ones. -/
theorem xor_two_pow_sub_one {x w : Nat} (hx : x < 2 ^ w) : x ^^^ (2 ^ w - 1) = 2 ^ w - 1 - x := by
  have h := congrArg BitVec.toNat (BitVec.xor_allOnes (x := BitVec.ofNat w x))
  rwa [BitVec.toNat_xor, BitVec.toNat_allOnes, BitVec.toNat_not, BitVec.toNat_ofNat,
    Nat.mod_eq_of_lt hx] at h

/-- A `Builder`: a node, and the context it builds in. -/
structure Builder where
  ic : InstContext
  I : Nat

namespace Builder

open InstContext

/-- The operand of a binary call: the template parameter `T` of `Builder::i`. -/
inductive Arg where
  /-- Another builder: its node. -/
  | builder (A : Builder)
  /-- A node (`Inst *`). -/
  | inst (I : Nat)
  /-- A number of an integer type, converted to `uint64_t`. -/
  | num (N : Int)
  /-- An `llvm::APInt`: a constant of its own width. -/
  | apint (V : APInt)

-- ════════════════════════════════════════════════════════════════════════
-- The calls
-- ════════════════════════════════════════════════════════════════════════

/-- `Builder(IC, Value)`: the constant `Value`. -/
def ofAPInt (ic : InstContext) (Value : APInt) : Builder :=
  ⟨(ic.getConst Value).1, (ic.getConst Value).2⟩

/-- `Builder(I, IC, Value)`: the constant `Value` at the width of `I`. -/
def ofValue (I : Nat) (ic : InstContext) (Value : UInt64) : Builder :=
  ofAPInt ic (.ofNat (ic.get I).width Value.toNat)

/-- `Builder::i`: the node an operand stands for, and the context after interning it. A number
becomes a constant of the builder's width. -/
def i (B : Builder) : Arg → InstContext × Nat
  | .builder A => (B.ic, A.I)
  | .inst I => (B.ic, I)
  | .num N => B.ic.getConst (.ofNat (B.ic.get B.I).width (N % 2 ^ 64).toNat)
  | .apint V => B.ic.getConst V

/-- `BINOP(K)`: `K` of the node and the operand, at the node's width. -/
def binop (K : Kind) (B : Builder) (t : Arg) : Builder :=
  let R := B.i t
  let N := R.1.getInst K (B.ic.get B.I).width [B.I, R.2]
  ⟨N.1, N.2⟩

def add (B : Builder) (t : Arg) : Builder := binop .add B t
def sub (B : Builder) (t : Arg) : Builder := binop .sub B t
def mul (B : Builder) (t : Arg) : Builder := binop .mul B t
def and (B : Builder) (t : Arg) : Builder := binop .and B t
def xor (B : Builder) (t : Arg) : Builder := binop .xor B t
def or (B : Builder) (t : Arg) : Builder := binop .or B t
def shl (B : Builder) (t : Arg) : Builder := binop .shl B t
def lShr (B : Builder) (t : Arg) : Builder := binop .lshr B t
def uDiv (B : Builder) (t : Arg) : Builder := binop .udiv B t
def sDiv (B : Builder) (t : Arg) : Builder := binop .sdiv B t
def aShr (B : Builder) (t : Arg) : Builder := binop .ashr B t
def uRem (B : Builder) (t : Arg) : Builder := binop .urem B t
def sRem (B : Builder) (t : Arg) : Builder := binop .srem B t

/-- `Ugt`: `Ult` of the operand and the node, one bit wide. -/
def ugt (B : Builder) (t : Arg) : Builder :=
  let R := B.i t
  let N := R.1.getInst .ult 1 [R.2, B.I]
  ⟨N.1, N.2⟩

/-- `BINOPW(K)`: the comparison `K` of the node and the operand, one bit wide. -/
def binopw (K : Kind) (B : Builder) (t : Arg) : Builder :=
  let R := B.i t
  let N := R.1.getInst K 1 [B.I, R.2]
  ⟨N.1, N.2⟩

def slt (B : Builder) (t : Arg) : Builder := binopw .slt B t
def ult (B : Builder) (t : Arg) : Builder := binopw .ult B t
def sle (B : Builder) (t : Arg) : Builder := binopw .sle B t
def ule (B : Builder) (t : Arg) : Builder := binopw .ule B t
def eq (B : Builder) (t : Arg) : Builder := binopw .eq B t
def ne (B : Builder) (t : Arg) : Builder := binopw .ne B t

/-- `UNOP(K)`: `K` of the node, at its width. -/
def unop (K : Kind) (B : Builder) : Builder :=
  let N := B.ic.getInst K (B.ic.get B.I).width [B.I]
  ⟨N.1, N.2⟩

def logB (B : Builder) : Builder := unop .logb B
def bitReverse (B : Builder) : Builder := unop .bitreverse B
def bSwap (B : Builder) : Builder := unop .bswap B
def cttz (B : Builder) : Builder := unop .cttz B
def ctlz (B : Builder) : Builder := unop .ctlz B
def bitWidth (B : Builder) : Builder := unop .bitwidth B
def ctPop (B : Builder) : Builder := unop .ctpop B

/-- `Flip`: `Xor` of the node and the all-ones constant of its width. -/
def flip (B : Builder) : Builder :=
  let AllOnes := B.ic.getConst (.allOnes (B.ic.get B.I).width)
  let N := AllOnes.1.getInst .xor (B.ic.get B.I).width [B.I, AllOnes.2]
  ⟨N.1, N.2⟩

/-- `Negate`: `Sub` of the node from the zero of its width. -/
def negate (B : Builder) : Builder :=
  let Zero := B.ic.getConst (.ofNat (B.ic.get B.I).width 0)
  let N := Zero.1.getInst .sub (B.ic.get B.I).width [Zero.2, B.I]
  ⟨N.1, N.2⟩

/-- `UNOPW(K)`: `K` of the node, at the width `W`. -/
def unopw (K : Kind) (B : Builder) (W : Nat) : Builder :=
  let N := B.ic.getInst K W [B.I]
  ⟨N.1, N.2⟩

def zExt (B : Builder) (W : Nat) : Builder := unopw .zext B W
def sExt (B : Builder) (W : Nat) : Builder := unopw .sext B W
def trunc (B : Builder) (W : Nat) : Builder := unopw .trunc B W

/-- One call of a chain `Builder(I, IC).Add(1).Xor(x)`, by the family that defines it. -/
inductive Call where
  | binop (K : Kind) (t : Arg)
  | ugt (t : Arg)
  | binopw (K : Kind) (t : Arg)
  | unop (K : Kind)
  | flip
  | negate
  | unopw (K : Kind) (W : Nat)

/-- The builder a call returns. -/
def Call.apply (B : Builder) : Call → Builder
  | .binop K t => B.binop K t
  | .ugt t => B.ugt t
  | .binopw K t => B.binopw K t
  | .unop K => B.unop K
  | .flip => B.flip
  | .negate => B.negate
  | .unopw K W => B.unopw K W

/-- A chain of calls, left to right. -/
def run (B : Builder) (cs : List Call) : Builder := cs.foldl Call.apply B

-- ════════════════════════════════════════════════════════════════════════
-- Every call keeps the context well formed
-- ════════════════════════════════════════════════════════════════════════

/-- A builder over a well-formed context with sized constants, whose node exists. -/
structure Valid (B : Builder) : Prop where
  wf : B.ic.WF
  sized : B.ic.ConstsSized
  lt : B.I < B.ic.size

/-- An operand that names a node names one of the context. -/
def Arg.Valid (ic : InstContext) : Arg → Prop
  | .builder A => A.I < ic.size
  | .inst I => I < ic.size
  | .num _ | .apint _ => True

/-- A call that builds operations, not leaves, over operands of the context. -/
def Call.Valid (ic : InstContext) : Call → Prop
  | .binop K t | .binopw K t => K ≠ .var ∧ K ≠ .const ∧ t.Valid ic
  | .ugt t => t.Valid ic
  | .unop K | .unopw K _ => K ≠ .var ∧ K ≠ .const
  | .flip | .negate => True

theorem Arg.Valid.mono {ic ic' : InstContext} (he : ic.Extends ic') :
    ∀ {t : Arg}, t.Valid ic → t.Valid ic'
  | .builder _, h | .inst _, h => lt_of_lt_of_le h he.size_le
  | .num _, _ | .apint _, _ => trivial

theorem Call.Valid.mono {ic ic' : InstContext} (he : ic.Extends ic') :
    ∀ {c : Call}, c.Valid ic → c.Valid ic'
  | .binop _ _, h | .binopw _ _, h => ⟨h.1, h.2.1, h.2.2.mono he⟩
  | .ugt _, h => Arg.Valid.mono he h
  | .unop _, h | .unopw _ _, h | .flip, h | .negate, h => h

/-- The node `getInst` returns over operands of a valid context makes a valid builder, whose
context extends it. -/
theorem valid_getInst {ic : InstContext} (hwf : ic.WF) (hs : ic.ConstsSized) (K : Kind)
    (hv : K ≠ .var) (hc : K ≠ .const) (w : Nat) (ops : List Nat) (hops : ∀ j ∈ ops, j < ic.size) :
    Valid ⟨(ic.getInst K w ops).1, (ic.getInst K w ops).2⟩ ∧ ic.Extends (ic.getInst K w ops).1 :=
  ⟨⟨hwf.getInst hv hc w hops, hs.getInst hc w ops, (get_getInst ic K w ops).1⟩,
    getInst_extends ic K w ops⟩

/-- The builder `getConst` returns over a valid context is valid, and its context extends it. -/
theorem valid_getConst {ic : InstContext} (hwf : ic.WF) (hs : ic.ConstsSized) (v : APInt) :
    Valid ⟨(ic.getConst v).1, (ic.getConst v).2⟩ ∧ ic.Extends (ic.getConst v).1 :=
  ⟨⟨hwf.getConst v, hs.getConst v, (get_getConst ic v).1⟩, getConst_extends ic v⟩

theorem valid_ofAPInt {ic : InstContext} (hwf : ic.WF) (hs : ic.ConstsSized) (Value : APInt) :
    (ofAPInt ic Value).Valid :=
  (valid_getConst hwf hs Value).1

section Frame

variable {B : Builder} (hB : B.Valid)
include hB

/-- The operand's node exists in the context `Builder::i` leaves, which is valid and extends the
builder's. -/
theorem i_valid {t : Arg} (ht : t.Valid B.ic) :
    Valid ⟨(B.i t).1, (B.i t).2⟩ ∧ B.ic.Extends (B.i t).1 := by
  cases t with
  | builder A => exact ⟨⟨hB.wf, hB.sized, ht⟩, .refl _⟩
  | inst I => exact ⟨⟨hB.wf, hB.sized, ht⟩, .refl _⟩
  | num N => exact valid_getConst hB.wf hB.sized _
  | apint V => exact valid_getConst hB.wf hB.sized V

/-- A binary call builds its operation over the node and the operand's node, both in the context
the operand leaves. -/
theorem valid_two {t : Arg} (ht : t.Valid B.ic) (K : Kind) (hv : K ≠ .var) (hc : K ≠ .const)
    (w : Nat) (ops : List Nat) (hops : ∀ j ∈ ops, j = B.I ∨ j = (B.i t).2) :
    Valid ⟨((B.i t).1.getInst K w ops).1, ((B.i t).1.getInst K w ops).2⟩ ∧
      B.ic.Extends ((B.i t).1.getInst K w ops).1 := by
  obtain ⟨hR, he⟩ := i_valid hB ht
  have hL := lt_of_lt_of_le hB.lt he.size_le
  obtain ⟨hN, he'⟩ := valid_getInst hR.wf hR.sized K hv hc w ops fun j hj => by
    rcases hops j hj with rfl | rfl
    exacts [hL, hR.lt]
  exact ⟨hN, he.trans he'⟩

/-- Every call keeps the builder valid, and only appends to the context. -/
theorem apply_valid {c : Call} (hc : c.Valid B.ic) : (c.apply B).Valid ∧ B.ic.Extends (c.apply B).ic := by
  cases c with
  | binop K t => exact valid_two hB hc.2.2 K hc.1 hc.2.1 _ _ (by simp)
  | ugt t => exact valid_two hB hc .ult (by decide) (by decide) _ _ (by simp [or_comm])
  | binopw K t => exact valid_two hB hc.2.2 K hc.1 hc.2.1 _ _ (by simp)
  | unop K => exact valid_getInst hB.wf hB.sized K hc.1 hc.2 _ _ (by simpa using hB.lt)
  | unopw K W => exact valid_getInst hB.wf hB.sized K hc.1 hc.2 _ _ (by simpa using hB.lt)
  | flip =>
    obtain ⟨hA, he⟩ := valid_getConst hB.wf hB.sized (.allOnes (B.ic.get B.I).width)
    obtain ⟨hN, he'⟩ := valid_getInst hA.wf hA.sized .xor (by decide) (by decide) _ [B.I, _]
      (by simpa using ⟨lt_of_lt_of_le hB.lt he.size_le, hA.lt⟩)
    exact ⟨hN, he.trans he'⟩
  | negate =>
    obtain ⟨hZ, he⟩ := valid_getConst hB.wf hB.sized (.ofNat (B.ic.get B.I).width 0)
    obtain ⟨hN, he'⟩ := valid_getInst hZ.wf hZ.sized .sub (by decide) (by decide) _ [_, B.I]
      (by simpa using ⟨hZ.lt, lt_of_lt_of_le hB.lt he.size_le⟩)
    exact ⟨hN, he.trans he'⟩

end Frame

/-- A chain of calls that build operations over nodes of the context keeps it well formed with
sized constants, only appends to it, and wraps a node of it: no call rewrites a node, leaves a
dangling operand, or interns a node twice. -/
theorem run_valid {B : Builder} (hB : B.Valid) :
    ∀ cs : List Call, (∀ c ∈ cs, c.Valid B.ic) → (B.run cs).Valid ∧ B.ic.Extends (B.run cs).ic
  | [], _ => ⟨hB, .refl _⟩
  | c :: cs, hcs => by
    obtain ⟨hB', he⟩ := apply_valid hB (hcs c (List.mem_cons_self c cs))
    obtain ⟨hR, he'⟩ := run_valid hB' cs fun c' hc' => (hcs c' (List.mem_cons_of_mem c hc')).mono he
    exact ⟨hR, he.trans he'⟩

/-- A variable `x` at width 8. -/
def byteIc : InstContext := ⟨[.var 8 "x"]⟩

/-- `Builder(x, IC).Add(1).Flip().Ugt(x)`. -/
theorem run_valid_byte :
    Valid ⟨byteIc, 0⟩ ∧ (∀ c ∈ [Call.binop .add (.num 1), .flip, .ugt (.inst 0)], c.Valid byteIc) ∧
      (run ⟨byteIc, 0⟩ [.binop .add (.num 1), .flip, .ugt (.inst 0)]).Valid ∧
      byteIc.Extends (run ⟨byteIc, 0⟩ [.binop .add (.num 1), .flip, .ugt (.inst 0)]).ic :=
  have hB : Valid ⟨byteIc, 0⟩ := ⟨by decide, by decide, by decide⟩
  have hcs : ∀ c ∈ [Call.binop .add (.num 1), .flip, .ugt (.inst 0)], c.Valid byteIc := by
    simp [Call.Valid, Arg.Valid, byteIc, InstContext.size]
  ⟨hB, hcs, run_valid hB _ hcs⟩

-- ════════════════════════════════════════════════════════════════════════
-- What the encodings compute
-- ════════════════════════════════════════════════════════════════════════

/-- The value an operand stands for under `σ`, a number taken at the width `w`. -/
def Arg.value (ic : InstContext) (σ : Nat → Nat) (w : Nat) : Arg → Option Nat
  | .builder A => ic.eval σ A.I
  | .inst I => ic.eval σ I
  | .num N => some ((N % 2 ^ 64).toNat % 2 ^ w)
  | .apint V => some V.toNat

section Eval

variable {B : Builder} (hB : B.Valid) (σ : Nat → Nat)
include hB

/-- The operand's node has the value the operand stands for. -/
theorem i_eval {t : Arg} (ht : t.Valid B.ic) :
    (B.i t).1.eval σ (B.i t).2 = t.value B.ic σ (B.ic.get B.I).width := by
  cases t with
  | builder A => rfl
  | inst I => rfl
  | num N => simp only [i, Arg.value, eval_getConst hB.sized, APInt.toNat, APInt.ofNat,
      BitVec.toNat_ofNat]
  | apint V => exact eval_getConst hB.sized V σ

/-- The wrapped node keeps its value in every context a call leaves. -/
theorem eval_self {ic' : InstContext} (he : B.ic.Extends ic') : ic'.eval σ B.I = B.ic.eval σ B.I :=
  he.eval_eq hB.wf.toAcyclic hB.lt

/-- `Ugt` is `1` exactly when the node's value is above the operand's. -/
theorem ugt_eval {t : Arg} (ht : t.Valid B.ic) :
    (B.ugt t).ic.eval σ (B.ugt t).I =
      (t.value B.ic σ (B.ic.get B.I).width).bind fun y =>
        (B.ic.eval σ B.I).map fun x => if y < x then 1 else 0 := by
  obtain ⟨hR, he⟩ := i_valid hB ht
  simp only [ugt]
  rw [eval_getInst hR.wf .ult (by decide) (by decide) 1 _
    (by simpa using ⟨hR.lt, lt_of_lt_of_le hB.lt he.size_le⟩)]
  simp only [List.mapM_cons, List.mapM_nil]
  rw [i_eval hB σ ht, eval_self hB σ he]
  cases t.value B.ic σ (B.ic.get B.I).width <;> cases B.ic.eval σ B.I <;> rfl

/-- `Flip` is the `Xor` of the node's value with all ones of its width. -/
theorem flip_eval :
    B.flip.ic.eval σ B.flip.I =
      (B.ic.eval σ B.I).map fun x => x ^^^ (2 ^ (B.ic.get B.I).width - 1) := by
  obtain ⟨hA, he⟩ := valid_getConst hB.wf hB.sized (.allOnes (B.ic.get B.I).width)
  simp only [flip]
  rw [eval_getInst hA.wf .xor (by decide) (by decide) _ _
    (by simpa using ⟨lt_of_lt_of_le hB.lt he.size_le, hA.lt⟩)]
  simp only [List.mapM_cons, List.mapM_nil]
  rw [eval_self hB σ he, eval_getConst hB.sized]
  simp only [APInt.toNat, APInt.allOnes, BitVec.toNat_allOnes]
  cases B.ic.eval σ B.I <;> rfl

/-- `Negate` is the difference of zero and the node's value, modulo `2 ^ w`. -/
theorem negate_eval :
    B.negate.ic.eval σ B.negate.I =
      (B.ic.eval σ B.I).map fun x => (2 ^ (B.ic.get B.I).width - x) % 2 ^ (B.ic.get B.I).width := by
  obtain ⟨hZ, he⟩ := valid_getConst hB.wf hB.sized (.ofNat (B.ic.get B.I).width 0)
  simp only [negate]
  rw [eval_getInst hZ.wf .sub (by decide) (by decide) _ _
    (by simpa using ⟨hZ.lt, lt_of_lt_of_le hB.lt he.size_le⟩)]
  simp only [List.mapM_cons, List.mapM_nil]
  rw [eval_self hB σ he, eval_getConst hB.sized]
  simp only [APInt.toNat, APInt.ofNat, BitVec.toNat_ofNat, Nat.zero_mod]
  cases B.ic.eval σ B.I with
  | none => rfl
  | some x => exact congrArg (fun y => some ((y - x) % _)) (Nat.zero_add _)

end Eval

/-- The calls that encode one operation by another compute it, on a value `x` of the node that
fits its width `w`: `Ugt` is `1` exactly when `x` is above the operand, `Flip` is the complement
`2 ^ w - 1 - x`, and `Negate` is the `w`-bit value that adds to `x` to give zero. -/
theorem encodings_eval {B : Builder} (hB : B.Valid) {t : Arg} (ht : t.Valid B.ic) {σ : Nat → Nat}
    {x : Nat} (hx : B.ic.eval σ B.I = some x) (hfit : x < 2 ^ (B.ic.get B.I).width) :
    (B.ugt t).ic.eval σ (B.ugt t).I =
        (t.value B.ic σ (B.ic.get B.I).width).map (fun y => if y < x then 1 else 0) ∧
      B.flip.ic.eval σ B.flip.I = some (2 ^ (B.ic.get B.I).width - 1 - x) ∧
      ∃ v, B.negate.ic.eval σ B.negate.I = some v ∧ v < 2 ^ (B.ic.get B.I).width ∧
        (x + v) % 2 ^ (B.ic.get B.I).width = 0 := by
  refine ⟨?_, ?_, _, by rw [negate_eval hB σ, hx]; rfl, Nat.mod_lt _ (Nat.two_pow_pos _), ?_⟩
  · rw [ugt_eval hB σ ht, hx]
    cases t.value B.ic σ (B.ic.get B.I).width <;> rfl
  · rw [flip_eval hB σ, hx, Option.map_some', xor_two_pow_sub_one hfit]
  · rw [Nat.add_mod_mod, Nat.add_sub_cancel' hfit.le, Nat.mod_self]

/-- `x = 200` at width 8, against the operand `3`. -/
theorem encodings_eval_byte :
    Valid ⟨byteIc, 0⟩ ∧ (Arg.num 3).Valid byteIc ∧ byteIc.eval (fun _ => 200) 0 = some 200 ∧
      200 < 2 ^ (byteIc.get 0).width ∧
      ((⟨byteIc, 0⟩ : Builder).ugt (.num 3)).ic.eval (fun _ => 200) ((⟨byteIc, 0⟩ : Builder).ugt (.num 3)).I =
          ((Arg.num 3).value byteIc (fun _ => 200) (byteIc.get 0).width).map
            (fun y => if y < 200 then 1 else 0) ∧
        (⟨byteIc, 0⟩ : Builder).flip.ic.eval (fun _ => 200) (⟨byteIc, 0⟩ : Builder).flip.I =
          some (2 ^ (byteIc.get 0).width - 1 - 200) ∧
        ∃ v, (⟨byteIc, 0⟩ : Builder).negate.ic.eval (fun _ => 200) (⟨byteIc, 0⟩ : Builder).negate.I =
            some v ∧ v < 2 ^ (byteIc.get 0).width ∧ (200 + v) % 2 ^ (byteIc.get 0).width = 0 :=
  have hB : Valid ⟨byteIc, 0⟩ := ⟨by decide, by decide, by decide⟩
  have ht : (Arg.num 3).Valid byteIc := trivial
  ⟨hB, ht, rfl, by decide, encodings_eval hB ht rfl (by decide)⟩

end Builder

end Souper
