import Souper.Inst.Eval

/-!
# The PDL pattern generator (`PDLGenerator`)

`PDLGenerator` prints a rule as MLIR `pdl.pattern`s over the `arith` dialect: one pattern per
ordering of the operands of the commutative operations of the LHS. A pattern declares a type
for each width, an operand or constant operation for each variable, an attribute for each
constant and predicate, and the operations of the LHS in post-order; its `pdl.rewrite` block
builds the RHS and replaces the LHS root with it.

## Main definitions

- `arithDialectMap`, `arithCommunativeInst`, `arithCmpiInst` — the generator's tables
- `PdlState` — the generator's fields, and the text of the pattern being written
- `printSingleInst`, `printInsts`, `pre`, `rhspre`, `rhspost` — the methods that write a pattern
- `generate` — `PDLGenerator::operator()`: the text written to the stream, or why it returned
  `false`

## Design notes

The methods write to a fresh `std::ostringstream` per pattern, which `operator()` copies to its
stream only once the whole pattern is written; a method that returns `false` loses it. Here a
method is a computation in `PdlM`, a state over the generator's fields in `Except PdlError`, and
the pattern's text is a field of the state. `souper::benefit` is not under src/; it is a
parameter, as is the pattern's `Name`.
-/

namespace Souper.Pdl

open InstContext

/-- `ArithDialectMap`: the `arith` operation of each kind. -/
def arithDialectMap : Kind → Option String
  | .add => some "arith.addi" | .sub => some "arith.subi" | .and => some "arith.andi"
  | .or => some "arith.ori" | .xor => some "arith.xori" | .sdiv => some "arith.divsi"
  | .sext => some "arith.extsi" | .trunc => some "arith.trunci" | .mul => some "arith.muli"
  | .srem => some "arith.remsi" | .select => some "arith.select" | .zext => some "arith.extui"
  | .ne => some "arith.cmpi" | .eq => some "arith.cmpi"
  | _ => none

/-- `ArithCommunativeInst`: the kinds whose operands a pattern may take in either order. -/
def arithCommunativeInst : Kind → Bool
  | .add | .and | .or | .xor | .mul | .ne | .eq => true
  | _ => false

/-- `ArithCmpiInst`: the `arith.cmpi` predicate of each comparison. -/
def arithCmpiInst : Kind → Option String
  | .ne => some "1" | .eq => some "0"
  | _ => none

/-- Why the generator stops. -/
inductive PdlError where
  /-- The method writes the message to `llvm::errs` and returns `false`. -/
  | failed (msg : String)
  /-- `Inst::getKindName(K) << " instruction not found in ArithDialectMap"`, and `false`. -/
  | unmapped (K : Kind)
  /-- `std::string::at` out of range: an uncaught `std::out_of_range`. -/
  | aborted
  /-- No defined result: an `int` shift by 32 or more, an `int` conversion that overflows, or a
  walk of a cyclic graph, which does not end. -/
  | undefined
  deriving DecidableEq, Repr

/-- The generator's fields, and the pattern being written. `SymbolTable`, `TypeSSA` and the sets
are lists of their entries in insertion order; only their lookups and sizes are read. -/
structure PdlState where
  visited : List Nat
  symbolTable : List (Nat × String)
  typeSSA : List (Nat × String)
  attributeSSA : List String
  resultSSA : List String
  counter : Nat
  indent : Nat
  out : String
  deriving DecidableEq, Repr

/-- The generator's methods: a state over its fields, failing with `PdlError`. -/
abbrev PdlM := StateT PdlState (Except PdlError)

/-- `S << s`. -/
def emit (s : String) : PdlM Unit := modify fun st => { st with out := st.out ++ s }

/-- `indent(S)`: two spaces per level. -/
def indent : PdlM Unit := do
  emit ⟨List.replicate (2 * (← get).indent) ' '⟩

/-- `s.at(i)`. -/
def charAt (s : String) (i : Nat) : PdlM Char :=
  match s.data.get? i with
  | some c => pure c
  | none => throw .aborted

/-- `SymbolTable[I]`: the name of `I`, or a new empty entry. -/
def symbol (I : Nat) : PdlM String := do
  match (← get).symbolTable.lookup I with
  | some n => pure n
  | none =>
    modify fun st => { st with symbolTable := st.symbolTable ++ [(I, "")] }
    pure ""

variable (ic : InstContext)

/-- `getTypeSSA`: `TypeSSA[I->Width]`, a new empty entry if the width has none. -/
def getTypeSSA (I : Nat) : PdlM String := do
  match (← get).typeSSA.lookup (ic.get I).width with
  | some n => pure n
  | none =>
    modify fun st => { st with typeSSA := st.typeSSA ++ [((ic.get I).width, "")] }
    pure ""

/-- `fetchTypeSSA`: the first node of a width declares its type. Width 1 is `%uint1 = pdl.type :
i1`; any other width gets `%type<n>`, a `pdl.type` with no width. -/
def fetchTypeSSA (I : Nat) : PdlM Unit := do
  let W := (ic.get I).width
  let st ← get
  if (st.typeSSA.lookup W).isNone then
    indent
    if W = 1 then
      let typeName := "%uint" ++ toString W
      emit (typeName ++ " = pdl.type : i" ++ toString W ++ "\n")
      modify fun st => { st with typeSSA := st.typeSSA ++ [(W, typeName)] }
    else
      let typeName := "%type" ++ toString st.typeSSA.length
      emit (typeName ++ " = pdl.type\n")
      modify fun st => { st with typeSSA := st.typeSSA ++ [(W, typeName)] }

/-- `fetchAttributeSSA`: the first use of an attribute name declares it. -/
def fetchAttributeSSA (name attr : String) : PdlM Unit := do
  if name ∉ (← get).attributeSSA then
    modify fun st => { st with attributeSSA := st.attributeSSA ++ [name] }
    indent
    emit (name ++ " = pdl.attribute = " ++ attr ++ "\n")

/-- `fetchResultSSA`: an operand named as an operation (its second character is neither `v` nor
`n`) has its result declared once, as `%r` and the rest of its name. -/
def fetchResultSSA (op : String) : PdlM Unit := do
  let c ← charAt op 1
  if c ≠ 'v' ∧ c ≠ 'n' then
    let resultName := "%r" ++ op.drop 1
    if resultName ∉ (← get).resultSSA then
      modify fun st => { st with resultSSA := st.resultSSA ++ [resultName] }
      indent
      emit (resultName ++ " = pdl.result 0 of " ++ op ++ "\n")

/-- `getInputSSA`: a value is used by its name, an operation by its result. -/
def getInputSSA (op : String) : PdlM String := do
  let c ← charAt op 1
  if c = 'v' ∨ c = 'n' then pure op else pure ("%r" ++ op.drop 1)

/-- `addOperandsAndBindings`: the operands of `I`, in the order bit `Counter` of `Bitmask` picks
for a commutative operation, then their types. -/
def addOperandsAndBindings (bitmask : Nat) (I : Nat) : PdlM Unit := do
  let ops ← if arithCommunativeInst (ic.get I).k then do
      let counter := (← get).counter
      if 32 ≤ counter then throw .undefined
      modify fun st => { st with counter := st.counter + 1 }
      pure (if (bitmask >>> counter) % 2 = 1 then (ic.get I).ops.reverse else (ic.get I).ops)
    else pure (ic.get I).ops
  let names ← ops.mapM fun op => do
    match (← get).symbolTable.lookup op with
    | none => throw (.failed "Operand not found in SymbolTable\n")
    | some n => getInputSSA n
  emit (", ".intercalate names ++ " : " ++ ", ".intercalate (ops.map fun _ => "!pdl.value"))

/-- `printSingleInst`: a node not visited yet gets the next positional name `%<n>` unless it has
a name, its type, and its declaration: a constant as an `arith.constant` with a value attribute,
an operation as its `arith` operation over the results of its operands. -/
def printSingleInst (bitmask : Nat) (I : Nat) : PdlM Unit := do
  if I ∉ (← get).visited then
    modify fun st => { st with visited := st.visited ++ [I] }
    if ((← get).symbolTable.lookup I).isNone then
      modify fun st =>
        { st with symbolTable := st.symbolTable ++ [(I, "%" ++ toString st.symbolTable.length)] }
    fetchTypeSSA ic I
    let K := (ic.get I).k
    if K = .const then
      let v := toString (ic.get I).val.toNat
      let valueAttrName := "%av" ++ v
      fetchAttributeSSA valueAttrName (v ++ if (ic.get I).width = 1 then toString (ic.get I).width else "")
      let typeName ← getTypeSSA ic I
      indent
      let sym ← symbol I
      emit (sym ++ " = pdl.operation \"arith.constant\" \x7b\"value\" = " ++ valueAttrName ++
        "\x7d -> (" ++ typeName ++ " : !pdl.type)\n")
    else
      match arithDialectMap K with
      | none => throw (.unmapped K)
      | some op =>
        (ic.get I).ops.forM fun o => do fetchResultSSA (← symbol o)
        match arithCmpiInst K with
        | some p =>
          let predicateAttr := "%av" ++ p
          fetchAttributeSSA predicateAttr p
          let typeName ← getTypeSSA ic I
          indent
          emit ((← symbol I) ++ " = pdl.operation \"" ++ op ++ "\"(")
          addOperandsAndBindings ic bitmask I
          emit (") \x7b\"predicate\" = " ++ predicateAttr ++ "\x7d -> (" ++ typeName ++
            " : !pdl.type)\n")
        | none =>
          indent
          emit ((← symbol I) ++ " = pdl.operation \"" ++ op ++ "\"(")
          addOperandsAndBindings ic bitmask I
          let typeName ← getTypeSSA ic I
          emit (") -> (" ++ typeName ++ " : !pdl.type)\n")

/-- `printInsts`: the operands first, then the node, with no memo; `printSingleInst` skips what
is visited. The recursion is bounded by `fuel`; `I + 1` suffices in an acyclic context. -/
def printInsts (bitmask : Nat) : Nat → Nat → PdlM Unit
  | 0, _ => throw .undefined
  | fuel + 1, I => do
    (ic.get I).ops.forM (printInsts bitmask fuel)
    printSingleInst ic bitmask I

section Pattern

variable (R : ParsedReplacement) (name : String) (benefit : Int) (bitmask : Nat)

/-- `pre`: the pattern's header, and a declaration for each variable of the LHS, named `%` and
its name: an operand, or, for a name starting with `s`, a constant operation. -/
def pre : PdlM Unit := do
  emit ("pdl.pattern @" ++ name ++ (if bitmask > 0 then "_com_" ++ toString bitmask else "") ++
    " : benefit(" ++ toString benefit ++ ") \x7b\n")
  modify fun st => { st with indent := st.indent + 1 }
  (findVars ic R.mapping.lhs).forM fun v => do
    if ((← get).symbolTable.lookup v).isNone then
      modify fun st => { st with symbolTable := st.symbolTable ++ [(v, "%" ++ (ic.get v).name)] }
    fetchTypeSSA ic v
    let c ← charAt (ic.get v).name 0
    indent
    if c ≠ 's' then
      emit ((← symbol v) ++ " = pdl.operand : " ++ (← getTypeSSA ic v) ++ "\n")
    else
      emit ((← symbol v) ++ " = pdl.operation \"arith.constant\" -> (" ++ (← getTypeSSA ic v) ++
        " : !pdl.type)\n")
    modify fun st => { st with visited := st.visited ++ [v] }

/-- `rhspre`: the opening of the rewrite of the LHS root. -/
def rhspre : PdlM Unit := do
  match (← get).symbolTable.lookup R.mapping.lhs with
  | none => throw (.failed "LHS Root not found in SymbolTable\n")
  | some l =>
    indent
    emit ("pdl.rewrite " ++ l ++ " \x7b\n")
    modify fun st => { st with indent := st.indent + 1 }

/-- `rhspost`: the replacement of the LHS root by the RHS, as a value when the RHS's name reads as
one, and the rewrite's closing brace. -/
def rhspost : PdlM Unit := do
  let st ← get
  match st.symbolTable.lookup R.mapping.lhs, st.symbolTable.lookup R.mapping.rhs with
  | none, _ => throw (.failed "LHS Root not found in SymbolTable\n")
  | some _, none => throw (.failed "RHS Root not found in SymbolTable\n")
  | some l, some r =>
    indent
    emit ("pdl.replace " ++ l ++ " with ")
    let c ← charAt r 1
    if c = 'v' ∨ c = 'n' then emit ("(" ++ r ++ " : !pdl.value)\n") else emit (r ++ "\n")
    modify fun st => { st with indent := st.indent - 1 }
    indent
    emit "\x7d\n"

/-- One pattern, for one value of `Bitmask`: `pre`, `LHS`, `RHS`, `post`. -/
def pattern : PdlM Unit := do
  pre ic R name benefit bitmask
  modify fun st => { st with counter := 0 }
  printInsts ic bitmask (R.mapping.lhs + 1) R.mapping.lhs
  modify fun st => { st with counter := st.counter + 1 }
  rhspre R
  printInsts ic bitmask (R.mapping.rhs + 1) R.mapping.rhs
  rhspost R
  emit "\x7d\n"

end Pattern

/-- `getNumOfCommutativeOps`: the commutative operations of the tree unfolding of `I`. -/
def getNumOfCommutativeOps (I : Nat) : Nat :=
  ic.treeSum (fun j => if arithCommunativeInst (ic.get j).k then 1 else 0) I

/-- `PDLGenerator::operator()`: a pattern for each `Bitmask` below `2 ^ n`, `n` the commutative
operations of the LHS. After each pattern the visited set and the type, attribute and result
names are cleared; the symbol table and the indentation carry over. A conversion of `2 ^ n` to
`int` overflows from `n = 31` on. -/
def generate (R : ParsedReplacement) (name : String) (benefit : Int) : Except PdlError String := do
  let n := getNumOfCommutativeOps ic R.mapping.lhs
  if 31 ≤ n then throw .undefined
  let r ← (List.range (2 ^ n)).foldlM (fun (acc : PdlState × String) bitmask => do
      let ((), st) ← (pattern ic R name benefit bitmask).run { acc.1 with out := "" }
      pure ({ st with visited := [], typeSSA := [], attributeSSA := [], resultSSA := [] },
        acc.2 ++ st.out))
    (⟨[], [], [], [], [], 0, 0, ""⟩, "")
  pure r.2

-- ════════════════════════════════════════════════════════════════════════
-- Names that collide
-- ════════════════════════════════════════════════════════════════════════

/-- The generator's state before the first pattern. -/
def initState : PdlState := ⟨[], [], [], [], [], 0, 0, ""⟩

/-- `x - x ⇒ 0` at width 8, its variable named `1`, as in Souper's numbered names `%1:i8 = var`. -/
def numberedVarIc : InstContext := ⟨[.var 8 "1", .op .sub 8 [0, 0], .const (.ofNat 8 0)]⟩

def numberedVarRule : ParsedReplacement := ⟨⟨1, 2⟩, [], []⟩

/-- The pattern for `x - x ⇒ 0`: the variable and the subtraction are both `%1`. -/
def subSelfPattern : String :=
  "pdl.pattern @subSelf : benefit(0) \x7b\n" ++
  "  %type0 = pdl.type\n" ++
  "  %1 = pdl.operand : %type0\n" ++
  "  %r1 = pdl.result 0 of %1\n" ++
  "  %1 = pdl.operation \"arith.subi\"(%r1, %r1 : !pdl.value, !pdl.value) -> (%type0 : !pdl.type)\n" ++
  "  pdl.rewrite %1 \x7b\n" ++
  "    %av0 = pdl.attribute = 0\n" ++
  "    %2 = pdl.operation \"arith.constant\" \x7b\"value\" = %av0\x7d -> (%type0 : !pdl.type)\n" ++
  "    pdl.replace %1 with %2\n" ++
  "  \x7d\n" ++
  "\x7d\n"

/-- `x ≠ 1 ⇒ x ^ 1` at width 1. -/
def neTrueIc : InstContext :=
  ⟨[.var 1 "x", .const (.ofNat 1 1), .op .ne 1 [0, 1], .op .xor 1 [0, 1]]⟩

def neTrueRule : ParsedReplacement := ⟨⟨2, 3⟩, [], []⟩

/-- The first pattern for `x ≠ 1 ⇒ x ^ 1`: the predicate of the `arith.cmpi` is `%av1`, the
attribute declared for the 1-bit constant 1 with the text `11`, where `ne` is the text `1`. -/
def neTruePattern : String :=
  "pdl.pattern @neTrue : benefit(0) \x7b\n" ++
  "  %uint1 = pdl.type : i1\n" ++
  "  %x = pdl.operand : %uint1\n" ++
  "  %av1 = pdl.attribute = 11\n" ++
  "  %1 = pdl.operation \"arith.constant\" \x7b\"value\" = %av1\x7d -> (%uint1 : !pdl.type)\n" ++
  "  %rx = pdl.result 0 of %x\n" ++
  "  %r1 = pdl.result 0 of %1\n" ++
  "  %2 = pdl.operation \"arith.cmpi\"(%rx, %r1 : !pdl.value, !pdl.value) " ++
    "\x7b\"predicate\" = %av1\x7d -> (%uint1 : !pdl.type)\n" ++
  "  pdl.rewrite %2 \x7b\n" ++
  "    %3 = pdl.operation \"arith.xori\"(%rx, %r1 : !pdl.value, !pdl.value) -> (%uint1 : !pdl.type)\n" ++
  "    pdl.replace %2 with %3\n" ++
  "  \x7d\n" ++
  "\x7d\n"

set_option maxRecDepth 8000 in
/-- Names are not injective within a pattern. A variable named `1` gets `%1` in `pre`, and the
first operation gets the positional `%` and `SymbolTable.size()`, also `%1`: the generator returns
`true` with `%1` defined twice. In `x ≠ 1 ⇒ x ^ 1` at width 1, the constant declares `%av1` with
the text `11`, and the `ne` predicate, whose text is `1`, reuses that name. -/
theorem pattern_names_collide :
    generate numberedVarIc numberedVarRule "subSelf" 0 = .ok subSelfPattern ∧
    ((pattern numberedVarIc numberedVarRule "subSelf" 0 0).run initState).map
      (·.2.symbolTable) = .ok [(0, "%1"), (1, "%1"), (2, "%2")] ∧
    ((pattern neTrueIc neTrueRule "neTrue" 0 0).run initState).map (·.2.out) =
      .ok neTruePattern ∧
    ((pattern neTrueIc neTrueRule "neTrue" 0 0).run initState).map (·.2.attributeSSA) =
      .ok ["%av1"] :=
  ⟨by decide, by decide, by decide, by decide⟩

-- ════════════════════════════════════════════════════════════════════════
-- Counting the variations
-- ════════════════════════════════════════════════════════════════════════

/-- `x + x`, `(x + x) + (x + x)`, …: `k` nested self-additions of a variable `x` of width 8, node
`j + 1` adding node `j` to itself. -/
def selfAddChain (k : Nat) : InstContext :=
  ⟨.var 8 "x" :: (List.range k).map fun j => .op .add 8 [j, j]⟩

/-- The outermost addition rewritten to `x`; the generator fails before it reads the RHS. -/
def selfAddRule (k : Nat) : ParsedReplacement := ⟨⟨k, 0⟩, [], []⟩

theorem selfAddChain_get_succ {k j : Nat} (h : j < k) :
    (selfAddChain k).get (j + 1) = .op .add 8 [j, j] := by
  simp [selfAddChain, InstContext.get, h]

theorem selfAddChain_acyclic (k : Nat) : (selfAddChain k).Acyclic := by
  rintro (_ | i) j hj
  · simp [selfAddChain, InstContext.get] at hj
  · by_cases h : i < k
    · rw [selfAddChain_get_succ h] at hj
      simp only [Inst.op_ops, List.mem_cons, List.not_mem_nil, or_false, or_self] at hj
      omega
    · have : (List.range k)[i]? = none := List.getElem?_eq_none (by simp; omega)
      simp [selfAddChain, InstContext.get, this, default, Inst.op, Inst.var] at hj

/-- The count over the tree unfolding doubles at each level: `2 ^ m - 1` below node `m`. -/
theorem getNumOfCommutativeOps_selfAddChain (k : Nat) :
    ∀ m ≤ k, getNumOfCommutativeOps (selfAddChain k) m = 2 ^ m - 1
  | 0, _ => by
    rw [getNumOfCommutativeOps, treeSum_eq _ (selfAddChain_acyclic k)]
    simp [selfAddChain, InstContext.get, arithCommunativeInst]
  | m + 1, hm => by
    have ih := getNumOfCommutativeOps_selfAddChain k m (by omega)
    rw [getNumOfCommutativeOps] at ih ⊢
    rw [treeSum_eq _ (selfAddChain_acyclic k), selfAddChain_get_succ (by omega)]
    simp only [Inst.op_ops, sumBy_cons, sumBy_nil]
    rw [ih]
    have := Nat.one_le_two_pow (n := m)
    simp only [Inst.op_k, arithCommunativeInst, if_true, pow_succ]
    omega

/-- From 31 commutative operations on, `(int)pow(2, n)` is out of range. -/
theorem generate_of_le_commutativeOps {ic : InstContext} {R : ParsedReplacement} {name : String}
    {benefit : Int} (h : 31 ≤ getNumOfCommutativeOps ic R.mapping.lhs) :
    generate ic R name benefit = .error .undefined := by
  simp only [generate, if_pos h]
  rfl

/-- Five nested self-additions already count 31 commutative operations over the tree unfolding,
though the DAG has five: for every `k ≥ 5` the number of variations, `2 ^ (2 ^ k - 1)`, is
converted to `int` out of range, and the generator has no defined result. -/
theorem generate_selfAddChain_undefined (k : Nat) (hk : 5 ≤ k) (name : String) (benefit : Int) :
    getNumOfCommutativeOps (selfAddChain k) k = 2 ^ k - 1 ∧
    generate (selfAddChain k) (selfAddRule k) name benefit = .error .undefined := by
  have hc := getNumOfCommutativeOps_selfAddChain k k le_rfl
  refine ⟨hc, generate_of_le_commutativeOps ?_⟩
  have : 2 ^ 5 ≤ 2 ^ k := Nat.pow_le_pow_right (by decide) hk
  rw [show (selfAddRule k).mapping.lhs = k from rfl, hc]
  omega

theorem generate_selfAddChain_undefined_five : 5 ≤ 5 ∧
    getNumOfCommutativeOps (selfAddChain 5) 5 = 31 ∧
    generate (selfAddChain 5) (selfAddRule 5) "chain" 0 = .error .undefined :=
  ⟨le_rfl, generate_selfAddChain_undefined 5 le_rfl "chain" 0⟩

-- ════════════════════════════════════════════════════════════════════════
-- What a pattern leaves out
-- ════════════════════════════════════════════════════════════════════════

/-- `(x - 128) - 128 ⇒ x` at width `w`. -/
def subSubIc (w : Nat) : InstContext :=
  ⟨[.var w "x", .const (.ofNat w 128), .op .sub w [0, 1], .op .sub w [2, 1]]⟩

def subSubRule : ParsedReplacement := ⟨⟨3, 0⟩, [], []⟩

set_option maxRecDepth 2000 in
/-- At width 8 the two subtractions of 128 wrap around to `x`. -/
theorem subSubIc_valid : (subSubIc 8).ValidUnder [] subSubRule.mapping := by
  intro σ _ _ v hv
  have hl : (subSubIc 8).eval σ 3 = some (((σ 0 % 2 ^ 8 + 2 ^ 8 - 128) % 2 ^ 8 + 2 ^ 8 - 128) % 2 ^ 8) :=
    rfl
  change (subSubIc 8).eval σ 3 = some v at hv
  rw [hl] at hv
  cases hv
  show some (σ 0 % 2 ^ 8) = _
  congr 1
  omega

/-- At width 16 they do not: at `x = 0` the LHS is 65280. -/
theorem subSubIc_invalid : ¬ (subSubIc 16).ValidUnder [] subSubRule.mapping := fun h => by
  have := h (fun _ => 0) (by decide) (by simp [PCsHold]) 65280 rfl
  cases this

/-- `x - 1 ⇒ 0` at width 8, where `x` lies in `[1, 2)`. -/
def decOneIc : InstContext :=
  ⟨[{ Inst.var 8 "x" with range := ⟨.ofNat 8 1, .ofNat 8 2⟩ }, .const (.ofNat 8 1), .op .sub 8 [0, 1],
    .const (.ofNat 8 0)]⟩

/-- The same rule with no fact on `x`. -/
def decOneBareIc : InstContext :=
  ⟨[.var 8 "x", .const (.ofNat 8 1), .op .sub 8 [0, 1], .const (.ofNat 8 0)]⟩

def decOneRule : ParsedReplacement := ⟨⟨2, 3⟩, [], []⟩

/-- Under the range fact `x` is 1, and `x - 1` is 0. -/
theorem decOneIc_valid : decOneIc.ValidUnder [] decOneRule.mapping := by
  intro σ hf _ v hv
  have hx : σ 0 % 2 ^ 8 = 1 := by
    have e : ∀ x, ConstantRange.contains ⟨.ofNat 8 1, .ofNat 8 2⟩ x = decide (1 ≤ x ∧ x < 2) :=
      fun x => by
        simp [ConstantRange.contains, show (APInt.ofNat 8 1 == APInt.ofNat 8 2) = false by decide,
          show (APInt.ofNat 8 1).toNat = 1 from rfl, show (APInt.ofNat 8 2).toNat = 2 from rfl]
    have : ConstantRange.contains ⟨.ofNat 8 1, .ofNat 8 2⟩ (σ 0 % 2 ^ 8) = true :=
      (hf 0 (by decide) rfl).2.2.1
    simp only [e, decide_eq_true_eq] at this
    omega
  have hl : decOneIc.eval σ 2 = some ((σ 0 % 2 ^ 8 + 2 ^ 8 - 1) % 2 ^ 8) := rfl
  change decOneIc.eval σ 2 = some v at hv
  rw [hl, hx] at hv
  cases hv
  rfl

/-- Without it the rule fails at `x = 0`. -/
theorem decOneBareIc_invalid : ¬ decOneBareIc.ValidUnder [] decOneRule.mapping := fun h => by
  have := h (fun _ => 0) (by decide) (by simp [PCsHold]) 255 rfl
  cases this

/-- The pattern for `(x - 128) - 128 ⇒ x`: its type `%type0` has no width. -/
def subSubPattern : String :=
  "pdl.pattern @subSub : benefit(0) \x7b\n" ++
  "  %type0 = pdl.type\n" ++
  "  %x = pdl.operand : %type0\n" ++
  "  %av128 = pdl.attribute = 128\n" ++
  "  %1 = pdl.operation \"arith.constant\" \x7b\"value\" = %av128\x7d -> (%type0 : !pdl.type)\n" ++
  "  %rx = pdl.result 0 of %x\n" ++
  "  %r1 = pdl.result 0 of %1\n" ++
  "  %2 = pdl.operation \"arith.subi\"(%rx, %r1 : !pdl.value, !pdl.value) -> (%type0 : !pdl.type)\n" ++
  "  %r2 = pdl.result 0 of %2\n" ++
  "  %3 = pdl.operation \"arith.subi\"(%r2, %r1 : !pdl.value, !pdl.value) -> (%type0 : !pdl.type)\n" ++
  "  pdl.rewrite %3 \x7b\n" ++
  "    pdl.replace %3 with %x\n" ++
  "  \x7d\n" ++
  "\x7d\n"

/-- The pattern for `x - 1 ⇒ 0`: nothing in it restricts `x`. -/
def decOnePattern : String :=
  "pdl.pattern @decOne : benefit(0) \x7b\n" ++
  "  %type0 = pdl.type\n" ++
  "  %x = pdl.operand : %type0\n" ++
  "  %av1 = pdl.attribute = 1\n" ++
  "  %1 = pdl.operation \"arith.constant\" \x7b\"value\" = %av1\x7d -> (%type0 : !pdl.type)\n" ++
  "  %rx = pdl.result 0 of %x\n" ++
  "  %r1 = pdl.result 0 of %1\n" ++
  "  %2 = pdl.operation \"arith.subi\"(%rx, %r1 : !pdl.value, !pdl.value) -> (%type0 : !pdl.type)\n" ++
  "  pdl.rewrite %2 \x7b\n" ++
  "    %av0 = pdl.attribute = 0\n" ++
  "    %3 = pdl.operation \"arith.constant\" \x7b\"value\" = %av0\x7d -> (%type0 : !pdl.type)\n" ++
  "    pdl.replace %2 with %3\n" ++
  "  \x7d\n" ++
  "\x7d\n"

set_option maxRecDepth 8000 in
/-- The generator returns `true` on `(x - 128) - 128 ⇒ x`, a rule that holds at width 8 only,
and writes the same pattern at width 16, where the rule fails: the pattern's type has no width.
It writes the same pattern for `x - 1 ⇒ 0` with the range fact `x ∈ [1, 2)`, under which the
rule holds, as without it, where the rule fails: no fact reaches the pattern. -/
theorem generate_ignores_width_and_facts :
    generate (subSubIc 8) subSubRule "subSub" 0 = .ok subSubPattern ∧
    generate (subSubIc 16) subSubRule "subSub" 0 = .ok subSubPattern ∧
    (subSubIc 8).ValidUnder [] subSubRule.mapping ∧ ¬ (subSubIc 16).ValidUnder [] subSubRule.mapping ∧
    generate decOneIc decOneRule "decOne" 0 = .ok decOnePattern ∧
    generate decOneBareIc decOneRule "decOne" 0 = .ok decOnePattern ∧
    decOneIc.ValidUnder [] decOneRule.mapping ∧ ¬ decOneBareIc.ValidUnder [] decOneRule.mapping :=
  ⟨by decide, by decide, subSubIc_valid, subSubIc_invalid, by decide, by decide, decOneIc_valid,
    decOneBareIc_invalid⟩

end Souper.Pdl
