import Souper.Inst.Graph

/-!
# The infix printer (`InfixPrinter`)

`InfixPrinter` writes a rule in infix notation: its path conditions, `|=`, the LHS, `=>` and the
RHS. A node used more than once (`UseCount`) is meant to be printed once, as a binding
`let varN = …;` written to the stream before the first expression that uses it, and to be called
`varN` (`Syms`) from then on.

## Main definitions

- `InfixEnv` — what the printer reads from outside src/
- `printInst`, `printPCs` — the printing methods
- `infixPrint` — `InfixPrinter::operator()`

## Main results

- `printInst_names_unbound` — a shared node that takes the constant branch, the variable branch
  or the `x ^ -1` rewrite is named in `Syms` with no binding written: later uses print a name
  that nothing defines

## Design notes

`printInst` writes the bindings of shared nodes to the stream `S` as it goes, and returns the text
of its node; here the stream is the `out` field of the state. In the two-operand case the order
of the two calls is `InfixEnv.rightFirst`: C++ leaves the order of the operands of `+`
unspecified, and the theorems hold for both.
-/

namespace Souper.Infix

open InstContext

/-- What `InfixPrinter` reads from outside src/: `UseCount` (filled by `countUses`),
`WidthConstraints` (by `registerWidthConstraints`), `ShowImplicitWidths`, the operand order
(`Inst::orderedOps`, then the `std::sort` of a commutative kind's operands), and the texts of
`Inst::getKindName`, `Inst::getKnownBitsString` and `Inst::getDemandedBitsString`. -/
structure InfixEnv where
  useCount : Nat → Nat
  widthConstraints : Nat → Option Nat
  showImplicitWidths : Bool
  orderedOps : InstContext → Nat → List Nat
  getKindName : Kind → String
  getKnownBitsString : APInt → APInt → String
  getDemandedBitsString : APInt → String
  /-- Whether the two `printInst` calls of a two-operand node run right to left: C++ does not
  sequence the operands of `+`, and GCC evaluates the right one first. -/
  rightFirst : Bool

/-- The printer's fields `VisitedVars`, `Syms` and `varnum`, and the text written to the stream. -/
structure InfixState where
  visitedVars : List String
  syms : List (Nat × String)
  varnum : Nat
  out : String
  deriving DecidableEq, Repr

/-- The constructor is not under src/: the fields start empty and `varnum` at 0. -/
def InfixState.init : InfixState := ⟨[], [], 0, ""⟩

/-- The printer's methods: a state over its fields; `none` where a walk does not end. -/
abbrev InfixM := StateT InfixState Option

/-- `S << s`. -/
def emit (s : String) : InfixM Unit := modify fun st => { st with out := st.out ++ s }

/-- The operator of each kind; another kind is written by its name. -/
def opText (getKindName : Kind → String) : Kind → String
  | .add => "+" | .addNSW => "+nsw" | .addNUW => "+nuw" | .addNW => "+nw"
  | .sub => "-" | .subNSW => "-nsw" | .subNUW => "-nuw" | .subNW => "-nw"
  | .mul => "*" | .mulNSW => "*nsw" | .mulNUW => "*nuw" | .mulNW => "*nw"
  | .udiv => "/u" | .sdiv => "/s" | .urem => "%u" | .srem => "%s"
  | .and => "&" | .or => "|" | .xor => "^"
  | .shl => "<<" | .shlNSW => "<<nsw" | .shlNUW => "<<nuw" | .shlNW => "<<nw"
  | .lshr => ">>l" | .ashr => ">>a"
  | .eq => "==" | .ne => "!=" | .ult => "<u" | .slt => "<s" | .ule => "<=u" | .sle => "<=s"
  | .knownOnesP => "<<=1" | .knownZerosP => "<<=0"
  | K => getKindName K

/-- `llvm::toString(V, Radix, /*Signed=*/false)`: the digits of the unsigned value, upper case. -/
def toStringUnsigned (radix : Nat) (a : APInt) : String :=
  ⟨(Nat.toDigits radix a.toNat).map Char.toUpper⟩

/-- A constant: in decimal up to 16, in hexadecimal above. -/
def constText (a : APInt) : String :=
  if a.toNat ≤ 16 then toStringUnsigned 10 a else "0x" ++ toStringUnsigned 16 a

/-- A variable's printed name: `x` before a leading digit, `C` for a `symconst_`. -/
def varName (n : String) : String :=
  if n.startsWith "symconst_" then "C" ++ n.drop 9
  else if (n.get 0).isDigit then "x" ++ n else n

/-- The width after a variable's first occurrence: its width constraint, or its own width if
implicit widths are shown. -/
def widthText (env : InfixEnv) (ic : InstContext) (I : Nat) : String :=
  match env.widthConstraints I with
  | some w => ":i" ++ toString w
  | none => if env.showImplicitWidths then ":i" ++ toString (ic.get I).width else ""

/-- The facts after a variable's first occurrence; a range bound prints signed, as
`operator<<` prints an `APInt`. -/
def factsText (env : InfixEnv) (V : Inst) : String :=
  (if V.knownZeros.toNat ≠ 0 ∨ V.knownOnes.toNat ≠ 0 then
    " (knownBits=" ++ env.getKnownBitsString V.knownZeros V.knownOnes ++ ")" else "") ++
  (if V.nonNegative then " (nonNegative)" else "") ++
  (if V.negative then " (negative)" else "") ++
  (if V.nonZero then " (nonZero)" else "") ++
  (if V.powOfTwo then " (powerOfTwo)" else "") ++
  (if 1 < V.numSignBits then " (signBits=" ++ toString V.numSignBits ++ ")" else "") ++
  (if !V.range.isFullSet then
    " (range=[" ++ toString V.range.lower.bits.toInt ++ "," ++ toString V.range.upper.bits.toInt ++
      "))" else "")

/-- The `x ^ -1 ⇒ ~x` rewrite: the other operand of an `Xor` with an all-ones constant operand,
the second operand tested first. An `Xor` has two operands. -/
def notOperand (ic : InstContext) (I : Nat) : Option Nat :=
  match (ic.get I).k, (ic.get I).ops with
  | .xor, [a, b] =>
    if (ic.get b).k = .const ∧ (ic.get b).val.isAllOnesValue then some a
    else if (ic.get a).k = .const ∧ (ic.get a).val.isAllOnesValue then some b
    else none
  | _, _ => none

section Print

variable (env : InfixEnv) (ic : InstContext)

/-- The texts of the two operands of a two-operand node, printed in the order
`env.rightFirst` gives. -/
def printPair (print : Nat → InfixM String) (a b : Nat) : InfixM (String × String) :=
  if env.rightFirst then do
    let s₂ ← print b
    let s₁ ← print a
    pure (s₁, s₂)
  else do
    let s₁ ← print a
    let s₂ ← print b
    pure (s₁, s₂)

/-- `printInst`: the text of node `I`, after writing the bindings of the shared nodes below it.
A shared node not named yet is named `varN` on entry, before any branch is taken; its binding
`let varN = …;` is written only where the operation branch completes. The recursion is bounded
by `fuel`. -/
def printInst : Nat → Nat → Bool → InfixM String
  | 0, _, _ => failure
  | fuel + 1, I, root => do
    let st ← get
    match st.syms.lookup I with
    | some n => pure n
    | none =>
      let shared := decide (1 < env.useCount I)
      let os := if shared then "let var" ++ toString st.varnum ++ " = " else ""
      if shared then
        set { st with
          syms := st.syms ++ [(I, "var" ++ toString st.varnum)], varnum := st.varnum + 1 }
      match notOperand ic I with
      | some o => pure ("~" ++ (← printInst fuel o false))
      | none =>
        let J := ic.get I
        if J.k = .const then pure (constText J.val)
        else if J.k = .var then do
          if J.name ∈ (← get).visitedVars then pure (varName J.name)
          else
            modify fun st => { st with visitedVars := st.visitedVars ++ [J.name] }
            pure (varName J.name ++ widthText env ic I ++ factsText env J)
        else do
          let op := opText env.getKindName J.k
          let result ← match env.orderedOps ic I with
            | [a, b] => do
              let (s₁, s₂) ← printPair env (fun o => printInst fuel o false) a b
              let meat := s₁ ++ " " ++ op ++ " " ++ s₂
              pure (if root then meat else "(" ++ meat ++ ")")
            | [a] => do pure (op ++ "(" ++ (← printInst fuel a false) ++ ")")
            | ops => do
              let parts ← ops.mapM fun o => printInst fuel o false
              let ret := ((if root then "" else "(") ++ op ++ " " ++
                String.join (parts.map (· ++ " "))).dropRightWhile (· = ' ')
              pure (if root then ret else ret ++ ")")
          if shared then
            emit (os ++ result ++ ";\n")
            pure (((← get).syms.lookup I).getD "")
          else pure result

/-- `printPCs`: the path conditions joined by `&&`; one compared with 0 is negated, one compared
with 1 is printed alone. -/
def printPCs (pcs : List InstMapping) : InfixM Unit :=
  pcs.enum.forM fun (k, pc) => do
    if k ≠ 0 then emit " && \n"
    if (ic.get pc.rhs).k = .const ∧ (ic.get pc.rhs).val.toNat = 0 then
      emit "!("
      emit ((← printInst env ic (pc.lhs + 1) pc.lhs true) ++ ")")
    else if (ic.get pc.rhs).k = .const ∧ (ic.get pc.rhs).val.toNat = 1 then
      emit (← printInst env ic (pc.lhs + 1) pc.lhs true)
    else
      emit (← printInst env ic (pc.lhs + 1) pc.lhs true)
      emit " == "
      emit (← printInst env ic (pc.rhs + 1) pc.rhs false)

/-- `InfixPrinter::operator()`: the path conditions, the LHS with its demanded bits, and the
RHS. -/
def infixPrint (R : ParsedReplacement) : InfixM Unit := do
  if !R.pcs.isEmpty then
    printPCs env ic R.pcs
    emit "\n  |= \n"
  emit (← printInst env ic (R.mapping.lhs + 1) R.mapping.lhs true)
  if !(ic.get R.mapping.lhs).demandedBits.isAllOnesValue then
    emit (" (demandedBits=" ++ env.getDemandedBitsString (ic.get R.mapping.lhs).demandedBits ++
      ")")
  emit "\n  =>\n"
  emit ((← printInst env ic (R.mapping.rhs + 1) R.mapping.rhs true) ++ "\n")

-- ════════════════════════════════════════════════════════════════════════
-- The branches that name a node without binding it
-- ════════════════════════════════════════════════════════════════════════

theorem lookup_append_of_lookup_eq_none {l : List (Nat × String)} {k : Nat}
    (h : l.lookup k = none) (v : String) : (l ++ [(k, v)]).lookup k = some v := by
  rw [List.lookup_append, h]
  simp

variable {env ic} {fuel I : Nat} {root : Bool} {st : InfixState}

/-- A shared constant not named yet is named, and printed as its value: nothing is written. -/
theorem printInst_const (hI : st.syms.lookup I = none) (hu : 1 < env.useCount I)
    (hk : (ic.get I).k = .const) :
    printInst env ic (fuel + 1) I root st = some (constText (ic.get I).val,
      { st with syms := st.syms ++ [(I, "var" ++ toString st.varnum)], varnum := st.varnum + 1 }) := by
  have hn : notOperand ic I = none := by simp [notOperand, hk]
  simp [printInst, hI, hu, hn, hk, bind, StateT.bind, MonadState.get, StateT.get, getThe,
    MonadStateOf.get, set, StateT.set, pure, StateT.pure, Functor.map, StateT.map]

/-- A shared variable not named yet is named, and printed by its name, with its width and facts at
its first occurrence: nothing is written. -/
theorem printInst_var (hI : st.syms.lookup I = none) (hu : 1 < env.useCount I)
    (hk : (ic.get I).k = .var) :
    printInst env ic (fuel + 1) I root st =
      if (ic.get I).name ∈ st.visitedVars then some (varName (ic.get I).name,
        { st with syms := st.syms ++ [(I, "var" ++ toString st.varnum)], varnum := st.varnum + 1 })
      else some (varName (ic.get I).name ++ widthText env ic I ++ factsText env (ic.get I),
        { st with
          visitedVars := st.visitedVars ++ [(ic.get I).name],
          syms := st.syms ++ [(I, "var" ++ toString st.varnum)], varnum := st.varnum + 1 }) := by
  have hn : notOperand ic I = none := by simp [notOperand, hk]
  split_ifs with hv <;>
    simp [printInst, hI, hu, hn, hk, hv, bind, StateT.bind, MonadState.get, StateT.get, getThe,
      MonadStateOf.get, set, StateT.set, pure, StateT.pure, Functor.map, StateT.map, modify,
      modifyGet, MonadStateOf.modifyGet, StateT.modifyGet]

end Print

/-- `~x + ~x ⇒ ~x * 2` at width 8: the node `x ^ -1` is shared by both sides. -/
def sharedNotIc : InstContext :=
  ⟨[.var 8 "x", .const (.allOnes 8), .op .xor 8 [0, 1], .op .add 8 [2, 2], .const (.ofNat 8 2),
    .op .mul 8 [2, 4]]⟩

def sharedNotRule : ParsedReplacement := ⟨⟨3, 5⟩, [], []⟩

/-- Widths shown, operands in order and printed left to right, and `UseCount` giving the `x ^ -1`
node its three uses. -/
def sharedNotEnv : InfixEnv where
  useCount i := if i = 2 then 3 else 1
  widthConstraints _ := none
  showImplicitWidths := true
  orderedOps ic i := (ic.get i).ops
  getKindName _ := ""
  getKnownBitsString _ _ := ""
  getDemandedBitsString _ := ""
  rightFirst := false

/-- A name can be returned that no binding defines. Whatever the rule and the use counts, a shared
constant or variable not named yet is named `varN` on entry and printed without writing anything,
so every later use prints `varN`; and on `~x + ~x ⇒ ~x * 2` the shared `x ^ -1` takes the
rewrite to `~x` after it is named, so the printer writes `~x:i8 + var0` and `var0 * 2` and never
`let var0 = …;`. -/
theorem printInst_names_unbound :
    (∀ (env : InfixEnv) (ic : InstContext) (fuel I : Nat) (root : Bool) (st : InfixState),
      st.syms.lookup I = none → 1 < env.useCount I → (ic.get I).k = .const ∨ (ic.get I).k = .var →
      ∃ s st', printInst env ic (fuel + 1) I root st = some (s, st') ∧
        st'.syms.lookup I = some ("var" ++ toString st.varnum) ∧ st'.out = st.out) ∧
    (infixPrint sharedNotEnv sharedNotIc sharedNotRule).run InfixState.init =
      some ((), ⟨["x"], [(2, "var0")], 1, "~x:i8 + var0\n  =>\nvar0 * 2\n"⟩) := by
  refine ⟨fun env ic fuel I root st hI hu hk => ?_, by decide⟩
  rcases hk with hk | hk
  · exact ⟨_, _, printInst_const hI hu hk, lookup_append_of_lookup_eq_none hI _, rfl⟩
  · rw [printInst_var hI hu hk]
    split_ifs <;> exact ⟨_, _, rfl, lookup_append_of_lookup_eq_none hI _, rfl⟩

theorem printInst_names_unbound_allOnes : 1 < 2 ∧
    ∃ s st', printInst { sharedNotEnv with useCount := fun _ => 2 } sharedNotIc 1 1 true
        InfixState.init = some (s, st') ∧
      st'.syms.lookup 1 = some ("var" ++ toString InfixState.init.varnum) ∧
      st'.out = InfixState.init.out :=
  ⟨by decide, printInst_names_unbound.1 _ _ 0 1 true _ rfl (by decide) (.inl rfl)⟩

end Souper.Infix
