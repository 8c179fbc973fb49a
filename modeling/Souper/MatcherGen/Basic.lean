import Souper.Inst.Graph

/-!
# The matcher generator's tables and symbol table (`matcher-gen`)

`matcher-gen` turns each rule into a C++ block for LLVM's `PatternMatch` library: a `match`
call over the LHS that binds names to the matched values, a guard made of `Constraint`s, and a
builder call for the RHS. The names, the guard and the sets the generator consults live in a
`SymbolTable`.

## Main definitions

- `matchOps`, `createOps`, `predNames` — the tables `MatchOps`, `CreateOps`, `PredNames`
- `Constraint` — a conjunct of the generated guard, with the text it prints
- `SymbolTable` — the names bound to each node and the generator's bookkeeping
- `genVarEqConstraints`, `genDomConstraints`, `genVarPropConstraints` — the passes that add the
  guard's conjuncts

## Design notes

A `std::map` or `std::set` keyed by `Inst *` iterates in address order. Nodes are indices here
and the model iterates in index order, over the nodes of the context. In `Syms` a node is a key
exactly when it has names (every insertion pushes one), so the map is a function to name lists
and "not a key" is the empty list. The table's `Vars` field is never written, and is left out.
-/

namespace Souper.MatcherGen

open InstContext

/-- `MatchOps`: the `PatternMatch` matcher of each kind. -/
def matchOps : Kind → Option String
  | .add => some "m_c_Add(" | .sub => some "m_Sub(" | .mul => some "m_c_Mul("
  | .shl => some "m_Shl(" | .lshr => some "m_LShr(" | .ashr => some "m_AShr("
  | .addNSW => some "m_NSWAdd(" | .subNSW => some "m_NSWSub("
  | .mulNSW => some "m_NSWMul(" | .shlNSW => some "m_NSWShl("
  | .addNUW => some "m_NUWAdd(" | .subNUW => some "m_NUWSub("
  | .mulNUW => some "m_NUWMul(" | .shlNUW => some "m_NUWShl("
  | .addNW => some "m_NWAdd(" | .subNW => some "m_NWSub("
  | .mulNW => some "m_NWMul(" | .shlNW => some "m_NWShl("
  | .sdiv => some "m_SDiv(" | .udiv => some "m_UDiv(" | .srem => some "m_SRem("
  | .urem => some "m_URem("
  | .and => some "m_c_And(" | .or => some "m_c_Or(" | .xor => some "m_c_Xor("
  | .eq => some "m_c_ICmp(" | .ne => some "m_c_ICmp(" | .ule => some "m_ICmp("
  | .ult => some "m_ICmp(" | .sle => some "m_ICmp(" | .slt => some "m_ICmp("
  | .sext => some "m_SExt(" | .zext => some "m_ZExt(" | .trunc => some "m_Trunc("
  | .select => some "m_Select(" | .phi => some "m_Phi("
  | _ => none

/-- `CreateOps`: the `IRBuilder` call of each kind. -/
def createOps : Kind → Option String
  | .shl => some "CreateShl(" | .ashr => some "CreateAShr(" | .lshr => some "CreateLShr("
  | .add => some "CreateAdd(" | .mul => some "CreateMul(" | .sub => some "CreateSub("
  | .sdiv => some "CreateSDiv(" | .udiv => some "CreateUDiv(" | .srem => some "CreateSRem("
  | .urem => some "CreateURem("
  | .or => some "CreateOr(" | .and => some "CreateAnd(" | .xor => some "CreateXor("
  | .logb => some "CreateLogB("
  | .eq => some "CreateCmp(ICmpInst::ICMP_EQ, " | .ne => some "CreateCmp(ICmpInst::ICMP_NE, "
  | .ule => some "CreateCmp(ICmpInst::ICMP_ULE, " | .ult => some "CreateCmp(ICmpInst::ICMP_ULT, "
  | .sle => some "CreateCmp(ICmpInst::ICMP_SLE, " | .slt => some "CreateCmp(ICmpInst::ICMP_SLT, "
  | .trunc => some "CreateTrunc(" | .sext => some "CreateSExt(" | .zext => some "CreateZExt("
  | .select => some "CreateSelect("
  | .fshl => some "CreateFShl(" | .fshr => some "CreateFShr(" | .bswap => some "CreateBSwap("
  | .const => some "dummy"
  | _ => none

/-- `PredNames`: the comparison kinds and their `ICmpInst` predicates. -/
def predNames : Kind → Option String
  | .eq => some "ICmpInst::ICMP_EQ" | .ne => some "ICmpInst::ICMP_NE"
  | .ule => some "ICmpInst::ICMP_ULE" | .ult => some "ICmpInst::ICMP_ULT"
  | .sle => some "ICmpInst::ICMP_SLE" | .slt => some "ICmpInst::ICMP_SLT"
  | _ => none

/-- A conjunct of the guard of a generated matcher (`VarEq`, `PredEq`, `WidthEq`, `DomCheck`,
`VC`). -/
inductive Constraint where
  | varEq (lhs rhs : String)
  | predEq (p k : String)
  | widthEq (name : String) (w : Nat)
  | domCheck (name : String)
  | vc (cons name : String)
  deriving DecidableEq, Repr

/-- `Constraint::print`. -/
def Constraint.print : Constraint → String
  | .varEq l r => l ++ " == " ++ r
  | .predEq p k => p ++ " == " ++ k
  | .widthEq n w => "util::check_width(" ++ n ++ "," ++ toString w ++ ")"
  | .domCheck n => "util::dc(DT, I, " ++ n ++ ")"
  | .vc c n => "util::" ++ c ++ "(" ++ n ++ ")"

/-- Why a generator stops. -/
inductive GenError where
  /-- `Unimplemented matcher:` or `Unimplemented creator:` with the kind: the table has no
  entry, and the generator returns `false`. -/
  | unimplemented (what : String) (K : Kind)
  /-- No defined behaviour: `back()` or `pop_back()` of an empty `std::vector`, `at()` of a
  missing key, or a walk of a cyclic graph, which does not end. -/
  | undefined
  deriving DecidableEq, Repr

/-- `std::vector::back`. -/
def back (l : List String) : Except GenError String :=
  match l.getLast? with
  | some n => .ok n
  | none => .error .undefined

/-- A set of nodes, as its membership test. -/
def mark (p : Nat → Bool) (i : Nat) : Nat → Bool := fun j => j == i || p j

@[simp] theorem mark_apply (p : Nat → Bool) (i j : Nat) : mark p i j = (j == i || p j) := rfl

/-- The symbol table of one rule (`SymbolTable`). -/
structure SymbolTable where
  /-- The names bound to each node; a node is a key when it has one. -/
  names : Nat → List String
  constraints : List Constraint
  /-- `Preds`: the name of each comparison of the LHS. -/
  preds : Nat → Option String
  /-- `Consts`: the constants of the LHS. -/
  consts : Nat → Bool
  /-- `ConstRefs`: the constants of the RHS. -/
  constRefs : Nat → Bool
  /-- `Used`: the LHS nodes the RHS reaches. -/
  used : Nat → Bool

namespace SymbolTable

/-- A default-constructed table. -/
def empty : SymbolTable := ⟨fun _ => [], [], fun _ => none, fun _ => false, fun _ => false, fun _ => false⟩

/-- `Syms[I].push_back(n)`. -/
def pushName (s : SymbolTable) (I : Nat) (n : String) : SymbolTable :=
  { s with names := fun j => if j = I then s.names I ++ [n] else s.names j }

/-- `Syms[I].pop_back()`. -/
def popBack (s : SymbolTable) (I : Nat) : Except GenError SymbolTable :=
  if s.names I = [] then .error .undefined
  else .ok { s with names := fun j => if j = I then (s.names I).dropLast else s.names j }

@[simp] theorem names_pushName (s : SymbolTable) (I j : Nat) (n : String) :
    (s.pushName I n).names j = if j = I then s.names I ++ [n] else s.names j := rfl

@[simp] theorem constraints_pushName (s : SymbolTable) (I : Nat) (n : String) :
    (s.pushName I n).constraints = s.constraints := rfl

@[simp] theorem used_pushName (s : SymbolTable) (I : Nat) (n : String) :
    (s.pushName I n).used = s.used := rfl

theorem popBack_eq_ok {s s' : SymbolTable} {I : Nat} (h : s.popBack I = .ok s') :
    s.names I ≠ [] ∧ s' = { s with names := fun j => if j = I then (s.names I).dropLast else s.names j } := by
  unfold popBack at h
  split at h
  · cases h
  · exact ⟨‹_›, (Except.ok.inj h).symm⟩

variable (ic : InstContext)

/-- `RegisterPred`: a comparison gets the next predicate name `P<n>` and the constraint that
the matched predicate is its kind's. -/
def registerPred (s : SymbolTable) (I : Nat) : SymbolTable :=
  match predNames (ic.get I).k with
  | none => s
  | some k =>
    if (s.preds I).isSome then s
    else
      let name := "P" ++ toString ((List.range ic.size).filter fun j => (s.preds j).isSome).length
      { s with
        preds := fun j => if j = I then some name else s.preds j
        constraints := s.constraints ++ [.predEq name k] }

@[simp] theorem names_registerPred (s : SymbolTable) (I : Nat) :
    (s.registerPred ic I).names = s.names := by
  unfold registerPred; split <;> [rfl; split <;> rfl]

@[simp] theorem used_registerPred (s : SymbolTable) (I : Nat) :
    (s.registerPred ic I).used = s.used := by
  unfold registerPred; split <;> [rfl; split <;> rfl]

/-- `PrintPreds`: the declaration of the predicate names. -/
def printPreds (s : SymbolTable) : String :=
  let ps := (List.range ic.size).filterMap s.preds
  if ps.isEmpty then "" else "ICmpInst::Predicate " ++ ", ".intercalate ps ++ ";\n"

/-- `GenVarEqConstraints`: every further name of a node equals its first. -/
def genVarEqConstraints (s : SymbolTable) : SymbolTable :=
  { s with
    constraints := s.constraints ++ (List.range ic.size).flatMap fun j =>
      match s.names j with
      | [] => []
      | n :: ns => ns.map (.varEq n) }

/-- Every further name of a node is asked equal to its first. -/
theorem varEq_mem_genVarEqConstraints (s : SymbolTable) {v : Nat} (hv : v < ic.size)
    {n m : String} {ns : List String} (h : s.names v = n :: ns) (hm : m ∈ ns) :
    Constraint.varEq n m ∈ (genVarEqConstraints ic s).constraints := by
  simp only [genVarEqConstraints, List.mem_append, List.mem_flatMap, List.mem_range]
  exact .inr ⟨v, hv, by rw [h]; exact List.mem_map_of_mem _ hm⟩

/-- `GenDomConstraints`, with its function-static `Visited` set passed in and returned: the set
lives for the whole run of `matcher-gen`, across rules. It walks the RHS through the operands
that have names, adding a dominance check for each one not visited yet. -/
def genDomConstraints : Nat → Nat → (Nat → Bool) × SymbolTable → (Nat → Bool) × SymbolTable
  | 0, _, vs => vs
  | fuel + 1, I, (visited, s) =>
    (ic.get I).ops.foldl (fun (vs : (Nat → Bool) × SymbolTable) op =>
      if (ic.get op).k = .const then vs
      else match vs.2.names op with
        | [] => vs
        | n :: _ =>
          if vs.1 op then vs
          else genDomConstraints fuel op (vs.1, { vs.2 with constraints := vs.2.constraints ++ [.domCheck n] }))
      (mark visited I, s)

/-- The guard conjuncts `GenVarPropConstraints` makes for one variable named `name`: its width,
and the four boolean facts. -/
def varPropConstraints (I : Inst) (name : String) : List Constraint :=
  [.widthEq name I.width] ++ (if I.powOfTwo then [.vc "pow2" name] else []) ++
    (if I.nonZero then [.vc "nz" name] else []) ++ (if I.nonNegative then [.vc "nn" name] else []) ++
    (if I.negative then [.vc "neg" name] else [])

/-- `GenVarPropConstraints`: for each variable of the LHS, under its first name
(`this->at(V)[0]`). -/
def genVarPropConstraints (s : SymbolTable) (lhs : Nat) : Except GenError SymbolTable :=
  (findVars ic lhs).foldlM (fun (s : SymbolTable) v =>
    match s.names v with
    | [] => .error .undefined
    | n :: _ => .ok { s with constraints := s.constraints ++ varPropConstraints (ic.get v) n }) s

/-- `PrintConstraintsPre`: the guard's opening. -/
def printConstraintsPre (cs : List Constraint) : String :=
  if cs.isEmpty then "" else "if (" ++ " && ".intercalate (cs.map Constraint.print) ++ ") \x7b\n"

/-- `PrintConstraintsPost`: the guard's closing brace. -/
def printConstraintsPost (cs : List Constraint) : String :=
  if cs.isEmpty then "" else "\x7d\n"

/-- `PrintConstDecls`: a constant of the RHS that is not one of the LHS gets a declaration
`C<n>` and that name. `Val` is printed signed. -/
def printConstDecls (s : SymbolTable) : String × SymbolTable :=
  let cs := (List.range ic.size).filter fun c => s.constRefs c && !s.consts c
  (cs.enum.foldl (fun acc (k, c) =>
      (acc.1 ++ "  auto C" ++ toString k ++ " = C(" ++ toString (ic.get c).val.width ++ ", " ++
        toString (ic.get c).val.bits.toInt ++ ", B);\n", acc.2.pushName c ("C" ++ toString k)))
    ("", s))

end SymbolTable

end Souper.MatcherGen
