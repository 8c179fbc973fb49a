import Souper.Inst.Copy

/-!
# The generalizer's collaborators

`generalize` reads one rule at a time and runs a selection of actions on it. Everything it asks
of the SMT side goes through a `Solver`: a validity check, and a search for sufficient
preconditions over the known-bits and constant-range lattices. The solver is external, so it is
a parameter of every procedure that calls it, with no assumption beyond its type.

## Main definitions

- `Options` — the command-line options the modelled actions read, with their defaults
- `ValidityAnswer`, `PreconditionAnswer`, `Solver`
-/

namespace Souper.Generalize

/-- The `cl::opt` flags of `generalize.cpp` that a modelled action reads. -/
structure Options where
  reduce : Bool := false
  reducePrintAll : Bool := false
  symbolizeConstant : Bool := false
  symbolizeNumInsts : Nat := 1
  symbolizeNoDFP : Bool := false
  fixIt : Bool := false
  generalizeWidth : Bool := false
  deriving DecidableEq, Repr

/-- What a call of `Solver::isValid` leaves behind: the returned `std::error_code` (`none` for
success) and the value of the caller's `bool Valid`. After an error `Valid` holds whatever the
uninitialized local held, so it is unconstrained. -/
structure ValidityAnswer where
  ec : Option String
  valid : Bool
  deriving DecidableEq, Repr

/-- `llvm::KnownBits`: bits known to be zero and bits known to be one. -/
structure KnownBits where
  zero : APInt
  one : APInt
  deriving DecidableEq, Repr

/-- What `Solver::abstractPrecondition` fills in: `FoundWP`, and the alternative known-bits and
constant-range preconditions, each a map from variable to fact in key order. -/
structure PreconditionAnswer where
  foundWP : Bool
  kbResults : List (List (Nat × KnownBits))
  crResults : List (List (Nat × ConstantRange))
  deriving DecidableEq, Repr

/-- The solver capability, queried with the context, the block path conditions, the path
conditions and the mapping. -/
structure Solver where
  isValid : InstContext → List BlockPCMapping → List InstMapping → InstMapping → ValidityAnswer
  abstractPrecondition :
    InstContext → List BlockPCMapping → List InstMapping → InstMapping → PreconditionAnswer

end Souper.Generalize
