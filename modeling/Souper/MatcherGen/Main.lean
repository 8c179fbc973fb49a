import Mathlib.Tactic.IntervalCases
import Souper.Inst.Eval
import Souper.MatcherGen.Symbols

/-!
# A rule's matcher and the generator's main loop (`GenMatcher`, `main`)

`GenMatcher` writes one rule's block: the declarations of the names, the `match` over the LHS,
the guard, and the return of the RHS, either a name bound by the match, a constant, or a builder
call. `main` drops some rules (path conditions under `-ignore-pcs`, dataflow facts under
`-ignore-df`, an LHS equal to its RHS), opens an opcode test for each run of rules with one LHS
kind, and prints each matcher with its number.

## Main definitions

- `genRHSCreator` — `GenRHSCreator`
- `genMatcher` — `GenMatcher`, with the function-static `Visited` set of `GenDomConstraints`
  threaded through the run
- `RuleSort` — `std::sort` of the rules by LHS kind, bound only by its contract
- `ignored`, `mainStep`, `main` — `main` after parsing

## Main results

- `main_closes_unopened_block` — when the filters skip every rule, `main` writes a lone `}`
- `main_emits_unguarded_range` — a matcher is emitted whose guard drops the variable's range
- `genMatcher_drops_dominance_check` — a matcher depends on the rules written before it
- `genMatcher_noUB`, `main_isSome` — over a well-formed context the generator has no undefined
  behaviour, whatever the rules, their order and the options, as long as `varnum` does not overflow

## Design notes

`ParsedReplacement::print` and `Inst::getKindName` are not under src/; they are parameters. So is
the sort: `std::sort` is not stable, and the theorems hold for every order its contract admits.
The `FOUND A CONSTEXPR` diagnostic of `GenLHSMatcher` is left out of `llvm::errs`.
-/

namespace Souper.MatcherGen

open InstContext SymbolTable

variable (ic : InstContext)

/-- `GenRHSCreator`, with its recursion bounded by `fuel`. An operand that has a name is used by
its first name; any other is built. -/
def genRHSCreator : Nat → Nat → SymbolTable → Except GenError String
  | 0, _, _ => .error .undefined
  | fuel + 1, I, s => do
    let op ← (createOps (ic.get I).k).elim (.error (.unimplemented "creator" (ic.get I).k)) .ok
    let args ← (ic.get I).ops.mapM fun c =>
      match s.names c with
      | n :: _ => .ok n
      | [] => genRHSCreator fuel c s
    let w := if (ic.get I).k = .trunc ∨ (ic.get I).k = .sext ∨ (ic.get I).k = .zext then
      ", T(" ++ toString (ic.get I).width ++ ", B)" else ""
    pure ("B->" ++ op ++ ", ".intercalate args ++ w ++ ")")

/-- The return statement of a matcher: the RHS's first name if it has one, a constant, or a
builder call. -/
def genReturn (s : SymbolTable) (rhs : Nat) : Except GenError String :=
  match s.names rhs with
  | n :: _ => .ok ("  return " ++ n ++ ";")
  | [] =>
    if (ic.get rhs).k = .const then
      .ok ("  APInt Result(" ++ toString (ic.get rhs).width ++ ", " ++
        toString (ic.get rhs).val.bits.toInt ++ ");\n" ++
        "  return ConstantInt::get(TheContext, Result);")
    else (genRHSCreator ic (rhs + 1) rhs s).map fun t => "  return " ++ t ++ ";"

/-- The table `GenMatcher` prints its guard from: the names of `InitSymbolTable` with the
constraints of the three passes, and the `Visited` set after them. -/
def matcherSymbols (visited : Nat → Bool) (R : ParsedReplacement) (syms : SymbolTable) :
    Except GenError ((Nat → Bool) × SymbolTable) :=
  (genVarPropConstraints ic (genVarEqConstraints ic syms) R.mapping.lhs).map fun s =>
    genDomConstraints ic (R.mapping.rhs + 1) R.mapping.rhs (visited, s)

/-- `GenMatcher`: the set `Visited` after the call, and the text of the rule's block. `Visited`
changes only once the LHS is matched. -/
def genMatcher (visited : Nat → Bool) (R : ParsedReplacement) (optID : Nat) :
    (Nat → Bool) × Except GenError String :=
  match initSymbolTable ic R.mapping.lhs R.mapping.rhs with
  | none => (visited, .error .undefined)
  | some (decls, syms) =>
    match genLHSMatcher ic (R.mapping.lhs + 1) R.mapping.lhs syms with
    | .error e => (visited, .error e)
    | .ok (lhsText, _) =>
      match matcherSymbols ic visited R syms with
      | .error e => (visited, .error e)
      | .ok (visited', syms₂) =>
        (visited', (genReturn ic (printConstDecls ic syms₂).2 R.mapping.rhs).map fun ret =>
          "\x7b\n" ++ decls ++ "if (match(I, " ++ lhsText ++ ")) \x7b\n" ++
            printConstraintsPre syms₂.constraints ++ "  St.hit(" ++ toString optID ++ ");\n" ++
            (printConstDecls ic syms₂).1 ++ ret ++ "\n\x7d\n\x7d" ++
            printConstraintsPost syms₂.constraints)

/-- The command-line options `main` reads: `-ignore-pcs`, `-ignore-df` (both on by default),
and the optimization numbers of `-listfile`. -/
structure Options where
  ignorePCs : Bool := true
  ignoreDF : Bool := true
  optnumbers : List Nat := []

/-- The rules `main` skips before generating: path conditions under `-ignore-pcs`; an LHS that is
its RHS; under `-ignore-df`, a root whose demanded bits are not all ones, or a variable of either
side with known bits. -/
def ignored (opts : Options) (R : ParsedReplacement) : Bool :=
  let L := ic.get R.mapping.lhs
  let hasKnownBits (V : Inst) : Bool :=
    (V.knownOnes.width == V.width && V.knownOnes.toNat != 0) ||
      (V.knownZeros.width == V.width && V.knownZeros.toNat != 0)
  (opts.ignorePCs && !R.pcs.isEmpty) || R.mapping.lhs == R.mapping.rhs ||
    (opts.ignoreDF &&
      ((L.demandedBits.width == L.width && !L.demandedBits.isAllOnesValue) ||
        (findVars ic R.mapping.lhs ++ findVars ic R.mapping.rhs).any fun v => hasKnownBits (ic.get v)))

/-- The opcode test `main` opens for a run of rules whose LHS has kind `K`. -/
def kindCheck : Kind → String
  | .addNW | .addNUW | .addNSW | .add => "I->getOpcode() == Instruction::Add"
  | .subNW | .subNUW | .subNSW | .sub => "I->getOpcode() == Instruction::Sub"
  | .mulNW | .mulNUW | .mulNSW | .mul => "I->getOpcode() == Instruction::Mul"
  | .shlNW | .shlNUW | .shlNSW | .shl => "I->getOpcode() == Instruction::Shl"
  | .and => "I->getOpcode() == Instruction::And"
  | .or => "I->getOpcode() == Instruction::Or"
  | .xor => "I->getOpcode() == Instruction::Xor"
  | .srem => "I->getOpcode() == Instruction::SRem"
  | .urem => "I->getOpcode() == Instruction::URem"
  | .sdiv => "I->getOpcode() == Instruction::SDiv"
  | .udiv => "I->getOpcode() == Instruction::UDiv"
  | .zext => "I->getOpcode() == Instruction::ZExt"
  | .sext => "I->getOpcode() == Instruction::SExt"
  | .trunc => "I->getOpcode() == Instruction::Trunc"
  | .select => "I->getOpcode() == Instruction::Select"
  | .phi => "isa<PHINode>(I)"
  | .eq | .ne | .ult | .slt | .ule | .sle => "I->getOpcode() == Instruction::ICmp"
  | _ => "true"

/-- `std::sort` of the rules by a key, bound only by its contract: a permutation of the rules, in
ascending order of key. `std::sort` is not stable, so the order of rules of equal key is the
library's; the sort is a parameter of the model. -/
structure RuleSort where
  sort : (ParsedReplacement → Nat) → List ParsedReplacement → List ParsedReplacement
  perm : ∀ key l, (sort key l).Perm l
  sorted : ∀ key l, (sort key l).Sorted fun A B => key A ≤ key B

/-- The order libstdc++'s `std::sort` gives fewer than 17 rules, which it sorts by insertion:
rules of equal key keep their order. -/
def insertionRuleSort : RuleSort where
  sort key l := l.insertionSort fun A B => key A ≤ key B
  perm _ l := List.perm_insertionSort _ l
  sorted key l :=
    haveI : IsTotal ParsedReplacement fun A B => key A ≤ key B :=
      ⟨fun A B => le_total (key A) (key B)⟩
    haveI : IsTrans ParsedReplacement fun A B => key A ≤ key B :=
      ⟨fun _ _ _ h₁ h₂ => h₁.trans h₂⟩
    List.sorted_insertionSort _ l

/-- The key of `main`'s comparator `A.Mapping.LHS->K < B.Mapping.LHS->K`: the position of the
LHS's kind in `Inst::Kind`. -/
def lhsKindKey (R : ParsedReplacement) : Nat := (ic.get R.mapping.lhs).k.toCtorIdx

/-- The state of `main`'s loop: `Visited`, `optnumber`, `Last`, `first`, and the two streams. -/
structure MainState where
  visited : Nat → Bool
  optnumber : Nat
  last : Kind
  first : Bool
  outs : String
  errs : String

section Main

variable (opts : Options) (print : InstContext → ParsedReplacement → String)
  (getKindName : Kind → String)

/-- One iteration of `main`'s loop; `none` where the run has no defined behaviour. -/
def mainStep (st : MainState) (R : ParsedReplacement) : Option MainState :=
  if ignored ic opts R then some st
  else
    let K := (ic.get R.mapping.lhs).k
    let st := if K ≠ st.last then
        { st with
          outs := st.outs ++ (if st.first then "" else "\x7d\n") ++ "if (" ++ kindCheck K ++ ") \x7b\n"
          first := false }
      else st
    let st := { st with last := K }
    let g := genMatcher ic st.visited R st.optnumber
    match g.2 with
    | .error .undefined => none
    | .error (.unimplemented what K') =>
      some { st with
        visited := g.1
        errs := st.errs ++ "\nUnimplemented " ++ what ++ ":" ++ getKindName K' ++ "\n" ++
          print ic R ++ "Failed to generate matcher.\n\n\n" }
    | .ok text =>
      if !opts.optnumbers.isEmpty && !opts.optnumbers.contains st.optnumber then
        some { st with
          visited := g.1
          optnumber := st.optnumber + 1
          errs := st.errs ++ "Opt " ++ toString st.optnumber ++ " skipped on demand.\n" }
      else
        some { st with
          visited := g.1
          optnumber := st.optnumber + 1
          outs := st.outs ++ "/* Opt : " ++ toString st.optnumber ++ "\n" ++ print ic R ++ "*/\n" ++
            text ++ "\n" }

/-- `main` after parsing: the rules sorted by the kind of their LHS, then the loop. The text
written to `llvm::outs` and to `llvm::errs`. -/
def main (srt : RuleSort) (inputs : List ParsedReplacement) : Option (String × String) := do
  let st ← (srt.sort (lhsKindKey ic) inputs).foldlM (mainStep ic opts print getKindName)
    ⟨fun _ => false, 0, .none, true, "", ""⟩
  pure (st.outs ++ "\x7d\n", st.errs)

/-- The rules the loop walks are the input rules. -/
theorem mem_sort_iff (srt : RuleSort) {inputs : List ParsedReplacement} {R : ParsedReplacement} :
    R ∈ srt.sort (lhsKindKey ic) inputs ↔ R ∈ inputs :=
  (srt.perm _ _).mem_iff

/-- A skipped rule leaves the loop's state as it was. -/
theorem foldlM_mainStep_ignored (inputs : List ParsedReplacement)
    (h : ∀ R ∈ inputs, ignored ic opts R = true) (st : MainState) :
    inputs.foldlM (mainStep ic opts print getKindName) st = some st := by
  induction inputs with
  | nil => rfl
  | cons R rs ih =>
    simp only [List.foldlM, mainStep, h R (List.mem_cons_self _ _), if_true, Option.bind_eq_bind,
      Option.some_bind]
    exact ih fun R' hR' => h R' (List.mem_cons_of_mem _ hR')

/-- The closing brace after the loop is written unconditionally, though a block is opened only
for a rule that survives the filters: when the filters skip every rule, the empty list among
them, `main` writes a lone `}` that closes nothing. -/
theorem main_closes_unopened_block (srt : RuleSort) (inputs : List ParsedReplacement)
    (h : ∀ R ∈ inputs, ignored ic opts R = true) :
    main ic opts print getKindName srt inputs = some ("\x7d\n", "") := by
  simp only [main, foldlM_mainStep_ignored ic opts print getKindName _
    (fun R hR => h R ((mem_sort_iff ic srt).mp hR)), Option.bind_eq_bind, Option.some_bind]
  rfl

end Main

/-- The rule `x ⇒ x` at width 8: an LHS that is its RHS, which `main` skips under every
setting. -/
def identityIc : InstContext := ⟨[.var 8 "x"]⟩

def identityRule : ParsedReplacement := ⟨⟨0, 0⟩, [], []⟩

theorem main_closes_unopened_block_identity :
    ignored identityIc {} identityRule = true ∧
    main identityIc {} (fun _ _ => "") (fun _ => "") insertionRuleSort [identityRule] =
      some ("\x7d\n", "") :=
  ⟨by decide, main_closes_unopened_block identityIc {} _ _ insertionRuleSort [identityRule]
    (fun R hR => by rw [List.mem_singleton.mp hR]; decide)⟩

-- ════════════════════════════════════════════════════════════════════════
-- A rule emitted without its range fact
-- ════════════════════════════════════════════════════════════════════════

/-- `x & 1 ⇒ x` at width 8, where `x` lies in `[0, 2)`. -/
def andOneIc : InstContext :=
  ⟨[{ Inst.var 8 "x" with range := ⟨.ofNat 8 0, .ofNat 8 2⟩ }, .const (.ofNat 8 1), .op .and 8 [0, 1]]⟩

def andOneRule : ParsedReplacement := ⟨⟨2, 0⟩, [], []⟩

/-- Under the range fact, `x & 1` is `x`. -/
theorem andOneIc_valid : andOneIc.ValidUnder [] andOneRule.mapping := by
  intro σ hf _ v hv
  have hx : σ 0 % 2 ^ 8 < 2 := by
    have e : ∀ x, ConstantRange.contains ⟨.ofNat 8 0, .ofNat 8 2⟩ x = decide (x < 2) := fun x => by
      simp [ConstantRange.contains, show (APInt.ofNat 8 0 == APInt.ofNat 8 2) = false by decide,
        show (APInt.ofNat 8 0).toNat = 0 from rfl, show (APInt.ofNat 8 2).toNat = 2 from rfl]
    have : ConstantRange.contains ⟨.ofNat 8 0, .ofNat 8 2⟩ (σ 0 % 2 ^ 8) = true :=
      (hf 0 (by decide) rfl).2.2.1
    simpa [e] using this
  have hl : andOneIc.eval σ 2 = some (σ 0 % 2 ^ 8 &&& 1) := rfl
  change andOneIc.eval σ 2 = some v at hv
  rw [hl] at hv
  cases hv
  show some (σ 0 % 2 ^ 8) = _
  interval_cases (σ 0 % 2 ^ 8) <;> rfl

/-- The matcher `GenMatcher` writes for `x & 1 ⇒ x`: its guard checks the width of `x` only. -/
def andOneMatcher : String :=
  "\x7b\nllvm::Value *x0;\nif (match(I, m_c_And(m_Value(x0), m_SpecificInt( 8, 1)))) \x7b\n" ++
    "if (util::check_width(x0,8)) \x7b\n  St.hit(0);\n  return x0;\n\x7d\n\x7d\x7d\n"

/-- Under every setting of `-ignore-pcs` and `-ignore-df`, `main` emits a matcher for
`x & 1 ⇒ x` whose guard checks only the width of `x`, not its range. The rule holds under the
range; at `x = 3`, a byte the guard lets through and the range excludes, `x & 1` is 1 and `x` is 3. -/
theorem main_emits_unguarded_range (ignorePCs ignoreDF : Bool)
    (print : InstContext → ParsedReplacement → String) (getKindName : Kind → String)
    (srt : RuleSort) :
    main andOneIc ⟨ignorePCs, ignoreDF, []⟩ print getKindName srt [andOneRule] =
      some ("if (I->getOpcode() == Instruction::And) \x7b\n/* Opt : 0\n" ++
        print andOneIc andOneRule ++ "*/\n" ++ andOneMatcher ++ "\n" ++ "\x7d\n", "") ∧
    andOneIc.ValidUnder [] andOneRule.mapping ∧
    ¬ andOneIc.FactsHold (fun _ => 3) (andOneIc.nodes andOneRule) ∧
    andOneIc.eval (fun _ => 3) 2 = some 1 ∧ andOneIc.eval (fun _ => 3) 0 = some 3 := by
  have hi : ignored andOneIc ⟨ignorePCs, ignoreDF, []⟩ andOneRule = false := by
    cases ignorePCs <;> cases ignoreDF <;> decide
  have hg : (genMatcher andOneIc (fun _ => false) andOneRule 0).2 = .ok andOneMatcher := by decide
  refine ⟨?_, andOneIc_valid, by decide, rfl, rfl⟩
  simp only [main, List.perm_singleton.mp (srt.perm _ _), List.foldlM, mainStep, hi, hg,
    Option.bind_eq_bind, Option.some_bind]
  rfl

-- ════════════════════════════════════════════════════════════════════════
-- A matcher that depends on the rules before it
-- ════════════════════════════════════════════════════════════════════════

/-- `x & N ⇒ N ^ x` and `z & N ⇒ N ^ z` at width 8: both use the node `N = 1 + 2`, which the
context interns once. -/
def sharedIc : InstContext :=
  ⟨[.var 8 "x", .const (.ofNat 8 1), .const (.ofNat 8 2), .op .add 8 [1, 2], .op .and 8 [0, 3],
    .op .xor 8 [3, 0], .var 8 "z", .op .and 8 [6, 3], .op .xor 8 [3, 6]]⟩

def sharedRuleX : ParsedReplacement := ⟨⟨4, 5⟩, [], []⟩

def sharedRuleZ : ParsedReplacement := ⟨⟨7, 8⟩, [], []⟩

/-- The matcher of `z & N ⇒ N ^ z` written first: `N` is bound to `x1`, and the guard checks
that `x1` and `x0` dominate `I`. -/
def sharedZMatcher : String :=
  "\x7b\nllvm::Value *x3, *x2, *x1, *x0;\nif (match(I, m_c_And(m_Value(x0), &x1 <<= " ++
    "m_c_Add(&x3 <<= m_SpecificInt( 8, 1), &x2 <<= m_SpecificInt( 8, 2))))) \x7b\n" ++
    "if (util::check_width(x0,8) && util::dc(DT, I, x1) && util::dc(DT, I, x0)) \x7b\n" ++
    "  St.hit(0);\n  return B->CreateXor(x1, x0);\n\x7d\n\x7d\x7d\n"

/-- The same matcher written after the one of `x & N ⇒ N ^ x`: the check on `x1` is gone. -/
def sharedZMatcherAfterX : String :=
  "\x7b\nllvm::Value *x3, *x2, *x1, *x0;\nif (match(I, m_c_And(m_Value(x0), &x1 <<= " ++
    "m_c_Add(&x3 <<= m_SpecificInt( 8, 1), &x2 <<= m_SpecificInt( 8, 2))))) \x7b\n" ++
    "if (util::check_width(x0,8) && util::dc(DT, I, x0)) \x7b\n" ++
    "  St.hit(0);\n  return B->CreateXor(x1, x0);\n\x7d\n\x7d\x7d\n"

set_option maxRecDepth 4000 in
/-- `GenDomConstraints`' `Visited` set outlives the rule: whichever of the two rules comes second
loses the dominance check on the shared node `N`, and its matcher differs from the one it gets
first. -/
theorem genMatcher_drops_dominance_check :
    (genMatcher sharedIc (fun _ => false) sharedRuleZ 0).2 = .ok sharedZMatcher ∧
    (genMatcher sharedIc (genMatcher sharedIc (fun _ => false) sharedRuleX 0).1 sharedRuleZ 0).2 =
      .ok sharedZMatcherAfterX ∧
    sharedZMatcher ≠ sharedZMatcherAfterX ∧
    (genMatcher sharedIc (genMatcher sharedIc (fun _ => false) sharedRuleZ 0).1 sharedRuleX 0).2 ≠
      (genMatcher sharedIc (fun _ => false) sharedRuleX 0).2 :=
  ⟨by decide, by decide, by decide, by decide⟩

-- ════════════════════════════════════════════════════════════════════════
-- No undefined behaviour
-- ════════════════════════════════════════════════════════════════════════

theorem NoUB.mapM {α β : Type} {f : α → Except GenError β} :
    ∀ {l : List α}, (∀ a ∈ l, NoUB (f a) fun _ => True) → NoUB (l.mapM f) fun _ => True
  | [], _ => NoUB.ok trivial
  | a :: l, h => by
    rw [List.mapM_cons]
    exact (h a (List.mem_cons_self a l)).bind fun _ _ =>
      (NoUB.mapM fun b hb => h b (List.mem_cons_of_mem a hb)).bind fun _ _ => NoUB.ok trivial

/-- `GenRHSCreator` ends within `I + 1` levels in an acyclic context; it fails only at a kind
`CreateOps` lacks. -/
theorem genRHSCreator_noUB (h : ic.Acyclic) (s : SymbolTable) :
    ∀ fuel I, I < fuel → NoUB (genRHSCreator ic fuel I s) fun _ => True := by
  intro fuel
  induction fuel with
  | zero => intro I hI; omega
  | succ fuel ih =>
    intro I hI
    rw [genRHSCreator]
    refine NoUB.bind (P := fun _ => True) ?_ fun _ _ =>
      (NoUB.mapM fun c hc => ?_).bind fun _ _ => NoUB.ok trivial
    · cases createOps (ic.get I).k with
      | none => exact NoUB.unimplemented _ _
      | some op => exact NoUB.ok trivial
    · split
      · exact NoUB.ok trivial
      · exact ih c (by have := h I c hc; omega)

theorem genReturn_noUB (h : ic.Acyclic) (s : SymbolTable) (rhs : Nat) :
    NoUB (genReturn ic s rhs) fun _ => True := by
  unfold genReturn
  split
  · exact NoUB.ok trivial
  · split_ifs
    · exact NoUB.ok trivial
    · exact (genRHSCreator_noUB ic h s _ rhs (Nat.lt_succ_self rhs)).map fun _ _ => trivial

/-- `GenVarPropConstraints` takes `at(V)[0]` of each variable of the LHS: defined when each has a
name. It adds guard conjuncts only. -/
theorem genVarPropConstraints_noUB (s : SymbolTable) (lhs : Nat)
    (hn : ∀ v ∈ findVars ic lhs, s.names v ≠ []) :
    NoUB (genVarPropConstraints ic s lhs) fun s' => s'.names = s.names := by
  unfold genVarPropConstraints
  generalize findVars ic lhs = l at hn
  induction l generalizing s with
  | nil => exact NoUB.ok rfl
  | cons v l ih =>
    rw [List.foldlM_cons]
    split
    · exact absurd ‹_› (hn v (List.mem_cons_self v l))
    · refine NoUB.bind (NoUB.ok (P := fun t => t.names = s.names) rfl) fun t ht =>
        (ih t fun v' hv' => ?_).mono fun _ e => e.trans ht
      rw [ht]; exact hn v' (List.mem_cons_of_mem v hv')

/-- `GenMatcher` has no undefined behaviour in a well-formed context, on an LHS whose names
`varnum` can count. `InitSymbolTable` ends and names every variable of the LHS once per path, so
`GenLHSMatcher` and `GenVarPropConstraints` always find a name, and the walks of `GenLHSMatcher`
and `GenRHSCreator` end. -/
theorem genMatcher_noUB (h : ic.WF) (visited : Nat → Bool) (R : ParsedReplacement) (optID : Nat)
    (hn : nameBound ic R.mapping.lhs ≤ intMax) :
    (genMatcher ic visited R optID).2 ≠ .error .undefined := by
  obtain ⟨decls, syms, hinit, -, hle, hused, -, -⟩ :=
    initSymbolTable_spec ic h R.mapping.lhs R.mapping.rhs hn
  have hm := genLHSMatcher_spec ic h (R.mapping.lhs + 1) R.mapping.lhs syms (by omega)
    (fun j hj _ => hused j hj) hle
  have hv : ∀ v ∈ findVars ic R.mapping.lhs, syms.names v ≠ [] := fun v hv => by
    simp only [findVars, vars, List.mem_filter, List.mem_range, decide_eq_true_eq] at hv
    exact List.ne_nil_of_length_pos
      (lt_of_lt_of_le (ic.paths_pos_of_mem_reach h hv.2.1) (hle v hv.2.2))
  have hs : NoUB (matcherSymbols ic visited R syms) fun _ => True :=
    (genVarPropConstraints_noUB ic (genVarEqConstraints ic syms) R.mapping.lhs hv).map
      fun _ _ => trivial
  simp only [genMatcher, hinit]
  split
  · rintro ⟨⟩
    exact hm.1 ‹_›
  · split
    · rintro ⟨⟩
      exact hs.1 ‹_›
    · exact ((genReturn_noUB ic h.toAcyclic _ R.mapping.rhs).map (Q := fun _ => True)
        fun _ _ => trivial).1

section Main

variable (opts : Options) (print : InstContext → ParsedReplacement → String)
  (getKindName : Kind → String)

/-- One iteration of `main` stops only where `GenMatcher` has undefined behaviour. -/
theorem mainStep_isSome (h : ic.WF) (st : MainState) (R : ParsedReplacement)
    (hn : nameBound ic R.mapping.lhs ≤ intMax) :
    (mainStep ic opts print getKindName st R).isSome := by
  unfold mainStep
  split
  · rfl
  · dsimp only
    split
    · exact absurd ‹_› (genMatcher_noUB ic h _ _ _ hn)
    · rfl
    · split_ifs <;> rfl

/-- `matcher-gen` has no undefined behaviour on any list of rules over a well-formed context
whose LHSs have names `varnum` can count: it never takes `back()` or `pop_back()` of an empty list
of names or `at()` of a variable with none, and each of its walks ends, so `main` writes its
output whatever the rules and options. -/
theorem main_isSome (h : ic.WF) (srt : RuleSort) (inputs : List ParsedReplacement)
    (hn : ∀ R ∈ inputs, nameBound ic R.mapping.lhs ≤ intMax) :
    (main ic opts print getKindName srt inputs).isSome := by
  obtain ⟨st, hst, -⟩ := foldlM_some_of_inv (mainStep ic opts print getKindName) (fun _ => True)
    _ (fun st R hR _ => (Option.isSome_iff_exists.mp (mainStep_isSome ic opts print getKindName
      h st R (hn R ((mem_sort_iff ic srt).mp hR)))).imp fun _ e => ⟨e, trivial⟩)
    ⟨fun _ => false, 0, .none, true, "", ""⟩ trivial
  simp [main, hst]

theorem main_isSome_andOne :
    andOneIc.WF ∧ (∀ R ∈ [andOneRule], nameBound andOneIc R.mapping.lhs ≤ intMax) ∧
      (main andOneIc {} (fun _ _ => "") (fun _ => "") insertionRuleSort [andOneRule]).isSome =
        true :=
  ⟨by decide, by decide,
    main_isSome andOneIc {} _ _ (by decide) insertionRuleSort [andOneRule] (by decide)⟩

end Main

end Souper.MatcherGen
