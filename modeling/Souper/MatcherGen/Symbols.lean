import Mathlib.Data.Nat.Digits
import Mathlib.Tactic.IntervalCases
import Souper.MatcherGen.Basic

/-!
# Naming the LHS (`InitSymbolTable`, `GenLHSMatcher`)

`InitSymbolTable` walks the LHS with a stack and no visited set and names a variable `x<n>`, with
a fresh `n`, at each visit: once per path from the root. `GenLHSMatcher` unfolds the LHS as a tree
and, at each occurrence of a variable as an operand, binds the last name of the variable's list
and pops it. Both walks meet a variable once per path, so the names run out exactly when the match
is written, and no two occurrences share a name. `GenVarEqConstraints` then asks all the names of
a variable to be equal.

## Main definitions

- `lhsLoop`, `rhsLoop` — the two stack walks of `InitSymbolTable`
- `initSymbolTable` — `InitSymbolTable`: the declarations it writes and the table
- `genLHSMatcher` — `GenLHSMatcher`, over the copy of the table it consumes

## Main results

- `lhsLoop_inv`, `rhsLoop_inv` — each walk ends within the size of the tree unfolding, keeping any
  invariant its step keeps
- `initSymbolTable_spec` — while `varnum` can count the names, `InitSymbolTable` gives each
  variable one name per path, and no name twice
- `initSymbolTable_overflow` — past `INT_MAX` paths to variables, `varnum++` overflows
- `genLHSMatcher_spec` — from a table with enough names, the matcher has no undefined behaviour
  and consumes `paths I v` names of each variable `v`

## Design notes

`NoUB r P` is the matcher's Hoare triple in the `Except` monad: `r` is not undefined behaviour and
a success satisfies `P`. Each generator's spec is one such statement.

`varnum` is a C++ `int`: the walks are `none` where `varnum++` would run at `INT_MAX`. The walks'
invariants count the names still to come (`LHSInv.varnum`, `RHSInv.budget`), and `nameBound`
bounds them from the LHS alone.
-/

namespace Souper.MatcherGen

open InstContext SymbolTable

/-- `"x" + std::to_string(n)`, the name of the `n`-th binding. -/
def varName (n : Nat) : String := "x" ++ toString n

private def readDigits (acc : Nat) (cs : List Char) : Nat :=
  cs.foldl (fun n c => 10 * n + (c.toNat - 48)) acc

private theorem readDigits_toDigitsCore :
    ∀ f n (ds : List Char) acc, n < f →
      ∃ k, readDigits acc (Nat.toDigitsCore 10 f n ds) = readDigits (10 ^ k * acc + n) ds := by
  intro f
  induction f with
  | zero => intro n ds acc h; omega
  | succ f ih =>
    intro n ds acc hn
    have hd : ((n % 10).digitChar).toNat - 48 = n % 10 := by
      have : n % 10 < 10 := Nat.mod_lt _ (by omega)
      interval_cases (n % 10) <;> rfl
    simp only [Nat.toDigitsCore]
    split
    · exact ⟨1, by simp only [readDigits, List.foldl_cons]; congr 1; omega⟩
    · obtain ⟨k, hk⟩ := ih (n / 10) ((n % 10).digitChar :: ds) acc (by omega)
      refine ⟨k + 1, ?_⟩
      rw [hk]
      simp only [readDigits, List.foldl_cons]
      congr 1
      have e : 10 ^ (k + 1) * acc = 10 * (10 ^ k * acc) := by
        rw [pow_succ, Nat.mul_comm (10 ^ k) 10, Nat.mul_assoc]
      omega

theorem varName_data (k : Nat) : (varName k).data = 'x' :: Nat.toDigits 10 k := rfl

/-- Distinct counters give distinct names: a decimal numeral reads back as its number. -/
theorem varName_injective : Function.Injective varName := by
  intro a b h
  have h' : Nat.toDigits 10 a = Nat.toDigits 10 b := by
    simpa only [varName_data, List.cons.injEq, true_and] using congrArg String.data h
  have read : ∀ n, readDigits 0 (Nat.toDigits 10 n) = n := fun n => by
    obtain ⟨k, hk⟩ := readDigits_toDigitsCore (n + 1) n [] 0 (by omega)
    simpa [readDigits] using hk
  rw [← read a, h', read b]

theorem varName_ne_I (k : Nat) : varName k ≠ "I" := fun h => by
  have := congrArg String.data h
  rw [varName_data] at this
  cases this

/-- The state of `InitSymbolTable`'s walks: the table, `LHSInsts`, `Visited` and `varnum`. -/
structure InitState where
  syms : SymbolTable
  lhsInsts : Nat → Bool
  visited : Nat → Bool
  varnum : Nat

variable (ic : InstContext)

/-- One iteration of the first walk, on the node `I` it pops: `RegisterPred`, `LHSInsts`, a fresh
name for a variable, `Consts` for a constant. -/
def lhsVisit (s : InitState) (I : Nat) : InitState :=
  let syms := s.syms.registerPred ic I
  let syms := if (ic.get I).k = .const then { syms with consts := mark syms.consts I } else syms
  { s with
    syms := if (ic.get I).k = .var then syms.pushName I (varName s.varnum) else syms
    lhsInsts := mark s.lhsInsts I
    varnum := if (ic.get I).k = .var then s.varnum + 1 else s.varnum }

/-- The first loop of `InitSymbolTable`: a stack walk of the LHS with no visited set, so a node is
visited once per path to it. The list's head is the stack's top; the operands are pushed in
order, so the last one is popped first. -/
def lhsLoop : Nat → List Nat → InitState → Option InitState
  | _, [], s => some s
  | 0, _ :: _, _ => none
  | fuel + 1, I :: stack, s =>
    -- `varnum++` at `INT_MAX` is undefined behaviour
    if (ic.get I).k = .var ∧ s.varnum = intMax then none
    else lhsLoop fuel ((ic.get I).ops.reverse ++ stack) (lhsVisit ic s I)

/-- Whether the second walk names `I`: `Used.insert(I).second && Syms.find(I) == Syms.end()`
for an LHS node. -/
def rhsNames (s : InitState) (I : Nat) : Bool :=
  s.lhsInsts I && !s.syms.used I && (s.syms.names I).isEmpty

/-- One iteration of the second walk. An LHS node the RHS reaches goes into `Used`; the first
time, it gets a fresh name unless it is a key of the table already. -/
def rhsVisit (s : InitState) (I : Nat) : InitState :=
  let syms := { s.syms with
    constRefs := if (ic.get I).k = .const then mark s.syms.constRefs I else s.syms.constRefs
    used := if s.lhsInsts I then mark s.syms.used I else s.syms.used }
  { s with
    syms := if rhsNames s I then syms.pushName I (varName s.varnum) else syms
    visited := mark s.visited I
    varnum := if rhsNames s I then s.varnum + 1 else s.varnum }

/-- The second loop of `InitSymbolTable`: a stack walk of the RHS that pushes the operands not
visited yet. -/
def rhsLoop : Nat → List Nat → InitState → Option InitState
  | _, [], s => some s
  | 0, _ :: _, _ => none
  | fuel + 1, I :: stack, s =>
    if rhsNames s I ∧ s.varnum = intMax then none
    else
      rhsLoop fuel (((ic.get I).ops.filter fun c => !(rhsVisit ic s I).visited c).reverse ++ stack)
        (rhsVisit ic s I)

/-- The number of paths from `root` to a variable: the names the first walk hands out. -/
def varPaths (root : Nat) : Nat := ic.treeSum (fun j => if (ic.get j).k = .var then 1 else 0) root

/-- A bound on the names `InitSymbolTable` hands out: one per path from the root to a variable,
and at most one for every other node of the LHS, which the second walk names the first time the
RHS reaches it. -/
def nameBound (root : Nat) : Nat :=
  varPaths ic root + ((ic.reach root).filter fun j => (ic.get j).k ≠ .var).card

/-- The declaration of every name bound so far, `llvm::Value *x0, *x1;`. -/
def printDecls (s : SymbolTable) : String :=
  let ns := (List.range ic.size).flatMap s.names
  if ns.isEmpty then "" else "llvm::Value " ++ ", ".intercalate (ns.map ("*" ++ ·)) ++ ";\n"

/-- `InitSymbolTable`: the text it writes and the table it leaves, or `none` where `varnum`
overflows. Each walk gets the size of its tree unfolding as fuel, which the first walk uses up
exactly. -/
def initSymbolTable (root rhs : Nat) : Option (String × SymbolTable) := do
  let s ← lhsLoop ic (ic.treeSize root) [root] ⟨.empty, fun _ => false, fun _ => false, 0⟩
  let s ← rhsLoop ic (ic.treeSize rhs) [rhs] s
  let syms := s.syms.pushName root "I"
  pure (printDecls ic s.syms ++ printPreds ic syms, syms)

/-- `&<name> <<= `: the binding `GenLHSMatcher` writes before an operation or constant the RHS
uses, under the last of its names. -/
def usedPrefix (s : SymbolTable) (I : Nat) : Except GenError String :=
  if (ic.get I).k ≠ .var ∧ s.used I = true then (back (s.names I)).map fun n => "&" ++ n ++ " <<= "
  else .ok ""

/-- The text of a variable operand under the last of its names: `m_Constant(&name)` for a
symbolic constant, nothing for a constant expression, `m_Value(name)` otherwise. -/
def varText (s : SymbolTable) (c : Nat) : Except GenError String :=
  if (ic.get c).name.startsWith "symconst" then
    (back (s.names c)).map fun n => "m_Constant(&" ++ n ++ ")"
  else if (ic.get c).name.startsWith "constexpr" then .ok ""
  else (back (s.names c)).map fun n => "m_Value(" ++ n ++ ")"

/-- The text of operand `c`. A constant is matched by value; a variable binds the last of its
names, which is then popped; an operation is matched by `rec`. -/
def genOperand (rec : Nat → SymbolTable → Except GenError (String × SymbolTable))
    (s : SymbolTable) (c : Nat) : Except GenError (String × SymbolTable) :=
  if (ic.get c).k = .const then do
    let p ← usedPrefix ic s c
    pure (p ++ "m_SpecificInt( " ++ toString (ic.get c).width ++ ", " ++
      toString (ic.get c).val.toNat ++ ")", s)
  else if (ic.get c).k = .var then do
    let t ← varText ic s c
    let s' ← s.popBack c
    pure (t, s')
  else rec c s

/-- `GenLHSMatcher`, with its recursion bounded by `fuel`; `I + 1` suffices in an acyclic
context. -/
def genLHSMatcher : Nat → Nat → SymbolTable → Except GenError (String × SymbolTable)
  | 0, _, _ => .error .undefined
  | fuel + 1, I, s => do
    let pre ← usedPrefix ic s I
    let op ← (matchOps (ic.get I).k).elim (.error (.unimplemented "matcher" (ic.get I).k)) .ok
    let ext := if (ic.get I).k = .sext ∨ (ic.get I).k = .zext ∨ (ic.get I).k = .trunc then
      toString (ic.get I).width ++ ", " else ""
    let pred := if (predNames (ic.get I).k).isSome then (s.preds I).getD "" ++ ", " else ""
    let r ← (ic.get I).ops.foldlM (fun (acc : List String × SymbolTable) c =>
      (genOperand ic (genLHSMatcher fuel) acc.2 c).map fun r => (acc.1 ++ [r.1], r.2)) ([], s)
    pure (pre ++ op ++ ext ++ pred ++ ", ".intercalate r.1 ++ ")", r.2)

-- ════════════════════════════════════════════════════════════════════════
-- Fresh names
-- ════════════════════════════════════════════════════════════════════════

/-- Every name bound so far is `x<m>` for an `m` below the counter `k`, and no name is bound
twice. -/
structure Fresh (N : Nat → List String) (k : Nat) : Prop where
  numbered : ∀ j, ∀ n ∈ N j, ∃ m < k, n = varName m
  nodup : ∀ j, (N j).Nodup
  disjoint : ∀ i j n, n ∈ N i → n ∈ N j → i = j

theorem fresh_empty : Fresh (fun _ => []) 0 := ⟨by simp, by simp, by simp⟩

/-- Binding the counter's name and moving the counter on keeps names fresh. -/
theorem Fresh.push {N : Nat → List String} {k : Nat} (h : Fresh N k) (I : Nat) :
    Fresh (fun j => if j = I then N I ++ [varName k] else N j) (k + 1) := by
  have hk : varName k ∉ N I := fun hm => by
    obtain ⟨m, hm, he⟩ := h.numbered I _ hm
    exact absurd (varName_injective he) (by omega)
  refine ⟨fun j n hn => ?_, fun j => ?_, fun i j n hi hj => ?_⟩
  · split_ifs at hn with hj
    · rcases List.mem_append.mp hn with hn | hn
      · obtain ⟨m, hm, rfl⟩ := h.numbered I n hn
        exact ⟨m, by omega, rfl⟩
      · exact ⟨k, by omega, List.mem_singleton.mp hn⟩
    · obtain ⟨m, hm, rfl⟩ := h.numbered j n hn
      exact ⟨m, by omega, rfl⟩
  · split_ifs
    · exact List.nodup_append.mpr ⟨h.nodup I, List.nodup_singleton _, by simpa using hk⟩
    · exact h.nodup j
  · have old : ∀ j, n ∈ (if j = I then N I ++ [varName k] else N j) → n ≠ varName k → n ∈ N j := by
      intro j hj hn
      split_ifs at hj with e
      · subst e; simpa [hn] using hj
      · exact hj
    by_cases hn : n = varName k
    · subst hn
      split_ifs at hi hj with e₁ e₂ <;> first
        | exact e₁.trans e₂.symm
        | exact absurd (h.numbered _ _ hj) (by rintro ⟨m, hm, he⟩; exact absurd (varName_injective he) (by omega))
        | exact absurd (h.numbered _ _ hi) (by rintro ⟨m, hm, he⟩; exact absurd (varName_injective he) (by omega))
    · exact h.disjoint i j n (old i hi hn) (old j hj hn)

/-- After the root is also named `I`, still no name is bound twice. -/
theorem Fresh.push_I {N : Nat → List String} {k : Nat} (h : Fresh N k) (root : Nat) :
    (∀ j, (if j = root then N root ++ ["I"] else N j).Nodup) ∧
      ∀ i j n, n ∈ (if i = root then N root ++ ["I"] else N i) →
        n ∈ (if j = root then N root ++ ["I"] else N j) → i = j := by
  have hI : ∀ j, "I" ∉ N j := fun j hm => by
    obtain ⟨m, -, he⟩ := h.numbered j _ hm
    exact varName_ne_I m he.symm
  have old : ∀ j n, n ∈ (if j = root then N root ++ ["I"] else N j) → n ≠ "I" → n ∈ N j := by
    intro j n hj hn
    split_ifs at hj with e
    · subst e; simpa [hn] using hj
    · exact hj
  refine ⟨fun j => ?_, fun i j n hi hj => ?_⟩
  · split_ifs
    · exact List.nodup_append.mpr ⟨h.nodup root, List.nodup_singleton _, by simpa using hI root⟩
    · exact h.nodup j
  · by_cases hn : n = "I"
    · subst hn
      split_ifs at hi hj with e₁ e₂ <;> first
        | exact e₁.trans e₂.symm
        | exact absurd hj (hI j)
        | exact absurd hi (hI i)
    · exact h.disjoint i j n (old i n hi hn) (old j n hj hn)

-- ════════════════════════════════════════════════════════════════════════
-- The two walks of `InitSymbolTable`
-- ════════════════════════════════════════════════════════════════════════

@[simp] theorem lhsVisit_names (s : InitState) (I j : Nat) :
    (lhsVisit ic s I).syms.names j =
      if (ic.get I).k = .var ∧ j = I then s.syms.names I ++ [varName s.varnum] else s.syms.names j := by
  unfold lhsVisit
  by_cases hv : (ic.get I).k = .var
  · simp [hv]
  · simp only [hv, false_and, if_false]
    split_ifs <;> simp

@[simp] theorem lhsVisit_varnum (s : InitState) (I : Nat) :
    (lhsVisit ic s I).varnum = if (ic.get I).k = .var then s.varnum + 1 else s.varnum := rfl

@[simp] theorem lhsVisit_lhsInsts (s : InitState) (I : Nat) :
    (lhsVisit ic s I).lhsInsts = mark s.lhsInsts I := rfl

@[simp] theorem lhsVisit_used (s : InitState) (I : Nat) :
    (lhsVisit ic s I).syms.used = s.syms.used := by
  unfold lhsVisit
  split_ifs <;> simp

@[simp] theorem rhsVisit_names (s : InitState) (I j : Nat) :
    (rhsVisit ic s I).syms.names j =
      if rhsNames s I = true ∧ j = I then s.syms.names I ++ [varName s.varnum] else s.syms.names j := by
  unfold rhsVisit
  cases rhsNames s I <;> by_cases hj : j = I <;> simp [hj]

@[simp] theorem rhsVisit_varnum (s : InitState) (I : Nat) :
    (rhsVisit ic s I).varnum = if rhsNames s I = true then s.varnum + 1 else s.varnum := rfl

@[simp] theorem rhsVisit_lhsInsts (s : InitState) (I : Nat) :
    (rhsVisit ic s I).lhsInsts = s.lhsInsts := rfl

@[simp] theorem rhsVisit_used (s : InitState) (I j : Nat) :
    (rhsVisit ic s I).syms.used j = (s.lhsInsts I && j == I || s.syms.used j) := by
  unfold rhsVisit
  cases rhsNames s I <;> cases s.lhsInsts I <;> simp

theorem varPaths_eq (h : ic.WF) (i : Nat) :
    varPaths ic i = (if (ic.get i).k = .var then 1 else 0) + sumBy (varPaths ic) (ic.get i).ops :=
  ic.treeSum_eq h.toAcyclic _ i

/-- The first walk ends within the size of the tree unfolding of its stack, and keeps every
invariant one iteration keeps, as long as the invariant keeps `varnum` below `INT_MAX` at each
variable. -/
theorem lhsLoop_inv (h : ic.WF) (Inv : List Nat → InitState → Prop)
    (hstep : ∀ I stack s, Inv (I :: stack) s →
      Inv ((ic.get I).ops.reverse ++ stack) (lhsVisit ic s I))
    (hsafe : ∀ I stack s, Inv (I :: stack) s → (ic.get I).k = .var → s.varnum < intMax) :
    ∀ fuel stack s, sumBy ic.treeSize stack ≤ fuel → Inv stack s →
      ∃ s', lhsLoop ic fuel stack s = some s' ∧ Inv [] s' := by
  intro fuel
  induction fuel with
  | zero =>
    rintro (_ | ⟨I, stack⟩) s hf hs
    · exact ⟨s, rfl, hs⟩
    · have := ic.treeSize_eq h I; simp at hf; omega
  | succ fuel ih =>
    rintro (_ | ⟨I, stack⟩) s hf hs
    · exact ⟨s, rfl, hs⟩
    · rw [lhsLoop, if_neg fun hc => (hsafe I stack s hs hc.1).ne hc.2]
      refine ih _ _ ?_ (hstep I stack s hs)
      have := ic.treeSize_eq h I
      simp at hf ⊢; omega

/-- A first walk that ends keeps every invariant one iteration keeps. -/
theorem lhsLoop_inv_of_some (Inv : List Nat → InitState → Prop)
    (hstep : ∀ I stack s, Inv (I :: stack) s →
      Inv ((ic.get I).ops.reverse ++ stack) (lhsVisit ic s I)) :
    ∀ fuel stack s s', Inv stack s → lhsLoop ic fuel stack s = some s' → Inv [] s' := by
  intro fuel
  induction fuel with
  | zero => rintro (_ | ⟨I, stack⟩) s s' hs e <;> cases e; exact hs
  | succ fuel ih =>
    rintro (_ | ⟨I, stack⟩) s s' hs e
    · cases e; exact hs
    · rw [lhsLoop] at e
      split_ifs at e
      exact ih _ _ _ (hstep I stack s hs) e

/-- A first walk with more paths to variables still to walk than `varnum` can count stops
where `varnum++` overflows. -/
theorem lhsLoop_overflow (h : ic.WF) :
    ∀ fuel stack s, sumBy ic.treeSize stack ≤ fuel → s.varnum ≤ intMax →
      intMax < s.varnum + sumBy (varPaths ic) stack → lhsLoop ic fuel stack s = none := by
  intro fuel
  induction fuel with
  | zero =>
    rintro (_ | ⟨I, stack⟩) s hf hle hlt
    · simp [sumBy] at hlt; omega
    · rfl
  | succ fuel ih =>
    rintro (_ | ⟨I, stack⟩) s hf hle hlt
    · simp [sumBy] at hlt; omega
    · rw [lhsLoop]
      split_ifs with hc
      · rfl
      have ht := ic.treeSize_eq h I
      have hp := varPaths_eq ic h I
      rw [sumBy_cons] at hf hlt
      refine ih _ _ ?_ ?_ ?_ <;> simp only [lhsVisit_varnum, sumBy_append, sumBy_reverse]
      · omega
      · split_ifs with hv
        · exact lt_of_le_of_ne hle fun e => hc ⟨hv, e⟩
        · exact hle
      · split_ifs at hp ⊢ <;> omega

/-- The second walk ends within the size of the tree unfolding of its stack: it pushes only some
of the operands of what it pops. It keeps every invariant one iteration keeps, as long as the
invariant keeps `varnum` below `INT_MAX` at each naming. -/
theorem rhsLoop_inv (h : ic.WF) (Inv : List Nat → InitState → Prop)
    (hstep : ∀ I stack s, Inv (I :: stack) s →
      Inv (((ic.get I).ops.filter fun c => !(rhsVisit ic s I).visited c).reverse ++ stack)
        (rhsVisit ic s I))
    (hsafe : ∀ I stack s, Inv (I :: stack) s → rhsNames s I = true → s.varnum < intMax) :
    ∀ fuel stack s, sumBy ic.treeSize stack ≤ fuel → Inv stack s →
      ∃ s', rhsLoop ic fuel stack s = some s' ∧ Inv [] s' := by
  intro fuel
  induction fuel with
  | zero =>
    rintro (_ | ⟨I, stack⟩) s hf hs
    · exact ⟨s, rfl, hs⟩
    · have := ic.treeSize_eq h I; simp at hf; omega
  | succ fuel ih =>
    rintro (_ | ⟨I, stack⟩) s hf hs
    · exact ⟨s, rfl, hs⟩
    · rw [rhsLoop, if_neg fun hc => (hsafe I stack s hs hc.1).ne hc.2]
      refine ih _ _ ?_ (hstep I stack s hs)
      have := ic.treeSize_eq h I
      have := sumBy_le_of_sublist ic.treeSize (List.filter_sublist (ic.get I).ops
        (p := fun c => !(rhsVisit ic s I).visited c))
      simp at hf ⊢; omega

/-- A second walk that ends keeps every invariant one iteration keeps. -/
theorem rhsLoop_inv_of_some (Inv : List Nat → InitState → Prop)
    (hstep : ∀ I stack s, Inv (I :: stack) s →
      Inv (((ic.get I).ops.filter fun c => !(rhsVisit ic s I).visited c).reverse ++ stack)
        (rhsVisit ic s I)) :
    ∀ fuel stack s s', Inv stack s → rhsLoop ic fuel stack s = some s' → Inv [] s' := by
  intro fuel
  induction fuel with
  | zero => rintro (_ | ⟨I, stack⟩) s s' hs e <;> cases e; exact hs
  | succ fuel ih =>
    rintro (_ | ⟨I, stack⟩) s s' hs e
    · cases e; exact hs
    · rw [rhsLoop] at e
      split_ifs at e
      exact ih _ _ _ (hstep I stack s hs) e

/-- What the first walk from `root` keeps. A variable has one name per path from the root walked
so far; the stack holds the paths still to walk. -/
structure LHSInv (root : Nat) (stack : List Nat) (s : InitState) : Prop where
  fresh : Fresh s.syms.names s.varnum
  named : ∀ v, (ic.get v).k = .var → s.lhsInsts v = true → s.syms.names v ≠ []
  count : ∀ v, (ic.get v).k = .var →
    (s.syms.names v).length + sumBy (ic.paths · v) stack = ic.paths root v
  unused : ∀ j, s.syms.used j = false
  varnum : s.varnum + sumBy (varPaths ic) stack = varPaths ic root
  stack_reach : ∀ j ∈ stack, j ∈ ic.reach root
  lhs_reach : ∀ j, s.lhsInsts j = true → j ∈ ic.reach root

theorem LHSInv.step (h : ic.WF) {root I : Nat} {stack : List Nat} {s : InitState}
    (hs : LHSInv ic root (I :: stack) s) :
    LHSInv ic root ((ic.get I).ops.reverse ++ stack) (lhsVisit ic s I) where
  fresh := by
    rw [show (lhsVisit ic s I).syms.names = _ from funext (lhsVisit_names ic s I), lhsVisit_varnum]
    by_cases hv : (ic.get I).k = .var
    · simpa only [hv, true_and, if_true] using hs.fresh.push I
    · simpa only [hv, false_and, if_false] using hs.fresh
  named v hv hl := by
    rw [lhsVisit_names]
    by_cases e : v = I
    · subst e; simp [hv]
    · simp only [lhsVisit_lhsInsts, mark_apply] at hl
      simpa [e] using hs.named v hv (by simpa [e] using hl)
  count v hv := by
    have e₁ := hs.count v hv
    have e₂ := ic.paths_eq h I v
    rw [lhsVisit_names, sumBy_append, sumBy_reverse]
    rw [sumBy_cons] at e₁
    by_cases e : v = I
    · subst e
      simp only [hv, and_self, if_true, List.length_append, List.length_singleton] at e₂ ⊢
      omega
    · simp only [e, Ne.symm e, and_false, if_false] at e₂ ⊢
      omega
  unused j := by rw [lhsVisit_used]; exact hs.unused j
  varnum := by
    have e₁ := hs.varnum
    have e₂ := varPaths_eq ic h I
    simp only [lhsVisit_varnum, sumBy_append, sumBy_reverse, sumBy_cons] at e₁ ⊢
    split_ifs at e₂ ⊢ <;> omega
  stack_reach j hj := by
    have hI := hs.stack_reach I (List.mem_cons_self I stack)
    rcases List.mem_append.mp hj with ho | hj
    · exact ic.reach_trans h.toAcyclic hI (ic.mem_reach_of_mem_ops h.toAcyclic (List.mem_reverse.mp ho))
    · exact hs.stack_reach j (List.mem_cons_of_mem I hj)
  lhs_reach j hj := by
    rw [lhsVisit_lhsInsts, mark_apply] at hj
    by_cases e : j = I
    · exact e ▸ hs.stack_reach I (List.mem_cons_self I stack)
    · exact hs.lhs_reach j (by simpa [e] using hj)

/-- At a variable the first walk has `varnum` below the number of paths to variables. -/
theorem LHSInv.varnum_lt (h : ic.WF) {root I : Nat} {stack : List Nat} {s : InitState}
    (hs : LHSInv ic root (I :: stack) s) (hv : (ic.get I).k = .var) :
    s.varnum < varPaths ic root := by
  have e₁ := hs.varnum
  have e₂ := varPaths_eq ic h I
  rw [sumBy_cons, e₂, if_pos hv] at e₁
  omega

/-- The nodes of the LHS, other than variables, not in `Used` yet: those the second walk may
still name. -/
def unnamedOps (root : Nat) (s : InitState) : Finset Nat :=
  (ic.reach root).filter fun j => (ic.get j).k ≠ .var ∧ s.syms.used j = false

/-- What the second walk keeps, relative to the state `s₁` the first one left: names stay fresh,
every `Used` node has a name, and no variable gets one. -/
structure RHSInv (root : Nat) (s₁ s : InitState) : Prop where
  fresh : Fresh s.syms.names s.varnum
  used_named : ∀ j, s.syms.used j = true → s.syms.names j ≠ []
  var_names : ∀ v, (ic.get v).k = .var → s.syms.names v = s₁.syms.names v
  lhsInsts : s.lhsInsts = s₁.lhsInsts
  budget : s.varnum + (unnamedOps ic root s).card ≤ nameBound ic root

section RHSStep

variable {root : Nat} {s₁ s : InitState}
  (hnamed : ∀ v, (ic.get v).k = .var → s₁.lhsInsts v = true → s₁.syms.names v ≠ [])
  (hreach : ∀ j, s₁.lhsInsts j = true → j ∈ ic.reach root)
include hnamed hreach

/-- A node the second walk names is an LHS operation not in `Used` yet. -/
theorem RHSInv.mem_unnamedOps (hs : RHSInv ic root s₁ s) {I : Nat} (hn : rhsNames s I = true) :
    I ∈ unnamedOps ic root s := by
  simp only [rhsNames, Bool.and_eq_true, Bool.not_eq_true', List.isEmpty_iff] at hn
  obtain ⟨⟨hl, hu⟩, he⟩ := hn
  rw [hs.lhsInsts] at hl
  refine Finset.mem_filter.mpr ⟨hreach I hl, fun hv => hnamed I hv hl ?_, hu⟩
  rw [← hs.var_names I hv, he]

/-- Each naming of the second walk takes one node out of `unnamedOps`. -/
theorem RHSInv.budget_step (hs : RHSInv ic root s₁ s) (I : Nat) :
    (rhsVisit ic s I).varnum + (unnamedOps ic root (rhsVisit ic s I)).card ≤ nameBound ic root := by
  have hsub : unnamedOps ic root (rhsVisit ic s I) ⊆ unnamedOps ic root s := fun j hj => by
    simp only [unnamedOps, Finset.mem_filter, rhsVisit_used, Bool.or_eq_false_iff] at hj ⊢
    exact ⟨hj.1, hj.2.1, hj.2.2.2⟩
  have hb := hs.budget
  rw [rhsVisit_varnum]
  split_ifs with hn
  · have hI := hs.mem_unnamedOps ic hnamed hreach hn
    have hl : s.lhsInsts I = true := by
      simp only [rhsNames, Bool.and_eq_true] at hn; exact hn.1.1
    have hI' : I ∉ unnamedOps ic root (rhsVisit ic s I) := by
      simp [unnamedOps, hl]
    have := Finset.card_lt_card ((Finset.ssubset_iff_of_subset hsub).mpr ⟨I, hI, hI'⟩)
    omega
  · have := Finset.card_le_card hsub
    omega

theorem RHSInv.step (hs : RHSInv ic root s₁ s) {I : Nat} :
    RHSInv ic root s₁ (rhsVisit ic s I) where
  fresh := by
    rw [show (rhsVisit ic s I).syms.names = _ from funext (rhsVisit_names ic s I), rhsVisit_varnum]
    by_cases hn : rhsNames s I = true
    · simpa only [hn, true_and, if_true] using hs.fresh.push I
    · simpa only [hn, false_and, if_false] using hs.fresh
  used_named j hj := by
    rw [rhsVisit_names]
    rw [rhsVisit_used] at hj
    by_cases e : j = I
    · subst e
      cases hn : rhsNames s j
      · simp only [rhsNames, Bool.and_eq_false_iff, Bool.not_eq_false', List.isEmpty_eq_false] at hn
        rcases hn with (hl | hu) | hne
        · simpa [hl] using hs.used_named j (by simpa [hl] using hj)
        · exact hs.used_named j hu
        · simpa using hne
      · simp
    · simp only [e, and_false, if_false]
      exact hs.used_named j (by simpa [e] using hj)
  var_names v hv := by
    rw [rhsVisit_names]
    by_cases c : rhsNames s I = true ∧ v = I
    · obtain ⟨hn, rfl⟩ := c
      simp only [rhsNames, Bool.and_eq_true, Bool.not_eq_true', List.isEmpty_iff] at hn
      exact absurd ((hs.var_names v hv).symm.trans hn.2) (hnamed v hv (hs.lhsInsts ▸ hn.1.1))
    · rw [if_neg c]; exact hs.var_names v hv
  lhsInsts := hs.lhsInsts
  budget := hs.budget_step ic hnamed hreach I

end RHSStep

/-- `InitSymbolTable` ends, where `varnum` does not overflow. It leaves every variable other than
the root one name per path from the root and the root one name more (`I`), every `Used` node a
name, and no name bound twice. -/
theorem initSymbolTable_spec (h : ic.WF) (root rhs : Nat) (hn : nameBound ic root ≤ intMax) :
    ∃ decls syms, initSymbolTable ic root rhs = some (decls, syms) ∧
      (∀ v, (ic.get v).k = .var → v ≠ root → (syms.names v).length = ic.paths root v) ∧
      (∀ v, (ic.get v).k = .var → ic.paths root v ≤ (syms.names v).length) ∧
      (∀ j, syms.used j = true → syms.names j ≠ []) ∧
      (∀ j, (syms.names j).Nodup) ∧ (∀ i j n, n ∈ syms.names i → n ∈ syms.names j → i = j) := by
  have hvp : varPaths ic root ≤ intMax := le_trans (Nat.le_add_right _ _) hn
  obtain ⟨s₁, h₁, hs₁⟩ := lhsLoop_inv ic h (LHSInv ic root) (fun _ _ _ hs => hs.step ic h)
    (fun _ _ _ hs hv => lt_of_lt_of_le (hs.varnum_lt ic h hv) hvp)
    (ic.treeSize root) [root] ⟨.empty, fun _ => false, fun _ => false, 0⟩ (by simp)
    ⟨fresh_empty, by simp [SymbolTable.empty], by simp [SymbolTable.empty], fun _ => rfl,
      by simp, by simp [ic.mem_reach_self], by simp⟩
  have hb₁ : s₁.varnum + (unnamedOps ic root s₁).card ≤ nameBound ic root := by
    have := Finset.card_le_card (Finset.monotone_filter_right (ic.reach root)
      (p := fun j => (ic.get j).k ≠ .var ∧ s₁.syms.used j = false) fun _ hj => hj.1)
    have := hs₁.varnum
    simp only [sumBy_nil, add_zero] at this
    rw [unnamedOps, nameBound]
    omega
  obtain ⟨s₂, h₂, hs₂⟩ := rhsLoop_inv ic h (fun _ s => RHSInv ic root s₁ s)
    (fun _ _ _ hs => hs.step ic hs₁.named hs₁.lhs_reach)
    (fun _ _ _ hs hn' => by
      have := hs.budget
      have := Finset.card_pos.mpr ⟨_, hs.mem_unnamedOps ic hs₁.named hs₁.lhs_reach hn'⟩
      omega)
    (ic.treeSize rhs) [rhs] s₁ (by simp)
    ⟨hs₁.fresh, fun j hj => by simp [hs₁.unused j] at hj, fun _ _ => rfl, rfl, hb₁⟩
  have count : ∀ v, (ic.get v).k = .var → (s₂.syms.names v).length = ic.paths root v := fun v hv => by
    simpa [hs₂.var_names v hv] using hs₁.count v hv
  refine ⟨_, _, by simp only [initSymbolTable, h₁, h₂, Option.bind_eq_bind, Option.some_bind]; rfl,
    fun v hv hne => ?_, fun v hv => ?_,
    fun j hj => ?_, (hs₂.fresh.push_I root).1, (hs₂.fresh.push_I root).2⟩
  · simpa [hne] using count v hv
  · have := count v hv
    by_cases e : v = root
    · subst e; simp [this]
    · simp [e, this]
  · by_cases e : j = root
    · simp [e]
    · simpa [e] using hs₂.used_named j hj

/-- Past `INT_MAX` paths from the root to a variable, `InitSymbolTable` has undefined behaviour:
the first walk reaches `varnum++` at `INT_MAX`. -/
theorem initSymbolTable_overflow (h : ic.WF) {root : Nat} (rhs : Nat)
    (hn : intMax < varPaths ic root) : initSymbolTable ic root rhs = none := by
  have := lhsLoop_overflow ic h (ic.treeSize root) [root] ⟨.empty, fun _ => false, fun _ => false, 0⟩
    (by simp) (Nat.zero_le _) (by simpa using hn)
  simp [initSymbolTable, this]

-- ════════════════════════════════════════════════════════════════════════
-- `GenLHSMatcher` consumes one name per path
-- ════════════════════════════════════════════════════════════════════════

/-- The Hoare triple of a generator: `r` is not undefined behaviour, and a success satisfies
`P`. -/
def NoUB {α : Type} (r : Except GenError α) (P : α → Prop) : Prop :=
  r ≠ .error .undefined ∧ ∀ a, r = .ok a → P a

section NoUB

variable {α β : Type} {P : α → Prop} {Q : β → Prop}

theorem NoUB.ok {a : α} (h : P a) : NoUB (.ok a) P := ⟨by simp, fun _ e => by cases e; exact h⟩

theorem NoUB.unimplemented (w : String) (K : Kind) : NoUB (.error (.unimplemented w K)) P :=
  ⟨by simp, fun _ e => by cases e⟩

theorem NoUB.mono {x : Except GenError α} {Q' : α → Prop} (hx : NoUB x P)
    (h : ∀ a, P a → Q' a) : NoUB x Q' := ⟨hx.1, fun a e => h a (hx.2 a e)⟩

theorem NoUB.bind {x : Except GenError α} {f : α → Except GenError β} (hx : NoUB x P)
    (hf : ∀ a, P a → NoUB (f a) Q) : NoUB (x >>= f) Q := by
  cases x with
  | error e => exact ⟨fun h => hx.1 (by cases h; rfl), fun _ h => by cases h⟩
  | ok a => exact hf a (hx.2 a rfl)

theorem NoUB.map {x : Except GenError α} {f : α → β} (hx : NoUB x P) (hf : ∀ a, P a → Q (f a)) :
    NoUB (x.map f) Q := by
  cases x with
  | error e => exact ⟨fun h => hx.1 (by cases h; rfl), fun _ h => by cases h⟩
  | ok a => exact NoUB.ok (hf a (hx.2 a rfl))

theorem NoUB.back {l : List String} (h : l ≠ []) : NoUB (back l) fun _ => True := by
  unfold MatcherGen.back
  cases e : l.getLast? with
  | none => exact absurd (List.getLast?_eq_none_iff.mp e) h
  | some n => exact NoUB.ok trivial

end NoUB

/-- Every `Used` operation or constant has a name. -/
def UsedNamed (T : SymbolTable) : Prop := ∀ j, T.used j = true → (ic.get j).k ≠ .var → T.names j ≠ []

/-- `T'` is `T` after a matcher consumed `k v` names of each variable `v` from the back of its
list, and touched nothing else. -/
structure Consumes (T T' : SymbolTable) (k : Nat → Nat) : Prop where
  length : ∀ v, (ic.get v).k = .var → (T'.names v).length + k v = (T.names v).length
  isPrefix : ∀ v, T'.names v <+: T.names v
  other : ∀ j, (ic.get j).k ≠ .var → T'.names j = T.names j
  used : T'.used = T.used

theorem Consumes.refl (T : SymbolTable) : Consumes ic T T fun _ => 0 :=
  ⟨fun _ _ => rfl, fun _ => List.prefix_refl _, fun _ _ => rfl, rfl⟩

theorem Consumes.trans {T T' T'' : SymbolTable} {k k' : Nat → Nat} (h₁ : Consumes ic T T' k)
    (h₂ : Consumes ic T' T'' k') : Consumes ic T T'' fun v => k v + k' v where
  length v hv := by have := h₁.length v hv; have := h₂.length v hv; omega
  isPrefix v := (h₂.isPrefix v).trans (h₁.isPrefix v)
  other j hj := (h₂.other j hj).trans (h₁.other j hj)
  used := h₂.used.trans h₁.used

theorem Consumes.congr {T T' : SymbolTable} {k k' : Nat → Nat} (h : Consumes ic T T' k)
    (hk : ∀ v, (ic.get v).k = .var → k v = k' v) : Consumes ic T T' k' :=
  ⟨fun v hv => hk v hv ▸ h.length v hv, h.isPrefix, h.other, h.used⟩

theorem Consumes.usedNamed {T T' : SymbolTable} {k : Nat → Nat} (h : Consumes ic T T' k)
    (hu : UsedNamed ic T) : UsedNamed ic T' := fun j hj hv => by
  rw [h.other j hv]; exact hu j (h.used ▸ hj) hv

/-- `pop_back` of a variable's names consumes one of them. -/
theorem Consumes.popBack {T : SymbolTable} {c : Nat} (hv : (ic.get c).k = .var)
    (hne : T.names c ≠ []) :
    Consumes ic T { T with names := fun j => if j = c then (T.names c).dropLast else T.names j }
      fun v => if c = v then 1 else 0 where
  length v _ := by
    by_cases e : v = c
    · subst e; simp only [if_true, List.length_dropLast]
      have := List.length_pos.mpr hne; omega
    · simp [e, Ne.symm e]
  isPrefix v := by
    dsimp only
    split_ifs with e
    · subst e; exact List.dropLast_prefix _
    · exact List.prefix_refl _
  other j hj := by
    dsimp only
    rw [if_neg (by rintro rfl; exact hj hv)]
  used := rfl

theorem usedPrefix_spec {T : SymbolTable} (hu : UsedNamed ic T) (I : Nat) :
    NoUB (usedPrefix ic T I) fun _ => True := by
  unfold usedPrefix
  split_ifs with hI
  · exact (NoUB.back (hu I hI.2 hI.1)).map fun _ _ => trivial
  · exact NoUB.ok trivial

/-- A leaf reaches no variable but itself. -/
theorem paths_leaf (h : ic.WF) {c v : Nat} (hc : (ic.get c).k = .var ∨ (ic.get c).k = .const) :
    ic.paths c v = if c = v then 1 else 0 := by
  rw [ic.paths_eq h, h.ops_eq_nil hc]; rfl

/-- An operand consumes one name of each variable per path to it. -/
theorem genOperand_spec (h : ic.WF) {rec : Nat → SymbolTable → Except GenError (String × SymbolTable)}
    {T : SymbolTable} {c : Nat} (hu : UsedNamed ic T)
    (hc : ∀ v, (ic.get v).k = .var → ic.paths c v ≤ (T.names v).length)
    (hrec : ic.IsOp c → NoUB (rec c T) fun r => Consumes ic T r.2 (ic.paths c ·)) :
    NoUB (genOperand ic rec T c) fun r => Consumes ic T r.2 (ic.paths c ·) := by
  unfold genOperand
  split_ifs with hk hv
  · refine (usedPrefix_spec ic hu c).bind fun _ _ => NoUB.ok ((Consumes.refl ic T).congr ic ?_)
    intro v hv
    rw [paths_leaf ic h (.inr hk), if_neg (by rintro rfl; simp [hk] at hv)]
  · have hne : T.names c ≠ [] := by
      have := hc c hv
      rw [paths_leaf ic h (.inl hv), if_pos rfl] at this
      exact List.ne_nil_of_length_pos this
    have ht : NoUB (varText ic T c) fun _ => True := by
      unfold varText
      split_ifs
      · exact (NoUB.back hne).map fun _ _ => trivial
      · exact NoUB.ok trivial
      · exact (NoUB.back hne).map fun _ _ => trivial
    refine ht.bind fun t _ => ?_
    rw [popBack, if_neg hne]
    exact NoUB.ok ((Consumes.popBack ic hv hne).congr ic fun v hv' => by
      rw [paths_leaf ic h (.inl hv)])
  · exact hrec ⟨hv, hk⟩

/-- The operand loop consumes, for each variable, the paths to it from every operand. -/
theorem operands_spec (h : ic.WF) (rec : Nat → SymbolTable → Except GenError (String × SymbolTable))
    (cs : List Nat) (hrec : ∀ c ∈ cs, ∀ T, UsedNamed ic T →
      (∀ v, (ic.get v).k = .var → ic.paths c v ≤ (T.names v).length) → ic.IsOp c →
        NoUB (rec c T) fun r => Consumes ic T r.2 (ic.paths c ·)) :
    ∀ (acc : List String) T, UsedNamed ic T →
      (∀ v, (ic.get v).k = .var → sumBy (ic.paths · v) cs ≤ (T.names v).length) →
      NoUB (cs.foldlM (fun (acc : List String × SymbolTable) c =>
          (genOperand ic rec acc.2 c).map fun r => (acc.1 ++ [r.1], r.2)) (acc, T))
        fun r => Consumes ic T r.2 fun v => sumBy (ic.paths · v) cs := by
  induction cs with
  | nil => exact fun _ T _ _ => NoUB.ok (Consumes.refl ic T)
  | cons c cs ih =>
    intro acc T hu hc
    rw [List.foldlM_cons]
    refine ((genOperand_spec ic h hu (fun v hv => ?_) (hrec c (List.mem_cons_self _ _) T hu
      (fun v hv => ?_))).map (Q := fun r => Consumes ic T r.2 (ic.paths c ·))
        fun r hr => hr).bind fun r hr => ?_
    · have := hc v hv; simp at this; omega
    · have := hc v hv; simp at this; omega
    · refine (ih (fun c' hc' => hrec c' (List.mem_cons_of_mem _ hc')) r.1 r.2 (hr.usedNamed ic hu)
        (fun v hv => ?_)).mono fun r' hr' => (hr.trans ic hr').congr ic fun v _ => ?_
      · have := hc v hv; have := hr.length v hv; simp at *; omega
      · simp

/-- `GenLHSMatcher` from a table with enough names: no undefined behaviour, and a success
consumes one name of each variable per path to it. -/
theorem genLHSMatcher_spec (h : ic.WF) :
    ∀ fuel I T, I < fuel → UsedNamed ic T →
      (∀ v, (ic.get v).k = .var → ic.paths I v ≤ (T.names v).length) →
      NoUB (genLHSMatcher ic fuel I T) fun r => Consumes ic T r.2 (ic.paths I ·) := by
  intro fuel
  induction fuel with
  | zero => intro I T hI; omega
  | succ fuel ih =>
    intro I T hI hu hc
    rw [genLHSMatcher]
    refine (usedPrefix_spec ic hu I).bind fun _ _ => ?_
    cases hm : matchOps (ic.get I).k with
    | none => exact NoUB.unimplemented _ _
    | some op =>
      refine (NoUB.ok (P := fun _ => True) trivial).bind fun _ _ => ?_
      dsimp only
      have hIv : (ic.get I).k ≠ .var := fun e => by rw [e] at hm; cases hm
      have hsum : ∀ v, (ic.get v).k = .var → sumBy (ic.paths · v) (ic.get I).ops = ic.paths I v :=
        fun v hv => by
          rw [ic.paths_eq h I v, if_neg (by rintro rfl; exact hIv hv)]; simp
      refine NoUB.bind (operands_spec ic h _ _ (fun c hc' T' hu' hc'' _ =>
          ih c T' (by have := h.lt_of_mem_ops hc'; omega) hu' hc'') [] T hu
          (fun v hv => hsum v hv ▸ hc v hv)) fun r hr => NoUB.ok (hr.congr ic hsum)

/-- A successful match starts at a kind `MatchOps` has: never at a variable. -/
theorem ne_var_of_genLHSMatcher {fuel I : Nat} {T : SymbolTable} {r : String × SymbolTable}
    (e : genLHSMatcher ic (fuel + 1) I T = .ok r) : (ic.get I).k ≠ .var := fun hv => by
  rw [genLHSMatcher, hv] at e
  cases hp : usedPrefix ic T I <;>
    simp only [hp, show matchOps .var = none from rfl, Option.elim, bind, Except.bind, reduceCtorEq] at e

/-- `InitSymbolTable` and `GenLHSMatcher` agree on the names of every LHS. `InitSymbolTable` gives
each variable other than the root one name per path from the root, and binds no name twice;
`GenLHSMatcher` never takes `back()` or `pop_back()` of an empty list, and a successful match
leaves every variable's list empty; `GenVarEqConstraints` asks every further name of a node to
equal its first. -/
theorem genLHSMatcher_consumes_names (ic : InstContext) (h : ic.WF) (R : ParsedReplacement)
    (hn : nameBound ic R.mapping.lhs ≤ intMax) :
    ∃ decls syms, initSymbolTable ic R.mapping.lhs R.mapping.rhs = some (decls, syms) ∧
      (∀ v, (ic.get v).k = .var → v ≠ R.mapping.lhs →
        (syms.names v).length = ic.paths R.mapping.lhs v) ∧
      ((∀ j, (syms.names j).Nodup) ∧ ∀ i j n, n ∈ syms.names i → n ∈ syms.names j → i = j) ∧
      genLHSMatcher ic (R.mapping.lhs + 1) R.mapping.lhs syms ≠ .error .undefined ∧
      (∀ text syms', genLHSMatcher ic (R.mapping.lhs + 1) R.mapping.lhs syms = .ok (text, syms') →
        ∀ v, (ic.get v).k = .var → syms'.names v = []) ∧
      ∀ v < ic.size, ∀ n ns, syms.names v = n :: ns → ∀ m ∈ ns,
        Constraint.varEq n m ∈ (genVarEqConstraints ic syms).constraints := by
  obtain ⟨decls, syms, hinit, hcount, hle, hused, hnd, hdis⟩ :=
    initSymbolTable_spec ic h R.mapping.lhs R.mapping.rhs hn
  have hm := genLHSMatcher_spec ic h (R.mapping.lhs + 1) R.mapping.lhs syms (by omega) (fun j hj _ => hused j hj) hle
  refine ⟨decls, syms, hinit, hcount, ⟨hnd, hdis⟩, hm.1, fun text syms' e v hv => ?_,
    fun v hv n ns e m hm => varEq_mem_genVarEqConstraints ic syms hv e hm⟩
  have hc : (syms'.names v).length + ic.paths R.mapping.lhs v = (syms.names v).length :=
    (hm.2 _ e).length v hv
  rw [hcount v hv fun hr => ne_var_of_genLHSMatcher ic e (hr ▸ hv)] at hc
  exact List.length_eq_zero.mp (by omega)

/-- `(x + x) * (x + x) ⇒ x` at width 8: four paths lead from the root to `x`. -/
def squareDoubleIc : InstContext := ⟨[.var 8 "x", .op .add 8 [0, 0], .op .mul 8 [1, 1]]⟩

def squareDoubleRule : ParsedReplacement := ⟨⟨2, 0⟩, [], []⟩

theorem genLHSMatcher_consumes_names_squareDouble :
    squareDoubleIc.WF ∧ nameBound squareDoubleIc squareDoubleRule.mapping.lhs ≤ intMax ∧
    ∃ decls syms, initSymbolTable squareDoubleIc squareDoubleRule.mapping.lhs
        squareDoubleRule.mapping.rhs = some (decls, syms) ∧
      (∀ v, (squareDoubleIc.get v).k = .var → v ≠ squareDoubleRule.mapping.lhs →
        (syms.names v).length = squareDoubleIc.paths squareDoubleRule.mapping.lhs v) ∧
      ((∀ j, (syms.names j).Nodup) ∧ ∀ i j n, n ∈ syms.names i → n ∈ syms.names j → i = j) ∧
      genLHSMatcher squareDoubleIc (squareDoubleRule.mapping.lhs + 1) squareDoubleRule.mapping.lhs
        syms ≠ .error .undefined ∧
      (∀ text syms', genLHSMatcher squareDoubleIc (squareDoubleRule.mapping.lhs + 1)
          squareDoubleRule.mapping.lhs syms = .ok (text, syms') →
        ∀ v, (squareDoubleIc.get v).k = .var → syms'.names v = []) ∧
      ∀ v < squareDoubleIc.size, ∀ n ns, syms.names v = n :: ns → ∀ m ∈ ns,
        Constraint.varEq n m ∈ (genVarEqConstraints squareDoubleIc syms).constraints :=
  ⟨by decide, by decide,
    genLHSMatcher_consumes_names squareDoubleIc (by decide) squareDoubleRule (by decide)⟩

/-- The chain `x₁ = x + x`, `x₂ = x₁ + x₁`, … of `n` self-additions over one 32-bit variable `x`:
node `k` has `2 ^ k` paths to `x`. -/
def doublingIc (n : Nat) : InstContext :=
  ⟨.var 32 "x" :: (List.range n).map fun k => .op .add 32 [k, k]⟩

theorem doublingIc_get_succ {n k : Nat} (hk : k < n) :
    (doublingIc n).get (k + 1) = .op .add 32 [k, k] := by
  simp [doublingIc, InstContext.get, hk]

/-- The self-additions are interned: each adds a distinct node to itself. -/
theorem doublingIc_wf (n : Nat) : (doublingIc n).WF := by
  have hget : ∀ i < (doublingIc n).size, (doublingIc n).get i = .var 32 "x" ∨
      ∃ k, i = k + 1 ∧ (doublingIc n).get i = .op .add 32 [k, k] := fun i hi => by
    rcases i with _ | k
    · exact .inl (by simp [doublingIc, InstContext.get])
    · exact .inr ⟨k, rfl, doublingIc_get_succ (by simpa [doublingIc, InstContext.size] using hi)⟩
  refine ⟨fun i hi j hj => ?_, fun i hi hk => ?_, fun i hi j hj hv _ hk _ hops => ?_,
    fun i hi _ _ hc => ?_⟩
  · rcases hget i hi with h | ⟨k, rfl, h⟩ <;> rw [h] at hj <;> simp at hj
    omega
  · rcases hget i hi with h | ⟨k, rfl, h⟩ <;> rw [h] at hk ⊢ <;> simp at hk ⊢
  · rcases hget i hi with h | ⟨a, rfl, ha⟩
    · rw [h] at hv; simp at hv
    rcases hget j hj with h | ⟨b, rfl, hb⟩
    · rw [ha, h] at hk; simp at hk
    · rw [ha, hb] at hops; simp at hops; omega
  · rcases hget i hi with h | ⟨k, rfl, h⟩ <;> rw [h] at hc <;> simp at hc

theorem varPaths_doublingIc {n : Nat} (h : (doublingIc n).WF) :
    ∀ k ≤ n, varPaths (doublingIc n) k = 2 ^ k
  | 0, _ => by rw [varPaths_eq _ h]; simp [doublingIc, InstContext.get, sumBy]
  | k + 1, hk => by
    rw [varPaths_eq _ h, doublingIc_get_succ (by omega)]
    simp [sumBy, varPaths_doublingIc h k (by omega), pow_succ]
    omega

/-- The LHS of 31 self-additions has `2 ^ 31` paths from its root to `x`: `InitSymbolTable`'s first
walk reaches `varnum++` at `INT_MAX`, undefined behaviour, before any name is consumed. -/
theorem initSymbolTable_doubling :
    (doublingIc 31).WF ∧ varPaths (doublingIc 31) 31 = 2 ^ 31 ∧
      initSymbolTable (doublingIc 31) 31 0 = none := by
  have hp := varPaths_doublingIc (doublingIc_wf 31) 31 le_rfl
  exact ⟨doublingIc_wf 31, hp, initSymbolTable_overflow _ (doublingIc_wf 31) 0 (by rw [hp]; decide)⟩

end Souper.MatcherGen
