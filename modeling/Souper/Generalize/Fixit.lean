import Souper.Generalize.Basic

/-!
# Fixing a rule with preconditions (`Generalize`, the `-fixit` action)

`Generalize` asks the solver for preconditions under which the input rule holds: alternatives
over known bits, or over constant ranges. For each alternative it writes the facts into the
variables of the rule, in place, through the `Inst *` keys of the answer, and prints the rule.
Nothing restores the facts, so an alternative's writes stay in the context for the next
alternative and for every later action on the same context.

## Main definitions

- `setKnownBits`, `setRange` — the in-place writes of one fact
- `applyDisjuncts` — the loop over the alternatives
- `generalize` — `Generalize`

## Main results

- `applyDisjuncts_fst`, `applyDisjuncts_snd` — the context printed for an alternative is the
  input context with that alternative and all earlier ones written over it, in order
- `get_foldl_setKnownBits` — a node carries the facts of the last write to it
-/

namespace Souper.Generalize

open InstContext

/-- `Pair.first->KnownOnes = Pair.second.One; Pair.first->KnownZeros = Pair.second.Zero`. -/
def setKnownBits (ic : InstContext) (p : Nat × KnownBits) : InstContext :=
  ic.setInst p.1 { ic.get p.1 with knownOnes := p.2.one, knownZeros := p.2.zero }

/-- `Pair.first->Range = Pair.second`. -/
def setRange (ic : InstContext) (p : Nat × ConstantRange) : InstContext :=
  ic.setInst p.1 { ic.get p.1 with range := p.2 }

/-- The loop over one kind of alternative: write the alternative's facts over whatever the
previous alternatives wrote, then print the rule (`Input.print`) as the context now holds it. -/
def applyDisjuncts {α : Type} (write : InstContext → Nat × α → InstContext)
    (print : InstContext → ParsedReplacement → String) (R : ParsedReplacement) :
    InstContext → List (List (Nat × α)) → InstContext × List String
  | ic, [] => (ic, [])
  | ic, d :: ds =>
    ((applyDisjuncts write print R (d.foldl write ic) ds).1,
      print (d.foldl write ic) R :: (applyDisjuncts write print R (d.foldl write ic) ds).2)

/-- `Generalize`: the context, with the writes of every alternative, and the printed lines.
`print` is `ParsedReplacement::print`, which is not under src/. -/
def generalize (S : Solver) (print : InstContext → ParsedReplacement → String)
    (ic : InstContext) (R : ParsedReplacement) : InstContext × List String :=
  let a := S.abstractPrecondition ic R.bpcs R.pcs R.mapping
  if a.foundWP && a.kbResults.isEmpty && a.crResults.isEmpty then (ic, [print ic R])
  else if !a.kbResults.isEmpty then applyDisjuncts setKnownBits print R ic a.kbResults
  else if !a.crResults.isEmpty then applyDisjuncts setRange print R ic a.crResults
  else (ic, [])

-- ════════════════════════════════════════════════════════════════════════
-- What the writes do
-- ════════════════════════════════════════════════════════════════════════

section Writes

variable {α : Type} (write : InstContext → Nat × α → InstContext)
  (print : InstContext → ParsedReplacement → String) (R : ParsedReplacement)

/-- After the loop the context holds every alternative's writes, in order. -/
theorem applyDisjuncts_fst (ds : List (List (Nat × α))) :
    ∀ ic, (applyDisjuncts write print R ic ds).1 = ds.flatten.foldl write ic := by
  induction ds with
  | nil => intro ic; rfl
  | cons d ds ih => intro ic; simp [applyDisjuncts, ih, List.foldl_append]

/-- The rule is printed once per alternative, each time in the input context with that
alternative and every earlier one written over it. -/
theorem applyDisjuncts_snd (ds : List (List (Nat × α))) :
    ∀ ic, (applyDisjuncts write print R ic ds).2 =
      ds.inits.tail.map fun pre => print (pre.flatten.foldl write ic) R := by
  induction ds with
  | nil => intro ic; rfl
  | cons d ds ih =>
    intro ic
    rw [applyDisjuncts, ih]
    cases ds <;> simp [List.foldl_append]

end Writes

@[simp] theorem size_setKnownBits (ic : InstContext) (p : Nat × KnownBits) :
    (setKnownBits ic p).size = ic.size := size_setInst _ _ _

@[simp] theorem size_setRange (ic : InstContext) (p : Nat × ConstantRange) :
    (setRange ic p).size = ic.size := size_setInst _ _ _

theorem WF.setKnownBits {ic : InstContext} (h : ic.WF) (p : Nat × KnownBits) :
    (setKnownBits ic p).WF := h.setInst rfl rfl rfl rfl

theorem WF.setRange {ic : InstContext} (h : ic.WF) (p : Nat × ConstantRange) :
    (setRange ic p).WF := h.setInst rfl rfl rfl rfl

/-- The last value written to node `j` by a sequence of writes. -/
def lastWrite {α : Type} (l : List (Nat × α)) (j : Nat) : Option α :=
  (l.reverse.find? fun p => p.1 = j).map Prod.snd

theorem lastWrite_cons {α : Type} (p : Nat × α) (l : List (Nat × α)) (j : Nat) :
    lastWrite (p :: l) j = (lastWrite l j).or (if p.1 = j then some p.2 else none) := by
  simp only [lastWrite, List.reverse_cons, List.find?_append, List.find?_singleton]
  cases List.find? (fun p => decide (p.1 = j)) l.reverse <;> by_cases h : p.1 = j <;> simp [h]

/-- A node carries the known bits of the last write to it, or its own if none wrote it; its
other fields are untouched. -/
theorem get_foldl_setKnownBits (l : List (Nat × KnownBits)) :
    ∀ ic : InstContext, ∀ j < ic.size, (l.foldl setKnownBits ic).get j =
      match lastWrite l j with
      | some kb => { ic.get j with knownOnes := kb.one, knownZeros := kb.zero }
      | none => ic.get j := by
  induction l with
  | nil => intro ic j _; rfl
  | cons p l ih =>
    intro ic j hj
    rw [List.foldl_cons, ih _ j (by simpa using hj), lastWrite_cons]
    cases lastWrite l j <;> by_cases h : p.1 = j <;>
      simp [setKnownBits, get_setInst, h, hj]

-- ════════════════════════════════════════════════════════════════════════
-- Alternatives that constrain different variables
-- ════════════════════════════════════════════════════════════════════════

/-- The rule `x & y ⇒ 0` at width 8. -/
def andZeroIc : InstContext :=
  ⟨[.var 8 "x", .var 8 "y", .op .and 8 [0, 1], .const (.ofNat 8 0)]⟩

def andZeroRule : ParsedReplacement := ⟨⟨2, 3⟩, [], []⟩

/-- Known bits saying that every bit of a byte is zero. -/
def zeroBits : KnownBits := ⟨.ofNat 8 255, .ofNat 8 0⟩

/-- A solver that fixes `x & y ⇒ 0` with two alternatives: `x` is zero, or `y` is zero. -/
def zeroOperandSolver : Solver where
  isValid _ _ _ _ := ⟨none, false⟩
  abstractPrecondition _ _ _ _ := ⟨true, [[(0, zeroBits)], [(1, zeroBits)]], []⟩

/-- On `x & y ⇒ 0` with the alternatives `x = 0` and `y = 0`, `Generalize` prints the rule for
the second alternative in a context where `x` still carries the first alternative's facts, and
returns with both variables' facts overwritten. -/
theorem generalize_andZero (print : InstContext → ParsedReplacement → String) :
    generalize zeroOperandSolver print andZeroIc andZeroRule =
      (setKnownBits (setKnownBits andZeroIc (0, zeroBits)) (1, zeroBits),
        [print (setKnownBits andZeroIc (0, zeroBits)) andZeroRule,
          print (setKnownBits (setKnownBits andZeroIc (0, zeroBits)) (1, zeroBits)) andZeroRule]) ∧
      ((setKnownBits (setKnownBits andZeroIc (0, zeroBits)) (1, zeroBits)).get 0).knownZeros =
        .ofNat 8 255 ∧
      (andZeroIc.get 0).knownZeros = .ofNat 8 0 :=
  ⟨rfl, by decide, by decide⟩

end Souper.Generalize
