import Mathlib.Data.List.Sort
import Souper.Inst.Eval
import Souper.Generalize.Fixit

/-!
# Symbolizing constants (`SymbolizeAndGeneralize`, the `-symbolize` action)

`SymbolizeAndGeneralize` replaces constants of the LHS by fresh variables (`fakeconst_i`), asks
enumerative synthesis for expressions over them to stand for the first constant of the RHS, and
keeps a guess when constant synthesis finds values for its synthesis constants, or when the
precondition inferrer finds the rule valid with no known-bits precondition. Every kept guess is
emitted as a `CandidateReplacement` built from the mapping alone.

## Main definitions

- `Synthesis` — the two synthesis engines, external to the repository
- `StdSort` — `std::sort`, bound only by its contract
- `utilities`, `rankGuesses`, `emitUnconditional` — the `Utility` loop, `Idx` after the sort, and
  the emission loop
- `symbolizeWith` — the inner `SymbolizeAndGeneralize`, for one set of LHS constants
- `symbolizeAndGeneralize` — the outer one: each constant alone, then all at once

## Main results

- `symbolizeAndGeneralize_eq_none_iff` — the run reads `RHSConsts[0]` past the end exactly when
  the RHS has no constant; the vectors indexed together have equal lengths
- `rankGuesses_conditional_first` — the ranking neither puts the guesses needing no precondition
  first nor keeps ties in order
- `symbolizeAndGeneralize_xPlusOne` — a run in which every answer of the inferrer is correct and
  an emitted candidate is not valid as emitted
-/

namespace Souper.Generalize

open InstContext

/-- The synthesis engines `SymbolizeAndGeneralize` calls, neither under src/:
`EnumerativeSynthesis::generateExprs` (the guesses over the given inputs at the given width, built
in the context) and `ConstantSynthesis::synthesize` (values for the synthesis constants making the
mapping valid, `ResultConstMap`, empty when it found none). -/
structure Synthesis where
  generateExprs : InstContext → Nat → List Nat → Nat → InstContext × List Nat
  synthesize : InstContext → List BlockPCMapping → List InstMapping → InstMapping → List Nat →
    List (Nat × APInt)

/-- Modelled from the spec: `souper::getConstants` is not under src/. The synthesis constants (the
variables with a synthesis constant id) a node reaches, in index order. -/
def getConstants (ic : InstContext) (i : Nat) : List Nat :=
  (List.range (i + 1)).filter fun j =>
    j ∈ ic.reach i ∧ (ic.get j).k = .var ∧ (ic.get j).synthesisConstID ≠ 0

/-- Modelled from the spec: `findInsts` with `I->K == Inst::Const` is not under src/. The
constants a node reaches, in index order. -/
def findConsts (ic : InstContext) (i : Nat) : List Nat :=
  (List.range (i + 1)).filter fun j => j ∈ ic.reach i ∧ (ic.get j).k = .const

/-- The `FakeConsts` loop: a fresh variable `fakeconst_i` for the `i`-th LHS constant, of its
width. -/
def createFakeConsts (ic : InstContext) (consts : List Nat) : InstContext × List Nat :=
  consts.enum.foldl (fun acc p =>
    ((acc.1.createVar (ic.get p.2).width ("fakeconst_" ++ toString p.1)).1,
      acc.2 ++ [(acc.1.createVar (ic.get p.2).width ("fakeconst_" ++ toString p.1)).2]))
    (ic, [])

/-- `APInt::countPopulation`. -/
def popCount (a : APInt) : Nat := (List.range a.width).countP (a.toNat.testBit ·)

/-- `W - Zero.countPopulation() + W - One.countPopulation()`, with `W` the width of the known
bits: the unknown bits of an alternative's fact, counted once per mask. -/
def kbUtility (kb : KnownBits) : Nat :=
  (kb.zero.width - popCount kb.zero) + (kb.zero.width - popCount kb.one)

/-- `Utility[i]`: none for a dropped guess, 1000 when no precondition is needed, plus the unknown
bits of every alternative. -/
def utility (guess : Option Nat) (pre : List (List (Nat × KnownBits))) : Nat :=
  match guess with
  | none => 0
  | some _ => (if pre.isEmpty then 1000 else 0) +
      (pre.map fun d => (d.map (kbUtility ·.2)).foldr (· + ·) 0).foldr (· + ·) 0

/-- The `Utility` loop, over the indices of `Preconditions`: `Guesses[i]` is read at each. -/
def utilities (guesses : List (Option Nat))
    (preconditions : List (List (List (Nat × KnownBits)))) : List Nat :=
  (List.range preconditions.length).map fun i =>
    utility (guesses.getD i none) (preconditions.getD i [])

/-- `std::sort(Idx.begin(), Idx.end(), Comp)` with `Comp(a, b)` = `Key[a] > Key[b]`. The standard
fixes only that the result is a permutation of `Idx` in which no index is followed by one of a
greater key; the order of equal keys is the library's. The sort is a parameter of the model,
bound by that contract. -/
structure StdSort where
  sort : (Nat → Nat) → List Nat → List Nat
  perm : ∀ key l, (sort key l).Perm l
  sorted : ∀ key l, (sort key l).Sorted fun a b => key b ≤ key a

/-- The order libstdc++'s `std::sort` gives fewer than 17 elements, which it sorts by insertion:
equal keys keep their order. -/
def stableSort : StdSort where
  sort key l := l.insertionSort fun a b => key b ≤ key a
  perm _ l := List.perm_insertionSort _ l
  sorted key l :=
    haveI : IsTotal Nat fun a b => key b ≤ key a := ⟨fun a b => le_total (key b) (key a)⟩
    haveI : IsTrans Nat fun a b => key b ≤ key a := ⟨fun _ _ _ h₁ h₂ => h₂.trans h₁⟩
    List.sorted_insertionSort _ l

/-- Another order the contract admits: equal keys in reverse. -/
def reverseTieSort : StdSort where
  sort key l := l.reverse.insertionSort fun a b => key b ≤ key a
  perm _ l := (List.perm_insertionSort _ _).trans (List.reverse_perm l)
  sorted key l :=
    haveI : IsTotal Nat fun a b => key b ≤ key a := ⟨fun a b => le_total (key b) (key a)⟩
    haveI : IsTrans Nat fun a b => key b ≤ key a := ⟨fun _ _ _ h₁ h₂ => h₂.trans h₁⟩
    List.sorted_insertionSort _ l.reverse

/-- `Idx` after the `std::sort`: the indices of `Guesses`, by `Utility` descending. -/
def rankGuesses (ss : StdSort) (guesses : List (Option Nat))
    (preconditions : List (List (List (Nat × KnownBits)))) : List Nat :=
  ss.sort (fun i => (utilities guesses preconditions).getD i 0) (List.range guesses.length)

/-- The emission loop: in the order `idx`, the mapping to each kept guess whose `Preconditions`
entry is empty. -/
def emitUnconditional (lhs : Nat) (guesses : List (Option Nat))
    (preconditions : List (List (List (Nat × KnownBits)))) (idx : List Nat)
    (results : List InstMapping) : List InstMapping :=
  idx.foldl (fun acc i =>
    match preconditions.getD i [], guesses.getD i none with
    | [], some rhs => acc ++ [⟨lhs, rhs⟩]
    | _, _ => acc) results

section Symbolize

variable (S : Solver) (syn : Synthesis) (opts : Options) (ss : StdSort) (R : ParsedReplacement)

/-- The first loop over the guesses, for one guess with synthesis constants: copy the RHS with the
first RHS constant replaced by the guess, synthesize the constants, and on success emit the rule
with them substituted. -/
def synthesizeGuess (lhs rhsConst : Nat) (memo : List (Nat × Nat)) (ic : InstContext)
    (results : List InstMapping) (guess : Nat) : InstContext × List InstMapping :=
  let rhs := getInstCopy [] (ic, (rhsConst, guess) :: memo) R.mapping.rhs
  let cmap := syn.synthesize rhs.1.1 R.bpcs R.pcs ⟨lhs, rhs.2⟩ (getConstants rhs.1.1 guess)
  if cmap.isEmpty then (rhs.1.1, results)
  else
    let rhs' := getInstCopy cmap (rhs.1.1, []) rhs.2
    (rhs'.1.1, results ++ [⟨lhs, rhs'.2⟩])

/-- The second loop, for one guess without synthesis constants: copy the RHS with the guess, and
ask the inferrer for a precondition (unless `-symbolize-no-dataflow`). Returns the known-bits
alternatives and the guess, dropped (`nullptr`) unless a weakest precondition was found. -/
def inferGuess (lhs rhsConst : Nat) (memo : List (Nat × Nat)) (ic : InstContext) (guess : Nat) :
    InstContext × List (List (Nat × KnownBits)) × Option Nat :=
  let rhs := getInstCopy [] (ic, (rhsConst, guess) :: memo) R.mapping.rhs
  let a : PreconditionAnswer := if opts.symbolizeNoDFP then ⟨false, [], []⟩
    else S.abstractPrecondition rhs.1.1 R.bpcs R.pcs ⟨lhs, rhs.2⟩
  (rhs.1.1, a.kbResults, if a.foundWP then some rhs.2 else none)

/-- The inner `SymbolizeAndGeneralize` for the LHS constants `lhsConsts`: the context and
`Results` after it; `none` where it reads `RHSConsts[0]` of no RHS constant. -/
def symbolizeWith (lhsConsts rhsConsts : List Nat) (ic : InstContext)
    (results : List InstMapping) : Option (InstContext × List InstMapping) :=
  match rhsConsts with
  | [] => none
  | rhsConst :: _ =>
    let fakes := createFakeConsts ic lhsConsts
    let guesses := syn.generateExprs fakes.1 opts.symbolizeNumInsts fakes.2
      (fakes.1.get rhsConst).width
    let lhs := getInstCopy [] (guesses.1, (lhsConsts.zip fakes.2).reverse) R.mapping.lhs
    -- guesses with synthesis constants go to constant synthesis, the others to the inferrer
    let withConsts := guesses.2.filter fun g => getConstants lhs.1.1 g ≠ []
    let s₁ := withConsts.foldl (fun acc g =>
      synthesizeGuess syn R lhs.2 rhsConst lhs.1.2 acc.1 acc.2 g) (lhs.1.1, results)
    let inferred := mapThread (inferGuess S opts R lhs.2 rhsConst lhs.1.2) s₁.1
      (guesses.2.filter fun g => getConstants lhs.1.1 g = [])
    -- each iteration pushed its alternatives to `Preconditions` and rewrote its guess in place
    let preconditions := inferred.2.map Prod.fst
    let kept := inferred.2.map Prod.snd
    some (inferred.1,
      emitUnconditional lhs.2 kept preconditions (rankGuesses ss kept preconditions) s₁.2)

/-- `SymbolizeAndGeneralize(IC, S, Input)`: each LHS constant alone, then all of them at once,
into one `Results`, which it prints. -/
def symbolizeAndGeneralize (ic : InstContext) : Option (InstContext × List InstMapping) :=
  ((findConsts ic R.mapping.lhs).map (fun c => [c]) ++ [findConsts ic R.mapping.lhs]).foldlM
    (fun acc cs => symbolizeWith S syn opts ss R cs (findConsts ic R.mapping.rhs) acc.1 acc.2)
    (ic, [])

end Symbolize

-- ════════════════════════════════════════════════════════════════════════
-- The action only allocates
-- ════════════════════════════════════════════════════════════════════════

section Allocation

/-- What the run needs of the enumerator: it builds its guesses by allocation, keeping the
context well formed, and every guess lies in the context it returns. -/
def GuessesByAllocation (syn : Synthesis) : Prop :=
  ∀ ic n ins w, ic.WF → (syn.generateExprs ic n ins w).1.WF ∧
    ic.Extends (syn.generateExprs ic n ins w).1 ∧
    ∀ g ∈ (syn.generateExprs ic n ins w).2, g < (syn.generateExprs ic n ins w).1.size

variable (S : Solver) (syn : Synthesis) (opts : Options) (ss : StdSort) {R : ParsedReplacement}

theorem createFakeConsts_extends {ic : InstContext} (hwf : ic.WF) (consts : List Nat) :
    (createFakeConsts ic consts).1.WF ∧ ic.Extends (createFakeConsts ic consts).1 ∧
      ∀ f ∈ (createFakeConsts ic consts).2, f < (createFakeConsts ic consts).1.size := by
  suffices ∀ (l : List (Nat × Nat)) (acc : InstContext × List Nat), acc.1.WF →
      ic.Extends acc.1 → (∀ f ∈ acc.2, f < acc.1.size) →
      let r := l.foldl (fun acc p =>
        ((acc.1.createVar (ic.get p.2).width ("fakeconst_" ++ toString p.1)).1,
          acc.2 ++ [(acc.1.createVar (ic.get p.2).width ("fakeconst_" ++ toString p.1)).2])) acc
      r.1.WF ∧ ic.Extends r.1 ∧ ∀ f ∈ r.2, f < r.1.size from
    this consts.enum (ic, []) hwf (.refl _) (by simp)
  intro l
  induction l with
  | nil => exact fun acc h₁ h₂ h₃ => ⟨h₁, h₂, h₃⟩
  | cons p l ih =>
    intro acc h₁ h₂ h₃
    refine ih _ (h₁.createVar _ _) (h₂.trans (createVar_extends _ _ _)) fun f hf => ?_
    rcases List.mem_append.mp hf with hf | hf
    · have := h₃ f hf; simp only [size_createVar]; omega
    · simp only [List.mem_singleton.mp hf, createVar_snd, size_createVar]; omega

/-- Copying the RHS with a guess in place of its constant only allocates. -/
theorem copyWithGuess_extends {ic : InstContext} {memo : List (Nat × Nat)} (rhsConst : Nat)
    {guess : Nat} (hwf : ic.WF) (hr : R.mapping.rhs < ic.size) (hm : ∀ p ∈ memo, p.2 < ic.size)
    (hg : guess < ic.size) :
    (getInstCopy [] (ic, (rhsConst, guess) :: memo) R.mapping.rhs).1.1.WF ∧
      ic.Extends (getInstCopy [] (ic, (rhsConst, guess) :: memo) R.mapping.rhs).1.1 ∧
      (getInstCopy [] (ic, (rhsConst, guess) :: memo) R.mapping.rhs).2 <
        (getInstCopy [] (ic, (rhsConst, guess) :: memo) R.mapping.rhs).1.1.size := by
  obtain ⟨h₁, h₂, -, h₄⟩ := @getInstCopy_wf [] (ic, (rhsConst, guess) :: memo) _ hr hwf
    (by simpa only [List.mem_cons, forall_eq_or_imp] using ⟨hg, hm⟩)
  exact ⟨h₁, h₂, h₄⟩

theorem synthesizeGuess_extends {lhs rhsConst : Nat} {memo : List (Nat × Nat)} {ic : InstContext}
    (results : List InstMapping) {guess : Nat} (hwf : ic.WF) (hr : R.mapping.rhs < ic.size)
    (hm : ∀ p ∈ memo, p.2 < ic.size) (hg : guess < ic.size) :
    (synthesizeGuess syn R lhs rhsConst memo ic results guess).1.WF ∧
      ic.Extends (synthesizeGuess syn R lhs rhsConst memo ic results guess).1 := by
  obtain ⟨h₁, h₂, h₃⟩ := copyWithGuess_extends rhsConst hwf hr hm hg
  unfold synthesizeGuess
  dsimp only
  split_ifs
  · exact ⟨h₁, h₂⟩
  · obtain ⟨h₄, h₅, -⟩ := getInstCopy_wf (s := (_, [])) h₃ h₁ (by simp)
    exact ⟨h₄, h₂.trans h₅⟩

theorem inferGuess_extends {lhs rhsConst : Nat} {memo : List (Nat × Nat)} {ic : InstContext}
    {guess : Nat} (hwf : ic.WF) (hr : R.mapping.rhs < ic.size) (hm : ∀ p ∈ memo, p.2 < ic.size)
    (hg : guess < ic.size) :
    (inferGuess S opts R lhs rhsConst memo ic guess).1.WF ∧
      ic.Extends (inferGuess S opts R lhs rhsConst memo ic guess).1 :=
  (copyWithGuess_extends rhsConst hwf hr hm hg).imp_right And.left

/-- One inner `SymbolizeAndGeneralize` only allocates, when the enumerator does. -/
theorem symbolizeWith_extends (hsyn : GuessesByAllocation syn) {lhsConsts rhsConsts : List Nat}
    {ic : InstContext} {results : List InstMapping} {p : InstContext × List InstMapping}
    (hwf : ic.WF) (hR : ∀ r ∈ R.roots, r < ic.size)
    (h : symbolizeWith S syn opts ss R lhsConsts rhsConsts ic results = some p) :
    p.1.WF ∧ ic.Extends p.1 := by
  unfold symbolizeWith at h
  split at h
  · cases h
  rename_i rhsConst _
  cases h
  -- the fresh variables, then the guesses
  obtain ⟨hwf₁, he₁, hf₁⟩ := createFakeConsts_extends hwf lhsConsts
  set fakes := createFakeConsts ic lhsConsts
  obtain ⟨hwf₂, he₂, hg₂⟩ := hsyn fakes.1 opts.symbolizeNumInsts fakes.2
    (fakes.1.get rhsConst).width hwf₁
  set guesses := syn.generateExprs fakes.1 opts.symbolizeNumInsts fakes.2
    (fakes.1.get rhsConst).width
  have he₀ := he₁.trans he₂
  -- the copy of the LHS with the fresh variables in place of its constants
  obtain ⟨hwf₃, he₃, hm₃, -⟩ := @getInstCopy_wf [] (guesses.1, (lhsConsts.zip fakes.2).reverse) _
    (lt_of_lt_of_le (hR _ R.lhs_mem_roots) he₀.size_le) hwf₂ fun q hq =>
      lt_of_lt_of_le (hf₁ _ (List.of_mem_zip (List.mem_reverse.mp hq)).2) he₂.size_le
  set lhs := getInstCopy [] (guesses.1, (lhsConsts.zip fakes.2).reverse) R.mapping.lhs
  have hsize : ∀ {ic'}, lhs.1.1.Extends ic' → guesses.1.size ≤ ic'.size ∧
      R.mapping.rhs < ic'.size ∧ ∀ q ∈ lhs.1.2, q.2 < ic'.size := fun he =>
    ⟨he₃.size_le.trans he.size_le,
      lt_of_lt_of_le (hR _ R.rhs_mem_roots) ((he₀.trans he₃).trans he).size_le,
      fun q hq => lt_of_lt_of_le (hm₃ q hq) he.size_le⟩
  -- the first loop, then the second
  have hloop₁ : ∀ (l : List Nat) (acc : InstContext × List InstMapping), (∀ g ∈ l, g ∈ guesses.2) →
      acc.1.WF → lhs.1.1.Extends acc.1 →
      let r := l.foldl (fun acc g =>
        synthesizeGuess syn R lhs.2 rhsConst lhs.1.2 acc.1 acc.2 g) acc
      r.1.WF ∧ lhs.1.1.Extends r.1 := by
    intro l
    induction l with
    | nil => exact fun acc _ h₁ h₂ => ⟨h₁, h₂⟩
    | cons g l ih =>
      intro acc hl h₁ h₂
      obtain ⟨hs, hr, hm⟩ := hsize h₂
      obtain ⟨h₃, h₄⟩ := synthesizeGuess_extends syn acc.2 h₁ hr hm
        (lt_of_lt_of_le (hg₂ g (hl g (List.mem_cons_self g l))) hs)
      exact ih _ (fun g' hg' => hl g' (List.mem_cons_of_mem g hg')) h₃ (h₂.trans h₄)
  obtain ⟨hwf₄, he₄⟩ := hloop₁ _ (lhs.1.1, results) (fun g hg => (List.mem_filter.mp hg).1) hwf₃
    (.refl _)
  obtain ⟨⟨hwf₅, he₅⟩, -, -⟩ := mapThread_spec (inferGuess S opts R lhs.2 rhsConst lhs.1.2)
    (fun ic' => ic'.WF ∧ lhs.1.1.Extends ic') (fun a b => a.Extends b) (fun _ _ _ => True)
    (fun _ => .refl _) (fun _ _ _ => InstContext.Extends.trans) (fun _ _ _ _ _ _ _ => trivial)
    (guesses.2.filter fun g => getConstants lhs.1.1 g = [])
    (fun ic' g hg ⟨h₁, h₂⟩ => by
      obtain ⟨hs, hr, hm⟩ := hsize h₂
      obtain ⟨h₃, h₄⟩ := inferGuess_extends S opts h₁ hr hm
        (lt_of_lt_of_le (hg₂ g (List.mem_filter.mp hg).1) hs)
      exact ⟨⟨h₃, h₂.trans h₄⟩, h₄, trivial⟩)
    _ ⟨hwf₄, he₄⟩
  exact ⟨hwf₅, ((he₀.trans he₃).trans he₅)⟩

/-- `SymbolizeAndGeneralize` only allocates, when the enumerator does. -/
theorem symbolizeAndGeneralize_extends (hsyn : GuessesByAllocation syn) {ic : InstContext}
    {p : InstContext × List InstMapping} (hwf : ic.WF) (hR : ∀ r ∈ R.roots, r < ic.size)
    (h : symbolizeAndGeneralize S syn opts ss R ic = some p) : p.1.WF ∧ ic.Extends p.1 :=
  foldlM_inv _ (fun acc : InstContext × List InstMapping => acc.1.WF ∧ ic.Extends acc.1) _
    (fun acc _ acc' _ ⟨h₁, h₂⟩ hstep => by
      obtain ⟨h₃, h₄⟩ := symbolizeWith_extends S syn opts ss hsyn h₁
        (fun r hr => lt_of_lt_of_le (hR r hr) h₂.size_le) hstep
      exact ⟨h₃, h₂.trans h₄⟩)
    (ic, []) p ⟨hwf, .refl _⟩ h

end Allocation

-- ════════════════════════════════════════════════════════════════════════
-- Ranking the guesses
-- ════════════════════════════════════════════════════════════════════════

@[simp] theorem length_utilities (guesses : List (Option Nat))
    (preconditions : List (List (List (Nat × KnownBits)))) :
    (utilities guesses preconditions).length = preconditions.length := by
  simp [utilities]

/-- `Idx` holds exactly the indices of `Guesses`. -/
theorem mem_rankGuesses (ss : StdSort) (guesses : List (Option Nat))
    (preconditions : List (List (List (Nat × KnownBits)))) {i : Nat} :
    i ∈ rankGuesses ss guesses preconditions ↔ i < guesses.length := by
  rw [rankGuesses, (ss.perm _ _).mem_iff, List.mem_range]

/-- Every `std::sort` puts the greater of two distinct keys first. -/
theorem StdSort.sort_pair (ss : StdSort) {key : Nat → Nat} {a b : Nat} (h : key a < key b) :
    ss.sort key [a, b] = [b, a] := by
  have hp := ss.perm key [a, b]
  have hs := ss.sorted key [a, b]
  have hab : a ≠ b := fun e => by rw [e] at h; omega
  match hl : ss.sort key [a, b], hp.length_eq with
  | [x, y], _ =>
    rw [hl] at hp hs
    have hle : key y ≤ key x := List.rel_of_sorted_cons hs y (List.mem_singleton_self _)
    have hxy : x ≠ y := by simpa using hp.nodup_iff.mpr (by simpa using hab)
    have hx : x = a ∨ x = b := by simpa using hp.subset (List.mem_cons_self x [y])
    have hy : y = a ∨ y = b := by simpa using hp.subset (by simp : y ∈ [x, y])
    rcases hx with rfl | rfl <;> rcases hy with rfl | rfl
    all_goals first | exact absurd rfl hxy | omega | rfl

@[simp] theorem symbolizeWith_nil (S : Solver) (syn : Synthesis) (opts : Options) (ss : StdSort)
    (R : ParsedReplacement) (lhsConsts : List Nat) (ic : InstContext)
    (results : List InstMapping) : symbolizeWith S syn opts ss R lhsConsts [] ic results = none :=
  rfl

/-- `SymbolizeAndGeneralize` reads `RHSConsts[0]` in its all-at-once call even when the RHS has no
constant: it fails (`none`, a read past the end of the vector) exactly on the rules whose RHS is
constant-free. Where it goes on, `Guesses` and `Preconditions`, both made by the second loop, are
as long as each other, `Utility` is as long as `Preconditions`, and every index in `Idx` is in
range of all three. -/
theorem symbolizeAndGeneralize_eq_none_iff (S : Solver) (syn : Synthesis) (opts : Options)
    (ss : StdSort) (R : ParsedReplacement) (ic : InstContext) :
    (symbolizeAndGeneralize S syn opts ss R ic = none ↔ findConsts ic R.mapping.rhs = []) ∧
    ∀ inferred : List (List (List (Nat × KnownBits)) × Option Nat),
      (inferred.map Prod.snd).length = (inferred.map Prod.fst).length ∧
      (utilities (inferred.map Prod.snd) (inferred.map Prod.fst)).length =
        (inferred.map Prod.fst).length ∧
      ∀ i ∈ rankGuesses ss (inferred.map Prod.snd) (inferred.map Prod.fst),
        i < (inferred.map Prod.fst).length := by
  refine ⟨?_, fun inferred => ⟨by simp, by simp, fun i hi => ?_⟩⟩
  · unfold symbolizeAndGeneralize
    cases findConsts ic R.mapping.rhs with
    | nil => simp [List.foldlM_append]
    | cons c rest =>
      obtain ⟨r, hr, -⟩ := foldlM_some_of_inv
        (fun acc cs => symbolizeWith S syn opts ss R cs (c :: rest) acc.1 acc.2) (fun _ => True)
        _ (fun _ _ _ _ => ⟨_, rfl, trivial⟩) (ic, []) trivial
      rw [hr]
      simp
  · simpa using (mem_rankGuesses ss _ _).mp hi

/-- Eight alternatives, each knowing one of the low bits of the 64-bit variable at node 0 to be
zero. -/
def oneBitAlternatives : List (List (Nat × KnownBits)) :=
  (List.range 8).map fun k => [(0, ⟨.ofNat 64 (2 ^ k), .ofNat 64 0⟩)]

/-- An inferrer whose every answer is a weakest precondition of one range fact and no known bits:
the variable at node 0 lies in `[1, 2)`. -/
def rangeOnlySolver : Solver where
  isValid _ _ _ _ := ⟨none, true⟩
  abstractPrecondition _ _ _ _ := ⟨true, [], [[(0, ⟨.ofNat 8 1, .ofNat 8 2⟩)]]⟩

/-- The ranking does not put the guesses needing no precondition first, nor keep ties in order.
A guess whose precondition is eight one-bit alternatives over a 64-bit variable has utility 1016,
above the 1000 of a guess needing none, so every `std::sort` ranks it first; of two guesses
needing none, a sort the standard admits ranks and emits the second first; and a weakest
precondition made of a range alone is recorded as no precondition, its guess kept, so it is
ranked and emitted as an unconditional one. -/
theorem rankGuesses_conditional_first :
    utilities [some 1, some 2] [[], oneBitAlternatives] = [1000, 1016] ∧
    (∀ ss : StdSort, rankGuesses ss [some 1, some 2] [[], oneBitAlternatives] = [1, 0]) ∧
    emitUnconditional 3 [some 1, some 2] [[], []]
      (rankGuesses stableSort [some 1, some 2] [[], []]) [] = [⟨3, 1⟩, ⟨3, 2⟩] ∧
    emitUnconditional 3 [some 1, some 2] [[], []]
      (rankGuesses reverseTieSort [some 1, some 2] [[], []]) [] = [⟨3, 2⟩, ⟨3, 1⟩] ∧
    ∀ R lhs rhsConst memo ic guess,
      (inferGuess rangeOnlySolver {} R lhs rhsConst memo ic guess).2.1 = [] ∧
      (inferGuess rangeOnlySolver {} R lhs rhsConst memo ic guess).2.2.isSome := by
  have hu : utilities [some 1, some 2] [[], oneBitAlternatives] = [1000, 1016] := by decide
  refine ⟨hu, fun ss => ?_, by decide, by decide, fun _ _ _ _ _ _ => ⟨rfl, rfl⟩⟩
  rw [rankGuesses, hu]
  exact ss.sort_pair (by decide)

-- ════════════════════════════════════════════════════════════════════════
-- The engines' contracts
-- ════════════════════════════════════════════════════════════════════════

/-- The precondition inferrer's contract: a weakest precondition with no alternative means the
mapping is valid under the path conditions, and each alternative, written into the variables, makes
it valid. -/
def InferrerContract (S : Solver) : Prop :=
  ∀ ic bpcs pcs m,
    ((S.abstractPrecondition ic bpcs pcs m).foundWP = true →
      (S.abstractPrecondition ic bpcs pcs m).kbResults = [] →
      (S.abstractPrecondition ic bpcs pcs m).crResults = [] → ic.ValidUnder pcs m) ∧
    (∀ d ∈ (S.abstractPrecondition ic bpcs pcs m).kbResults,
      (d.foldl setKnownBits ic).ValidUnder pcs m) ∧
    (∀ d ∈ (S.abstractPrecondition ic bpcs pcs m).crResults, (d.foldl setRange ic).ValidUnder pcs m)

/-- Constant synthesis's contract: a non-empty answer makes the mapping valid under the path
conditions once its synthesis constants take the values found. -/
def SynthesisContract (syn : Synthesis) : Prop :=
  ∀ ic bpcs pcs m cs, syn.synthesize ic bpcs pcs m cs ≠ [] →
    ∀ σ, (∀ p ∈ syn.synthesize ic bpcs pcs m cs, σ p.1 % 2 ^ (ic.get p.1).width = p.2.toNat) →
      ic.FactsHold σ (ic.nodes ⟨m, pcs, []⟩) → ic.PCsHold σ pcs →
        ∀ v, ic.eval σ m.lhs = some v → ic.eval σ m.rhs = some v

-- ════════════════════════════════════════════════════════════════════════
-- A rule that holds only under its path condition
-- ════════════════════════════════════════════════════════════════════════

/-- The rule `x + 1 ⇒ 1` under the path condition `x = 0`, at width 8. -/
def xPlusOneIc : InstContext :=
  ⟨[.var 8 "x", .const (.ofNat 8 1), .op .add 8 [0, 1], .const (.ofNat 8 0)]⟩

def xPlusOneRule : ParsedReplacement := ⟨⟨2, 1⟩, [⟨0, 3⟩], []⟩

/-- Engines that guess the inputs themselves and never synthesize a constant. -/
def inputGuesses : Synthesis where
  generateExprs ic _ inputs _ := (ic, inputs)
  synthesize _ _ _ _ _ := []

/-- An inferrer that knows one fact: over the variable `x` and the zero of `x + 1 ⇒ 1`, the rule
`x + r ⇒ r` holds under `x = 0` for every variable `r` of width 8. It finds nothing else. -/
def zeroAddSolver : Solver where
  isValid _ _ _ _ := ⟨none, false⟩
  abstractPrecondition ic _ pcs m :=
    if pcs = [⟨0, 3⟩] ∧ ic.get 0 = .var 8 "x" ∧ ic.get 3 = .const (.ofNat 8 0) ∧
        ic.get m.lhs = .op .add 8 [0, m.rhs] ∧ (ic.get m.rhs).k = .var ∧ (ic.get m.rhs).width = 8
    then ⟨true, [], []⟩ else ⟨false, [], []⟩

theorem zeroAddSolver_contract : InferrerContract zeroAddSolver := by
  intro ic bpcs pcs m
  simp only [zeroAddSolver]
  split_ifs with h
  · obtain ⟨rfl, h0, h3, hl, hrk, hrw⟩ := h
    refine ⟨fun _ _ _ σ _ hpc v hv => ?_, by simp, by simp⟩
    have hk0 : (ic.get 0).k = .var := by rw [h0]; rfl
    have hkl : (ic.get m.lhs).k = .add := by rw [hl]; rfl
    obtain ⟨f, hf⟩ : ∃ f, m.lhs = f + 1 :=
      ⟨m.lhs - 1, by have : m.lhs ≠ 0 := fun h => by rw [h, hk0] at hkl; cases hkl
                     omega⟩
    -- the values of `x`, of the zero, of `r` and of `x + r`
    have ex : ic.evalAux σ (f + 1) 0 = some (σ 0 % 2 ^ 8) := by
      rw [show f + 1 = f + 1 from rfl, evalAux_var hk0, h0]; rfl
    have ez : ic.eval σ 3 = some 0 := by
      rw [eval, evalAux_const (by rw [h3]; rfl), h3]; rfl
    have er : ∀ g, ic.evalAux σ (g + 1) m.rhs = some (σ m.rhs % 2 ^ 8) := fun g => by
      rw [evalAux_var hrk, hrw]
    have el : ic.eval σ m.lhs = some ((σ 0 % 2 ^ 8 + σ m.rhs % 2 ^ 8) % 2 ^ 8) := by
      have hl' : ic.get (f + 1) = .op .add 8 [0, m.rhs] := hf ▸ hl
      rw [eval, hf, @evalAux_op ic σ (f + 1) (f + 1) (by rw [hl', Inst.op_k]; decide)
        (by rw [hl', Inst.op_k]; decide), hl']
      simp only [Inst.op_ops, List.mapM_cons, List.mapM_nil, ex, er, hrw, Option.map_some',
        Option.bind_eq_bind, Option.some_bind, h0, Inst.var_width, Inst.op_k, Inst.op_width]
      rfl
    obtain ⟨u, hu0, hu3⟩ := hpc _ (List.mem_singleton_self _)
    rw [ez] at hu3
    cases hu3
    rw [eval, evalAux_var hk0, h0] at hu0
    rw [el] at hv
    rw [eval, er]
    simp only [Inst.var_width, Option.some.injEq] at hu0 hv ⊢
    omega
  · simp

/-- The context after symbolizing `x + 1 ⇒ 1`: each of the two calls adds a `fakeconst_0` and
`x + fakeconst_0` over it. -/
def xPlusOneSymbolizedIc : InstContext :=
  ⟨xPlusOneIc.insts ++
    [.var 8 "fakeconst_0", .op .add 8 [0, 4], .var 8 "fakeconst_0", .op .add 8 [0, 6]]⟩

/-- On `x + 1 ⇒ 1` under `x = 0`, with engines that meet their contracts (and libstdc++'s sort,
each call ranking one guess), `SymbolizeAndGeneralize` emits `x + fakeconst_0 ⇒ fakeconst_0`
(once per call) without the path condition, and as emitted it is not valid: at `x = 1`,
`fakeconst_0 = 0` its sides differ. -/
theorem symbolizeAndGeneralize_xPlusOne :
    InferrerContract zeroAddSolver ∧ SynthesisContract inputGuesses ∧
      symbolizeAndGeneralize zeroAddSolver inputGuesses {} stableSort xPlusOneRule xPlusOneIc =
        some (xPlusOneSymbolizedIc, [⟨5, 4⟩, ⟨7, 6⟩]) ∧
      ¬ xPlusOneSymbolizedIc.ValidUnder [] ⟨5, 4⟩ := by
  refine ⟨zeroAddSolver_contract, fun _ _ _ _ _ h => absurd rfl h, by decide, fun h => ?_⟩
  have := h (fun j => if j = 0 then 1 else 0) (by decide) (by simp [PCsHold]) 1 (by decide)
  exact absurd this (by decide)

end Souper.Generalize
