import Mathlib.Data.List.Sort
import Mathlib.Data.String.Basic
import Souper.Generalize.Basic
import Souper.Generalize.Collect

/-!
# The reducer (`ReduceRec`, `ReduceAndGeneralize`)

The reducer searches depth first for smaller rules: for every operation of the rule that is not a
root, it replaces the operation by a fresh variable `newvarN`, asks the solver whether the result
is valid, and on a valid answer records the result and recurses on it. A do-not-repeat set of
texts stops the search from exploring a rule whose text it has seen.

Two things the source leaves open are parameters here: `getString`, the rule's text
(`ParsedReplacement::getString(false)`, not under src/), and `order`, the iteration order of the
`std::unordered_set` of collected nodes.

## Main definitions

- `ReduceState` — the context, the function-static counter `varnum`, `Results`, `DNR`, and the
  lines written to standard error
- `elide` — the loop body up to the validity query
- `reduceStep`, `reduceRec` — `ReduceRec`, with its recursion depth bounded by `fuel`
- `reduceAndGeneralize` — `ReduceAndGeneralize` and what it prints

## Main results

- `elide_card_nonLeafNodes_lt` — eliding a collected operation lowers the number of reachable
  operations; the number of reachable nodes does not grow (`elide_card_nodes_le`)
- `reduceRec_spec` — with fuel above that number, `ReduceRec` finishes, and records only rules
  with fewer reachable operations than its input
- `printedResults_spec` — the printed texts are distinct and ascending in length: every recorded
  text under `-reduce-all-results`, otherwise one of the shortest
-/

namespace Souper.Generalize

open InstContext

/-- What `ReduceRec` threads through its calls: the context, the counter `varnum`, `Results`,
`DNR`, and the lines written to standard error. `varnum` is a function-static `int`, modelled as a
number that each elision increments by one; the increment at `INT_MAX` is undefined behaviour,
which `main` checks once the action returns (`Generalize.reduceBlock`). -/
structure ReduceState where
  ic : InstContext
  varnum : Nat
  results : List ParsedReplacement
  dnr : List String
  errs : List String
  deriving DecidableEq

/-- The body of `ReduceRec`'s loop up to the solver query: a fresh variable `newvarN` of `I`'s
width, and the rule copied with `I` replaced by it everywhere, one memo shared by all roots. -/
def elide (st : ReduceState) (R : ParsedReplacement) (I : Nat) : ReduceState × ParsedReplacement :=
  let v := st.ic.createVar (st.ic.get I).width ("newvar" ++ toString st.varnum)
  let c := copyRule [] (v.1, [(I, v.2)]) R
  ({ st with ic := c.1.1, varnum := st.varnum + 1 }, c.2)

@[simp] theorem elide_varnum (st : ReduceState) (R : ParsedReplacement) (I : Nat) :
    (elide st R I).1.varnum = st.varnum + 1 := rfl

@[simp] theorem elide_results (st : ReduceState) (R : ParsedReplacement) (I : Nat) :
    (elide st R I).1.results = st.results := rfl

@[simp] theorem elide_errs (st : ReduceState) (R : ParsedReplacement) (I : Nat) :
    (elide st R I).1.errs = st.errs := rfl

/-- The nodes `ReduceRec` skips: the two roots of the mapping, variables and constants. -/
def skipped (ic : InstContext) (R : ParsedReplacement) (I : Nat) : Prop :=
  I = R.mapping.lhs ∨ I = R.mapping.rhs ∨ (ic.get I).k = .var ∨ (ic.get I).k = .const

instance (ic : InstContext) (R : ParsedReplacement) : DecidablePred (skipped ic R) := fun _ => by
  unfold skipped; infer_instance

theorem isOp_of_not_skipped {ic : InstContext} {R : ParsedReplacement} {I : Nat}
    (h : ¬ skipped ic R I) : ic.IsOp I := by
  unfold skipped at h
  exact ⟨fun h' => h (.inr (.inr (.inl h'))), fun h' => h (.inr (.inr (.inr h')))⟩

section Reduce

variable (S : Solver) (getString : InstContext → ParsedReplacement → String)
  (order : InstContext → List Nat → List Nat)

/-- One iteration of `ReduceRec`'s loop over the collected nodes of `R`; `rec` is the recursive
call. An error from `isValid` is written to standard error, and then only `Valid` is read. -/
def reduceStep (rec : ReduceState → ParsedReplacement → Option ReduceState)
    (R : ParsedReplacement) (st : ReduceState) (I : Nat) : Option ReduceState :=
  if skipped st.ic R I then some st
  else
    let e := elide st R I
    let a := S.isValid e.1.ic e.2.bpcs e.2.pcs e.2.mapping
    let st' := { e.1 with errs := e.1.errs ++ a.ec.toList }
    if a.valid then rec { st' with results := st'.results ++ [e.2] } e.2 else some st'

/-- `ReduceRec`, with its recursion depth bounded by `fuel` (`none` when the bound is hit, or
when `collectInsts` does not finish). -/
def reduceRec : Nat → ReduceState → ParsedReplacement → Option ReduceState
  | 0, _, _ => none
  | fuel + 1, st, R =>
    if getString st.ic R ∈ st.dnr then some st
    else
      match collectAll st.ic R with
      | none => none
      | some insts =>
        if insts.length ≤ 1 then some { st with dnr := getString st.ic R :: st.dnr }
        else
          (order st.ic insts).foldlM (reduceStep S (reduceRec fuel) R)
            { st with dnr := getString st.ic R :: st.dnr }

/-- The texts `ReduceAndGeneralize` prints: deduplicated (a `std::set`, so in lexicographic
order), sorted by length, and only the first unless `-reduce-all-results`. `std::sort` is not
stable; the model keeps texts of one length in lexicographic order, one of the orders it may
leave. -/
def printedResults (opts : Options) (texts : List String) : List String :=
  let sorted := (texts.eraseDups.insertionSort (fun a b => ¬ b < a)).insertionSort
    (fun a b => a.length ≤ b.length)
  if opts.reducePrintAll then sorted else sorted.take 1

/-- The loop of `List.eraseDups` keeps its accumulator duplicate-free and loses no element. -/
theorem eraseDups_loop_spec {α : Type} [BEq α] [LawfulBEq α] :
    ∀ (as bs : List α), bs.Nodup →
      (List.eraseDups.loop as bs).Nodup ∧ ∀ x, x ∈ List.eraseDups.loop as bs ↔ x ∈ as ∨ x ∈ bs
  | [], bs, h => by simpa [List.eraseDups.loop] using h
  | a :: as, bs, h => by
    by_cases ha : a ∈ bs
    · simp only [List.eraseDups.loop, List.elem_iff.mpr ha]
      refine (eraseDups_loop_spec as bs h).imp_right fun hm x => ?_
      rw [hm, List.mem_cons]
      exact ⟨fun h => h.imp_left .inr, by rintro ((rfl | h) | h) <;> simp only [h, ha, or_true, true_or]⟩
    · have he : List.elem a bs = false := Bool.eq_false_iff.mpr (mt List.elem_iff.mp ha)
      simp only [List.eraseDups.loop, he]
      refine (eraseDups_loop_spec as (a :: bs) (List.nodup_cons.mpr ⟨ha, h⟩)).imp_right
        fun hm x => ?_
      rw [hm]; simp only [List.mem_cons, or_assoc, or_left_comm]

theorem nodup_eraseDups {α : Type} [BEq α] [LawfulBEq α] (l : List α) : l.eraseDups.Nodup :=
  (eraseDups_loop_spec l [] List.nodup_nil).1

theorem mem_eraseDups {α : Type} [BEq α] [LawfulBEq α] {l : List α} {x : α} :
    x ∈ l.eraseDups ↔ x ∈ l := by
  simpa using (eraseDups_loop_spec l [] List.nodup_nil).2 x


/-- The texts sorted as `ReduceAndGeneralize` sorts them are the distinct recorded texts, in
ascending length. -/
theorem sortedResults_spec (texts : List String) :
    let sorted := (texts.eraseDups.insertionSort (fun a b => ¬ b < a)).insertionSort
      (fun a b : String => a.length ≤ b.length)
    sorted.Nodup ∧ sorted.Sorted (fun a b => a.length ≤ b.length) ∧ ∀ t, t ∈ sorted ↔ t ∈ texts := by
  intro sorted
  have hperm : sorted.Perm texts.eraseDups :=
    (List.perm_insertionSort _ _).trans (List.perm_insertionSort _ _)
  haveI : IsTotal String (fun a b => a.length ≤ b.length) := ⟨fun a b => le_total _ _⟩
  haveI : IsTrans String (fun a b => a.length ≤ b.length) := ⟨fun _ _ _ => le_trans⟩
  exact ⟨hperm.nodup_iff.mpr (nodup_eraseDups texts), List.sorted_insertionSort _ _,
    fun t => hperm.mem_iff.trans mem_eraseDups⟩

/-- What `ReduceAndGeneralize` prints of the recorded texts: each at most once and in ascending
length; with `-reduce-all-results` every recorded text, and otherwise one of the shortest. -/
theorem printedResults_spec (opts : Options) (texts : List String) :
    (printedResults opts texts).Nodup ∧
      (printedResults opts texts).Sorted (fun a b => a.length ≤ b.length) ∧
      (∀ t ∈ printedResults opts texts, t ∈ texts) ∧
      (opts.reducePrintAll = true → ∀ t ∈ texts, t ∈ printedResults opts texts) ∧
      (opts.reducePrintAll = false → texts ≠ [] →
        ∃ t, printedResults opts texts = [t] ∧ ∀ u ∈ texts, t.length ≤ u.length) := by
  obtain ⟨hnd, hs, hmem⟩ := sortedResults_spec texts
  unfold printedResults
  cases hall : opts.reducePrintAll
  · generalize (texts.eraseDups.insertionSort (fun a b => ¬ b < a)).insertionSort
      (fun a b : String => a.length ≤ b.length) = sorted at hnd hs hmem ⊢
    cases sorted with
    | nil => exact ⟨List.nodup_nil, List.sorted_nil, by simp, nofun, fun _ hne => absurd
        (List.eq_nil_iff_forall_not_mem.mpr fun u hu => by simpa using (hmem u).mpr hu) hne⟩
    | cons t rest =>
      have ht : ∀ u ∈ texts, t.length ≤ u.length := fun u hu => by
        rcases List.mem_cons.mp ((hmem u).mpr hu) with rfl | hu'
        · exact le_rfl
        · exact List.rel_of_sorted_cons hs u hu'
      exact ⟨List.nodup_singleton t, List.sorted_singleton t,
        fun u hu => (hmem u).mp (List.mem_singleton.mp hu ▸ List.mem_cons_self t rest), nofun,
        fun _ _ => ⟨t, rfl, ht⟩⟩
  · exact ⟨hnd, hs, fun t ht => (hmem t).mp ht, fun _ t ht => (hmem t).mpr ht, nofun⟩

/-- What `ReduceAndGeneralize` leaves behind: the context, the counter, and the lines written to
standard output and to standard error. -/
structure ReduceOutput where
  ic : InstContext
  varnum : Nat
  outs : List String
  errs : List String

/-- `ReduceAndGeneralize`: check the input, reduce it, print the results. -/
def reduceAndGeneralize (opts : Options) (ic : InstContext) (varnum : Nat)
    (R : ParsedReplacement) : Option ReduceOutput :=
  let a := S.isValid ic R.bpcs R.pcs R.mapping
  if !a.valid then some ⟨ic, varnum, [], a.ec.toList ++ ["Invalid Input."]⟩
  else
    (reduceRec S getString order (ic.size + 1) ⟨ic, varnum, [], [], a.ec.toList⟩ R).map fun st =>
      ⟨st.ic, st.varnum,
        if st.results.isEmpty then [] else printedResults opts (st.results.map (getString st.ic)),
        st.errs⟩

/-- An iteration over a skipped node changes nothing, so neither does a loop over skipped
nodes. -/
theorem foldlM_reduceStep_skipped (rec : ReduceState → ParsedReplacement → Option ReduceState)
    (R : ParsedReplacement) (st : ReduceState) :
    ∀ l : List Nat, (∀ I ∈ l, skipped st.ic R I) → l.foldlM (reduceStep S rec R) st = some st
  | [], _ => rfl
  | I :: l, h => by
    simp only [List.foldlM_cons, reduceStep, if_pos (h I (List.mem_cons_self _ _)),
      Option.some_bind]
    exact foldlM_reduceStep_skipped rec R st l fun J hJ => h J (List.mem_cons_of_mem _ hJ)

end Reduce

-- ════════════════════════════════════════════════════════════════════════
-- The measure: reachable operations
-- ════════════════════════════════════════════════════════════════════════

section Measure

variable {st : ReduceState} {R : ParsedReplacement} {I : Nat}

/-- `elide` copies the rule into the context holding the fresh variable: the context stays well
formed and only allocates, the variable sits at the old size, and the new rule is a `RuleCopy` of
the old one under the substitution of the variable for `I`. -/
theorem elide_copy (hwf : st.ic.WF) (hR : ∀ r ∈ R.roots, r < st.ic.size) (hI : I < st.ic.size) :
    (elide st R I).1.ic.WF ∧ st.ic.Extends (elide st R I).1.ic ∧
      (elide st R I).1.ic.get st.ic.size = .var (st.ic.get I).width ("newvar" ++ toString st.varnum) ∧
      RuleCopy [(I, st.ic.size)].lookup [].lookup (elide st R I).1.ic R (elide st R I).2 := by
  set v := st.ic.createVar (st.ic.get I).width ("newvar" ++ toString st.varnum)
  have hv : v.1.size = st.ic.size + 1 := size_createVar _ _ _
  have hinit : CopyInv [(I, st.ic.size)] [] (v.1, [(I, st.ic.size)]) :=
    ⟨(hwf.createVar _ _), by simpa using CopyOf.subst (by omega) (by omega) (by simp),
      List.suffix_refl _⟩
  obtain ⟨hinv, hext, hcopy⟩ :=
    copyRule_spec (fun r hr => show r < v.1.size by have := hR r hr; omega) hinit
  refine ⟨hinv.wf, (createVar_extends _ _ _).trans hext.1, ?_, hcopy⟩
  change (copyRule [] (v.1, [(I, st.ic.size)]) R).1.1.get st.ic.size = _
  rw [hext.1.get_eq (show st.ic.size < v.1.size by omega)]
  exact get_createVar_self _ _ _

/-- `elide` keeps the context well formed and only allocates; the new rule's roots exist, and
each node it reaches is a copy of a node the old rule reaches, under a substitution that only puts
in the fresh variable. -/
theorem elide_spec (hwf : st.ic.WF) (hR : ∀ r ∈ R.roots, r < st.ic.size) (hI : I < st.ic.size) :
    (elide st R I).1.ic.WF ∧ st.ic.Extends (elide st R I).1.ic ∧
      (∀ r ∈ (elide st R I).2.roots, r < (elide st R I).1.ic.size) ∧
      (∀ e m', [(I, st.ic.size)].lookup e = some m' → ¬ (elide st R I).1.ic.IsOp m') ∧
      ∀ x ∈ (elide st R I).1.ic.nodes (elide st R I).2, ∃ y ∈ st.ic.nodes R,
        CopyOf [(I, st.ic.size)].lookup [].lookup (elide st R I).1.ic y x := by
  obtain ⟨hwf', hext', hvar, hcopy⟩ := elide_copy hwf hR hI
  have hσ : ∀ e m', [(I, st.ic.size)].lookup e = some m' → ¬ (elide st R I).1.ic.IsOp m' := by
    intro e m' he
    have hm : m' = st.ic.size := by
      rw [lookup_cons_ite] at he
      split_ifs at he <;> simp_all
    subst hm
    simp [IsOp, hvar]
  refine ⟨hwf', hext', fun r' hr' => (hcopy.roots r' hr').elim fun _ h => h.2.lt_size.2, hσ,
    fun x hx => ?_⟩
  obtain ⟨y, hy, hyx⟩ := hcopy.nodes hwf' hσ x hx
  exact ⟨y, by rwa [← hext'.nodes_eq hwf hR], hyx⟩

/-- Eliding does not add reachable nodes. -/
theorem elide_card_nodes_le (hwf : st.ic.WF) (hR : ∀ r ∈ R.roots, r < st.ic.size)
    (hI : I < st.ic.size) :
    ((elide st R I).1.ic.nodes (elide st R I).2).card ≤ (st.ic.nodes R).card := by
  obtain ⟨hwf', -, -, -, hcopy⟩ := elide_spec hwf hR hI
  exact CopyOf.card_le hwf' hcopy

/-- Eliding a reachable operation removes at least that operation from the reachable ones: every
reachable operation of the new rule is the copy of a reachable operation of the old rule other
than the elided one, and copies are functional. -/
theorem elide_card_nonLeafNodes_lt (hwf : st.ic.WF) (hR : ∀ r ∈ R.roots, r < st.ic.size)
    (hI : I ∈ st.ic.nonLeafNodes R) :
    ((elide st R I).1.ic.nonLeafNodes (elide st R I).2).card < (st.ic.nonLeafNodes R).card := by
  obtain ⟨hIn, -⟩ := Finset.mem_filter.mp hI
  obtain ⟨hwf', hext, -, hσ, hcopy⟩ := elide_spec hwf hR (st.ic.lt_size_of_mem_nodes hwf hR hIn)
  have hsub : ∀ x ∈ (elide st R I).1.ic.nonLeafNodes (elide st R I).2,
      ∃ y ∈ (st.ic.nonLeafNodes R).erase I,
        CopyOf [(I, st.ic.size)].lookup [].lookup (elide st R I).1.ic y x := by
    intro x hx
    obtain ⟨hxn, hxop⟩ := Finset.mem_filter.mp hx
    obtain ⟨y, hy, hyx⟩ := hcopy x hxn
    obtain ⟨hyop, hyσ⟩ := hyx.isOp_of_isOp hσ hxop
    have hyI : y ≠ I := by rintro rfl; simp at hyσ
    have hyop' := (hext.isOp_iff (st.ic.lt_size_of_mem_nodes hwf hR hy)).mp hyop
    exact ⟨y, Finset.mem_erase.mpr ⟨hyI, Finset.mem_filter.mpr ⟨hy, hyop'⟩⟩, hyx⟩
  calc _ ≤ ((st.ic.nonLeafNodes R).erase I).card := CopyOf.card_le hwf' hsub
    _ < _ := Finset.card_erase_lt_of_mem hI

/-- A recorded rule: its roots exist in `ic`, and it reaches fewer than `n` operations. -/
def Smaller (ic : InstContext) (n : Nat) (R' : ParsedReplacement) : Prop :=
  (∀ r ∈ R'.roots, r < ic.size) ∧ (ic.nonLeafNodes R').card < n

theorem Smaller.mono {ic ic' : InstContext} (hwf : ic.WF) (he : ic.Extends ic') {n : Nat}
    {R' : ParsedReplacement} (h : Smaller ic n R') : Smaller ic' n R' :=
  ⟨fun r hr => lt_of_lt_of_le (h.1 r hr) he.size_le, he.nonLeafNodes_eq hwf h.1 ▸ h.2⟩

/-- What the reducer keeps from a call on `R` in state `st` to a later state `st'`: the context
stays well formed and only allocates, and every rule recorded since is `Smaller` than `R`. -/
structure Reduced (st : ReduceState) (R : ParsedReplacement) (st' : ReduceState) : Prop where
  wf : st'.ic.WF
  ext : st.ic.Extends st'.ic
  results : ∃ new, st'.results = st.results ++ new ∧
    ∀ R' ∈ new, Smaller st'.ic (st.ic.nonLeafNodes R).card R'

theorem Reduced.refl (hwf : st.ic.WF) (st' : ReduceState) (hic : st'.ic = st.ic)
    (hres : st'.results = st.results) : Reduced st R st' :=
  ⟨hic ▸ hwf, hic ▸ .refl _, ⟨[], by simp [hres], by simp⟩⟩

/-- Moving on to a state that only allocated and recorded nothing keeps `Reduced`. -/
theorem Reduced.extend {st' st'' : ReduceState} (h : Reduced st R st') (hwf : st''.ic.WF)
    (he : st'.ic.Extends st''.ic) (hres : st''.results = st'.results) : Reduced st R st'' := by
  obtain ⟨new, hnew, hsm⟩ := h.results
  exact ⟨hwf, h.ext.trans he, new, hres.trans hnew, fun R' hR' => (hsm R' hR').mono h.wf he⟩

/-- A recursive call on a recorded rule that is `Smaller` than `R` keeps `Reduced`: what the
call records is smaller still. -/
theorem Reduced.recurse {stc st₁ st₂ : ReduceState} {R' : ParsedReplacement}
    (h : Reduced st R stc) (h₂ : Reduced st₁ R' st₂) (he : stc.ic.Extends st₁.ic)
    (hwf₁ : st₁.ic.WF) (hres : st₁.results = stc.results ++ [R'])
    (hsm : Smaller st₁.ic (st.ic.nonLeafNodes R).card R') : Reduced st R st₂ := by
  obtain ⟨new, hnew, hsmn⟩ := h.results
  obtain ⟨new₂, hnew₂, hsm₂⟩ := h₂.results
  refine ⟨h₂.wf, h.ext.trans (he.trans h₂.ext), new ++ R' :: new₂, by simp [hnew₂, hres, hnew],
    fun R'' hR'' => ?_⟩
  rcases List.mem_append.mp hR'' with h₁ | h₁
  · exact (hsmn R'' h₁).mono h.wf (he.trans h₂.ext)
  rcases List.mem_cons.mp h₁ with rfl | h₁
  · exact hsm.mono hwf₁ h₂.ext
  · exact ⟨(hsm₂ R'' h₁).1, (hsm₂ R'' h₁).2.trans hsm.2⟩

end Measure

-- ════════════════════════════════════════════════════════════════════════
-- A solver that only answers with errors
-- ════════════════════════════════════════════════════════════════════════

/-- A solver whose every validity check fails with an error, the out-parameter `Valid` left
`true`, and which finds no precondition. -/
def erringSolver : Solver where
  isValid _ _ _ _ := ⟨some "solver unreachable", true⟩
  abstractPrecondition _ _ _ _ := ⟨false, [], []⟩

/-- The context of the rule `x * x + x ⇒ x` at width 8. -/
def squareAddIc : InstContext := ⟨[.var 8 "x", .op .mul 8 [0, 0], .op .add 8 [1, 0]]⟩

/-- The rule `x * x + x ⇒ x`. -/
def squareAddRule : ParsedReplacement := ⟨⟨2, 0⟩, [], []⟩

/-- The context after eliding the product of `x * x + x ⇒ x`. -/
def squareAddElidedIc : InstContext :=
  ⟨squareAddIc.insts ++ [.var 8 "newvar0", .op .add 8 [3, 0]]⟩

/-- `newvar0 + x ⇒ x`, the rule eliding the product leaves. -/
def squareAddElidedRule : ParsedReplacement := ⟨⟨4, 0⟩, [], []⟩

/-- `elide` reads only the context and the counter of the state. -/
theorem elide_eq_of_ic (st : ReduceState) (R : ParsedReplacement) (I : Nat) :
    elide st R I =
      ({ st with
          ic := (elide ⟨st.ic, st.varnum, [], [], []⟩ R I).1.ic
          varnum := st.varnum + 1 },
        (elide ⟨st.ic, st.varnum, [], [], []⟩ R I).2) := rfl

section ErringSolver

variable (getString : InstContext → ParsedReplacement → String)
  (order : InstContext → List Nat → List Nat)

/-- On `x * x + x ⇒ x`, with a solver whose every answer is an error, `ReduceAndGeneralize`
prints the reduced rule `newvar0 + x ⇒ x`, whatever the rules' texts and the iteration order:
the error is written to standard error and the uninitialized `Valid` is then read as a verdict. -/
theorem reduceAndGeneralize_erringSolver (hord : ∀ ic l, (order ic l).Perm l) (opts : Options) :
    reduceAndGeneralize erringSolver getString order opts squareAddIc 0 squareAddRule =
      some ⟨squareAddElidedIc, 1, [getString squareAddElidedIc squareAddElidedRule],
        ["solver unreachable", "solver unreachable"]⟩ := by
  -- the inner call on `newvar0 + x ⇒ x` records nothing: every node of it is skipped
  have hinner : ∀ dnr, ∃ dnr', reduceRec erringSolver getString order 3
      ⟨squareAddElidedIc, 1, [squareAddElidedRule], dnr,
        ["solver unreachable", "solver unreachable"]⟩ squareAddElidedRule =
      some ⟨squareAddElidedIc, 1, [squareAddElidedRule], dnr',
        ["solver unreachable", "solver unreachable"]⟩ := by
    intro dnr
    simp only [reduceRec]
    split_ifs
    · exact ⟨_, rfl⟩
    · rw [show collectAll squareAddElidedIc squareAddElidedRule = some [4, 0, 3] by decide]
      refine ⟨_, foldlM_reduceStep_skipped _ _ _ _ _ fun I hI => ?_⟩
      have : I ∈ [4, 0, 3] := (hord _ _).subset hI
      simp only [List.mem_cons, List.mem_singleton, List.not_mem_nil, or_false] at this
      show skipped squareAddElidedIc squareAddElidedRule I
      rcases this with rfl | rfl | rfl <;> decide
  -- the outer loop elides only the product; the two roots around it are skipped
  obtain ⟨pre, post, hsplit⟩ := List.append_of_mem ((hord squareAddIc [2, 0, 1]).mem_iff.mpr
    (by decide : 1 ∈ [2, 0, 1]))
  -- the other two nodes are the roots
  have hroots : (pre ++ post).Perm [2, 0] := List.Perm.cons_inv (List.perm_middle.symm.trans
    ((hsplit ▸ hord squareAddIc [2, 0, 1]).trans (by decide : [2, 0, 1].Perm [1, 2, 0])))
  have hroot : ∀ I ∈ pre ++ post, ∀ ic, skipped ic squareAddRule I := fun I hI ic => by
    have := hroots.subset hI
    simp only [List.mem_cons, List.mem_singleton, List.not_mem_nil, or_false] at this
    rcases this with rfl | rfl
    exacts [.inl rfl, .inr (.inl rfl)]
  have hisValid : ∀ ic b p m, erringSolver.isValid ic b p m = ⟨some "solver unreachable", true⟩ :=
    fun _ _ _ _ => rfl
  -- eliding the product gives `newvar0 + x ⇒ x`, whatever else the state holds
  have hel : ∀ results dnr errs, elide ⟨squareAddIc, 0, results, dnr, errs⟩ squareAddRule 1 =
      (⟨squareAddElidedIc, 1, results, dnr, errs⟩, squareAddElidedRule) := by
    intro results dnr errs
    rw [elide_eq_of_ic, show elide ⟨squareAddIc, 0, [], [], []⟩ squareAddRule 1 =
      (⟨squareAddElidedIc, 1, [], [], []⟩, squareAddElidedRule) by decide]
  have hrun : ∃ dnr, reduceRec erringSolver getString order (squareAddIc.size + 1)
      ⟨squareAddIc, 0, [], [], ["solver unreachable"]⟩ squareAddRule =
      some ⟨squareAddElidedIc, 1, [squareAddElidedRule], dnr,
        ["solver unreachable", "solver unreachable"]⟩ := by
    obtain ⟨dnr', hdnr'⟩ := hinner [getString squareAddIc squareAddRule]
    rw [reduceRec.eq_2]
    simp only [List.not_mem_nil, if_false, show collectAll squareAddIc squareAddRule =
      some [2, 0, 1] by decide, show ¬ [2, 0, 1].length ≤ 1 by decide, hsplit,
      List.foldlM_append]
    rw [foldlM_reduceStep_skipped _ _ _ _ _ fun I hI => hroot I (List.mem_append_left _ hI) _]
    simp only [Option.bind_eq_bind, Option.some_bind, List.foldlM_cons, reduceStep,
      show ¬ skipped squareAddIc squareAddRule 1 by decide, if_false, hel, hisValid, if_true,
      Option.toList_some, List.nil_append, List.singleton_append,
      show squareAddIc.size = 3 from rfl, hdnr']
    exact ⟨dnr', foldlM_reduceStep_skipped _ _ _ _ _ fun I hI =>
      hroot I (List.mem_append_right _ hI) _⟩
  obtain ⟨dnr, hrun⟩ := hrun
  simp only [reduceAndGeneralize, hisValid, Bool.not_true, Option.toList_some,
    Bool.false_eq_true, if_false, hrun, Option.map_some', List.isEmpty_cons, List.map_cons,
    List.map_nil]
  simp only [printedResults]
  split_ifs <;> rfl

theorem reduceAndGeneralize_erringSolver_listOrder :
    (∀ ic (l : List Nat), ((fun _ l => l : InstContext → List Nat → List Nat) ic l).Perm l) ∧
      reduceAndGeneralize erringSolver (fun _ R => toString R.mapping.lhs) (fun _ l => l) {}
        squareAddIc 0 squareAddRule =
      some ⟨squareAddElidedIc, 1, ["4"], ["solver unreachable", "solver unreachable"]⟩ :=
  ⟨fun _ l => List.Perm.refl l, reduceAndGeneralize_erringSolver (fun _ R => toString R.mapping.lhs)
    (fun _ l => l) (fun _ l => List.Perm.refl l) {}⟩

end ErringSolver

section Run

variable (S : Solver) (getString : InstContext → ParsedReplacement → String)
  (order : InstContext → List Nat → List Nat)

/-- With fuel above the number of reachable operations, `ReduceRec` finishes, and everything it
records reaches fewer operations than its input: each recursive call is on a rule that does. -/
theorem reduceRec_spec (hord : ∀ ic l x, x ∈ order ic l → x ∈ l) :
    ∀ fuel st R, st.ic.WF → (∀ r ∈ R.roots, r < st.ic.size) →
      (st.ic.nonLeafNodes R).card < fuel →
      ∃ st', reduceRec S getString order fuel st R = some st' ∧ Reduced st R st' := by
  intro fuel
  induction fuel with
  | zero => intro st R _ _ h; omega
  | succ fuel ih =>
    intro st R hwf hR hfuel
    obtain ⟨insts, hcol, -, hmem⟩ := collectAll_spec hwf.toAcyclic hR
    simp only [reduceRec, hcol]
    split_ifs with hdnr hlen
    · exact ⟨st, rfl, .refl hwf st rfl rfl⟩
    · exact ⟨_, rfl, .refl hwf _ rfl rfl⟩
    refine foldlM_some_of_inv _ (Reduced st R) _ (fun stc I hI hc => ?_) _ (.refl hwf _ rfl rfl)
    -- one iteration, from a state `stc` that only allocated since the call
    have hRc : ∀ r ∈ R.roots, r < stc.ic.size := fun r hr =>
      lt_of_lt_of_le (hR r hr) hc.ext.size_le
    have hIn : I ∈ stc.ic.nodes R := by
      rw [hc.ext.nodes_eq hwf hR]; exact (hmem I).mp (hord _ _ _ hI)
    have hmeas : (stc.ic.nonLeafNodes R).card = (st.ic.nonLeafNodes R).card := by
      rw [hc.ext.nonLeafNodes_eq hwf hR]
    simp only [reduceStep]
    split_ifs with hs hv
    · exact ⟨stc, rfl, hc⟩
    all_goals
      obtain ⟨hwf', hext', hroots', -, -⟩ :=
        elide_spec hc.wf hRc (stc.ic.lt_size_of_mem_nodes hc.wf hRc hIn)
      have hlt := elide_card_nonLeafNodes_lt hc.wf hRc
        (Finset.mem_filter.mpr ⟨hIn, isOp_of_not_skipped hs⟩)
    · -- a valid answer: record the new rule and recurse on it
      have hcall : ∀ st₁ : ReduceState, st₁.ic = (elide stc R I).1.ic →
          st₁.results = stc.results ++ [(elide stc R I).2] → ∃ st',
            reduceRec S getString order fuel st₁ (elide stc R I).2 = some st' ∧
              Reduced st R st' := by
        intro st₁ hic hres
        rw [← hic] at hwf' hroots' hlt hext'
        obtain ⟨st'', h₁, h₂⟩ := ih st₁ _ hwf' hroots' (by omega)
        exact ⟨st'', h₁, hc.recurse h₂ hext' hwf' hres ⟨hroots', by omega⟩⟩
      exact hcall _ rfl (by simp)
    · exact ⟨_, rfl, hc.extend hwf' hext' rfl⟩

/-- `varnum` only grows: an elision increments it by one, and nothing else writes it. So the
counter passes `INT_MAX` during a call exactly when it ends above it. -/
theorem reduceRec_varnum_le :
    ∀ fuel st R st', reduceRec S getString order fuel st R = some st' → st.varnum ≤ st'.varnum := by
  intro fuel
  induction fuel with
  | zero => intro st R st' h; cases h
  | succ fuel ih =>
    intro st R st' h
    simp only [reduceRec] at h
    split_ifs at h
    · cases h; exact le_rfl
    split at h
    · cases h
    split_ifs at h
    · cases h; exact le_rfl
    refine foldlM_inv _ (fun s : ReduceState => st.varnum ≤ s.varnum) _
      (fun s I s' _ hs hstep => ?_) _ _ (by exact le_rfl) h
    simp only [reduceStep] at hstep
    split_ifs at hstep
    · cases hstep; exact hs
    · have := ih _ _ _ hstep
      simp only [elide_varnum] at this
      omega
    · cases hstep
      simp only [elide_varnum]
      omega

/-- One iteration of the loop consults the recursive call only on a rule with fewer reachable
operations and no more reachable nodes. -/
theorem reduceStep_congr {st : ReduceState} {R : ParsedReplacement} {I : Nat} (hwf : st.ic.WF)
    (hR : ∀ r ∈ R.roots, r < st.ic.size) (hI : I ∈ st.ic.nodes R)
    {rec rec' : ReduceState → ParsedReplacement → Option ReduceState}
    (h : ∀ st' R', (st'.ic.nonLeafNodes R').card < (st.ic.nonLeafNodes R).card →
      (st'.ic.nodes R').card ≤ (st.ic.nodes R).card → rec st' R' = rec' st' R') :
    reduceStep S rec R st I = reduceStep S rec' R st I := by
  simp only [reduceStep]
  split_ifs with hs hv
  · rfl
  · exact h _ _ (elide_card_nonLeafNodes_lt hwf hR
      (Finset.mem_filter.mpr ⟨hI, isOp_of_not_skipped hs⟩))
      (elide_card_nodes_le hwf hR (st.ic.lt_size_of_mem_nodes hwf hR hI))
  · rfl

/-- `ReduceRec` terminates, on the number of reachable operations: an iteration of its loop
over a collected node recurses only on a rule with fewer reachable operations and no more
reachable nodes; fuel one above that number is never exhausted, so the recursion is at most that
deep; and every rule recorded in `Results` reaches fewer operations than the input. -/
theorem reduceRec_terminates (hord : ∀ ic l x, x ∈ order ic l → x ∈ l) (st : ReduceState)
    (R : ParsedReplacement) (hwf : st.ic.WF) (hR : ∀ r ∈ R.roots, r < st.ic.size) :
    (∀ I ∈ st.ic.nodes R, ∀ rec rec' : ReduceState → ParsedReplacement → Option ReduceState,
      (∀ st' R', (st'.ic.nonLeafNodes R').card < (st.ic.nonLeafNodes R).card →
        (st'.ic.nodes R').card ≤ (st.ic.nodes R).card → rec st' R' = rec' st' R') →
      reduceStep S rec R st I = reduceStep S rec' R st I) ∧
    ∀ fuel, (st.ic.nonLeafNodes R).card < fuel → ∃ st',
      reduceRec S getString order fuel st R = some st' ∧ ∃ new, st'.results = st.results ++ new ∧
        ∀ R' ∈ new, (st'.ic.nonLeafNodes R').card < (st.ic.nonLeafNodes R).card := by
  refine ⟨fun I hI _ _ h => reduceStep_congr S hwf hR hI h, fun fuel hfuel => ?_⟩
  obtain ⟨st', hrun, hred⟩ := reduceRec_spec S getString order hord fuel st R hwf hR hfuel
  obtain ⟨new, hnew, hsm⟩ := hred.results
  exact ⟨st', hrun, new, hnew, fun R' hR' => (hsm R' hR').2⟩

theorem reduceRec_terminates_squareAdd :
    (∀ ic (l : List Nat) x, x ∈ (fun _ l => l : InstContext → List Nat → List Nat) ic l → x ∈ l) ∧
    squareAddIc.WF ∧ (∀ r ∈ squareAddRule.roots, r < squareAddIc.size) ∧
    (∀ I ∈ squareAddIc.nodes squareAddRule,
      ∀ rec rec' : ReduceState → ParsedReplacement → Option ReduceState,
      (∀ st' R', (st'.ic.nonLeafNodes R').card < (squareAddIc.nonLeafNodes squareAddRule).card →
        (st'.ic.nodes R').card ≤ (squareAddIc.nodes squareAddRule).card → rec st' R' = rec' st' R') →
      reduceStep erringSolver rec squareAddRule ⟨squareAddIc, 0, [], [], []⟩ I =
        reduceStep erringSolver rec' squareAddRule ⟨squareAddIc, 0, [], [], []⟩ I) ∧
    ∀ fuel, (squareAddIc.nonLeafNodes squareAddRule).card < fuel → ∃ st',
      reduceRec erringSolver (fun _ R => toString R.mapping.lhs) (fun _ l => l) fuel
        ⟨squareAddIc, 0, [], [], []⟩ squareAddRule = some st' ∧
      ∃ new, st'.results = [] ++ new ∧
        ∀ R' ∈ new, (st'.ic.nonLeafNodes R').card < (squareAddIc.nonLeafNodes squareAddRule).card :=
  ⟨fun _ _ _ h => h, by decide, by decide,
    reduceRec_terminates erringSolver (fun _ R => toString R.mapping.lhs) (fun _ l => l)
      (fun _ _ _ h => h) ⟨squareAddIc, 0, [], [], []⟩ squareAddRule (by decide) (by decide)⟩

/-- `ReduceAndGeneralize` always finishes on a well-formed context: its fuel, one above the
context's size, is above the number of reachable operations. The context it leaves is well formed
and only allocated. -/
theorem reduceAndGeneralize_spec (hord : ∀ ic l x, x ∈ order ic l → x ∈ l) (opts : Options)
    {ic : InstContext} (hwf : ic.WF) (varnum : Nat) {R : ParsedReplacement}
    (hR : ∀ r ∈ R.roots, r < ic.size) :
    ∃ out, reduceAndGeneralize S getString order opts ic varnum R = some out ∧ out.ic.WF ∧
      ic.Extends out.ic := by
  have hcard : (ic.nonLeafNodes R).card < ic.size + 1 := by
    have : ic.nonLeafNodes R ⊆ Finset.range ic.size := fun x hx =>
      Finset.mem_range.mpr (ic.lt_size_of_mem_nodes hwf hR (Finset.mem_filter.mp hx).1)
    have := Finset.card_le_card this
    simp only [Finset.card_range] at this
    omega
  simp only [reduceAndGeneralize]
  split_ifs
  · exact ⟨_, rfl, hwf, .refl _⟩
  · obtain ⟨st', hrun, hred⟩ := reduceRec_spec S getString order hord (ic.size + 1)
      ⟨ic, varnum, [], [], (S.isValid ic R.bpcs R.pcs R.mapping).ec.toList⟩ R hwf hR hcard
    exact ⟨_, by rw [hrun]; rfl, hred.wf, hred.ext⟩

end Run


end Souper.Generalize
