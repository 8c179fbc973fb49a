import Souper.Inst.Graph

/-!
# `collectInsts`: the nodes a rule reaches

`ReduceRec` gathers the nodes of a rule with `collectInsts`, a worklist loop over an explicit
stack that skips operands already collected. The stack may hold a node several times, so the loop
is modelled with a fuel bound, and `collectLoop_spec` shows the bound is never reached.

## Main results

- `collectLoop_spec` — from a closed set of results the loop terminates within its measure and
  returns a duplicate-free, closed list holding exactly the old results and the reachable nodes
- `collectAll_spec` — over a whole rule, the result is exactly the set of nodes the rule reaches
- `collectInsts_adds_reach` — both, in any acyclic graph
-/

namespace Souper.Generalize

open InstContext

/-- `Results.insert(Current)`, the collected nodes kept in insertion order. -/
def insertResult (results : List Nat) (cur : Nat) : List Nat :=
  if cur ∈ results then results else results ++ [cur]

/-- The operand loop of `collectInsts`: push every operand of `cur` that is not collected yet.
The stack's top is the head of the list. -/
def pushOps (ic : InstContext) (results : List Nat) (cur : Nat) (stack : List Nat) : List Nat :=
  (ic.get cur).ops.foldl (fun st c => if c ∈ results then st else c :: st) stack

/-- `collectInsts`'s `while (!Stack.empty())` loop, run for at most `fuel` iterations. -/
def collectLoop (ic : InstContext) : Nat → List Nat → List Nat → Option (List Nat)
  | _, results, [] => some results
  | 0, _, _ :: _ => none
  | fuel + 1, results, cur :: stack =>
    collectLoop ic fuel (insertResult results cur) (pushOps ic (insertResult results cur) cur stack)

/-- Enough iterations for `collectInsts` from any node of `ic` (see `collectInsts_spec`). -/
def collectFuel (ic : InstContext) : Nat := (ic.maxOps + 1) * (ic.size + 1) + 1

/-- `collectInsts(I, Results)`. -/
def collectInsts (ic : InstContext) (i : Nat) (results : List Nat) : Option (List Nat) :=
  collectLoop ic (collectFuel ic) results [i]

/-- The loop `ReduceRec` runs over the roots of a rule, all into one `Insts` set. -/
def collectAll (ic : InstContext) (R : ParsedReplacement) : Option (List Nat) :=
  R.roots.foldlM (fun acc r => collectInsts ic r acc) []

theorem pushOps_eq (ic : InstContext) (results : List Nat) (cur : Nat) (stack : List Nat) :
    pushOps ic results cur stack =
      ((ic.get cur).ops.filter (fun c => c ∉ results)).reverse ++ stack := by
  unfold pushOps
  generalize (ic.get cur).ops = l
  induction l generalizing stack with
  | nil => rfl
  | cons c l ih =>
    rw [List.foldl_cons, ih]
    by_cases hc : c ∈ results <;> simp [hc]

/-- The invariant of the loop started from `i`: the stack holds reachable nodes; a collected
node's operands are collected or on the stack; and a collected node on the stack has its
operands collected or above it, so that popping it pushes nothing. -/
structure CollectInv (ic : InstContext) (i : Nat) (results stack : List Nat) : Prop where
  reach : ∀ x ∈ stack, x ∈ ic.reach i
  closed : ∀ x ∈ results, ∀ c ∈ (ic.get x).ops, c ∈ results ∨ c ∈ stack
  above : ∀ pre x post, stack = pre ++ x :: post → x ∈ results →
    ∀ c ∈ (ic.get x).ops, c ∈ results ∨ c ∈ pre

/-- The loop's measure: reachable nodes still to collect, weighted above the stack length. -/
def collectMeasure (ic : InstContext) (i : Nat) (results stack : List Nat) : Nat :=
  (ic.maxOps + 1) * ((ic.reach i).filter (fun x => x ∉ results)).card + stack.length

/-- Popping a node already collected pushes nothing. -/
theorem collect_step_present {ic : InstContext} {i cur : Nat} {results stack : List Nat}
    (hinv : CollectInv ic i results (cur :: stack)) (hcur : cur ∈ results) :
    insertResult results cur = results ∧ pushOps ic results cur stack = stack ∧
      CollectInv ic i results stack := by
  have hnone : ∀ c ∈ (ic.get cur).ops, c ∈ results := fun c hc =>
    (hinv.above [] cur stack rfl hcur c hc).resolve_right (List.not_mem_nil c)
  refine ⟨if_pos hcur, ?_, ?_, ?_, ?_⟩
  · rw [pushOps_eq, List.filter_eq_nil_iff.mpr (by simpa using hnone)]; rfl
  · exact fun x hx => hinv.reach x (List.mem_cons_of_mem _ hx)
  · intro x hx c hc
    rcases hinv.closed x hx c hc with h | h
    · exact .inl h
    · rcases List.mem_cons.mp h with rfl | h
      · exact .inl hcur
      · exact .inr h
  · intro pre x post hs hx c hc
    rcases hinv.above (cur :: pre) x post (by rw [hs]; rfl) hx c hc with h | h
    · exact .inl h
    · rcases List.mem_cons.mp h with rfl | h
      · exact .inl hcur
      · exact .inr h

/-- Popping a node not collected yet collects it and pushes its uncollected operands. -/
theorem collect_step_new {ic : InstContext} (h : ic.Acyclic) {i cur : Nat} {results stack : List Nat}
    (hinv : CollectInv ic i results (cur :: stack)) (hcur : cur ∉ results) :
    CollectInv ic i (results ++ [cur]) (pushOps ic (results ++ [cur]) cur stack) := by
  rw [pushOps_eq]
  set pushed := ((ic.get cur).ops.filter (fun c => c ∉ results ++ [cur])).reverse
  have hpushed : ∀ c ∈ pushed, c ∈ (ic.get cur).ops ∧ c ∉ results ++ [cur] := fun c hc => by
    simpa [pushed] using hc
  -- every operand of `cur` is collected now or pushed
  have hops : ∀ c ∈ (ic.get cur).ops, c ∈ results ++ [cur] ∨ c ∈ pushed := fun c hc => by
    by_cases hc' : c ∈ results ++ [cur]
    · exact .inl hc'
    · exact .inr (by simp only [pushed, List.mem_reverse, List.mem_filter]; simp_all)
  have hcur_reach : cur ∈ ic.reach i := hinv.reach cur (List.mem_cons_self _ _)
  refine ⟨fun x hx => ?_, fun x hx c hc => ?_, fun pre x post hs hx c hc => ?_⟩
  · rcases List.mem_append.mp hx with hx | hx
    · exact ic.reach_trans h hcur_reach (ic.mem_reach_of_mem_ops h (hpushed x hx).1)
    · exact hinv.reach x (List.mem_cons_of_mem _ hx)
  · rcases List.mem_append.mp hx with hx | hx
    · rcases hinv.closed x hx c hc with h' | h'
      · exact .inl (List.mem_append_left _ h')
      · rcases List.mem_cons.mp h' with rfl | h'
        · exact .inl (List.mem_append_right _ (List.mem_singleton_self _))
        · exact .inr (List.mem_append_right _ h')
    · rw [List.mem_singleton.mp hx] at hc
      exact (hops c hc).imp_right (List.mem_append_left _)
  · -- `x` sits either among the pushed operands, which are uncollected, or in the old stack
    obtain ⟨c', rfl, hstack⟩ : ∃ c', pre = pushed ++ c' ∧ stack = c' ++ x :: post := by
      rcases List.append_eq_append_iff.mp hs.symm with ⟨a', hpa, hxa⟩ | ⟨c', hpc, hsc⟩
      · cases a' with
        | nil => exact ⟨[], by simpa using hpa.symm, by simpa using hxa.symm⟩
        | cons y a'' =>
          obtain ⟨rfl, -⟩ := List.cons.inj hxa
          exact absurd hx (hpushed x (by rw [hpa]; simp)).2
      · exact ⟨c', hpc, hsc⟩
    rcases List.mem_append.mp hx with hx | hx
    · rcases hinv.above (cur :: c') x post (by rw [hstack]; rfl) hx c hc with h' | h'
      · exact .inl (List.mem_append_left _ h')
      · rcases List.mem_cons.mp h' with rfl | h'
        · exact .inl (List.mem_append_right _ (List.mem_singleton_self _))
        · exact .inr (List.mem_append_right _ h')
    · rw [List.mem_singleton.mp hx] at hc
      exact (hops c hc).imp_right (List.mem_append_left _)

theorem collectMeasure_new {ic : InstContext} {i cur : Nat} {results stack : List Nat}
    (hinv : CollectInv ic i results (cur :: stack)) (hcur : cur ∉ results) :
    collectMeasure ic i (results ++ [cur]) (pushOps ic (results ++ [cur]) cur stack) <
      collectMeasure ic i results (cur :: stack) := by
  have hU : ((ic.reach i).filter (fun x => x ∉ results ++ [cur])).card + 1 =
      ((ic.reach i).filter (fun x => x ∉ results)).card := by
    have : (ic.reach i).filter (fun x => x ∉ results ++ [cur]) =
        ((ic.reach i).filter (fun x => x ∉ results)).erase cur := by
      ext x
      simp only [Finset.mem_filter, Finset.mem_erase, List.mem_append, List.mem_singleton, not_or]
      exact ⟨fun ⟨a, b, c⟩ => ⟨c, a, b⟩, fun ⟨a, b, c⟩ => ⟨b, c, a⟩⟩
    rw [this, Finset.card_erase_add_one]
    exact Finset.mem_filter.mpr ⟨hinv.reach cur (List.mem_cons_self _ _), hcur⟩
  have hP : (pushOps ic (results ++ [cur]) cur stack).length ≤ ic.maxOps + stack.length := by
    rw [pushOps_eq, List.length_append, List.length_reverse]
    exact Nat.add_le_add_right ((List.length_filter_le _ _).trans (ic.length_ops_le_maxOps cur)) _
  unfold collectMeasure
  rw [← hU, Nat.mul_succ, List.length_cons]
  generalize (ic.maxOps + 1) * _ = A
  omega

theorem collectLoop_nil (ic : InstContext) (fuel : Nat) (results : List Nat) :
    collectLoop ic fuel results [] = some results := by
  cases fuel <;> rfl

/-- The run of `collectInsts`'s loop: within its measure it terminates, and it returns a
duplicate-free, operand-closed list of the old results and nodes reachable from `i`, holding
everything that was collected or on the stack. -/
theorem collectLoop_spec {ic : InstContext} (h : ic.Acyclic) {i : Nat} :
    ∀ fuel results stack, CollectInv ic i results stack →
      collectMeasure ic i results stack ≤ fuel → results.Nodup →
      ∃ r, collectLoop ic fuel results stack = some r ∧ r.Nodup ∧
        (∀ x ∈ r, x ∈ results ∨ x ∈ ic.reach i) ∧ (∀ x, x ∈ results ∨ x ∈ stack → x ∈ r) ∧
        ∀ x ∈ r, ∀ c ∈ (ic.get x).ops, c ∈ r := by
  have hnil : ∀ fuel results, CollectInv ic i results [] → results.Nodup →
      ∃ r, collectLoop ic fuel results [] = some r ∧ r.Nodup ∧
        (∀ x ∈ r, x ∈ results ∨ x ∈ ic.reach i) ∧ (∀ x, x ∈ results ∨ x ∈ [] → x ∈ r) ∧
        ∀ x ∈ r, ∀ c ∈ (ic.get x).ops, c ∈ r := fun fuel results hinv hnd =>
    ⟨results, collectLoop_nil ic fuel results, hnd, fun x hx => .inl hx,
      fun x hx => hx.resolve_right (List.not_mem_nil x),
      fun x hx c hc => (hinv.closed x hx c hc).resolve_right (List.not_mem_nil c)⟩
  intro fuel
  induction fuel with
  | zero =>
    rintro results (_ | ⟨cur, stack⟩) hinv hm hnd
    · exact hnil 0 results hinv hnd
    · simp [collectMeasure] at hm
  | succ fuel ih =>
    rintro results (_ | ⟨cur, stack⟩) hinv hm hnd
    · exact hnil _ results hinv hnd
    by_cases hcur : cur ∈ results
    · obtain ⟨h₁, h₂, h₃⟩ := collect_step_present hinv hcur
      obtain ⟨r, hr, hrn, hrs, hrc, hcl⟩ := ih results stack h₃
        (by unfold collectMeasure at hm ⊢; simp only [List.length_cons] at hm; omega) hnd
      refine ⟨r, by simp only [collectLoop, h₁, h₂, hr], hrn, hrs, fun x hx => ?_, hcl⟩
      rcases hx with hx | hx
      · exact hrc x (.inl hx)
      · rcases List.mem_cons.mp hx with rfl | hx
        · exact hrc x (.inl hcur)
        · exact hrc x (.inr hx)
    · have h₁ : insertResult results cur = results ++ [cur] := if_neg hcur
      obtain ⟨r, hr, hrn, hrs, hrc, hcl⟩ := ih _ _ (collect_step_new h hinv hcur)
        (by have := collectMeasure_new hinv hcur; omega)
        (List.nodup_append.mpr ⟨hnd, List.nodup_singleton cur, by simpa using hcur⟩)
      refine ⟨r, by simp only [collectLoop, h₁, hr], hrn, fun x hx => ?_, fun x hx => ?_, hcl⟩
      · rcases hrs x hx with hx | hx
        · rcases List.mem_append.mp hx with hx | hx
          · exact .inl hx
          · rw [List.mem_singleton.mp hx]
            exact .inr (hinv.reach cur (List.mem_cons_self _ _))
        · exact .inr hx
      · rcases hx with hx | hx
        · exact hrc x (.inl (List.mem_append_left _ hx))
        · rcases List.mem_cons.mp hx with rfl | hx
          · exact hrc x (.inl (List.mem_append_right _ (List.mem_singleton_self _)))
          · exact hrc x (.inr (by rw [pushOps_eq]; exact List.mem_append_right _ hx))

/-- `collectInsts` from an existing node into a closed, duplicate-free set terminates and adds
exactly the nodes the node reaches. -/
theorem collectInsts_spec {ic : InstContext} (h : ic.Acyclic) {i : Nat} (hi : i < ic.size)
    {results : List Nat} (hnd : results.Nodup)
    (hcl : ∀ x ∈ results, ∀ c ∈ (ic.get x).ops, c ∈ results) :
    ∃ r, collectInsts ic i results = some r ∧ r.Nodup ∧
      (∀ x, x ∈ r ↔ x ∈ results ∨ x ∈ ic.reach i) ∧ ∀ x ∈ r, ∀ c ∈ (ic.get x).ops, c ∈ r := by
  have hinv : CollectInv ic i results [i] := by
    refine ⟨fun x hx => ?_, fun x hx c hc => .inl (hcl x hx c hc), fun pre x post hs hx c hc => ?_⟩
    · rw [List.mem_singleton.mp hx]; exact ic.mem_reach_self i
    · exact .inl (hcl x hx c hc)
  have hm : collectMeasure ic i results [i] ≤ collectFuel ic := by
    unfold collectMeasure collectFuel
    have : ((ic.reach i).filter (fun x => x ∉ results)).card ≤ ic.size + 1 :=
      (Finset.card_filter_le _ _).trans ((ic.card_reach_le h i).trans (by omega))
    simp only [List.length_singleton]
    exact Nat.add_le_add_right (Nat.mul_le_mul_left _ this) 1
  obtain ⟨r, hr, hrn, hrs, hrc, hcl'⟩ := collectLoop_spec h _ results [i] hinv hm hnd
  refine ⟨r, hr, hrn, fun x => ⟨hrs x, fun hx => ?_⟩, hcl'⟩
  rcases hx with hx | hx
  · exact hrc x (.inl hx)
  · exact ic.reach_subset_of_closed h hcl' (hrc i (.inr (List.mem_singleton_self i))) x hx

/-- Over the roots of a rule whose nodes exist, `ReduceRec`'s collection terminates and yields
exactly the nodes the rule reaches, each once. -/
theorem collectAll_spec {ic : InstContext} (h : ic.Acyclic) {R : ParsedReplacement}
    (hR : ∀ r ∈ R.roots, r < ic.size) :
    ∃ insts, collectAll ic R = some insts ∧ insts.Nodup ∧ ∀ x, x ∈ insts ↔ x ∈ ic.nodes R := by
  suffices ∀ rs : List Nat, (∀ r ∈ rs, r < ic.size) → ∀ acc : List Nat, acc.Nodup →
      (∀ x ∈ acc, ∀ c ∈ (ic.get x).ops, c ∈ acc) →
      ∃ r, rs.foldlM (fun acc r => collectInsts ic r acc) acc = some r ∧ r.Nodup ∧
        (∀ x, x ∈ r ↔ x ∈ acc ∨ ∃ root ∈ rs, x ∈ ic.reach root) ∧
        ∀ x ∈ r, ∀ c ∈ (ic.get x).ops, c ∈ r by
    obtain ⟨r, hr, hrn, hrs, -⟩ := this R.roots hR [] List.nodup_nil (by simp)
    refine ⟨r, hr, hrn, fun x => ?_⟩
    simp [hrs, InstContext.nodes]
  intro rs
  induction rs with
  | nil => exact fun _ acc hnd hcl => ⟨acc, rfl, hnd, by simp, hcl⟩
  | cons root rs ih =>
    intro hrs acc hnd hcl
    obtain ⟨r₁, hr₁, hn₁, hs₁, hc₁⟩ :=
      collectInsts_spec h (hrs root (List.mem_cons_self _ _)) hnd hcl
    obtain ⟨r, hr, hn, hs, hc⟩ :=
      ih (fun r hr => hrs r (List.mem_cons_of_mem _ hr)) r₁ hn₁ hc₁
    refine ⟨r, by simp [List.foldlM_cons, hr₁, hr], hn, fun x => ?_, hc⟩
    rw [hs, hs₁]
    simp only [List.mem_cons, exists_eq_or_imp]
    exact or_assoc

/-- In any acyclic graph, `collectInsts` from a node into an operand-closed set terminates and
adds exactly the nodes that node reaches; hence the `Insts` set `ReduceRec` builds over the LHS,
the RHS and every path condition and block path condition is exactly the set of nodes the rule
reaches. -/
theorem collectInsts_adds_reach {ic : InstContext} (h : ic.Acyclic) :
    (∀ i < ic.size, ∀ results : List Nat, results.Nodup →
      (∀ x ∈ results, ∀ c ∈ (ic.get x).ops, c ∈ results) →
      ∃ r, collectInsts ic i results = some r ∧ r.Nodup ∧
        ∀ x, x ∈ r ↔ x ∈ results ∨ x ∈ ic.reach i) ∧
    ∀ R : ParsedReplacement, (∀ r ∈ R.roots, r < ic.size) →
      ∃ insts, collectAll ic R = some insts ∧ insts.Nodup ∧ ∀ x, x ∈ insts ↔ x ∈ ic.nodes R :=
  ⟨fun _ hi _ hnd hcl => (collectInsts_spec h hi hnd hcl).imp fun _ ⟨hr, hn, hs, _⟩ => ⟨hr, hn, hs⟩,
    fun _ hR => collectAll_spec h hR⟩

/-- `(x + x) * (x + x)` at width 8: the worklist meets the shared `x + x` twice. -/
def sharedSquareIc : InstContext := ⟨[.var 8 "x", .op .add 8 [0, 0], .op .mul 8 [1, 1]]⟩

theorem collectInsts_adds_reach_sharedSquare : sharedSquareIc.Acyclic ∧
    ∃ r, collectInsts sharedSquareIc 2 [] = some r ∧ r.Nodup ∧
      ∀ x, x ∈ r ↔ x ∈ ([] : List Nat) ∨ x ∈ sharedSquareIc.reach 2 :=
  have h : sharedSquareIc.Acyclic := (by decide : sharedSquareIc.WF).toAcyclic
  ⟨h, (collectInsts_adds_reach h).1 2 (by decide) [] List.nodup_nil (by simp)⟩

end Souper.Generalize
