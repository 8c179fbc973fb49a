import Mathlib.Data.Finset.Card
import Souper.Inst.Basic

/-!
# Rules and the nodes they reach

A rule (`ParsedReplacement`) is a mapping `LHS → RHS` with path conditions and block path
conditions, each an `InstMapping` of two nodes. This file collects the nodes a rule reaches,
the measure the reducer works with, and `mapThread`, the operand loop shared by every
recursive rebuild of a node.

## Main definitions

- `ParsedReplacement.roots` — the roots in `collectInsts` order: LHS, RHS, then each path
  condition's two sides, then each block path condition's two sides
- `InstContext.reach` — the nodes reachable from one node, the node included
- `InstContext.nodes`, `InstContext.nonLeafNodes` — the same over a whole rule
- `InstContext.vars` — the distinct variables a node reaches
- `InstContext.treeSum` — a sum over the tree unfolding of a node, where a node shared by
  several paths counts once per path: `treeSize` and `paths` are its two instances
-/

namespace Souper

/-- `souper::InstMapping`: a pair of nodes. -/
structure InstMapping where
  lhs : Nat
  rhs : Nat
  deriving DecidableEq, Repr

/-- `souper::BlockPCMapping`: a path condition scoped to one predecessor of a block. -/
structure BlockPCMapping where
  predIdx : Nat
  pc : InstMapping
  deriving DecidableEq, Repr

/-- `souper::ParsedReplacement`: the rule every procedure consumes and produces. -/
structure ParsedReplacement where
  mapping : InstMapping
  pcs : List InstMapping
  bpcs : List BlockPCMapping
  deriving DecidableEq, Repr

/-- The roots of a rule, in the order `ReduceRec` hands them to `collectInsts`. -/
def ParsedReplacement.roots (R : ParsedReplacement) : List Nat :=
  [R.mapping.lhs, R.mapping.rhs] ++ R.pcs.flatMap (fun m => [m.lhs, m.rhs]) ++
    R.bpcs.flatMap (fun b => [b.pc.lhs, b.pc.rhs])

namespace ParsedReplacement

theorem lhs_mem_roots (R : ParsedReplacement) : R.mapping.lhs ∈ R.roots := by simp [roots]

theorem rhs_mem_roots (R : ParsedReplacement) : R.mapping.rhs ∈ R.roots := by simp [roots]

theorem mem_roots_of_pc {R : ParsedReplacement} {m : InstMapping} (h : m ∈ R.pcs) :
    m.lhs ∈ R.roots ∧ m.rhs ∈ R.roots := by
  simp only [roots, List.mem_append, List.mem_flatMap]
  exact ⟨.inl (.inr ⟨m, h, by simp⟩), .inl (.inr ⟨m, h, by simp⟩)⟩

theorem mem_roots_of_bpc {R : ParsedReplacement} {b : BlockPCMapping} (h : b ∈ R.bpcs) :
    b.pc.lhs ∈ R.roots ∧ b.pc.rhs ∈ R.roots := by
  simp only [roots, List.mem_append, List.mem_flatMap]
  exact ⟨.inr ⟨b, h, by simp⟩, .inr ⟨b, h, by simp⟩⟩

theorem mem_roots {R : ParsedReplacement} {r : Nat} :
    r ∈ R.roots ↔ r = R.mapping.lhs ∨ r = R.mapping.rhs ∨ (∃ m ∈ R.pcs, r = m.lhs ∨ r = m.rhs) ∨
      ∃ b ∈ R.bpcs, r = b.pc.lhs ∨ r = b.pc.rhs := by
  simp only [roots, List.mem_append, List.mem_flatMap, List.mem_cons, List.mem_singleton,
    List.not_mem_nil, or_false, or_assoc]

end ParsedReplacement

/-- The operand loop of a recursive rebuild (`for (auto Op : I->Ops) Ops.push_back(f(Op))`),
and more generally any loop that maps over a list while threading a state. -/
def mapThread {σ α β : Type} (f : σ → α → σ × β) : σ → List α → σ × List β
  | s, [] => (s, [])
  | s, a :: as => ((mapThread f (f s a).1 as).1, (f s a).2 :: (mapThread f (f s a).1 as).2)

section MapThread

variable {σ α β : Type} (f : σ → α → σ × β)

@[simp] theorem mapThread_nil (s : σ) : mapThread f s [] = (s, []) := rfl

@[simp] theorem mapThread_cons (s : σ) (a : α) (as : List α) :
    mapThread f s (a :: as) =
      ((mapThread f (f s a).1 as).1, (f s a).2 :: (mapThread f (f s a).1 as).2) := rfl

@[simp] theorem length_mapThread (s : σ) (as : List α) :
    (mapThread f s as).2.length = as.length := by
  induction as generalizing s <;> simp [*]

/-- The loop rule: if each call keeps `Inv`, moves the state forward along a preorder `Ext`, and
relates its argument to its result by `Q` in a way later states keep, then the whole loop keeps
`Inv`, moves forward, and relates the list pairwise. -/
theorem mapThread_spec (Inv : σ → Prop) (Ext : σ → σ → Prop) (Q : σ → α → β → Prop)
    (hrefl : ∀ s, Ext s s) (htrans : ∀ a b c, Ext a b → Ext b c → Ext a c)
    (hmono : ∀ s s' a b, Ext s s' → Inv s' → Q s a b → Q s' a b)
    (as : List α)
    (hf : ∀ s, ∀ a ∈ as, Inv s → Inv (f s a).1 ∧ Ext s (f s a).1 ∧ Q (f s a).1 a (f s a).2) :
    ∀ s, Inv s → Inv (mapThread f s as).1 ∧ Ext s (mapThread f s as).1 ∧
      ∀ p ∈ as.zip (mapThread f s as).2, Q (mapThread f s as).1 p.1 p.2 := by
  induction as with
  | nil => exact fun s hs => ⟨hs, hrefl s, by simp⟩
  | cons a as ih =>
    intro s hs
    obtain ⟨h1, h2, h3⟩ := hf s a (List.mem_cons_self _ _) hs
    obtain ⟨h4, h5, h6⟩ :=
      ih (fun s' a' ha' => hf s' a' (List.mem_cons_of_mem _ ha')) _ h1
    refine ⟨h4, htrans _ _ _ h2 h5, ?_⟩
    simp only [mapThread_cons, List.zip_cons_cons, List.mem_cons]
    rintro p (rfl | hp)
    · exact hmono _ _ _ _ h5 h4 h3
    · exact h6 p hp

end MapThread

/-- The loop rule for a loop that can stop early (`foldlM` in `Option`): if from every state
satisfying `Inv` each call succeeds and keeps `Inv`, the loop succeeds and keeps `Inv`. -/
theorem foldlM_some_of_inv {σ α : Type} (f : σ → α → Option σ) (Inv : σ → Prop) (as : List α)
    (hf : ∀ s, ∀ a ∈ as, Inv s → ∃ s', f s a = some s' ∧ Inv s') :
    ∀ s, Inv s → ∃ s', as.foldlM f s = some s' ∧ Inv s' := by
  induction as with
  | nil => exact fun s hs => ⟨s, rfl, hs⟩
  | cons a as ih =>
    intro s hs
    obtain ⟨s₁, h₁, hs₁⟩ := hf s a (List.mem_cons_self _ _) hs
    obtain ⟨s₂, h₂, hs₂⟩ := ih (fun s' a' ha' => hf s' a' (List.mem_cons_of_mem _ ha')) s₁ hs₁
    exact ⟨s₂, by simp [h₁, h₂], hs₂⟩

/-- What every step of a fold keeps holds of the fold's result. -/
theorem foldlM_inv {σ α : Type} (f : σ → α → Option σ) (Inv : σ → Prop) (as : List α)
    (hf : ∀ s a s', a ∈ as → Inv s → f s a = some s' → Inv s') :
    ∀ s r, Inv s → as.foldlM f s = some r → Inv r := by
  induction as with
  | nil => intro s r hs h; cases h; exact hs
  | cons a as ih =>
    intro s r hs h
    rw [List.foldlM_cons] at h
    obtain ⟨s₁, h₁, h₂⟩ := Option.bind_eq_some.mp h
    exact ih (fun s' a' s'' ha' => hf s' a' s'' (List.mem_cons_of_mem _ ha')) s₁ r
      (hf s a s₁ (List.mem_cons_self _ _) hs h₁) h₂

/-- `Σ f` over a list. -/
def sumBy {α : Type} (f : α → Nat) (l : List α) : Nat := l.foldr (fun a n => f a + n) 0

section SumBy

variable {α : Type} (f : α → Nat)

@[simp] theorem sumBy_nil : sumBy f [] = 0 := rfl

@[simp] theorem sumBy_cons (a : α) (l : List α) : sumBy f (a :: l) = f a + sumBy f l := rfl

@[simp] theorem sumBy_append (l₁ l₂ : List α) : sumBy f (l₁ ++ l₂) = sumBy f l₁ + sumBy f l₂ := by
  induction l₁ <;> simp [*, Nat.add_assoc]

@[simp] theorem sumBy_reverse (l : List α) : sumBy f l.reverse = sumBy f l := by
  induction l <;> simp [*, Nat.add_comm]

theorem sumBy_le_of_sublist {l₁ l₂ : List α} (h : l₁.Sublist l₂) : sumBy f l₁ ≤ sumBy f l₂ := by
  induction h <;> simp <;> omega

theorem sumBy_congr {g : α → Nat} {l : List α} (h : ∀ a ∈ l, f a = g a) : sumBy f l = sumBy g l := by
  induction l <;> simp_all

end SumBy

namespace InstContext

/-- Nodes reachable from `i` within `fuel` levels. -/
def reachAux (ic : InstContext) : Nat → Nat → Finset Nat
  | 0, _ => ∅
  | fuel + 1, i => insert i ((ic.get i).ops.toFinset.biUnion (reachAux ic fuel))

/-- The nodes reachable from `i`, `i` included. In an acyclic context `i + 1` levels reach
everything: operands have smaller indices. -/
def reach (ic : InstContext) (i : Nat) : Finset Nat := ic.reachAux (i + 1) i

/-- The nodes a rule reaches from any of its roots. -/
def nodes (ic : InstContext) (R : ParsedReplacement) : Finset Nat :=
  R.roots.toFinset.biUnion ic.reach

/-- A node that is neither a variable nor a constant. -/
def IsOp (ic : InstContext) (i : Nat) : Prop := (ic.get i).k ≠ .var ∧ (ic.get i).k ≠ .const

instance (ic : InstContext) : DecidablePred ic.IsOp := fun i => by
  unfold IsOp; infer_instance

/-- The reachable operations of a rule: the reducer's measure. -/
def nonLeafNodes (ic : InstContext) (R : ParsedReplacement) : Finset Nat :=
  (ic.nodes R).filter ic.IsOp

theorem reachAux_fuel (ic : InstContext) (h : ic.Acyclic) :
    ∀ f g i, i < f → i < g → ic.reachAux f i = ic.reachAux g i := by
  intro f
  induction f with
  | zero => intro g i hf; omega
  | succ f ih =>
    intro g i hf hg
    obtain ⟨g, rfl⟩ : ∃ g', g = g' + 1 := ⟨g - 1, by omega⟩
    simp only [reachAux]
    congr 1
    refine Finset.biUnion_congr rfl (fun j hj => ?_)
    have := h.lt_of_mem_ops (List.mem_toFinset.mp hj)
    exact ih g j (by omega) (by omega)

/-- The unfolding equation of `reach`. -/
theorem reach_eq (ic : InstContext) (h : ic.Acyclic) (i : Nat) :
    ic.reach i = insert i ((ic.get i).ops.toFinset.biUnion ic.reach) := by
  rw [reach, reachAux]
  congr 1
  refine Finset.biUnion_congr rfl (fun j hj => reachAux_fuel ic h _ _ _ ?_ (by omega))
  exact h.lt_of_mem_ops (List.mem_toFinset.mp hj)

theorem mem_reach_self (ic : InstContext) (i : Nat) : i ∈ ic.reach i := by
  simp [reach, reachAux]

theorem mem_reach_iff (ic : InstContext) (h : ic.Acyclic) {i j : Nat} :
    j ∈ ic.reach i ↔ j = i ∨ ∃ o ∈ (ic.get i).ops, j ∈ ic.reach o := by
  rw [reach_eq ic h]; simp

theorem reach_subset_of_mem_ops (ic : InstContext) (h : ic.Acyclic) {i o : Nat}
    (ho : o ∈ (ic.get i).ops) : ic.reach o ⊆ ic.reach i := fun _ hj =>
  (mem_reach_iff ic h).mpr (.inr ⟨o, ho, hj⟩)

theorem mem_reach_of_mem_ops (ic : InstContext) (h : ic.Acyclic) {i o : Nat} (ho : o ∈ (ic.get i).ops) :
    o ∈ ic.reach i :=
  (mem_reach_iff ic h).mpr (.inr ⟨o, ho, mem_reach_self ic o⟩)

theorem reach_trans (ic : InstContext) (h : ic.Acyclic) {i j k : Nat} (hj : j ∈ ic.reach i)
    (hk : k ∈ ic.reach j) : k ∈ ic.reach i := by
  induction i using Nat.strong_induction_on generalizing j with
  | _ i ih =>
    rcases (mem_reach_iff ic h).mp hj with rfl | ⟨o, ho, hjo⟩
    · exact hk
    · exact (mem_reach_iff ic h).mpr (.inr ⟨o, ho, ih o (h.lt_of_mem_ops ho) hjo hk⟩)

/-- A set closed under operands that holds `i` holds everything `i` reaches. -/
theorem reach_subset_of_closed (ic : InstContext) (h : ic.Acyclic) {s : List Nat}
    (hs : ∀ x ∈ s, ∀ c ∈ (ic.get x).ops, c ∈ s) {i : Nat} (hi : i ∈ s) :
    ∀ x ∈ ic.reach i, x ∈ s := by
  induction i using Nat.strong_induction_on with
  | _ i ih =>
    intro x hx
    rcases (mem_reach_iff ic h).mp hx with rfl | ⟨o, ho, hxo⟩
    · exact hi
    · exact ih o (h.lt_of_mem_ops ho) (hs i hi o ho) x hxo

theorem le_of_mem_reach (ic : InstContext) (h : ic.Acyclic) {i j : Nat} (hj : j ∈ ic.reach i) :
    j ≤ i := by
  induction i using Nat.strong_induction_on generalizing j with
  | _ i ih =>
    rcases (mem_reach_iff ic h).mp hj with rfl | ⟨o, ho, hjo⟩
    · exact le_rfl
    · exact (ih o (h.lt_of_mem_ops ho) hjo).trans (h.lt_of_mem_ops ho).le

theorem card_reach_le (ic : InstContext) (h : ic.Acyclic) (i : Nat) : (ic.reach i).card ≤ i + 1 := by
  calc (ic.reach i).card ≤ (Finset.range (i + 1)).card :=
        Finset.card_le_card fun j hj => Finset.mem_range.mpr (Nat.lt_succ_of_le (le_of_mem_reach ic h hj))
    _ = i + 1 := Finset.card_range _

/-- A leaf reaches only itself. -/
theorem reach_leaf (ic : InstContext) (h : ic.WF) {i : Nat} (hi : ¬ ic.IsOp i) :
    ic.reach i = {i} := by
  have : (ic.get i).k = .var ∨ (ic.get i).k = .const := by
    unfold IsOp at hi; tauto
  rw [reach_eq ic h.toAcyclic, h.ops_eq_nil this]; rfl

/-- The nodes of a rule whose roots exist exist. -/
theorem lt_size_of_mem_nodes (ic : InstContext) (h : ic.WF) {R : ParsedReplacement}
    (hR : ∀ r ∈ R.roots, r < ic.size) {x : Nat} (hx : x ∈ ic.nodes R) : x < ic.size := by
  obtain ⟨r, hr, hxr⟩ : ∃ r ∈ R.roots, x ∈ ic.reach r := by simpa [nodes] using hx
  exact lt_of_le_of_lt (ic.le_of_mem_reach h.toAcyclic hxr) (hR r hr)

theorem Extends.isOp_iff {ic ic' : InstContext} (he : ic.Extends ic') {i : Nat}
    (hi : i < ic.size) : ic'.IsOp i ↔ ic.IsOp i := by
  simp [IsOp, he.get_eq hi]

/-- Allocation does not change what an existing node reaches. -/
theorem Extends.reach_eq {ic ic' : InstContext} (he : ic.Extends ic') (h : ic.WF) {i : Nat}
    (hi : i < ic.size) : ic'.reach i = ic.reach i := by
  suffices ∀ f, ∀ i < ic.size, ic'.reachAux f i = ic.reachAux f i from this _ i hi
  intro f
  induction f with
  | zero => simp [reachAux]
  | succ f ih =>
    intro i hi
    simp only [reachAux, he.get_eq hi]
    congr 1
    exact Finset.biUnion_congr rfl fun j hj =>
      ih j ((h.lt_of_mem_ops (List.mem_toFinset.mp hj)).trans hi)

/-- Allocation does not change the nodes of a rule whose roots exist, nor its measure. -/
theorem Extends.nodes_eq {ic ic' : InstContext} (he : ic.Extends ic') (h : ic.WF)
    {R : ParsedReplacement} (hR : ∀ r ∈ R.roots, r < ic.size) : ic'.nodes R = ic.nodes R :=
  Finset.biUnion_congr rfl fun r hr => he.reach_eq h (hR r (List.mem_toFinset.mp hr))

theorem Extends.nonLeafNodes_eq {ic ic' : InstContext} (he : ic.Extends ic') (h : ic.WF)
    {R : ParsedReplacement} (hR : ∀ r ∈ R.roots, r < ic.size) :
    ic'.nonLeafNodes R = ic.nonLeafNodes R := by
  unfold nonLeafNodes
  rw [he.nodes_eq h hR]
  exact Finset.filter_congr fun x hx => he.isOp_iff (ic.lt_size_of_mem_nodes h hR hx)

/-- The distinct variables node `i` reaches, in index order. -/
def vars (ic : InstContext) (i : Nat) : List Nat :=
  (List.range (i + 1)).filter fun j => j ∈ ic.reach i ∧ (ic.get j).k = .var

end InstContext

/-- `souper::findVars` is not under src/: the variables a node reaches, each once, taken here in
index order. The order only orders the text the generators write for them. -/
def findVars (ic : InstContext) (i : Nat) : List Nat := ic.vars i

namespace InstContext

-- ════════════════════════════════════════════════════════════════════════
-- Sums over the tree unfolding
-- ════════════════════════════════════════════════════════════════════════

/-- The sum of `g` over the tree unfolding of node `i`, within `fuel` levels: a walk with no
visited set meets a shared node once per path to it. -/
def treeSumAux (ic : InstContext) (g : Nat → Nat) : Nat → Nat → Nat
  | 0, _ => 0
  | fuel + 1, i => g i + sumBy (ic.treeSumAux g fuel) (ic.get i).ops

/-- The sum of `g` over the tree unfolding of node `i`; `i + 1` levels reach every leaf. -/
def treeSum (ic : InstContext) (g : Nat → Nat) (i : Nat) : Nat := ic.treeSumAux g (i + 1) i

/-- The number of paths from `i`: the nodes of its tree unfolding. -/
def treeSize (ic : InstContext) (i : Nat) : Nat := ic.treeSum (fun _ => 1) i

/-- The number of paths from `i` to `v`. -/
def paths (ic : InstContext) (i v : Nat) : Nat := ic.treeSum (fun j => if j = v then 1 else 0) i

theorem treeSumAux_fuel (ic : InstContext) (h : ic.Acyclic) (g : Nat → Nat) :
    ∀ f f' i, i < f → i < f' → ic.treeSumAux g f i = ic.treeSumAux g f' i := by
  intro f
  induction f with
  | zero => intro f' i hf; omega
  | succ f ih =>
    intro f' i hf hf'
    obtain ⟨f', rfl⟩ : ∃ f'', f' = f'' + 1 := ⟨f' - 1, by omega⟩
    simp only [treeSumAux]
    congr 1
    exact sumBy_congr _ fun j hj => ih f' j (by have := h.lt_of_mem_ops hj; omega)
      (by have := h.lt_of_mem_ops hj; omega)

/-- The unfolding equation of `treeSum`. -/
theorem treeSum_eq (ic : InstContext) (h : ic.Acyclic) (g : Nat → Nat) (i : Nat) :
    ic.treeSum g i = g i + sumBy (ic.treeSum g) (ic.get i).ops := by
  rw [treeSum, treeSumAux]
  congr 1
  exact sumBy_congr _ fun j hj => ic.treeSumAux_fuel h g _ _ _ (h.lt_of_mem_ops hj) (by omega)

theorem treeSize_eq (ic : InstContext) (h : ic.WF) (i : Nat) :
    ic.treeSize i = 1 + sumBy ic.treeSize (ic.get i).ops :=
  ic.treeSum_eq h.toAcyclic _ i

theorem paths_eq (ic : InstContext) (h : ic.WF) (i v : Nat) :
    ic.paths i v = (if i = v then 1 else 0) + sumBy (ic.paths · v) (ic.get i).ops :=
  ic.treeSum_eq h.toAcyclic _ i

/-- A node a walk reaches is met along at least one path. -/
theorem paths_pos_of_mem_reach (ic : InstContext) (h : ic.WF) {i v : Nat} (hv : v ∈ ic.reach i) :
    0 < ic.paths i v := by
  induction i using Nat.strong_induction_on with
  | _ i ih =>
    rw [paths_eq ic h]
    rcases (mem_reach_iff ic h.toAcyclic).mp hv with rfl | ⟨o, ho, hvo⟩
    · rw [if_pos rfl]; omega
    · have hpos := ih o (h.lt_of_mem_ops ho) hvo
      have hle := sumBy_le_of_sublist (f := (ic.paths · v)) (List.singleton_sublist.mpr ho)
      simp only [sumBy_cons, sumBy_nil] at hle
      omega

end InstContext

end Souper
