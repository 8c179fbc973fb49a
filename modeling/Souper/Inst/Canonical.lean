import Mathlib.Data.List.Forall2
import Souper.Inst.Copy

/-!
# A canonical text of a rule

The reducer's do-not-repeat set compares rules by their text, `ParsedReplacement::getString`,
which is not under src/; `Generalize.CanonicalText` names what the set needs of a text. This
module gives a text that has it: the rule written up to the renaming of its nodes and of its
variables.

The text walks the tree unfolding of every root, in order, and writes one record per path: the
node, its tag (kind, width and, for a constant, the bits of its value) and its operands. The
nodes are then numbered by their first occurrence, and the numbered records are written in a
prefix code. A shared node is met once per path, so a rule with much sharing has a long text;
what the search needs is that the text is a function of the rule up to renaming and determines
it up to renaming.

## Main definitions

- `Shape` — the layout, the roots and the records of a rule, before numbering
- `Shape.normalize` — the nodes numbered by first occurrence
- `canonText` — the text
- `RuleIso` — two rules that are one up to the renaming of nodes

## Main results

- `Shape.normalize_relabel`, `Shape.exists_relabel_of_normalize_eq` — numbering forgets exactly
  a one-to-one renaming
- `canonText_eq_iff` — two rules have one text exactly when they are one up to renaming
- `CopyOf.injective` — a copy under a substitution that only puts fresh leaves in is one to one
- `shape_copy` — the shape of a copy under the substitution of one fresh variable for `I` is the
  shape of the original cut at `I`, renamed one to one
-/

namespace Souper

/-- One record of a tree unfolding: the node, its tag, and its operands. -/
structure Record where
  label : Nat
  tag : List Nat
  ops : List Nat
  deriving DecidableEq

namespace Record

/-- Rename the nodes of a record. -/
def relabel (β : Nat → Nat) (r : Record) : Record := ⟨β r.label, r.tag, r.ops.map β⟩

/-- The nodes a record names. -/
def labels (r : Record) : List Nat := r.label :: r.ops

@[simp] theorem labels_relabel (β : Nat → Nat) (r : Record) :
    (r.relabel β).labels = r.labels.map β := rfl

theorem relabel_relabel (β γ : Nat → Nat) (r : Record) :
    (r.relabel β).relabel γ = r.relabel (γ ∘ β) := by
  simp [relabel]

@[simp] theorem relabel_id : Record.relabel id = id := funext fun r => by simp [relabel]

theorem relabel_congr {β γ : Nat → Nat} {r : Record} (h : ∀ j ∈ r.labels, β j = γ j) :
    r.relabel β = r.relabel γ := by
  simp only [relabel, h r.label (List.mem_cons_self _ _), mk.injEq, true_and]
  exact List.map_congr_left fun j hj => h j (List.mem_cons_of_mem _ hj)

end Record

/-- A rule as the text sees it: its layout (how many path conditions, and the predecessor of
each block path condition), its roots in order, and the records of their unfoldings. -/
structure Shape where
  header : List Nat
  roots : List Nat
  recs : List Record
  deriving DecidableEq

namespace Shape

/-- Rename the nodes of a shape. -/
def relabel (β : Nat → Nat) (s : Shape) : Shape :=
  ⟨s.header, s.roots.map β, s.recs.map (Record.relabel β)⟩

/-- The nodes a shape names, in the order the text meets them. -/
def labels (s : Shape) : List Nat := s.roots ++ s.recs.flatMap Record.labels

/-- Number the nodes by their first occurrence. -/
def normalize (s : Shape) : Shape := s.relabel fun j => s.labels.indexOf j

theorem labels_relabel (β : Nat → Nat) (s : Shape) : (s.relabel β).labels = s.labels.map β := by
  simp [labels, relabel, List.map_flatMap, List.flatMap_map]

theorem relabel_relabel (β γ : Nat → Nat) (s : Shape) :
    (s.relabel β).relabel γ = s.relabel (γ ∘ β) := by
  simp [relabel, Record.relabel_relabel, Function.comp_def]

theorem relabel_congr {β γ : Nat → Nat} {s : Shape} (h : ∀ j ∈ s.labels, β j = γ j) :
    s.relabel β = s.relabel γ := by
  simp only [relabel, mk.injEq, true_and]
  exact ⟨List.map_congr_left fun j hj => h j (List.mem_append_left _ hj),
    List.map_congr_left fun r hr => Record.relabel_congr fun j hj =>
      h j (List.mem_append_right _ (List.mem_flatMap.mpr ⟨r, hr, hj⟩))⟩

theorem indexOf_map_of_injOn {β : Nat → Nat} :
    ∀ {l : List Nat}, Set.InjOn β {j | j ∈ l} → ∀ {j : Nat}, j ∈ l →
      (l.map β).indexOf (β j) = l.indexOf j
  | [], _, _, hj => absurd hj (List.not_mem_nil _)
  | a :: l, hβ, j, hj => by
    by_cases ha : a = j
    · subst ha; simp [List.indexOf_cons]
    have hne : β a ≠ β j := fun e => ha (hβ (List.mem_cons_self _ _) hj e)
    have hl : j ∈ l := (List.mem_cons.mp hj).resolve_left (Ne.symm ha)
    simp only [List.map_cons, List.indexOf_cons, beq_false_of_ne hne, beq_false_of_ne ha,
      cond_false, indexOf_map_of_injOn (hβ.mono fun x hx => List.mem_cons_of_mem a hx) hl]

/-- Numbering forgets a renaming that is one to one on the shape's nodes. -/
theorem normalize_relabel {β : Nat → Nat} (s : Shape) (hβ : Set.InjOn β {j | j ∈ s.labels}) :
    (s.relabel β).normalize = s.normalize := by
  unfold normalize
  rw [relabel_relabel, labels_relabel]
  exact relabel_congr fun j hj => indexOf_map_of_injOn hβ hj

/-- Reading the numbers back through the list of nodes undoes the numbering. -/
theorem relabel_normalize (s : Shape) : s.normalize.relabel (fun k => s.labels.getD k 0) = s := by
  rw [normalize, relabel_relabel]
  conv_rhs => rw [← show s.relabel id = s by simp [relabel]]
  refine relabel_congr fun j hj => ?_
  simp [List.getD_eq_getElem?_getD, List.getElem?_eq_getElem (List.indexOf_lt_length.mpr hj)]

/-- Two shapes with one numbering are renamings of each other, by a renaming one to one on the
first one's nodes. -/
theorem exists_relabel_of_normalize_eq {s₁ s₂ : Shape} (h : s₁.normalize = s₂.normalize) :
    ∃ β, Set.InjOn β {j | j ∈ s₁.labels} ∧ s₂ = s₁.relabel β := by
  refine ⟨(fun k => s₂.labels.getD k 0) ∘ fun j => s₁.labels.indexOf j, fun a ha b hb hab => ?_, ?_⟩
  · -- the numbers of `s₁`'s nodes are numbers of `s₂`'s nodes, which read back one to one
    have hmem : ∀ x ∈ s₁.labels, ∃ y ∈ s₂.labels, s₁.labels.indexOf x = s₂.labels.indexOf y :=
      fun x hx => by
        have : s₁.labels.indexOf x ∈ s₂.normalize.labels := by
          rw [← h, normalize, labels_relabel]; exact List.mem_map_of_mem _ hx
        rw [normalize, labels_relabel] at this
        obtain ⟨y, hy, e⟩ := List.mem_map.mp this
        exact ⟨y, hy, e.symm⟩
    have hback : ∀ y ∈ s₂.labels, s₂.labels.getD (s₂.labels.indexOf y) 0 = y := fun y hy => by
      simp [List.getD_eq_getElem?_getD, List.getElem?_eq_getElem (List.indexOf_lt_length.mpr hy)]
    obtain ⟨a', ha', ea⟩ := hmem a ha
    obtain ⟨b', hb', eb⟩ := hmem b hb
    have hab' : a' = b' := by
      rw [← hback a' ha', ← hback b' hb', ← ea, ← eb]; exact hab
    exact (List.indexOf_inj ha hb).mp (by rw [ea, eb, hab'])
  · calc s₂ = s₂.normalize.relabel (fun k => s₂.labels.getD k 0) := (relabel_normalize s₂).symm
      _ = _ := by rw [← h, normalize, relabel_relabel]

end Shape

-- ════════════════════════════════════════════════════════════════════════
-- The prefix code
-- ════════════════════════════════════════════════════════════════════════

/-- A number in unary, closed by a comma: no code is a prefix of another. -/
def encNat (n : Nat) : List Char := List.replicate n '|' ++ [',']

/-- A list of numbers: its length, then each number. -/
def encNats (l : List Nat) : List Char := encNat l.length ++ l.flatMap encNat

/-- A record: its node, its tag, its operands. -/
def Record.enc (r : Record) : List Char := encNat r.label ++ encNats r.tag ++ encNats r.ops

/-- A shape: its layout, its roots, and its records. -/
def Shape.enc (s : Shape) : List Char :=
  encNats s.header ++ encNats s.roots ++ encNat s.recs.length ++ s.recs.flatMap Record.enc

theorem encNat_append_inj : ∀ {a b : Nat} {s t : List Char},
    encNat a ++ s = encNat b ++ t → a = b ∧ s = t
  | 0, 0, _, _, h => ⟨rfl, by simpa [encNat] using h⟩
  | 0, _ + 1, _, _, h => by simp [encNat, List.replicate_succ] at h
  | _ + 1, 0, _, _, h => by simp [encNat, List.replicate_succ] at h
  | a + 1, b + 1, s, t, h => by
    obtain ⟨rfl, rfl⟩ := encNat_append_inj
      (show encNat a ++ s = encNat b ++ t by simpa [encNat, List.replicate_succ] using h)
    exact ⟨rfl, rfl⟩

/-- Codes of a prefix code, concatenated, are read back one by one. -/
theorem flatMap_append_inj {α : Type} {e : α → List Char}
    (he : ∀ a b s t, e a ++ s = e b ++ t → a = b ∧ s = t) :
    ∀ {l₁ l₂ : List α} {s t : List Char}, l₁.length = l₂.length →
      l₁.flatMap e ++ s = l₂.flatMap e ++ t → l₁ = l₂ ∧ s = t
  | [], [], _, _, _, h => ⟨rfl, by simpa using h⟩
  | [], _ :: _, _, _, hl, _ => by simp at hl
  | _ :: _, [], _, _, hl, _ => by simp at hl
  | a :: l₁, b :: l₂, s, t, hl, h => by
    simp only [List.flatMap_cons, List.append_assoc] at h
    obtain ⟨rfl, h'⟩ := he _ _ _ _ h
    obtain ⟨rfl, rfl⟩ := flatMap_append_inj he (by simpa using hl) h'
    exact ⟨rfl, rfl⟩

theorem encNats_append_inj {l₁ l₂ : List Nat} {s t : List Char}
    (h : encNats l₁ ++ s = encNats l₂ ++ t) : l₁ = l₂ ∧ s = t := by
  simp only [encNats, List.append_assoc] at h
  obtain ⟨hl, h⟩ := encNat_append_inj h
  exact flatMap_append_inj (fun _ _ _ _ => encNat_append_inj) hl h

theorem Record.enc_append_inj {r₁ r₂ : Record} {s t : List Char}
    (h : r₁.enc ++ s = r₂.enc ++ t) : r₁ = r₂ ∧ s = t := by
  simp only [enc, List.append_assoc] at h
  obtain ⟨h₁, h⟩ := encNat_append_inj h
  obtain ⟨h₂, h⟩ := encNats_append_inj h
  obtain ⟨h₃, rfl⟩ := encNats_append_inj h
  cases r₁; cases r₂
  exact ⟨by simp_all, rfl⟩

theorem Shape.enc_inj {s₁ s₂ : Shape} (h : s₁.enc = s₂.enc) : s₁ = s₂ := by
  rw [← List.append_nil s₁.enc, ← List.append_nil s₂.enc] at h
  simp only [enc, List.append_assoc] at h
  obtain ⟨h₁, h⟩ := encNats_append_inj h
  obtain ⟨h₂, h⟩ := encNats_append_inj h
  obtain ⟨hl, h⟩ := encNat_append_inj h
  obtain ⟨h₃, -⟩ := flatMap_append_inj (fun _ _ _ _ => Record.enc_append_inj) hl h
  cases s₁; cases s₂
  simp_all

-- ════════════════════════════════════════════════════════════════════════
-- The records of a rule
-- ════════════════════════════════════════════════════════════════════════

/-- What the text writes of a node besides its operands: its kind, its width and, for a
constant, the bits of its value. A variable's name is left out, so renaming variables keeps the
text. -/
def Inst.tag (I : Inst) : List Nat :=
  I.k.toCtorIdx :: I.width ::
    if I.k = .const then (List.range I.val.width).map fun b => (I.val.bits.getLsbD b).toNat
    else []

theorem Inst.k_eq_of_tag_eq {I J : Inst} (h : I.tag = J.tag) : I.k = J.k ∧ I.width = J.width := by
  simp only [tag, List.cons.injEq] at h
  exact ⟨by rw [← Kind.ofNat_toCtorIdx I.k, h.1, Kind.ofNat_toCtorIdx], h.2.1⟩

@[simp] theorem Inst.tag_var (w : Nat) (n : String) :
    (Inst.var w n).tag = [Kind.var.toCtorIdx, w] := by
  simp [tag]

/-- How many path conditions a rule has, and the predecessor of each block path condition. -/
def ParsedReplacement.layout (R : ParsedReplacement) : List Nat :=
  R.pcs.length :: R.bpcs.map (·.predIdx)

namespace InstContext

/-- The record of node `i`. -/
def record (ic : InstContext) (i : Nat) : Record := ⟨i, (ic.get i).tag, (ic.get i).ops⟩

/-- The tree unfolding of node `i` within `fuel` levels, in preorder, one record per path. A node
where `cut` holds is written as a variable of its width and not unfolded: what eliding it
leaves. -/
def recordsAux (ic : InstContext) (cut : Nat → Bool) : Nat → Nat → List Record
  | 0, _ => []
  | fuel + 1, i =>
    if cut i then [⟨i, (Inst.var (ic.get i).width "").tag, []⟩]
    else ic.record i :: (ic.get i).ops.flatMap (ic.recordsAux cut fuel)

/-- The unfolding of node `i`; `i + 1` levels reach every leaf. -/
def records (ic : InstContext) (cut : Nat → Bool) (i : Nat) : List Record :=
  ic.recordsAux cut (i + 1) i

/-- The shape of a rule: its layout, its roots, and the unfoldings of its roots in order. -/
def shape (ic : InstContext) (cut : Nat → Bool) (R : ParsedReplacement) : Shape :=
  ⟨R.layout, R.roots, R.roots.flatMap (ic.records cut)⟩

end InstContext

/-- The canonical text of a rule: its shape, nodes numbered by first occurrence, in the prefix
code. -/
def canonText (ic : InstContext) (R : ParsedReplacement) : String :=
  String.mk (ic.shape (fun _ => false) R).normalize.enc

namespace InstContext

variable {ic ic' : InstContext} {cut : Nat → Bool} {R : ParsedReplacement}

theorem recordsAux_fuel (h : ic.Acyclic) (cut : Nat → Bool) :
    ∀ f f' i, i < f → i < f' → ic.recordsAux cut f i = ic.recordsAux cut f' i := by
  intro f
  induction f with
  | zero => intro f' i hf; omega
  | succ f ih =>
    intro f' i hf hf'
    obtain ⟨f', rfl⟩ : ∃ g, f' = g + 1 := ⟨f' - 1, by omega⟩
    simp only [recordsAux]
    split_ifs
    · rfl
    · exact congrArg _ (List.flatMap_congr fun j hj =>
        ih f' j (by have := h.lt_of_mem_ops hj; omega) (by have := h.lt_of_mem_ops hj; omega))

theorem records_eq_recordsAux (h : ic.Acyclic) {f i : Nat} (hf : i < f) :
    ic.records cut i = ic.recordsAux cut f i :=
  recordsAux_fuel h cut _ _ i (Nat.lt_succ_self i) hf

/-- Allocation does not change the unfolding of an existing node. -/
theorem Extends.recordsAux_eq (he : ic.Extends ic') (h : ic.WF) (cut : Nat → Bool) :
    ∀ f i, i < ic.size → ic'.recordsAux cut f i = ic.recordsAux cut f i := by
  intro f
  induction f with
  | zero => intro i _; rfl
  | succ f ih =>
    intro i hi
    simp only [recordsAux, record, he.get_eq hi]
    split_ifs
    · rfl
    · exact congrArg _ (List.flatMap_congr fun j hj => ih j ((h.lt_of_mem_ops hj).trans hi))

theorem Extends.shape_eq (he : ic.Extends ic') (h : ic.WF) (hR : ∀ r ∈ R.roots, r < ic.size) :
    ic'.shape cut R = ic.shape cut R := by
  simp only [shape, Shape.mk.injEq, true_and]
  exact List.flatMap_congr fun r hr => he.recordsAux_eq h cut _ r (hR r hr)

theorem mem_nodes_of_mem_roots {r : Nat} (hr : r ∈ R.roots) : r ∈ ic.nodes R :=
  Finset.mem_biUnion.mpr ⟨r, List.mem_toFinset.mpr hr, ic.mem_reach_self r⟩

theorem mem_nodes_of_mem_reach {r j : Nat} (hr : r ∈ R.roots)
    (hj : j ∈ ic.reach r) : j ∈ ic.nodes R :=
  Finset.mem_biUnion.mpr ⟨r, List.mem_toFinset.mpr hr, hj⟩

/-- The nodes of a rule are closed under operands. -/
theorem mem_nodes_of_mem_ops (h : ic.Acyclic) {n o : Nat} (hn : n ∈ ic.nodes R)
    (ho : o ∈ (ic.get n).ops) : o ∈ ic.nodes R := by
  obtain ⟨r, hr, hnr⟩ := Finset.mem_biUnion.mp hn
  exact Finset.mem_biUnion.mpr ⟨r, hr, ic.reach_trans h hnr (ic.mem_reach_of_mem_ops h ho)⟩

/-- An unfolding names only nodes its root reaches. -/
theorem mem_reach_of_mem_recordsAux (h : ic.Acyclic) :
    ∀ f i, ∀ r ∈ ic.recordsAux cut f i, ∀ j ∈ r.labels, j ∈ ic.reach i := by
  intro f
  induction f with
  | zero => intro i r hr; cases hr
  | succ f ih =>
    intro i r hr j hj
    simp only [recordsAux] at hr
    split_ifs at hr
    · obtain rfl := List.mem_singleton.mp hr
      obtain rfl := List.mem_singleton.mp hj
      exact ic.mem_reach_self _
    rcases List.mem_cons.mp hr with rfl | hr
    · rcases List.mem_cons.mp hj with rfl | hj
      exacts [ic.mem_reach_self _, ic.mem_reach_of_mem_ops h hj]
    · obtain ⟨o, ho, hr⟩ := List.mem_flatMap.mp hr
      exact ic.reach_subset_of_mem_ops h ho (ih o r hr j hj)

/-- A shape names only nodes of its rule. -/
theorem mem_nodes_of_mem_labels (h : ic.Acyclic) {j : Nat} (hj : j ∈ (ic.shape cut R).labels) :
    j ∈ ic.nodes R := by
  rcases List.mem_append.mp hj with hj | hj
  · exact mem_nodes_of_mem_roots hj
  · obtain ⟨r, hr, hjr⟩ := List.mem_flatMap.mp hj
    obtain ⟨root, hroot, hrr⟩ := List.mem_flatMap.mp hr
    exact mem_nodes_of_mem_reach hroot (ic.mem_reach_of_mem_recordsAux h _ _ r hrr j hjr)

/-- An unfolding with no cut holds the record of every node its root reaches, and no other. -/
theorem mem_recordsAux_iff (h : ic.Acyclic) :
    ∀ f i, i < f → ∀ r,
      r ∈ ic.recordsAux (fun _ => false) f i ↔ ∃ j ∈ ic.reach i, r = ic.record j := by
  intro f
  induction f with
  | zero => intro i hi; omega
  | succ f ih =>
    intro i hi r
    simp only [recordsAux, Bool.false_eq_true, if_false, List.mem_cons, List.mem_flatMap]
    rw [ic.reach_eq h, Finset.exists_mem_insert]
    simp only [Finset.mem_biUnion, List.mem_toFinset]
    refine or_congr Iff.rfl ⟨fun ⟨o, ho, hr⟩ => ?_, fun ⟨j, ⟨o, ho, hj⟩, hr⟩ => ?_⟩
    · obtain ⟨j, hj, rfl⟩ := (ih o (by have := h.lt_of_mem_ops ho; omega) r).mp hr
      exact ⟨j, ⟨o, ho, hj⟩, rfl⟩
    · exact ⟨o, ho, (ih o (by have := h.lt_of_mem_ops ho; omega) r).mpr ⟨j, hj, hr⟩⟩

/-- The records of a rule's shape are those of its nodes. -/
theorem mem_shape_recs_iff (h : ic.Acyclic) {r : Record} :
    r ∈ (ic.shape (fun _ => false) R).recs ↔ ∃ j ∈ ic.nodes R, r = ic.record j := by
  simp only [shape, List.mem_flatMap, records, nodes, Finset.mem_biUnion, List.mem_toFinset]
  constructor
  · rintro ⟨root, hroot, hr⟩
    obtain ⟨j, hj, rfl⟩ := (ic.mem_recordsAux_iff h _ root (Nat.lt_succ_self _) r).mp hr
    exact ⟨j, ⟨root, hroot, hj⟩, rfl⟩
  · rintro ⟨j, ⟨root, hroot, hj⟩, rfl⟩
    exact ⟨root, hroot, (ic.mem_recordsAux_iff h _ root (Nat.lt_succ_self _) _).mpr ⟨j, hj, rfl⟩⟩

/-- A shape with no cut names exactly the nodes of its rule. -/
theorem mem_shape_labels_iff (h : ic.Acyclic) {j : Nat} :
    j ∈ (ic.shape (fun _ => false) R).labels ↔ j ∈ ic.nodes R :=
  ⟨mem_nodes_of_mem_labels h, fun hj => List.mem_append_right _ (List.mem_flatMap.mpr
    ⟨ic.record j, (mem_shape_recs_iff h).mpr ⟨j, hj, rfl⟩, List.mem_cons_self _ _⟩)⟩

end InstContext

-- ════════════════════════════════════════════════════════════════════════
-- Renaming
-- ════════════════════════════════════════════════════════════════════════

/-- `β` renames the rule `R₁` of `ic₁` into the rule `R₂` of `ic₂`: one to one on the nodes of
`R₁` and onto those of `R₂`, it keeps the layout, maps the roots in order, and keeps every node's
tag and operands. -/
structure RuleIso (ic₁ : InstContext) (R₁ : ParsedReplacement) (ic₂ : InstContext)
    (R₂ : ParsedReplacement) (β : Nat → Nat) : Prop where
  injOn : Set.InjOn β ↑(ic₁.nodes R₁)
  nodes : ic₂.nodes R₂ = (ic₁.nodes R₁).image β
  layout : R₂.layout = R₁.layout
  roots : R₂.roots = R₁.roots.map β
  record : ∀ n ∈ ic₁.nodes R₁, ic₂.record (β n) = (ic₁.record n).relabel β

open InstContext

section Relabel

variable {ic₁ ic₂ : InstContext} {R₁ R₂ : ParsedReplacement} {β : Nat → Nat}
  {cut₁ cut₂ : Nat → Bool}

/-- A renaming that keeps the records of a set of nodes closed under operands, and where the two
cuts are, renames their unfoldings. -/
theorem recordsAux_relabel {N : Finset Nat} (hN : ∀ n ∈ N, ∀ o ∈ (ic₁.get n).ops, o ∈ N)
    (hrec : ∀ n ∈ N, ic₂.record (β n) = (ic₁.record n).relabel β)
    (hcut : ∀ n ∈ N, cut₂ (β n) = cut₁ n) :
    ∀ f, ∀ n ∈ N,
      ic₂.recordsAux cut₂ f (β n) = (ic₁.recordsAux cut₁ f n).map (Record.relabel β) := by
  intro f
  induction f with
  | zero => intro _ _; rfl
  | succ f ih =>
    intro n hn
    have hr := hrec n hn
    have hw : (ic₂.get (β n)).width = (ic₁.get n).width :=
      (Inst.k_eq_of_tag_eq (congrArg Record.tag hr)).2
    simp only [recordsAux, hcut n hn]
    split_ifs
    · simp [Record.relabel, hw]
    · rw [List.map_cons, ← hr, show (ic₂.get (β n)).ops = (ic₁.get n).ops.map β from
        congrArg Record.ops hr, List.flatMap_map, List.map_flatMap]
      exact congrArg _ (List.flatMap_congr fun o ho => ih o (hN n hn o ho))

/-- A renaming that keeps the layout, the roots and the records of `R₁`, and where the two cuts
are, renames its shape. -/
theorem shape_relabel (h₁ : ic₁.Acyclic) (h₂ : ic₂.Acyclic) (hlay : R₂.layout = R₁.layout)
    (hroots : R₂.roots = R₁.roots.map β)
    (hrec : ∀ n ∈ ic₁.nodes R₁, ic₂.record (β n) = (ic₁.record n).relabel β)
    (hcut : ∀ n ∈ ic₁.nodes R₁, cut₂ (β n) = cut₁ n) :
    ic₂.shape cut₂ R₂ = (ic₁.shape cut₁ R₁).relabel β := by
  simp only [shape, Shape.relabel, hlay, hroots, List.flatMap_map, List.map_flatMap, true_and]
  refine congrArg _ (List.flatMap_congr fun r hr => ?_)
  rw [records_eq_recordsAux h₂ (show β r < β r + r + 1 by omega),
    records_eq_recordsAux h₁ (show r < β r + r + 1 by omega)]
  exact recordsAux_relabel (fun n hn o ho => mem_nodes_of_mem_ops h₁ hn ho) hrec hcut _ r
    (mem_nodes_of_mem_roots hr)

namespace RuleIso

variable (hiso : RuleIso ic₁ R₁ ic₂ R₂ β)
include hiso

theorem eq_iff {a b : Nat} (ha : a ∈ ic₁.nodes R₁) (hb : b ∈ ic₁.nodes R₁) :
    β a = β b ↔ a = b :=
  hiso.injOn.eq_iff ha hb

theorem k_eq {n : Nat} (hn : n ∈ ic₁.nodes R₁) : (ic₂.get (β n)).k = (ic₁.get n).k :=
  (Inst.k_eq_of_tag_eq (congrArg Record.tag (hiso.record n hn))).1

theorem mapping_eq : R₂.mapping.lhs = β R₁.mapping.lhs ∧ R₂.mapping.rhs = β R₁.mapping.rhs := by
  have h := hiso.roots
  simp only [ParsedReplacement.roots, List.cons_append, List.map_cons, List.cons.injEq] at h
  exact ⟨h.1, h.2.1⟩

/-- Renamed rules reach equally many operations. -/
theorem card_nonLeafNodes : (ic₂.nonLeafNodes R₂).card = (ic₁.nonLeafNodes R₁).card := by
  have himage : ic₂.nonLeafNodes R₂ = (ic₁.nonLeafNodes R₁).image β := by
    ext j
    simp only [nonLeafNodes, Finset.mem_filter, hiso.nodes, Finset.mem_image]
    constructor
    · rintro ⟨⟨n, hn, rfl⟩, hop⟩
      exact ⟨n, ⟨hn, by simpa only [IsOp, hiso.k_eq hn] using hop⟩, rfl⟩
    · rintro ⟨n, ⟨hn, hop⟩, rfl⟩
      exact ⟨⟨n, hn, rfl⟩, by simpa only [IsOp, hiso.k_eq hn] using hop⟩
  rw [himage]
  exact Finset.card_image_of_injOn (hiso.injOn.mono fun x hx => (Finset.mem_filter.mp hx).1)

/-- Renamed rules cut at corresponding nodes have renamed shapes. -/
theorem shape_cut (h₁ : ic₁.Acyclic) (h₂ : ic₂.Acyclic) {I : Nat} (hI : I ∈ ic₁.nodes R₁) :
    ic₂.shape (· == β I) R₂ = (ic₁.shape (· == I) R₁).relabel β :=
  shape_relabel h₁ h₂ hiso.layout hiso.roots hiso.record fun n hn => by
    show (β n == β I) = (n == I)
    rw [Bool.eq_iff_iff, beq_iff_eq, beq_iff_eq]
    exact hiso.eq_iff hn hI

end RuleIso

/-- The canonical text is canonical: two rules have one text exactly when one is a renaming of
the other. -/
theorem canonText_eq_iff (h₁ : ic₁.WF) (h₂ : ic₂.WF) :
    canonText ic₁ R₁ = canonText ic₂ R₂ ↔ ∃ β, RuleIso ic₁ R₁ ic₂ R₂ β := by
  have hl₁ : ∀ j, j ∈ (ic₁.shape (fun _ => false) R₁).labels ↔ j ∈ ic₁.nodes R₁ := fun _ =>
    mem_shape_labels_iff h₁.toAcyclic
  constructor
  · intro h
    obtain ⟨β, hinj, hS⟩ := Shape.exists_relabel_of_normalize_eq
      (Shape.enc_inj (congrArg String.data h))
    refine ⟨β, fun a ha b hb => hinj ((hl₁ a).mpr ha) ((hl₁ b).mpr hb), ?_,
      congrArg Shape.header hS, congrArg Shape.roots hS, fun n hn => ?_⟩
    · ext j
      rw [← mem_shape_labels_iff h₂.toAcyclic, hS, Shape.labels_relabel, Finset.mem_image]
      simp only [List.mem_map, hl₁, Finset.mem_coe]
    · -- the renamed record of `n` is a record of `R₂`, so the record of `β n`
      have hmem : (ic₁.record n).relabel β ∈ (ic₂.shape (fun _ => false) R₂).recs := by
        rw [hS]; exact List.mem_map_of_mem _ ((mem_shape_recs_iff h₁.toAcyclic).mpr ⟨n, hn, rfl⟩)
      obtain ⟨j, -, hj⟩ := (mem_shape_recs_iff h₂.toAcyclic).mp hmem
      rw [hj]; exact congrArg ic₂.record (congrArg Record.label hj)
  · rintro ⟨β, hiso⟩
    have hS : ic₂.shape (fun _ => false) R₂ = (ic₁.shape (fun _ => false) R₁).relabel β :=
      shape_relabel h₁.toAcyclic h₂.toAcyclic hiso.layout hiso.roots hiso.record fun _ _ => rfl
    rw [canonText, canonText, hS, Shape.normalize_relabel _ fun a ha b hb =>
      (hiso.eq_iff ((hl₁ a).mp ha) ((hl₁ b).mp hb)).mp]

end Relabel

-- ════════════════════════════════════════════════════════════════════════
-- Copies
-- ════════════════════════════════════════════════════════════════════════

theorem Inst.tag_eq_of_k_eq {I J : Inst} (hk : I.k = J.k) (hw : I.width = J.width)
    (hc : J.k ≠ .const) : I.tag = J.tag := by
  simp [tag, hk, hw, hc]

theorem InstContext.IsOp.of_k_eq {ic : InstContext} {i j : Nat} (hk : (ic.get i).k = (ic.get j).k)
    (h : ic.IsOp j) : ic.IsOp i := by
  unfold IsOp; rw [hk]; exact h

theorem InstContext.WF.ops_eq_nil_of_not_isOp {ic : InstContext} (h : ic.WF) {i : Nat}
    (hi : ¬ ic.IsOp i) : (ic.get i).ops = [] :=
  h.ops_eq_nil ((not_and_or.mp hi).imp not_not.mp not_not.mp)

theorem forall₂_map_eq {α β γ : Type} {P : α → β → Prop} {f : α → γ} {g : β → γ}
    (hfg : ∀ a b, P a b → g b = f a) : ∀ {l l'}, List.Forall₂ P l l' → l'.map g = l.map f
  | _, _, .nil => rfl
  | _, _, .cons hab h => by rw [List.map_cons, List.map_cons, hfg _ _ hab, forall₂_map_eq hfg h]

theorem forall₂_flatMap {α β : Type} {P : α → β → Prop} {Q : Nat → Nat → Prop}
    {f : α → List Nat} {g : β → List Nat} (hfg : ∀ a b, P a b → List.Forall₂ Q (f a) (g b)) :
    ∀ {l l'}, List.Forall₂ P l l' → List.Forall₂ Q (l.flatMap f) (l'.flatMap g)
  | _, _, .nil => .nil
  | _, _, .cons hab h => List.rel_append (hfg _ _ hab) (forall₂_flatMap hfg h)

theorem exists_of_forall₂_of_mem_left {α β : Type} {P : α → β → Prop} {l : List α}
    {l' : List β} (h : List.Forall₂ P l l') {a : α} (ha : a ∈ l) : ∃ b, P a b := by
  induction h with
  | nil => cases ha
  | cons hab _ ih => rcases List.mem_cons.mp ha with rfl | ha; exacts [⟨_, hab⟩, ih ha]

namespace CopyOf

variable {σ : Nat → Option Nat} {σc : Nat → Option APInt} {ic : InstContext}

/-- Under interning, a copy whose substitution puts in only leaves at or above `b`, each for one
node, and no constant, is one to one on the nodes below `b`. -/
theorem injective (hwf : ic.WF) {b : Nat} (hσ : ∀ e m, σ e = some m → b ≤ m ∧ ¬ ic.IsOp m)
    (hσinj : ∀ e₁ e₂ m, σ e₁ = some m → σ e₂ = some m → e₁ = e₂) (hσc : ∀ e, σc e = none)
    {x a : Nat} (h : CopyOf σ σc ic x a) : x < b → ∀ {y}, y < b → CopyOf σ σc ic y a → x = y := by
  induction h with
  | subst _ _ hs =>
    intro _ y hy h₂
    cases h₂ with
    | subst _ _ hs' => exact hσinj _ _ _ hs hs'
    | const _ _ _ _ hv => exact absurd hv (by simp [hσc])
    | leaf => exact absurd (hσ _ _ hs).1 (by omega)
    | op _ _ _ hop hk => exact absurd (hop.of_k_eq hk) (hσ _ _ hs).2
  | const _ _ _ _ hv => exact absurd hv (by simp [hσc])
  | leaf _ _ hl =>
    intro hx y hy h₂
    cases h₂ with
    | subst _ _ hs' => exact absurd (hσ _ _ hs').1 (by omega)
    | const _ _ _ _ hv => exact absurd hv (by simp [hσc])
    | leaf => rfl
    | op _ _ _ hop hk => exact absurd (hop.of_k_eq hk) hl
  | @op n m hn _ _ hop hk hw hl _ ih =>
    intro hx y hy h₂
    cases h₂ with
    | subst _ _ hs' => exact absurd (hop.of_k_eq hk) (hσ _ _ hs').2
    | const _ _ _ _ hv => exact absurd hv (by simp [hσc])
    | leaf _ _ hl' => exact absurd (hop.of_k_eq hk) hl'
    | op hy' _ _ _ hky hwy hly hpsy =>
      -- the operands copy to the same nodes, so they are the same
      have hops : (ic.get n).ops = (ic.get y).ops :=
        List.ext_getElem (hl.symm.trans hly) fun k h₁ h₂ =>
          ih _ (mem_zip_getElem h₁ (by omega))
            ((hwf.lt_of_mem_ops (List.getElem_mem h₁)).trans hx)
            ((hwf.lt_of_mem_ops (List.getElem_mem h₂)).trans hy)
            (hpsy _ (mem_zip_getElem h₂ (by omega)))
      exact hwf.interned_op n hn y hy' hop.1 hop.2 (hk.symm.trans hky) (hw.symm.trans hwy) hops

/-- The operands of an operation's copy are the copies of its operands. -/
theorem ops_eq_map {c : Nat → Nat} (hc : ∀ n m, CopyOf σ σc ic n m → c n = m) {n m : Nat}
    (hl : (ic.get m).ops.length = (ic.get n).ops.length)
    (hps : ∀ p ∈ (ic.get n).ops.zip (ic.get m).ops, CopyOf σ σc ic p.1 p.2) :
    (ic.get m).ops = (ic.get n).ops.map c ∧ ∀ o ∈ (ic.get n).ops, CopyOf σ σc ic o (c o) := by
  have hk : ∀ k (h : k < (ic.get n).ops.length) (h' : k < (ic.get m).ops.length),
      CopyOf σ σc ic (ic.get n).ops[k] (ic.get m).ops[k] := fun k h h' =>
    hps _ (mem_zip_getElem h h')
  refine ⟨List.ext_getElem (by simp [hl]) fun k h₁ h₂ => ?_, fun o ho => ?_⟩
  · rw [List.getElem_map]; exact (hc _ _ (hk k (by simpa using h₂) h₁)).symm
  · obtain ⟨k, hk', rfl⟩ := List.mem_iff_getElem.mp ho
    rw [hc _ _ (hk k hk' (by omega))]; exact hk k hk' (by omega)

end CopyOf

/-- The roots of a copied rule are copies of the roots, in order. -/
theorem RuleCopy.forall₂_roots {σ : Nat → Option Nat} {σc : Nat → Option APInt}
    {ic : InstContext} {R R' : ParsedReplacement} (h : RuleCopy σ σc ic R R') :
    List.Forall₂ (CopyOf σ σc ic) R.roots R'.roots :=
  List.rel_append (List.rel_append (.cons h.1.1 (.cons h.1.2 .nil))
    (forall₂_flatMap (fun _ _ hm => .cons hm.1 (.cons hm.2 .nil)) h.2.1))
    (forall₂_flatMap (fun _ _ hb => .cons hb.2.1 (.cons hb.2.2 .nil)) h.2.2)

theorem RuleCopy.layout_eq {σ : Nat → Option Nat} {σc : Nat → Option APInt}
    {ic : InstContext} {R R' : ParsedReplacement} (h : RuleCopy σ σc ic R R') :
    R'.layout = R.layout := by
  rw [ParsedReplacement.layout, ParsedReplacement.layout, h.2.1.length_eq,
    forall₂_map_eq (fun _ _ hb => hb.1) h.2.2]

/-- The unfolding of a copy, under the substitution of the fresh variable `v` for `I`, is the
unfolding of the original cut at `I`, renamed by the copy; and every node the cut unfolding names
has a copy. -/
theorem recordsAux_copy {σc : Nat → Option APInt} {ic C : InstContext} {I v : Nat}
    {name : String} {c : Nat → Nat} (hwf : C.WF) (he : ic.Extends C)
    (hv : C.get v = .var (ic.get I).width name) (hσc : ∀ e, σc e = none)
    (hc : ∀ n m, CopyOf [(I, v)].lookup σc C n m → c n = m) :
    ∀ f n m, n < ic.size → CopyOf [(I, v)].lookup σc C n m →
      C.recordsAux (fun _ => false) f m = (ic.recordsAux (· == I) f n).map (Record.relabel c) ∧
      ∀ r ∈ ic.recordsAux (· == I) f n, ∀ j ∈ r.labels, ∃ b, CopyOf [(I, v)].lookup σc C j b := by
  intro f
  induction f with
  | zero => intro _ _ _ _; exact ⟨rfl, nofun⟩
  | succ f ih =>
    intro n m hn hcopy
    have hcn := hc n m hcopy
    have hget : C.get n = ic.get n := he.get_eq hn
    cases hcopy with
    | subst hnC hmC hs =>
      -- the substituted node: the fresh variable
      obtain ⟨rfl, rfl⟩ : n = I ∧ m = v := by
        rw [lookup_cons_ite] at hs
        split_ifs at hs with h
        exacts [⟨h, (Option.some.inj hs).symm⟩, absurd hs nofun]
      refine ⟨by simp [InstContext.recordsAux, InstContext.record, hv, hcn, Record.relabel], ?_⟩
      intro r hr j hj
      simp only [InstContext.recordsAux, beq_self_eq_true, if_true, List.mem_singleton] at hr
      subst hr
      obtain rfl := List.mem_singleton.mp hj
      exact ⟨_, .subst hnC hmC (by simp [lookup_cons_ite])⟩
    | const _ _ _ _ hv' => exact absurd hv' (by simp [hσc])
    | leaf hnC hs hl hvar =>
      -- a leaf other than `I` stays itself
      have hnI : (n == I) = false := by
        rw [lookup_cons_ite] at hs; split_ifs at hs with h; exact beq_false_of_ne h
      have hops : (ic.get n).ops = [] := hget ▸ hwf.ops_eq_nil_of_not_isOp hl
      refine ⟨by simp [InstContext.recordsAux, InstContext.record, hnI, hops, hget, hcn,
        Record.relabel], ?_⟩
      intro r hr j hj
      simp only [InstContext.recordsAux, hnI, Bool.false_eq_true, if_false, hops,
        List.flatMap_nil, List.mem_singleton] at hr
      subst hr
      simp only [Record.labels, InstContext.record, hops, List.mem_singleton] at hj
      subst hj
      exact ⟨_, .leaf hnC hs hl hvar⟩
    | op hnC hmC hs hop hk hw hl hps =>
      -- an operation other than `I`: its copy has the copies of its operands
      have hnI : (n == I) = false := by
        rw [lookup_cons_ite] at hs; split_ifs at hs with h; exact beq_false_of_ne h
      obtain ⟨hopsm, hopc⟩ := CopyOf.ops_eq_map hc hl hps
      rw [hget] at hopsm hopc
      have hlt : ∀ o ∈ (ic.get n).ops, o < ic.size := fun o ho =>
        (hwf.lt_of_mem_ops (hget ▸ ho)).trans hn
      have hrec : C.record m = (ic.record n).relabel c := by
        rw [InstContext.record, InstContext.record, Record.relabel, hcn, hopsm,
          Inst.tag_eq_of_k_eq (hget ▸ hk) (hget ▸ hw) (hget ▸ hop.2)]
      refine ⟨?_, ?_⟩
      · simp only [InstContext.recordsAux, hnI, Bool.false_eq_true, if_false, List.map_cons, hrec,
          hopsm, List.flatMap_map, List.map_flatMap]
        exact congrArg _ (List.flatMap_congr fun o ho => (ih o (c o) (hlt o ho) (hopc o ho)).1)
      · intro r hr j hj
        simp only [InstContext.recordsAux, hnI, Bool.false_eq_true, if_false, List.mem_cons,
          List.mem_flatMap] at hr
        rcases hr with rfl | ⟨o, ho, hr⟩
        · rcases List.mem_cons.mp hj with rfl | hj
          · exact ⟨_, .op hnC hmC hs hop hk hw hl hps⟩
          · exact ⟨_, hopc j hj⟩
        · exact (ih o (c o) (hlt o ho) (hopc o ho)).2 r hr j hj

/-- The shape of a copy under the substitution of a fresh variable for `I` is the shape of the
original cut at `I`, renamed one to one. -/
theorem shape_copy {σc : Nat → Option APInt} {ic C : InstContext} {I : Nat} {name : String}
    {R R' : ParsedReplacement} (hwf : ic.WF) (hwf' : C.WF) (he : ic.Extends C)
    (hR : ∀ r ∈ R.roots, r < ic.size) (hv : C.get ic.size = .var (ic.get I).width name)
    (hσc : ∀ e, σc e = none) (hcopy : RuleCopy [(I, ic.size)].lookup σc C R R') :
    ∃ c, Set.InjOn c {j | j ∈ (ic.shape (· == I) R).labels} ∧
      C.shape (fun _ => false) R' = (ic.shape (· == I) R).relabel c := by
  classical
  let c : Nat → Nat := fun n =>
    if h : ∃ m, CopyOf [(I, ic.size)].lookup σc C n m then h.choose else n
  have hc : ∀ n m, CopyOf [(I, ic.size)].lookup σc C n m → c n = m := fun n m h => by
    have hex : ∃ m, CopyOf [(I, ic.size)].lookup σc C n m := ⟨m, h⟩
    simp only [c, dif_pos hex]
    exact hex.choose_spec.functional hwf' h
  have hroots := hcopy.forall₂_roots
  have hcr : ∀ r ∈ R.roots, CopyOf [(I, ic.size)].lookup σc C r (c r) := fun r hr => by
    obtain ⟨m, hm⟩ := exists_of_forall₂_of_mem_left hroots hr
    rwa [hc r m hm]
  have hrec := recordsAux_copy hwf' he hv hσc hc
  refine ⟨c, fun a ha b hb hab => ?_, ?_⟩
  · -- the nodes the cut shape names are old nodes with copies, and copies are one to one
    have hcop : ∀ j ∈ (ic.shape (· == I) R).labels,
        j < ic.size ∧ CopyOf [(I, ic.size)].lookup σc C j (c j) := fun j hj => by
      refine ⟨ic.lt_size_of_mem_nodes hwf hR (mem_nodes_of_mem_labels hwf.toAcyclic hj), ?_⟩
      rcases List.mem_append.mp hj with hj | hj
      · exact hcr j hj
      obtain ⟨r, hr, hjr⟩ := List.mem_flatMap.mp hj
      obtain ⟨root, hroot, hrr⟩ := List.mem_flatMap.mp hr
      obtain ⟨m, hm⟩ := (hrec _ root _ (hR root hroot) (hcr root hroot)).2 r hrr j hjr
      rwa [hc j m hm]
    obtain ⟨ha', hca⟩ := hcop a ha
    obtain ⟨hb', hcb⟩ := hcop b hb
    refine hca.injective hwf' (fun e m h => ?_) (fun e₁ e₂ m h₁ h₂ => ?_) hσc ha' hb'
      (show CopyOf _ σc C b (c a) from hab ▸ hcb)
    · rw [lookup_cons_ite] at h
      split_ifs at h
      · cases h
        exact ⟨le_rfl, fun hop => hop.1 (by rw [hv]; rfl)⟩
      · cases h
    · rw [lookup_cons_ite] at h₁ h₂
      split_ifs at h₁ h₂ with h₁' h₂'
      · exact h₁'.trans h₂'.symm
      all_goals cases h₁ <;> cases h₂
  · have hmap : R'.roots = R.roots.map c := by
      simpa using forall₂_map_eq (g := id) (fun a b h => (hc a b h).symm) hroots
    simp only [InstContext.shape, Shape.relabel, hcopy.layout_eq, hmap, List.flatMap_map,
      List.map_flatMap, true_and]
    refine congrArg _ (List.flatMap_congr fun r hr => ?_)
    rw [records_eq_recordsAux hwf'.toAcyclic (show c r < c r + r + 1 by omega),
      records_eq_recordsAux hwf.toAcyclic (show r < c r + r + 1 by omega)]
    exact (hrec _ r (c r) (hR r hr) (hcr r hr)).1

end Souper
