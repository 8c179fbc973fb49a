import Mathlib.Data.List.Forall2
import Souper.Inst.Graph

/-!
# Substitution into an instruction graph (`getInstCopy`)

Every procedure of the generalizer builds its variants of a rule by copying the rule's graph
with some nodes substituted: the reducer replaces one operation by a fresh variable, the
symbolizer replaces constants by variables and variables by synthesized constants.

## Main definitions

- `getInstCopy` — the memoized copy with substitution
- `CopyOf` — `m` is the copy of `n`: the relation every memo entry and every result satisfies

## Main results

- `getInstCopyAux_spec` — a copy keeps the context's invariant, only allocates, and returns a
  `CopyOf` the node it was given
-/

namespace Souper

/-- The state `getInstCopy` threads: the context it interns into, and the memo `InstCache`
(newest entry first, so that `List.lookup` finds what `std::map` would). -/
abbrev CopyState := InstContext × List (Nat × Nat)

/-- Modelled from the spec: `getInstCopy` is not under src/. It is the spec's
`cloneWithSubstitution` (§4.1). The memo `InstCache` is consulted first, so its initial entries
are the substitution; a variable found in `ConstMap` becomes the interned constant of that value;
any other leaf stays itself; an operation is rebuilt (interned) from the copies of its operands
when one of them changed, and stays itself otherwise. The callers substitute values of a node's
own width, so a rebuilt node keeps its width. -/
def getInstCopyAux (constMap : List (Nat × APInt)) : Nat → CopyState → Nat → CopyState × Nat
  | 0, s, i => (s, i)
  | fuel + 1, (ic, cache), i =>
    match cache.lookup i with
    | some c => ((ic, cache), c)
    | none =>
      if (ic.get i).k = .var then
        match constMap.lookup i with
        | some v => (((ic.getConst v).1, (i, (ic.getConst v).2) :: cache), (ic.getConst v).2)
        | none => ((ic, (i, i) :: cache), i)
      else if (ic.get i).k = .const then ((ic, cache), i)
      else
        let r := mapThread (getInstCopyAux constMap fuel) (ic, cache) (ic.get i).ops
        if r.2 = (ic.get i).ops then ((r.1.1, (i, i) :: r.1.2), i)
        else
          let g := r.1.1.getInst (ic.get i).k (ic.get i).width r.2
          ((g.1, (i, g.2) :: r.1.2), g.2)

/-- `getInstCopy(I, IC, InstCache, BlockCache, ConstMap, /*CloneVars=*/false)`. In an acyclic
context `I + 1` levels of recursion reach every operand. -/
def getInstCopy (constMap : List (Nat × APInt)) (s : CopyState) (i : Nat) : CopyState × Nat :=
  getInstCopyAux constMap (i + 1) s i

/-- `m` is what substituting `σ` (node to node, the memo's initial entries) and `σc` (variable
to constant value, `ConstMap`) into the node `n` yields, up to the interning of rebuilt nodes. -/
inductive CopyOf (σ : Nat → Option Nat) (σc : Nat → Option APInt) (ic : InstContext) :
    Nat → Nat → Prop
  | subst {n m : Nat} : n < ic.size → m < ic.size → σ n = some m → CopyOf σ σc ic n m
  | const {n m : Nat} {v : APInt} : n < ic.size → m < ic.size → σ n = none →
      (ic.get n).k = .var → σc n = some v → (ic.get m).k = .const → (ic.get m).val = v →
      CopyOf σ σc ic n m
  | leaf {n : Nat} : n < ic.size → σ n = none → ¬ ic.IsOp n →
      ((ic.get n).k = .var → σc n = none) → CopyOf σ σc ic n n
  | op {n m : Nat} : n < ic.size → m < ic.size → σ n = none → ic.IsOp n →
      (ic.get m).k = (ic.get n).k → (ic.get m).width = (ic.get n).width →
      (ic.get m).ops.length = (ic.get n).ops.length →
      (∀ p ∈ (ic.get n).ops.zip (ic.get m).ops, CopyOf σ σc ic p.1 p.2) → CopyOf σ σc ic n m

namespace CopyOf

variable {σ : Nat → Option Nat} {σc : Nat → Option APInt} {ic ic' : InstContext} {n m : Nat}

theorem lt_size (h : CopyOf σ σc ic n m) : n < ic.size ∧ m < ic.size := by
  cases h <;> simp_all

/-- Allocation keeps every copy relation. -/
theorem mono (he : ic.Extends ic') (h : CopyOf σ σc ic n m) : CopyOf σ σc ic' n m := by
  induction h with
  | subst hn hm hs => exact .subst (by have := he.size_le; omega) (by have := he.size_le; omega) hs
  | const hn hm hs hk hv hck hcv =>
    exact .const (by have := he.size_le; omega) (by have := he.size_le; omega) hs
      (by rw [he.get_eq hn]; exact hk) hv (by rw [he.get_eq hm]; exact hck)
      (by rw [he.get_eq hm]; exact hcv)
  | leaf hn hs hl hv =>
    exact .leaf (by have := he.size_le; omega) hs (by rwa [he.isOp_iff hn])
      (by rw [he.get_eq hn]; exact hv)
  | op hn hm hs hop hk hw hl _ ih =>
    refine .op (by have := he.size_le; omega) (by have := he.size_le; omega) hs
      (by rwa [he.isOp_iff hn]) ?_ ?_ ?_ ?_ <;> rw [he.get_eq hn, he.get_eq hm]
    exacts [hk, hw, hl, ih]

end CopyOf

theorem lookup_cons_ite {β : Type} (k a : Nat) (b : β) (es : List (Nat × β)) :
    ((a, b) :: es).lookup k = if k = a then some b else es.lookup k := by
  rw [List.lookup_cons]
  split <;> simp_all

theorem lookup_eq_none_of_suffix {β : Type} {l l' : List (Nat × β)} (h : l <:+ l') {k : Nat}
    (hk : l'.lookup k = none) : l.lookup k = none := by
  obtain ⟨t, rfl⟩ := h
  induction t with
  | nil => exact hk
  | cons p t ih =>
    rw [List.cons_append, lookup_cons_ite] at hk
    split at hk
    · cases hk
    · exact ih hk

theorem mem_of_lookup_eq_some {β : Type} {l : List (Nat × β)} {k : Nat} {v : β}
    (h : l.lookup k = some v) : (k, v) ∈ l := by
  induction l with
  | nil => cases h
  | cons p l ih =>
    rw [lookup_cons_ite] at h
    split at h
    · cases h; subst k; exact List.mem_cons_self _ _
    · exact List.mem_cons_of_mem _ (ih h)

/-- The invariant of a copy with respect to the memo's initial entries `init`: the context keeps
its invariant, every memo entry is a copy, and the initial entries are still there. -/
structure CopyInv (init : List (Nat × Nat)) (constMap : List (Nat × APInt)) (s : CopyState) :
    Prop where
  wf : s.1.WF
  cache : ∀ p ∈ s.2, CopyOf init.lookup constMap.lookup s.1 p.1 p.2
  suffix : init <:+ s.2

/-- A copy only allocates and only adds memo entries. -/
def CopyExt (s s' : CopyState) : Prop := s.1.Extends s'.1 ∧ s.2 <:+ s'.2

theorem CopyExt.refl (s : CopyState) : CopyExt s s := ⟨.refl _, List.suffix_refl _⟩

theorem CopyExt.trans {a b c : CopyState} (h₁ : CopyExt a b) (h₂ : CopyExt b c) : CopyExt a c :=
  ⟨h₁.1.trans h₂.1, h₁.2.trans h₂.2⟩

theorem exists_mem_zip_of_mem_right {l₁ l₂ : List Nat} (hl : l₁.length = l₂.length) {b : Nat}
    (hb : b ∈ l₂) : ∃ a, (a, b) ∈ l₁.zip l₂ := by
  obtain ⟨k, hk, rfl⟩ := List.mem_iff_getElem.mp hb
  exact ⟨l₁[k], List.mem_iff_getElem.mpr ⟨k, by simp [hl, hk], by simp⟩⟩

/-- Writing a copy into the memo keeps the invariant. -/
theorem CopyInv.cons {init : List (Nat × Nat)} {constMap : List (Nat × APInt)}
    {ic ic' : InstContext} {cache : List (Nat × Nat)} (h : CopyInv init constMap (ic, cache))
    (he : ic.Extends ic') (hwf : ic'.WF) {i m : Nat}
    (hc : CopyOf init.lookup constMap.lookup ic' i m) :
    CopyInv init constMap (ic', (i, m) :: cache) ∧ CopyExt (ic, cache) (ic', (i, m) :: cache) := by
  refine ⟨⟨hwf, ?_, h.suffix.trans (List.suffix_cons _ _)⟩, he, List.suffix_cons _ _⟩
  rintro p (_ | ⟨_, hp⟩)
  · exact hc
  · exact (h.cache p hp).mono he

/-- What one copy does: it keeps the invariant, only allocates and adds memo entries, and
returns a copy of the node it was given. -/
theorem getInstCopyAux_spec (init : List (Nat × Nat)) (constMap : List (Nat × APInt)) :
    ∀ fuel (s : CopyState) i, i < fuel → i < s.1.size → CopyInv init constMap s →
      CopyInv init constMap (getInstCopyAux constMap fuel s i).1 ∧
      CopyExt s (getInstCopyAux constMap fuel s i).1 ∧
      CopyOf init.lookup constMap.lookup (getInstCopyAux constMap fuel s i).1.1 i
        (getInstCopyAux constMap fuel s i).2 := by
  intro fuel
  induction fuel with
  | zero => intro s i h; omega
  | succ fuel ih =>
    rintro ⟨ic, cache⟩ i hi hsz hinv
    simp only at hsz
    simp only [getInstCopyAux]
    split
    · -- a memo hit
      rename_i c hc
      exact ⟨hinv, .refl _, hinv.cache _ (mem_of_lookup_eq_some hc)⟩
    rename_i hc
    have hn : init.lookup i = none := lookup_eq_none_of_suffix hinv.suffix hc
    split
    · rename_i hv
      split
      · -- a variable of `ConstMap` becomes the interned constant
        rename_i v hcv
        have he := ic.getConst_extends v
        obtain ⟨hlt, hck, hcv'⟩ := ic.get_getConst v
        have hcopy : CopyOf init.lookup constMap.lookup (ic.getConst v).1 i (ic.getConst v).2 :=
          .const (by have := he.size_le; omega) hlt hn (by rw [he.get_eq hsz]; exact hv) hcv hck
            hcv'
        exact (hinv.cons he (hinv.wf.getConst v) hcopy).elim fun h₁ h₂ => ⟨h₁, h₂, hcopy⟩
      · -- any other variable stays itself
        rename_i hcv
        have hcopy : CopyOf init.lookup constMap.lookup ic i i :=
          .leaf hsz hn (fun h => h.1 hv) (fun _ => hcv)
        exact (hinv.cons (.refl _) hinv.wf hcopy).elim fun h₁ h₂ => ⟨h₁, h₂, hcopy⟩
    rename_i hv
    split
    · -- a constant stays itself
      rename_i hk
      exact ⟨hinv, .refl _, .leaf hsz hn (fun h => h.2 hk) (fun h => absurd h hv)⟩
    · -- an operation: copy the operands, then rebuild if one of them changed
      rename_i hk
      have hop : ic.IsOp i := ⟨hv, hk⟩
      obtain ⟨⟨hinv', hext'⟩, hext, hzip⟩ :=
        mapThread_spec (getInstCopyAux constMap fuel)
          (fun s => CopyInv init constMap s ∧ ic.Extends s.1) CopyExt
          (fun s a b => CopyOf init.lookup constMap.lookup s.1 a b)
          CopyExt.refl (fun _ _ _ => CopyExt.trans) (fun _ _ _ _ he _ h => h.mono he.1)
          (ic.get i).ops
          (fun s a ha ⟨hs, hse⟩ => by
            have hai := hinv.wf.lt_of_mem_ops ha
            obtain ⟨h₁, h₂, h₃⟩ := ih s a (by omega) (by have := hse.size_le; omega) hs
            exact ⟨⟨h₁, hse.trans h₂.1⟩, h₂, h₃⟩)
          (ic, cache) ⟨hinv, .refl _⟩
      set r := mapThread (getInstCopyAux constMap fuel) (ic, cache) (ic.get i).ops
      have hget : r.1.1.get i = ic.get i := hext'.get_eq hsz
      have hsz' : i < r.1.1.size := by have := hext'.size_le; omega
      split
      · -- no operand changed
        rename_i hr
        have hcopy : CopyOf init.lookup constMap.lookup r.1.1 i i := by
          refine .op hsz' hsz' hn (by rwa [hext'.isOp_iff hsz]) rfl rfl rfl ?_
          rw [hget]; rw [hr] at hzip; exact hzip
        exact (hinv'.cons (.refl _) hinv'.wf hcopy).elim
          fun h₁ h₂ => ⟨h₁, hext.trans h₂, hcopy⟩
      · -- an operand changed: intern the rebuilt node
        have hops : ∀ b ∈ r.2, b < r.1.1.size := fun b hb => by
          obtain ⟨a, ha⟩ := exists_mem_zip_of_mem_right
            (show (ic.get i).ops.length = r.2.length by simp [r]) hb
          exact (hzip _ ha).lt_size.2
        have he := r.1.1.getInst_extends (ic.get i).k (ic.get i).width r.2
        obtain ⟨hlt, hgk, hgw, hgo⟩ := r.1.1.get_getInst (ic.get i).k (ic.get i).width r.2
        have hcopy : CopyOf init.lookup constMap.lookup
            (r.1.1.getInst (ic.get i).k (ic.get i).width r.2).1 i
            (r.1.1.getInst (ic.get i).k (ic.get i).width r.2).2 := by
          refine .op (by have := he.size_le; omega) hlt hn
            (((hext'.trans he).isOp_iff hsz).mpr hop) ?_ ?_ ?_ ?_ <;>
            rw [he.get_eq hsz', hget]
          · exact hgk
          · exact hgw
          · rw [hgo]; simp [r]
          · rw [hgo]; exact fun p hp => (hzip p hp).mono he
        exact (hinv'.cons he (hinv'.wf.getInst hv hk _ hops) hcopy).elim
          fun h₁ h₂ => ⟨h₁, hext.trans h₂, hcopy⟩

theorem mem_zip_getElem {l₁ l₂ : List Nat} {k : Nat} (h₁ : k < l₁.length) (h₂ : k < l₂.length) :
    (l₁[k], l₂[k]) ∈ l₁.zip l₂ :=
  List.mem_iff_getElem.mpr ⟨k, by simp [h₁, h₂], by simp⟩

-- ════════════════════════════════════════════════════════════════════════
-- Copying a whole rule
-- ════════════════════════════════════════════════════════════════════════

/-- Copy both sides of a mapping, left side first. -/
def copyMapping (constMap : List (Nat × APInt)) (s : CopyState) (m : InstMapping) :
    CopyState × InstMapping :=
  ((getInstCopy constMap (getInstCopy constMap s m.lhs).1 m.rhs).1,
    ⟨(getInstCopy constMap s m.lhs).2, (getInstCopy constMap (getInstCopy constMap s m.lhs).1 m.rhs).2⟩)

/-- Copy a rule with one shared memo, in `ReduceRec`'s order: the mapping, then every path
condition, then every block path condition. -/
def copyRule (constMap : List (Nat × APInt)) (s : CopyState) (R : ParsedReplacement) :
    CopyState × ParsedReplacement :=
  let m := copyMapping constMap s R.mapping
  let pcs := mapThread (copyMapping constMap) m.1 R.pcs
  let bpcs := mapThread (fun s (b : BlockPCMapping) =>
    ((copyMapping constMap s b.pc).1, { b with pc := (copyMapping constMap s b.pc).2 })) pcs.1 R.bpcs
  (bpcs.1, ⟨m.2, pcs.2, bpcs.2⟩)

/-- Both sides of `m'` are copies of the sides of `m`. -/
def MappingCopy (σ : Nat → Option Nat) (σc : Nat → Option APInt) (ic : InstContext)
    (m m' : InstMapping) : Prop :=
  CopyOf σ σc ic m.lhs m'.lhs ∧ CopyOf σ σc ic m.rhs m'.rhs

/-- `R'` is `R` with every root copied. -/
def RuleCopy (σ : Nat → Option Nat) (σc : Nat → Option APInt) (ic : InstContext)
    (R R' : ParsedReplacement) : Prop :=
  MappingCopy σ σc ic R.mapping R'.mapping ∧ List.Forall₂ (MappingCopy σ σc ic) R.pcs R'.pcs ∧
    List.Forall₂ (fun b b' => b'.predIdx = b.predIdx ∧ MappingCopy σ σc ic b.pc b'.pc) R.bpcs R'.bpcs

theorem getInstCopy_spec {init : List (Nat × Nat)} {constMap : List (Nat × APInt)} {s : CopyState}
    {i : Nat} (hi : i < s.1.size) (hs : CopyInv init constMap s) :
    CopyInv init constMap (getInstCopy constMap s i).1 ∧ CopyExt s (getInstCopy constMap s i).1 ∧
      CopyOf init.lookup constMap.lookup (getInstCopy constMap s i).1.1 i (getInstCopy constMap s i).2 :=
  getInstCopyAux_spec init constMap _ s i (Nat.lt_succ_self i) hi hs

/-- Whatever its memo's entries mean, a copy keeps the context well formed, only allocates, and
keeps the memo pointing into the context, when it starts so. -/
theorem getInstCopyAux_wf (constMap : List (Nat × APInt)) :
    ∀ fuel (s : CopyState) i, i < s.1.size → s.1.WF → (∀ p ∈ s.2, p.2 < s.1.size) →
      (getInstCopyAux constMap fuel s i).1.1.WF ∧
      s.1.Extends (getInstCopyAux constMap fuel s i).1.1 ∧
      (∀ p ∈ (getInstCopyAux constMap fuel s i).1.2,
        p.2 < (getInstCopyAux constMap fuel s i).1.1.size) ∧
      (getInstCopyAux constMap fuel s i).2 < (getInstCopyAux constMap fuel s i).1.1.size := by
  intro fuel
  induction fuel with
  | zero => intro s i hi hwf hm; exact ⟨hwf, .refl _, hm, hi⟩
  | succ fuel ih =>
    rintro ⟨ic, cache⟩ i hi hwf hm
    simp only at hi hwf hm
    simp only [getInstCopyAux]
    split
    · -- a memo hit
      exact ⟨hwf, .refl _, hm, hm _ (mem_of_lookup_eq_some ‹_›)⟩
    split
    · split
      · -- a variable of `ConstMap` becomes the interned constant
        rename_i v _
        have he := ic.getConst_extends v
        refine ⟨hwf.getConst v, he, ?_, (ic.get_getConst v).1⟩
        simp only [List.mem_cons, forall_eq_or_imp]
        exact ⟨(ic.get_getConst v).1, fun p hp => lt_of_lt_of_le (hm p hp) he.size_le⟩
      · exact ⟨hwf, .refl _, by simpa only [List.mem_cons, forall_eq_or_imp] using ⟨hi, hm⟩, hi⟩
    rename_i hv
    split
    · exact ⟨hwf, .refl _, hm, hi⟩
    rename_i hk
    -- an operation: copy the operands, then rebuild if one of them changed
    obtain ⟨⟨hwf', hm', hext'⟩, -, hops⟩ := mapThread_spec (getInstCopyAux constMap fuel)
      (fun s => s.1.WF ∧ (∀ p ∈ s.2, p.2 < s.1.size) ∧ ic.Extends s.1)
      (fun s s' => s.1.Extends s'.1) (fun s _ b => b < s.1.size)
      (fun _ => .refl _) (fun _ _ _ => InstContext.Extends.trans)
      (fun _ _ _ _ he _ h => lt_of_lt_of_le h he.size_le) (ic.get i).ops
      (fun s a ha ⟨hs, hsm, hse⟩ => by
        obtain ⟨h₁, h₂, h₃, h₄⟩ :=
          ih s a (lt_of_lt_of_le ((hwf.lt_of_mem_ops ha).trans hi) hse.size_le) hs hsm
        exact ⟨⟨h₁, h₃, hse.trans h₂⟩, h₂, h₄⟩)
      (ic, cache) ⟨hwf, hm, .refl _⟩
    set r := mapThread (getInstCopyAux constMap fuel) (ic, cache) (ic.get i).ops
    have hsz' : i < r.1.1.size := lt_of_lt_of_le hi hext'.size_le
    split
    · exact ⟨hwf', hext', by simpa only [List.mem_cons, forall_eq_or_imp] using ⟨hsz', hm'⟩, hsz'⟩
    · have hops' : ∀ b ∈ r.2, b < r.1.1.size := fun b hb => by
        obtain ⟨a, ha⟩ := exists_mem_zip_of_mem_right
          (show (ic.get i).ops.length = r.2.length by simp [r]) hb
        exact hops _ ha
      have he := r.1.1.getInst_extends (ic.get i).k (ic.get i).width r.2
      refine ⟨hwf'.getInst hv hk _ hops', hext'.trans he, ?_, (r.1.1.get_getInst _ _ _).1⟩
      simp only [List.mem_cons, forall_eq_or_imp]
      exact ⟨(r.1.1.get_getInst _ _ _).1, fun p hp => lt_of_lt_of_le (hm' p hp) he.size_le⟩

theorem getInstCopy_wf {constMap : List (Nat × APInt)} {s : CopyState} {i : Nat}
    (hi : i < s.1.size) (hwf : s.1.WF) (hm : ∀ p ∈ s.2, p.2 < s.1.size) :
    (getInstCopy constMap s i).1.1.WF ∧ s.1.Extends (getInstCopy constMap s i).1.1 ∧
      (∀ p ∈ (getInstCopy constMap s i).1.2, p.2 < (getInstCopy constMap s i).1.1.size) ∧
      (getInstCopy constMap s i).2 < (getInstCopy constMap s i).1.1.size :=
  getInstCopyAux_wf constMap _ s i hi hwf hm

theorem copyMapping_spec {init : List (Nat × Nat)} {constMap : List (Nat × APInt)} {s : CopyState}
    {m : InstMapping} (hl : m.lhs < s.1.size) (hr : m.rhs < s.1.size) (hs : CopyInv init constMap s) :
    CopyInv init constMap (copyMapping constMap s m).1 ∧ CopyExt s (copyMapping constMap s m).1 ∧
      MappingCopy init.lookup constMap.lookup (copyMapping constMap s m).1.1 m
        (copyMapping constMap s m).2 := by
  obtain ⟨h₁, h₂, h₃⟩ := getInstCopy_spec hl hs
  obtain ⟨h₄, h₅, h₆⟩ :=
    getInstCopy_spec (show m.rhs < _ by have := h₂.1.size_le; omega) h₁
  exact ⟨h₄, h₂.trans h₅, h₃.mono h₅.1, h₆⟩

theorem MappingCopy.mono {σ : Nat → Option Nat} {σc : Nat → Option APInt} {ic ic' : InstContext}
    (he : ic.Extends ic') {m m' : InstMapping} (h : MappingCopy σ σc ic m m') :
    MappingCopy σ σc ic' m m' := ⟨h.1.mono he, h.2.mono he⟩

/-- Copying a rule whose roots exist keeps the invariant, only allocates, and copies every root. -/
theorem copyRule_spec {init : List (Nat × Nat)} {constMap : List (Nat × APInt)} {s : CopyState}
    {R : ParsedReplacement} (hR : ∀ r ∈ R.roots, r < s.1.size) (hs : CopyInv init constMap s) :
    CopyInv init constMap (copyRule constMap s R).1 ∧ CopyExt s (copyRule constMap s R).1 ∧
      RuleCopy init.lookup constMap.lookup (copyRule constMap s R).1.1 R (copyRule constMap s R).2 := by
  obtain ⟨hm₁, hm₂, hm₃⟩ := copyMapping_spec (hR _ R.lhs_mem_roots) (hR _ R.rhs_mem_roots) hs
  set s₁ := (copyMapping constMap s R.mapping).1
  obtain ⟨⟨hp₁, hpe⟩, hp₂, hp₃⟩ := mapThread_spec (copyMapping constMap)
    (fun t => CopyInv init constMap t ∧ s.1.Extends t.1) CopyExt
    (fun t m m' => MappingCopy init.lookup constMap.lookup t.1 m m')
    CopyExt.refl (fun _ _ _ => CopyExt.trans) (fun _ _ _ _ he _ h => h.mono he.1) R.pcs
    (fun t m hm ⟨ht, hte⟩ => by
      have := hte.size_le
      obtain ⟨h₁, h₂, h₃⟩ := copyMapping_spec
        (show m.lhs < _ by have := hR _ (ParsedReplacement.mem_roots_of_pc hm).1; omega)
        (show m.rhs < _ by have := hR _ (ParsedReplacement.mem_roots_of_pc hm).2; omega) ht
      exact ⟨⟨h₁, hte.trans h₂.1⟩, h₂, h₃⟩) s₁ ⟨hm₁, hm₂.1⟩
  set s₂ := (mapThread (copyMapping constMap) s₁ R.pcs).1
  obtain ⟨⟨hb₁, -⟩, hb₂, hb₃⟩ := mapThread_spec (fun t (b : BlockPCMapping) =>
      ((copyMapping constMap t b.pc).1, { b with pc := (copyMapping constMap t b.pc).2 }))
    (fun t => CopyInv init constMap t ∧ s.1.Extends t.1) CopyExt
    (fun t (b b' : BlockPCMapping) =>
      b'.predIdx = b.predIdx ∧ MappingCopy init.lookup constMap.lookup t.1 b.pc b'.pc)
    CopyExt.refl (fun _ _ _ => CopyExt.trans)
    (fun _ _ _ _ he _ h => ⟨h.1, MappingCopy.mono he.1 h.2⟩) R.bpcs
    (fun t b hb ⟨ht, hte⟩ => by
      have := hte.size_le
      obtain ⟨h₁, h₂, h₃⟩ := copyMapping_spec
        (show b.pc.lhs < _ by have := hR _ (ParsedReplacement.mem_roots_of_bpc hb).1; omega)
        (show b.pc.rhs < _ by have := hR _ (ParsedReplacement.mem_roots_of_bpc hb).2; omega) ht
      exact ⟨⟨h₁, hte.trans h₂.1⟩, h₂, rfl, h₃⟩) s₂ ⟨hp₁, hpe⟩
  refine ⟨hb₁, hm₂.trans (hp₂.trans hb₂), hm₃.mono (hp₂.1.trans hb₂.1), ?_, ?_⟩
  · exact List.forall₂_iff_zip.mpr ⟨by simp [copyRule], fun h => (hp₃ _ h).mono hb₂.1⟩
  · exact List.forall₂_iff_zip.mpr ⟨by simp [copyRule], fun h => hb₃ _ h⟩

theorem exists_of_forall₂_of_mem_right {α β : Type} {P : α → β → Prop} {l₁ : List α}
    {l₂ : List β} (h : List.Forall₂ P l₁ l₂) {b : β} (hb : b ∈ l₂) : ∃ a ∈ l₁, P a b := by
  induction h with
  | nil => cases hb
  | cons hab _ ih =>
    rcases List.mem_cons.mp hb with rfl | hb
    · exact ⟨_, List.mem_cons_self _ _, hab⟩
    · obtain ⟨a, ha, h⟩ := ih hb
      exact ⟨a, List.mem_cons_of_mem _ ha, h⟩

/-- Every root of a copied rule is the copy of a root of the original. -/
theorem RuleCopy.roots {σ : Nat → Option Nat} {σc : Nat → Option APInt} {ic : InstContext}
    {R R' : ParsedReplacement} (h : RuleCopy σ σc ic R R') :
    ∀ r' ∈ R'.roots, ∃ r ∈ R.roots, CopyOf σ σc ic r r' := by
  intro r' hr'
  rcases ParsedReplacement.mem_roots.mp hr' with
    rfl | rfl | ⟨m', hm', rfl | rfl⟩ | ⟨b', hb', rfl | rfl⟩
  · exact ⟨_, R.lhs_mem_roots, h.1.1⟩
  · exact ⟨_, R.rhs_mem_roots, h.1.2⟩
  · obtain ⟨m, hm, hc⟩ := exists_of_forall₂_of_mem_right h.2.1 hm'
    exact ⟨_, (ParsedReplacement.mem_roots_of_pc hm).1, hc.1⟩
  · obtain ⟨m, hm, hc⟩ := exists_of_forall₂_of_mem_right h.2.1 hm'
    exact ⟨_, (ParsedReplacement.mem_roots_of_pc hm).2, hc.2⟩
  · obtain ⟨b, hb, -, hc⟩ := exists_of_forall₂_of_mem_right h.2.2 hb'
    exact ⟨_, (ParsedReplacement.mem_roots_of_bpc hb).1, hc.1⟩
  · obtain ⟨b, hb, -, hc⟩ := exists_of_forall₂_of_mem_right h.2.2 hb'
    exact ⟨_, (ParsedReplacement.mem_roots_of_bpc hb).2, hc.2⟩

-- ════════════════════════════════════════════════════════════════════════
-- What a copy reaches
-- ════════════════════════════════════════════════════════════════════════

namespace CopyOf

variable {σ : Nat → Option Nat} {σc : Nat → Option APInt} {ic : InstContext} {n m : Nat}

/-- A copy that is an operation comes from an operation the substitution does not touch. -/
theorem isOp_of_isOp (hσ : ∀ e m', σ e = some m' → ¬ ic.IsOp m') (h : CopyOf σ σc ic n m)
    (hm : ic.IsOp m) : ic.IsOp n ∧ σ n = none := by
  cases h with
  | subst _ _ hs => exact absurd hm (hσ _ _ hs)
  | const _ _ _ _ _ hck => exact absurd hck hm.2
  | leaf _ _ hl => exact absurd hm hl
  | op _ _ hs hop => exact ⟨hop, hs⟩

/-- Every node a copy reaches is the copy of a node the original reaches, when the substitution
only puts leaves in. -/
theorem reach (hwf : ic.WF) (hσ : ∀ e m', σ e = some m' → ¬ ic.IsOp m')
    (h : CopyOf σ σc ic n m) : ∀ x ∈ ic.reach m, ∃ y ∈ ic.reach n, CopyOf σ σc ic y x := by
  induction h with
  | @subst n m hn hm hs =>
    intro x hx
    rw [ic.reach_leaf hwf (hσ _ _ hs), Finset.mem_singleton] at hx
    subst hx
    exact ⟨n, ic.mem_reach_self n, .subst hn hm hs⟩
  | @const n m v hn hm hs hk hv hck hcv =>
    intro x hx
    rw [ic.reach_leaf hwf (fun h => h.2 hck), Finset.mem_singleton] at hx
    subst hx
    exact ⟨n, ic.mem_reach_self n, .const hn hm hs hk hv hck hcv⟩
  | @leaf n hn hs hl hv =>
    intro x hx
    rw [ic.reach_leaf hwf hl, Finset.mem_singleton] at hx
    subst hx
    exact ⟨x, ic.mem_reach_self x, .leaf hn hs hl hv⟩
  | @op n m hn hm hs hop hk hw hl hps ih =>
    intro x hx
    rcases (ic.mem_reach_iff hwf.toAcyclic).mp hx with rfl | ⟨o, ho, hxo⟩
    · exact ⟨n, ic.mem_reach_self n, .op hn hm hs hop hk hw hl hps⟩
    · obtain ⟨k, hk', rfl⟩ := List.mem_iff_getElem.mp ho
      have hkn : k < (ic.get n).ops.length := hl ▸ hk'
      obtain ⟨y, hy, hcy⟩ := ih _ (mem_zip_getElem hkn hk') x hxo
      exact ⟨y, ic.reach_subset_of_mem_ops hwf.toAcyclic (List.getElem_mem hkn) hy, hcy⟩

/-- Under interning a node has one copy. -/
theorem functional (hwf : ic.WF) (h₁ : CopyOf σ σc ic n m) :
    ∀ {m₂}, CopyOf σ σc ic n m₂ → m = m₂ := by
  induction h₁ with
  | subst _ _ hs =>
    intro m₂ h₂
    cases h₂ with
    | subst _ _ hs' => rw [hs] at hs'; exact Option.some.inj hs'
    | const _ _ hs' => rw [hs] at hs'; cases hs'
    | leaf _ hs' => rw [hs] at hs'; cases hs'
    | op _ _ hs' => rw [hs] at hs'; cases hs'
  | @const n m v _ hm hs hk hv hck hcv =>
    intro m₂ h₂
    cases h₂ with
    | subst _ _ hs' => rw [hs] at hs'; cases hs'
    | const _ hm' _ _ hv' hck' hcv' =>
      rw [hv] at hv'
      cases hv'
      exact hwf.interned_const m hm _ hm' hck hck' (hcv.trans hcv'.symm)
    | leaf _ _ _ hvn => rw [hvn hk] at hv; cases hv
    | op _ _ _ hop => exact absurd hk hop.1
  | leaf _ hs hl hv =>
    intro m₂ h₂
    cases h₂ with
    | subst _ _ hs' => rw [hs] at hs'; cases hs'
    | const _ _ _ hk hv' => rw [hv hk] at hv'; cases hv'
    | leaf => rfl
    | op _ _ _ hop => exact absurd hop hl
  | @op n m _ hm hs hop hk hw hl _ ih =>
    intro m₂ h₂
    cases h₂ with
    | subst _ _ hs' => rw [hs] at hs'; cases hs'
    | const _ _ _ hk' => exact absurd hk' hop.1
    | leaf _ _ hl' => exact absurd hop hl'
    | op _ hm₂ _ _ hk₂ hw₂ hl₂ hps₂ =>
      have hops : (ic.get m).ops = (ic.get m₂).ops :=
        List.ext_getElem (hl.trans hl₂.symm) fun k h₁ h₂ =>
          ih _ (mem_zip_getElem (hl ▸ h₁) h₁) (hps₂ _ (mem_zip_getElem (hl ▸ h₁) h₂))
      exact hwf.interned_op m hm m₂ hm₂ (hk ▸ hop.1) (hk ▸ hop.2) (hk.trans hk₂.symm)
        (hw.trans hw₂.symm) hops

/-- Copies of the nodes of `s` number at most `s.card`. -/
theorem card_le (hwf : ic.WF) {s t : Finset Nat}
    (ht : ∀ x ∈ t, ∃ y ∈ s, CopyOf σ σc ic y x) : t.card ≤ s.card := by
  classical
  refine Finset.card_le_card_of_surjOn
    (fun y => if h : ∃ m, CopyOf σ σc ic y m then h.choose else 0) fun x hx => ?_
  obtain ⟨y, hy, hc⟩ := ht x hx
  have h : ∃ m, CopyOf σ σc ic y m := ⟨x, hc⟩
  exact ⟨y, hy, by simp only [dif_pos h]; exact functional hwf h.choose_spec hc⟩

end CopyOf

/-- Every node a copied rule reaches is the copy of a node the original reaches, when the
substitution only puts in leaves. -/
theorem RuleCopy.nodes {σ : Nat → Option Nat} {σc : Nat → Option APInt} {ic : InstContext}
    {R R' : ParsedReplacement} (hwf : ic.WF) (hσ : ∀ e m', σ e = some m' → ¬ ic.IsOp m')
    (h : RuleCopy σ σc ic R R') : ∀ x ∈ ic.nodes R', ∃ y ∈ ic.nodes R, CopyOf σ σc ic y x := by
  intro x hx
  obtain ⟨r', hr', hxr'⟩ : ∃ r' ∈ R'.roots, x ∈ ic.reach r' := by simpa [InstContext.nodes] using hx
  obtain ⟨r, hr, hc⟩ := h.roots r' hr'
  obtain ⟨y, hy, hyx⟩ := hc.reach hwf hσ x hxr'
  exact ⟨y, by simpa [InstContext.nodes] using ⟨r, hr, hy⟩, hyx⟩

end Souper
