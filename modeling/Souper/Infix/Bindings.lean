import Mathlib.Tactic.LiftLets
import Souper.Infix.Printer

/-!
# Bindings before use in the infix printer

`printInst` names a shared node `varN` on entry and writes its binding `let varN = …;` where the
node's operation text completes. The branches that return early (the `x ^ -1` rewrite, a
constant, a variable) name a shared node without binding it. When no shared node takes one of
them, and the context is acyclic, every name the printer hands out is bound in the text already
written, and at the end of a rule every name in `Syms` is bound.

## Main definitions

- `Binds` — the text has the binding of a name
- `Closed` — every named node at or below a node is bound
- `Triple` — what every success of a printer method satisfies

## Main results

- `printInst_spec` — one call of `printInst`: the names it adds are of nodes at or below its
  node, and they are bound when it returns
- `printInst_binds` — a name `printInst` returns is bound
- `infixPrint_binds` — after a whole rule, every name in `Syms` is bound
-/

namespace Souper.Infix

open InstContext

/-- The text binds `n`: `let n = ` stands in it. -/
def Binds (out n : String) : Prop := ("let " ++ n ++ " = ").data <:+: out.data

/-- Every node at or below `I` that has a name has its binding in the text. -/
def Closed (I : Nat) (st : InfixState) : Prop :=
  ∀ J ≤ I, ∀ n, st.syms.lookup J = some n → Binds st.out n

/-- The printer only appends, to the text and to the names. -/
structure Grows (st st' : InfixState) : Prop where
  out : st.out.data <+: st'.out.data
  syms : st.syms <+: st'.syms

theorem Grows.refl (st : InfixState) : Grows st st := ⟨List.prefix_refl _, List.prefix_refl _⟩

theorem Grows.trans {st₁ st₂ st₃ : InfixState} (h₁ : Grows st₁ st₂) (h₂ : Grows st₂ st₃) :
    Grows st₁ st₃ :=
  ⟨h₁.out.trans h₂.out, h₁.syms.trans h₂.syms⟩

theorem Grows.binds {st st' : InfixState} (h : Grows st st') {n : String} (hn : Binds st.out n) :
    Binds st'.out n :=
  hn.trans h.out.isInfix

theorem Grows.lookup {st st' : InfixState} (h : Grows st st') {J : Nat} {n : String}
    (hn : st.syms.lookup J = some n) : st'.syms.lookup J = some n := by
  obtain ⟨l, hl⟩ := h.syms
  rw [← hl, List.lookup_append, hn]
  rfl

/-- Every success of `m` from a state satisfying `P` returns a value and a state satisfying
`Q`. -/
def Triple {α : Type} (P : InfixState → Prop) (m : InfixM α) (Q : α → InfixState → Prop) :
    Prop :=
  ∀ st x st', P st → m.run st = some (x, st') → Q x st'

namespace Triple

variable {α β : Type} {P : InfixState → Prop} {m : InfixM α} {Q : α → InfixState → Prop}

theorem pure {x : α} (h : ∀ st, P st → Q x st) : Triple P (Pure.pure x) Q := by
  intro st y st' hst hr
  cases hr
  exact h st hst

theorem bind {R : α → InfixState → Prop} {f : α → InfixM β} {Q : β → InfixState → Prop}
    (hm : Triple P m R) (hf : ∀ x, Triple (R x) (f x) Q) : Triple P (m >>= f) Q := by
  intro st y st'' hst hr
  simp only [StateT.run_bind] at hr
  cases h₁ : m.run st with
  | none => rw [h₁] at hr; cases hr
  | some p =>
    obtain ⟨x, st'⟩ := p
    rw [h₁] at hr
    exact hf x st' y st'' (hm st x st' hst h₁) hr

theorem pre {P' : InfixState → Prop} (h : ∀ st, P st → P' st) (hm : Triple P' m Q) :
    Triple P m Q :=
  fun st x st' hst hr => hm st x st' (h st hst) hr

theorem conseq {Q' : α → InfixState → Prop} (hm : Triple P m Q) (h : ∀ x st, Q x st → Q' x st) :
    Triple P m Q' :=
  fun st x st' hst hr => h x st' (hm st x st' hst hr)

theorem failure : Triple P (Alternative.failure : InfixM α) Q := by
  intro st x st' _ hr
  cases hr

/-- A method run from a known state. -/
theorem pin (h : ∀ st, P st → Triple (· = st) m Q) : Triple P m Q :=
  fun st x st' hst hr => h st hst st x st' rfl hr

theorem get_bind {f : InfixState → InfixM α} (h : ∀ st, P st → Triple (· = st) (f st) Q) :
    Triple P (MonadState.get >>= f) Q := by
  intro st x st' hst hr
  exact h st hst st x st' rfl hr

theorem set {s : InfixState} : Triple P (MonadStateOf.set s : InfixM PUnit) fun _ st => st = s := by
  intro st x st' _ hr
  cases hr
  rfl

theorem modify {f : InfixState → InfixState} :
    Triple P (modify f : InfixM PUnit) fun _ st' => ∃ st, P st ∧ st' = f st := by
  intro st x st' hst hr
  cases hr
  exact ⟨st, hst, rfl⟩

theorem emit {s : String} :
    Triple P (Infix.emit s) fun _ st' => ∃ st, P st ∧ st' = { st with out := st.out ++ s } := by
  intro st x st' hst hr
  cases hr
  exact ⟨st, hst, rfl⟩

theorem mapM {γ : Type} {f : γ → InfixM α} :
    ∀ {l : List γ}, (∀ x ∈ l, Triple P (f x) fun _ => P) → Triple P (l.mapM f) fun _ => P
  | [], _ => pure fun _ h => h
  | x :: l, h => by
    rw [List.mapM_cons]
    exact bind (h x (List.mem_cons_self x l)) fun _ =>
      bind (mapM fun z hz => h z (List.mem_cons_of_mem x hz)) fun _ => pure fun _ h => h

theorem forM {γ : Type} {f : γ → InfixM PUnit} :
    ∀ {l : List γ}, (∀ x ∈ l, Triple P (f x) fun _ => P) → Triple P (l.forM f) fun _ => P
  | [], _ => pure fun _ h => h
  | x :: l, h => bind (h x (List.mem_cons_self x l)) fun _ =>
      forM fun y hy => h y (List.mem_cons_of_mem x hy)

/-- The two operands of a two-operand node keep an invariant each call keeps, in either order. -/
theorem printPair {env : InfixEnv} {print : Nat → InfixM String} {a b : Nat}
    (ha : Triple P (print a) fun _ => P) (hb : Triple P (print b) fun _ => P) :
    Triple P (Infix.printPair env print a b) fun _ => P := by
  unfold Infix.printPair
  split
  · exact bind hb fun _ => bind ha fun _ => pure fun _ h => h
  · exact bind ha fun _ => bind hb fun _ => pure fun _ h => h

end Triple

/-- What one call of `printInst` on `I` from `st₀` does: it only appends; the names it adds are
of nodes at or below `I`; every named node at or below `I` is bound when it returns; and when `I`
is named, the call returns its name. -/
structure Step (I : Nat) (st₀ : InfixState) (s : String) (st : InfixState) : Prop where
  grows : Grows st₀ st
  below : ∀ J n, st.syms.lookup J = some n → st₀.syms.lookup J = some n ∨ J ≤ I
  closed : Closed I st
  result : ∀ n, st.syms.lookup I = some n → s = n

/-- While the operands of `I` are printed from `st₁`: the names added are of nodes below `I`,
and every named node below `I` is bound. -/
structure Kids (I : Nat) (st₁ st : InfixState) : Prop where
  grows : Grows st₁ st
  below : ∀ J n, st.syms.lookup J = some n → st₁.syms.lookup J = some n ∨ J < I
  bound : ∀ J < I, ∀ n, st.syms.lookup J = some n → Binds st.out n

namespace Kids

variable {I : Nat} {st₁ st : InfixState}

theorem start (h : ∀ J < I, ∀ n, st₁.syms.lookup J = some n → Binds st₁.out n) : Kids I st₁ st₁ :=
  ⟨Grows.refl _, fun _ _ hn => Or.inl hn, h⟩

theorem visit (hk : Kids I st₁ st) (v : List String) : Kids I st₁ { st with visitedVars := v } :=
  ⟨⟨hk.grows.out, hk.grows.syms⟩, hk.below, hk.bound⟩

theorem closed (hk : Kids I st₁ st) {o : Nat} (ho : o < I) : Closed o st :=
  fun J hJ => hk.bound J (by omega)

/-- An operand's call keeps it. -/
theorem child (hk : Kids I st₁ st) {o : Nat} (ho : o < I) {s : String} {st' : InfixState}
    (hs : Step o st s st') : Kids I st₁ st' := by
  refine ⟨hk.grows.trans hs.grows, fun J n hn => ?_, fun J hJ n hn => ?_⟩
  · rcases hs.below J n hn with h | h
    · exact hk.below J n h
    · exact Or.inr (by omega)
  · rcases hs.below J n hn with h | h
    · exact hs.grows.binds (hk.bound J hJ n h)
    · exact hs.closed J h n hn

/-- A call that names nothing at `I` ends in a `Step`, whatever it returns. -/
theorem step (hk : Kids I st₁ st) (hI : st₁.syms.lookup I = none) (s : String) : Step I st₁ s st := by
  have hI' : st.syms.lookup I = none := by
    cases h : st.syms.lookup I with
    | none => rfl
    | some n => rcases hk.below I n h with h' | h' <;> simp_all
  refine ⟨hk.grows, fun J n hn => (hk.below J n hn).imp_right Nat.le_of_lt, fun J hJ n hn => ?_,
    fun n hn => by simp_all⟩
  rcases Nat.lt_or_eq_of_le hJ with h | rfl
  · exact hk.bound J h n hn
  · simp_all

end Kids

section Spec

variable (env : InfixEnv) (ic : InstContext)

theorem notOperand_mem {I o : Nat} (h : notOperand ic I = some o) : o ∈ (ic.get I).ops := by
  unfold notOperand at h
  split at h
  · rename_i a b _ hops
    rw [hops]
    split_ifs at h <;> cases h <;> simp
  · cases h

theorem lookup_append_singleton {l : List (Nat × String)} {I J : Nat} {v n : String}
    (h : (l ++ [(I, v)]).lookup J = some n) : l.lookup J = some n ∨ J = I := by
  rw [List.lookup_append] at h
  cases hl : l.lookup J with
  | some m => rw [hl] at h; exact Or.inl h
  | none =>
    rw [hl, Option.none_or] at h
    by_cases hJ : J = I
    · exact Or.inr hJ
    · rw [List.lookup_cons, beq_false_of_ne hJ] at h
      cases h

theorem binds_let (out y : String) (v : Nat) :
    Binds (out ++ ("let var" ++ toString v ++ " = " ++ y ++ ";\n")) ("var" ++ toString v) := by
  refine ⟨out.data, (y ++ ";\n").data, ?_⟩
  simp only [String.data_append, List.append_assoc]
  rfl

/-- A shared node, named `varN` on entry: once its operands are printed, its binding is written
and its name returned. -/
theorem step_of_named {I : Nat} {st₀ : InfixState} (hI : st₀.syms.lookup I = none)
    (hc : Closed I st₀) (y : String) :
    Triple (Kids I
        { st₀ with syms := st₀.syms ++ [(I, "var" ++ toString st₀.varnum)]
                   varnum := st₀.varnum + 1 })
      (Infix.emit ("let var" ++ toString st₀.varnum ++ " = " ++ y ++ ";\n") >>= fun _ =>
        MonadState.get >>= fun st => Pure.pure ((st.syms.lookup I).getD ""))
      (Step I st₀) := by
  refine Triple.bind Triple.emit fun _ => Triple.get_bind fun st' ⟨st, hk, hst'⟩ =>
    Triple.pure fun _ h => ?_
  subst h hst'
  have hname : st.syms.lookup I = some ("var" ++ toString st₀.varnum) :=
    hk.grows.lookup (lookup_append_of_lookup_eq_none hI _)
  have hb : Binds (st.out ++ ("let var" ++ toString st₀.varnum ++ " = " ++ y ++ ";\n"))
      ("var" ++ toString st₀.varnum) := binds_let _ _ _
  have hg₀ : Grows st₀
      { st₀ with syms := st₀.syms ++ [(I, "var" ++ toString st₀.varnum)]
                 varnum := st₀.varnum + 1 } :=
    ⟨List.prefix_refl _, List.prefix_append _ _⟩
  have hg := hg₀.trans hk.grows
  have hg' : Grows st { st with out := st.out ++ ("let var" ++ toString st₀.varnum ++ " = " ++ y ++
      ";\n") } := ⟨by simp only [String.data_append]; exact List.prefix_append _ _, List.prefix_refl _⟩
  refine ⟨hg.trans hg', fun J n hn => ?_, fun J hJ n hn => ?_, fun n hn => ?_⟩
  · rcases hk.below J n hn with h | h
    · exact (lookup_append_singleton h).imp_right Nat.le_of_eq
    · exact Or.inr (Nat.le_of_lt h)
  · rcases Nat.lt_or_eq_of_le hJ with h | rfl
    · exact hg'.binds (hk.bound J h n hn)
    · rw [Option.some.inj (hname.symm.trans hn)] at hb
      exact hb
  · exact (congrArg (Option.getD · "") hn).trans rfl

variable {env ic} (hac : ic.Acyclic) (hops : ∀ I, ∀ o ∈ env.orderedOps ic I, o ∈ (ic.get I).ops)
  (hshared : ∀ I, 1 < env.useCount I →
    (ic.get I).k ≠ .const ∧ (ic.get I).k ≠ .var ∧ notOperand ic I = none)
include hac hops hshared

theorem printInst_spec : ∀ (fuel I : Nat) (root : Bool) (st₀ : InfixState), Closed I st₀ →
    Triple (· = st₀) (printInst env ic fuel I root) (Step I st₀)
  | 0, _, _, _, _ => Triple.failure
  | fuel + 1, I, root, st₀, hc => by
    -- an operand of `I`, printed while the names below `I` stay bound
    have kid : ∀ st₁ o, o ∈ (ic.get I).ops →
        Triple (Kids I st₁) (printInst env ic fuel o false) fun _ => Kids I st₁ :=
      fun st₁ o ho => Triple.pin fun st hk =>
        (printInst_spec fuel o false st (hk.closed (hac.lt_of_mem_ops ho))).conseq
          fun _ _ hs => hk.child (hac.lt_of_mem_ops ho) hs
    have hbelow : ∀ J < I, ∀ n, st₀.syms.lookup J = some n → Binds st₀.out n :=
      fun J hJ => hc J hJ.le
    unfold printInst
    refine Triple.get_bind fun st hst => ?_
    obtain rfl := hst
    split
    · -- already named: its name, bound
      rename_i n hn
      refine Triple.pure fun st h => ?_
      obtain rfl := h
      exact ⟨Grows.refl _, fun _ _ h => Or.inl h, hc, fun m hm => Option.some.inj (hn.symm.trans hm)⟩
    · rename_i hI
      by_cases hs : 1 < env.useCount I
      · -- shared: an operation, named on entry and bound at the end
        obtain ⟨hk₁, hk₂, hno⟩ := hshared I hs
        simp only [hs, decide_True, if_true, hno, hk₁, hk₂, if_false]
        have hk : ∀ st', st' =
            { st with syms := st.syms ++ [(I, "var" ++ toString st.varnum)]
                      varnum := st.varnum + 1 } → Kids I st' st' := by
          rintro _ rfl
          refine Kids.start fun J hJ n hn => ?_
          rcases lookup_append_singleton hn with h | h
          · exact hbelow J hJ n h
          · omega
        refine Triple.bind Triple.set fun _ => Triple.pin fun st' h => Triple.pre (fun _ h' => h'.symm ▸ hk st' h :
          ∀ st'', st'' = st' → Kids I st' st'') ?_
        obtain rfl := h
        split
        · rename_i a b hab
          exact Triple.bind (Triple.printPair (kid _ a (hops I a (by simp [hab])))
            (kid _ b (hops I b (by simp [hab])))) fun ⟨_, _⟩ =>
              Triple.bind (Triple.pure fun _ h => h) fun y => step_of_named hI hc y
        · rename_i a ha
          exact Triple.bind (kid _ a (hops I a (by simp [ha]))) fun _ =>
            Triple.bind (Triple.pure fun _ h => h) fun y => step_of_named hI hc y
        · exact Triple.bind (Triple.mapM fun o ho => kid _ o (hops I o ho)) fun _ =>
            Triple.bind (Triple.pure fun _ h => h) fun y => step_of_named hI hc y
      · -- not shared: nothing is named at `I`, whatever the branch
        simp only [hs, decide_False, if_false]
        refine Triple.bind (Triple.pure fun _ h => h) fun _ => Triple.pre
          (fun _ h => by subst h; exact Kids.start hbelow : ∀ st', st' = st → Kids I st st') ?_
        split
        · rename_i o ho
          exact Triple.bind (kid st o (notOperand_mem ic ho)) fun _ =>
            Triple.pure fun _ hk => hk.step hI _
        · split
          · exact Triple.pure fun _ hk => hk.step hI _
          · split
            · refine Triple.get_bind fun st' hk => ?_
              split
              · exact Triple.pure fun _ h => by subst h; exact hk.step hI _
              · exact Triple.bind Triple.modify fun _ => Triple.pure fun _ ⟨_, h₁, h₂⟩ => by
                  subst h₁ h₂; exact (hk.visit _).step hI _
            · -- an operation: its operands, then its text
              have fin : ∀ y : String, Triple (Kids I st) (Pure.pure y) fun _ => Kids I st :=
                fun _ => Triple.pure fun _ h => h
              split
              · rename_i a b hab
                exact Triple.bind (Triple.printPair (kid _ a (hops I a (by simp [hab])))
                  (kid _ b (hops I b (by simp [hab])))) fun ⟨_, _⟩ =>
                    Triple.bind (fin _) fun _ => Triple.pure fun _ hk => hk.step hI _
              · rename_i a ha
                exact Triple.bind (kid _ a (hops I a (by simp [ha]))) fun _ =>
                  Triple.bind (fin _) fun _ => Triple.pure fun _ hk => hk.step hI _
              · exact Triple.bind (Triple.mapM fun o ho => kid _ o (hops I o ho)) fun _ =>
                  Triple.bind (fin _) fun _ => Triple.pure fun _ hk => hk.step hI _

/-- A name `printInst` returns for its node is bound in the text already written: the node was
named by an earlier call that wrote its binding, or by this call, which wrote it before
returning. -/
theorem printInst_binds {fuel I : Nat} {root : Bool} {st st' : InfixState} {s : String}
    (hst : Closed I st) (h : (printInst env ic fuel I root).run st = some (s, st')) :
    ∀ n, st'.syms.lookup I = some n → s = n ∧ Binds st'.out n := fun n hn =>
  have hs := printInst_spec hac hops hshared fuel I root st hst st s st' rfl h
  ⟨hs.result n hn, hs.closed I le_rfl n hn⟩

end Spec

/-- `(x + 1) * (x + 1) ⇒ x + 1` at width 8: the sum is shared, twice an operand of the product
and once the RHS. -/
def sharedSumIc : InstContext :=
  ⟨[.var 8 "x", .const (.ofNat 8 1), .op .add 8 [0, 1], .op .mul 8 [2, 2]]⟩

def sharedSumRule : ParsedReplacement := ⟨⟨3, 2⟩, [], []⟩

/-- Widths shown, operands in order and printed right to left, as GCC does, and `UseCount` giving
the sum its three uses. -/
def sharedSumEnv : InfixEnv where
  useCount i := if i = 2 then 3 else 1
  widthConstraints _ := none
  showImplicitWidths := true
  orderedOps ic i := (ic.get i).ops
  getKindName _ := ""
  getKnownBitsString _ _ := ""
  getDemandedBitsString _ := ""
  rightFirst := true

theorem sharedSumIc_acyclic : sharedSumIc.Acyclic := WF.toAcyclic (by decide)

theorem sharedSumEnv_shared (I : Nat) (h : 1 < sharedSumEnv.useCount I) :
    (sharedSumIc.get I).k ≠ .const ∧ (sharedSumIc.get I).k ≠ .var ∧
      notOperand sharedSumIc I = none := by
  by_cases hI : I = 2
  · subst hI; decide
  · simp [sharedSumEnv, hI] at h

theorem printInst_binds_sharedSum :
    ∃ s st', (printInst sharedSumEnv sharedSumIc 3 2 false).run InfixState.init = some (s, st') ∧
      s = "var0" ∧ ∀ n, st'.syms.lookup 2 = some n → s = n ∧ Binds st'.out n :=
  have h : (printInst sharedSumEnv sharedSumIc 3 2 false).run InfixState.init =
      some ("var0", ⟨["x"], [(2, "var0")], 1, "let var0 = (x:i8 + 1);\n"⟩) := by decide
  ⟨_, _, h, rfl, printInst_binds sharedSumIc_acyclic (fun _ _ h => h) sharedSumEnv_shared
    (fun _ _ _ h => by cases h) h⟩

section Run

variable {env : InfixEnv} {ic : InstContext} (hac : ic.Acyclic)
  (hops : ∀ I, ∀ o ∈ env.orderedOps ic I, o ∈ (ic.get I).ops)
  (hshared : ∀ I, 1 < env.useCount I →
    (ic.get I).k ≠ .const ∧ (ic.get I).k ≠ .var ∧ notOperand ic I = none)
include hac hops hshared

/-- Every named node is bound. -/
def AllBound (st : InfixState) : Prop := ∀ J n, st.syms.lookup J = some n → Binds st.out n

theorem keeps_printInst (fuel I : Nat) (root : Bool) :
    Triple AllBound (printInst env ic fuel I root) fun _ => AllBound :=
  Triple.pin fun st hst => (printInst_spec hac hops hshared fuel I root st
    fun J _ => hst J).conseq fun _ _ hs J n hn => (hs.below J n hn).elim
      (fun h => hs.grows.binds (hst J n h)) fun h => hs.closed J h n hn

omit hac hops hshared in
theorem keeps_emit (s : String) : Triple AllBound (Infix.emit s) fun _ => AllBound :=
  Triple.emit.conseq fun _ _ ⟨st, hst, h⟩ J n hn => by
    subst h
    exact (hst J n hn).trans ((List.prefix_append _ _).trans (by rw [String.data_append])).isInfix

theorem keeps_printPCs (pcs : List InstMapping) :
    Triple AllBound (printPCs env ic pcs) fun _ => AllBound := by
  have hp := keeps_printInst hac hops hshared
  unfold printPCs
  refine Triple.forM fun ⟨k, pc⟩ _ => ?_
  dsimp -zeta only
  lift_lets
  extract_lets jp
  -- a path condition: negated, alone, or compared
  have hjp : ∀ y, Triple AllBound (jp y) fun _ => AllBound := fun _ => by
    simp only [jp]
    split
    · exact Triple.bind (keeps_emit _) fun _ => Triple.bind (hp _ _ _) fun _ => keeps_emit _
    · split
      · exact Triple.bind (hp _ _ _) fun _ => keeps_emit _
      · exact Triple.bind (hp _ _ _) fun _ => Triple.bind (keeps_emit _) fun _ =>
          Triple.bind (keeps_emit _) fun _ => Triple.bind (hp _ _ _) fun _ => keeps_emit _
  clear_value jp
  split
  · exact Triple.bind (keeps_emit _) hjp
  · exact Triple.bind (Triple.pure fun _ h => h) hjp

theorem keeps_infixPrint (R : ParsedReplacement) :
    Triple AllBound (infixPrint env ic R) fun _ => AllBound := by
  have hp := keeps_printInst hac hops hshared
  unfold infixPrint
  lift_lets
  extract_lets rhs lhs
  -- the RHS, after the LHS and its demanded bits
  have hrhs : ∀ y, Triple AllBound (rhs y) fun _ => AllBound := fun _ =>
    Triple.bind (keeps_emit _) fun _ => Triple.bind (hp _ _ _) fun _ => keeps_emit _
  have hlhs : ∀ y, Triple AllBound (lhs y) fun _ => AllBound := fun _ => by
    simp only [lhs]
    refine Triple.bind (hp _ _ _) fun _ => Triple.bind (keeps_emit _) fun _ => ?_
    split
    · exact Triple.bind (keeps_emit _) hrhs
    · exact Triple.bind (Triple.pure fun _ h => h) hrhs
  clear_value lhs rhs
  split
  · exact Triple.bind (keeps_printPCs hac hops hshared _) fun _ => Triple.bind (keeps_emit _) hlhs
  · exact Triple.bind (Triple.pure fun _ h => h) hlhs

/-- After a whole rule, every name in `Syms` is bound: no shared node is left with a name and
no binding. -/
theorem infixPrint_binds {R : ParsedReplacement} {st : InfixState}
    (h : (infixPrint env ic R).run InfixState.init = some ((), st)) :
    ∀ J n, st.syms.lookup J = some n → Binds st.out n :=
  keeps_infixPrint hac hops hshared R _ _ _ (fun _ _ h => by cases h) h

end Run

theorem infixPrint_binds_sharedSum :
    ∃ st, (infixPrint sharedSumEnv sharedSumIc sharedSumRule).run InfixState.init = some ((), st) ∧
      st.out = "let var0 = (x:i8 + 1);\nvar0 * var0\n  =>\nvar0\n" ∧
      ∀ J n, st.syms.lookup J = some n → Binds st.out n :=
  have h : (infixPrint sharedSumEnv sharedSumIc sharedSumRule).run InfixState.init =
      some ((), ⟨["x"], [(2, "var0")], 1, "let var0 = (x:i8 + 1);\nvar0 * var0\n  =>\nvar0\n"⟩) := by
    decide
  ⟨_, h, rfl, infixPrint_binds sharedSumIc_acyclic (fun _ _ h => h) sharedSumEnv_shared h⟩

end Souper.Infix
