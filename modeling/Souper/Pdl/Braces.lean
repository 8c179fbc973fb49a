import Mathlib.Data.String.Basic
import Mathlib.Tactic.LiftLets
import Souper.Pdl.Generator
import Souper.MatcherGen.Braces
import Souper.Inst.Copy

/-!
# The braces of the PDL patterns

`PDLGenerator` writes two kinds of blocks: each pattern's, opened by `pre` and closed by `post`,
and its `pdl.rewrite` block, opened by `rhspre` and closed by `rhspost`. The attribute
dictionaries of a constant and of a comparison open and close on one line. Every other piece of
text is a keyword or a name: the names of the LHS's variables and the pattern's name come from
outside; every other name is built by the generator, and those it stores are read back later.

## Main definitions

- `Unbraced` — the stored names have no brace
- `Triple` — from an unbraced state, what a success returns, and the brace depth before and
  after the text it adds; `Keeps` when the depth is unchanged

## Main results

- `keeps_printSingleInst`, `keeps_printInsts` — a node's declaration is balanced
- `pre_opens`, `rhspre_opens`, `rhspost_closes`, `keeps_pattern` — the blocks of a pattern
- `generate_balanced` — every text `PDLGenerator::operator()` writes is balanced
-/

namespace Souper.Pdl

open InstContext MatcherGen

/-- The names the generator writes again after storing them have no brace. -/
structure Unbraced (st : PdlState) : Prop where
  symbols : ∀ p ∈ st.symbolTable, NoBraces p.2
  types : ∀ p ∈ st.typeSSA, NoBraces p.2

/-- From a state whose names have no brace, every success of `m` returns a value satisfying
`Q`, keeps the names brace-free, and adds to the text a piece that takes the brace depth from
`a` to `b`. -/
def Triple {α : Type} (a b : Nat) (m : PdlM α) (Q : α → Prop) : Prop :=
  ∀ st x st', Unbraced st → m.run st = .ok (x, st') →
    Q x ∧ Unbraced st' ∧ ∃ d, st'.out = st.out ++ d ∧ braceDepth a d.data = some b

namespace Triple

variable {α β : Type} {a b c : Nat} {m : PdlM α} {Q Q' : α → Prop}

theorem pure {x : α} (h : Q x) : Triple a a (Pure.pure x) Q := by
  intro st y st' hst hr
  cases hr
  exact ⟨h, hst, "", (String.append_empty _).symm, rfl⟩

theorem bind {R : β → Prop} {f : α → PdlM β} (hm : Triple a b m Q)
    (hf : ∀ x, Q x → Triple b c (f x) R) : Triple a c (m >>= f) R := by
  intro st y st'' hst hr
  simp only [StateT.run_bind] at hr
  cases h₁ : m.run st with
  | error e => rw [h₁] at hr; cases hr
  | ok p =>
    obtain ⟨x, st'⟩ := p
    rw [h₁] at hr
    obtain ⟨hq, hst', d₁, ho₁, hd₁⟩ := hm st x st' hst h₁
    obtain ⟨hr', hst'', d₂, ho₂, hd₂⟩ := hf x hq st' y st'' hst' hr
    refine ⟨hr', hst'', d₁ ++ d₂, by rw [ho₂, ho₁, String.append_assoc], ?_⟩
    rw [String.data_append, braceDepth_append, hd₁]
    exact hd₂

theorem bind_true {R : β → Prop} {f : α → PdlM β} (hm : Triple a b m fun _ => True)
    (hf : ∀ x, Triple b c (f x) R) : Triple a c (m >>= f) R :=
  bind hm fun x _ => hf x

theorem throw {e : PdlError} : Triple a b (MonadExcept.throw e : PdlM α) Q := by
  intro st x st' _ hr
  cases hr

theorem throw_bind {e : PdlError} {R : β → Prop} {f : α → PdlM β} :
    Triple a c (MonadExcept.throw e >>= f) R :=
  bind (throw : Triple a a _ fun _ => False) fun _ h => h.elim

theorem conseq (hm : Triple a b m Q) (hQ : ∀ x, Q x → Q' x) : Triple a b m Q' := fun st x st' hst hr =>
  (hm st x st' hst hr).imp_left (hQ x)

theorem get : Triple a a (MonadState.get : PdlM PdlState) Unbraced := by
  intro st x st' hst hr
  cases hr
  exact ⟨hst, hst, "", (String.append_empty _).symm, rfl⟩

theorem modify {f : PdlState → PdlState} (hf : ∀ st, Unbraced st → Unbraced (f st))
    (ho : ∀ st, (f st).out = st.out) : Triple a a (modify f : PdlM Unit) fun _ => True := by
  intro st x st' hst hr
  cases hr
  exact ⟨trivial, hf st hst, "", by rw [ho, String.append_empty], rfl⟩

theorem emit {s : String} (h : braceDepth a s.data = some b) : Triple a b (Pdl.emit s) fun _ => True := by
  intro st x st' hst hr
  cases hr
  exact ⟨trivial, ⟨hst.1, hst.2⟩, s, rfl, h⟩

theorem forM {γ : Type} {f : γ → PdlM PUnit} :
    ∀ {l : List γ}, (∀ x ∈ l, Triple a a (f x) fun _ => True) → Triple a a (l.forM f) fun _ => True
  | [], _ => pure trivial
  | x :: l, h => bind (h x (List.mem_cons_self x l)) fun _ _ =>
      forM fun y hy => h y (List.mem_cons_of_mem x hy)

theorem mapM {γ : Type} {f : γ → PdlM β} {Q : β → Prop} :
    ∀ {l : List γ}, (∀ x ∈ l, Triple a a (f x) Q) → Triple a a (l.mapM f) fun ys => ∀ y ∈ ys, Q y
  | [], _ => pure fun _ h => absurd h (List.not_mem_nil _)
  | x :: l, h => by
    rw [List.mapM_cons]
    exact bind (h x (List.mem_cons_self x l)) fun y hy =>
      bind (mapM fun z hz => h z (List.mem_cons_of_mem x hz)) fun ys hys =>
        pure fun z hz => (List.mem_cons.mp hz).elim (· ▸ hy) (hys z)

end Triple

/-- `m` keeps the brace depth, whatever it is. -/
def Keeps {α : Type} (m : PdlM α) (Q : α → Prop) : Prop := ∀ a, Triple a a m Q

theorem Keeps.emit {s : String} (h : NoBraces s) : Keeps (Pdl.emit s) fun _ => True :=
  fun a => Triple.emit (h.braceDepth a)

theorem noBraces_empty : NoBraces "" := by decide

theorem noBraces_drop {s : String} (h : NoBraces s) (n : Nat) : NoBraces (s.drop n) := by
  rw [NoBraces, String.data_drop]
  exact ⟨fun hm => h.1 (List.mem_of_mem_drop hm), fun hm => h.2 (List.mem_of_mem_drop hm)⟩

theorem noBraces_of_lookup {l : List (Nat × String)} (hl : ∀ p ∈ l, NoBraces p.2) {k : Nat}
    {n : String} (h : l.lookup k = some n) : NoBraces n :=
  hl (k, n) (mem_of_lookup_eq_some h)

theorem Unbraced.pushSymbol {st : PdlState} (h : Unbraced st) {n : String} (hn : NoBraces n)
    (I : Nat) : Unbraced { st with symbolTable := st.symbolTable ++ [(I, n)] } := by
  refine ⟨fun p hp => ?_, h.types⟩
  rcases List.mem_append.mp hp with hp | hp
  · exact h.symbols p hp
  · rw [List.mem_singleton.mp hp]; exact hn

theorem Unbraced.pushType {st : PdlState} (h : Unbraced st) {n : String} (hn : NoBraces n)
    (w : Nat) : Unbraced { st with typeSSA := st.typeSSA ++ [(w, n)] } := by
  refine ⟨h.symbols, fun p hp => ?_⟩
  rcases List.mem_append.mp hp with hp | hp
  · exact h.types p hp
  · rw [List.mem_singleton.mp hp]; exact hn

theorem keeps_indent : Keeps indent fun _ => True := fun _ =>
  Triple.bind Triple.get fun _ _ => Triple.emit (NoBraces.braceDepth
    ⟨fun h => by simp at h, fun h => by simp at h⟩ _)

theorem keeps_charAt (s : String) (i : Nat) : Keeps (charAt s i) fun _ => True := fun _ => by
  unfold charAt
  split
  · exact Triple.pure trivial
  · exact Triple.throw

theorem keeps_symbol (I : Nat) : Keeps (symbol I) NoBraces := fun _ => by
  refine Triple.bind Triple.get fun st hst => ?_
  split
  · exact Triple.pure (noBraces_of_lookup hst.symbols ‹_›)
  · exact Triple.bind (Triple.modify (fun _ h => h.pushSymbol noBraces_empty I) fun _ => rfl)
      fun _ _ => Triple.pure noBraces_empty

section Methods

variable (ic : InstContext)

theorem keeps_getTypeSSA (I : Nat) : Keeps (getTypeSSA ic I) NoBraces := fun _ => by
  refine Triple.bind Triple.get fun st hst => ?_
  split
  · exact Triple.pure (noBraces_of_lookup hst.types ‹_›)
  · exact Triple.bind (Triple.modify (fun _ h => h.pushType noBraces_empty _) fun _ => rfl)
      fun _ _ => Triple.pure noBraces_empty

theorem keeps_fetchTypeSSA (I : Nat) : Keeps (fetchTypeSSA ic I) fun _ => True := fun _ => by
  refine Triple.bind Triple.get fun st _ => ?_
  split
  · -- `%uint1` or `%type<n>`, declared on a line of its own
    refine Triple.bind (keeps_indent _) fun _ _ => ?_
    split <;> exact Triple.bind (Keeps.emit (by simp [noBraces_toString_nat]; decide) _) fun _ _ =>
      Triple.modify (fun _ h => h.pushType (noBraces_append.mpr ⟨by decide, noBraces_toString_nat _⟩) _)
        fun _ => rfl
  · exact Triple.pure trivial

theorem keeps_fetchAttributeSSA {name attr : String} (hn : NoBraces name) (ha : NoBraces attr) :
    Keeps (fetchAttributeSSA name attr) fun _ => True := fun _ => by
  refine Triple.bind Triple.get fun _ _ => ?_
  split
  · exact Triple.bind (Triple.modify (fun _ h => ⟨h.1, h.2⟩) fun _ => rfl) fun _ _ =>
      Triple.bind (keeps_indent _) fun _ _ =>
        Keeps.emit (by simp only [noBraces_append]; exact ⟨⟨⟨hn, by decide⟩, ha⟩, by decide⟩) _
  · exact Triple.pure trivial

theorem keeps_fetchResultSSA {op : String} (hop : NoBraces op) :
    Keeps (fetchResultSSA op) fun _ => True := fun _ => by
  refine Triple.bind (keeps_charAt op 1 _) fun _ _ => ?_
  split
  · refine Triple.bind Triple.get fun _ _ => ?_
    split
    · exact Triple.bind (Triple.modify (fun _ h => ⟨h.1, h.2⟩) fun _ => rfl) fun _ _ =>
        Triple.bind (keeps_indent _) fun _ _ => Keeps.emit
          (by simp only [noBraces_append, noBraces_drop hop, hop, true_and, and_true]; decide) _
    · exact Triple.pure trivial
  · exact Triple.pure trivial

theorem keeps_getInputSSA {op : String} (hop : NoBraces op) :
    Keeps (getInputSSA op) NoBraces := fun _ => by
  refine Triple.bind (keeps_charAt op 1 _) fun _ _ => ?_
  split
  · exact Triple.pure hop
  · exact Triple.pure (noBraces_append.mpr ⟨by decide, noBraces_drop hop 1⟩)

theorem keeps_addOperandsAndBindings (bitmask I : Nat) :
    Keeps (addOperandsAndBindings ic bitmask I) fun _ => True := fun a => by
  unfold addOperandsAndBindings
  lift_lets
  extract_lets jp
  -- the operands, in either order, are named by their inputs and typed `!pdl.value`
  have hjp : ∀ ops, Triple a a (jp ops) fun _ => True := fun ops => by
    simp only [jp]
    refine Triple.bind (Triple.mapM fun op _ => ?_ :
      Triple _ _ _ fun names => ∀ n ∈ names, NoBraces n) fun names hnames => ?_
    · refine Triple.bind Triple.get fun st hst => ?_
      split
      · exact Triple.throw
      · exact keeps_getInputSSA (noBraces_of_lookup hst.symbols ‹_›) _
    · refine Keeps.emit ?_ _
      simp only [noBraces_append]
      exact ⟨⟨noBraces_intercalate (by decide) hnames, by decide⟩,
        noBraces_intercalate (by decide) fun x hx => by
          obtain ⟨_, _, rfl⟩ := List.mem_map.mp hx; decide⟩
  clear_value jp
  split
  · refine Triple.bind Triple.get fun _ _ => ?_
    dsimp only
    split
    · exact Triple.throw_bind
    · exact Triple.bind_true (Triple.pure trivial) fun _ =>
        Triple.bind_true (Triple.modify (fun _ h => ⟨h.1, h.2⟩) fun _ => rfl) fun _ =>
          Triple.bind_true (Triple.pure trivial) hjp
  · exact Triple.bind_true (Triple.pure trivial) hjp

theorem noBraces_arithDialectMap {K : Kind} {o : String} (h : arithDialectMap K = some o) :
    NoBraces o := by
  cases K <;> cases h <;> decide

theorem noBraces_arithCmpiInst {K : Kind} {p : String} (h : arithCmpiInst K = some p) :
    NoBraces p := by
  cases K <;> cases h <;> decide

theorem keeps_printSingleInst (bitmask I : Nat) :
    Keeps (printSingleInst ic bitmask I) fun _ => True := fun a => by
  unfold printSingleInst
  lift_lets
  extract_lets K v valueAttrName jp
  have hv : NoBraces valueAttrName := noBraces_append.mpr ⟨by decide, noBraces_toString_nat _⟩
  -- the declaration of the node, once it is named
  have hjp : ∀ y, Triple a a (jp y) fun _ => True := fun _ => by
    simp only [jp]
    refine Triple.bind_true (keeps_fetchTypeSSA ic I a) fun _ => ?_
    split
    · -- a constant: its value in a braced attribute dictionary
      refine Triple.bind_true (keeps_fetchAttributeSSA hv (noBraces_append.mpr
        ⟨noBraces_toString_nat _, by split <;> simp [noBraces_empty]⟩) a) fun _ => ?_
      refine Triple.bind (keeps_getTypeSSA ic I a) fun tn htn => ?_
      refine Triple.bind_true (keeps_indent a) fun _ => ?_
      refine Triple.bind (keeps_symbol I a) fun sym hsym => Triple.emit ?_
      have e₁ : ∀ d, braceDepth d
          " = pdl.operation \"arith.constant\" \x7b\"value\" = ".data = some (d + 1) := fun _ => rfl
      have e₂ : ∀ d, braceDepth (d + 1) "\x7d -> (".data = some d := fun _ => rfl
      simp only [String.data_append, braceDepth_append, hsym.braceDepth, e₁, hv.braceDepth, e₂,
        htn.braceDepth, (show NoBraces " : !pdl.type)\n" by decide).braceDepth, Option.some_bind]
    · split
      · exact Triple.throw
      · rename_i op hop
        refine Triple.bind_true (Triple.forM fun o _ => Triple.bind (keeps_symbol o a)
          fun _ h => keeps_fetchResultSSA h a) fun _ => ?_
        split
        · -- a comparison: its predicate in a braced attribute dictionary
          rename_i p hp
          have hpa : NoBraces ("%av" ++ p) := noBraces_append.mpr ⟨by decide, noBraces_arithCmpiInst hp⟩
          refine Triple.bind_true (keeps_fetchAttributeSSA hpa (noBraces_arithCmpiInst hp) a)
            fun _ => ?_
          refine Triple.bind (keeps_getTypeSSA ic I a) fun tn htn => ?_
          refine Triple.bind_true (keeps_indent a) fun _ => ?_
          refine Triple.bind (keeps_symbol I a) fun sym hsym => ?_
          refine Triple.bind_true (Keeps.emit (by
            simp only [noBraces_append]
            exact ⟨⟨⟨hsym, by decide⟩, noBraces_arithDialectMap hop⟩, by decide⟩) a) fun _ => ?_
          refine Triple.bind_true (keeps_addOperandsAndBindings ic bitmask I a) fun _ => ?_
          refine Triple.emit ?_
          have e₁ : ∀ d, braceDepth d ") \x7b\"predicate\" = ".data = some (d + 1) := fun _ => rfl
          have e₂ : ∀ d, braceDepth (d + 1) "\x7d -> (".data = some d := fun _ => rfl
          simp only [String.data_append, braceDepth_append, e₁, (show NoBraces "%av" by decide).braceDepth,
            (noBraces_arithCmpiInst hp).braceDepth, e₂,
            htn.braceDepth, (show NoBraces " : !pdl.type)\n" by decide).braceDepth, Option.some_bind]
        · refine Triple.bind_true (keeps_indent a) fun _ => ?_
          refine Triple.bind (keeps_symbol I a) fun sym hsym => ?_
          refine Triple.bind_true (Keeps.emit (by
            simp only [noBraces_append]
            exact ⟨⟨⟨hsym, by decide⟩, noBraces_arithDialectMap hop⟩, by decide⟩) a) fun _ => ?_
          refine Triple.bind_true (keeps_addOperandsAndBindings ic bitmask I a) fun _ => ?_
          refine Triple.bind (keeps_getTypeSSA ic I a) fun tn htn => ?_
          exact Keeps.emit (by simp only [noBraces_append]; exact ⟨⟨by decide, htn⟩, by decide⟩) a
  clear_value jp
  refine Triple.bind Triple.get fun _ _ => ?_
  split
  · refine Triple.bind_true (Triple.modify (fun _ h => ⟨h.1, h.2⟩) fun _ => rfl) fun _ => ?_
    refine Triple.bind Triple.get fun _ _ => ?_
    split
    · exact Triple.bind_true (Triple.modify (fun _ h => h.pushSymbol
        (noBraces_append.mpr ⟨by decide, noBraces_toString_nat _⟩) I) fun _ => rfl) hjp
    · exact Triple.bind_true (Triple.pure trivial) hjp
  · exact Triple.pure trivial

theorem keeps_printInsts (bitmask : Nat) :
    ∀ fuel I, Keeps (printInsts ic bitmask fuel I) fun _ => True
  | 0, _, _ => Triple.throw
  | fuel + 1, I, a => Triple.bind_true (Triple.forM fun o _ => keeps_printInsts bitmask fuel o a)
      fun _ => keeps_printSingleInst ic bitmask I a

variable (R : ParsedReplacement) (name : String) (benefit : Int) (bitmask : Nat)

/-- The header opens the pattern's block; each variable's declaration is brace-free, given its
name is. -/
theorem pre_opens (hname : NoBraces name)
    (hvars : ∀ v ∈ findVars ic R.mapping.lhs, NoBraces (ic.get v).name) (a : Nat) :
    Triple a (a + 1) (pre ic R name benefit bitmask) fun _ => True := by
  unfold pre
  refine Triple.bind_true (Triple.emit ?_ : Triple a (a + 1) _ _) fun _ => ?_
  · have hc : NoBraces (if bitmask > 0 then "_com_" ++ toString bitmask else "") := by
      split
      · exact noBraces_append.mpr ⟨by decide, noBraces_toString_nat _⟩
      · exact noBraces_empty
    have e : ∀ d, braceDepth d ") \x7b\n".data = some (d + 1) := fun _ => rfl
    simp only [String.data_append, braceDepth_append, (show NoBraces "pdl.pattern @" by decide).braceDepth,
      hname.braceDepth, hc.braceDepth, (show NoBraces " : benefit(" by decide).braceDepth,
      (noBraces_toString_int benefit).braceDepth, e, Option.some_bind]
  refine Triple.bind_true (Triple.modify (fun _ h => ⟨h.1, h.2⟩) fun _ => rfl) fun _ => ?_
  refine Triple.forM fun v hv => Triple.bind Triple.get fun _ _ => ?_
  lift_lets
  extract_lets jp₁ jp₂
  -- the type, then the operand or constant operation, of a named variable
  have hjp₂ : ∀ y, Triple (a + 1) (a + 1) (jp₂ y) fun _ => True := fun _ => by
    simp only [jp₂, jp₁]
    refine Triple.bind_true (keeps_fetchTypeSSA ic v _) fun _ => ?_
    refine Triple.bind_true (keeps_charAt _ 0 _) fun _ => ?_
    refine Triple.bind_true (keeps_indent _) fun _ => ?_
    dsimp only
    split <;> refine Triple.bind (keeps_symbol v _) fun sym hsym =>
      Triple.bind (keeps_getTypeSSA ic v _) fun tn htn => Triple.bind_true (Keeps.emit ?_ _)
        fun _ => Triple.modify (fun _ h => ⟨h.1, h.2⟩) fun _ => rfl
    all_goals simp only [noBraces_append]; exact ⟨⟨⟨hsym, by decide⟩, htn⟩, by decide⟩
  clear_value jp₂
  split
  · exact Triple.bind_true (Triple.modify (fun _ h => h.pushSymbol
      (noBraces_append.mpr ⟨by decide, hvars v hv⟩) v) fun _ => rfl) hjp₂
  · exact Triple.bind_true (Triple.pure trivial) hjp₂

/-- The rewrite opens a block. -/
theorem rhspre_opens (a : Nat) : Triple a (a + 1) (rhspre R) fun _ => True := by
  refine Triple.bind Triple.get fun st hst => ?_
  split
  · exact Triple.throw
  · rename_i l hl
    refine Triple.bind_true (keeps_indent a) fun _ => ?_
    refine Triple.bind_true (Triple.emit ?_) fun _ => Triple.modify (fun _ h => ⟨h.1, h.2⟩) fun _ => rfl
    have e : ∀ d, braceDepth d " \x7b\n".data = some (d + 1) := fun _ => rfl
    simp only [String.data_append, braceDepth_append, (show NoBraces "pdl.rewrite " by decide).braceDepth,
      (noBraces_of_lookup hst.symbols hl).braceDepth, e, Option.some_bind]

/-- The replacement closes it. -/
theorem rhspost_closes (a : Nat) : Triple (a + 1) a (rhspost R) fun _ => True := by
  refine Triple.bind Triple.get fun st hst => ?_
  split
  · exact Triple.throw
  · exact Triple.throw
  · rename_i l r hl hr
    have hl' := noBraces_of_lookup hst.symbols hl
    have hr' := noBraces_of_lookup hst.symbols hr
    refine Triple.bind_true (keeps_indent _) fun _ => ?_
    refine Triple.bind_true (Keeps.emit (by simp only [noBraces_append]; exact ⟨⟨by decide, hl'⟩, by decide⟩) _)
      fun _ => ?_
    refine Triple.bind_true (keeps_charAt r 1 _) fun _ => ?_
    lift_lets
    extract_lets jp
    have hjp : ∀ y, Triple (a + 1) a (jp y) fun _ => True := fun _ =>
      Triple.bind_true (Triple.modify (fun _ h => ⟨h.1, h.2⟩) fun _ => rfl) fun _ =>
        Triple.bind_true (keeps_indent _) fun _ => Triple.emit rfl
    clear_value jp
    split
    · exact Triple.bind_true (Keeps.emit (by simp only [noBraces_append]; exact ⟨⟨by decide, hr'⟩, by decide⟩) _) hjp
    · exact Triple.bind_true (Keeps.emit (noBraces_append.mpr ⟨hr', by decide⟩) _) hjp

/-- A pattern writes balanced text: the rewrite's block inside the pattern's. -/
theorem keeps_pattern (hname : NoBraces name)
    (hvars : ∀ v ∈ findVars ic R.mapping.lhs, NoBraces (ic.get v).name) :
    Keeps (pattern ic R name benefit bitmask) fun _ => True := fun a =>
  Triple.bind_true (pre_opens ic R name benefit bitmask hname hvars a) fun _ =>
    Triple.bind_true (Triple.modify (fun _ h => ⟨h.1, h.2⟩) fun _ => rfl) fun _ =>
      Triple.bind_true (keeps_printInsts ic bitmask _ _ _) fun _ =>
        Triple.bind_true (Triple.modify (fun _ h => ⟨h.1, h.2⟩) fun _ => rfl) fun _ =>
          Triple.bind_true (rhspre_opens R _) fun _ =>
            Triple.bind_true (keeps_printInsts ic bitmask _ _ _) fun _ =>
              Triple.bind_true (rhspost_closes R _) fun _ => Triple.emit rfl

/-- From a state whose names have no brace and whose text is empty, a computation that keeps the
depth writes balanced text. -/
theorem Keeps.run_balanced {α : Type} {m : PdlM α} {Q : α → Prop} (h : Keeps m Q) {st : PdlState}
    (hst : Unbraced st) (hout : st.out = "") :
    OkThen (m.run st) fun p => Unbraced p.2 ∧ Balanced p.2.out := by
  rintro ⟨x, st'⟩ hr
  obtain ⟨_, hst', d, hd, hb⟩ := h 0 st x st' hst hr
  rw [hout, String.empty_append] at hd
  exact ⟨hst', hd ▸ hb⟩

theorem generate_balanced (hname : NoBraces name)
    (hvars : ∀ v ∈ findVars ic R.mapping.lhs, NoBraces (ic.get v).name) :
    OkThen (generate ic R name benefit) Balanced := by
  unfold generate
  dsimp only
  split
  · exact OkThen.error _
  · rw [pure_bind]
    refine OkThen.bind (OkThen.foldlM (fun acc : PdlState × String => Unbraced acc.1 ∧ Balanced acc.2)
      ?_ _ ?_) fun r hr => OkThen.ok hr.2
    · -- each pattern is written from an empty text; only the symbol table carries over
      rintro ⟨st, out⟩ bitmask _ ⟨hst, hout⟩
      refine OkThen.bind (Keeps.run_balanced (keeps_pattern ic R name benefit bitmask hname hvars)
        ⟨hst.1, hst.2⟩ rfl) fun p hp => OkThen.ok ⟨⟨hp.1.1, ?_⟩, hout.append hp.2⟩
      exact fun _ h => absurd h (List.not_mem_nil _)
    · exact ⟨⟨fun _ h => absurd h (List.not_mem_nil _), fun _ h => absurd h (List.not_mem_nil _)⟩, rfl⟩

end Methods

/-- `x - 0 ⇒ x` at width 8: no commutative operation, so one pattern. -/
def subZeroIc : InstContext := ⟨[.var 8 "x", .const (.ofNat 8 0), .op .sub 8 [0, 1]]⟩

def subZeroRule : ParsedReplacement := ⟨⟨2, 0⟩, [], []⟩

set_option maxRecDepth 8000 in
theorem generate_balanced_subZero :
    NoBraces "subZero" ∧
    (∀ v ∈ findVars subZeroIc subZeroRule.mapping.lhs, NoBraces (subZeroIc.get v).name) ∧
    (generate subZeroIc subZeroRule "subZero" 0).isOk = true ∧
    OkThen (generate subZeroIc subZeroRule "subZero" 0) Balanced :=
  ⟨by decide, by decide, by decide,
    generate_balanced subZeroIc subZeroRule "subZero" 0 (by decide) (by decide)⟩

end Souper.Pdl
