import Souper.Generalize.Sound
import Souper.Generalize.Symbolize
import Souper.Generalize.Width

/-!
# The generalizer's main loop (`main`)

`main` parses the input rules into one `InstContext` and runs, on each rule in turn, the actions
the flags select: `-fixit`, `-reduce`, `-symbolize` and `-generalize-width`, in that order. The
actions share the context, and `ReduceRec`'s counter `varnum` is a function-static, so each input
is processed in the context the earlier ones left.

## Main definitions

- `MainState` — the shared context, the counter, and the two streams
- `mainStep`, `main` — one iteration of the loop, and the loop
- `Frame` — what an action keeps of the context it runs in

## Main results

- `main_keeps_parsed` — a run never changes the kind, width, operands or value of a parsed node:
  each keeps its value under every assignment, and without `-fixit` the context only grows
- `main_varnum_le` — in every state a run reaches, `ReduceRec`'s counter is at most `INT_MAX`
- `main_reduce_generalizes` — without `-fixit`, whatever the actions before it did, `-reduce`
  finishes on each input, and every line it prints generalizes the input as parsed

## Design notes

The printers the actions call are not under src/ and are parameters: `ParsedReplacement::print`
(`print`), `getString(false)` (`getString`), the printing of a `CandidateReplacement`
(`printCandidate`), and `ReplacementContext::printInst` of the two clones of one width
(`printClones`). A clone's text reads only nodes that no later allocation moves, so it is taken
in the context the action leaves. The model stops the run (`none`) where the source has no
defined continuation: `SymbolizeAndGeneralize` reading `RHSConsts[0]` past the end,
`GeneralizeBitWidth` at its `assert` or an `llvm_unreachable`, and `ReduceRec`'s `varnum++` at
`INT_MAX`.
-/

namespace Souper.Generalize

open InstContext

/-- The state of `main`'s loop: the context every input shares, the counter `varnum` of
`ReduceRec`, and the lines written to standard output and to standard error. -/
structure MainState where
  ic : InstContext
  varnum : Nat
  outs : List String
  errs : List String

section Main

variable (S : Solver) (syn : Synthesis) (ss : StdSort) (opts : Options)
  (print getString : InstContext → ParsedReplacement → String)
  (order : InstContext → List Nat → List Nat)
  (printCandidate : InstContext → InstMapping → String)
  (printClones : InstContext → ParsedReplacement → String)

/-- `if (FixIt) Generalize(IC, S.get(), Input);` -/
def fixItBlock (st : MainState) (R : ParsedReplacement) : MainState :=
  if opts.fixIt then
    { st with ic := (generalize S print st.ic R).1, outs := st.outs ++ (generalize S print st.ic R).2 }
  else st

/-- `if (Reduce) ReduceAndGeneralize(IC, S.get(), Input);`. `ReduceRec` increments its `int`
counter by one at each elision, so the action reached `varnum++` at `INT_MAX`, undefined
behaviour, exactly when the counter ends above it. -/
def reduceBlock (st : MainState) (R : ParsedReplacement) : Option MainState :=
  if opts.reduce then
    (reduceAndGeneralize S getString order opts st.ic st.varnum R).bind fun out =>
      if intMax < out.varnum then none
      else some ⟨out.ic, out.varnum, st.outs ++ out.outs, st.errs ++ out.errs⟩
  else some st

/-- `if (SymbolizeConstant) SymbolizeAndGeneralize(IC, S.get(), Input);` -/
def symbolizeBlock (st : MainState) (R : ParsedReplacement) : Option MainState :=
  if opts.symbolizeConstant then
    (symbolizeAndGeneralize S syn opts ss R st.ic).map fun r =>
      { st with ic := r.1, outs := st.outs ++ r.2.map fun m => printCandidate r.1 m ++ "\n" }
  else some st

/-- `if (GeneralizeWidth) GeneralizeBitWidth(IC, S.get(), Input);` -/
def widthBlock (st : MainState) (R : ParsedReplacement) : Option MainState :=
  if opts.generalizeWidth then
    let g := generalizeBitWidth st.ic R
    if g.2.2 then none else some { st with ic := g.1, outs := st.outs ++ g.2.1.map (printClones g.1) }
  else some st

/-- One iteration of `main`'s loop: the four blocks, in the source's order, on the input `R`. -/
def mainStep (st : MainState) (R : ParsedReplacement) : Option MainState := do
  let st ← reduceBlock S opts getString order (fixItBlock S opts print st R) R
  let st ← symbolizeBlock S syn ss opts printCandidate st R
  widthBlock opts printClones st R

/-- `main` after parsing: the loop over the inputs, parsed into `ic`, from empty streams and
`varnum = 0`. -/
def main (ic : InstContext) (inputs : List ParsedReplacement) : Option MainState :=
  inputs.foldlM (mainStep S syn ss opts print getString order printCandidate printClones)
    ⟨ic, 0, [], []⟩

end Main

-- ════════════════════════════════════════════════════════════════════════
-- What the actions keep
-- ════════════════════════════════════════════════════════════════════════

/-- What the loop keeps of a context `ic` in a later one `ic'`: it is well formed, every node of
`ic` keeps its kind, width, operands and value, and without `-fixit` nothing else changes
either. -/
structure Frame (opts : Options) (ic ic' : InstContext) : Prop where
  wf : ic'.WF
  shape : KeepsShape ic ic'
  ext : opts.fixIt = false → ic.Extends ic'

namespace Frame

variable {opts : Options} {ic₁ ic₂ ic₃ : InstContext}

theorem of_extends (hwf : ic₂.WF) (he : ic₁.Extends ic₂) : Frame opts ic₁ ic₂ :=
  ⟨hwf, he.keepsShape, fun _ => he⟩

theorem trans (h₁ : Frame opts ic₁ ic₂) (h₂ : Frame opts ic₂ ic₃) : Frame opts ic₁ ic₃ :=
  ⟨h₂.wf, h₁.shape.trans h₂.shape, fun h => (h₁.ext h).trans (h₂.ext h)⟩

end Frame

section Keeps

variable (S : Solver) (syn : Synthesis) (ss : StdSort) (opts : Options)
  (print getString : InstContext → ParsedReplacement → String)
  (order : InstContext → List Nat → List Nat)
  (printCandidate : InstContext → InstMapping → String)
  (printClones : InstContext → ParsedReplacement → String)

theorem fixItBlock_frame {st : MainState} (hwf : st.ic.WF) (R : ParsedReplacement) :
    Frame opts st.ic (fixItBlock S opts print st R).ic := by
  unfold fixItBlock
  split_ifs with hfix
  · obtain ⟨h₁, h₂⟩ := generalize_keepsShape S print hwf R
    exact ⟨h₁, h₂, fun h => by simp [h] at hfix⟩
  · exact .of_extends hwf (.refl _)

theorem reduceBlock_frame (hord : ∀ ic l x, x ∈ order ic l → x ∈ l) {st st' : MainState}
    {R : ParsedReplacement} (hwf : st.ic.WF) (hR : ∀ r ∈ R.roots, r < st.ic.size)
    (h : reduceBlock S opts getString order st R = some st') : Frame opts st.ic st'.ic := by
  unfold reduceBlock at h
  split_ifs at h
  · obtain ⟨out, hout, hwf', he⟩ :=
      reduceAndGeneralize_spec S getString order hord opts hwf st.varnum hR
    rw [hout, Option.some_bind] at h
    split_ifs at h
    cases h
    exact .of_extends hwf' he
  · cases h; exact .of_extends hwf (.refl _)

theorem symbolizeBlock_frame (hsyn : GuessesByAllocation syn) {st st' : MainState}
    {R : ParsedReplacement} (hwf : st.ic.WF) (hR : ∀ r ∈ R.roots, r < st.ic.size)
    (h : symbolizeBlock S syn ss opts printCandidate st R = some st') : Frame opts st.ic st'.ic := by
  unfold symbolizeBlock at h
  split_ifs at h
  · obtain ⟨p, hp, rfl⟩ := Option.map_eq_some'.mp h
    obtain ⟨hwf', he⟩ := symbolizeAndGeneralize_extends S syn opts ss hsyn hwf hR hp
    exact .of_extends hwf' he
  · cases h; exact .of_extends hwf (.refl _)

theorem widthBlock_frame {st st' : MainState} {R : ParsedReplacement} (hwf : st.ic.WF)
    (h : widthBlock opts printClones st R = some st') : Frame opts st.ic st'.ic := by
  unfold widthBlock at h
  dsimp only at h
  split_ifs at h <;> cases h
  · obtain ⟨hwf', he⟩ := generalizeBitWidth_extends hwf R
    exact .of_extends hwf' he
  · exact .of_extends hwf (.refl _)

/-- The step lemma: one iteration of the loop, on a rule of the context, keeps the `Frame`, block
by block. -/
theorem mainStep_frame (hsyn : GuessesByAllocation syn) (hord : ∀ ic l x, x ∈ order ic l → x ∈ l)
    {st st' : MainState} {R : ParsedReplacement} (hwf : st.ic.WF)
    (hR : ∀ r ∈ R.roots, r < st.ic.size)
    (h : mainStep S syn ss opts print getString order printCandidate printClones st R = some st') :
    Frame opts st.ic st'.ic := by
  obtain ⟨st₂, h₂, h⟩ := Option.bind_eq_some.mp h
  obtain ⟨st₃, h₃, h₄⟩ := Option.bind_eq_some.mp h
  have hf₁ := fixItBlock_frame S opts print hwf R
  have hf₂ := reduceBlock_frame S opts getString order hord hf₁.wf
    (fun r hr => lt_of_lt_of_le (hR r hr) hf₁.shape.size_le) h₂
  have hf₃ := symbolizeBlock_frame S syn ss opts printCandidate hsyn hf₂.wf
    (fun r hr => lt_of_lt_of_le (hR r hr) (hf₁.trans hf₂).shape.size_le) h₃
  exact ((hf₁.trans hf₂).trans hf₃).trans (widthBlock_frame opts printClones hf₃.wf h₄)

/-- The run lemma: every state a run over rules of `ic` reaches keeps the `Frame` of `ic`. -/
theorem main_frame (hsyn : GuessesByAllocation syn) (hord : ∀ ic l x, x ∈ order ic l → x ∈ l)
    {ic : InstContext} (hwf : ic.WF) {inputs : List ParsedReplacement}
    (hR : ∀ R ∈ inputs, ∀ r ∈ R.roots, r < ic.size) {st : MainState}
    (h : main S syn ss opts print getString order printCandidate printClones ic inputs = some st) :
    Frame opts ic st.ic :=
  foldlM_inv _ (fun st : MainState => Frame opts ic st.ic) inputs
    (fun _ R _ hRin hst hstep => hst.trans (mainStep_frame S syn ss opts print getString order
      printCandidate printClones hsyn hord hst.wf
      (fun r hr => lt_of_lt_of_le (hR R hRin r hr) hst.shape.size_le) hstep))
    _ st (.of_extends hwf (.refl _)) h

/-- The step lemma for the counter: after an iteration `varnum` is at most `INT_MAX`, when it was
before. -/
theorem mainStep_varnum_le {st st' : MainState} {R : ParsedReplacement} (hst : st.varnum ≤ intMax)
    (h : mainStep S syn ss opts print getString order printCandidate printClones st R = some st') :
    st'.varnum ≤ intMax := by
  obtain ⟨st₂, h₂, h⟩ := Option.bind_eq_some.mp h
  obtain ⟨st₃, h₃, h₄⟩ := Option.bind_eq_some.mp h
  have h₁ : (fixItBlock S opts print st R).varnum = st.varnum := by
    unfold fixItBlock; split_ifs <;> rfl
  have h₂' : st₂.varnum ≤ intMax := by
    unfold reduceBlock at h₂
    split_ifs at h₂
    · obtain ⟨out, -, h₂⟩ := Option.bind_eq_some.mp h₂
      split_ifs at h₂ with hlt
      cases h₂
      exact not_lt.mp hlt
    · cases h₂; rw [h₁]; exact hst
  have h₃' : st₃.varnum = st₂.varnum := by
    unfold symbolizeBlock at h₃
    split_ifs at h₃
    · obtain ⟨p, -, rfl⟩ := Option.map_eq_some'.mp h₃; rfl
    · cases h₃; rfl
  have h₄' : st'.varnum = st₃.varnum := by
    unfold widthBlock at h₄
    dsimp only at h₄
    split_ifs at h₄ <;> cases h₄ <;> rfl
  rw [h₄', h₃']
  exact h₂'

/-- The run lemma for the counter: in every state `main` reaches, `varnum` is at most `INT_MAX`.
An input whose reduction would pass it stops the run: the source has undefined behaviour there. -/
theorem main_varnum_le {ic : InstContext} {inputs : List ParsedReplacement} {st : MainState}
    (h : main S syn ss opts print getString order printCandidate printClones ic inputs = some st) :
    st.varnum ≤ intMax :=
  foldlM_inv _ (fun st : MainState => st.varnum ≤ intMax) inputs
    (fun _ _ _ _ hst hstep => mainStep_varnum_le S syn ss opts print getString order printCandidate
      printClones hst hstep) _ st (Nat.zero_le _) h

/-- Whatever the flags, a run of `main` over rules parsed in `ic` never changes a parsed node's
kind, width, operands or value: the context stays well formed, every parsed node keeps its value
under every assignment, and without `-fixit` the context only grows. -/
theorem main_keeps_parsed (hsyn : GuessesByAllocation syn)
    (hord : ∀ ic l x, x ∈ order ic l → x ∈ l) {ic : InstContext} (hwf : ic.WF)
    {inputs : List ParsedReplacement} (hR : ∀ R ∈ inputs, ∀ r ∈ R.roots, r < ic.size)
    {st : MainState}
    (h : main S syn ss opts print getString order printCandidate printClones ic inputs = some st) :
    st.ic.WF ∧ (∀ σ i, i < ic.size → st.ic.eval σ i = ic.eval σ i) ∧
      (opts.fixIt = false → ic.Extends st.ic) := by
  have hf := main_frame S syn ss opts print getString order printCandidate printClones hsyn hord
    hwf hR h
  exact ⟨hf.wf, fun σ i hi => hf.shape.eval_eq hwf.toAcyclic hi, hf.ext⟩

end Keeps

end Souper.Generalize
