import Mathlib.Data.Nat.Digits
import Souper.Infix.Printer

/-!
# The Go rule printer (`GoPrinter`)

`GoPrinter` writes a rule for a rule generator in Go: its path conditions joined by `&&`, then
`|=`, then `LHS -> RHS`. Each instruction is an S-expression: an operation is `(`, its kind name,
a blank, each operand followed by a blank, and `)`; a constant is its unsigned value in decimal;
a variable is its name and its facts. The printer keeps no state: a node shared by several
operands is printed once per use.

## Main definitions

- `GoEnv` — what the printer reads from outside src/
- `printInst` — `GoPrinter::printInst`
- `printPC`, `goPrint` — `GoPrinter::operator()`
- `Term`, `PCTerm`, `RuleTerm` — what the printed text conveys of a node, a path condition and a
  rule; `unfold`, `unfoldPC`, `unfoldRule` compute them, `render`, `renderPC`, `renderRule`
  write them
- `Word`, `VarWord`, `Plain` — the texts a reader can delimit

## Main results

- `printInst_eq_render`, `goPrint_eq_render` — printing is rendering what the node or the rule
  unfolds to
- `render_append_inj`, `renderPC_append_inj` — a rendered tree or path condition followed by a
  blank ends where it ends
- `printInst_injective` — the text of a node determines the tree it unfolds to
- `goPrint_injective` — the text of a rule determines its path conditions, LHS and RHS

## Design notes

Both injectivity results need the kind names to be distinct words and every variable to print as
a word that does not start with a digit. A variable's name is printed as it is, where the infix
printer puts `x` before a leading digit: a variable named `0` prints as the constant `0` does. A
fact is printed after the name with a blank before it, so a variable with facts is not a word.
No width is printed, and neither are the block path conditions: rules that differ only there
print the same text, and the trees have no widths.
-/

namespace Souper.Go

open InstContext

-- ════════════════════════════════════════════════════════════════════════
-- Decimal numerals
-- ════════════════════════════════════════════════════════════════════════

/-- The value of a numeral read back digit by digit. -/
def decimalValue (ds : List Char) : Nat := ds.foldl (fun n c => 10 * n + (c.toNat - 48)) 0

theorem decimalValue_append_singleton (ds : List Char) (c : Char) :
    decimalValue (ds ++ [c]) = 10 * decimalValue ds + (c.toNat - 48) := by
  simp [decimalValue]

theorem digitChar_spec {k : Nat} (hk : k < 10) :
    (Nat.digitChar k).isDigit = true ∧ (Nat.digitChar k).toUpper = Nat.digitChar k ∧
      (Nat.digitChar k).toNat - 48 = k := by
  interval_cases k <;> decide

theorem toDigitsCore_append (b : Nat) : ∀ f n ds,
    Nat.toDigitsCore b f n ds = Nat.toDigitsCore b f n [] ++ ds
  | 0, _, _ => rfl
  | f + 1, n, ds => by
    simp only [Nat.toDigitsCore]
    split
    · rfl
    · rw [toDigitsCore_append b f _ (_ :: ds), toDigitsCore_append b f _ [_]]
      simp

theorem toDigitsCore_fuel : ∀ f g n ds, n < f → n < g →
    Nat.toDigitsCore 10 f n ds = Nat.toDigitsCore 10 g n ds
  | 0, _, _, _, h, _ => absurd h (Nat.not_lt_zero _)
  | _ + 1, 0, _, _, _, h => absurd h (Nat.not_lt_zero _)
  | f + 1, g + 1, n, ds, hf, hg => by
    simp only [Nat.toDigitsCore]
    split
    · rfl
    · exact toDigitsCore_fuel f g _ _ (by omega) (by omega)

/-- The last digit comes off the end. -/
theorem toDigits_eq (n : Nat) : Nat.toDigits 10 n =
    (if n < 10 then [] else Nat.toDigits 10 (n / 10)) ++ [Nat.digitChar (n % 10)] := by
  rw [Nat.toDigits, Nat.toDigitsCore]
  by_cases hn : n < 10
  · simp [hn, Nat.div_eq_of_lt hn]
  · have h₁ : n / 10 ≠ 0 := by omega
    simp only [h₁, if_false, hn]
    rw [toDigitsCore_append, toDigitsCore_fuel n (n / 10 + 1) _ _ (by omega) (by omega)]
    rfl

/-- A numeral reads back as the number it prints. -/
theorem decimalValue_toDigits (n : Nat) : decimalValue (Nat.toDigits 10 n) = n := by
  induction n using Nat.strong_induction_on with
  | _ n ih =>
    have hd := (digitChar_spec (Nat.mod_lt n (by decide : 10 > 0))).2.2
    rw [toDigits_eq, decimalValue_append_singleton, hd]
    split_ifs with hn
    · simp [decimalValue]; omega
    · rw [ih _ (by omega)]; omega

theorem toDigits_injective : Function.Injective (Nat.toDigits 10) := fun a b h => by
  rw [← decimalValue_toDigits a, h, decimalValue_toDigits]

/-- Every character of a numeral is a digit, which `toUpper` keeps. -/
theorem toDigits_digit (n : Nat) : ∀ c ∈ Nat.toDigits 10 n, c.isDigit = true ∧ c.toUpper = c := by
  induction n using Nat.strong_induction_on with
  | _ n ih =>
    intro c hc
    rw [toDigits_eq] at hc
    rcases List.mem_append.mp hc with hc | hc
    · split_ifs at hc with hn
      · cases hc
      · exact ih _ (by omega) c hc
    · rw [List.mem_singleton.mp hc]
      exact (digitChar_spec (Nat.mod_lt n (by decide))).imp_right And.left

theorem toDigits_head (n : Nat) : ∃ d ds, Nat.toDigits 10 n = d :: ds ∧ d.isDigit = true := by
  obtain ⟨d, ds, h⟩ := List.exists_cons_of_ne_nil
    (show Nat.toDigits 10 n ≠ [] by rw [toDigits_eq]; simp)
  exact ⟨d, ds, h, (toDigits_digit n d (h ▸ List.mem_cons_self d ds)).1⟩

theorem map_toUpper_toDigits (n : Nat) : (Nat.toDigits 10 n).map Char.toUpper = Nat.toDigits 10 n :=
  (List.map_congr_left fun c hc => (toDigits_digit n c hc).2).trans (List.map_id _)

-- ════════════════════════════════════════════════════════════════════════
-- The printer
-- ════════════════════════════════════════════════════════════════════════

/-- What `GoPrinter` reads from outside src/: the texts of `Inst::getKindName` and
`Inst::getKnownBitsString`. -/
structure GoEnv where
  getKindName : Kind → String
  getKnownBitsString : APInt → APInt → String

/-- A variable's printed name: `C` and the rest for a `symconst_`, otherwise the name itself. -/
def varName (n : String) : String :=
  if n.startsWith "symconst_" then "C" ++ n.drop 9 else n

/-- The facts after a variable's name; a range bound prints unsigned, by `llvm::toString`. -/
def factsText (env : GoEnv) (V : Inst) : String :=
  (if V.knownZeros.toNat ≠ 0 ∨ V.knownOnes.toNat ≠ 0 then
    " (knownBits=" ++ env.getKnownBitsString V.knownZeros V.knownOnes ++ ")" else "") ++
  (if V.nonNegative then " (nonNegative)" else "") ++
  (if V.negative then " (negative)" else "") ++
  (if V.nonZero then " (nonZero)" else "") ++
  (if V.powOfTwo then " (powerOfTwo)" else "") ++
  (if 1 < V.numSignBits then " (signBits=" ++ toString V.numSignBits ++ ")" else "") ++
  (if !V.range.isFullSet then
    " (range=[" ++ Infix.toStringUnsigned 10 V.range.lower ++ "," ++
      Infix.toStringUnsigned 10 V.range.upper ++ "))" else "")

/-- The text of a variable: its printed name, then its facts. -/
def varText (env : GoEnv) (V : Inst) : String := varName V.name ++ factsText env V

section Print

variable (env : GoEnv) (ic : InstContext)

/-- `printInst`: a variable by its text, a constant in decimal, an operation as `(` its kind
name, a blank, each operand followed by a blank, and `)`. The recursion is bounded by `fuel`;
`I + 1` suffices in an acyclic context. -/
def printInst : Nat → Nat → Option String
  | 0, _ => none
  | fuel + 1, I =>
    let J := ic.get I
    if J.k = .var then some (varText env J)
    else if J.k = .const then some (Infix.toStringUnsigned 10 J.val)
    else do
      let parts ← J.ops.mapM (printInst fuel)
      pure ("(" ++ env.getKindName J.k ++ " " ++ String.join (parts.map (· ++ " ")) ++ ")")

/-- One path condition: negated when it is compared with 0, alone when compared with 1, and
otherwise an `=` of its two sides. -/
def printPC (pc : InstMapping) : Option String := do
  let l ← printInst env ic (pc.lhs + 1) pc.lhs
  if (ic.get pc.rhs).k = .const ∧ (ic.get pc.rhs).val.toNat = 0 then pure ("!(" ++ l ++ ")")
  else if (ic.get pc.rhs).k = .const ∧ (ic.get pc.rhs).val.toNat = 1 then pure l
  else pure ("(= " ++ l ++ " " ++ (← printInst env ic (pc.rhs + 1) pc.rhs) ++ ")")

/-- `GoPrinter::operator()`: the path conditions joined by `&&`, `|=` when there is one, and
`LHS -> RHS`. -/
def goPrint (R : ParsedReplacement) : Option String := do
  let pcs ← R.pcs.mapM (printPC env ic)
  let lhs ← printInst env ic (R.mapping.lhs + 1) R.mapping.lhs
  let rhs ← printInst env ic (R.mapping.rhs + 1) R.mapping.rhs
  pure (" && \n".intercalate pcs ++ (if R.pcs.isEmpty then "" else " |= ") ++ lhs ++ " -> " ++
    rhs ++ "\n\n")

end Print

section Equations

variable {env : GoEnv} {ic : InstContext} {fuel I : Nat}

theorem printInst_var (h : (ic.get I).k = .var) :
    printInst env ic (fuel + 1) I = some (varText env (ic.get I)) := by
  simp only [printInst, h, if_true]

theorem printInst_const (hv : (ic.get I).k ≠ .var) (h : (ic.get I).k = .const) :
    printInst env ic (fuel + 1) I = some (Infix.toStringUnsigned 10 (ic.get I).val) := by
  rw [printInst, if_neg hv, if_pos h]

theorem printInst_op (hv : (ic.get I).k ≠ .var) (hc : (ic.get I).k ≠ .const) :
    printInst env ic (fuel + 1) I = ((ic.get I).ops.mapM (printInst env ic fuel)).map fun parts =>
      "(" ++ env.getKindName (ic.get I).k ++ " " ++ String.join (parts.map (· ++ " ")) ++ ")" := by
  simp only [printInst, hv, hc, if_false]
  cases (ic.get I).ops.mapM (printInst env ic fuel) <;> rfl

end Equations

-- ════════════════════════════════════════════════════════════════════════
-- What the text conveys
-- ════════════════════════════════════════════════════════════════════════

/-- The tree a node unfolds to, as far as the printed text conveys it: an operation by its kind
and operands, a constant by its unsigned value, a variable by its text. -/
inductive Term where
  | var (text : String)
  | const (value : Nat)
  | op (K : Kind) (args : List Term)

/-- A path condition as the printed text conveys it. -/
inductive PCTerm where
  /-- Compared with 0: `!(l)`. -/
  | neg (l : Term)
  /-- Compared with 1: `l` alone. -/
  | holds (l : Term)
  /-- Compared with anything else: `(= l r)`. -/
  | eq (l r : Term)

/-- A rule as the printed text conveys it. -/
structure RuleTerm where
  pcs : List PCTerm
  lhs : Term
  rhs : Term

section Unfold

variable (env : GoEnv) (ic : InstContext)

/-- The tree of node `I`, with the recursion of `printInst`. -/
def unfold : Nat → Nat → Option Term
  | 0, _ => none
  | fuel + 1, I =>
    let J := ic.get I
    if J.k = .var then some (.var (varText env J))
    else if J.k = .const then some (.const J.val.toNat)
    else (J.ops.mapM (unfold fuel)).map (.op J.k)

/-- The tree of a path condition, with the branches of `printPC`. -/
def unfoldPC (pc : InstMapping) : Option PCTerm := do
  let l ← unfold env ic (pc.lhs + 1) pc.lhs
  if (ic.get pc.rhs).k = .const ∧ (ic.get pc.rhs).val.toNat = 0 then pure (.neg l)
  else if (ic.get pc.rhs).k = .const ∧ (ic.get pc.rhs).val.toNat = 1 then pure (.holds l)
  else (unfold env ic (pc.rhs + 1) pc.rhs).map (.eq l)

/-- The trees of a rule, in the order of `goPrint`. -/
def unfoldRule (R : ParsedReplacement) : Option RuleTerm := do
  let pcs ← R.pcs.mapM (unfoldPC env ic)
  let l ← unfold env ic (R.mapping.lhs + 1) R.mapping.lhs
  let r ← unfold env ic (R.mapping.rhs + 1) R.mapping.rhs
  pure ⟨pcs, l, r⟩

end Unfold

section UnfoldEquations

variable {env : GoEnv} {ic : InstContext} {fuel I : Nat}

theorem unfold_var (h : (ic.get I).k = .var) :
    unfold env ic (fuel + 1) I = some (.var (varText env (ic.get I))) := by
  simp only [unfold, h, if_true]

theorem unfold_const (hv : (ic.get I).k ≠ .var) (h : (ic.get I).k = .const) :
    unfold env ic (fuel + 1) I = some (.const (ic.get I).val.toNat) := by
  rw [unfold, if_neg hv, if_pos h]

theorem unfold_op (hv : (ic.get I).k ≠ .var) (hc : (ic.get I).k ≠ .const) :
    unfold env ic (fuel + 1) I = ((ic.get I).ops.mapM (unfold env ic fuel)).map (.op (ic.get I).k) := by
  simp only [unfold, hv, hc, if_false]

end UnfoldEquations

section Render

variable (kn : Kind → String)

mutual
/-- The text of a tree, as characters. -/
def render : Term → List Char
  | .var t => t.data
  | .const v => Nat.toDigits 10 v
  | .op K args => '(' :: (kn K).data ++ ' ' :: renderArgs args ++ [')']

/-- The operands of an operation, each followed by a blank. -/
def renderArgs : List Term → List Char
  | [] => []
  | a :: as => render a ++ ' ' :: renderArgs as
end

@[simp] theorem render_var (t : String) : render kn (.var t) = t.data := by rw [render]
@[simp] theorem render_const (v : Nat) : render kn (.const v) = Nat.toDigits 10 v := by
  rw [render]
@[simp] theorem render_op (K : Kind) (args : List Term) : render kn (.op K args) =
    '(' :: (kn K).data ++ ' ' :: renderArgs kn args ++ [')'] := by rw [render]
@[simp] theorem renderArgs_nil : renderArgs kn [] = [] := by rw [renderArgs]
@[simp] theorem renderArgs_cons (a : Term) (as : List Term) :
    renderArgs kn (a :: as) = render kn a ++ ' ' :: renderArgs kn as := by
  rw [renderArgs]

/-- The text of a path condition. -/
def renderPC : PCTerm → List Char
  | .neg l => '!' :: '(' :: render kn l ++ [')']
  | .holds l => render kn l
  | .eq l r => '(' :: '=' :: ' ' :: render kn l ++ ' ' :: render kn r ++ [')']

/-- Path conditions joined by `&&` and a line break. -/
def renderPCs : List PCTerm → List Char
  | [] => []
  | [p] => renderPC kn p
  | p :: q :: ps => renderPC kn p ++ [' ', '&', '&', ' ', '\n'] ++ renderPCs (q :: ps)

/-- The text of a rule: its path conditions and `|=` when there is one, then `LHS -> RHS` and
a blank line. -/
def renderRule (R : RuleTerm) : List Char :=
  renderPCs kn R.pcs ++ (if R.pcs.isEmpty then [] else [' ', '|', '=', ' ']) ++ render kn R.lhs ++
    [' ', '-', '>', ' '] ++ render kn R.rhs ++ ['\n', '\n']

/-- The text after the first path condition. -/
theorem renderRule_cons (p : PCTerm) (ps : List PCTerm) (l r : Term) :
    renderRule kn ⟨p :: ps, l, r⟩ = renderPC kn p ++ ' ' ::
      ((if ps.isEmpty then ['|', '=', ' '] else ['&', '&', ' ', '\n']) ++ renderRule kn ⟨ps, l, r⟩) := by
  cases ps <;> simp [renderRule, renderPCs]

end Render

-- ════════════════════════════════════════════════════════════════════════
-- Printing is rendering
-- ════════════════════════════════════════════════════════════════════════

theorem mapM_map_option {α β γ : Type} (g : α → Option β) (h : β → γ) :
    ∀ l : List α, l.mapM (fun a => (g a).map h) = (l.mapM g).map (List.map h)
  | [] => rfl
  | a :: l => by
    simp only [List.mapM_cons, mapM_map_option g h l]
    cases g a <;> cases l.mapM g <;> rfl

theorem exists_mem_of_mapM_eq_some {α β : Type} {g : α → Option β} :
    ∀ {l : List α} {bs : List β}, l.mapM g = some bs → ∀ b ∈ bs, ∃ a ∈ l, g a = some b
  | [], _, h, b, hb => by cases h; cases hb
  | a :: l, bs, h, b, hb => by
    simp only [List.mapM_cons, Option.bind_eq_bind, Option.bind_eq_some, Option.pure_def,
      Option.some.injEq] at h
    obtain ⟨x, ha, xs, hl, rfl⟩ := h
    rcases List.mem_cons.mp hb with rfl | hb
    · exact ⟨a, List.mem_cons_self _ _, ha⟩
    · obtain ⟨a', ha', hga⟩ := exists_mem_of_mapM_eq_some hl b hb
      exact ⟨a', List.mem_cons_of_mem _ ha', hga⟩

theorem length_eq_of_mapM_eq_some {α β : Type} {g : α → Option β} :
    ∀ {l : List α} {bs : List β}, l.mapM g = some bs → bs.length = l.length
  | [], _, h => by cases h; rfl
  | a :: l, bs, h => by
    simp only [List.mapM_cons, Option.bind_eq_bind, Option.bind_eq_some, Option.pure_def,
      Option.some.injEq] at h
    obtain ⟨x, -, xs, hl, rfl⟩ := h
    simp [length_eq_of_mapM_eq_some hl]

theorem data_join_render (kn : Kind → String) : ∀ (ts : List Term) (acc : String),
    (((ts.map fun t => (⟨render kn t⟩ : String)).map (· ++ " ")).foldl (· ++ ·) acc).data =
      acc.data ++ renderArgs kn ts
  | [], acc => by simp
  | t :: ts, acc => by
    rw [List.map_cons, List.map_cons, List.foldl_cons, data_join_render kn ts]
    simp

theorem intercalate_go_append (sep : String) : ∀ (l : List String) (a b : String),
    String.intercalate.go (a ++ b) sep l = a ++ String.intercalate.go b sep l
  | [], _, _ => rfl
  | x :: l, a, b => by
    simp only [String.intercalate.go, String.append_assoc]
    exact intercalate_go_append sep l a (b ++ (sep ++ x))

theorem intercalate_cons_cons (sep a b : String) (l : List String) :
    sep.intercalate (a :: b :: l) = a ++ sep ++ sep.intercalate (b :: l) := by
  simp only [String.intercalate, String.intercalate.go]
  rw [String.append_assoc, intercalate_go_append, intercalate_go_append, String.append_assoc]

theorem data_intercalate_renderPC (kn : Kind → String) : ∀ ps : List PCTerm,
    (" && \n".intercalate (ps.map fun p => ⟨renderPC kn p⟩)).data = renderPCs kn ps
  | [] => rfl
  | [_] => rfl
  | p :: q :: ps => by
    have ih := data_intercalate_renderPC kn (q :: ps)
    rw [List.map_cons] at ih
    rw [List.map_cons, List.map_cons, intercalate_cons_cons, String.data_append,
      String.data_append, ih]
    rfl

/-- Printing a node is rendering the tree it unfolds to. -/
theorem printInst_eq_render (env : GoEnv) (ic : InstContext) (fuel : Nat) : ∀ I,
    printInst env ic fuel I = (unfold env ic fuel I).map fun t => ⟨render env.getKindName t⟩ := by
  induction fuel with
  | zero => intro I; rfl
  | succ fuel ih =>
    intro I
    by_cases hv : (ic.get I).k = .var
    · rw [printInst_var hv, unfold_var hv, Option.map_some']
      simp only [render_var]
    by_cases hc : (ic.get I).k = .const
    · rw [printInst_const hv hc, unfold_const hv hc]
      exact congrArg some (String.ext (map_toUpper_toDigits _))
    rw [printInst_op hv hc, unfold_op hv hc, funext ih, mapM_map_option, Option.map_map,
      Option.map_map]
    congr 1
    funext ts
    refine String.ext ?_
    simp only [Function.comp_apply, String.join, data_join_render, String.data_append, render_op]
    simp

theorem printPC_eq_render (env : GoEnv) (ic : InstContext) (pc : InstMapping) :
    printPC env ic pc = (unfoldPC env ic pc).map fun p => ⟨renderPC env.getKindName p⟩ := by
  simp only [printPC, unfoldPC, printInst_eq_render]
  cases unfold env ic (pc.lhs + 1) pc.lhs with
  | none => rfl
  | some l =>
    simp only [Option.map_some', Option.bind_eq_bind, Option.some_bind]
    split_ifs
    · exact congrArg some (String.ext (by simp [renderPC]))
    · exact congrArg some (String.ext (by simp [renderPC]))
    · cases unfold env ic (pc.rhs + 1) pc.rhs with
      | none => rfl
      | some r => exact congrArg some (String.ext (by simp [renderPC]))

/-- Printing a rule is rendering the trees it unfolds to. -/
theorem goPrint_eq_render (env : GoEnv) (ic : InstContext) (R : ParsedReplacement) :
    goPrint env ic R = (unfoldRule env ic R).map fun RT => ⟨renderRule env.getKindName RT⟩ := by
  have hpcs : R.pcs.mapM (printPC env ic) = (R.pcs.mapM (unfoldPC env ic)).map
      (List.map fun p => ⟨renderPC env.getKindName p⟩) := by
    rw [← mapM_map_option, ← funext (printPC_eq_render env ic)]
  simp only [goPrint, unfoldRule, hpcs, printInst_eq_render]
  cases hps : R.pcs.mapM (unfoldPC env ic) with
  | none => rfl
  | some ps =>
    cases unfold env ic (R.mapping.lhs + 1) R.mapping.lhs with
    | none => rfl
    | some l =>
      cases unfold env ic (R.mapping.rhs + 1) R.mapping.rhs with
      | none => rfl
      | some r =>
        have he : R.pcs.isEmpty = ps.isEmpty := by
          rw [Bool.eq_iff_iff, List.isEmpty_iff, List.isEmpty_iff, ← List.length_eq_zero,
            ← List.length_eq_zero, length_eq_of_mapM_eq_some hps]
        refine congrArg some (String.ext ?_)
        simp only [renderRule, he, String.data_append, data_intercalate_renderPC]
        split <;> rfl

-- ════════════════════════════════════════════════════════════════════════
-- Reading the text back
-- ════════════════════════════════════════════════════════════════════════

/-- A word of the printed text: no blank and no parenthesis. -/
def Word (s : List Char) : Prop := ∀ c ∈ s, c ≠ ' ' ∧ c ≠ '(' ∧ c ≠ ')'

instance (s : List Char) : Decidable (Word s) := inferInstanceAs (Decidable (∀ c ∈ s, _))

/-- A variable's text that a reader cannot take for a numeral or for an operation: a word whose
first character is not a digit. -/
def VarWord (s : String) : Prop := Word s.data ∧ s.data.head?.any Char.isDigit = false

instance (s : String) : Decidable (VarWord s) := inferInstanceAs (Decidable (_ ∧ _))

/-- A tree whose variables print as `VarWord`s. -/
inductive Plain : Term → Prop
  | var {text : String} : VarWord text → Plain (.var text)
  | const (v : Nat) : Plain (.const v)
  | op (K : Kind) {args : List Term} : (∀ a ∈ args, Plain a) → Plain (.op K args)

/-- A path condition whose trees are plain. -/
def PCTerm.Plain : PCTerm → Prop
  | .neg l => Go.Plain l
  | .holds l => Go.Plain l
  | .eq l r => Go.Plain l ∧ Go.Plain r

/-- What follows a rendered tree: the blank after an operand, or the `)` that closes a path
condition. -/
def Follower (c : Char) : Prop := c = ' ' ∨ c = ')'

theorem append_cons_inj {c : Char} {s s' : List Char} : ∀ {x y : List Char}, c ∉ x → c ∉ y →
    x ++ c :: s = y ++ c :: s' → x = y ∧ s = s'
  | [], [], _, _, h => ⟨rfl, (List.cons.inj h).2⟩
  | [], _ :: _, _, hy, h => by
    obtain ⟨rfl, -⟩ := List.cons.inj h
    exact absurd (List.mem_cons_self _ _) hy
  | _ :: _, [], hx, _, h => by
    obtain ⟨rfl, -⟩ := List.cons.inj h
    exact absurd (List.mem_cons_self _ _) hx
  | a :: x, b :: y, hx, hy, h => by
    obtain ⟨rfl, ht⟩ := List.cons.inj h
    obtain ⟨rfl, rfl⟩ := append_cons_inj (List.not_mem_of_not_mem_cons hx)
      (List.not_mem_of_not_mem_cons hy) ht
    exact ⟨rfl, rfl⟩

theorem Follower.not_mem_word {c : Char} {s : List Char} (hc : Follower c) (hs : Word s) :
    c ∉ s := fun h => by
  rcases hc with rfl | rfl
  · exact (hs _ h).1 rfl
  · exact (hs _ h).2.2 rfl

theorem Follower.not_mem_toDigits {c : Char} (hc : Follower c) (n : Nat) : c ∉ Nat.toDigits 10 n :=
  fun h => by rcases hc with rfl | rfl <;> simpa using (toDigits_digit n _ h).1

theorem Follower.ne_open {c : Char} (hc : Follower c) : c ≠ '(' := by
  rcases hc with rfl | rfl <;> decide

/-- A word followed by anything but a parenthesis does not begin with that parenthesis. -/
theorem word_append_ne_paren {x : List Char} (hx : Word x) {c b : Char} (hcb : c ≠ b)
    (hb : b = '(' ∨ b = ')') (s r : List Char) : x ++ c :: s ≠ b :: r := fun h => by
  cases x with
  | nil => exact hcb (List.cons.inj h).1
  | cons a t =>
    have ha := hx a (List.mem_cons_self a t)
    rcases hb with rfl | rfl
    · exact ha.2.1 (List.cons.inj h).1
    · exact ha.2.2 (List.cons.inj h).1

/-- A numeral does not begin with anything but a digit. -/
theorem toDigits_append_ne {b : Char} (hb : b.isDigit = false) (v : Nat) (c : Char)
    (s r : List Char) : Nat.toDigits 10 v ++ c :: s ≠ b :: r := fun h => by
  obtain ⟨d, ds, hd, hdig⟩ := toDigits_head v
  rw [hd, List.cons_append] at h
  rw [(List.cons.inj h).1, hb] at hdig
  cases hdig

/-- A variable's text and a numeral never begin one string before the same follower. -/
theorem var_append_ne_const {x : String} (hx : VarWord x) {c : Char} (hc : Follower c) (v : Nat)
    (s s' : List Char) : x.data ++ c :: s ≠ Nat.toDigits 10 v ++ c :: s' := fun h => by
  obtain ⟨hxv, -⟩ := append_cons_inj (hc.not_mem_word hx.1) (hc.not_mem_toDigits v) h
  obtain ⟨d, ds, hd, hdig⟩ := toDigits_head v
  have h₂ := hx.2
  rw [hxv, hd] at h₂
  simp [hdig] at h₂

section Unique

variable {kn : Kind → String}

/-- A rendered tree followed by a blank does not begin with `)`. -/
theorem render_append_ne_close : ∀ {t : Term}, Plain t → ∀ r s : List Char,
    render kn t ++ ' ' :: r ≠ ')' :: s
  | _, .var hx, r, s => by
    rw [render_var]; exact word_append_ne_paren hx.1 (by decide) (.inr rfl) r s
  | _, .const v, r, s => by rw [render_const]; exact toDigits_append_ne (by decide) v _ r s
  | _, .op K _, r, s => by rw [render_op]; exact fun h => absurd (List.cons.inj h).1 (by decide)

/-- A rendered tree followed by a follower does not begin with `!(`. -/
theorem render_append_ne_neg {c : Char} (hc : Follower c) :
    ∀ {t : Term}, Plain t → ∀ s r : List Char, render kn t ++ c :: s ≠ '!' :: '(' :: r
  | .var x, .var hx, s, r => fun h => by
    rw [render_var] at h
    cases hxd : x.data with
    | nil =>
      rw [hxd] at h
      rcases hc with rfl | rfl <;> exact absurd (List.cons.inj h).1 (by decide)
    | cons a t =>
      rw [hxd, List.cons_append] at h
      exact word_append_ne_paren (fun b hb => hx.1 b (hxd ▸ List.mem_cons_of_mem a hb))
        hc.ne_open (.inl rfl) s r (List.cons.inj h).2
  | _, .const v, s, r => by rw [render_const]; exact toDigits_append_ne (by decide) v c s _
  | _, .op K _, s, r => by rw [render_op]; exact fun h => absurd (List.cons.inj h).1 (by decide)

/-- A rendered tree followed by a follower does not begin with `(= ` when no kind is named `=`. -/
theorem render_append_ne_eq (hw : ∀ K, Word (kn K).data) (heq : ∀ K, kn K ≠ "=") {c : Char}
    (hc : Follower c) : ∀ {t : Term}, Plain t → ∀ s r : List Char,
      render kn t ++ c :: s ≠ '(' :: '=' :: ' ' :: r
  | _, .var hx, s, r => by
    rw [render_var]; exact word_append_ne_paren hx.1 hc.ne_open (.inl rfl) s _
  | _, .const v, s, r => by rw [render_const]; exact toDigits_append_ne (by decide) v c s _
  | _, .op K _, s, r => fun h => by
    simp only [render_op, List.cons_append, List.append_assoc, List.cons.injEq, true_and] at h
    have hK := (append_cons_inj (Follower.not_mem_word (.inl rfl) (hw K))
      (by decide : ' ' ∉ ['=']) (h.trans List.singleton_append.symm)).1
    exact heq K (String.ext hK)

mutual
/-- A rendered tree followed by a blank or `)` ends where the tree ends: two such texts that
begin one string are the same tree, and what follows them is the same. -/
theorem render_append_inj (hinj : Function.Injective kn) (hw : ∀ K, Word (kn K).data) {c : Char}
    (hc : Follower c) : ∀ {t t' : Term} {s s' : List Char},
    Plain t → Plain t' → render kn t ++ c :: s = render kn t' ++ c :: s' → t = t' ∧ s = s'
  | .var x, .var y, _, _, .var hx, .var hy, h => by
    rw [render_var, render_var] at h
    obtain ⟨hxy, rfl⟩ := append_cons_inj (hc.not_mem_word hx.1) (hc.not_mem_word hy.1) h
    exact ⟨congrArg _ (String.ext hxy), rfl⟩
  | .var _, .const v, _, _, .var hx, _, h => absurd h (var_append_ne_const hx hc v _ _)
  | .const v, .var _, _, _, _, .var hy, h => absurd h.symm (var_append_ne_const hy hc v _ _)
  | .var _, .op _ _, _, _, .var hx, _, h => by
    rw [render_op, List.cons_append] at h
    exact absurd h (word_append_ne_paren hx.1 hc.ne_open (.inl rfl) _ _)
  | .op _ _, .var _, _, _, _, .var hy, h => by
    rw [render_op, List.cons_append] at h
    exact absurd h.symm (word_append_ne_paren hy.1 hc.ne_open (.inl rfl) _ _)
  | .const v, .const v', _, _, _, _, h => by
    obtain ⟨hvv, rfl⟩ := append_cons_inj (hc.not_mem_toDigits v) (hc.not_mem_toDigits v') h
    exact ⟨congrArg _ (toDigits_injective hvv), rfl⟩
  | .const v, .op _ _, _, _, _, _, h => by
    rw [render_op, List.cons_append] at h
    exact absurd h (toDigits_append_ne (by decide) v _ _ _)
  | .op _ _, .const v, _, _, _, _, h => by
    rw [render_op, List.cons_append] at h
    exact absurd h.symm (toDigits_append_ne (by decide) v _ _ _)
  | .op K as, .op K' as', _, _, .op _ ha, .op _ ha', h => by
    simp only [render_op, List.cons_append, List.nil_append, List.append_assoc, List.cons.injEq,
      true_and] at h
    obtain ⟨hK, hargs⟩ := append_cons_inj (Follower.not_mem_word (.inl rfl) (hw K))
      (Follower.not_mem_word (.inl rfl) (hw K')) h
    obtain rfl := hinj (String.ext hK)
    obtain ⟨rfl, hrest⟩ := renderArgs_append_inj hinj hw ha ha' hargs
    exact ⟨rfl, (List.cons.inj hrest).2⟩

/-- The operands of an operation, closed by `)`, end where the operands end. -/
theorem renderArgs_append_inj (hinj : Function.Injective kn) (hw : ∀ K, Word (kn K).data) :
    ∀ {as as' : List Term} {s s' : List Char},
    (∀ a ∈ as, Plain a) → (∀ a ∈ as', Plain a) →
      renderArgs kn as ++ ')' :: s = renderArgs kn as' ++ ')' :: s' → as = as' ∧ s = s'
  | [], [], _, _, _, _, h => ⟨rfl, (List.cons.inj h).2⟩
  | [], a :: _, _, _, _, ha, h => by
    rw [renderArgs_cons, List.append_assoc, List.cons_append] at h
    exact absurd h.symm (render_append_ne_close (ha a (List.mem_cons_self _ _)) _ _)
  | a :: _, [], _, _, ha, _, h => by
    rw [renderArgs_cons, List.append_assoc, List.cons_append] at h
    exact absurd h (render_append_ne_close (ha a (List.mem_cons_self _ _)) _ _)
  | a :: as, a' :: as', _, _, ha, ha', h => by
    simp only [renderArgs_cons, List.append_assoc, List.cons_append] at h
    obtain ⟨rfl, htail⟩ := render_append_inj hinj hw (.inl rfl) (ha a (List.mem_cons_self _ _))
      (ha' a' (List.mem_cons_self _ _)) h
    obtain ⟨rfl, rfl⟩ := renderArgs_append_inj hinj hw (fun b hb => ha b (List.mem_cons_of_mem _ hb))
      (fun b hb => ha' b (List.mem_cons_of_mem _ hb)) htail
    exact ⟨rfl, rfl⟩
end

end Unique

theorem renderRule_nil (kn : Kind → String) (l r : Term) : renderRule kn ⟨[], l, r⟩ =
    render kn l ++ ' ' :: '-' :: '>' :: ' ' :: (render kn r ++ ['\n', '\n']) := by
  simp [renderRule, renderPCs]

section Unique

variable {kn : Kind → String} (hinj : Function.Injective kn) (hw : ∀ K, Word (kn K).data)
  (heq : ∀ K, kn K ≠ "=")
include hinj hw

/-- A rendered tree is determined by its text. -/
theorem render_inj {t t' : Term} (ht : Plain t) (ht' : Plain t') (h : render kn t = render kn t') :
    t = t' :=
  (render_append_inj hinj hw (.inl rfl) ht ht' (congrArg (· ++ [' ']) h)).1

include heq

/-- A rendered path condition followed by a blank ends where the path condition ends. -/
theorem renderPC_append_inj : ∀ {p p' : PCTerm} {s s' : List Char}, p.Plain → p'.Plain →
    renderPC kn p ++ ' ' :: s = renderPC kn p' ++ ' ' :: s' → p = p' ∧ s = s'
  | .neg _, .neg _, _, _, hl, hl', h => by
    simp only [renderPC, List.cons_append, List.append_assoc, List.singleton_append,
      List.cons.injEq, true_and] at h
    obtain ⟨rfl, hs⟩ := render_append_inj hinj hw (.inr rfl) hl hl' h
    exact ⟨rfl, (List.cons.inj hs).2⟩
  | .neg _, .holds _, _, _, _, hl', h => by
    simp only [renderPC, List.cons_append] at h
    exact absurd h.symm (render_append_ne_neg (.inl rfl) hl' _ _)
  | .holds _, .neg _, _, _, hl, _, h => by
    simp only [renderPC, List.cons_append] at h
    exact absurd h (render_append_ne_neg (.inl rfl) hl _ _)
  | .neg _, .eq _ _, _, _, _, _, h => absurd (List.cons.inj h).1 (by decide)
  | .eq _ _, .neg _, _, _, _, _, h => absurd (List.cons.inj h).1 (by decide)
  | .holds _, .holds _, _, _, hl, hl', h => by
    obtain ⟨rfl, rfl⟩ := render_append_inj hinj hw (.inl rfl) hl hl' h
    exact ⟨rfl, rfl⟩
  | .holds _, .eq _ _, _, _, hl, _, h => by
    simp only [renderPC, List.cons_append] at h
    exact absurd h (render_append_ne_eq hw heq (.inl rfl) hl _ _)
  | .eq _ _, .holds _, _, _, _, hl', h => by
    simp only [renderPC, List.cons_append] at h
    exact absurd h.symm (render_append_ne_eq hw heq (.inl rfl) hl' _ _)
  | .eq _ _, .eq _ _, _, _, hl, hl', h => by
    simp only [renderPC, List.cons_append, List.append_assoc, List.singleton_append,
      List.cons.injEq, true_and] at h
    obtain ⟨rfl, h₂⟩ := render_append_inj hinj hw (.inl rfl) hl.1 hl'.1 h
    obtain ⟨rfl, h₃⟩ := render_append_inj hinj hw (.inr rfl) hl.2 hl'.2 h₂
    exact ⟨rfl, (List.cons.inj h₃).2⟩

/-- A path condition and a tree whose texts begin one string before a blank: the path condition
is the tree alone. -/
theorem renderPC_append_eq_render {p : PCTerm} {t : Term} {x y : List Char} (hp : p.Plain)
    (ht : Plain t) (h : renderPC kn p ++ ' ' :: x = render kn t ++ ' ' :: y) :
    p = .holds t ∧ x = y := by
  cases p with
  | neg l =>
    simp only [renderPC, List.cons_append] at h
    exact absurd h.symm (render_append_ne_neg (.inl rfl) ht _ _)
  | holds l =>
    obtain ⟨rfl, rfl⟩ := render_append_inj hinj hw (.inl rfl) hp ht h
    exact ⟨rfl, rfl⟩
  | eq l r =>
    simp only [renderPC, List.cons_append] at h
    exact absurd h.symm (render_append_ne_eq hw heq (.inl rfl) ht _ _)

/-- The text of a rule determines its path conditions, LHS and RHS. -/
theorem renderRule_inj : ∀ {ps ps' : List PCTerm} {l r l' r' : Term},
    (∀ p ∈ ps, p.Plain) → (∀ p ∈ ps', p.Plain) → Plain l → Plain r → Plain l' → Plain r' →
      renderRule kn ⟨ps, l, r⟩ = renderRule kn ⟨ps', l', r'⟩ → ps = ps' ∧ l = l' ∧ r = r'
  | [], [], _, _, _, _, _, _, hl, hr, hl', hr', h => by
    rw [renderRule_nil, renderRule_nil] at h
    obtain ⟨rfl, h₂⟩ := render_append_inj hinj hw (.inl rfl) hl hl' h
    simp only [List.cons.injEq, true_and] at h₂
    exact ⟨rfl, rfl, render_inj hinj hw hr hr' (List.append_cancel_right h₂)⟩
  | [], p' :: _, _, _, _, _, _, hps', hl, _, _, _, h => by
    rw [renderRule_nil, renderRule_cons] at h
    have hx := (renderPC_append_eq_render hinj hw heq (hps' p' (List.mem_cons_self _ _)) hl
      h.symm).2
    split at hx <;> simp at hx
  | p :: _, [], _, _, _, _, hps, _, _, _, hl', _, h => by
    rw [renderRule_nil, renderRule_cons] at h
    have hx := (renderPC_append_eq_render hinj hw heq (hps p (List.mem_cons_self _ _)) hl' h).2
    split at hx <;> simp at hx
  | p :: ps, p' :: ps', l, r, l', r', hps, hps', hl, hr, hl', hr', h => by
    rw [renderRule_cons, renderRule_cons] at h
    obtain ⟨rfl, hx⟩ := renderPC_append_inj hinj hw heq (hps p (List.mem_cons_self _ _))
      (hps' p' (List.mem_cons_self _ _)) h
    have htail : renderRule kn ⟨ps, l, r⟩ = renderRule kn ⟨ps', l', r'⟩ := by
      split at hx <;> split at hx <;> simp at hx <;> exact hx
    obtain ⟨rfl, rfl, rfl⟩ := renderRule_inj (fun q hq => hps q (List.mem_cons_of_mem _ hq))
      (fun q hq => hps' q (List.mem_cons_of_mem _ hq)) hl hr hl' hr' htail
    exact ⟨rfl, rfl, rfl⟩

end Unique

-- ════════════════════════════════════════════════════════════════════════
-- The text determines the rule
-- ════════════════════════════════════════════════════════════════════════

/-- Every variable node `I` reaches prints as a `VarWord`. -/
def VarsPlain (env : GoEnv) (ic : InstContext) (I : Nat) : Prop :=
  ∀ j ∈ ic.reach I, (ic.get j).k = .var → VarWord (varText env (ic.get j))

instance (env : GoEnv) (ic : InstContext) (I : Nat) : Decidable (VarsPlain env ic I) :=
  inferInstanceAs (Decidable (∀ j ∈ ic.reach I, _))

/-- Every variable the printed parts of a rule reach (its LHS, its RHS and the two sides of each
path condition) prints as a `VarWord`. -/
def RuleVarsPlain (env : GoEnv) (ic : InstContext) (R : ParsedReplacement) : Prop :=
  VarsPlain env ic R.mapping.lhs ∧ VarsPlain env ic R.mapping.rhs ∧
    ∀ pc ∈ R.pcs, VarsPlain env ic pc.lhs ∧ VarsPlain env ic pc.rhs

instance (env : GoEnv) (ic : InstContext) (R : ParsedReplacement) :
    Decidable (RuleVarsPlain env ic R) :=
  inferInstanceAs (Decidable (_ ∧ _ ∧ ∀ pc ∈ R.pcs, _))

/-- The tree of a node is plain when every variable it reaches within `fuel` levels prints as a
`VarWord`. -/
theorem plain_unfold (env : GoEnv) (ic : InstContext) (fuel : Nat) : ∀ I t,
    (∀ j ∈ ic.reachAux fuel I, (ic.get j).k = .var → VarWord (varText env (ic.get j))) →
      unfold env ic fuel I = some t → Plain t := by
  induction fuel with
  | zero => intro I t _ h; cases h
  | succ fuel ih =>
    intro I t hv h
    have hself : I ∈ ic.reachAux (fuel + 1) I := by simp [reachAux]
    by_cases hvk : (ic.get I).k = .var
    · rw [unfold_var hvk, Option.some.injEq] at h
      exact h ▸ .var (hv I hself hvk)
    by_cases hck : (ic.get I).k = .const
    · rw [unfold_const hvk hck, Option.some.injEq] at h
      exact h ▸ .const _
    rw [unfold_op hvk hck, Option.map_eq_some'] at h
    obtain ⟨ts, hts, rfl⟩ := h
    refine .op _ fun a ha => ?_
    obtain ⟨o, ho, hoa⟩ := exists_mem_of_mapM_eq_some hts a ha
    refine ih o a (fun j hj => hv j ?_) hoa
    simp only [reachAux, Finset.mem_insert, Finset.mem_biUnion, List.mem_toFinset]
    exact .inr ⟨o, ho, hj⟩

theorem VarsPlain.plain {env : GoEnv} {ic : InstContext} {I : Nat} {t : Term}
    (hv : VarsPlain env ic I) (h : unfold env ic (I + 1) I = some t) : Plain t :=
  plain_unfold env ic (I + 1) I t hv h

theorem plain_unfoldPC {env : GoEnv} {ic : InstContext} {pc : InstMapping} {p : PCTerm}
    (hv : VarsPlain env ic pc.lhs ∧ VarsPlain env ic pc.rhs) (h : unfoldPC env ic pc = some p) :
    p.Plain := by
  simp only [unfoldPC, Option.bind_eq_bind, Option.bind_eq_some] at h
  obtain ⟨l, hl, h⟩ := h
  split_ifs at h
  · cases h; exact hv.1.plain hl
  · cases h; exact hv.1.plain hl
  · obtain ⟨r, hr, rfl⟩ := Option.map_eq_some'.mp h
    exact ⟨hv.1.plain hl, hv.2.plain hr⟩

theorem plain_unfoldRule {env : GoEnv} {ic : InstContext} {R : ParsedReplacement} {RT : RuleTerm}
    (hv : RuleVarsPlain env ic R) (h : unfoldRule env ic R = some RT) :
    (∀ p ∈ RT.pcs, p.Plain) ∧ Plain RT.lhs ∧ Plain RT.rhs := by
  simp only [unfoldRule, Option.bind_eq_bind, Option.bind_eq_some, Option.pure_def,
    Option.some.injEq] at h
  obtain ⟨ps, hps, l, hl, r, hr, rfl⟩ := h
  refine ⟨fun p hp => ?_, hv.1.plain hl, hv.2.1.plain hr⟩
  obtain ⟨pc, hpc, hp⟩ := exists_mem_of_mapM_eq_some hps p hp
  exact plain_unfoldPC (hv.2.2 pc hpc) hp

/-- When kind names are distinct words and every variable a node reaches prints as a word that
does not start with a digit, the text of the node determines the tree it unfolds to: two nodes,
of any two contexts, that print the same text have the same tree. -/
theorem printInst_injective {env : GoEnv} {ic ic' : InstContext} {I J : Nat} {s : String}
    (hinj : Function.Injective env.getKindName) (hw : ∀ K, Word (env.getKindName K).data)
    (hv : VarsPlain env ic I) (hv' : VarsPlain env ic' J)
    (h : printInst env ic (I + 1) I = some s) (h' : printInst env ic' (J + 1) J = some s) :
    unfold env ic (I + 1) I = unfold env ic' (J + 1) J := by
  rw [printInst_eq_render, Option.map_eq_some'] at h h'
  obtain ⟨t, ht, rfl⟩ := h
  obtain ⟨t', ht', hs⟩ := h'
  rw [ht, ht', render_inj hinj hw (hv.plain ht) (hv'.plain ht') (congrArg String.data hs).symm]

/-- Kind names by constructor index: `k0`, `k1`, … -/
def indexEnv : GoEnv := ⟨fun K => "k" ++ toString K.toCtorIdx, fun _ _ => ""⟩

theorem indexEnv_injective : Function.Injective indexEnv.getKindName := fun K K' h => by
  have hd : Nat.toDigits 10 K.toCtorIdx = Nat.toDigits 10 K'.toCtorIdx :=
    (List.cons.inj (congrArg String.data h)).2
  rw [← Kind.ofNat_toCtorIdx K, ← Kind.ofNat_toCtorIdx K', toDigits_injective hd]

theorem indexEnv_word (K : Kind) : Word (indexEnv.getKindName K).data := by
  rintro c (_ | ⟨_, hc⟩)
  · decide
  · have := (toDigits_digit _ c hc).1
    refine ⟨?_, ?_, ?_⟩ <;> rintro rfl <;> exact absurd this (by decide)

theorem indexEnv_ne_eq (K : Kind) : indexEnv.getKindName K ≠ "=" := fun h =>
  absurd (List.cons.inj (congrArg String.data h)).1 (by decide)

/-- `x + 1` and `1 + x` at width `w`, with the constant `0`. -/
def addOneIc (w : Nat) : InstContext :=
  ⟨[.var w "x", .const (.ofNat w 1), .op .add w [0, 1], .const (.ofNat w 0), .op .add w [1, 0]]⟩

theorem printInst_injective_addOne :
    printInst indexEnv (addOneIc 8) 3 2 = some "(k3 x 1 )" ∧
      unfold indexEnv (addOneIc 8) 3 2 = unfold indexEnv (addOneIc 16) 3 2 :=
  ⟨by decide, printInst_injective indexEnv_injective indexEnv_word (by decide) (by decide)
    (by decide : printInst indexEnv (addOneIc 8) 3 2 = some "(k3 x 1 )") (by decide)⟩

/-- When kind names are distinct words and none is `=`, and every variable that the printed parts
of a rule reach prints as a word that does not start with a digit, the text `GoPrinter` writes
for the rule determines its path conditions, its LHS and its RHS: two rules, over any two
contexts, that print the same text unfold to the same trees. -/
theorem goPrint_injective {env : GoEnv} {ic ic' : InstContext} {R R' : ParsedReplacement}
    {s : String} (hinj : Function.Injective env.getKindName)
    (hw : ∀ K, Word (env.getKindName K).data) (heq : ∀ K, env.getKindName K ≠ "=")
    (hv : RuleVarsPlain env ic R) (hv' : RuleVarsPlain env ic' R')
    (h : goPrint env ic R = some s) (h' : goPrint env ic' R' = some s) :
    unfoldRule env ic R = unfoldRule env ic' R' := by
  rw [goPrint_eq_render, Option.map_eq_some'] at h h'
  obtain ⟨⟨ps, l, r⟩, hR, rfl⟩ := h
  obtain ⟨⟨ps', l', r'⟩, hR', hs⟩ := h'
  obtain ⟨hps, hl, hr⟩ := plain_unfoldRule hv hR
  obtain ⟨hps', hl', hr'⟩ := plain_unfoldRule hv' hR'
  obtain ⟨rfl, rfl, rfl⟩ := renderRule_inj hinj hw heq hps hps' hl hr hl' hr'
    (congrArg String.data hs).symm
  rw [hR, hR']

/-- `x = 0 |= x + 1 ⇒ 1 + x`. -/
def addOneRule : ParsedReplacement := ⟨⟨2, 4⟩, [⟨0, 3⟩], []⟩

theorem goPrint_injective_addOne :
    goPrint indexEnv (addOneIc 8) addOneRule = some "!(x) |= (k3 x 1 ) -> (k3 1 x )\n\n" ∧
      unfoldRule indexEnv (addOneIc 8) addOneRule = unfoldRule indexEnv (addOneIc 16) addOneRule :=
  ⟨by decide, goPrint_injective indexEnv_injective indexEnv_word indexEnv_ne_eq (by decide)
    (by decide) (by decide : goPrint indexEnv (addOneIc 8) addOneRule =
      some "!(x) |= (k3 x 1 ) -> (k3 1 x )\n\n") (by decide)⟩

end Souper.Go
