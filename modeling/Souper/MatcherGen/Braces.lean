import Souper.MatcherGen.Main

/-!
# The braces `matcher-gen` writes

`main` writes C++: for each run of rules with one LHS kind a block `if (<opcode test>) { … }`,
and in it, for each rule, a comment and the rule's block
`{ <declarations> if (match(I, …)) { if (<guard>) { … } } }`, the guard's block only when the
guard has a conjunct. Every other piece of text the generator writes has no brace: the names
`x<n>`, `P<n>`, `C<n>` and `I`, decimal numbers, the entries of its tables and the guard's
conjuncts. So the braces of a rule's block pair up, and once a rule survives the filters so do
those of the whole output. `main_closes_unopened_block` is the case where no rule survives.

## Main definitions

- `braceDepth`, `Balanced`, `NoBraces` — the nesting of braces in a text
- `OkThen` — what every success of a computation in `Except` satisfies
- `SymbolTable.Unbraced` — a table whose names, predicate names and guard conjuncts have no brace

## Main results

- `genMatcher_balanced` — the block `GenMatcher` writes for a rule is balanced
- `main_balanced` — when a rule survives the filters, the text `main` writes to `llvm::outs` is
  balanced

## Design notes

`ParsedReplacement::print` is a parameter, and its text goes inside a comment; it is assumed to
have no brace, as Souper's textual IR has none. The count is over the whole text, comments
included.
-/

namespace Souper.MatcherGen

open InstContext SymbolTable

-- ════════════════════════════════════════════════════════════════════════
-- Braces in a text
-- ════════════════════════════════════════════════════════════════════════

/-- The nesting depth after reading `cs` from depth `d`; `none` where a `}` closes nothing. -/
def braceDepth : Nat → List Char → Option Nat
  | d, [] => some d
  | d, c :: cs =>
    if c = '\x7b' then braceDepth (d + 1) cs
    else if c = '\x7d' then
      match d with
      | 0 => none
      | d + 1 => braceDepth d cs
    else braceDepth d cs

/-- A text whose braces pair up: every `}` closes an earlier `{`, and none is left open. -/
def Balanced (s : String) : Prop := braceDepth 0 s.data = some 0

instance decBalanced (s : String) : Decidable (Balanced s) :=
  inferInstanceAs (Decidable (_ = _))

/-- A text with no brace. -/
def NoBraces (s : String) : Prop := '\x7b' ∉ s.data ∧ '\x7d' ∉ s.data

instance decNoBraces (s : String) : Decidable (NoBraces s) :=
  inferInstanceAs (Decidable (_ ∧ _))

theorem braceDepth_append : ∀ (d : Nat) (a b : List Char),
    braceDepth d (a ++ b) = (braceDepth d a).bind fun e => braceDepth e b
  | _, [], _ => rfl
  | d, c :: a, b => by
    simp only [List.cons_append, braceDepth]
    split_ifs
    · exact braceDepth_append _ a b
    · cases d
      · rfl
      · exact braceDepth_append _ a b
    · exact braceDepth_append _ a b

/-- Reading from `k` more open braces leaves `k` more open. -/
theorem braceDepth_add (k : Nat) : ∀ (d : Nat) (cs : List Char) {e : Nat},
    braceDepth d cs = some e → braceDepth (d + k) cs = some (e + k)
  | _, [], _, h => by cases h; rfl
  | d, c :: cs, e, h => by
    simp only [braceDepth] at h ⊢
    split_ifs at h ⊢
    · rw [Nat.add_right_comm]; exact braceDepth_add k _ cs h
    · cases d with
      | zero => cases h
      | succ d => rw [Nat.add_right_comm]; exact braceDepth_add k d cs h
    · exact braceDepth_add k d cs h

theorem braceDepth_of_not_mem : ∀ {cs : List Char}, '\x7b' ∉ cs → '\x7d' ∉ cs →
    ∀ d, braceDepth d cs = some d
  | [], _, _, _ => rfl
  | c :: cs, h₁, h₂, d => by
    rw [List.mem_cons, not_or] at h₁ h₂
    have e₁ : c ≠ '\x7b' := fun e => h₁.1 e.symm
    have e₂ : c ≠ '\x7d' := fun e => h₂.1 e.symm
    simp only [braceDepth, e₁, e₂, if_false]
    exact braceDepth_of_not_mem h₁.2 h₂.2 d

theorem NoBraces.braceDepth {s : String} (h : NoBraces s) (d : Nat) :
    braceDepth d s.data = some d :=
  braceDepth_of_not_mem h.1 h.2 d

theorem Balanced.braceDepth {s : String} (h : Balanced s) (d : Nat) :
    braceDepth d s.data = some d := by
  simpa using braceDepth_add d 0 s.data h

theorem Balanced.append {s t : String} (hs : Balanced s) (ht : Balanced t) : Balanced (s ++ t) := by
  rw [Balanced, String.data_append, braceDepth_append, hs]
  exact ht

@[simp] theorem noBraces_append {a b : String} : NoBraces (a ++ b) ↔ NoBraces a ∧ NoBraces b := by
  simp only [NoBraces, String.data_append, List.mem_append, not_or, and_and_and_comm]

theorem digitChar_mod_ten_ne (m : Nat) :
    Nat.digitChar (m % 10) ≠ '\x7b' ∧ Nat.digitChar (m % 10) ≠ '\x7d' := by
  have : m % 10 < 10 := Nat.mod_lt _ (by decide)
  interval_cases m % 10 <;> decide

theorem mem_toDigitsCore {b : Nat} : ∀ {f n : Nat} {ds : List Char} {c : Char},
    c ∈ Nat.toDigitsCore b f n ds → c ∈ ds ∨ ∃ m, c = Nat.digitChar (m % b)
  | 0, _, _, _, h => .inl h
  | f + 1, n, ds, c, h => by
    simp only [Nat.toDigitsCore] at h
    split at h
    · exact (List.mem_cons.mp h).elim (fun h => .inr ⟨_, h⟩) .inl
    · exact (mem_toDigitsCore h).elim
        (fun h => (List.mem_cons.mp h).elim (fun h => .inr ⟨_, h⟩) .inl) .inr

/-- A decimal numeral has no brace. -/
@[simp] theorem noBraces_toString_nat (n : Nat) : NoBraces (toString n) := by
  have h : ∀ c ∈ Nat.toDigitsCore 10 (n + 1) n [], c ≠ '\x7b' ∧ c ≠ '\x7d' := fun c hc => by
    rcases mem_toDigitsCore hc with h | ⟨m, rfl⟩
    · cases h
    · exact digitChar_mod_ten_ne m
  exact ⟨fun hm => (h _ hm).1 rfl, fun hm => (h _ hm).2 rfl⟩

@[simp] theorem noBraces_toString_int : ∀ i : Int, NoBraces (toString i)
  | .ofNat m => noBraces_toString_nat m
  | .negSucc m => noBraces_append.mpr ⟨by decide, noBraces_toString_nat _⟩

theorem noBraces_intercalate_go {sep : String} (hs : NoBraces sep) :
    ∀ (acc : String) (l : List String), NoBraces acc → (∀ x ∈ l, NoBraces x) →
      NoBraces (String.intercalate.go acc sep l)
  | _, [], ha, _ => ha
  | acc, a :: l, ha, hl => by
    rw [List.forall_mem_cons] at hl
    exact noBraces_intercalate_go hs (acc ++ sep ++ a) l
      (noBraces_append.mpr ⟨noBraces_append.mpr ⟨ha, hs⟩, hl.1⟩) hl.2

/-- Texts without braces joined by a separator without braces have none. -/
theorem noBraces_intercalate {sep : String} (hs : NoBraces sep) :
    ∀ {l : List String}, (∀ x ∈ l, NoBraces x) → NoBraces (sep.intercalate l)
  | [], _ => (by decide : NoBraces "")
  | a :: l, hl => by
    rw [List.forall_mem_cons] at hl
    exact noBraces_intercalate_go hs a l hl.1 hl.2

-- ════════════════════════════════════════════════════════════════════════
-- What every success satisfies
-- ════════════════════════════════════════════════════════════════════════

/-- Every success of `r` satisfies `P`: the partial-correctness half of `NoUB`, for results that
need no well-formed context. -/
def OkThen {ε α : Type} (r : Except ε α) (P : α → Prop) : Prop := ∀ a, r = .ok a → P a

section OkThen

variable {ε α β : Type} {P : α → Prop} {Q : β → Prop}

theorem OkThen.ok {a : α} (h : P a) : OkThen (.ok a : Except ε α) P := fun _ e => by
  cases e; exact h

theorem OkThen.error (e : ε) : OkThen (.error e : Except ε α) P := fun _ h => by cases h

theorem OkThen.bind {x : Except ε α} {f : α → Except ε β} (hx : OkThen x P)
    (hf : ∀ a, P a → OkThen (f a) Q) : OkThen (x >>= f) Q := by
  cases x with
  | error e => exact OkThen.error e
  | ok a => exact hf a (hx a rfl)

theorem OkThen.map {x : Except ε α} {f : α → β} (hx : OkThen x P) (hf : ∀ a, P a → Q (f a)) :
    OkThen (x.map f) Q := by
  cases x with
  | error e => exact OkThen.error e
  | ok a => exact OkThen.ok (hf a (hx a rfl))

theorem OkThen.foldlM {γ : Type} (Q : β → Prop) {f : β → γ → Except ε β} {l : List γ}
    (hf : ∀ b, ∀ c ∈ l, Q b → OkThen (f b c) Q) : ∀ b, Q b → OkThen (l.foldlM f b) Q := by
  induction l with
  | nil => exact fun b hb => OkThen.ok hb
  | cons c l ih =>
    intro b hb
    rw [List.foldlM_cons]
    exact (hf b c (List.mem_cons_self c l) hb).bind fun b' hb' =>
      ih (fun b'' c' hc' => hf b'' c' (List.mem_cons_of_mem c hc')) b' hb'

theorem OkThen.mono {x : Except ε α} {P' : α → Prop} (hx : OkThen x P) (h : ∀ a, P a → P' a) :
    OkThen x P' :=
  fun a e => h a (hx a e)

theorem OkThen.mapM {γ : Type} (P : α → Prop) {f : γ → Except ε α} :
    ∀ {l : List γ}, (∀ c ∈ l, OkThen (f c) P) → OkThen (l.mapM f) fun as => ∀ a ∈ as, P a
  | [], _ => OkThen.ok nofun
  | c :: l, h => by
    rw [List.mapM_cons]
    exact (h c (List.mem_cons_self c l)).bind fun a ha =>
      (OkThen.mapM P fun c' hc' => h c' (List.mem_cons_of_mem c hc')).bind fun as has =>
        OkThen.ok (List.forall_mem_cons.mpr ⟨ha, has⟩)

end OkThen

/-- What every step of a fold keeps holds of its result. -/
theorem foldl_inv {α β : Type} (P : β → Prop) {f : β → α → β} :
    ∀ (l : List α) (b : β), P b → (∀ b, ∀ a ∈ l, P b → P (f b a)) → P (l.foldl f b)
  | [], _, hb, _ => hb
  | a :: l, b, hb, hf => foldl_inv P l (f b a) (hf b a (List.mem_cons_self a l) hb)
      fun b' a' ha' => hf b' a' (List.mem_cons_of_mem a ha')

-- ════════════════════════════════════════════════════════════════════════
-- The tables and the names
-- ════════════════════════════════════════════════════════════════════════

theorem noBraces_matchOps {K : Kind} {o : String} (h : matchOps K = some o) : NoBraces o := by
  cases K <;> cases h <;> decide

theorem noBraces_createOps {K : Kind} {o : String} (h : createOps K = some o) : NoBraces o := by
  cases K <;> cases h <;> decide

theorem noBraces_predNames {K : Kind} {o : String} (h : predNames K = some o) : NoBraces o := by
  cases K <;> cases h <;> decide

theorem noBraces_kindCheck (K : Kind) : NoBraces (kindCheck K) := by
  cases K <;> decide

theorem noBraces_varName (n : Nat) : NoBraces (varName n) :=
  noBraces_append.mpr ⟨by decide, noBraces_toString_nat n⟩

/-- A table whose names, predicate names and guard conjuncts have no brace. -/
structure SymbolTable.Unbraced (s : SymbolTable) : Prop where
  names : ∀ j, ∀ n ∈ s.names j, NoBraces n
  preds : ∀ j n, s.preds j = some n → NoBraces n
  constraints : ∀ c ∈ s.constraints, NoBraces c.print

namespace SymbolTable

variable {s : SymbolTable}

theorem unbraced_empty : SymbolTable.empty.Unbraced :=
  ⟨fun _ _ h => (List.not_mem_nil _ h).elim, nofun, nofun⟩

/-- The invariant reads only the names, the predicate names and the conjuncts. -/
theorem Unbraced.congr {s' : SymbolTable} (h : s.Unbraced) (hn : s'.names = s.names)
    (hp : s'.preds = s.preds) (hc : s'.constraints = s.constraints) : s'.Unbraced :=
  ⟨hn ▸ h.names, hp ▸ h.preds, hc ▸ h.constraints⟩

theorem Unbraced.pushName (h : s.Unbraced) (I : Nat) {n : String} (hn : NoBraces n) :
    (s.pushName I n).Unbraced := by
  refine ⟨fun j m hm => ?_, h.preds, h.constraints⟩
  rw [names_pushName] at hm
  split_ifs at hm with hj
  · rcases List.mem_append.mp hm with hm | hm
    · exact h.names I m hm
    · rwa [List.mem_singleton.mp hm]
  · exact h.names j m hm

theorem Unbraced.popBack (h : s.Unbraced) {I : Nat} {s' : SymbolTable} (he : s.popBack I = .ok s') :
    s'.Unbraced := by
  obtain ⟨-, rfl⟩ := popBack_eq_ok he
  refine ⟨fun j m hm => ?_, h.preds, h.constraints⟩
  dsimp only at hm
  split_ifs at hm
  · exact h.names I m (List.dropLast_subset _ hm)
  · exact h.names j m hm

theorem Unbraced.addConstraints (h : s.Unbraced) {cs : List Constraint}
    (hc : ∀ c ∈ cs, NoBraces c.print) :
    ({ s with constraints := s.constraints ++ cs } : SymbolTable).Unbraced :=
  ⟨h.names, h.preds, fun c hm => (List.mem_append.mp hm).elim (h.constraints c) (hc c)⟩

theorem Unbraced.registerPred (ic : InstContext) (h : s.Unbraced) (I : Nat) :
    (s.registerPred ic I).Unbraced := by
  unfold SymbolTable.registerPred
  split
  · exact h
  · rename_i k hk
    split_ifs
    · exact h
    · have hn : NoBraces ("P" ++ toString ((List.range ic.size).filter fun j =>
          (s.preds j).isSome).length) := noBraces_append.mpr ⟨by decide, noBraces_toString_nat _⟩
      refine ⟨h.names, fun j n hj => ?_, fun c hc => ?_⟩
      · dsimp only at hj
        split_ifs at hj
        · cases hj; exact hn
        · exact h.preds j n hj
      · rcases List.mem_append.mp hc with hc | hc
        · exact h.constraints c hc
        · rw [List.mem_singleton.mp hc]
          simp +decide only [Constraint.print, noBraces_append, hn, noBraces_predNames hk, and_true]

end SymbolTable

-- ════════════════════════════════════════════════════════════════════════
-- Each pass keeps braces out of the table and its text
-- ════════════════════════════════════════════════════════════════════════

section Passes

variable (ic : InstContext)

theorem lhsVisit_unbraced {s : InitState} (h : s.syms.Unbraced) (I : Nat) :
    (lhsVisit ic s I).syms.Unbraced := by
  have h' := h.registerPred ic I
  simp only [lhsVisit]
  split_ifs <;> first
    | exact h'.congr rfl rfl rfl
    | (refine Unbraced.pushName ?_ I (noBraces_varName _); exact h'.congr rfl rfl rfl)

theorem rhsVisit_unbraced {s : InitState} (h : s.syms.Unbraced) (I : Nat) :
    (rhsVisit ic s I).syms.Unbraced := by
  simp only [rhsVisit]
  split_ifs <;> first
    | exact h.congr rfl rfl rfl
    | (refine Unbraced.pushName ?_ I (noBraces_varName _); exact h.congr rfl rfl rfl)

theorem noBraces_printDecls {s : SymbolTable} (h : s.Unbraced) : NoBraces (printDecls ic s) := by
  unfold printDecls
  dsimp only
  split_ifs
  · decide
  · refine noBraces_append.mpr ⟨noBraces_append.mpr ⟨by decide, noBraces_intercalate (by decide)
      fun x hx => ?_⟩, by decide⟩
    obtain ⟨n, hn, rfl⟩ := List.mem_map.mp hx
    obtain ⟨j, -, hj⟩ := List.mem_flatMap.mp hn
    exact noBraces_append.mpr ⟨by decide, h.names j n hj⟩

theorem noBraces_printPreds {s : SymbolTable} (h : s.Unbraced) : NoBraces (printPreds ic s) := by
  unfold printPreds
  dsimp only
  split_ifs
  · decide
  · refine noBraces_append.mpr ⟨noBraces_append.mpr ⟨by decide, noBraces_intercalate (by decide)
      fun x hx => ?_⟩, by decide⟩
    obtain ⟨j, -, hj⟩ := List.mem_filterMap.mp hx
    exact h.preds j x hj

/-- `InitSymbolTable` writes declarations without braces, and names only with `x<n>` and `I`. -/
theorem initSymbolTable_unbraced {root rhs : Nat} {decls : String}
    {syms : SymbolTable} (h : initSymbolTable ic root rhs = some (decls, syms)) :
    NoBraces decls ∧ syms.Unbraced := by
  simp only [initSymbolTable, Option.bind_eq_bind, Option.pure_def, Option.bind_eq_some,
    Option.some.injEq, Prod.mk.injEq] at h
  obtain ⟨s₁, h₁, s₂, h₂, rfl, rfl⟩ := h
  have hs₁ := lhsLoop_inv_of_some ic (fun _ s => s.syms.Unbraced)
    (fun I _ s hs => lhsVisit_unbraced ic hs I) _ _ _ _ unbraced_empty h₁
  have hs₂ := rhsLoop_inv_of_some ic (fun _ s => s.syms.Unbraced)
    (fun I _ s hs => rhsVisit_unbraced ic hs I) _ _ _ _ hs₁ h₂
  have hI := hs₂.pushName root (show NoBraces "I" by decide)
  exact ⟨noBraces_append.mpr ⟨noBraces_printDecls ic hs₂, noBraces_printPreds ic hI⟩, hI⟩

theorem genVarEqConstraints_unbraced {s : SymbolTable} (h : s.Unbraced) :
    (genVarEqConstraints ic s).Unbraced := by
  refine h.addConstraints fun c hc => ?_
  obtain ⟨j, -, hj⟩ := List.mem_flatMap.mp hc
  split at hj
  · cases hj
  · rename_i n ns hn
    obtain ⟨m, hm, rfl⟩ := List.mem_map.mp hj
    have hnm := h.names j
    rw [hn] at hnm
    simp +decide only [Constraint.print, noBraces_append, hnm n (List.mem_cons_self n ns),
      hnm m (List.mem_cons_of_mem n hm), and_true]

/-- The guard conjuncts of a variable named without braces have none. -/
theorem noBraces_varPropConstraints (I : Inst) {n : String} (hn : NoBraces n) :
    ∀ c ∈ varPropConstraints I n, NoBraces c.print := by
  intro c hc
  simp only [varPropConstraints, List.mem_append, List.mem_singleton] at hc
  rcases hc with (((rfl | hc) | hc) | hc) | hc
  · simp +decide only [Constraint.print, noBraces_append, hn, noBraces_toString_nat, and_true]
  all_goals
    split_ifs at hc
    · rw [List.mem_singleton.mp hc]
      simp +decide only [Constraint.print, noBraces_append, hn, and_true]
    · cases hc

theorem genVarPropConstraints_unbraced {s : SymbolTable} (h : s.Unbraced) (lhs : Nat) :
    OkThen (genVarPropConstraints ic s lhs) SymbolTable.Unbraced := by
  refine OkThen.foldlM SymbolTable.Unbraced (fun t v _ ht => ?_) s h
  split
  · exact OkThen.error _
  · rename_i n ns hn
    exact OkThen.ok (ht.addConstraints (noBraces_varPropConstraints _
      (ht.names v n (by rw [hn]; exact List.mem_cons_self n ns))))

theorem genDomConstraints_unbraced :
    ∀ fuel I (vs : (Nat → Bool) × SymbolTable), vs.2.Unbraced →
      (genDomConstraints ic fuel I vs).2.Unbraced
  | 0, _, _, h => h
  | fuel + 1, I, (visited, s), h => by
    simp only [genDomConstraints]
    refine foldl_inv (fun vs : (Nat → Bool) × SymbolTable => vs.2.Unbraced) _ _ h
      fun vs op _ hvs => ?_
    dsimp only
    split
    · exact hvs
    · split
      · exact hvs
      · rename_i n ns hn
        split
        · exact hvs
        · refine genDomConstraints_unbraced fuel op _ (hvs.addConstraints fun c hc => ?_)
          rw [List.mem_singleton.mp hc]
          simp +decide only [Constraint.print, noBraces_append,
            hvs.names op n (by rw [hn]; exact List.mem_cons_self n ns), and_true]

theorem printConstDecls_unbraced {s : SymbolTable} (h : s.Unbraced) :
    NoBraces (printConstDecls ic s).1 ∧ (printConstDecls ic s).2.Unbraced := by
  refine foldl_inv (fun acc : String × SymbolTable => NoBraces acc.1 ∧ acc.2.Unbraced) _ _
    ⟨(by decide : NoBraces ""), h⟩ fun acc kc _ hacc => ⟨?_, hacc.2.pushName _ ?_⟩
  · simp +decide only [noBraces_append, hacc.1, noBraces_toString_nat, noBraces_toString_int,
      and_true]
  · exact noBraces_append.mpr ⟨by decide, noBraces_toString_nat _⟩

theorem okThen_back (l : List String) : OkThen (back l) fun n => n ∈ l := by
  unfold back
  split
  · exact OkThen.ok (List.mem_of_getLast?_eq_some ‹_›)
  · exact OkThen.error _

theorem usedPrefix_unbraced {s : SymbolTable} (h : s.Unbraced) (I : Nat) :
    OkThen (usedPrefix ic s I) NoBraces := by
  unfold usedPrefix
  split_ifs
  · exact (okThen_back _).map fun n hn => by
      simp +decide only [noBraces_append, h.names I n hn, and_true]
  · exact OkThen.ok (by decide)

theorem varText_unbraced {s : SymbolTable} (h : s.Unbraced) (c : Nat) :
    OkThen (varText ic s c) NoBraces := by
  unfold varText
  split_ifs
  · exact (okThen_back _).map fun n hn => by
      simp +decide only [noBraces_append, h.names c n hn, and_true]
  · exact OkThen.ok (by decide)
  · exact (okThen_back _).map fun n hn => by
      simp +decide only [noBraces_append, h.names c n hn, and_true]

theorem genOperand_unbraced {rec : Nat → SymbolTable → Except GenError (String × SymbolTable)}
    (hrec : ∀ c (s : SymbolTable), s.Unbraced →
      OkThen (rec c s) fun p => NoBraces p.1 ∧ p.2.Unbraced)
    {s : SymbolTable} (h : s.Unbraced) (c : Nat) :
    OkThen (genOperand ic rec s c) fun p => NoBraces p.1 ∧ p.2.Unbraced := by
  unfold genOperand
  split_ifs
  · exact (usedPrefix_unbraced ic h c).bind fun p hp => OkThen.ok ⟨by
      simp +decide only [noBraces_append, hp, noBraces_toString_nat, and_true], h⟩
  · exact (varText_unbraced ic h c).bind fun t ht =>
      (show OkThen (s.popBack c) SymbolTable.Unbraced from fun _ he => h.popBack he).bind
        fun s' hs' => OkThen.ok ⟨ht, hs'⟩
  · exact hrec c s h

/-- The text `GenLHSMatcher` writes has no brace, and the table it leaves has none. -/
theorem genLHSMatcher_unbraced :
    ∀ fuel I (s : SymbolTable), s.Unbraced →
      OkThen (genLHSMatcher ic fuel I s) fun p => NoBraces p.1 ∧ p.2.Unbraced
  | 0, _, _, _ => OkThen.error _
  | fuel + 1, I, s, h => by
    simp only [genLHSMatcher]
    refine (usedPrefix_unbraced ic h I).bind fun pre hpre => ?_
    cases hop : matchOps (ic.get I).k with
    | none => exact OkThen.error _
    | some op =>
      refine (OkThen.ok (noBraces_matchOps hop)).bind fun op hop' => ?_
      refine (OkThen.foldlM
        (fun acc : List String × SymbolTable => (∀ x ∈ acc.1, NoBraces x) ∧ acc.2.Unbraced)
        (fun acc c _ hacc => (genOperand_unbraced ic (genLHSMatcher_unbraced fuel) hacc.2 c).map
          fun r hr => ⟨fun x hx => (List.mem_append.mp hx).elim (hacc.1 x)
            fun hx => List.mem_singleton.mp hx ▸ hr.1, hr.2⟩) ([], s) ⟨nofun, h⟩).bind
        fun r hr => OkThen.ok ⟨?_, hr.2⟩
      have hpred : NoBraces (if (predNames (ic.get I).k).isSome then (s.preds I).getD "" ++ ", "
          else "") := by
        split_ifs
        · cases hp : s.preds I
          · decide
          · simp +decide only [Option.getD_some, noBraces_append, h.preds I _ hp, and_true]
        · decide
      have hext : NoBraces (if (ic.get I).k = .sext ∨ (ic.get I).k = .zext ∨
          (ic.get I).k = .trunc then toString (ic.get I).width ++ ", " else "") := by
        split_ifs
        · simp +decide only [noBraces_append, noBraces_toString_nat, and_true]
        · decide
      simp +decide only [noBraces_append, hpre, hop', hext, hpred,
        noBraces_intercalate (by decide : NoBraces ", ") hr.1, and_true]

theorem genRHSCreator_unbraced {s : SymbolTable} (h : s.Unbraced) :
    ∀ fuel I, OkThen (genRHSCreator ic fuel I s) NoBraces
  | 0, _ => OkThen.error _
  | fuel + 1, I => by
    simp only [genRHSCreator]
    cases hop : createOps (ic.get I).k with
    | none => exact OkThen.error _
    | some op =>
      refine (OkThen.ok (noBraces_createOps hop)).bind fun op hop' => ?_
      refine (OkThen.mapM NoBraces fun c _ => ?_).bind fun args hargs => OkThen.ok ?_
      · split
        · rename_i n ns hn
          exact OkThen.ok (h.names c n (by rw [hn]; exact List.mem_cons_self n ns))
        · exact genRHSCreator_unbraced h fuel c
      · have hw : NoBraces (if (ic.get I).k = .trunc ∨ (ic.get I).k = .sext ∨
            (ic.get I).k = .zext then ", T(" ++ toString (ic.get I).width ++ ", B)" else "") := by
          split_ifs
          · simp +decide only [noBraces_append, noBraces_toString_nat, and_true]
          · decide
        simp +decide only [noBraces_append, hop', hw,
          noBraces_intercalate (by decide : NoBraces ", ") hargs, and_true]

theorem genReturn_unbraced {s : SymbolTable} (h : s.Unbraced) (rhs : Nat) :
    OkThen (genReturn ic s rhs) NoBraces := by
  unfold genReturn
  split
  · rename_i n ns hn
    exact OkThen.ok (by simp +decide only [noBraces_append,
      h.names rhs n (by rw [hn]; exact List.mem_cons_self n ns), and_true])
  · split_ifs
    · exact OkThen.ok (by simp +decide only [noBraces_append, noBraces_toString_nat,
        noBraces_toString_int, and_true])
    · exact (genRHSCreator_unbraced ic h _ _).map fun t ht => by
        simp +decide only [noBraces_append, ht, and_true]

theorem matcherSymbols_unbraced (visited : Nat → Bool) (R : ParsedReplacement)
    {syms : SymbolTable} (h : syms.Unbraced) :
    OkThen (matcherSymbols ic visited R syms) fun p => p.2.Unbraced :=
  (genVarPropConstraints_unbraced ic (genVarEqConstraints_unbraced ic h) _).map fun s hs =>
    genDomConstraints_unbraced ic _ _ (visited, s) hs

end Passes

-- ════════════════════════════════════════════════════════════════════════
-- A rule's block
-- ════════════════════════════════════════════════════════════════════════

section Block

variable (ic : InstContext)

/-- The guard opens a block exactly when it has a conjunct. -/
theorem braceDepth_printConstraintsPre {cs : List Constraint} (h : ∀ c ∈ cs, NoBraces c.print)
    (d : Nat) :
    braceDepth d (printConstraintsPre cs).data = some (d + if cs.isEmpty then 0 else 1) := by
  unfold printConstraintsPre
  split_ifs
  · rfl
  · have hg : NoBraces ("if (" ++ " && ".intercalate (cs.map Constraint.print)) :=
      noBraces_append.mpr ⟨by decide, noBraces_intercalate (by decide : NoBraces " && ")
        fun x hx => by obtain ⟨c, hc, rfl⟩ := List.mem_map.mp hx; exact h c hc⟩
    rw [String.data_append, braceDepth_append, hg.braceDepth]
    rfl

/-- ... and closes it after the block of the match. -/
theorem braceDepth_printConstraintsPost (cs : List Constraint) (d : Nat) :
    braceDepth (d + if cs.isEmpty then 0 else 1) (printConstraintsPost cs).data = some d := by
  unfold printConstraintsPost
  split_ifs <;> rfl

/-- The block `GenMatcher` writes for a rule is balanced: the rule's block, the block of the
match, and the guard's block when it has a conjunct, each closed at the end. -/
theorem genMatcher_balanced (visited : Nat → Bool) (R : ParsedReplacement) (optID : Nat) : OkThen (genMatcher ic visited R optID).2 Balanced := by
  unfold genMatcher
  split
  · exact OkThen.error _
  · rename_i decls syms hinit
    obtain ⟨hdecls, hsyms⟩ := initSymbolTable_unbraced ic hinit
    split
    · exact OkThen.error _
    · rename_i lhsText s' hlhs
      have hl := (genLHSMatcher_unbraced ic _ _ syms hsyms (lhsText, s') hlhs).1
      split
      · exact OkThen.error _
      · rename_i visited' syms₂ hsymb
        have h₂ : syms₂.Unbraced := matcherSymbols_unbraced ic visited R hsyms _ hsymb
        obtain ⟨hcd, hcd'⟩ := printConstDecls_unbraced ic h₂
        refine (genReturn_unbraced ic hcd' _).map fun ret hret => ?_
        have e₁ : ∀ d, braceDepth d "\x7b\n".data = some (d + 1) := fun _ => rfl
        have e₂ : ∀ d, braceDepth d ")) \x7b\n".data = some (d + 1) := fun _ => rfl
        have e₃ : ∀ d, braceDepth (d + 2) ['\n', '\x7d', '\n', '\x7d'] = some d := fun _ => rfl
        simp only [Balanced, String.data_append, braceDepth_append, e₁, e₂, hdecls.braceDepth,
          hl.braceDepth, hcd.braceDepth, hret.braceDepth, Option.some_bind,
          (show NoBraces "if (match(I, " by decide).braceDepth,
          (show NoBraces "  St.hit(" by decide).braceDepth,
          (show NoBraces ");\n" by decide).braceDepth, (noBraces_toString_nat optID).braceDepth,
          braceDepth_printConstraintsPre h₂.constraints]
        rw [show ∀ k : Nat, 0 + 1 + 1 + k = 0 + k + 2 from fun k => by omega, e₃, Option.some_bind,
          braceDepth_printConstraintsPost]



end Block

section Main

variable (ic : InstContext) (opts : Options) (print : InstContext → ParsedReplacement → String)
  (getKindName : Kind → String)

/-- What `main`'s loop keeps of its output: no block is open before the first rule that survives
the filters, and afterwards exactly the opcode block of the last such rule; `first` stays set
only while `Last` is still `None`. -/
structure OutsInv (st : MainState) : Prop where
  depth : braceDepth 0 st.outs.data = some (if st.first then 0 else 1)
  last : st.first = true → st.last = .none

theorem mainStep_outsInv {R : ParsedReplacement} (hp : NoBraces (print ic R))
    (hK : (ic.get R.mapping.lhs).k ≠ .none) {st st' : MainState} (hi : OutsInv st)
    (h : mainStep ic opts print getKindName st R = some st') :
    OutsInv st' ∧ (st.first = false → st'.first = false) ∧
      (ignored ic opts R = false → st'.first = false) := by
  by_cases hig : ignored ic opts R = true
  · rw [mainStep, if_pos hig] at h
    cases h
    exact ⟨hi, id, fun h => absurd hig (by simp [h])⟩
  rw [mainStep, if_neg hig] at h
  dsimp only at h
  generalize hKd : (ic.get R.mapping.lhs).k = K at h hK
  have hopen : braceDepth 0 (if K ≠ st.last then { st with
        outs := st.outs ++ (if st.first then "" else "\x7d\n") ++ "if (" ++ kindCheck K ++ ") \x7b\n"
        first := false } else st).outs.data = some 1 ∧
      (if K ≠ st.last then { st with
        outs := st.outs ++ (if st.first then "" else "\x7d\n") ++ "if (" ++ kindCheck K ++ ") \x7b\n"
        first := false } else st).first = false := by
    by_cases hne : K = st.last
    · have hfst : st.first = false := by
        cases hfs : st.first
        · rfl
        · exact absurd (hne.trans (hi.last hfs)) hK
      rw [if_neg (not_not.mpr hne)]
      exact ⟨by simpa [hfst] using hi.depth, hfst⟩
    · rw [if_pos hne]
      refine ⟨?_, rfl⟩
      have hd := hi.depth
      cases hfst : st.first <;> simp only [hfst, Bool.false_eq_true, if_true, if_false] at hd ⊢ <;>
        simp only [String.data_append, braceDepth_append, hd, Option.some_bind,
          (noBraces_kindCheck K).braceDepth] <;> rfl
  generalize (if K ≠ st.last then { st with
        outs := st.outs ++ (if st.first then "" else "\x7d\n") ++ "if (" ++ kindCheck K ++ ") \x7b\n"
        first := false } else st) = st₁ at hopen h
  obtain ⟨hd, hf⟩ := hopen
  have hfin : OutsInv st' ∧ st'.first = false := by
    split at h
    · cases h
    · cases h
      exact ⟨⟨by simpa [hf] using hd, by simp [hf]⟩, hf⟩
    · rename_i text htext
      split_ifs at h <;> cases h
      · exact ⟨⟨by simpa [hf] using hd, by simp [hf]⟩, hf⟩
      · refine ⟨⟨?_, by simp [hf]⟩, hf⟩
        have hb := genMatcher_balanced ic st₁.visited R st₁.optnumber text htext
        simp only [hf, Bool.false_eq_true, if_false, String.data_append, braceDepth_append, hd,
          Option.some_bind, hp.braceDepth, hb.braceDepth, (noBraces_toString_nat _).braceDepth,
          (show NoBraces "/* Opt : " by decide).braceDepth, (show NoBraces "\n" by decide).braceDepth,
          (show NoBraces "*/\n" by decide).braceDepth]
  exact ⟨hfin.1, fun _ => hfin.2, fun _ => hfin.2⟩

/-- Over a run of the loop: the invariant holds throughout, and `first` is clear at the end once
it was clear at the start or a rule of the run survived the filters. -/
theorem mainLoop_outsInv : ∀ (l : List ParsedReplacement) {s s' : MainState},
    (∀ R ∈ l, NoBraces (print ic R)) → (∀ R ∈ l, (ic.get R.mapping.lhs).k ≠ .none) →
    OutsInv s → l.foldlM (mainStep ic opts print getKindName) s = some s' →
    OutsInv s' ∧ (s.first = false ∨ (∃ R ∈ l, ignored ic opts R = false) → s'.first = false)
  | [], _, _, _, _, hs, h => by
    cases h
    exact ⟨hs, fun h => h.elim id fun ⟨_, h, _⟩ => absurd h (List.not_mem_nil _)⟩
  | R :: l, s, s', hp, hK, hs, h => by
    rw [List.foldlM_cons] at h
    obtain ⟨s₁, h₁, h₂⟩ := Option.bind_eq_some.mp h
    obtain ⟨hs₁, hmono, hsurv⟩ := mainStep_outsInv ic opts print getKindName
      (hp R (List.mem_cons_self R l)) (hK R (List.mem_cons_self R l)) hs h₁
    obtain ⟨hs', hfin⟩ := mainLoop_outsInv l (fun R' h' => hp R' (List.mem_cons_of_mem R h'))
      (fun R' h' => hK R' (List.mem_cons_of_mem R h')) hs₁ h₂
    refine ⟨hs', fun hc => hfin ?_⟩
    rcases hc with hc | ⟨R', hR', hR's⟩
    · exact .inl (hmono hc)
    · rcases List.mem_cons.mp hR' with rfl | hR'
      · exact .inl (hsurv hR's)
      · exact .inr ⟨R', hR', hR's⟩

/-- When a rule survives the filters, the braces of what `main` writes to `llvm::outs` pair up:
each rule's block is balanced, the opcode block of a run of one LHS kind is closed when the next
run opens, and the last one by the brace written after the loop. The rules' printed texts have
no brace, and no LHS has the kind `None` that `Last` starts from. -/
theorem main_balanced (srt : RuleSort) {inputs : List ParsedReplacement}
    (hp : ∀ R ∈ inputs, NoBraces (print ic R))
    (hK : ∀ R ∈ inputs, (ic.get R.mapping.lhs).k ≠ .none)
    (hsurv : ∃ R ∈ inputs, ignored ic opts R = false) {out err : String}
    (h : main ic opts print getKindName srt inputs = some (out, err)) : Balanced out := by
  simp only [main, Option.bind_eq_bind] at h
  obtain ⟨st, hst, hout⟩ := Option.bind_eq_some.mp h
  have hmem : ∀ R, R ∈ srt.sort (lhsKindKey ic) inputs ↔ R ∈ inputs := fun _ => mem_sort_iff ic srt
  obtain ⟨hinv, hfirst⟩ := mainLoop_outsInv ic opts print getKindName _
    (fun R hR => hp R ((hmem R).mp hR)) (fun R hR => hK R ((hmem R).mp hR))
    (show OutsInv ⟨fun _ => false, 0, .none, true, "", ""⟩ from ⟨rfl, fun _ => rfl⟩) hst
  cases hout
  have hd := hinv.depth
  obtain ⟨R, hR, hRs⟩ := hsurv
  rw [hfirst (.inr ⟨R, (hmem R).mpr hR, hRs⟩)] at hd
  simp only [Balanced, String.data_append, braceDepth_append, hd, Option.some_bind]
  rfl

/-- `x + 0 ⇒ x` at width 8. -/
def addZeroIc : InstContext := ⟨[.var 8 "x", .const (.ofNat 8 0), .op .add 8 [0, 1]]⟩

def addZeroRule : ParsedReplacement := ⟨⟨2, 0⟩, [], []⟩

theorem main_balanced_addZero :
    ∃ out err, main addZeroIc {} (fun _ _ => "") (fun _ => "") insertionRuleSort [addZeroRule] =
      some (out, err) ∧ Balanced out :=
  have hs : (main addZeroIc {} (fun _ _ => "") (fun _ => "") insertionRuleSort
    [addZeroRule]).isSome := by decide
  ⟨_, _, (Option.some_get hs).symm, main_balanced addZeroIc {} _ _ insertionRuleSort
    (fun _ _ => by decide) (fun R hR => by rw [List.mem_singleton.mp hR]; decide)
    ⟨addZeroRule, List.mem_singleton_self _, by decide⟩ (Option.some_get hs).symm⟩

end Main

end Souper.MatcherGen
