import Refutation.Proof.Rule

/-!
# Derivations

A derivation is a sequence of steps, each of which cites earlier ones by number. Steps are the
same only if their numbers are: two steps may state the same clause by the same rule.

A clause that takes part in inferences is `Sourced`: it may know the step that produced it. Citing
a clause without a step records a premise for it, and doing so again records another.

* `Derivation.push`: one step more.
* `Derivation.derive`: a clause inferred from parents, with the step that says so.
* `Derivation.order`: the steps below a step, each once and after those it cites.
-/

namespace Refutation

/-- One step: the clause it states, the rule, and the numbers of the steps it cites. -/
structure Step where
  conclusion : Clause
  rule : Rule
  premises : List Nat := []

/-- Steps in sequence, each citing earlier ones only. -/
structure Derivation where
  steps : Array Step
  earlier : ∀ (i : Nat) (h : i < steps.size), ∀ p ∈ steps[i].premises, p < i

/-- A clause with the number of the step that produced it, if it has one. -/
structure Sourced where
  clause : Clause
  step : Option Nat := none

namespace Derivation

def empty : Derivation := ⟨#[], by simp⟩

def size (d : Derivation) : Nat := d.steps.size

/-- The derivation with one step more, which cites steps that are there. -/
def push (d : Derivation) (s : Step) (h : ∀ p ∈ s.premises, p < d.size) : Derivation where
  steps := d.steps.push s
  earlier := by
    intro i hi p hp
    by_cases hlt : i < d.steps.size
    · rw [Array.getElem_push_lt hlt] at hp
      exact d.earlier i hlt p hp
    · rw [Array.size_push] at hi
      have he : i = d.steps.size := by omega
      subst he
      rw [Array.getElem_push_eq] at hp
      exact h p hp

/-- The derivation with one step more; `none` if the step cites what is not there. -/
def push? (d : Derivation) (s : Step) : Option Derivation :=
  if h : ∀ p ∈ s.premises, p < d.size then some (d.push s h) else none

/-- The derivation with a clause taken in by a rule that needs no predecessors. -/
def input (d : Derivation) (c : Clause) (rule : Rule) : Derivation := d.push ⟨c, rule, []⟩ (by simp)

theorem size_input (d : Derivation) (c : Clause) (rule : Rule) : (d.input c rule).size = d.size + 1 :=
  Array.size_push ..

theorem size_lt_input (d : Derivation) (c : Clause) (rule : Rule) : d.size < (d.input c rule).size := by
  rw [size_input]
  exact Nat.lt_succ_self _

/-! ## Citing -/

/-- The step behind a clause. A clause without one is recorded as a premise. -/
def cite (d : Derivation) (c : Sourced) : { r : Derivation × Nat // r.2 < r.1.size ∧ d.size ≤ r.1.size } :=
  let fresh : { r : Derivation × Nat // r.2 < r.1.size ∧ d.size ≤ r.1.size } :=
    ⟨(d.input c.clause .premise, d.size), d.size_lt_input .., Nat.le_of_lt (d.size_lt_input ..)⟩
  match c.step with
  | some i => if h : i < d.size then ⟨(d, i), h, Nat.le_refl _⟩ else fresh
  | none => fresh

/-- The steps behind several clauses, from left to right. -/
def citeAll (d : Derivation) : (cs : List Sourced) →
    { r : Derivation × List Nat // (∀ p ∈ r.2, p < r.1.size) ∧ d.size ≤ r.1.size }
  | [] => ⟨(d, []), by simp⟩
  | c :: cs =>
    let ⟨(d₁, i), h₁⟩ := d.cite c
    let ⟨(d₂, is), h₂⟩ := d₁.citeAll cs
    ⟨(d₂, i :: is), by
      refine ⟨fun p hp => ?_, Nat.le_trans h₁.2 h₂.2⟩
      rcases List.mem_cons.mp hp with rfl | hp
      · exact Nat.lt_of_lt_of_le h₁.1 h₂.2
      · exact h₂.1 p hp⟩

/-- Records that a clause follows from its parents by a rule. -/
def derive (d : Derivation) (c : Clause) (rule : Rule) (parents : List Sourced) : Sourced × Derivation :=
  let ⟨(d, premises), h⟩ := d.citeAll parents
  (⟨c, some d.size⟩, d.push ⟨c, rule, premises⟩ h.1)

/-! ## Order -/

/-- Adds a step to a list of steps after those it cites, unless it is in the list. -/
def visit (d : Derivation) (i : Nat) (order : List Nat) : List Nat :=
  if i ∈ order then order
  else if h : i < d.steps.size then
    d.steps[i].premises.attach.foldl (fun order p => d.visit p.1 order) order ++ [i]
  else order
termination_by i
decreasing_by exact d.earlier i h p.1 p.2

/-- The steps that a step rests on and the step itself, each once and after those it cites. -/
def order (d : Derivation) (root : Nat) : List Nat := d.visit root []

/-- The longest chain of inferences above each step. Inputs have none, and renaming does not
count. -/
def depths (d : Derivation) : Array Nat :=
  d.steps.foldl (fun depths s =>
    let below := (s.premises.map fun p => depths.getD p 0).foldl max 0
    depths.push (match s.rule with
      | .premise | .goal | .builtin _ => 0
      | .rename _ => below
      | _ => below + 1)) #[]

end Derivation

end Refutation
