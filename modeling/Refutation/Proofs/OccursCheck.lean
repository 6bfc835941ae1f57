import Refutation.Proofs.Unification

/-!
# Without the occurs check

The occurs check ends an attempt at unification or lets it go on; it has no other effect. Up to the
first variable that the check refuses to bind, an attempt with it and one without it make the same
bindings in the same order and come to the same error.

* `Attempt.Permits`: an attempt does what another one does unless the occurs check ends that.
* `Unifier.extend_permits`, `Unifier.extendAtoms_permits`: the attempt without the check does so, by
  induction on the levels it may enter.
* `Unifier.unchecked_same`: what this means for the result.
-/

namespace Refutation

/-- The occurs check refuses a binding. -/
def UnifyError.IsOccurs (e : UnifyError) : Prop := ∃ v t, e = .occurs v t

/-- The second attempt is the first, unless the occurs check ends the first. -/
def Attempt.Permits (a b : Attempt) : Prop := b = a ∨ ∃ e, a.error = some e ∧ e.IsOccurs

namespace Attempt

theorem Permits.refl (a : Attempt) : a.Permits a := .inl rfl

/-- What follows an attempt is reached by neither or by both, with the same bindings. -/
theorem Permits.andThen {a b : Attempt} {next next' : Substitution → Attempt} (h : a.Permits b)
    (hnext : ∀ σ, (next σ).Permits (next' σ)) : (a.andThen next).Permits (b.andThen next') := by
  rcases h with rfl | ⟨e, he, hocc⟩
  · unfold Attempt.andThen
    split
    · exact hnext _
    · exact .refl _
  · exact .inr ⟨e, by rwa [Attempt.andThen, he], hocc⟩

end Attempt

namespace Unifier

theorem bindVar_permits (n : Nat) (x : Var) (t : Term) (σ : Substitution) :
    ((⟨true, n⟩ : Unifier).bindVar x t σ).Permits ((⟨false, n⟩ : Unifier).bindVar x t σ) := by
  unfold bindVar
  by_cases hocc : t.hasVar x = true
  · rw [if_pos (by simpa using hocc)]
    exact .inr ⟨_, rfl, x, t, rfl⟩
  · rw [if_neg (by simpa using hocc), if_neg (by simp)]
    exact .refl _

section Lists

variable {attempt attempt' : Term → Term → Substitution → Attempt}

theorem pairwise_permits (h : ∀ s t σ, (attempt s t σ).Permits (attempt' s t σ)) (ss ts : List Term)
    (σ : Substitution) : (pairwise attempt ss ts σ).Permits (pairwise attempt' ss ts σ) := by
  induction ss generalizing ts σ with
  | nil => exact .refl _
  | cons s ss ih =>
    cases ts with
    | nil => exact .refl _
    | cons t ts => exact (h s t σ).andThen (ih ts)

theorem lists_permits (h : ∀ s t σ, (attempt s t σ).Permits (attempt' s t σ)) (ss ts : List Term)
    (σ : Substitution) : (lists attempt ss ts σ).Permits (lists attempt' ss ts σ) := by
  unfold lists
  split
  · exact pairwise_permits h ss ts σ
  · exact .refl _

end Lists

/-- The two attempts see the same terms under the same bindings, level by level. -/
theorem extend_permits (n levels : Nat) (s t : Term) (σ : Substitution) :
    ((⟨true, n⟩ : Unifier).extend levels s t σ).Permits ((⟨false, n⟩ : Unifier).extend levels s t σ) := by
  induction levels generalizing s t σ with
  | zero => exact .refl _
  | succ levels ih =>
    rw [extend, extend]
    generalize s.subst σ = s'
    generalize t.subst σ = t'
    by_cases heq : s' = t'
    · rw [if_pos heq, if_pos heq]
      exact .refl _
    · rw [if_neg heq, if_neg heq]
      -- The check has a say only where one side is a variable; arguments are a level further down.
      cases s' with
      | var x => exact bindVar_permits n x t' σ
      | const c =>
        cases t' with
        | var x => exact bindVar_permits n x (.const c) σ
        | const | app => exact .refl _
      | app f ss =>
        cases t' with
        | var x => exact bindVar_permits n x (.app f ss) σ
        | const => exact .refl _
        | app g ts =>
          simp only
          split
          · exact lists_permits ih ss ts σ
          · exact .refl _

theorem extendAtoms_permits (n : Nat) (a b : Atom) (σ : Substitution) :
    ((⟨true, n⟩ : Unifier).extendAtoms a b σ).Permits ((⟨false, n⟩ : Unifier).extendAtoms a b σ) := by
  have hterms : ∀ s t σ, ((⟨true, n⟩ : Unifier).extendTerms s t σ).Permits
      ((⟨false, n⟩ : Unifier).extendTerms s t σ) := extend_permits n (n + 1)
  cases a with
  | pred p ss =>
    cases b with
    | pred q ts =>
      rw [extendAtoms, extendAtoms]
      split
      · exact lists_permits hterms ss ts σ
      · exact .refl _
    | eq l r => exact .refl _
  | eq l r =>
    cases b with
    | pred q ts => exact .refl _
    | eq l' r' => exact (hterms l l' σ).andThen (hterms r r')

/-- Results with and without the occurs check: a unifier stays as it is, its bindings in the same order,
and so does every error but that of the check itself. -/
structure SameUnlessOccurs (checked unchecked : Except UnifyError Substitution) : Prop where
  ok : ∀ θ, checked = .ok θ → unchecked = .ok θ
  error : ∀ e, checked = .error e → ¬e.IsOccurs → unchecked = .error e

theorem sameUnlessOccurs_of_permits {a b : Attempt} (h : a.Permits b) :
    SameUnlessOccurs a.toExcept b.toExcept := by
  rcases h with rfl | ⟨e, he, hocc⟩
  · exact ⟨fun _ => id, fun _ he _ => he⟩
  · have herror := Attempt.toExcept_eq_error.mpr he
    refine ⟨fun θ hok => ?_, fun e' he' hne => ?_⟩
    · cases herror.symm.trans hok
    · cases herror.symm.trans he'
      exact absurd hocc hne

/-- To leave the occurs check out changes nothing but what the check itself refuses. -/
theorem unchecked_same (n : Nat) :
    (∀ s t : Term,
      SameUnlessOccurs ((⟨true, n⟩ : Unifier).terms s t) ((⟨false, n⟩ : Unifier).terms s t)) ∧
    ∀ a b : Atom,
      SameUnlessOccurs ((⟨true, n⟩ : Unifier).atoms a b) ((⟨false, n⟩ : Unifier).atoms a b) :=
  ⟨fun s t => sameUnlessOccurs_of_permits (extend_permits n (n + 1) s t .empty),
    fun a b => sameUnlessOccurs_of_permits (extendAtoms_permits n a b .empty)⟩

/-- A second binding that changes the first, and a clash after a binding. -/
theorem pair_unchecked_same : let pair (s t : Term) : Term := .fn "f" [s, t]
    (∃ θ, (⟨true, 9⟩ : Unifier).terms (pair (.var ⟨"x"⟩) (.var ⟨"y"⟩))
        (pair (.fn "g" [.var ⟨"y"⟩]) (.const "A")) = .ok θ ∧
      θ.bindings = [(⟨"x"⟩, .fn "g" [.const "A"]), (⟨"y"⟩, .const "A")] ∧
      (⟨false, 9⟩ : Unifier).terms (pair (.var ⟨"x"⟩) (.var ⟨"y"⟩))
        (pair (.fn "g" [.var ⟨"y"⟩]) (.const "A")) = .ok θ) ∧
    ∃ e, (⟨true, 9⟩ : Unifier).terms (pair (.var ⟨"x"⟩) (.const "A")) (pair (.const "B") (.const "B")) =
        .error e ∧ ¬e.IsOccurs ∧
      (⟨false, 9⟩ : Unifier).terms (pair (.var ⟨"x"⟩) (.const "A")) (pair (.const "B") (.const "B")) =
        .error e := by
  have hclash : ¬(UnifyError.constantClash "A" "B").IsOccurs := fun ⟨v, t, h⟩ => by cases h
  exact ⟨⟨_, rfl, by decide, ((unchecked_same 9).1 _ _).ok _ rfl⟩,
    _, rfl, hclash, ((unchecked_same 9).1 _ _).error _ rfl hclash⟩

/-- The two unifiers part where a variable is to be bound to a term that has it inside. -/
example : let x : Term := .var ⟨"x"⟩
    ((⟨true, 9⟩ : Unifier).terms x (.fn "f" [x])).map (·.bindings) = .error (.occurs ⟨"x"⟩ (.fn "f" [x])) ∧
      ((⟨false, 9⟩ : Unifier).terms x (.fn "f" [x])).map (·.bindings) =
        .ok [(⟨"x"⟩, .fn "f" [x])] := by
  decide

end Unifier

end Refutation
