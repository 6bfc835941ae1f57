import Refutation.Proofs.Resolvents
import Refutation.Proofs.Variants

/-!
# Either order

Two terms may be unified in either order, and two clauses resolved in either order: what comes of it
differs in the names of variables only. Of two variables the one is bound to the other or that to it,
depending on the order, so the renaming between the two sides changes along the way.

* `Unifier.Alike`: terms that are the same under two sets of bindings, but for a renaming.
* `Unifier.InStep`: two attempts that keep alike what is alike, and fail for the same kind of reason.
* `Unifier.extend_symmetric`, `Unifier.terms_symmetric`, `Unifier.literals_swap`: unification in either
  order.
* `resolventsApart_swap`, `Session.resolvents_symmetric`: resolution in either order.
-/

namespace Refutation

/-! ## Unification -/

namespace Unifier

variable {u : Unifier} {σ τ : Substitution} {δ : Equiv.Perm Var}

/-- What the first bindings make of the first term, the second make of the second, but for a
renaming. -/
def Alike (δ : Equiv.Perm Var) (σ τ : Substitution) (r r' : Term) : Prop :=
  r'.subst τ = (r.subst σ).rename δ

/-- Two attempts, one from each of two sets of bindings: both succeed or both fail, for the same kind
of reason, and what was alike before them is alike after them. -/
structure InStep (δ : Equiv.Perm Var) (σ τ : Substitution) (a b : Attempt) : Prop where
  resolved : a.bindings.Resolved
  resolved' : b.bindings.Resolved
  error : a.error.map UnifyError.ctorIdx = b.error.map UnifyError.ctorIdx
  keeps : ∃ ε : Equiv.Perm Var, ∀ r r', Alike δ σ τ r r' → Alike ε a.bindings b.bindings r r'

theorem InStep.stay (hσ : σ.Resolved) (hτ : τ.Resolved) {e e' : Option UnifyError}
    (h : e.map UnifyError.ctorIdx = e'.map UnifyError.ctorIdx) : InStep δ σ τ ⟨σ, e⟩ ⟨τ, e'⟩ :=
  ⟨hσ, hτ, h, δ, fun _ _ => id⟩

theorem InStep.error_cases {a b : Attempt} (h : InStep δ σ τ a b) :
    (a.error = none ∧ b.error = none) ∨
      ∃ e e', a.error = some e ∧ b.error = some e' ∧ e.ctorIdx = e'.ctorIdx := by
  have herror := h.error
  cases ha : a.error <;> cases hb : b.error <;> simp_all

theorem InStep.andThen {a b : Attempt} {next next' : Substitution → Attempt} (h : InStep δ σ τ a b)
    (hnext : ∀ ε, (∀ r r', Alike δ σ τ r r' → Alike ε a.bindings b.bindings r r') →
      InStep ε a.bindings b.bindings (next a.bindings) (next' b.bindings)) :
    InStep δ σ τ (a.andThen next) (b.andThen next') := by
  unfold Attempt.andThen
  rcases h.error_cases with ⟨ha, hb⟩ | ⟨e, e', ha, hb, -⟩
  · rw [ha, hb]
    obtain ⟨ε, hε⟩ := h.keeps
    have hn := hnext ε hε
    obtain ⟨ζ, hζ⟩ := hn.keeps
    exact ⟨hn.resolved, hn.resolved', hn.error, ζ, fun r r' hr => hζ r r' (hε r r' hr)⟩
  · rw [ha, hb]
    exact h

theorem InStep.toExcept {a b : Attempt} (h : InStep δ σ τ a b) :
    (a.toExcept = .ok a.bindings ∧ b.toExcept = .ok b.bindings) ∨
      ∃ e e', a.toExcept = .error e ∧ b.toExcept = .error e' ∧ e.ctorIdx = e'.ctorIdx := by
  rcases h.error_cases with ⟨ha, hb⟩ | ⟨e, e', ha, hb, he⟩
  · exact .inl ⟨Attempt.toExcept_eq_ok.mpr ⟨ha, rfl⟩, Attempt.toExcept_eq_ok.mpr ⟨hb, rfl⟩⟩
  · exact .inr ⟨e, e', Attempt.toExcept_eq_error.mpr ha, Attempt.toExcept_eq_error.mpr hb, he⟩

/-- A way to unify two terms that does the same to them in the other order. -/
def Symmetric (attempt : Term → Term → Substitution → Attempt) : Prop :=
  ∀ (δ : Equiv.Perm Var) (s t s' t' : Term) (σ τ : Substitution), σ.Resolved → τ.Resolved →
    Alike δ σ τ s s' → Alike δ σ τ t t' → InStep δ σ τ (attempt s t σ) (attempt t' s' τ)

/-! ### Bindings -/

theorem subst_single_rename (x : Var) (t r : Term) :
    (r.rename δ).subst (.single (δ x) (t.rename δ)) = (r.subst (.single x t)).rename δ := by
  simp only [Term.subst_eq_inst, Term.rename, Term.inst_inst]
  refine Term.inst_congr fun y _ => ?_
  rw [Term.inst_var, Substitution.image_single, Substitution.image_single]
  by_cases h : y = x
  · rw [if_pos h, if_pos (congrArg δ h)]
  · rw [if_neg h, if_neg (δ.injective.ne h)]
    rfl

/-- Whichever of two variables is bound to the other, the rest is the same but for these two. -/
theorem subst_single_swap (x y : Var) (r : Term) :
    (r.subst (.single y (.var x))).rename δ =
      (r.subst (.single x (.var y))).rename ((Equiv.swap x y).trans δ) := by
  simp only [Term.subst_eq_inst, Term.rename, Term.inst_inst]
  refine Term.inst_congr fun z _ => ?_
  rw [Substitution.image_single, Substitution.image_single]
  by_cases hx : z = x
  · subst hx
    rw [if_pos rfl]
    split <;> simp
  · rw [if_neg hx]
    by_cases hy : z = y
    · subst hy
      simp
    · simp [hy, Equiv.swap_apply_of_ne_of_ne hx hy]

/-- A variable is bound to a term on both sides. -/
theorem bindVar_inStep (hu : u.occursCheck = true) (hσ : σ.Resolved) (hτ : τ.Resolved) {x : Var}
    {t : Term} (hx : σ.get? x = none) (ht : ∀ y ∈ t.occurrences, σ.get? y = none)
    (hx' : τ.get? (δ x) = none) (ht' : ∀ y ∈ (t.rename δ).occurrences, τ.get? y = none) :
    InStep δ σ τ (u.bindVar x t σ) (u.bindVar (δ x) (t.rename δ) τ) := by
  have hself : t.subst σ = t := Term.subst_eq_self ht
  have hself' : (t.rename δ).subst τ = t.rename δ := Term.subst_eq_self ht'
  unfold bindVar
  by_cases hocc : x ∈ t.occurrences
  · have hocc' : δ x ∈ (t.rename δ).occurrences := Term.mem_occurrences_rename.mpr hocc
    rw [if_pos (by simp [hu, Term.hasVar_iff, hocc]), if_pos (by simp [hu, Term.hasVar_iff, hocc'])]
    exact .stay hσ hτ rfl
  · have hocc' : δ x ∉ (t.rename δ).occurrences := mt Term.mem_occurrences_rename.mp hocc
    rw [if_neg (by simp [hu, Term.hasVar_iff, hocc]), if_neg (by simp [hu, Term.hasVar_iff, hocc'])]
    refine ⟨hσ.bind hx (by rwa [hself]), hτ.bind hx' (by rwa [hself']), rfl, δ, fun r r' hr => ?_⟩
    show r'.subst (τ.bind (δ x) (t.rename δ)) = (r.subst (σ.bind x t)).rename δ
    rw [Term.subst_bind hx', Term.subst_bind hx, hself, hself', hr, subst_single_rename]

/-- Of two variables the first is bound to the second on one side, and the second to the first on the
other: from here on the two trade places. -/
theorem bindVar_inStep_swap (hu : u.occursCheck = true) (hσ : σ.Resolved) (hτ : τ.Resolved) {x y : Var}
    (hne : x ≠ y) (hx : σ.get? x = none) (hy : σ.get? y = none) (hx' : τ.get? (δ x) = none)
    (hy' : τ.get? (δ y) = none) :
    InStep δ σ τ (u.bindVar x (.var y) σ) (u.bindVar (δ y) (.var (δ x)) τ) := by
  have hself : (Term.var y).subst σ = .var y := Substitution.image_of_unbound hy
  have hself' : (Term.var (δ x)).subst τ = .var (δ x) := Substitution.image_of_unbound hx'
  have hne' : δ y ≠ δ x := δ.injective.ne hne.symm
  unfold bindVar
  rw [if_neg (by simp [hu, Term.hasVar_iff, hne]), if_neg (by simp [hu, Term.hasVar_iff, hne'])]
  refine ⟨hσ.bind hx (by simpa [hself] using hne), hτ.bind hy' (by simpa [hself'] using hne'), rfl,
    (Equiv.swap x y).trans δ, fun r r' hr => ?_⟩
  show r'.subst (τ.bind (δ y) (.var (δ x))) = (r.subst (σ.bind x (.var y))).rename _
  rw [Term.subst_bind hy', Term.subst_bind hx, hself, hself', hr, ← subst_single_swap]
  exact subst_single_rename y (.var x) (r.subst σ)

/-! ### Terms -/

theorem pairwise_inStep {attempt : Term → Term → Substitution → Attempt} (h : Symmetric attempt)
    {ss ts ss' ts' : List Term} (hσ : σ.Resolved) (hτ : τ.Resolved)
    (hs : List.Forall₂ (Alike δ σ τ) ss ss') (ht : List.Forall₂ (Alike δ σ τ) ts ts') :
    InStep δ σ τ (pairwise attempt ss ts σ) (pairwise attempt ts' ss' τ) := by
  induction ss generalizing ts ss' ts' σ τ δ with
  | nil =>
    cases hs
    cases ht <;> exact .stay hσ hτ rfl
  | cons s ss ih =>
    cases hs with
    | cons hs hss =>
      cases ht with
      | nil => exact .stay hσ hτ rfl
      | cons ht hts =>
        have hfirst := h _ _ _ _ _ _ _ hσ hτ hs ht
        exact hfirst.andThen fun ε hε => ih hfirst.resolved hfirst.resolved'
          (hss.imp fun r r' => hε r r') (hts.imp fun r r' => hε r r')

theorem lists_inStep {attempt : Term → Term → Substitution → Attempt} (h : Symmetric attempt)
    {ss ts ss' ts' : List Term} (hσ : σ.Resolved) (hτ : τ.Resolved)
    (hs : List.Forall₂ (Alike δ σ τ) ss ss') (ht : List.Forall₂ (Alike δ σ τ) ts ts') :
    InStep δ σ τ (lists attempt ss ts σ) (lists attempt ts' ss' τ) := by
  unfold lists
  rw [← hs.length_eq, ← ht.length_eq]
  by_cases hlen : ss.length = ts.length
  · rw [if_pos hlen, if_pos hlen.symm]
    exact pairwise_inStep h hσ hτ hs ht
  · rw [if_neg hlen, if_neg (Ne.symm hlen)]
    exact .stay hσ hτ rfl

theorem alike_map {rs : List Term} (h : ∀ r ∈ rs, Alike δ σ τ r (r.rename δ)) :
    List.Forall₂ (Alike δ σ τ) rs (rs.map (Term.rename δ)) := by
  rwa [List.forall₂_map_right_iff, List.forall₂_same]

/-- The arguments of a resolved application are alike as they are. -/
theorem alike_args {f : FunSym} {rs : List Term}
    (h : ∀ y ∈ (Term.app f rs).occurrences, σ.get? y = none)
    (h' : ∀ y ∈ (Term.app f (rs.map (Term.rename δ))).occurrences, τ.get? y = none) :
    List.Forall₂ (Alike δ σ τ) rs (rs.map (Term.rename δ)) := by
  refine alike_map fun r hr => ?_
  rw [Alike, Term.subst_eq_self fun y hy => h y (Term.mem_occurrences_app.mpr ⟨r, hr, hy⟩)]
  exact Term.subst_eq_self fun y hy =>
    h' y (Term.mem_occurrences_app.mpr ⟨_, List.mem_map_of_mem hr, hy⟩)

theorem extend_symmetric (hu : u.occursCheck = true) (levels : Nat) : Symmetric (u.extend levels) := by
  induction levels with
  | zero => exact fun _ _ _ _ _ _ _ hσ hτ _ _ => .stay hσ hτ rfl
  | succ levels ih =>
    intro δ s t s' t' σ τ hσ hτ hs ht
    have hsr : ∀ y ∈ (s.subst σ).occurrences, σ.get? y = none := fun y => hσ.unbound
    have htr : ∀ y ∈ (t.subst σ).occurrences, σ.get? y = none := fun y => hσ.unbound
    have hsr' : ∀ y ∈ (s'.subst τ).occurrences, τ.get? y = none := fun y => hτ.unbound
    have htr' : ∀ y ∈ (t'.subst τ).occurrences, τ.get? y = none := fun y => hτ.unbound
    rw [Alike] at hs ht
    rw [extend, extend]
    rw [hs] at hsr' ⊢
    rw [ht] at htr' ⊢
    generalize s.subst σ = p at *
    generalize t.subst σ = q at *
    by_cases heq : p = q
    · rw [if_pos heq, if_pos (by rw [heq])]
      exact .stay hσ hτ rfl
    · rw [if_neg heq, if_neg ((Term.rename_injective δ).ne (Ne.symm heq))]
      cases p with
      | var x =>
        have hx : σ.get? x = none := hsr x (by simp)
        have hx' : τ.get? (δ x) = none := hsr' (δ x) (by simp)
        cases q with
        | var y =>
          exact bindVar_inStep_swap hu hσ hτ (by simpa using heq) hx (htr y (by simp)) hx'
            (htr' (δ y) (by simp))
        | const c => exact bindVar_inStep hu hσ hτ hx htr hx' htr'
        | app g ts =>
          have hbind := bindVar_inStep hu hσ hτ hx htr hx' htr'
          rw [Term.rename_app] at hbind ⊢
          exact hbind
      | const c =>
        cases q with
        | var y => exact bindVar_inStep hu hσ hτ (htr y (by simp)) hsr (htr' (δ y) (by simp)) hsr'
        | const d => exact .stay hσ hτ rfl
        | app g ts =>
          rw [Term.rename_app]
          exact .stay hσ hτ rfl
      | app f ss =>
        cases q with
        | var y => exact bindVar_inStep hu hσ hτ (htr y (by simp)) hsr (htr' (δ y) (by simp)) hsr'
        | const d =>
          rw [Term.rename_app]
          exact .stay hσ hτ rfl
        | app g ts =>
          rw [Term.rename_app] at hsr' htr' ⊢
          rw [Term.rename_app]
          simp only
          by_cases hname : f.name = g.name
          · rw [if_pos hname, if_pos hname.symm]
            exact lists_inStep ih hσ hτ (alike_args hsr hsr') (alike_args htr htr')
          · rw [if_neg hname, if_neg (Ne.symm hname)]
            exact .stay hσ hτ rfl

/-- Two terms unify in either order or in neither. The two unifiers make the same of every variable, but
for a permutation of the variables, and the two errors are of the same kind, also where they come from
the depth limit. -/
theorem terms_symmetric {u : Unifier} (hu : u.occursCheck = true) (s t : Term) :
    (∃ θ₁ θ₂, u.terms s t = .ok θ₁ ∧ u.terms t s = .ok θ₂ ∧ ∃ ρ : Equiv.Perm Var, ∀ x : Var,
      (Term.var x).subst θ₂ = ((Term.var x).subst θ₁).rename ρ) ∨
    ∃ e₁ e₂, u.terms s t = .error e₁ ∧ u.terms t s = .error e₂ ∧ e₁.ctorIdx = e₂.ctorIdx := by
  -- With nothing bound every term is like itself, all variables being left where they are.
  have hself : ∀ r : Term, Alike (Equiv.refl Var) .empty .empty r r := fun r => (Term.inst_id _).symm
  have hstep : InStep (Equiv.refl Var) .empty .empty (u.extendTerms s t .empty)
      (u.extendTerms t s .empty) :=
    extend_symmetric hu _ _ s t s t _ _ Substitution.resolved_empty Substitution.resolved_empty (hself s)
      (hself t)
  rcases hstep.toExcept with ⟨hok, hok'⟩ | herror
  · obtain ⟨ρ, hρ⟩ := hstep.keeps
    exact .inl ⟨_, _, hok, hok', ρ, fun x => hρ _ _ (hself (.var x))⟩
  · exact .inr herror

/-- Variables in a row, each next to the one after it. -/
def row : Term × Term :=
  (.fn "f" [.var ⟨"x"⟩, .var ⟨"y"⟩, .var ⟨"z"⟩], .fn "f" [.var ⟨"y"⟩, .var ⟨"z"⟩, .var ⟨"w"⟩])

/-- In one order all of them become the last, in the other the first. -/
theorem row_symmetric :
    ({} : Unifier).terms row.1 row.2 =
      .ok (.ofList [(⟨"x"⟩, .var ⟨"w"⟩), (⟨"y"⟩, .var ⟨"w"⟩), (⟨"z"⟩, .var ⟨"w"⟩)]) ∧
    ({} : Unifier).terms row.2 row.1 =
      .ok (.ofList [(⟨"y"⟩, .var ⟨"x"⟩), (⟨"z"⟩, .var ⟨"x"⟩), (⟨"w"⟩, .var ⟨"x"⟩)]) ∧
    ∃ θ₁ θ₂, ({} : Unifier).terms row.1 row.2 = .ok θ₁ ∧ ({} : Unifier).terms row.2 row.1 = .ok θ₂ ∧
      ∃ ρ : Equiv.Perm Var, ∀ x : Var, (Term.var x).subst θ₂ = ((Term.var x).subst θ₁).rename ρ := by
  have hok : ({} : Unifier).terms row.1 row.2 =
      .ok (.ofList [(⟨"x"⟩, .var ⟨"w"⟩), (⟨"y"⟩, .var ⟨"w"⟩), (⟨"z"⟩, .var ⟨"w"⟩)]) := by cbv
  refine ⟨hok, by cbv, (terms_symmetric (u := {}) rfl row.1 row.2).resolve_right ?_⟩
  rintro ⟨e, -, he, -⟩
  cases hok.symm.trans he

/-! ### Atoms and literals -/

theorem alike_rename (π : Equiv.Perm Var) (r : Term) : Alike π .empty .empty r (r.rename π) := by
  rw [Alike, Term.subst_eq_self fun _ _ => rfl, Term.subst_eq_self fun _ _ => rfl]

theorem extendAtoms_inStep (hu : u.occursCheck = true) (π : Equiv.Perm Var) (a b : Atom) :
    InStep π .empty .empty (u.extendAtoms a b .empty)
      (u.extendAtoms (b.inst fun x => .var (π x)) (a.inst fun x => .var (π x)) .empty) := by
  have hterms : Symmetric u.extendTerms := extend_symmetric hu _
  have hempty := Substitution.resolved_empty
  have hargs : ∀ rs : List Term, List.Forall₂ (Alike π .empty .empty) rs (rs.map (Term.rename π)) :=
    fun rs => alike_map fun r _ => alike_rename π r
  cases a with
  | pred p ss =>
    cases b with
    | pred q ts =>
      show InStep _ _ _ (if p = q then _ else _) (if q = p then _ else _)
      by_cases hpq : p = q
      · rw [if_pos hpq, if_pos hpq.symm]
        exact lists_inStep hterms hempty hempty (hargs ss) (hargs ts)
      · rw [if_neg hpq, if_neg (Ne.symm hpq)]
        exact .stay hempty hempty rfl
    | eq => exact .stay hempty hempty rfl
  | eq l r =>
    cases b with
    | pred => exact .stay hempty hempty rfl
    | eq l' r' =>
      have hfirst := hterms π l l' _ _ _ _ hempty hempty (alike_rename π l) (alike_rename π l')
      exact hfirst.andThen fun ε hε => hterms ε r r' _ _ _ _ hfirst.resolved hfirst.resolved'
        (hε _ _ (alike_rename π r)) (hε _ _ (alike_rename π r'))

/-- Two literals unify in either order or in neither, and the two unifiers make the same of every
literal, but for a renaming. -/
theorem literals_swap (hu : u.occursCheck = true) (π : Equiv.Perm Var) (l m : Literal) :
    (∃ σ τ, u.literals l m = .ok σ ∧ u.literals (m.rename π) (l.rename π) = .ok τ ∧
      ∃ δ : Equiv.Perm Var, ∀ k : Literal, (k.rename π).subst τ = (k.subst σ).rename δ) ∨
    ∃ e e', u.literals l m = .error e ∧ u.literals (m.rename π) (l.rename π) = .error e' := by
  have hstep := extendAtoms_inStep hu π l.atom m.atom
  obtain ⟨δ, hδ⟩ := hstep.keeps
  rcases hstep.toExcept with ⟨hσ, hτ⟩ | ⟨e, e', he, he', -⟩
  · refine .inl ⟨_, _, hσ, hτ, δ, fun k => ?_⟩
    rw [Literal.subst_eq_inst, Literal.subst_eq_inst, Literal.rename, Literal.rename, Literal.inst_inst,
      Literal.inst_inst]
    exact Literal.inst_congr fun x _ => hδ _ _ (alike_rename π (.var x))
  · exact .inr ⟨e, e', he, he'⟩

end Unifier

/-! ## Resolution -/

section Resolution

variable {u : Unifier} {left right left' right' : Clause} {π : Equiv.Perm Var}

/-- The resolvent on two literals as it is before its variables get fresh names. -/
def resolventOn (u : Unifier) (left right : Clause) (l m : Literal) : Option Clause :=
  if l.positive = m.positive || !l.sameSignature m then none
  else match u.literals l m with
    | .error _ => none
    | .ok σ => some ((Clause.ofList (left.without l ++ right.without m)).subst σ)

theorem resolveOn_shape (u : Unifier) (left right : Clause) (l m : Literal) (ns : NameSource) :
    (resolveOn u left right l m ns).map (fun r => r.1.conclusion.shape) =
      (resolventOn u left right l m).map Clause.shape := by
  unfold resolveOn resolventOn
  split
  · rfl
  · cases u.literals l m with
    | error e => rfl
    | ok σ => exact congrArg some (Clause.shape_eq.mpr (Clause.instantiateFresh_variant _ σ ns).symm)

theorem without_rename (h : left'.literals = left.literals.map (Literal.rename π)) (l : Literal) :
    left'.without (l.rename π) = (left.without l).map (Literal.rename π) := by
  rw [Clause.without, h, List.filter_map, Clause.without]
  congr 1
  refine List.filter_congr fun k _ => ?_
  simp [(Literal.rename_injective π).eq_iff]

theorem sameSignature_swap (l m : Literal) :
    (m.rename π).sameSignature (l.rename π) = l.sameSignature m := by
  simp only [Literal.sameSignature, Literal.rename, Literal.inst, Atom.symbol_inst, Atom.arity_inst]
  rw [BEq.comm, @BEq.comm _ _ _ m.atom.arity]

/-- In the other order, two literals have the same resolvent up to names. -/
theorem resolventOn_swap (hu : u.occursCheck = true)
    (hleft : left'.literals = left.literals.map (Literal.rename π))
    (hright : right'.literals = right.literals.map (Literal.rename π)) (l m : Literal) :
    (resolventOn u right' left' (m.rename π) (l.rename π)).map Clause.shape =
      (resolventOn u left right l m).map Clause.shape := by
  unfold resolventOn
  rw [sameSignature_swap]
  have hsign : ((m.rename π).positive = (l.rename π).positive) = (l.positive = m.positive) :=
    propext eq_comm
  simp only [hsign]
  split
  · rfl
  · rcases Unifier.literals_swap hu π l m with ⟨σ, τ, hσ, hτ, δ, hδ⟩ | ⟨e, e', he, he'⟩
    · rw [hσ, hτ]
      refine congrArg some (Clause.shape_eq.mpr (Clause.Variant.symm ⟨δ, fun k => ?_⟩))
      -- The same literals are left on both sides, and the two unifiers make the same of each.
      simp only [Clause.mem_subst, Clause.mem_ofList, without_rename hleft, without_rename hright,
        List.mem_append, List.mem_map]
      constructor
      · rintro ⟨_, ⟨j, hj, rfl⟩ | ⟨j, hj, rfl⟩, rfl⟩
        · exact ⟨_, ⟨j, .inr hj, rfl⟩, (hδ j).symm⟩
        · exact ⟨_, ⟨j, .inl hj, rfl⟩, (hδ j).symm⟩
      · rintro ⟨_, ⟨j, hj, rfl⟩, rfl⟩
        exact ⟨j.rename π, hj.symm.imp (⟨j, ·, rfl⟩) (⟨j, ·, rfl⟩), hδ j⟩
    · rw [he, he']

/-- A view of the results that the names drawn make no difference to is the view of one candidate after
the other. -/
theorem map_tryEach {α β γ : Type} {attempt : α → NameSource → Option (β × NameSource)} {f : β → γ}
    {g : α → Option γ} (h : ∀ a ns, (attempt a ns).map (fun r => f r.1) = g a) (as : List α)
    (ns : NameSource) : (tryEach attempt as ns).1.map f = as.filterMap g := by
  induction as generalizing ns with
  | nil => rfl
  | cons a as ih =>
    rw [tryEach, List.filterMap_cons, ← h a ns]
    cases attempt a ns with
    | none => exact ih ns
    | some r => exact congrArg _ (ih r.2)

theorem resolventsApart_shape (u : Unifier) (left right : Clause) (ns : NameSource) :
    (resolventsApart u left right ns).1.map (fun i => i.conclusion.shape) =
      (left.literals ×ˢ right.literals).filterMap
        fun p => (resolventOn u left right p.1 p.2).map Clause.shape :=
  map_tryEach (fun p ns => resolveOn_shape u left right p.1 p.2 ns) _ ns

/-- The pairs of literals in the other order. -/
theorem product_swap (hleft : left'.literals = left.literals.map (Literal.rename π))
    (hright : right'.literals = right.literals.map (Literal.rename π)) :
    ((left.literals ×ˢ right.literals).map fun p => (p.2.rename π, p.1.rename π)).Perm
      (right'.literals ×ˢ left'.literals) := by
  have hinj : Function.Injective fun p : Literal × Literal => (p.2.rename π, p.1.rename π) := by
    rintro ⟨l, m⟩ ⟨l', m'⟩ h
    obtain ⟨hm, hl⟩ := Prod.mk.inj h
    exact Prod.ext (Literal.rename_injective π hl) (Literal.rename_injective π hm)
  rw [List.perm_ext_iff_of_nodup ((left.nodup.product right.nodup).map hinj)
    (right'.nodup.product left'.nodup)]
  rintro ⟨m, l⟩
  simp only [List.mem_map, List.mem_product, hleft, hright, Prod.exists, Prod.mk.injEq]
  grind

/-- Two clauses and their renamings have the same resolvents up to names, whichever comes first. -/
theorem resolventsApart_swap (hu : u.occursCheck = true)
    (hleft : left'.literals = left.literals.map (Literal.rename π))
    (hright : right'.literals = right.literals.map (Literal.rename π)) (ns ns' : NameSource) :
    ((resolventsApart u left right ns).1.map fun i => i.conclusion.shape).Perm
      ((resolventsApart u right' left' ns').1.map fun i => i.conclusion.shape) := by
  rw [resolventsApart_shape, resolventsApart_shape]
  refine .trans (.of_eq ?_) ((product_swap hleft hright).filterMap _)
  rw [List.filterMap_map]
  exact List.filterMap_congr fun p _ => (resolventOn_swap hu hleft hright p.1 p.2).symm

end Resolution

/-! ## Sessions -/

namespace Session

/-- The second clause, renamed apart if need be, has none of the variables of the first. -/
theorem separate_rename (s : Session) (left right : Sourced) : ∃ α : Equiv.Perm Var,
    (s.separate left right).1.clause.literals = right.clause.literals.map (Literal.rename α) ∧
    ∀ x ∈ right.clause.vars, α x ∉ left.clause.vars := by
  rcases s.separate_cases left right with ⟨he, hdisj⟩ | ⟨ns, he⟩
  · rw [he]
    exact ⟨Equiv.refl Var, (List.map_id'' Literal.rename_refl _).symm, hdisj⟩
  · obtain ⟨α, hliterals, hα⟩ := right.clause.renameApart_rename left.clause.vars ns
    rw [he]
    exact ⟨α, hliterals, fun x hx => (hα x hx).2.1⟩

/-- One renaming takes the clauses as they are separated in one order to the clauses as they are
separated in the other. -/
theorem separate_swap (s s' : Session) (c e : Sourced) : ∃ π : Equiv.Perm Var,
    (s'.separate e c).1.clause.literals = c.clause.literals.map (Literal.rename π) ∧
    e.clause.literals = (s.separate c e).1.clause.literals.map (Literal.rename π) := by
  obtain ⟨α, hα, hαc⟩ := s.separate_rename c e
  obtain ⟨β, hβ, hβe⟩ := s'.separate_rename e c
  -- The variables of the first clause go where its own renaming takes them, those of the second back.
  have hinj : ∀ x ∈ c.clause.vars ++ e.clause.vars.map α, ∀ y ∈ c.clause.vars ++ e.clause.vars.map α,
      (if x ∈ c.clause.vars then β x else α.symm x) = (if y ∈ c.clause.vars then β y else α.symm y) →
      x = y := by
    have hback : ∀ z ∈ c.clause.vars ++ e.clause.vars.map α, z ∉ c.clause.vars →
        α.symm z ∈ e.clause.vars := by
      intro z hz hzc
      obtain ⟨w, hw, rfl⟩ := List.mem_map.mp ((List.mem_append.mp hz).resolve_left hzc)
      rwa [Equiv.symm_apply_apply]
    intro x hx y hy h
    by_cases hxc : x ∈ c.clause.vars
    · by_cases hyc : y ∈ c.clause.vars
      · rw [if_pos hxc, if_pos hyc] at h
        exact β.injective h
      · rw [if_pos hxc, if_neg hyc] at h
        exact absurd (h ▸ hback y hy hyc) (hβe x hxc)
    · by_cases hyc : y ∈ c.clause.vars
      · rw [if_neg hxc, if_pos hyc] at h
        exact absurd (h ▸ hback x hx hxc) (hβe y hyc)
      · rw [if_neg hxc, if_neg hyc] at h
        exact α.symm.injective h
  obtain ⟨π, hπ⟩ := Var.exists_perm hinj
  refine ⟨π, hβ.trans (Clause.map_rename_congr fun x hx => ?_), ?_⟩
  · rw [hπ x (List.mem_append_left _ hx), if_pos hx]
  · have hid : ∀ x ∈ e.clause.vars, (Equiv.refl Var) x = (α.trans π) x := by
      intro x hx
      rw [Equiv.trans_apply, hπ (α x) (List.mem_append_right _ (List.mem_map_of_mem hx)),
        if_neg (hαc x hx), Equiv.symm_apply_apply, Equiv.refl_apply]
    rw [hα, List.map_map]
    calc e.clause.literals = e.clause.literals.map (Literal.rename (Equiv.refl Var)) :=
          (List.map_id'' Literal.rename_refl _).symm
      _ = e.clause.literals.map (Literal.rename (α.trans π)) := Clause.map_rename_congr hid
      _ = _ := List.map_congr_left fun l _ => (Literal.rename_rename l).symm

theorem resolvents_shape (s : Session) (u : Unifier) (c e : Sourced) :
    (s.resolvents u c e).1.map (fun r => r.clause.shape) =
      (resolventsApart u c.clause (s.separate c e).1.clause (s.separate c e).2.names).1.map
        fun i => i.conclusion.shape := by
  have hclauses : (s.resolvents u c e).1.map Sourced.clause =
      (resolventsApart u c.clause (s.separate c e).1.clause (s.separate c e).2.names).1.map
        Inference.conclusion := record_clauses ..
  have hshapes := congrArg (List.map Clause.shape) hclauses
  rw [List.map_map, List.map_map] at hshapes
  exact hshapes

/-- Two clauses have the same resolvents in either order, one for one, up to the names of variables. -/
theorem resolvents_symmetric {u : Unifier} (hu : u.occursCheck = true) (s s' : Session) (c e : Sourced) :
    ∃ ds : List Clause, ds.Perm ((s'.resolvents u e c).1.map Sourced.clause) ∧
      List.Forall₂ Clause.Variant ((s.resolvents u c e).1.map Sourced.clause) ds := by
  obtain ⟨π, hc, he⟩ := separate_swap s s' c e
  have hperm := resolventsApart_swap hu hc he (s.separate c e).2.names (s'.separate e c).2.names
  rw [← resolvents_shape, ← resolvents_shape] at hperm
  have hself : List.Forall₂ (fun q d => q = Clause.shape d)
      ((s'.resolvents u e c).1.map fun r => r.clause.shape) ((s'.resolvents u e c).1.map Sourced.clause) := by
    rw [List.forall₂_map_left_iff, List.forall₂_map_right_iff, List.forall₂_same]
    exact fun _ _ => rfl
  -- The permutation of the classes is one of the clauses.
  obtain ⟨ds, hds, hperm'⟩ := List.perm_comp_forall₂ hperm hself
  refine ⟨ds, hperm', ?_⟩
  rw [List.forall₂_map_left_iff] at hds ⊢
  exact hds.imp fun _ _ => Clause.shape_eq.mp

/-- Each of two literals is resolved with each of two others, and one of the variables is in both
clauses. In either order `P(x)` is resolved with `~P(A)`, which leaves `P(y) | Q(A) | ~P(z) | R(z)` up to
names. -/
theorem twice_denials_symmetric :
    (({ names := { stem := "c" } } : Session).resolvents {} twice denials).1.length = 4 ∧
      [.pos (.pred "P" [.var ⟨"c3"⟩]), .pos (.pred "Q" [.const "A"]), .neg (.pred "P" [.var ⟨"c4"⟩]),
          .pos (.pred "R" [.var ⟨"c4"⟩])] ∈
        (({ names := { stem := "c" } } : Session).resolvents {} twice denials).1.map (·.clause.literals) ∧
      [.neg (.pred "P" [.var ⟨"d6"⟩]), .pos (.pred "R" [.var ⟨"d6"⟩]), .pos (.pred "P" [.var ⟨"d7"⟩]),
          .pos (.pred "Q" [.const "A"])] ∈
        (({ names := { stem := "d" } } : Session).resolvents {} denials twice).1.map (·.clause.literals) ∧
      ∃ ds : List Clause,
        ds.Perm ((({ names := { stem := "d" } } : Session).resolvents {} denials twice).1.map
          Sourced.clause) ∧
        List.Forall₂ Clause.Variant
          ((({ names := { stem := "c" } } : Session).resolvents {} twice denials).1.map Sourced.clause) ds :=
  ⟨by cbv, by decide +kernel, by decide +kernel, resolvents_symmetric rfl _ _ twice denials⟩

end Session

end Refutation
