import Mathlib.GroupTheory.OrderOfElement
import Refutation.Proofs.Check
import Refutation.Proofs.Variants

/-!
# Steps by renaming

The checker accepts a renaming if no two bindings have the same target, whatever the clause. A target
may also be a variable of the clause that is not bound itself, and then two variables become one.

* `Clause.InstanceOf`: what a substitution makes of a clause.
* `Clause.InstanceOf.injOn`: a substitution that can be undone takes no two variables to one term.
* `Substitution.KeepsApart`: no variable takes the name of one that keeps its own.
* `Proof.renamed_variant_iff`: when a step by renaming can be undone.
-/

namespace Refutation

/-! ## Instances that leave the whole as it is -/

/-- An instance that is the term itself binds none of its variables. -/
theorem Term.eq_var_of_inst_eq_self {v : Var → Term} {t : Term} (h : t.inst v = t) :
    ∀ x ∈ t.occurrences, v x = .var x := by
  induction t using Term.ind with
  | var y =>
    intro x hx
    cases List.mem_singleton.mp hx
    exact h
  | const c => exact nofun
  | app f args ih =>
    rw [inst_app] at h
    intro x hx
    obtain ⟨s, hs, hxs⟩ := mem_occurrences_app.mp hx
    have hfix : s.inst v = s := List.map_inj_left.mp ((app.inj h).2.trans (List.map_id _).symm) s hs
    exact ih s hs hfix x hxs

theorem Literal.eq_var_of_inst_eq_self {v : Var → Term} {l : Literal} (h : l.inst v = l) :
    ∀ x ∈ l.occurrences, v x = .var x := by
  intro x hx
  obtain ⟨t, ht, hxt⟩ := Atom.mem_occurrences.mp hx
  have hargs := congrArg (fun m => m.atom.args) h
  simp only [inst, Atom.inst, Atom.args_map] at hargs
  have hfix : t.inst v = t := List.map_inj_left.mp (hargs.trans (List.map_id _).symm) t ht
  exact Term.eq_var_of_inst_eq_self hfix x hxt

namespace Clause

variable {c d : Clause}

/-- An instance of a clause that has the same literals again can be undone: it permutes the literals,
so some power of it leaves each as it is. -/
theorem exists_undo {θ : Var → Term} (hmem : ∀ l ∈ c, l.inst θ ∈ c)
    (honto : ∀ k ∈ c, ∃ l ∈ c, l.inst θ = k) :
    ∃ η : Var → Term, ∀ x ∈ c.vars, (θ x).inst η = .var x := by
  have hfin : Finite {l // l ∈ c} := c.literals.finite_toSet
  let f : {l // l ∈ c} → {l // l ∈ c} := fun l => ⟨l.1.inst θ, hmem l.1 l.2⟩
  have hsurj : Function.Surjective f := by
    rintro ⟨k, hk⟩
    obtain ⟨l, hl, rfl⟩ := honto k hk
    exact ⟨⟨l, hl⟩, rfl⟩
  let π : Equiv.Perm {l // l ∈ c} :=
    Equiv.ofBijective f ⟨Finite.injective_iff_surjective.mpr hsurj, hsurj⟩
  -- The powers of the permutation are instances too.
  have hpow : ∀ n, ∃ η : Var → Term, ∀ l, ((π ^ n) l).1 = l.1.inst η := by
    intro n
    induction n with
    | zero => exact ⟨.var, fun l => l.1.inst_id.symm⟩
    | succ n ih =>
      obtain ⟨η, hη⟩ := ih
      refine ⟨fun x => (θ x).inst η, fun l => ?_⟩
      rw [pow_succ, Equiv.Perm.mul_apply, hη, ← Literal.inst_inst]
      rfl
  obtain ⟨n, hn, hone⟩ := isOfFinOrder_iff_pow_eq_one.mp (isOfFinOrder_of_finite π)
  obtain ⟨η, hη⟩ := hpow (n - 1)
  refine ⟨η, fun x hx => ?_⟩
  obtain ⟨l, hl, hxl⟩ := mem_occurrences.mp (mem_vars.mp hx)
  have hback : l.inst (fun x => (θ x).inst η) = l := by
    calc l.inst (fun x => (θ x).inst η) = (π ⟨l, hl⟩).1.inst η := (Literal.inst_inst ..).symm
      _ = ((π ^ (n - 1)) (π ⟨l, hl⟩)).1 := (hη _).symm
      _ = ((π ^ n) ⟨l, hl⟩).1 := by rw [← Equiv.Perm.mul_apply, ← pow_succ, Nat.sub_add_cancel hn]
      _ = l := by rw [hone]; rfl
  exact Literal.eq_var_of_inst_eq_self hback x hxl

/-! ## Instances of each other -/

/-- A substitution makes the first clause of the second, up to the order of literals. -/
def InstanceOf (d c : Clause) : Prop := ∃ σ : Substitution, (c.subst σ).same d = true

/-- A substitution that can be undone takes different variables to different terms. -/
theorem InstanceOf.injOn {σ : Substitution} (h : c.InstanceOf d) (hσ : (c.subst σ).same d = true) :
    ∀ x ∈ c.vars, ∀ y ∈ c.vars, σ.image x = σ.image y → x = y := by
  obtain ⟨τ, hτ⟩ := h
  rw [same_iff] at hσ hτ
  have hinst : ∀ l : Literal, l.inst (fun x => (σ.image x).inst τ.image) = (l.subst σ).subst τ :=
    fun l => by rw [Literal.subst_eq_inst, Literal.subst_eq_inst, Literal.inst_inst]
  obtain ⟨η, hη⟩ := exists_undo (c := c) (θ := fun x => (σ.image x).inst τ.image)
    (fun l hl => by
      rw [hinst]
      exact (hτ _).mp (mem_subst.mpr ⟨_, (hσ _).mp (mem_subst.mpr ⟨l, hl, rfl⟩), rfl⟩))
    (fun k hk => by
      obtain ⟨m, hm, rfl⟩ := mem_subst.mp ((hτ k).mpr hk)
      obtain ⟨l, hl, rfl⟩ := mem_subst.mp ((hσ m).mpr hm)
      exact ⟨l, hl, hinst l⟩)
  intro x hx y hy hxy
  have hvar : Term.var x = Term.var y := by
    rw [← hη x hx, ← hη y hy, hxy]
  exact Term.var.inj hvar

/-- A variant is an instance. -/
theorem Variant.instanceOf (h : c.Variant d) : d.InstanceOf c := by
  obtain ⟨π, hπ⟩ := h
  obtain ⟨σ, hσ⟩ := c.exists_subst_eq_inst fun x => .var (π x)
  refine ⟨σ, same_iff.mpr fun k => ?_⟩
  rw [mem_subst, hπ]
  exact exists_congr fun l => and_congr_right fun hl => by rw [hσ l hl, Literal.rename]

/-- Different names for different variables lead to a variant. -/
theorem variant_of_injOn {σ : Substitution} {f : Var → Var}
    (hf : ∀ x ∈ c.vars, σ.image x = .var (f x))
    (hinj : ∀ x ∈ c.vars, ∀ y ∈ c.vars, f x = f y → x = y) (h : (c.subst σ).same d = true) :
    c.Variant d := by
  obtain ⟨π, hπ⟩ := Var.exists_perm hinj
  have hsubst : ∀ l ∈ c, l.subst σ = l.rename π :=
    subst_eq_rename fun x hx => by rw [hf x hx, hπ x hx]
  refine ⟨π, fun k => (same_iff.mp h k).symm.trans (mem_subst.trans ?_)⟩
  exact exists_congr fun l => and_congr_right fun hl => by rw [hsubst l hl]

end Clause

/-! ## Bindings that keep variables apart -/

namespace Substitution

variable {ρ : Substitution}

/-- None of the variables takes the name of another that keeps its own. -/
def KeepsApart (ρ : Substitution) (vs : List Var) : Prop :=
  ∀ x ∈ vs, ∀ y ∈ vs, ρ.get? x = some (.var y) → ρ.get? y ≠ none

instance (ρ : Substitution) (vs : List Var) : Decidable (ρ.KeepsApart vs) :=
  inferInstanceAs (Decidable (∀ x ∈ vs, ∀ y ∈ vs, ρ.get? x = some (.var y) → ρ.get? y ≠ none))

/-- For a renaming this is all it takes to be one-to-one. -/
theorem keepsApart_iff (h : ρ.isRenaming = true) {vs : List Var} :
    ρ.KeepsApart vs ↔ ∀ x ∈ vs, ∀ y ∈ vs, ρ.image x = ρ.image y → x = y := by
  obtain ⟨hvar, hinj⟩ := isRenaming_iff.mp h
  constructor
  · intro hapart x hx y hy hxy
    cases hgx : ρ.get? x with
    | none =>
      cases hgy : ρ.get? y with
      | none =>
        rw [image_of_unbound hgx, image_of_unbound hgy] at hxy
        exact Term.var.inj hxy
      | some t =>
        rw [image_of_unbound hgx, image_of_get? hgy] at hxy
        exact (hapart y hy x hx (hxy ▸ hgy) hgx).elim
    | some s =>
      cases hgy : ρ.get? y with
      | none =>
        rw [image_of_get? hgx, image_of_unbound hgy] at hxy
        exact (hapart x hx y hy (hxy ▸ hgx) hgy).elim
      | some t =>
        rw [image_of_get? hgx, image_of_get? hgy] at hxy
        exact hinj x y s hgx (hxy ▸ hgy)
  · intro hone x hx y hy hgx hgy
    have hxy := hone x hx y hy ((image_of_get? hgx).trans (image_of_unbound hgy).symm)
    rw [hxy, hgy] at hgx
    cases hgx

theorem exists_var_of_isRenaming (h : ρ.isRenaming = true) :
    ∃ f : Var → Var, ∀ x, ρ.image x = .var (f x) := by
  have hex : ∀ x, ∃ y, ρ.image x = .var y := by
    intro x
    cases hx : ρ.get? x with
    | none => exact ⟨x, image_of_unbound hx⟩
    | some t =>
      obtain ⟨y, rfl⟩ := (isRenaming_iff.mp h).1 x t hx
      exact ⟨y, image_of_get? hx⟩
  exact ⟨fun x => (hex x).choose, fun x => (hex x).choose_spec⟩

/-- What a renaming makes of a clause has the clause as an instance exactly if it keeps the variables
apart. -/
theorem instanceOf_iff_keepsApart (h : ρ.isRenaming = true) {c d : Clause}
    (hd : (c.subst ρ).same d = true) : c.InstanceOf d ↔ ρ.KeepsApart c.vars := by
  rw [keepsApart_iff h]
  refine ⟨fun hback => hback.injOn hd, fun hinj => ?_⟩
  obtain ⟨f, hf⟩ := exists_var_of_isRenaming h
  refine (Clause.variant_of_injOn (fun x _ => hf x) (fun x hx y hy hxy => ?_) hd).symm.instanceOf
  exact hinj x hx y hy (by rw [hf, hf, hxy])

end Substitution

/-! ## Steps that check -/

theorem Rule.exists_of_check_rename {ρ : Substitution} {c : Clause} {premises : List Clause}
    {u : Unit} (h : (rename ρ).check c premises = .ok u) :
    ∃ d, premises = [d] ∧ ρ.isRenaming = true ∧ (d.subst ρ).same c = true := by
  rcases check_cases h with hin | ⟨_, d, -, rfl⟩ | ⟨_, _, hne, -⟩ | ⟨_, _, _, _, _, hne, -⟩ |
    ⟨_, _, _, _, _, _, _, hne, -⟩
  · cases hin
  · exact ⟨d, rfl, check_rename.mp h⟩
  all_goals cases hne

namespace Proof

/-- A step that cites a single clause cites a single step of the proof. -/
theorem exists_premise {p : Proof} {s : Step} (hs : s ∈ p.steps) {c : Clause}
    (h : (s.premises.filterMap fun i => p.derivation.steps[i]?.map Step.conclusion) = [c]) :
    ∃ i, ∃ t ∈ p.steps, s.premises = [i] ∧ p.derivation.steps[i]? = some t ∧ t.conclusion = c := by
  obtain ⟨-, hclosed⟩ := p.derivation.order_closed p.rooted
  obtain ⟨j, hj, hlt, rfl⟩ := mem_steps.mp hs
  have hmem : ∀ i ∈ p.derivation.steps[j].premises,
      ∃ t ∈ p.steps, p.derivation.steps[i]? = some t := by
    intro i hi
    obtain ⟨_, hprem⟩ := hclosed j hj
    obtain ⟨hilt, -⟩ := hclosed i (hprem i hi)
    exact ⟨_, mem_steps.mpr ⟨i, hprem i hi, hilt, rfl⟩, Array.getElem?_eq_getElem hilt⟩
  match hp : p.derivation.steps[j].premises, h with
  | [i], h =>
    obtain ⟨t, ht, hit⟩ := hmem i (by simp [hp])
    refine ⟨i, t, ht, rfl, hit, ?_⟩
    simpa [hit] using h
  | i :: k :: rest, h =>
    obtain ⟨t, -, hit⟩ := hmem i (by simp [hp])
    obtain ⟨u, -, hku⟩ := hmem k (by simp [hp])
    simp [hit, hku] at h

/-- A step by renaming states an instance of the one step that it cites. It can be undone, and so
renames nothing but variables apart, exactly if no variable of the cited clause takes the name of
another that keeps its own. -/
theorem renamed_variant_iff (p : Proof) (h : p.verify = .ok ()) {s : Step} (hs : s ∈ p.steps)
    {ρ : Substitution} (hr : s.rule = .rename ρ) :
    ∃ i, ∃ t ∈ p.steps, s.premises = [i] ∧ p.derivation.steps[i]? = some t ∧
      s.conclusion.InstanceOf t.conclusion ∧
      (t.conclusion.InstanceOf s.conclusion ↔ ρ.KeepsApart t.conclusion.vars) := by
  have hcheck := verify_eq_ok.mp h s hs
  rw [Derivation.checkStep, hr] at hcheck
  obtain ⟨c, hc, hren, hsame⟩ := Rule.exists_of_check_rename hcheck
  obtain ⟨i, t, ht, hi, hget, rfl⟩ := exists_premise hs hc
  exact ⟨i, t, ht, hi, hget, ⟨ρ, hsame⟩, Substitution.instanceOf_iff_keepsApart hren hsame⟩

/-- Two variables in a literal. -/
def pair (x y : String) : Clause := .ofList [.pos (.pred "P" [.var ⟨x⟩, .var ⟨y⟩])]

/-- `P(x, y)`, and what a renaming makes of it. -/
def ofRenaming (d : Clause) (ρ : Substitution) : Proof where
  derivation := (Derivation.empty.input (pair "x" "y") .premise).push ⟨d, .rename ρ, [0]⟩ (by
    intro i hi
    cases List.mem_singleton.mp hi
    exact Derivation.empty.size_lt_input ..)
  root := 1
  rooted := Nat.lt_succ_self 1

theorem mem_steps_ofRenaming (d : Clause) (ρ : Substitution) :
    ⟨d, .rename ρ, [0]⟩ ∈ (ofRenaming d ρ).steps ∧
      ⟨pair "x" "y", .premise, []⟩ ∈ (ofRenaming d ρ).steps := by
  obtain ⟨hroot, hclosed⟩ := (ofRenaming d ρ).derivation.order_closed (ofRenaming d ρ).rooted
  obtain ⟨hlt, hprem⟩ := hclosed 1 hroot
  exact ⟨mem_steps.mpr ⟨1, hroot, hlt, rfl⟩,
    mem_steps.mpr ⟨0, hprem 0 List.mem_cons_self, Nat.zero_lt_two, rfl⟩⟩

/-- Each of two variables takes the name of the other. -/
def exchange : Substitution := .ofList [(⟨"x"⟩, .var ⟨"y"⟩), (⟨"y"⟩, .var ⟨"x"⟩)]

/-- From `P(x, y)` to `P(y, x)`, where neither variable keeps its name. -/
def exchanged : Proof := ofRenaming (pair "y" "x") exchange

theorem exchanged_variant :
    exchanged.verify = .ok () ∧
      (∃ s ∈ exchanged.steps, s.conclusion = pair "y" "x" ∧ s.rule = .rename exchange) ∧
      (pair "y" "x").InstanceOf (pair "x" "y") ∧ (pair "x" "y").InstanceOf (pair "y" "x") := by
  have hv : exchanged.verify = .ok () := by decide +kernel
  have hs := (mem_steps_ofRenaming (pair "y" "x") exchange).1
  obtain ⟨_, t, -, hi, hget, hinst, hiff⟩ := renamed_variant_iff exchanged hv hs rfl
  cases hi
  cases hget
  exact ⟨hv, ⟨_, hs, rfl, rfl⟩, hinst, hiff.mpr (by decide +kernel)⟩

/-- From `P(x, y)` to `P(y, y)`, where one variable takes the name of the other, which keeps it. -/
def merged : Proof := ofRenaming (pair "y" "y") (.single ⟨"x"⟩ (.var ⟨"y"⟩))

/-- Every step checks, and the premise of the renaming is no instance of what it states. -/
theorem merged_not_variant :
    merged.verify = .ok () ∧ ∃ s ∈ merged.steps, ∃ t ∈ merged.steps,
      s.rule = .rename (.single ⟨"x"⟩ (.var ⟨"y"⟩)) ∧ s.premises = [0] ∧
      merged.derivation.steps[0]? = some t ∧ ¬t.conclusion.InstanceOf s.conclusion := by
  obtain ⟨hs, ht⟩ := mem_steps_ofRenaming (pair "y" "y") (.single ⟨"x"⟩ (.var ⟨"y"⟩))
  refine ⟨by decide +kernel, _, hs, _, ht, rfl, rfl, rfl, ?_⟩
  have hiff := Substitution.instanceOf_iff_keepsApart (ρ := .single ⟨"x"⟩ (.var ⟨"y"⟩))
    (c := pair "x" "y") (d := pair "y" "y") (by decide) (by decide +kernel)
  exact hiff.not.mpr (by decide +kernel)

end Proof

end Refutation
