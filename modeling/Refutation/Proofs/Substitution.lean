import Refutation.Proofs.Interpretation

/-!
# Laws of substitutions

How the operations on substitutions act on single variables (`Substitution.get?`,
`Substitution.image`), and with it on terms.

* `Substitution.same_iff`, `Substitution.get?_restrict`: substitutions as maps.
* `Substitution.Resolved`: no bound variable stands in a bound term.
* `Substitution.WellFormed`: the bound terms are well-formed.
* `Substitution.MoreGeneral`: a map from variables to terms is an instance of the substitution.
* `Substitution.image_bind`: `Substitution.bind` follows the present bindings by the new one.
-/

namespace Refutation

/-! ## Bindings -/

namespace Substitution

theorem lookup_cons_ite (w : Var) (b : Var × Term) (bs : List (Var × Term)) :
    (b :: bs).lookup w = if w = b.1 then some b.2 else bs.lookup w := by
  rw [List.lookup_cons]
  by_cases h : w = b.1
  · simp [h]
  · rw [beq_eq_false_iff_ne.mpr h, if_neg h]

theorem lookup_setBinding (v w : Var) (t : Term) (bs : List (Var × Term)) :
    (setBinding v t bs).lookup w = if w = v then some t else bs.lookup w := by
  induction bs with
  | nil => rw [setBinding, lookup_cons_ite]
  | cons b bs ih =>
    obtain ⟨u, s⟩ := b
    rw [setBinding]
    split
    · subst_vars
      rw [lookup_cons_ite, lookup_cons_ite]
      split <;> rfl
    · rename_i hu
      rw [lookup_cons_ite, lookup_cons_ite, ih]
      by_cases h : w = u
      · rw [if_pos h, if_pos h, if_neg (h ▸ hu)]
      · rw [if_neg h, if_neg h]

@[simp]
theorem get?_empty (w : Var) : empty.get? w = none := rfl

@[simp]
theorem get?_insert (σ : Substitution) (v w : Var) (t : Term) :
    (σ.insert v t).get? w = if w = v then some t else σ.get? w := lookup_setBinding v w t σ.bindings

@[simp]
theorem get?_mapTerms (σ : Substitution) (f : Term → Term) (w : Var) :
    (σ.mapTerms f).get? w = (σ.get? w).map f := by
  show (σ.bindings.map fun b => (b.1, f b.2)).lookup w = (σ.bindings.lookup w).map f
  induction σ.bindings with
  | nil => rfl
  | cons b bs ih =>
    obtain ⟨v, t⟩ := b
    rw [List.map_cons, lookup_cons_ite, lookup_cons_ite, ih]
    by_cases h : w = v
    · rw [if_pos h, if_pos h]; rfl
    · rw [if_neg h, if_neg h]

theorem get?_single (v w : Var) (t : Term) :
    (single v t).get? w = if w = v then some t else none := lookup_cons_ite w (v, t) []

@[simp]
theorem image_empty (w : Var) : empty.image w = .var w := rfl

theorem image_of_get? {σ : Substitution} {v : Var} {t : Term} (h : σ.get? v = some t) :
    σ.image v = t := by
  rw [image, h, Option.getD_some]

theorem image_of_unbound {σ : Substitution} {v : Var} (h : σ.get? v = none) : σ.image v = .var v := by
  rw [image, h, Option.getD_none]

theorem image_insert (σ : Substitution) (v w : Var) (t : Term) :
    (σ.insert v t).image w = if w = v then t else σ.image w := by
  rw [image, get?_insert]
  split <;> rfl

theorem image_single (v w : Var) (t : Term) : (single v t).image w = if w = v then t else .var w := by
  rw [image, get?_single]
  split <;> rfl

/-- Terms are resolved by the present bindings, then the new binding applies. -/
theorem image_bind {σ : Substitution} {v : Var} (h : σ.get? v = none) (t : Term) (w : Var) :
    (σ.bind v t).image w = (σ.image w).subst (single v (t.subst σ)) := by
  rw [bind, image_insert]
  by_cases hw : w = v
  · subst hw
    rw [if_pos rfl, image_of_unbound h, Term.subst_var, image_single, if_pos rfl]
  · rw [if_neg hw, image, get?_mapTerms]
    cases hg : σ.get? w with
    | none => rw [image_of_unbound hg, Term.subst_var, image_single, if_neg hw]; rfl
    | some s => rw [image_of_get? hg]; rfl

theorem get?_bind_eq_none {σ : Substitution} {v w : Var} {t : Term} :
    (σ.bind v t).get? w = none ↔ w ≠ v ∧ σ.get? w = none := by
  rw [bind, get?_insert, get?_mapTerms]
  split <;> simp_all

theorem bindings_insert {σ : Substitution} {v : Var} (h : v ∉ σ.domain) (t : Term) :
    (σ.insert v t).bindings = σ.bindings ++ [(v, t)] := by
  have hset : ∀ bs : List (Var × Term), v ∉ bs.map Prod.fst → setBinding v t bs = bs ++ [(v, t)] := by
    intro bs hv
    induction bs with
    | nil => rfl
    | cons b bs ih =>
      simp only [List.map_cons, List.mem_cons, not_or] at hv
      rw [setBinding, if_neg (Ne.symm hv.1), ih hv.2, List.cons_append]
  exact hset σ.bindings h

/-- Distinct variables are bound as listed. -/
theorem bindings_ofList {pairs : List (Var × Term)} (h : (pairs.map Prod.fst).Nodup) :
    (ofList pairs).bindings = pairs := by
  have hfold : ∀ (ps : List (Var × Term)) (σ : Substitution),
      ((σ.bindings ++ ps).map Prod.fst).Nodup →
      (ps.foldl (fun σ p => σ.insert p.1 p.2) σ).bindings = σ.bindings ++ ps := by
    intro ps
    induction ps with
    | nil => simp
    | cons p ps ih =>
      intro σ hn
      have hp : p.1 ∉ σ.domain := by
        rw [List.map_append, List.map_cons] at hn
        exact fun hm => (List.nodup_append.mp hn).2.2 _ hm _ List.mem_cons_self rfl
      have hi : (σ.insert p.1 p.2).bindings = σ.bindings ++ [p] := bindings_insert hp p.2
      rw [List.foldl_cons, ih _ (by rw [hi, List.append_assoc]; exact hn), hi, List.append_assoc]
      rfl
  exact hfold pairs empty h

/-- What is bound was listed. -/
theorem mem_of_get?_ofList {pairs : List (Var × Term)} {v : Var} {t : Term}
    (h : (ofList pairs).get? v = some t) : (v, t) ∈ pairs := by
  have hfold : ∀ (ps : List (Var × Term)) (σ : Substitution),
      (ps.foldl (fun σ p => σ.insert p.1 p.2) σ).get? v = some t → (v, t) ∈ ps ∨ σ.get? v = some t := by
    intro ps
    induction ps with
    | nil => exact fun σ h => .inr h
    | cons p ps ih =>
      intro σ h
      rcases ih _ h with h | h
      · exact .inl (List.mem_cons_of_mem _ h)
      · rw [get?_insert] at h
        split at h
        · cases h
          subst_vars
          exact .inl List.mem_cons_self
        · exact .inr h
  exact (hfold pairs empty h).resolve_right nofun

/-- What was not listed is unbound. -/
theorem get?_ofList_eq_none {pairs : List (Var × Term)} {v : Var} :
    (ofList pairs).get? v = none ↔ v ∉ pairs.map Prod.fst := by
  have hfold : ∀ (ps : List (Var × Term)) (σ : Substitution),
      (ps.foldl (fun σ p => σ.insert p.1 p.2) σ).get? v = none ↔
        σ.get? v = none ∧ v ∉ ps.map Prod.fst := by
    intro ps
    induction ps with
    | nil => simp
    | cons p ps ih =>
      intro σ
      rw [List.foldl_cons, ih, get?_insert, List.map_cons, List.mem_cons, not_or]
      split
      · rename_i he
        simp [he]
      · rename_i hne
        simp [hne]
  exact (hfold pairs empty).trans (and_iff_right rfl)

/-- The variables of a list paired with terms, as far as either goes. -/
theorem bindings_ofList_zip {vs : List Var} (h : vs.Nodup) (ts : List Term) :
    (ofList (vs.zip ts)).bindings = vs.zip ts := by
  have hsub : ((vs.zip ts).map Prod.fst).Sublist vs := by
    clear h
    induction vs generalizing ts with
    | nil => simp
    | cons v vs ih =>
      cases ts with
      | nil => simp
      | cons t ts => exact (ih ts).cons_cons v
  exact bindings_ofList (h.sublist hsub)

theorem get?_of_mem {σ : Substitution} {v : Var} {t : Term} (h : (v, t) ∈ σ.bindings) :
    σ.get? v = some t := by
  obtain ⟨bs, hn⟩ := σ
  show bs.lookup v = some t
  change (v, t) ∈ bs at h
  induction bs with
  | nil => cases h
  | cons b bs ih =>
    rw [List.map_cons, List.nodup_cons] at hn
    rw [lookup_cons_ite]
    rcases List.mem_cons.mp h with rfl | h
    · rw [if_pos rfl]
    · have hv : v ≠ b.1 := fun e => hn.1 (List.mem_map.mpr ⟨_, h, e⟩)
      rw [if_neg hv, ih hn.2 h]

theorem mem_of_get? {σ : Substitution} {v : Var} {t : Term} (h : σ.get? v = some t) :
    (v, t) ∈ σ.bindings := by
  obtain ⟨l₁, l₂, hl, -⟩ := List.lookup_eq_some_iff.mp h
  rw [hl]
  simp

theorem nodup_domain (σ : Substitution) : σ.domain.Nodup := σ.nodup

theorem get?_of_mem_domain {σ : Substitution} {x : Var} (h : x ∈ σ.domain) :
    σ.get? x = some (σ.image x) := by
  obtain ⟨b, hb, rfl⟩ := List.mem_map.mp h
  have hget := get?_of_mem hb
  rw [image_of_get? hget, hget]

theorem terms_eq (σ : Substitution) : σ.terms = σ.domain.map σ.image := by
  rw [terms, domain, List.map_map]
  exact List.map_congr_left fun b hb => (image_of_get? (get?_of_mem hb)).symm

/-- A variable is unbound if it is not in the domain. -/
theorem get?_eq_none {σ : Substitution} {x : Var} : σ.get? x = none ↔ x ∉ σ.domain := by
  rw [Option.eq_none_iff_forall_ne_some, domain, List.mem_map]
  constructor
  · rintro h ⟨⟨y, t⟩, hb, rfl⟩
    exact h t (get?_of_mem hb)
  · exact fun h t ht => h ⟨_, mem_of_get? ht, rfl⟩

/-- The same bindings are the same map from variables to terms. -/
theorem same_iff {σ τ : Substitution} : σ.same τ = true ↔ ∀ x, σ.get? x = τ.get? x := by
  have hmem : ∀ (υ : Substitution) (b : Var × Term), b ∈ υ.bindings ↔ υ.get? b.1 = some b.2 :=
    fun υ b => ⟨get?_of_mem, mem_of_get?⟩
  have hnodup : ∀ υ : Substitution, υ.bindings.Nodup := fun υ => List.Nodup.of_map _ υ.nodup
  simp only [same, size, Bool.and_eq_true, beq_iff_eq, List.all_eq_true, ← hmem]
  constructor
  · rintro ⟨hlen, hsub⟩ x
    have hp := ((hnodup σ).subperm hsub).perm_of_length_le (Nat.le_of_eq hlen.symm)
    exact Option.ext fun t => by rw [← hmem σ (x, t), ← hmem τ (x, t), hp.mem_iff]
  · intro h
    have hp : σ.bindings.Perm τ.bindings :=
      (List.perm_ext_iff_of_nodup (hnodup σ) (hnodup τ)).mpr fun b => by rw [hmem, hmem, h]
    exact ⟨hp.length_eq, fun b hb => hp.mem_iff.mp hb⟩

/-- A restriction binds the variables to keep as they were bound, and no others. -/
theorem get?_restrict (σ : Substitution) (vs : List Var) (x : Var) :
    (σ.restrict vs).get? x = if x ∈ vs then σ.get? x else none := by
  have hlisted : ∀ t, (x, t) ∈ vs.filterMap (fun v => (σ.get? v).map (v, ·)) ↔
      x ∈ vs ∧ σ.get? x = some t := by
    intro t
    simp only [List.mem_filterMap, Option.map_eq_some_iff, Prod.mk.injEq]
    constructor
    · rintro ⟨v, hv, s, hs, rfl, rfl⟩
      exact ⟨hv, hs⟩
    · exact fun h => ⟨x, h.1, t, h.2, rfl, rfl⟩
  cases h : (σ.restrict vs).get? x with
  | some t =>
    obtain ⟨hx, ht⟩ := (hlisted t).mp (mem_of_get?_ofList h)
    rw [if_pos hx, ht]
  | none =>
    have hnone : ∀ t, (x, t) ∉ vs.filterMap (fun v => (σ.get? v).map (v, ·)) := fun t ht =>
      get?_ofList_eq_none.mp h (List.mem_map.mpr ⟨_, ht, rfl⟩)
    split
    · rename_i hx
      exact (Option.eq_none_iff_forall_ne_some.mpr fun t ht => hnone t ((hlisted t).mpr ⟨hx, ht⟩)).symm
    · rfl

/-- One substitution after the other, on a variable. -/
theorem image_compose (σ τ : Substitution) (x : Var) :
    (σ.compose τ).image x = (σ.image x).subst τ := by
  cases hx : σ.get? x with
  | some t =>
    have hmem : (x, t.subst τ) ∈ (σ.compose τ).bindings :=
      List.mem_append_left _ (List.mem_map.mpr ⟨(x, t), mem_of_get? hx, rfl⟩)
    rw [image_of_get? hx, image_of_get? (get?_of_mem hmem)]
  | none =>
    have hdomain : x ∉ σ.domain := get?_eq_none.mp hx
    rw [image_of_unbound hx, Term.subst_var]
    cases hτ : τ.get? x with
    | some s =>
      have hmem : (x, s) ∈ (σ.compose τ).bindings :=
        List.mem_append_right _ (List.mem_filter.mpr ⟨mem_of_get? hτ, by simpa using hdomain⟩)
      rw [image_of_get? hτ, image_of_get? (get?_of_mem hmem)]
    | none =>
      rw [image_of_unbound hτ]
      refine image_of_unbound (Option.eq_none_iff_forall_ne_some.mpr fun r hr => ?_)
      rcases List.mem_append.mp (mem_of_get? hr) with hm | hm
      · obtain ⟨⟨y, t⟩, hb, he⟩ := List.mem_map.mp hm
        cases he
        exact hdomain (List.mem_map_of_mem (f := Prod.fst) hb)
      · cases hτ.symm.trans (get?_of_mem (List.mem_filter.mp hm).1)

/-- On finitely many variables every map to terms is a substitution. -/
theorem exists_image_eq (v : Var → Term) (vs : List Var) :
    ∃ σ : Substitution, ∀ x ∈ vs, σ.image x = v x := by
  induction vs with
  | nil => exact ⟨empty, nofun⟩
  | cons x vs ih =>
    obtain ⟨σ, hσ⟩ := ih
    refine ⟨σ.insert x (v x), List.forall_mem_cons.mpr ⟨?_, fun y hy => ?_⟩⟩
    · rw [image_insert, if_pos rfl]
    · rw [image_insert]
      split
      · rename_i hyx
        rw [hyx]
      · exact hσ y hy

end Substitution

/-! ## Terms under substitutions -/

namespace Term

theorem subst_congr {σ τ : Substitution} {t : Term} (h : ∀ x ∈ t.occurrences, σ.image x = τ.image x) :
    t.subst σ = t.subst τ := by
  rw [subst_eq_inst, subst_eq_inst]
  exact inst_congr h

theorem subst_eq_self {σ : Substitution} {t : Term} (h : ∀ x ∈ t.occurrences, σ.get? x = none) :
    t.subst σ = t := by
  rw [subst_eq_inst]
  exact (inst_congr fun x hx => Substitution.image_of_unbound (h x hx)).trans (inst_id t)

theorem mem_occurrences_subst {σ : Substitution} {t : Term} {y : Var} :
    y ∈ (t.subst σ).occurrences ↔ ∃ x ∈ t.occurrences, y ∈ (σ.image x).occurrences := by
  rw [subst_eq_inst, mem_occurrences_inst]

/-- A further binding applies to what the present ones have made of a term. -/
theorem subst_bind {σ : Substitution} {x : Var} (hx : σ.get? x = none) (t r : Term) :
    r.subst (σ.bind x t) = (r.subst σ).subst (.single x (t.subst σ)) := by
  rw [subst_eq_inst, subst_eq_inst _ (r.subst σ), inst_subst]
  refine inst_congr fun y _ => ?_
  rw [Substitution.image_bind hx, subst_eq_inst]

end Term

namespace Substitution

/-! ## Resolved substitutions -/

/-- No bound variable stands in a bound term. -/
def Resolved (σ : Substitution) : Prop :=
  ∀ x t, σ.get? x = some t → ∀ y ∈ t.occurrences, σ.get? y = none

theorem resolved_empty : empty.Resolved := nofun

/-- No bound variable is left in a term under a resolved substitution. -/
theorem Resolved.unbound {σ : Substitution} (h : σ.Resolved) {t : Term} {y : Var}
    (hy : y ∈ (t.subst σ).occurrences) : σ.get? y = none := by
  obtain ⟨x, -, hy⟩ := Term.mem_occurrences_subst.mp hy
  cases hx : σ.get? x with
  | none =>
    rw [image_of_unbound hx, Term.occurrences_var, List.mem_singleton] at hy
    exact hy ▸ hx
  | some s =>
    rw [image_of_get? hx] at hy
    exact h x s hx y hy

/-- The same of the bindings as they are listed. -/
theorem Resolved.not_mem_occurrences {σ : Substitution} (h : σ.Resolved) {x : Var} (hx : x ∈ σ.domain)
    {t : Term} (ht : t ∈ σ.terms) : x ∉ t.occurrences := by
  obtain ⟨⟨y, t⟩, hb, rfl⟩ := List.mem_map.mp ht
  exact fun hxt => get?_eq_none.mp (h y t (get?_of_mem hb) x hxt) hx

theorem Resolved.subst_subst {σ : Substitution} (h : σ.Resolved) (t : Term) :
    (t.subst σ).subst σ = t.subst σ := Term.subst_eq_self fun _ => h.unbound

theorem Resolved.bind {σ : Substitution} (h : σ.Resolved) {v : Var} {t : Term} (hv : σ.get? v = none)
    (ht : v ∉ (t.subst σ).occurrences) : (σ.bind v t).Resolved := by
  intro x s hx y hy
  rw [get?_bind_eq_none]
  rw [← image_of_get? hx, image_bind hv] at hy
  obtain ⟨z, hz, hy⟩ := Term.mem_occurrences_subst.mp hy
  rw [image_single] at hy
  split at hy
  · exact ⟨fun e => ht (e ▸ hy), h.unbound hy⟩
  · rename_i hzv
    rw [Term.occurrences_var, List.mem_singleton] at hy
    subst hy
    exact ⟨hzv, h.unbound (t := .var x) hz⟩

/-! ## Well-formed substitutions -/

/-- The bound terms are well-formed. -/
def WellFormed (σ : Substitution) : Prop := ∀ x, (σ.image x).wellFormed = true

theorem wellFormed_empty : empty.WellFormed := fun _ => rfl

end Substitution

theorem Term.wellFormed_subst {σ : Substitution} {t : Term} (ht : t.wellFormed = true)
    (hσ : σ.WellFormed) : (t.subst σ).wellFormed = true := by
  rw [subst_eq_inst]
  exact wellFormed_inst ht fun x _ => hσ x

theorem Atom.wellFormed_subst {σ : Substitution} {a : Atom} (ha : a.wellFormed = true)
    (hσ : σ.WellFormed) : (a.subst σ).wellFormed = true := by
  rw [wellFormed_iff] at ha ⊢
  rw [subst, args_map]
  intro t ht
  obtain ⟨s, hs, rfl⟩ := List.mem_map.mp ht
  exact Term.wellFormed_subst (ha s hs) hσ

theorem Term.subst_compose (σ τ : Substitution) (t : Term) :
    t.subst (σ.compose τ) = (t.subst σ).subst τ := by
  rw [subst_eq_inst, subst_eq_inst τ, inst_subst]
  refine inst_congr fun x _ => ?_
  rw [Substitution.image_compose, subst_eq_inst]

theorem Atom.subst_compose (σ τ : Substitution) (a : Atom) :
    a.subst (σ.compose τ) = (a.subst σ).subst τ := by
  rw [subst, subst, subst, map_map]
  exact map_congr fun t _ => t.subst_compose σ τ

theorem Literal.subst_compose (σ τ : Substitution) (l : Literal) :
    l.subst (σ.compose τ) = (l.subst σ).subst τ := by
  rw [subst, Atom.subst_compose]
  rfl

/-- One substitution after the other, on a clause: literals may collapse on the way or in the end. -/
theorem Clause.subst_compose (σ τ : Substitution) (c : Clause) :
    c.subst (σ.compose τ) = (c.subst σ).subst τ := by
  refine Clause.ext ?_
  have hmap : c.literals.map (Literal.subst (σ.compose τ)) =
      (c.literals.map (Literal.subst σ)).map (Literal.subst τ) := by
    rw [List.map_map]
    exact List.map_congr_left fun l _ => l.subst_compose σ τ
  show (c.literals.map (Literal.subst (σ.compose τ))).eraseDups = _
  rw [hmap, ← eraseDups_map_eraseDups]
  rfl

/-- Where every variable stands for itself the clause stays as it is. -/
theorem Clause.subst_eq_self {c : Clause} {σ : Substitution} (h : ∀ x ∈ c.vars, σ.image x = .var x) :
    c.subst σ = c := by
  have hliterals : c.literals.map (Literal.subst σ) = c.literals := by
    refine (List.map_congr_left fun l hl => ?_).trans (List.map_id _)
    rw [Literal.subst_eq_inst, id]
    exact (inst_congr h hl).trans l.inst_id
  rw [subst, hliterals, ofList_literals]

/-- Literals that stay different stay in their order. -/
theorem Clause.literals_subst {c : Clause} {σ : Substitution}
    (h : ∀ l ∈ c, ∀ m ∈ c, l.subst σ = m.subst σ → l = m) :
    (c.subst σ).literals = c.literals.map (Literal.subst σ) :=
  eraseDups_eq_self (c.nodup.map_on h)

/-- Every instance of a clause is one under a substitution. -/
theorem Clause.exists_subst_eq_inst (c : Clause) (v : Var → Term) :
    ∃ σ : Substitution, ∀ l ∈ c, l.subst σ = l.inst v := by
  obtain ⟨σ, hσ⟩ := Substitution.exists_image_eq v c.vars
  refine ⟨σ, fun l hl => ?_⟩
  rw [Literal.subst_eq_inst]
  exact inst_congr hσ hl

theorem Clause.wellFormed_ofList {ls : List Literal} :
    (ofList ls).wellFormed = true ↔ ∀ l ∈ ls, l.atom.wellFormed = true := by
  simp [wellFormed_iff]

theorem Clause.wellFormed_subst {σ : Substitution} {c : Clause} (hc : c.wellFormed = true)
    (hσ : σ.WellFormed) : (c.subst σ).wellFormed = true := by
  rw [wellFormed_iff] at hc ⊢
  intro m hm
  obtain ⟨l, hl, rfl⟩ := mem_subst.mp hm
  exact Atom.wellFormed_subst (hc l hl) hσ

namespace Substitution

theorem WellFormed.single {v : Var} {t : Term} (h : t.wellFormed = true) : (single v t).WellFormed := by
  intro x
  rw [image_single]
  split
  · exact h
  · rfl

theorem WellFormed.bind {σ : Substitution} (h : σ.WellFormed) {v : Var} {t : Term}
    (hv : σ.get? v = none) (ht : t.wellFormed = true) : (σ.bind v t).WellFormed := by
  intro x
  rw [image_bind hv]
  exact Term.wellFormed_subst (h x) (.single (Term.wellFormed_subst ht h))

/-! ## Instances of a substitution -/

/-- `v` is an instance of the substitution: it can be applied after it without a difference. -/
def MoreGeneral (σ : Substitution) (v : Var → Term) : Prop := ∀ x, (σ.image x).inst v = v x

theorem moreGeneral_empty (v : Var → Term) : empty.MoreGeneral v := fun _ => rfl

theorem MoreGeneral.inst_subst {σ : Substitution} {v : Var → Term} (h : σ.MoreGeneral v) (t : Term) :
    (t.subst σ).inst v = t.inst v := by
  rw [Term.inst_subst]
  exact Term.inst_congr fun x _ => h x

theorem MoreGeneral.atom {σ : Substitution} {v : Var → Term} (h : σ.MoreGeneral v) (a : Atom) :
    (a.subst σ).inst v = a.inst v := by
  rw [Atom.subst_eq_inst, Atom.inst_inst]
  exact congrArg (Atom.inst · a) (funext h)

theorem MoreGeneral.literal {σ : Substitution} {v : Var → Term} (h : σ.MoreGeneral v) (l : Literal) :
    (l.subst σ).inst v = l.inst v := by
  rw [Literal.subst, Literal.inst, h.atom, Literal.inst]

/-- What is more general than a substitution is more general than its instances. -/
theorem MoreGeneral.trans {σ τ : Substitution} {v : Var → Term} (h : σ.MoreGeneral τ.image)
    (h' : τ.MoreGeneral v) : σ.MoreGeneral v := by
  intro x
  rw [← h' x, ← h x, Term.inst_inst]
  exact Term.inst_congr fun y _ => (h' y).symm

/-- Binding a variable to what it stands for anyway keeps the instance. -/
theorem MoreGeneral.bind {σ : Substitution} {v : Var → Term} (h : σ.MoreGeneral v) {x : Var} {t : Term}
    (hx : σ.get? x = none) (ht : v x = t.inst v) : (σ.bind x t).MoreGeneral v := by
  intro y
  have hs : (Substitution.single x (t.subst σ)).MoreGeneral v := by
    intro z
    rw [image_single]
    split
    · rename_i hz
      rw [hz, h.inst_subst, ht]
    · rfl
  rw [image_bind hx, hs.inst_subst, h y]

end Substitution

end Refutation
