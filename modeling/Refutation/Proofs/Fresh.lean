import Refutation.Fresh.Apart
import Refutation.Proofs.Substitution

/-!
# Fresh names

A name source issues different names, so among one more candidates than there are names to avoid
one is free. Hence renaming a clause apart takes its variables to new ones, one to one, and every
instance of the clause is an instance of the renamed one.

* `NameSource.Draws`, `NameSource.fresh_draws`: trying names in order ends with a fresh variable.
  `NameSource.fresh_not_mem`: it is none of those to avoid.
* `Substitution.Freshens`: a substitution gives each variable of a list a new name.
* `Clause.renameApart_freshens`: renaming apart does so for the variables of the clause.
* `Substitution.Freshens.exists_joint`, `Clause.renameApart_joint`: instances of two clauses without
  common variables are instances of both at once.
-/

namespace Refutation

/-! ## Drawing names -/

namespace NameSource

theorem nth_injective (ns : NameSource) : Function.Injective ns.nth := by
  intro i j h
  have h' : ns.stem ++ toString i = ns.stem ++ toString j := congrArg Var.name h
  exact Nat.repr_injective ((String.append_right_inj ns.stem).mp h')

@[simp]
theorem nth_advance (ns : NameSource) (i : Nat) : ns.advance.nth i = ns.nth i := rfl

@[simp]
theorem next_advance (ns : NameSource) : ns.advance.next = ns.next + 1 := rfl

/-- Names are tried in order, past those to avoid, until `v` is free. -/
inductive Draws (avoid : List Var) : NameSource → Var → NameSource → Prop
  | free {ns : NameSource} (h : ns.nth ns.next ∉ avoid) : Draws avoid ns (ns.nth ns.next) ns.advance
  | taken {ns ns' : NameSource} {v : Var} (h : ns.nth ns.next ∈ avoid) (hrest : Draws avoid ns.advance v ns') :
      Draws avoid ns v ns'

/-- Names are drawn one after the other, outside `taken` and none of them twice. -/
inductive DrawsEach : List Var → NameSource → List Var → NameSource → Prop
  | nil {taken : List Var} {ns : NameSource} : DrawsEach taken ns [] ns
  | cons {taken ws : List Var} {ns ns₁ ns₂ : NameSource} {w : Var} (h : Draws taken ns w ns₁)
      (hrest : DrawsEach (taken ++ [w]) ns₁ ws ns₂) : DrawsEach taken ns (w :: ws) ns₂

theorem Draws.not_mem {avoid : List Var} {ns ns' : NameSource} {v : Var} (h : Draws avoid ns v ns') :
    v ∉ avoid := by
  induction h with
  | free h => exact h
  | taken _ _ ih => exact ih

theorem DrawsEach.not_mem {taken ws : List Var} {ns ns' : NameSource} (h : DrawsEach taken ns ws ns') :
    ∀ w ∈ ws, w ∉ taken := by
  induction h with
  | nil => exact nofun
  | cons h _ ih =>
    exact List.forall_mem_cons.mpr ⟨h.not_mem, fun w hw hm => ih w hw (List.mem_append_left _ hm)⟩

theorem DrawsEach.nodup {taken ws : List Var} {ns ns' : NameSource} (h : DrawsEach taken ns ws ns') :
    ws.Nodup := by
  induction h with
  | nil => exact List.nodup_nil
  | cons _ hrest ih => exact List.nodup_cons.mpr ⟨fun hm => hrest.not_mem _ hm (by simp), ih⟩

/-- A search that comes by a free name ends with one. -/
theorem freshWithin_draws {avoid : List Var} {tries : Nat} {ns : NameSource}
    (h : ∃ i ≤ tries, ns.nth (ns.next + i) ∉ avoid) :
    Draws avoid ns (freshWithin avoid tries ns).1 (freshWithin avoid tries ns).2 := by
  induction tries generalizing ns with
  | zero =>
    obtain ⟨i, hi, hn⟩ := h
    cases Nat.le_zero.mp hi
    exact .free hn
  | succ tries ih =>
    rw [freshWithin]
    split
    · rename_i hmem
      refine .taken hmem (ih ?_)
      obtain ⟨i, hi, hn⟩ := h
      cases i with
      | zero => exact (hn hmem).elim
      | succ i =>
        refine ⟨i, by omega, ?_⟩
        rwa [nth_advance, next_advance, Nat.add_assoc, Nat.add_comm 1]
    · rename_i hfree
      exact .free hfree

theorem fresh_draws (avoid : List Var) (ns : NameSource) :
    Draws avoid ns (ns.fresh avoid).1 (ns.fresh avoid).2 := by
  refine freshWithin_draws ?_
  by_contra hall
  push Not at hall
  -- One more different names than `avoid` holds would all be in it.
  have hnodup : ((List.range (avoid.length + 1)).map fun i => ns.nth (ns.next + i)).Nodup :=
    List.nodup_range.map fun i j hij => Nat.add_left_cancel (ns.nth_injective hij)
  have hsub : ((List.range (avoid.length + 1)).map fun i => ns.nth (ns.next + i)) ⊆ avoid := by
    intro x hx
    obtain ⟨i, hi, rfl⟩ := List.mem_map.mp hx
    exact hall i (Nat.le_of_lt_succ (List.mem_range.mp hi))
  have hlen := (hnodup.subperm hsub).length_le
  rw [List.length_map, List.length_range] at hlen
  omega

theorem fresh_not_mem (avoid : List Var) (ns : NameSource) : (ns.fresh avoid).1 ∉ avoid :=
  (ns.fresh_draws avoid).not_mem

end NameSource

/-! ## Renamings -/

namespace Substitution

/-- The variables `vs` get new names outside `taken`, one to one, and nothing else changes. -/
def Freshens (ρ : Substitution) (vs taken : List Var) : Prop :=
  ∃ ws : List Var, ws.length = vs.length ∧ ws.Nodup ∧ (∀ w ∈ ws, w ∉ taken) ∧
    ρ.bindings = vs.zip (ws.map .var)

/-- The variables are bound to names drawn one after the other; what is bound already stays in front. -/
theorem freshRenaming_draws (taken : List Var) {vs : List Var} {ρ : Substitution} (ns : NameSource)
    (hvs : vs.Nodup) (hρ : ∀ v ∈ vs, v ∉ ρ.domain) : ∃ ws : List Var, ws.length = vs.length ∧
      ns.DrawsEach taken ws (freshRenaming taken vs ρ ns).2 ∧
      (freshRenaming taken vs ρ ns).1.bindings = ρ.bindings ++ vs.zip (ws.map .var) := by
  induction vs generalizing taken ρ ns with
  | nil => exact ⟨[], rfl, .nil, by simp [freshRenaming]⟩
  | cons v vs ih =>
    obtain ⟨hv, hvs⟩ := List.nodup_cons.mp hvs
    have hb := bindings_insert (hρ v (by simp)) (.var (ns.fresh taken).1)
    have hρ' : ∀ x ∈ vs, x ∉ (ρ.insert v (.var (ns.fresh taken).1)).domain := by
      intro x hx hm
      rw [domain, hb, List.map_append, List.mem_append] at hm
      rcases hm with hm | hm
      · exact hρ x (List.mem_cons_of_mem _ hx) hm
      · have hxv : x = v := by simpa using hm
        exact hv (hxv ▸ hx)
    obtain ⟨ws, hlen, hdraws, hbs⟩ := ih (taken ++ [(ns.fresh taken).1]) (ns.fresh taken).2 hvs hρ'
    refine ⟨(ns.fresh taken).1 :: ws, by simp [hlen], .cons (ns.fresh_draws taken) hdraws, ?_⟩
    rw [freshRenaming, hbs, hb]
    simp

theorem freshens_freshRenaming {taken vs : List Var} (hvs : vs.Nodup) (ns : NameSource) :
    (freshRenaming taken vs .empty ns).1.Freshens vs taken := by
  obtain ⟨ws, hlen, hdraws, hb⟩ := freshRenaming_draws taken (ρ := .empty) ns hvs
    fun _ _ => by simp [domain, empty]
  exact ⟨ws, hlen, hdraws.nodup, hdraws.not_mem, hb⟩

variable {ρ : Substitution} {vs taken : List Var}

theorem Freshens.isRenaming (h : ρ.Freshens vs taken) : ρ.isRenaming = true := by
  obtain ⟨ws, hlen, hnd, -, hb⟩ := h
  have ht : ρ.terms = ws.map .var := by
    rw [terms, hb, List.map_snd_zip (by simp [hlen])]
  rw [Substitution.isRenaming, ht]
  simp only [Bool.and_eq_true, List.all_eq_true, decide_eq_true_eq]
  refine ⟨fun t htm => ?_, hnd.map fun x y hxy => Term.var.inj hxy⟩
  obtain ⟨w, -, rfl⟩ := List.mem_map.mp htm
  rfl

/-- The new names as a function of the old ones. -/
theorem Freshens.exists_rename (h : ρ.Freshens vs taken) :
    ∃ f : Var → Var, (∀ x ∈ vs, ρ.image x = .var (f x) ∧ f x ∉ taken) ∧
      ∀ x ∈ vs, ∀ y ∈ vs, f x = f y → x = y := by
  obtain ⟨ws, hlen, hnd, ht, hb⟩ := h
  -- The `i`-th variable takes the `i`-th name.
  have hget : ∀ (i : Nat) (hi : i < vs.length), ∃ hw : i < ws.length, ρ.image vs[i] = .var ws[i] := by
    intro i hi
    refine ⟨hlen ▸ hi, image_of_get? (get?_of_mem ?_)⟩
    rw [hb]
    refine List.mem_iff_getElem.mpr ⟨i, by simp [hlen, hi], ?_⟩
    simp
  have hidx : ∀ x ∈ vs, ∃ (i : Nat) (hi : i < vs.length), vs[i] = x := fun x hx =>
    List.mem_iff_getElem.mp hx
  refine ⟨fun x => ((ρ.image x).var?).getD x, fun x hx => ?_, fun x hx y hy hxy => ?_⟩
  · obtain ⟨i, hi, rfl⟩ := hidx x hx
    obtain ⟨hw, he⟩ := hget i hi
    simp only [he, Term.var?, Option.getD_some, true_and]
    exact ht _ (List.getElem_mem hw)
  · obtain ⟨i, hi, rfl⟩ := hidx x hx
    obtain ⟨j, hj, rfl⟩ := hidx y hy
    obtain ⟨hi', hei⟩ := hget i hi
    obtain ⟨hj', hej⟩ := hget j hj
    simp only [hei, hej, Term.var?, Option.getD_some] at hxy
    have hij := (List.Nodup.getElem_inj_iff hnd).mp hxy
    subst hij
    rfl

theorem Freshens.wellFormed (h : ρ.Freshens vs taken) : ρ.WellFormed := by
  intro x
  obtain ⟨ws, -, -, -, hb⟩ := h
  cases hx : ρ.get? x with
  | none => rw [image_of_unbound hx]; rfl
  | some t =>
    have hm := mem_of_get? hx
    rw [hb] at hm
    obtain ⟨w, -, rfl⟩ := List.mem_map.mp (List.of_mem_zip hm).2
    rw [image_of_get? hx]; rfl

/-- Names outside `taken` can have any values, whatever those in it have. -/
theorem Freshens.exists_joint (h : ρ.Freshens vs taken) (v w : Var → Term) :
    ∃ θ : Var → Term, (∀ x ∈ taken, θ x = v x) ∧ ∀ x ∈ vs, (ρ.image x).inst θ = w x := by
  classical
  obtain ⟨f, hf, hinj⟩ := h.exists_rename
  refine ⟨fun y => if hy : ∃ x ∈ vs, f x = y then w hy.choose else v y, fun x hx => ?_, fun x hx => ?_⟩
  · refine dif_neg ?_
    rintro ⟨z, hz, rfl⟩
    exact (hf z hz).2 hx
  · have hex : ∃ z ∈ vs, f z = f x := ⟨x, hx, rfl⟩
    rw [(hf x hx).1, Term.inst_var, dif_pos hex, hinj _ hex.choose_spec.1 x hx hex.choose_spec.2]

end Substitution

namespace Clause

theorem nodup_vars (c : Clause) : c.vars.Nodup := nodup_eraseDups _

/-- The clause is renamed with new names, none of which it has or is to avoid. -/
theorem renameApart_freshens (c : Clause) (avoid : List Var) (ns : NameSource) :
    (c.renameApart avoid ns).rename.Freshens c.vars (avoid ++ c.vars) :=
  Substitution.freshens_freshRenaming c.nodup_vars ns

/-- Any instances of the renamed clause, and any values of what it avoids, go together. -/
theorem renameApart_joint (c : Clause) (avoid : List Var) (ns : NameSource) (v w : Var → Term) :
    ∃ θ : Var → Term, (∀ x ∈ avoid, θ x = v x) ∧
      ∀ l ∈ c, (l.subst (c.renameApart avoid ns).rename).inst θ = l.inst w := by
  obtain ⟨θ, hv, hw⟩ := (c.renameApart_freshens avoid ns).exists_joint v w
  refine ⟨θ, fun x hx => hv x (List.mem_append_left _ hx), fun l hl => ?_⟩
  rw [Literal.subst_eq_inst, Literal.inst_inst]
  exact inst_congr hw hl

theorem wellFormed_renameApart {c : Clause} (h : c.wellFormed = true) (avoid : List Var)
    (ns : NameSource) : (c.renameApart avoid ns).clause.wellFormed = true :=
  wellFormed_subst h (c.renameApart_freshens avoid ns).wellFormed

theorem wellFormed_instantiateFresh {ls : List Literal} (h : ∀ l ∈ ls, l.atom.wellFormed = true)
    {σ : Substitution} (hσ : σ.WellFormed) (ns : NameSource) :
    (instantiateFresh ls σ ns).clause.wellFormed = true :=
  wellFormed_renameApart (wellFormed_subst (wellFormed_ofList.mpr h) hσ) [] ns

end Clause

end Refutation
