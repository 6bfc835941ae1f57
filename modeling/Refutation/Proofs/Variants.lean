import Refutation.Proofs.Fresh

/-!
# Variants

Clauses that differ in the names of their variables only say the same. A renaming is a permutation of
all variables: any one-to-one renaming of finitely many variables extends to one.

* `Term.rename`, `Literal.rename`: terms and literals with their variables renamed.
* `Substitution.isRenaming_iff`: what a renaming is, by its bindings.
* `Var.exists_perm`: the extension.
* `Clause.Variant`, `Clause.shape`: the same literals after a renaming, an equivalence, and its classes.
* `Clause.renameApart_rename`, `Clause.instantiateFresh_variant`: fresh names lead to variants.
-/

namespace Refutation

/-! ## Renaming -/

/-- A renaming binds variables to variables, and no two of them to the same one. -/
theorem Substitution.isRenaming_iff {ρ : Substitution} : ρ.isRenaming = true ↔
    (∀ x t, ρ.get? x = some t → ∃ y, t = .var y) ∧
      ∀ x y t, ρ.get? x = some t → ρ.get? y = some t → x = y := by
  have hvar : ∀ t : Term, t.isVar = true ↔ ∃ y, t = .var y := by
    intro t
    cases t <;> simp [Term.isVar, Term.var?]
  rw [isRenaming, Bool.and_eq_true, List.all_eq_true, decide_eq_true_iff]
  refine and_congr ⟨fun h x t hx => ?_, fun h t ht => ?_⟩ ⟨fun h x y t hx hy => ?_, fun h => ?_⟩
  · exact (hvar t).mp (h t (List.mem_map.mpr ⟨_, mem_of_get? hx, rfl⟩))
  · obtain ⟨b, hb, rfl⟩ := List.mem_map.mp ht
    exact (hvar _).mpr (h b.1 b.2 (get?_of_mem hb))
  · exact congrArg Prod.fst (List.inj_on_of_nodup_map h (mem_of_get? hx) (mem_of_get? hy) rfl)
  · refine (List.Nodup.of_map _ ρ.nodup).map_on fun a ha b hb hab => Prod.ext ?_ hab
    exact h a.1 b.1 a.2 (get?_of_mem ha) (get?_of_mem (hab ▸ hb))

/-- A one-to-one renaming of finitely many variables is part of a permutation of all. -/
theorem Var.exists_perm {vs : List Var} {f : Var → Var}
    (h : ∀ x ∈ vs, ∀ y ∈ vs, f x = f y → x = y) :
    ∃ π : Equiv.Perm Var, ∀ x ∈ vs, π x = f x := by
  classical
  let e : {x // x ∈ vs} ≃ {y // ∃ x ∈ vs, f x = y} :=
    Equiv.ofBijective (fun x => ⟨f x, x, x.2, rfl⟩)
      ⟨fun x y hxy => Subtype.ext (h x x.2 y y.2 (congrArg Subtype.val hxy)),
        fun ⟨_, x, hx, hy⟩ => ⟨⟨x, hx⟩, Subtype.ext hy⟩⟩
  have : Finite {x | x ∈ vs} := vs.finite_toSet
  exact ⟨e.extendSubtype, fun x hx => e.extendSubtype_apply_of_mem x hx⟩

namespace Term

/-- The term with its variables renamed. -/
def rename (π : Equiv.Perm Var) (t : Term) : Term := t.inst fun x => .var (π x)

variable {π ρ : Equiv.Perm Var}

@[simp]
theorem rename_var (x : Var) : (var x).rename π = var (π x) := rfl

@[simp]
theorem rename_const (c : String) : (const c).rename π = const c := rfl

@[simp]
theorem rename_app (f : FunSym) (args : List Term) :
    (app f args).rename π = app f (args.map (rename π)) := inst_app ..

theorem rename_rename (t : Term) : (t.rename π).rename ρ = t.rename (π.trans ρ) := inst_inst ..

theorem rename_injective (π : Equiv.Perm Var) : Function.Injective (rename π) := by
  intro s t h
  have hback := congrArg (rename π.symm) h
  rw [rename_rename, rename_rename, Equiv.self_trans_symm] at hback
  exact (inst_id s).symm.trans (hback.trans (inst_id t))

theorem mem_occurrences_rename {t : Term} {x : Var} :
    π x ∈ (t.rename π).occurrences ↔ x ∈ t.occurrences := by
  rw [rename, mem_occurrences_inst]
  simp

end Term

namespace Literal

/-- The literal with its variables renamed. -/
def rename (π : Equiv.Perm Var) (l : Literal) : Literal := l.inst fun x => .var (π x)

variable {π ρ : Equiv.Perm Var} {l : Literal}

theorem rename_rename (l : Literal) : (l.rename π).rename ρ = l.rename (π.trans ρ) := inst_inst ..

@[simp]
theorem rename_refl (l : Literal) : l.rename (Equiv.refl Var) = l := inst_id l

theorem rename_congr (h : ∀ x ∈ l.occurrences, π x = ρ x) : l.rename π = l.rename ρ :=
  inst_congr fun x hx => congrArg Term.var (h x hx)

theorem rename_injective (π : Equiv.Perm Var) : Function.Injective (rename π) := by
  intro l m h
  have hback := congrArg (rename π.symm) h
  rwa [rename_rename, rename_rename, Equiv.self_trans_symm, rename_refl, rename_refl] at hback

end Literal

/-! ## Variants of clauses -/

namespace Clause

/-- The second clause has the literals of the first after a renaming. -/
def Variant (c d : Clause) : Prop :=
  ∃ π : Equiv.Perm Var, ∀ k, k ∈ d ↔ ∃ l ∈ c, l.rename π = k

variable {c d e : Clause}

theorem Variant.refl (c : Clause) : c.Variant c :=
  ⟨Equiv.refl Var, fun k => by simp only [Literal.rename_refl, exists_eq_right]⟩

theorem Variant.symm (h : c.Variant d) : d.Variant c := by
  obtain ⟨π, h⟩ := h
  have hback : ∀ l : Literal, (l.rename π).rename π.symm = l := fun l => by
    rw [Literal.rename_rename, Equiv.self_trans_symm, Literal.rename_refl]
  refine ⟨π.symm, fun l => ⟨fun hl => ⟨_, (h _).mpr ⟨l, hl, rfl⟩, hback l⟩, ?_⟩⟩
  rintro ⟨k, hk, rfl⟩
  obtain ⟨l, hl, rfl⟩ := (h k).mp hk
  rwa [hback]

theorem Variant.trans (h : c.Variant d) (h' : d.Variant e) : c.Variant e := by
  obtain ⟨π, h⟩ := h
  obtain ⟨ρ, h'⟩ := h'
  refine ⟨π.trans ρ, fun k => (h' k).trans ⟨?_, ?_⟩⟩
  · rintro ⟨_, hm, rfl⟩
    obtain ⟨l, hl, rfl⟩ := (h _).mp hm
    exact ⟨l, hl, (Literal.rename_rename l).symm⟩
  · rintro ⟨l, hl, rfl⟩
    exact ⟨l.rename π, (h _).mpr ⟨l, hl, rfl⟩, Literal.rename_rename l⟩

/-- Variants of each other are the same clause up to names. -/
def variants : Setoid Clause := ⟨Variant, .refl, .symm, .trans⟩

/-- The clause up to the names of its variables. -/
def shape (c : Clause) : Quotient variants := Quotient.mk _ c

theorem shape_eq : c.shape = d.shape ↔ c.Variant d := Quotient.eq

theorem map_rename_congr {π ρ : Equiv.Perm Var} (h : ∀ x ∈ c.vars, π x = ρ x) :
    c.literals.map (Literal.rename π) = c.literals.map (Literal.rename ρ) :=
  List.map_congr_left fun _ hl => Literal.rename_congr fun x hx => h x (mem_vars_of_mem hl hx)

/-- The variables of a renamed clause are those of the clause, renamed one by one. -/
theorem vars_of_rename {π : Equiv.Perm Var} (h : d.literals = c.literals.map (Literal.rename π)) :
    d.vars = c.vars.map π := by
  have hocc : d.occurrences = c.occurrences.map π := by
    rw [occurrences, occurrences, h, List.flatMap_map, List.map_flatMap]
    exact List.flatMap_congr fun l _ => l.atom.occurrences_inst_var π
  rw [vars, hocc, ← eraseDups_map_eraseDups]
  exact eraseDups_eq_self (c.nodup_vars.map π.injective)

/-- A substitution that acts as a renaming on the variables of a clause renames its literals. -/
theorem subst_eq_rename {σ : Substitution} {π : Equiv.Perm Var}
    (h : ∀ x ∈ c.vars, σ.image x = .var (π x)) : ∀ l ∈ c, l.subst σ = l.rename π := by
  intro l hl
  rw [Literal.subst_eq_inst]
  exact inst_congr h hl

/-! ## Fresh names -/

/-- Renaming apart renames the literals one by one, and takes the variables outside those to avoid and
outside those of the clause. -/
theorem renameApart_rename (c : Clause) (avoid : List Var) (ns : NameSource) :
    ∃ π : Equiv.Perm Var,
      (c.renameApart avoid ns).clause.literals = c.literals.map (Literal.rename π) ∧
      ∀ x ∈ c.vars, (c.renameApart avoid ns).rename.image x = .var (π x) ∧ π x ∉ avoid ∧ π x ∉ c.vars := by
  obtain ⟨f, hf, hinj⟩ := (c.renameApart_freshens avoid ns).exists_rename
  obtain ⟨π, hπ⟩ := Var.exists_perm hinj
  have himage : ∀ x ∈ c.vars, (c.renameApart avoid ns).rename.image x = .var (π x) := fun x hx => by
    rw [(hf x hx).1, hπ x hx]
  have hsubst : ∀ l ∈ c, l.subst (c.renameApart avoid ns).rename = l.rename π := subst_eq_rename himage
  refine ⟨π, ?_, fun x hx => ⟨himage x hx, ?_⟩⟩
  · refine (literals_subst fun l hl m hm he => ?_).trans (List.map_congr_left hsubst)
    exact Literal.rename_injective π ((hsubst l hl).symm.trans (he.trans (hsubst m hm)))
  · have hnew := (hf x hx).2
    rwa [← hπ x hx, List.mem_append, not_or] at hnew

/-- An instance that is given fresh names is a variant of the instance. -/
theorem instantiateFresh_variant (ls : List Literal) (σ : Substitution) (ns : NameSource) :
    ((ofList ls).subst σ).Variant (instantiateFresh ls σ ns).clause := by
  obtain ⟨π, hπ, -⟩ := ((ofList ls).subst σ).renameApart_rename [] ns
  refine ⟨π, fun k => ?_⟩
  rw [mem_iff, instantiateFresh, hπ, List.mem_map]
  rfl

end Clause

end Refutation
