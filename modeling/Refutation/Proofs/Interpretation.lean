import Mathlib
import Refutation.Clause.Position
import Refutation.Substitution.Apply

/-!
# Interpretations

What terms, clauses and sentences mean. An interpretation gives every constant an element of its
domain, every function symbol a function and every predicate a relation; equations are read as
identity, and a predicate named `=` is a predicate like any other. The domain is never empty, since
constants have values in it.

* `Term.eval`, `Atom.Holds`, `Literal.Holds`, `Clause.Holds`, `Sentence.Holds`: values and truth
  under a valuation of the variables.
* `Clause.TrueIn`, `Sentence.TrueIn`: truth of the universal closure.
* `Term.inst`: the instance of a term under any map from variables to terms. It is evaluation in
  the interpretation `Interpretation.free`, whose elements are the terms themselves, and
  application of a substitution is a case of it (`Term.subst_eq_inst`).
* `Clause.holds_subst`: an instance holds where the clause holds under the shifted valuation.
-/

namespace Refutation

universe u

variable {D : Type u}

/-- A meaning for every symbol, in a domain `D`. -/
structure Interpretation (D : Type u) where
  const : String → D
  func : FunSym → List D → D
  pred : String → List D → Prop

/-! ## Terms -/

namespace Term

/-- Induction over terms: an application may use the statement of each argument. -/
@[elab_as_elim, induction_eliminator]
theorem ind {motive : Term → Prop} (var : ∀ x, motive (.var x)) (const : ∀ c, motive (.const c))
    (app : ∀ f args, (∀ t ∈ args, motive t) → motive (.app f args)) (t : Term) : motive t :=
  match t with
  | .var x => var x
  | .const c => const c
  | .app f args => app f args fun t _ => ind var const app t

mutual

/-- The value of a term. -/
def eval (I : Interpretation D) (v : Var → D) : Term → D
  | .var x => v x
  | .const c => I.const c
  | .app f args => I.func f (evalList I v args)

def evalList (I : Interpretation D) (v : Var → D) : List Term → List D
  | [] => []
  | t :: ts => t.eval I v :: evalList I v ts

end

theorem evalList_eq_map (I : Interpretation D) (v : Var → D) (ts : List Term) :
    evalList I v ts = ts.map (eval I v) := by
  induction ts with
  | nil => rfl
  | cons t ts ih => simp [evalList, ih]

@[simp]
theorem eval_var (I : Interpretation D) (v : Var → D) (x : Var) : (var x).eval I v = v x := rfl

@[simp]
theorem eval_const (I : Interpretation D) (v : Var → D) (c : String) :
    (const c).eval I v = I.const c := rfl

@[simp]
theorem eval_app (I : Interpretation D) (v : Var → D) (f : FunSym) (args : List Term) :
    (app f args).eval I v = I.func f (args.map (eval I v)) := by
  rw [eval, evalList_eq_map]

/-! ## The variables of a term -/

@[simp]
theorem occurrences_var (x : Var) : (var x).occurrences = [x] := rfl

@[simp]
theorem occurrences_const (c : String) : (const c).occurrences = [] := rfl

@[simp]
theorem occurrences_app (f : FunSym) (args : List Term) :
    (app f args).occurrences = args.flatMap occurrences := by
  rw [occurrences, occurrencesList_eq_flatMap]

theorem mem_occurrences_app {x : Var} {f : FunSym} {args : List Term} :
    x ∈ (app f args).occurrences ↔ ∃ t ∈ args, x ∈ t.occurrences := by simp

theorem hasVar_iff {t : Term} {x : Var} : t.hasVar x = true ↔ x ∈ t.occurrences := by
  simp [hasVar]

/-- Only the variables of a term matter to its value. -/
theorem eval_congr {I : Interpretation D} {v w : Var → D} {t : Term}
    (h : ∀ x ∈ t.occurrences, v x = w x) : t.eval I v = t.eval I w := by
  induction t with
  | var x => exact h x (by simp)
  | const c => rfl
  | app f args ih =>
    rw [eval_app, eval_app]
    congr 1
    exact List.map_congr_left fun t ht => ih t ht fun x hx => h x (mem_occurrences_app.mpr ⟨t, ht, hx⟩)

/-! ## Well-formedness -/

theorem wellFormedList_iff {ts : List Term} :
    wellFormedList ts = true ↔ ∀ t ∈ ts, t.wellFormed = true := by
  induction ts with
  | nil => simp [wellFormedList]
  | cons t ts ih => simp [wellFormedList, ih]

@[simp]
theorem wellFormed_var (x : Var) : (var x).wellFormed = true := rfl

@[simp]
theorem wellFormed_const (c : String) : (const c).wellFormed = true := rfl

@[simp]
theorem wellFormed_app {f : FunSym} {args : List Term} :
    (app f args).wellFormed = true ↔ f.arity = args.length ∧ ∀ t ∈ args, t.wellFormed = true := by
  simp [wellFormed, wellFormedList_iff]

end Term

/-! ## Instances -/

/-- The terms as elements: every term stands for itself, and no predicate holds. -/
def Interpretation.free : Interpretation Term where
  const := .const
  func := .app
  pred _ _ := False

namespace Term

/-- The term with every variable exchanged for a term. -/
def inst (v : Var → Term) (t : Term) : Term := t.eval .free v

@[simp]
theorem inst_var (v : Var → Term) (x : Var) : (var x).inst v = v x := rfl

@[simp]
theorem inst_const (v : Var → Term) (c : String) : (const c).inst v = const c := rfl

@[simp]
theorem inst_app (v : Var → Term) (f : FunSym) (args : List Term) :
    (app f args).inst v = app f (args.map (inst v)) := eval_app ..

theorem inst_congr {v w : Var → Term} {t : Term} (h : ∀ x ∈ t.occurrences, v x = w x) :
    t.inst v = t.inst w := eval_congr h

/-- Values of instances: the valuation is shifted along the instance. -/
theorem eval_inst (I : Interpretation D) (v : Var → D) (w : Var → Term) (t : Term) :
    (t.inst w).eval I v = t.eval I fun x => (w x).eval I v := by
  induction t with
  | var x => rfl
  | const c => rfl
  | app f args ih =>
    rw [inst_app, eval_app, eval_app, List.map_map]
    congr 1
    exact List.map_congr_left ih

theorem inst_inst (v w : Var → Term) (t : Term) : (t.inst w).inst v = t.inst fun x => (w x).inst v :=
  eval_inst .free v w t

@[simp]
theorem inst_id (t : Term) : t.inst .var = t := by
  induction t with
  | var x => rfl
  | const c => rfl
  | app f args ih =>
    rw [inst_app]
    congr 1
    exact (List.map_congr_left ih).trans (List.map_id' _)

theorem mem_occurrences_inst {v : Var → Term} {t : Term} {y : Var} :
    y ∈ (t.inst v).occurrences ↔ ∃ x ∈ t.occurrences, y ∈ (v x).occurrences := by
  induction t with
  | var x => simp
  | const c => simp
  | app f args ih =>
    simp only [inst_app, mem_occurrences_app, List.mem_map]
    constructor
    · rintro ⟨_, ⟨t, ht, rfl⟩, hy⟩
      obtain ⟨x, hx, hy⟩ := (ih t ht).mp hy
      exact ⟨x, ⟨t, ht, hx⟩, hy⟩
    · rintro ⟨x, ⟨t, ht, hx⟩, hy⟩
      exact ⟨_, ⟨t, ht, rfl⟩, (ih t ht).mpr ⟨x, hx, hy⟩⟩

/-- Renaming variables renames their occurrences one by one. -/
theorem occurrences_inst_var (ρ : Var → Var) (t : Term) :
    (t.inst fun x => .var (ρ x)).occurrences = t.occurrences.map ρ := by
  induction t with
  | var x | const c => rfl
  | app f args ih =>
    rw [inst_app, occurrences_app, occurrences_app, List.flatMap_map, List.map_flatMap]
    exact List.flatMap_congr ih

theorem wellFormed_inst {v : Var → Term} {t : Term} (ht : t.wellFormed = true)
    (hv : ∀ x ∈ t.occurrences, (v x).wellFormed = true) : (t.inst v).wellFormed = true := by
  induction t with
  | var x => exact hv x (by simp)
  | const c => rfl
  | app f args ih =>
    obtain ⟨hf, hargs⟩ := wellFormed_app.mp ht
    rw [inst_app, wellFormed_app, List.length_map]
    refine ⟨hf, fun t ht => ?_⟩
    obtain ⟨s, hs, rfl⟩ := List.mem_map.mp ht
    exact ih s hs (hargs s hs) fun x hx => hv x (mem_occurrences_app.mpr ⟨s, hs, hx⟩)

end Term

/-- The term that a substitution puts for a variable: the variable itself if it is not bound. -/
def Substitution.image (σ : Substitution) (x : Var) : Term := (σ.get? x).getD (.var x)

namespace Term

/-- Substitution is an instance. -/
theorem subst_eq_inst (σ : Substitution) (t : Term) : t.subst σ = t.inst σ.image := by
  induction t with
  | var x => rfl
  | const c => rfl
  | app f args ih =>
    rw [subst, substList_eq_map, inst_app]
    congr 1
    exact List.map_congr_left ih

@[simp]
theorem subst_var (σ : Substitution) (x : Var) : (var x).subst σ = σ.image x := rfl

@[simp]
theorem subst_const (σ : Substitution) (c : String) : (const c).subst σ = const c := rfl

@[simp]
theorem subst_app (σ : Substitution) (f : FunSym) (args : List Term) :
    (app f args).subst σ = app f (args.map (subst σ)) := by
  rw [subst, substList_eq_map]

theorem eval_subst (I : Interpretation D) (v : Var → D) (σ : Substitution) (t : Term) :
    (t.subst σ).eval I v = t.eval I fun x => (σ.image x).eval I v := by
  rw [subst_eq_inst, eval_inst]

theorem inst_subst (v : Var → Term) (σ : Substitution) (t : Term) :
    (t.subst σ).inst v = t.inst fun x => (σ.image x).inst v := eval_subst .free v σ t

end Term

/-! ## Atoms and literals -/

namespace Atom

/-- The atom is true. -/
def Holds (I : Interpretation D) (v : Var → D) : Atom → Prop
  | .pred p args => I.pred p (args.map (Term.eval I v))
  | .eq l r => l.eval I v = r.eval I v

theorem args_map (f : Term → Term) (a : Atom) : (a.map f).args = a.args.map f := by
  cases a <;> rfl

theorem map_congr {f g : Term → Term} {a : Atom} (h : ∀ t ∈ a.args, f t = g t) :
    a.map f = a.map g := by
  cases a with
  | pred p args => exact congrArg (Atom.pred p) (List.map_congr_left h)
  | eq l r => simp only [map, h l (by simp [args]), h r (by simp [args])]

theorem map_map (f g : Term → Term) (a : Atom) : (a.map f).map g = a.map (g ∘ f) := by
  cases a <;> simp [map]

theorem mem_occurrences {a : Atom} {x : Var} : x ∈ a.occurrences ↔ ∃ t ∈ a.args, x ∈ t.occurrences := by
  rw [occurrences, Term.occurrencesList_eq_flatMap, List.mem_flatMap]

theorem wellFormed_iff {a : Atom} : a.wellFormed = true ↔ ∀ t ∈ a.args, t.wellFormed = true :=
  Term.wellFormedList_iff

theorem holds_congr {I : Interpretation D} {v w : Var → D} {a : Atom}
    (h : ∀ x ∈ a.occurrences, v x = w x) : a.Holds I v ↔ a.Holds I w := by
  have he : ∀ t ∈ a.args, t.eval I v = t.eval I w := fun t ht =>
    Term.eval_congr fun x hx => h x (mem_occurrences.mpr ⟨t, ht, hx⟩)
  cases a with
  | pred p args =>
    have hm : args.map (Term.eval I v) = args.map (Term.eval I w) := List.map_congr_left he
    rw [Holds, Holds, hm]
  | eq l r => simp only [Holds, he l (by simp [args]), he r (by simp [args])]

/-- The atom with every variable exchanged for a term. -/
def inst (v : Var → Term) (a : Atom) : Atom := a.map (Term.inst v)

theorem subst_eq_inst (σ : Substitution) (a : Atom) : a.subst σ = a.inst σ.image :=
  map_congr fun t _ => t.subst_eq_inst σ

theorem holds_inst (I : Interpretation D) (v : Var → D) (w : Var → Term) (a : Atom) :
    (a.inst w).Holds I v ↔ a.Holds I fun x => (w x).eval I v := by
  cases a with
  | pred p args => simp [inst, map, Holds, Term.eval_inst, Function.comp_def]
  | eq l r => simp [inst, map, Holds, Term.eval_inst]

theorem inst_inst (v w : Var → Term) (a : Atom) : (a.inst w).inst v = a.inst fun x => (w x).inst v := by
  rw [inst, inst, map_map]
  exact map_congr fun t _ => t.inst_inst v w

@[simp]
theorem inst_id (a : Atom) : a.inst .var = a := by
  have hmap : Term.inst .var = id := funext Term.inst_id
  cases a <;> simp [inst, map, hmap]

theorem occurrences_inst_var (ρ : Var → Var) (a : Atom) :
    (a.inst fun x => .var (ρ x)).occurrences = a.occurrences.map ρ := by
  rw [occurrences, occurrences, Term.occurrencesList_eq_flatMap, Term.occurrencesList_eq_flatMap, inst,
    args_map, List.flatMap_map, List.map_flatMap]
  exact List.flatMap_congr fun t _ => t.occurrences_inst_var ρ

theorem symbol_inst (v : Var → Term) (a : Atom) : (a.inst v).symbol = a.symbol := by
  cases a <;> rfl

theorem arity_inst (v : Var → Term) (a : Atom) : (a.inst v).arity = a.arity := by
  rw [arity, inst, args_map, List.length_map, arity]

end Atom

namespace Literal

/-- The literal is true. -/
def Holds (I : Interpretation D) (v : Var → D) (l : Literal) : Prop :=
  if l.positive then l.atom.Holds I v else ¬l.atom.Holds I v

/-- Of two opposite literals with the same truth value of their atoms exactly one holds. -/
theorem not_holds_of_opposite {I : Interpretation D} {v : Var → D} {l m : Literal}
    (hs : l.positive ≠ m.positive) (ha : l.atom.Holds I v ↔ m.atom.Holds I v) (hl : l.Holds I v) :
    ¬m.Holds I v := by
  rcases l with ⟨_ | _, a⟩ <;> rcases m with ⟨_ | _, b⟩ <;> simp_all [Holds]

/-- The literal with every variable exchanged for a term. -/
def inst (v : Var → Term) (l : Literal) : Literal := ⟨l.positive, l.atom.inst v⟩

theorem subst_eq_inst (σ : Substitution) (l : Literal) : l.subst σ = l.inst σ.image := by
  rw [subst, inst, Atom.subst_eq_inst]

theorem holds_inst (I : Interpretation D) (v : Var → D) (w : Var → Term) (l : Literal) :
    (l.inst w).Holds I v ↔ l.Holds I fun x => (w x).eval I v := by
  simp only [Holds, inst, Atom.holds_inst]

theorem holds_subst (I : Interpretation D) (v : Var → D) (σ : Substitution) (l : Literal) :
    (l.subst σ).Holds I v ↔ l.Holds I fun x => (σ.image x).eval I v := by
  rw [subst_eq_inst, holds_inst]

theorem inst_inst (v w : Var → Term) (l : Literal) :
    (l.inst w).inst v = l.inst fun x => (w x).inst v := by
  simp only [inst, Atom.inst_inst]

theorem inst_congr {v w : Var → Term} {l : Literal} (h : ∀ x ∈ l.occurrences, v x = w x) :
    l.inst v = l.inst w := by
  have ha : l.atom.inst v = l.atom.inst w := Atom.map_congr fun t ht =>
    Term.inst_congr fun x hx => h x (Atom.mem_occurrences.mpr ⟨t, ht, hx⟩)
  rw [inst, inst, ha]

@[simp]
theorem inst_id (l : Literal) : l.inst .var = l := by
  rw [inst, Atom.inst_id]

end Literal

/-! ## Clauses -/

namespace Clause

theorem mem_iff {c : Clause} {l : Literal} : l ∈ c ↔ l ∈ c.literals := Iff.rfl

/-- Some literal is true. -/
def Holds (I : Interpretation D) (v : Var → D) (c : Clause) : Prop := ∃ l ∈ c, l.Holds I v

/-- The clause is true, whatever its variables stand for. -/
def TrueIn (I : Interpretation D) (c : Clause) : Prop := ∀ v, c.Holds I v

theorem mem_without {c : Clause} {l m : Literal} : m ∈ c.without l ↔ m ∈ c ∧ m ≠ l := by
  simp [without, mem_iff]

@[simp]
theorem mem_subst {c : Clause} {σ : Substitution} {m : Literal} :
    m ∈ c.subst σ ↔ ∃ l ∈ c, l.subst σ = m := by
  rw [subst, mem_ofList, List.mem_map]
  rfl

theorem mem_occurrences {c : Clause} {x : Var} : x ∈ c.occurrences ↔ ∃ l ∈ c, x ∈ l.occurrences := by
  simp [occurrences, mem_iff]

theorem mem_vars {c : Clause} {x : Var} : x ∈ c.vars ↔ x ∈ c.occurrences := List.mem_eraseDups

theorem mem_vars_of_mem {c : Clause} {l : Literal} (hl : l ∈ c) {x : Var} (hx : x ∈ l.occurrences) :
    x ∈ c.vars := mem_vars.mpr (mem_occurrences.mpr ⟨l, hl, hx⟩)

/-- Maps that agree on the variables of a clause give its literals the same instances. -/
theorem inst_congr {c : Clause} {v w : Var → Term} (h : ∀ x ∈ c.vars, v x = w x) {l : Literal}
    (hl : l ∈ c) : l.inst v = l.inst w :=
  Literal.inst_congr fun x hx => h x (mem_vars_of_mem hl hx)

theorem wellFormed_iff {c : Clause} :
    c.wellFormed = true ↔ ∀ l ∈ c, l.atom.wellFormed = true := by
  simp [wellFormed, mem_iff]

theorem holds_ofList {I : Interpretation D} {v : Var → D} {ls : List Literal} :
    (ofList ls).Holds I v ↔ ∃ l ∈ ls, l.Holds I v := by
  simp [Holds]

/-- An instance holds where the clause holds under the shifted valuation. -/
theorem holds_subst {I : Interpretation D} {v : Var → D} {σ : Substitution} {c : Clause} :
    (c.subst σ).Holds I v ↔ c.Holds I fun x => (σ.image x).eval I v := by
  simp only [Holds, mem_subst]
  constructor
  · rintro ⟨_, ⟨l, hl, rfl⟩, h⟩
    exact ⟨l, hl, (Literal.holds_subst I v σ l).mp h⟩
  · rintro ⟨l, hl, h⟩
    exact ⟨_, ⟨l, hl, rfl⟩, (Literal.holds_subst I v σ l).mpr h⟩

theorem TrueIn.subst {I : Interpretation D} {c : Clause} (h : c.TrueIn I) (σ : Substitution) :
    (c.subst σ).TrueIn I := fun _ => holds_subst.mpr (h _)

/-- Clauses that are the same have the same literals. -/
theorem same_iff {c d : Clause} : c.same d = true ↔ ∀ l, l ∈ c ↔ l ∈ d := by
  simp only [same, size, Bool.and_eq_true, beq_iff_eq, List.all_eq_true, decide_eq_true_eq, mem_iff]
  constructor
  · rintro ⟨hlen, hsub⟩ l
    have hp : c.literals.Perm d.literals :=
      (c.nodup.subperm hsub).perm_of_length_le (Nat.le_of_eq hlen.symm)
    exact hp.mem_iff
  · intro h
    have hp : c.literals.Perm d.literals := (List.perm_ext_iff_of_nodup c.nodup d.nodup).mpr h
    exact ⟨hp.length_eq, fun l hl => (h l).mp hl⟩

theorem same_refl (c : Clause) : c.same c = true := same_iff.mpr fun _ => Iff.rfl

theorem same_symm {c d : Clause} (h : c.same d = true) : d.same c = true :=
  same_iff.mpr fun l => (same_iff.mp h l).symm

theorem holds_of_same {I : Interpretation D} {v : Var → D} {c d : Clause} (h : c.same d = true) :
    c.Holds I v ↔ d.Holds I v := by
  simp only [Holds, same_iff.mp h]

theorem trueIn_of_same {I : Interpretation D} {c d : Clause} (h : c.same d = true) :
    c.TrueIn I ↔ d.TrueIn I :=
  forall_congr' fun _ => holds_of_same h

theorem not_holds_empty {I : Interpretation D} {v : Var → D} : ¬empty.Holds I v := by
  rintro ⟨l, hl, -⟩
  cases hl

theorem isTautology_iff {c : Clause} : c.isTautology = true ↔ ∃ l ∈ c, l.negated ∈ c := by
  simp only [isTautology, positives, List.any_eq_true, List.mem_filter, decide_eq_true_eq]
  constructor
  · rintro ⟨l, ⟨hl, -⟩, hn⟩
    exact ⟨l, hl, hn⟩
  · rintro ⟨⟨sign, a⟩, hl, hn⟩
    cases sign with
    | true => exact ⟨_, ⟨hl, rfl⟩, hn⟩
    | false => exact ⟨_, ⟨hn, rfl⟩, hl⟩

theorem trueIn_of_isTautology {c : Clause} (h : c.isTautology = true) (I : Interpretation D) :
    c.TrueIn I := by
  intro v
  obtain ⟨l, hl, hn⟩ := isTautology_iff.mp h
  by_cases ht : l.Holds I v
  · exact ⟨l, hl, ht⟩
  · refine ⟨l.negated, hn, ?_⟩
    obtain ⟨sign, a⟩ := l
    cases sign with
    | true => exact ht
    | false => exact not_not.mp ht

end Clause

/-! ## Sentences -/

namespace Sentence

/-- The sentence is true. A quantifier lets the variables it binds have any values. -/
def Holds (I : Interpretation D) (v : Var → D) : Sentence → Prop
  | .atom a => a.Holds I v
  | .not s => ¬s.Holds I v
  | .and l r => l.Holds I v ∧ r.Holds I v
  | .or l r => l.Holds I v ∨ r.Holds I v
  | .implies l r => l.Holds I v → r.Holds I v
  | .iff l r => l.Holds I v ↔ r.Holds I v
  | .quant .all vs s => ∀ w : Var → D, (∀ x, x ∉ vs → w x = v x) → s.Holds I w
  | .quant .ex vs s => ∃ w : Var → D, (∀ x, x ∉ vs → w x = v x) ∧ s.Holds I w

/-- The sentence is true, whatever its free variables stand for. -/
def TrueIn (I : Interpretation D) (s : Sentence) : Prop := ∀ v, s.Holds I v

end Sentence

end Refutation
