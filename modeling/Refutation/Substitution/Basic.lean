import Refutation.Term.Basic

/-!
# Substitutions

A substitution binds variables to terms, each variable once, in an order that its text shows.
Two substitutions with the same bindings in different orders count as the same
(`Substitution.same`).

* `Substitution.insert`: a new binding goes to the end, a changed one keeps its place.
* `Term.subst`: application to terms; all variables are exchanged at once.
* `Substitution.bind`: a binding that keeps the others resolved.
* `Substitution.compose`: one substitution after the other.
-/

namespace Refutation

/-- Bindings with `v` bound to `t`: in its place if there is one, else at the end. -/
def setBinding (v : Var) (t : Term) : List (Var × Term) → List (Var × Term)
  | [] => [(v, t)]
  | (w, s) :: rest => if w = v then (v, t) :: rest else (w, s) :: setBinding v t rest

theorem setBinding_keys (v : Var) (t : Term) (bs : List (Var × Term)) :
    (setBinding v t bs).map Prod.fst =
      if v ∈ bs.map Prod.fst then bs.map Prod.fst else bs.map Prod.fst ++ [v] := by
  induction bs with
  | nil => simp [setBinding]
  | cons b rest ih =>
    obtain ⟨w, s⟩ := b
    by_cases h : w = v
    · simp [setBinding, h]
    · have hv : v ≠ w := fun e => h e.symm
      simp only [setBinding, if_neg h, List.map_cons, ih, List.mem_cons, hv, false_or]
      split <;> simp

/-- An ordered binding of variables to terms. -/
@[ext]
structure Substitution where
  bindings : List (Var × Term)
  nodup : (bindings.map Prod.fst).Nodup
deriving DecidableEq

namespace Substitution

def empty : Substitution := ⟨[], List.nodup_nil⟩

instance : Inhabited Substitution := ⟨empty⟩

/-- The bound variables in order. -/
def domain (σ : Substitution) : List Var := σ.bindings.map Prod.fst

/-- The bound terms in order. -/
def terms (σ : Substitution) : List Term := σ.bindings.map Prod.snd

def size (σ : Substitution) : Nat := σ.bindings.length

def isEmpty (σ : Substitution) : Bool := σ.bindings.isEmpty

/-- The term bound to a variable. -/
def get? (σ : Substitution) (v : Var) : Option Term := σ.bindings.lookup v

def binds (σ : Substitution) (v : Var) : Bool := (σ.get? v).isSome

/-- The same bindings, in whatever order. -/
def same (σ τ : Substitution) : Bool :=
  σ.size == τ.size && σ.bindings.all fun (v, t) => τ.get? v == some t

/-- Binds `v` to `t`; a bound variable keeps its place. -/
def insert (σ : Substitution) (v : Var) (t : Term) : Substitution where
  bindings := setBinding v t σ.bindings
  nodup := by
    rw [setBinding_keys]
    split
    · exact σ.nodup
    · rename_i h
      refine List.nodup_append.mpr ⟨σ.nodup, by simp, fun a ha b hb hab => h ?_⟩
      rw [List.mem_singleton.mp hb] at hab
      exact hab ▸ ha

/-- The substitution of the given pairs; a repeated variable keeps its first place and takes its
last term. -/
def ofList (pairs : List (Var × Term)) : Substitution :=
  pairs.foldl (fun σ (v, t) => σ.insert v t) empty

/-- The substitution of a single binding. -/
def single (v : Var) (t : Term) : Substitution := ⟨[(v, t)], by simp⟩

/-- The substitution with every bound term mapped. -/
def mapTerms (σ : Substitution) (f : Term → Term) : Substitution where
  bindings := σ.bindings.map fun (v, t) => (v, f t)
  nodup := by
    rw [List.map_map, show Prod.fst ∘ (fun (b : Var × Term) => (b.1, f b.2)) = Prod.fst from rfl]
    exact σ.nodup

end Substitution

/-! ## Application to terms -/

namespace Term

mutual

/-- The term with every bound variable exchanged, all at once. -/
def subst (σ : Substitution) : Term → Term
  | .var v => (σ.get? v).getD (.var v)
  | .const c => .const c
  | .app f args => .app f (substList σ args)

def substList (σ : Substitution) : List Term → List Term
  | [] => []
  | t :: ts => t.subst σ :: substList σ ts

end

theorem substList_eq_map (σ : Substitution) (ts : List Term) : substList σ ts = ts.map (subst σ) := by
  induction ts with
  | nil => rfl
  | cons t ts ih => simp [substList, ih]

end Term

namespace Substitution

/-- Binds `v` and keeps the bindings resolved: the new term is taken under the present bindings,
and the present terms under the new binding. -/
def bind (σ : Substitution) (v : Var) (t : Term) : Substitution :=
  let resolved := t.subst σ
  (σ.mapTerms (Term.subst (single v resolved))).insert v resolved

/-- First `σ`, then `τ`. -/
def compose (σ τ : Substitution) : Substitution where
  bindings := (σ.mapTerms (Term.subst τ)).bindings ++ τ.bindings.filter fun (v, _) => v ∉ σ.domain
  nodup := by
    have hτ : ((τ.bindings.filter fun (v, _) => v ∉ σ.domain).map Prod.fst).Nodup :=
      τ.nodup.sublist (List.filter_sublist.map _)
    rw [List.map_append]
    refine List.nodup_append.mpr ⟨(σ.mapTerms _).nodup, hτ, fun a ha b hb hab => ?_⟩
    obtain ⟨⟨w, t⟩, hw, rfl⟩ := List.mem_map.mp hb
    have hn : w ∉ σ.domain := by simpa using (List.mem_filter.mp hw).2
    refine hn ?_
    subst hab
    simpa [mapTerms, domain, List.map_map, Function.comp_def] using ha

/-- The bindings of the given variables only, in their order. -/
def restrict (σ : Substitution) (vs : List Var) : Substitution :=
  ofList (vs.filterMap fun v => (σ.get? v).map (v, ·))

/-- Every bound term is a variable, and no two are the same. -/
def isRenaming (σ : Substitution) : Bool := σ.terms.all Term.isVar && decide σ.terms.Nodup

/-- A renaming read backwards; `none` for any other substitution. -/
def inverse? (σ : Substitution) : Option Substitution :=
  if σ.isRenaming then
    some (ofList (σ.bindings.filterMap fun (v, t) => t.var?.map (·, .var v)))
  else none

/-- The bindings in braces, `v/t` with commas between. -/
def text (σ : Substitution) : String :=
  "\x7b" ++ String.intercalate ", " (σ.bindings.map fun (v, t) => v.name ++ "/" ++ t.text) ++ "\x7d"

end Substitution

end Refutation
