import Refutation.Proofs.Substitution

/-!
# Composition of substitutions

To apply a composed substitution is to apply the first substitution and then the second, on sentences
too: a quantified variable is renamed, or dropped once something else than a variable stands for it, and
it makes no difference whether that happens in one step or in two.

* `Substitution.binder?_compose`: what becomes of a quantified variable.
* `Sentence.subst_compose`: composition on sentences.
* `Substitution.compose_assoc`: composition is associative, as to the order of the bindings too.
* `Substitution.compose_acts`: the laws together, for all that substitutions apply to.
-/

namespace Refutation

/-! ## Quantified variables -/

/-- A quantified variable follows its image as long as that is a variable. -/
theorem Substitution.binder?_eq (σ : Substitution) (x : Var) : σ.binder? x = (σ.image x).var? := by
  rw [binder?, image]
  cases σ.get? x <;> rfl

theorem Term.var?_subst (σ : Substitution) (t : Term) : (t.subst σ).var? = t.var?.bind σ.binder? := by
  cases t with
  | var x => exact (σ.binder?_eq x).symm
  | const c => rfl
  | app f args => rfl

theorem Substitution.binder?_compose (σ τ : Substitution) (x : Var) :
    (σ.compose τ).binder? x = (σ.binder? x).bind τ.binder? := by
  rw [binder?_eq, image_compose, Term.var?_subst, binder?_eq]

/-! ## Sentences -/

namespace Sentence

/-- A quantifier without variables has vanished, and no substitution brings it back. -/
theorem subst_quantify (σ : Substitution) (q : Quantifier) (vs : List Var) (s : Sentence) :
    (quantify q vs s).subst σ = quantify q (vs.filterMap σ.binder?) (s.subst σ) := by
  cases vs with
  | nil => rfl
  | cons v vs => rfl

theorem subst_compose (σ τ : Substitution) (s : Sentence) :
    s.subst (σ.compose τ) = (s.subst σ).subst τ := by
  induction s with
  | atom a => rw [subst, subst, subst, Atom.subst_compose]
  | not s ih => rw [subst, subst, subst, ih]
  | and l r ihl ihr | or l r ihl ihr | implies l r ihl ihr | iff l r ihl ihr =>
    rw [subst, subst, subst, ihl, ihr]
  | quant q vs s ih =>
    have hbinders : vs.filterMap (σ.compose τ).binder? =
        (vs.filterMap σ.binder?).filterMap τ.binder? := by
      rw [List.filterMap_filterMap]
      exact congrArg vs.filterMap (funext fun v => σ.binder?_compose τ v)
    rw [subst, subst, subst_quantify, ih, hbinders]

end Sentence

/-! ## Associativity -/

namespace Substitution

theorem bindings_compose (σ τ : Substitution) : (σ.compose τ).bindings =
    σ.bindings.map (fun b => (b.1, b.2.subst τ)) ++ τ.bindings.filter fun b => b.1 ∉ σ.domain := rfl

theorem domain_compose (σ τ : Substitution) :
    (σ.compose τ).domain = σ.domain ++ τ.domain.filter fun x => x ∉ σ.domain := by
  rw [domain, bindings_compose, List.map_append, List.map_map, domain, domain, List.filter_map]
  rfl

theorem mem_domain_compose {σ τ : Substitution} {x : Var} :
    x ∈ (σ.compose τ).domain ↔ x ∈ σ.domain ∨ x ∈ τ.domain := by
  rw [domain_compose, List.mem_append, List.mem_filter]
  by_cases h : x ∈ σ.domain <;> simp [h]

/-- The bindings come in the same order: those of the first substitution, then what the second and what
the third one adds. -/
theorem compose_assoc (σ τ υ : Substitution) :
    (σ.compose τ).compose υ = σ.compose (τ.compose υ) := by
  refine Substitution.ext ?_
  have hfirst : (σ.bindings.map fun b => (b.1, b.2.subst τ)).map (fun b => (b.1, b.2.subst υ)) =
      σ.bindings.map fun b => (b.1, b.2.subst (τ.compose υ)) := by
    rw [List.map_map]
    exact List.map_congr_left fun b _ => by rw [Term.subst_compose]; rfl
  have hsecond : (τ.bindings.filter fun b => decide (b.1 ∉ σ.domain)).map
      (fun b => (b.1, b.2.subst υ)) =
      (τ.bindings.map fun b => (b.1, b.2.subst υ)).filter fun b => decide (b.1 ∉ σ.domain) := by
    rw [List.filter_map]
    rfl
  -- What the third one adds is bound by neither of the others, in whatever order that is asked.
  have hthird : (υ.bindings.filter fun b => decide (b.1 ∉ (σ.compose τ).domain)) =
      (υ.bindings.filter fun b => decide (b.1 ∉ τ.domain)).filter fun b => decide (b.1 ∉ σ.domain) := by
    rw [List.filter_filter]
    refine List.filter_congr fun b _ => ?_
    simp [mem_domain_compose]
  rw [bindings_compose, bindings_compose, bindings_compose, bindings_compose, List.map_append,
    List.filter_append, List.append_assoc, hfirst, hsecond, hthird]

/-- To compose substitutions is to compose what they do to terms, atoms, literals, clauses and sentences,
and it is associative. Clauses keep the order of their literals, and substitutions that of their
bindings. -/
theorem compose_acts (σ τ υ : Substitution) :
    (∀ t : Term, t.subst (σ.compose τ) = (t.subst σ).subst τ) ∧
    (∀ a : Atom, a.subst (σ.compose τ) = (a.subst σ).subst τ) ∧
    (∀ l : Literal, l.subst (σ.compose τ) = (l.subst σ).subst τ) ∧
    (∀ c : Clause, (c.subst (σ.compose τ)).literals = ((c.subst σ).subst τ).literals) ∧
    (∀ s : Sentence, s.subst (σ.compose τ) = (s.subst σ).subst τ) ∧
    ((σ.compose τ).compose υ).bindings = (σ.compose (τ.compose υ)).bindings :=
  ⟨Term.subst_compose σ τ, Atom.subst_compose σ τ, Literal.subst_compose σ τ,
    fun c => congrArg Clause.literals (c.subst_compose σ τ), Sentence.subst_compose σ τ,
    congrArg bindings (compose_assoc σ τ υ)⟩

/-- A quantified variable may be renamed by the first substitution and dropped by the second; where none
is left, the quantifier vanishes. -/
example : let σ : Substitution := .ofList [(⟨"x"⟩, .var ⟨"z"⟩), (⟨"y"⟩, .const "B")]
    let τ : Substitution := .ofList [(⟨"z"⟩, .const "A")]
    let s : Sentence := .quant .all [⟨"x"⟩, ⟨"y"⟩] (.atom (.pred "P" [.var ⟨"x"⟩, .var ⟨"y"⟩]))
    s.subst σ = .quant .all [⟨"z"⟩] (.atom (.pred "P" [.var ⟨"z"⟩, .const "B"])) ∧
      s.subst (σ.compose τ) = .atom (.pred "P" [.const "A", .const "B"]) := by
  decide

end Substitution

end Refutation
