import Refutation.Proofs.Saturation

/-!
# Tautologies

A clause is dropped as a tautology if a literal stands in it beside its own negation. Such a clause is
true everywhere. For clauses without equations nothing else is: let terms stand for themselves and make
true just the atoms that the clause denies, then each of its literals is false. Where function symbols
have the arguments they record, this can be had even if a function is known by its name alone.

* `Interpretation.ByName`: recorded arities make no difference to the value of a term.
* `Interpretation.byName`: every interpretation can be read so; well-formed terms keep their values.
* `Clause.not_holds_denying`: the terms as elements refute a clause that is no tautology.
* `Clause.isTautology_exact`: tautologies are the clauses that are true everywhere.
-/

namespace Refutation

universe u

variable {D : Type u} {I : Interpretation D} {v : Var → D}

/-! ## Functions known by name -/

namespace Interpretation

/-- Functions are known by their names and arguments: the arity that a symbol records makes no
difference. -/
def ByName (I : Interpretation D) : Prop := ∀ f g args, f.name = g.name → I.func f args = I.func g args

/-- Every function symbol is read as one that records the number of its arguments. -/
def byName (I : Interpretation D) : Interpretation D :=
  { I with func := fun f args => I.func ⟨f.name, args.length⟩ args }

theorem byName_byName (I : Interpretation D) : I.byName.ByName := by
  intro f g args h
  simp only [byName, h]

end Interpretation

theorem Term.eval_byName {t : Term} (h : t.wellFormed = true) : t.eval I.byName v = t.eval I v := by
  induction t with
  | var x => rfl
  | const c => rfl
  | app f args ih =>
    obtain ⟨hf, hargs⟩ := wellFormed_app.mp h
    have hmap : args.map (eval I.byName v) = args.map (eval I v) :=
      List.map_congr_left fun t ht => ih t ht (hargs t ht)
    rw [eval_app, eval_app, hmap]
    simp only [Interpretation.byName, List.length_map, ← hf]

theorem Atom.holds_byName {a : Atom} (h : a.wellFormed = true) :
    a.Holds I.byName v ↔ a.Holds I v := by
  have heval : ∀ t ∈ a.args, t.eval I.byName v = t.eval I v := fun t ht =>
    Term.eval_byName (wellFormed_iff.mp h t ht)
  cases a with
  | pred p args =>
    have hmap : args.map (Term.eval I.byName v) = args.map (Term.eval I v) := List.map_congr_left heval
    rw [Holds, Holds, hmap, Interpretation.byName]
  | eq l r => rw [Holds, Holds, heval l (by simp [args]), heval r (by simp [args])]

theorem Clause.holds_byName {c : Clause} (h : c.wellFormed = true) :
    c.Holds I.byName v ↔ c.Holds I v := by
  refine exists_congr fun l => and_congr_right fun hl => ?_
  rw [Literal.Holds, Literal.Holds, Atom.holds_byName (wellFormed_iff.mp h l hl)]

/-! ## Refuting a clause -/

namespace Clause

/-- The terms as elements, where just the atoms that the clause denies are true. -/
def denying (c : Clause) : Interpretation Term := .ofAtoms fun a => .neg a ∈ c

/-- Every literal of a clause that is no tautology is false there. -/
theorem not_holds_denying {c : Clause} (ht : c.isTautology = false) (heq : c.hasEq = false) :
    ¬c.Holds c.denying .var := by
  rintro ⟨l, hl, htrue⟩
  simp only [hasEq, List.any_eq_false, Bool.not_eq_true] at heq
  rw [denying, Literal.holds_ofAtoms (heq l hl), Literal.inst_id] at htrue
  obtain ⟨sign, a⟩ := l
  cases sign with
  | true =>
    have htaut : c.isTautology = true := isTautology_iff.mpr ⟨.pos a, hl, htrue⟩
    rw [ht] at htaut
    cases htaut
  | false => exact htrue hl

/-- Tautologies are true everywhere. A clause with well-formed terms and without equations that is true
everywhere is a tautology, and for that it has to be true only where functions are known by name. -/
theorem isTautology_exact (c : Clause) :
    (c.isTautology = true → ∀ (D : Type u) (I : Interpretation D), c.TrueIn I) ∧
    (c.wellFormed = true → c.hasEq = false →
      (c.isTautology = true ↔ ∀ (D : Type) (I : Interpretation D), c.TrueIn I) ∧
      (c.isTautology = true ↔ ∀ (D : Type) (I : Interpretation D), I.ByName → c.TrueIn I)) := by
  refine ⟨fun h D I => trueIn_of_isTautology h I, fun hw heq => ?_⟩
  have hrefuted : (∀ (D : Type) (I : Interpretation D), I.ByName → c.TrueIn I) → c.isTautology = true := by
    intro htrue
    by_contra ht
    have hholds := htrue Term c.denying.byName (Interpretation.byName_byName _) .var
    exact not_holds_denying (Bool.not_eq_true _ ▸ ht) heq ((holds_byName hw).mp hholds)
  exact ⟨⟨fun h D I => trueIn_of_isTautology h I, fun h => hrefuted fun D I _ => h D I⟩,
    ⟨fun h D I _ => trueIn_of_isTautology h I, hrefuted⟩⟩

/-- `P(f(x)) | ~P(f(x,x)) | ~P`: the names are the same, the numbers of arguments are not. -/
def overloaded : Clause :=
  .ofList [.pos (.pred "P" [.fn "f" [.var ⟨"x"⟩]]),
    .neg (.pred "P" [.fn "f" [.var ⟨"x"⟩, .var ⟨"x"⟩]]), .neg (.pred "P" [])]

theorem overloaded_not_valid :
    overloaded.wellFormed = true ∧ overloaded.hasEq = false ∧ overloaded.isTautology = false ∧
      ¬∀ (D : Type) (I : Interpretation D), I.ByName → overloaded.TrueIn I := by
  have hw : overloaded.wellFormed = true := by decide +kernel
  have heq : overloaded.hasEq = false := by decide +kernel
  have ht : overloaded.isTautology = false := by decide +kernel
  refine ⟨hw, heq, ht, fun h => ?_⟩
  have htaut := (((isTautology_exact.{0} overloaded).2 hw heq).2).mpr h
  rw [ht] at htaut
  cases htaut

-- With equations more is true everywhere: `x = x` is, and no literal stands beside its negation.
example : (ofList [.pos (.eq (.var ⟨"x"⟩) (.var ⟨"x"⟩))]).isTautology = false ∧
    ∀ (D : Type) (I : Interpretation D), (ofList [.pos (.eq (.var ⟨"x"⟩) (.var ⟨"x"⟩))]).TrueIn I :=
  ⟨by decide, fun _ _ _ => ⟨_, mem_ofList.mpr List.mem_cons_self, rfl⟩⟩

end Clause

end Refutation
