import Refutation.Proofs.Lifting

/-!
# Resolvents of instances

A resolvent of instances of two clauses, on a literal and its negation, is an instance of a resolvent of
the clauses or of factors of theirs. Factors are needed because several literals of a clause may become the
one that is resolved on; a factor in which only one of them is left has the same instance.

* `exists_factor_single`: the factor.
* `Session.resolvents_lift`: the resolvent, whatever names are drawn.
-/

namespace Refutation

variable {u : Unifier}

namespace Clause

theorem mem_subst_iff {c : Clause} {σ : Substitution} {k : Literal} :
    k ∈ c.subst σ ↔ k ∈ c.instSet σ.image := by
  simp only [mem_subst, Literal.subst_eq_inst]
  rfl

theorem instSet_of_same {c d : Clause} (h : c.same d = true) (v : Var → Term) :
    c.instSet v = d.instSet v :=
  Set.ext fun _ => exists_congr fun l => and_congr_left' (same_iff.mp h l)

/-- If no other literal becomes the same, the rest of an instance is the instance without that literal. -/
theorem mem_instRest {c : Clause} {v : Var → Term} {l : Literal}
    (h : ∀ m ∈ c, m.inst v = l.inst v → m = l) {k : Literal} :
    k ∈ c.instRest l v ↔ k ∈ c.instSet v ∧ k ≠ l.inst v := by
  constructor
  · rintro ⟨m, hm, hne, rfl⟩
    exact ⟨c.mem_instSet hm v, fun he => hne (h m hm he)⟩
  · rintro ⟨⟨m, hm, rfl⟩, hne⟩
    exact ⟨m, hm, fun he => hne (congrArg (Literal.inst v) he), rfl⟩

end Clause

/-! ## Factors -/

/-- For each of them, one of a clause and its factors has the same instance, and in it a given literal
comes from one literal only: as long as it comes from two, there is a smaller one. -/
theorem exists_factor_single (hu : u.occursCheck = true) {c : Sourced} (hc : c.clause.wellFormed = true)
    (d : Derivation) (hd : ∀ p ∈ factorProblems u c d, u.withinDepth p = true) {x : Sourced}
    (hx : x ∈ c :: (factors u c d).1) {v : Var → Term} {L : Literal} (hL : L ∈ x.clause.instSet v) :
    ∃ y ∈ c :: (factors u c d).1, y.clause.instSet v = x.clause.instSet v ∧
      ∃ l ∈ y.clause, l.inst v = L ∧ ∀ m ∈ y.clause, m.inst v = L → m = l := by
  induction hn : x.clause.size using Nat.strong_induction_on generalizing x with
  | _ n ih =>
    obtain ⟨l, hl, hlL⟩ := hL
    by_cases hsingle : ∀ m ∈ x.clause, m.inst v = L → m = l
    · exact ⟨x, hx, rfl, l, hl, hlL, hsingle⟩
    · push Not at hsingle
      obtain ⟨m, hm, hmL, hne⟩ := hsingle
      have hxw := factors_wellFormed hu hc d x hx
      obtain ⟨i, hi, hinst⟩ := exists_mem_directFactors hu hxw
        (fun p hp => hd p (List.mem_flatMap.mpr ⟨x, hx, hp⟩)) hm hl hne (hmL.trans hlL.symm)
      obtain ⟨y, hy, hsame⟩ := exists_mem_factors hu hc d hx hi
      obtain ⟨σ, rfl, -, hlt⟩ := directFactors_cases hu hxw hi
      have hyx : y.clause.instSet v = x.clause.instSet v := (Clause.instSet_of_same hsame v).trans hinst
      have hsize := (Clause.subsumes_of_same hsame).size_le
      obtain ⟨z, hz, hzy, hsingle⟩ := ih _ (hn ▸ hsize.trans_lt hlt) hy
        (hyx ▸ ⟨l, hl, hlL⟩) rfl
      exact ⟨z, hz, hzy.trans hyx, hsingle⟩

/-! ## Resolvents -/

/-- A resolvent of instances of two clauses is an instance of a resolvent of the clauses or of their
factors, which are the same for all names that may be drawn. -/
theorem Session.resolvents_lift (hu : u.occursCheck = true) {c e : Sourced}
    (hc : c.clause.wellFormed = true) (he : e.clause.wellFormed = true) (d d' : Derivation)
    (hdc : ∀ p ∈ factorProblems u c d, u.withinDepth p = true)
    (hde : ∀ p ∈ factorProblems u e d', u.withinDepth p = true) (σ τ : Substitution) {L : Literal}
    (hL : L ∈ c.clause.subst σ) (hL' : L.negated ∈ e.clause.subst τ) :
    ∃ x ∈ c :: (factors u c d).1, ∃ y ∈ e :: (factors u e d').1, ∀ s : Session,
      (∀ p ∈ resolutionPairs x.clause (s.separate x y).1.clause, u.withinDepth p = true) →
      ∃ r ∈ (s.resolvents u x y).1, ∃ δ : Substitution, ∀ k, k ∈ r.clause.subst δ ↔
        (k ∈ c.clause.subst σ ∧ k ≠ L) ∨ (k ∈ e.clause.subst τ ∧ k ≠ L.negated) := by
  rw [Clause.mem_subst_iff] at hL hL'
  obtain ⟨x, hx, hx_inst, l, hl, rfl, hl_single⟩ :=
    exists_factor_single hu hc d hdc List.mem_cons_self hL
  obtain ⟨y, hy, hy_inst, m, hm, hmL, hm_single⟩ :=
    exists_factor_single hu he d' hde List.mem_cons_self hL'
  refine ⟨x, hx, y, hy, fun s hd => ?_⟩
  have hsign : l.positive ≠ m.positive := by
    have hpos : m.positive = !l.positive := congrArg Literal.positive hmL
    rw [hpos]
    cases l.positive <;> decide
  have hatom : l.atom.inst σ.image = m.atom.inst τ.image := (congrArg Literal.atom hmL).symm
  obtain ⟨r, hr, z, hz⟩ := exists_mem_resolvents hu (factors_wellFormed hu hc d x hx)
    (factors_wellFormed hu he d' y hy) hd hl hm hsign hatom
  obtain ⟨δ, hδ⟩ := r.clause.exists_subst_eq_inst z
  refine ⟨r, hr, δ, fun k => ?_⟩
  have hsubst : k ∈ r.clause.subst δ ↔ k ∈ r.clause.instSet z := by
    rw [Clause.mem_subst]
    exact exists_congr fun l' => and_congr_right fun hl' => by rw [hδ l' hl']
  rw [← hmL] at hm_single
  rw [hsubst, hz, Set.mem_union, Clause.mem_instRest hl_single, Clause.mem_instRest hm_single, hx_inst,
    hy_inst, hmL, Clause.mem_subst_iff, Clause.mem_subst_iff]

namespace Session

/-- `P(x) | P(y) | Q(x)`. -/
def twice : Sourced :=
  ⟨.ofList [.pos (.pred "P" [.var ⟨"x"⟩]), .pos (.pred "P" [.var ⟨"y"⟩]), .pos (.pred "Q" [.var ⟨"x"⟩])],
    none⟩

/-- `~P(x) | ~P(A) | R(x)`. -/
def denials : Sourced :=
  ⟨.ofList [.neg (.pred "P" [.var ⟨"x"⟩]), .neg (.pred "P" [.const "A"]), .pos (.pred "R" [.var ⟨"x"⟩])],
    none⟩

/-- Where the variables are `A`, two literals on either side become the ones resolved on, and `Q(A) | R(A)`
is left. -/
theorem twice_denials_lift :
    ∃ x ∈ twice :: (factors {} twice .empty).1, ∃ y ∈ denials :: (factors {} denials .empty).1,
      ∃ r ∈ (({ names := { stem := "c" } } : Session).resolvents {} x y).1, ∃ δ : Substitution,
        ∀ k, k ∈ r.clause.subst δ ↔
          k = .pos (.pred "Q" [.const "A"]) ∨ k = .pos (.pred "R" [.const "A"]) := by
  let s : Session := { names := { stem := "c" } }
  let σ : Substitution := .ofList [(⟨"x"⟩, .const "A"), (⟨"y"⟩, .const "A")]
  have htwice : (factorProblems {} twice .empty).all ({} : Unifier).withinDepth = true := by cbv
  have hdenials : (factorProblems {} denials .empty).all ({} : Unifier).withinDepth = true := by cbv
  have hpairs : ((twice :: (factors {} twice .empty).1).all fun x =>
      (denials :: (factors {} denials .empty).1).all fun y =>
        (resolutionPairs x.clause (s.separate x y).1.clause).all ({} : Unifier).withinDepth) = true := by
    cbv
  obtain ⟨x, hx, y, hy, h⟩ := resolvents_lift (u := {}) rfl (c := twice) (e := denials) (by decide)
    (by decide) .empty .empty (List.all_eq_true.mp htwice) (List.all_eq_true.mp hdenials) σ σ
    (L := .pos (.pred "P" [.const "A"])) (by decide) (by decide)
  have hxy := List.all_eq_true.mp (List.all_eq_true.mp hpairs x hx) y hy
  obtain ⟨r, hr, δ, hδ⟩ := h s (List.all_eq_true.mp hxy)
  refine ⟨x, hx, y, hy, r, hr, δ, fun k => (hδ k).trans ?_⟩
  have hσ : (twice.clause.subst σ).literals =
      [.pos (.pred "P" [.const "A"]), .pos (.pred "Q" [.const "A"])] := by decide
  have hσ' : (denials.clause.subst σ).literals =
      [.neg (.pred "P" [.const "A"]), .pos (.pred "R" [.const "A"])] := by decide
  rw [Clause.mem_iff, Clause.mem_iff, hσ, hσ']
  simp only [List.mem_cons, List.not_mem_nil, or_false]
  constructor
  · rintro (⟨rfl | rfl, hne⟩ | ⟨rfl | rfl, hne⟩)
    · exact absurd rfl hne
    · exact .inl rfl
    · exact absurd rfl hne
    · exact .inr rfl
  · rintro (rfl | rfl)
    · exact .inl ⟨.inr rfl, by decide⟩
    · exact .inr ⟨.inr rfl, by decide⟩

end Session

end Refutation
