import Mathlib
import Refutation.Proofs.Subsumption

/-!
# Saturated sets of clauses have models

A set of clauses without equations is saturated if it covers all resolvents and factors of its
instances. Then it has a model, unless the empty clause is in it. Terms are the elements of the
model and stand for themselves; the atoms are made true or false one after the other along a
well-order, and an atom becomes true only if otherwise an instance of a clause would be false.

* `Covered`: a set of literals contradicts itself, or an instance of a clause lies in it.
* `Dominates`: the clauses of the one set are tautologies or subsumed by clauses of the other.
  Then the other covers as much.
* `FactorsCovered`, `ResolventsCovered`, `Saturated`: what inferences on instances yield is covered.
* `forcedTrue`: the atoms that are made true.
* `Saturated.exists_model`: a saturated set has a model.
-/

namespace Refutation

/-! ## Instances of clauses -/

namespace Literal

@[simp]
theorem positive_inst (v : Var → Term) (l : Literal) : (l.inst v).positive = l.positive := rfl

@[simp]
theorem atom_inst (v : Var → Term) (l : Literal) : (l.inst v).atom = l.atom.inst v := rfl

end Literal

namespace Clause

/-- The literals of an instance. -/
def instSet (c : Clause) (v : Var → Term) : Set Literal := {k | ∃ l ∈ c, l.inst v = k}

/-- The literals of an instance that come from other literals than the given one. -/
def instRest (c : Clause) (l : Literal) (v : Var → Term) : Set Literal :=
  {k | ∃ m ∈ c, m ≠ l ∧ m.inst v = k}

theorem mem_instSet {c : Clause} {l : Literal} (h : l ∈ c) (v : Var → Term) : l.inst v ∈ c.instSet v :=
  ⟨l, h, rfl⟩

theorem Subsumes.isTautology {c d : Clause} (h : c.Subsumes d) (hc : c.isTautology = true) :
    d.isTautology = true := by
  obtain ⟨θ, hθ⟩ := h.instance_mem
  obtain ⟨l, hl, hn⟩ := isTautology_iff.mp hc
  exact isTautology_iff.mpr ⟨l.inst θ, hθ l hl, hθ _ hn⟩

end Clause

/-! ## Covering -/

/-- The literals contradict each other, or an instance of a clause lies among them. -/
def Covered (M : Set Clause) (K : Set Literal) : Prop :=
  (∃ l ∈ K, l.negated ∈ K) ∨ ∃ E ∈ M, ∃ v, E.instSet v ⊆ K

/-- Each clause of `M` is a tautology or subsumed by a clause of `N`. -/
def Dominates (N M : Set Clause) : Prop :=
  ∀ c ∈ M, c.isTautology = true ∨ ∃ E ∈ N, E.Subsumes c

namespace Dominates

variable {L M N : Set Clause}

theorem of_subset (h : M ⊆ N) : Dominates N M := fun c hc => .inr ⟨c, h hc, .refl c⟩

theorem trans (h : Dominates N M) (h' : Dominates M L) : Dominates N L := by
  intro c hc
  rcases h' c hc with ht | ⟨E, hE, hEc⟩
  · exact .inl ht
  · rcases h E hE with ht | ⟨F, hF, hFE⟩
    · exact .inl (hEc.isTautology ht)
    · exact .inr ⟨F, hF, hFE.trans hEc⟩

/-- Subsumption never adds literals, so it can be kept to clauses with few of them. -/
theorem below (h : Dominates N M) (n : Nat) :
    Dominates {E ∈ N | E.size < n} {E ∈ M | E.size < n} := by
  rintro c ⟨hc, hn⟩
  rcases h c hc with ht | ⟨E, hE, hEc⟩
  · exact .inl ht
  · exact .inr ⟨E, ⟨hE, hEc.size_le.trans_lt hn⟩, hEc⟩

end Dominates

variable {M N : Set Clause} {K : Set Literal} {A B : Clause}

/-- What dominates covers as much. -/
theorem Covered.mono (h : Dominates N M) (hK : Covered M K) : Covered N K := by
  rcases hK with ht | ⟨c, hc, v, hv⟩
  · exact .inl ht
  · rcases h c hc with ht | ⟨E, hE, -, -, θ, hθ⟩
    · obtain ⟨l, hl, hn⟩ := Clause.isTautology_iff.mp ht
      exact .inl ⟨l.inst v, hv (c.mem_instSet hl v), hv (c.mem_instSet hn v)⟩
    · refine .inr ⟨E, hE, fun x => (θ x).inst v, ?_⟩
      rintro _ ⟨l, hl, rfl⟩
      rw [← Literal.inst_inst]
      exact hv (c.mem_instSet (hθ l hl) v)

/-- Where two literals of a clause become one, clauses with fewer literals cover the instance. -/
def FactorsCovered (M : Set Clause) (A : Clause) : Prop :=
  ∀ v, ∀ l ∈ A, ∀ m ∈ A, l ≠ m → l.inst v = m.inst v →
    Covered {E ∈ M | E.size < A.size} (A.instSet v)

/-- Where a literal of the one clause becomes the negation of a literal of the other, what is left
of the two instances is covered. -/
def ResolventsCovered (M : Set Clause) (A B : Clause) : Prop :=
  ∀ v w, ∀ l ∈ A, ∀ m ∈ B, l.positive ≠ m.positive → l.atom.inst v = m.atom.inst w →
    Covered M (A.instRest l v ∪ B.instRest m w)

theorem FactorsCovered.mono (h : Dominates N M) (hA : FactorsCovered M A) : FactorsCovered N A :=
  fun v l hl m hm hne he => (hA v l hl m hm hne he).mono (h.below _)

theorem ResolventsCovered.mono (h : Dominates N M) (hAB : ResolventsCovered M A B) :
    ResolventsCovered N A B :=
  fun v w l hl m hm hs he => (hAB v w l hl m hm hs he).mono h

theorem ResolventsCovered.symm (h : ResolventsCovered M A B) : ResolventsCovered M B A := by
  intro v w l hl m hm hs he
  rw [Set.union_comm]
  exact h w v m hm l hl hs.symm he.symm

/-- All that inferences on instances yield is covered, and no clause is empty. -/
structure Saturated (N : Set Clause) : Prop where
  not_empty : ∀ A ∈ N, A ≠ .empty
  factors : ∀ A ∈ N, FactorsCovered N A
  resolvents : ∀ A ∈ N, ∀ B ∈ N, ResolventsCovered N A B

/-! ## Terms as elements -/

/-- The literal is true if the given atoms are. -/
def Literal.TrueFor (T : Atom → Prop) (l : Literal) : Prop := if l.positive then T l.atom else ¬T l.atom

/-- The interpretation in which terms stand for themselves and the given atoms are true. -/
def Interpretation.ofAtoms (T : Atom → Prop) : Interpretation Term where
  const := .const
  func := .app
  pred p ts := T (.pred p ts)

section Herbrand

variable {T V : Atom → Prop}

theorem Term.eval_ofAtoms (t : Term) (v : Var → Term) : t.eval (.ofAtoms T) v = t.inst v := by
  induction t with
  | var x => rfl
  | const c => rfl
  | app f args ih =>
    rw [eval_app, inst_app, List.map_congr_left ih]
    rfl

theorem Literal.holds_ofAtoms {l : Literal} (h : l.atom.isEq = false) (v : Var → Term) :
    l.Holds (.ofAtoms T) v ↔ (l.inst v).TrueFor T := by
  obtain ⟨sign, a⟩ := l
  cases a with
  | eq s t => cases h
  | pred p args =>
    have hargs : args.map (Term.eval (.ofAtoms T) v) = args.map (Term.inst v) :=
      List.map_congr_left fun t _ => t.eval_ofAtoms v
    have hatom : (Atom.pred p args).Holds (.ofAtoms T) v ↔ T ((Atom.pred p args).inst v) := by
      rw [Atom.Holds, hargs]
      rfl
    cases sign with
    | true => exact hatom
    | false => exact not_congr hatom

theorem Literal.trueFor_congr {k : Literal} (h : T k.atom ↔ V k.atom) :
    k.TrueFor T ↔ k.TrueFor V := by
  simp only [TrueFor, h]

theorem Literal.trueFor_or_negated (k : Literal) : k.TrueFor T ∨ k.negated.TrueFor T := by
  obtain ⟨sign, a⟩ := k
  by_cases ha : T a <;> cases sign <;> simp [TrueFor, negated, ha]

end Herbrand

/-! ## The choice of true atoms -/

section Order

variable [LinearOrder Atom] {T V : Atom → Prop} {a b : Atom} {v w : Var → Term}

/-- No atom of the instance is greater than the given one, and no literal is true. -/
def Clause.FailsAt (A : Clause) (T : Atom → Prop) (a : Atom) (v : Var → Term) : Prop :=
  ∀ k ∈ A.instSet v, k.atom ≤ a ∧ ¬k.TrueFor T

/-- Of the literals of an instance one has the greatest atom. -/
theorem Clause.exists_greatest (hA : A ≠ .empty) (v : Var → Term) :
    ∃ k ∈ A.instSet v, ∀ k' ∈ A.instSet v, k'.atom ≤ k.atom := by
  have hne : A.literals.toFinset.Nonempty := by
    rw [List.toFinset_nonempty_iff]
    exact fun h => hA (Clause.ext h)
  obtain ⟨l, hl, hmax⟩ := A.literals.toFinset.exists_max_image (fun l => (l.inst v).atom) hne
  refine ⟨l.inst v, mem_instSet (List.mem_toFinset.mp hl) v, ?_⟩
  rintro _ ⟨m, hm, rfl⟩
  exact hmax m (List.mem_toFinset.mpr hm)

/-- An instance whose atoms are all smaller fails earlier. -/
theorem Clause.exists_failsAt (hA : A ≠ .empty)
    (h : ∀ k ∈ A.instSet v, k.atom < a ∧ ¬k.TrueFor T) : ∃ b < a, A.FailsAt T b v := by
  obtain ⟨k, hk, hmax⟩ := exists_greatest hA v
  exact ⟨k.atom, (h k hk).1, fun k' hk' => ⟨hmax k' hk', (h k' hk').2⟩⟩

/-- If an instance fails, one fails whose literals all stay apart: collapsing literals lead to a
clause with fewer of them. -/
theorem Saturated.exists_apart (hN : Saturated N) (hA : A ∈ N) (h : A.FailsAt T a v) :
    ∃ A ∈ N, ∃ v, A.FailsAt T a v ∧ ∀ l ∈ A, ∀ m ∈ A, l.inst v = m.inst v → l = m := by
  induction hn : A.size using Nat.strong_induction_on generalizing A v with
  | _ n ih =>
    by_cases hapart : ∀ l ∈ A, ∀ m ∈ A, l.inst v = m.inst v → l = m
    · exact ⟨A, hA, v, h, hapart⟩
    push Not at hapart
    obtain ⟨l, hl, m, hm, he, hne⟩ := hapart
    rcases hN.factors A hA v l hl m hm hne he with ⟨k, hk, hk'⟩ | ⟨E, ⟨hE, hsize⟩, w, hw⟩
    · exact (k.trueFor_or_negated.elim (h k hk).2 (h _ hk').2).elim
    · exact ih E.size (hn ▸ hsize) hE (fun k hk => h k (hw hk)) rfl

/-- Where the atom is true, a failing instance has smaller literals and the atom's negation. -/
theorem Clause.FailsAt.lt_or_neg (h : A.FailsAt T a v) (ha : T a) {k : Literal}
    (hk : k ∈ A.instSet v) : (k.atom < a ∧ ¬k.TrueFor T) ∨ k = .neg a := by
  obtain ⟨hle, hfalse⟩ := h k hk
  rcases hle.lt_or_eq with hlt | rfl
  · exact .inl ⟨hlt, hfalse⟩
  · obtain ⟨sign, b⟩ := k
    cases sign with
    | true => exact (hfalse ha).elim
    | false => exact .inr rfl

/-- Where only smaller atoms are true, a failing instance has smaller literals and the atom. -/
theorem Clause.FailsAt.lt_or_pos (h : A.FailsAt (fun b => b < a ∧ T b) a v) {k : Literal}
    (hk : k ∈ A.instSet v) : (k.atom < a ∧ ¬k.TrueFor T) ∨ k = .pos a := by
  obtain ⟨hle, hfalse⟩ := h k hk
  rcases hle.lt_or_eq with hlt | rfl
  · exact .inl ⟨hlt, fun hT => hfalse ((Literal.trueFor_congr (and_iff_right hlt)).mpr hT)⟩
  · obtain ⟨sign, b⟩ := k
    cases sign with
    | true => exact .inr rfl
    | false => exact (hfalse fun h => lt_irrefl _ h.1).elim

variable [WellFoundedLT Atom]

/-- The atoms that are made true: an instance fails at the atom if only smaller atoms that are made
true are true. -/
def forcedTrue (N : Set Clause) : Atom → Prop :=
  wellFounded_lt.fix fun a below => ∃ A ∈ N, ∃ v, A.FailsAt (fun b => ∃ h : b < a, below b h) a v

theorem forcedTrue_iff : forcedTrue N a ↔
    ∃ A ∈ N, ∃ v, A.FailsAt (fun b => b < a ∧ forcedTrue N b) a v := by
  rw [forcedTrue, WellFounded.fix_eq]
  simp only [exists_prop]

/-- Where an instance fails the atom is true: otherwise the instance would have made it true. -/
theorem forcedTrue_of_failsAt (hA : A ∈ N) (h : A.FailsAt (forcedTrue N) a v) : forcedTrue N a := by
  by_contra hna
  refine hna (forcedTrue_iff.mpr ⟨A, hA, v, fun k hk => ⟨(h k hk).1, fun hk' => (h k hk).2 ?_⟩⟩)
  refine (Literal.trueFor_congr ?_).mp hk'
  rcases (h k hk).1.lt_or_eq with hlt | he
  · exact and_iff_right hlt
  · simp [he, hna]

/-- No instance of a saturated set fails. -/
theorem Saturated.not_failsAt (hN : Saturated N) (a : Atom) :
    ∀ A ∈ N, ∀ v, ¬A.FailsAt (forcedTrue N) a v := by
  induction a using WellFoundedLT.induction with
  | ind a ih =>
  -- An instance with smaller atoms only does not fail, by induction.
  have hlower : ∀ E ∈ N, ∀ u, ¬∀ k ∈ E.instSet u, k.atom < a ∧ ¬k.TrueFor (forcedTrue N) := by
    intro E hE u h
    obtain ⟨b, hb, hfail⟩ := Clause.exists_failsAt (hN.not_empty E hE) h
    exact ih b hb E hE u hfail
  intro A₀ hA₀ v₀ h₀
  -- Both this instance and the one that made the atom true may be taken with literals apart.
  have ha := forcedTrue_of_failsAt hA₀ h₀
  obtain ⟨A, hA, v, hAv, hapart⟩ := hN.exists_apart hA₀ h₀
  obtain ⟨B₀, hB₀, w₀, hB₀w⟩ := forcedTrue_iff.mp ha
  obtain ⟨B, hB, w, hBw, hapart'⟩ := hN.exists_apart hB₀ hB₀w
  obtain ⟨l, hl, hla⟩ : ∃ l ∈ A, l.inst v = .neg a := by
    by_contra hno
    push Not at hno
    refine hlower A hA v fun k hk => (hAv.lt_or_neg ha hk).resolve_right ?_
    obtain ⟨l, hl, rfl⟩ := hk
    exact hno l hl
  obtain ⟨m, hm, hma⟩ : ∃ m ∈ B, m.inst w = .pos a := by
    by_contra hno
    push Not at hno
    refine hlower B hB w fun k hk => (hBw.lt_or_pos hk).resolve_right ?_
    obtain ⟨m, hm, rfl⟩ := hk
    exact hno m hm
  -- So what is left of both is smaller and not true, but it is covered.
  have hrest : ∀ k ∈ A.instRest l v ∪ B.instRest m w, k.atom < a ∧ ¬k.TrueFor (forcedTrue N) := by
    rintro k (⟨l', hl', hne, rfl⟩ | ⟨m', hm', hne, rfl⟩)
    · exact (hAv.lt_or_neg ha (A.mem_instSet hl' v)).resolve_right fun he =>
        hne (hapart l' hl' l hl (he.trans hla.symm))
    · exact (hBw.lt_or_pos (B.mem_instSet hm' w)).resolve_right fun he =>
        hne (hapart' m' hm' m hm (he.trans hma.symm))
  have hsign : l.positive ≠ m.positive := by
    have hl' : l.positive = false := congrArg Literal.positive hla
    have hm' : m.positive = true := congrArg Literal.positive hma
    simp [hl', hm']
  have hatom : l.atom.inst v = m.atom.inst w :=
    (congrArg Literal.atom hla).trans (congrArg Literal.atom hma).symm
  rcases hN.resolvents A hA B hB v w l hl m hm hsign hatom with ⟨k, hk, hk'⟩ | ⟨E, hE, u, hu⟩
  · exact k.trueFor_or_negated.elim (hrest k hk).2 (hrest _ hk').2
  · exact hlower E hE u fun k hk => hrest k (hu hk)

end Order

/-- A saturated set of clauses without equations has a model. -/
theorem Saturated.exists_model (hN : Saturated N) (heq : ∀ A ∈ N, A.hasEq = false) :
    ∃ I : Interpretation Term, ∀ A ∈ N, A.TrueIn I := by
  let _ : LinearOrder Atom := IsWellOrder.linearOrder WellOrderingRel
  have : WellFoundedLT Atom := ⟨WellOrderingRel.isWellOrder.wf⟩
  refine ⟨.ofAtoms (forcedTrue N), fun A hA v => ?_⟩
  by_contra hfalse
  have hfail : ∀ k ∈ A.instSet v, ¬k.TrueFor (forcedTrue N) := by
    rintro _ ⟨l, hl, rfl⟩ htrue
    have hl' : l.atom.isEq = false := by
      have h := heq A hA
      simp only [Clause.hasEq, List.any_eq_false, Bool.not_eq_true] at h
      exact h l hl
    exact hfalse ⟨l, hl, (Literal.holds_ofAtoms hl' v).mpr htrue⟩
  obtain ⟨k, -, hmax⟩ := Clause.exists_greatest (hN.not_empty A hA) v
  exact hN.not_failsAt k.atom A hA v fun k' hk' => ⟨hmax k' hk', hfail k' hk'⟩

end Refutation
