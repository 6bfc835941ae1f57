import Refutation.Subsumption
import Refutation.Proofs.Matching

/-!
# Subsumption is exact

The test for subsumption looks for bindings by backtracking. What it finds is an instance of the
one clause inside the other, and where there is such an instance it finds one.

* `Clause.Subsumes`: an instance of the one clause lies in the other, which has at least as many
  literals of either sign.
* `matchAll_sound`, `Clause.subsumes_sound`: the test accepts nothing else.
* `matchAll_complete`, `Clause.subsumes_iff`: it accepts all of it.
* `Clause.subsumes_exact`: the same in terms of substitutions, and what follows for the test.
-/

namespace Refutation

/-! ## Backtracking -/

theorem matchAll_sound {cs : List Candidates} {σ : Substitution} (h : matchAll σ cs = true) :
    ∃ τ, σ.Keeps τ ∧ ∀ c ∈ cs, c.literal.subst τ ∈ c.targets := by
  induction cs generalizing σ with
  | nil => exact ⟨σ, .refl σ, nofun⟩
  | cons c cs ih =>
    rw [matchAll, List.any_eq_true] at h
    obtain ⟨t, ht, h⟩ := h
    split at h
    · rename_i σ₁ h₁
      obtain ⟨hgrows, hc⟩ := Literal.matchTo_sound h₁
      obtain ⟨τ, hτ, hcs⟩ := ih h
      refine ⟨τ, hgrows.keeps.trans hτ, List.forall_mem_cons.mpr ⟨?_, hcs⟩⟩
      rw [hc τ hτ]
      exact ht
    · cases h

theorem matchAll_complete {cs : List Candidates} {σ : Substitution} {θ : Var → Term} (h : σ.Agrees θ)
    (hcs : ∀ c ∈ cs, c.literal.inst θ ∈ c.targets) : matchAll σ cs = true := by
  induction cs generalizing σ with
  | nil => rfl
  | cons c cs ih =>
    rw [List.forall_mem_cons] at hcs
    obtain ⟨σ', hc, hσ'⟩ := c.literal.matchTo_complete h
    rw [matchAll, List.any_eq_true]
    refine ⟨_, hcs.1, ?_⟩
    rw [hc]
    exact ih hσ' hcs.2

/-! ## Clauses -/

theorem Literal.key_inst (l : Literal) (θ : Var → Term) : (l.inst θ).key = l.key := by
  rw [key, inst, Atom.symbol_inst, Atom.arity_inst]
  rfl

namespace Clause

/-- An instance of the clause lies in the other, which has at least as many literals of either
sign. -/
structure Subsumes (c d : Clause) : Prop where
  positives : c.positives.length ≤ d.positives.length
  negatives : c.negatives.length ≤ d.negatives.length
  instance_mem : ∃ θ : Var → Term, ∀ l ∈ c, l.inst θ ∈ d

theorem size_eq (c : Clause) : c.size = c.positives.length + c.negatives.length :=
  List.length_eq_length_filter_add _

theorem Subsumes.size_le {c d : Clause} (h : c.Subsumes d) : c.size ≤ d.size := by
  rw [size_eq, size_eq]
  exact Nat.add_le_add h.positives h.negatives

theorem Subsumes.trans {c d e : Clause} (h : c.Subsumes d) (h' : d.Subsumes e) : c.Subsumes e := by
  obtain ⟨θ, hθ⟩ := h.instance_mem
  obtain ⟨υ, hυ⟩ := h'.instance_mem
  refine ⟨h.positives.trans h'.positives, h.negatives.trans h'.negatives,
    fun x => (θ x).inst υ, fun l hl => ?_⟩
  rw [← Literal.inst_inst]
  exact hυ _ (hθ l hl)

/-- A clause that lies in another subsumes it. -/
theorem subsumes_of_subset {c d : Clause} (h : ∀ l ∈ c, l ∈ d) : c.Subsumes d := by
  have hlen : ∀ p : Literal → Bool, (c.literals.filter p).length ≤ (d.literals.filter p).length := by
    intro p
    refine ((c.nodup.filter p).subperm fun l hl => ?_).length_le
    rw [List.mem_filter] at hl ⊢
    exact ⟨h l hl.1, hl.2⟩
  refine ⟨hlen _, hlen _, .var, fun l hl => ?_⟩
  rw [Literal.inst_id]
  exact h l hl

theorem subsumes_of_same {c d : Clause} (h : c.same d = true) : c.Subsumes d :=
  subsumes_of_subset fun l => (same_iff.mp h l).mp

theorem Subsumes.refl (c : Clause) : c.Subsumes c := subsumes_of_same (same_refl c)

/-- The targets of a literal are the literals of the other clause with the same key. -/
theorem mem_candidates {c d : Clause} {a : Candidates} (h : a ∈ c.candidates d) (t : Literal) :
    t ∈ a.targets ↔ t ∈ d ∧ t.key = a.literal.key := by
  obtain ⟨l, -, rfl⟩ := List.mem_map.mp (List.mem_mergeSort.mp h)
  simp only [List.mem_filterMap, List.mem_map]
  constructor
  · rintro ⟨⟨k, m⟩, ⟨m', hm', hkm⟩, he⟩
    cases hkm
    split at he
    · rename_i hk
      cases he
      exact ⟨hm', hk⟩
    · cases he
  · rintro ⟨ht, hk⟩
    exact ⟨(t.key, t), ⟨t, ht, rfl⟩, if_pos hk⟩

theorem literal_of_mem_candidates {c d : Clause} {a : Candidates} (h : a ∈ c.candidates d) :
    a.literal ∈ c := by
  obtain ⟨l, hl, rfl⟩ := List.mem_map.mp (List.mem_mergeSort.mp h)
  exact hl

theorem exists_candidates {c : Clause} (d : Clause) {l : Literal} (h : l ∈ c) :
    ∃ a ∈ c.candidates d, a.literal = l :=
  ⟨_, List.mem_mergeSort.mpr (List.mem_map_of_mem h), rfl⟩

/-- The test for subsumption accepts only what is subsumed. -/
theorem subsumes_sound {c d : Clause} (h : c.subsumes d = true) : c.Subsumes d := by
  simp only [subsumes, Bool.and_eq_true, decide_eq_true_eq] at h
  obtain ⟨τ, -, hτ⟩ := matchAll_sound h.2
  refine ⟨h.1.1.2, h.1.2, τ.image, fun l hl => ?_⟩
  obtain ⟨a, ha, rfl⟩ := exists_candidates d hl
  rw [← Literal.subst_eq_inst]
  exact ((mem_candidates ha _).mp (hτ a ha)).1

/-- The test for subsumption accepts exactly what is subsumed. -/
theorem subsumes_iff {c d : Clause} : c.subsumes d = true ↔ c.Subsumes d := by
  refine ⟨subsumes_sound, fun h => ?_⟩
  obtain ⟨θ, hθ⟩ := h.instance_mem
  simp only [subsumes, Bool.and_eq_true, decide_eq_true_eq]
  refine ⟨⟨⟨h.size_le, h.positives⟩, h.negatives⟩,
    matchAll_complete (Substitution.agrees_empty θ) fun a ha => ?_⟩
  exact (mem_candidates ha _).mpr ⟨hθ _ (literal_of_mem_candidates ha), a.literal.key_inst θ⟩

/-- The instance may be taken under a substitution. -/
theorem Subsumes.exists_subst {c d : Clause} (h : c.Subsumes d) :
    ∃ σ : Substitution, ∀ l ∈ c.subst σ, l ∈ d := by
  obtain ⟨θ, hθ⟩ := h.instance_mem
  obtain ⟨σ, hσ⟩ := c.exists_subst_eq_inst θ
  refine ⟨σ, fun m hm => ?_⟩
  obtain ⟨l, hl, rfl⟩ := mem_subst.mp hm
  rw [hσ l hl]
  exact hθ l hl

/-- The test for subsumption accepts a clause with no more literals of either sign and an instance in
the other, and nothing else; so it is reflexive and transitive. -/
theorem subsumes_exact :
    (∀ c d : Clause, c.subsumes d = true ↔ c.positives.length ≤ d.positives.length ∧
      c.negatives.length ≤ d.negatives.length ∧ ∃ σ : Substitution, ∀ l ∈ c.subst σ, l ∈ d) ∧
    (∀ c : Clause, c.subsumes c = true) ∧
    ∀ c d e : Clause, c.subsumes d = true → d.subsumes e = true → c.subsumes e = true := by
  refine ⟨fun c d => subsumes_iff.trans ⟨fun h => ?_, ?_⟩, fun c => subsumes_iff.mpr (.refl c),
    fun c d e hcd hde => subsumes_iff.mpr ((subsumes_iff.mp hcd).trans (subsumes_iff.mp hde))⟩
  · exact ⟨h.positives, h.negatives, h.exists_subst⟩
  · rintro ⟨hp, hn, σ, hσ⟩
    refine ⟨hp, hn, σ.image, fun l hl => ?_⟩
    rw [← Literal.subst_eq_inst]
    exact hσ _ (mem_subst.mpr ⟨l, hl, rfl⟩)

/-- A predicate named `~P` beside the negation of `P`, and a predicate named `=` beside an equation. -/
def lookAlikes (s t : Term) : Clause :=
  .ofList [.pos (.pred "~P" [s]), .neg (.pred "P" [t]), .pos (.pred "=" [s, t]), .pos (.eq s t)]

/-- Literals with the same key are not confused, and the variables of the other clause stay as they
are. -/
theorem lookAlikes_subsumes :
    (Literal.pos (.pred "~P" [.var ⟨"x"⟩])).key = (Literal.neg (.pred "P" [.var ⟨"y"⟩])).key ∧
    (lookAlikes (.var ⟨"x"⟩) (.var ⟨"y"⟩)).subsumes (lookAlikes (.var ⟨"y"⟩) (.const "A")) = true ∧
    (lookAlikes (.const "A") (.var ⟨"y"⟩)).subsumes (lookAlikes (.var ⟨"y"⟩) (.const "A")) = false := by
  refine ⟨by decide, (subsumes_exact.1 _ _).mpr ⟨by decide, by decide, ?_⟩, ?_⟩
  · exact ⟨.ofList [(⟨"x"⟩, .var ⟨"y"⟩), (⟨"y"⟩, .const "A")], by decide⟩
  · rw [Bool.eq_false_iff]
    intro h
    obtain ⟨-, -, σ, hσ⟩ := (subsumes_exact.1 _ _).mp h
    have hmem := hσ (.pos (.pred "~P" [.const "A"])) (mem_subst.mpr ⟨.pos (.pred "~P" [.const "A"]),
      by decide, rfl⟩)
    exact absurd hmem (by decide)

theorem subsumedByAny_iff {c : Clause} {ds : List Clause} :
    c.subsumedByAny ds = true ↔ ∃ d ∈ ds, d.Subsumes c := by
  simp only [subsumedByAny, List.any_eq_true, subsumes_iff]

end Clause

end Refutation
