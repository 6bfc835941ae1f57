import Refutation.NormalForm.Clausal
import Refutation.Proofs.Except

/-!
# Conversion never fails

The later stages of the conversion accept some shapes of sentences only. Each stage leaves the shape
that the next one accepts, so every sentence has a clausal form, whatever its binders are.

* `Sentence.ImplicationFree`: the shape after implications are eliminated.
* `Sentence.isNNF_nnfOf`, `Sentence.isNNF_standardize`: negation stands on atoms and stays there.
* `Sentence.Universal`, `Sentence.Matrix`, `Sentence.Conjunctive`: the shapes after skolemization,
  after quantifiers are dropped, and after distribution.
* `Converter.Stages`, `Converter.stages_total`: the stages of a conversion and the shapes between
  them; every sentence goes through all of them.
* `Converter.convert_total`: every conversion succeeds.
-/

namespace Refutation

namespace Sentence

/-! ## Shapes -/

/-- Neither an implication nor a biconditional stands anywhere in the sentence. -/
inductive ImplicationFree : Sentence → Prop
  | atom (a : Atom) : ImplicationFree (.atom a)
  | not {s : Sentence} (hs : ImplicationFree s) : ImplicationFree (.not s)
  | and {l r : Sentence} (hl : ImplicationFree l) (hr : ImplicationFree r) : ImplicationFree (.and l r)
  | or {l r : Sentence} (hl : ImplicationFree l) (hr : ImplicationFree r) : ImplicationFree (.or l r)
  | quant {q : Quantifier} {vs : List Var} {s : Sentence} (hs : ImplicationFree s) :
      ImplicationFree (.quant q vs s)

/-- An atom or the negation of one. -/
inductive IsLiteral : Sentence → Prop
  | atom (a : Atom) : IsLiteral (.atom a)
  | not (a : Atom) : IsLiteral (.not (.atom a))

/-- Literals under conjunctions, disjunctions and universal quantifiers. -/
inductive Universal : Sentence → Prop
  | literal {s : Sentence} (h : s.IsLiteral) : Universal s
  | and {l r : Sentence} (hl : Universal l) (hr : Universal r) : Universal (.and l r)
  | or {l r : Sentence} (hl : Universal l) (hr : Universal r) : Universal (.or l r)
  | all {vs : List Var} {s : Sentence} (hs : Universal s) : Universal (.quant .all vs s)

/-- Literals under conjunctions and disjunctions. -/
inductive Matrix : Sentence → Prop
  | literal {s : Sentence} (h : s.IsLiteral) : Matrix s
  | and {l r : Sentence} (hl : Matrix l) (hr : Matrix r) : Matrix (.and l r)
  | or {l r : Sentence} (hl : Matrix l) (hr : Matrix r) : Matrix (.or l r)

/-- Literals under disjunctions. -/
inductive Disjunctive : Sentence → Prop
  | literal {s : Sentence} (h : s.IsLiteral) : Disjunctive s
  | or {l r : Sentence} (hl : Disjunctive l) (hr : Disjunctive r) : Disjunctive (.or l r)

/-- Disjunctions of literals under conjunctions. -/
inductive Conjunctive : Sentence → Prop
  | disjunctive {s : Sentence} (h : s.Disjunctive) : Conjunctive s
  | and {l r : Sentence} (hl : Conjunctive l) (hr : Conjunctive r) : Conjunctive (.and l r)

/-! ## Negation normal form -/

theorem implicationFree_eliminate (s : Sentence) : s.eliminate.ImplicationFree := by
  induction s with
  | atom a => exact .atom a
  | not s ih => exact .not ih
  | and l r ihl ihr => exact .and ihl ihr
  | or l r ihl ihr => exact .or ihl ihr
  | implies l r ihl ihr => exact .or (.not ihl) ihr
  | iff l r ihl ihr => exact .and (.or (.not ihl) ihr) (.or (.not ihr) ihl)
  | quant q vs s ih => exact .quant ih

theorem isNNF_nnfOf (s : Sentence) (negated : Bool) : (s.nnfOf negated).isNNF = true := by
  induction s generalizing negated with
  | atom a => cases negated <;> rfl
  | not s ih => exact ih _
  | and l r ihl ihr | or l r ihl ihr | implies l r ihl ihr | iff l r ihl ihr =>
    cases negated <;> simp [nnfOf, isNNF, ihl, ihr]
  | quant q vs s ih => exact ih negated

theorem isNNF_renameBinders {s : Sentence} (h : s.isNNF = true) (scope : Substitution)
    (b : BinderScan) : (s.renameBinders scope b).1.isNNF = true := by
  induction s generalizing scope b with
  | atom a => rfl
  | not s =>
    cases s with
    | atom a => rfl
    | _ => cases h
  | and l r ihl ihr | or l r ihl ihr =>
    rw [isNNF, Bool.and_eq_true] at h
    rw [renameBinders, isNNF, Bool.and_eq_true]
    exact ⟨ihl h.1 scope b, ihr h.2 scope _⟩
  | implies l r | iff l r => cases h
  | quant q vs s ih => exact ih h _ _

theorem isNNF_standardize {s : Sentence} (h : s.isNNF = true) : s.standardize.isNNF = true :=
  isNNF_renameBinders h _ _

theorem isNNF_subst {s : Sentence} (h : s.isNNF = true) (σ : Substitution) :
    (s.subst σ).isNNF = true := by
  induction s with
  | atom a => rfl
  | not s =>
    cases s with
    | atom a => rfl
    | _ => cases h
  | and l r ihl ihr | or l r ihl ihr =>
    rw [isNNF, Bool.and_eq_true] at h
    rw [subst, isNNF, Bool.and_eq_true]
    exact ⟨ihl h.1, ihr h.2⟩
  | implies l r | iff l r => cases h
  | quant q vs s ih =>
    rw [subst, quantify]
    split
    · exact ih h
    · exact ih h

/-! ## Skolemization -/

/-- The normal form is skolemized, and only universal quantifiers are left. -/
theorem skolemizeUnder_total {s : Sentence} (h : s.isNNF = true) (us : List Var) (k : Nat) :
    ∃ s' k', s.skolemizeUnder us k = .ok (s', k') ∧ s'.Universal := by
  -- Bindings change the sentence below a quantifier, so the induction is on its size.
  induction hn : s.size using Nat.strong_induction_on generalizing s us k with
  | _ n ih =>
    subst hn
    cases s with
    | atom a => exact ⟨_, k, by rw [skolemizeUnder], .literal (.atom a)⟩
    | not s =>
      cases s with
      | atom a => exact ⟨_, k, by rw [skolemizeUnder], .literal (.not a)⟩
      | _ => cases h
    | and l r =>
      rw [isNNF, Bool.and_eq_true] at h
      obtain ⟨l', k₁, hl, hul⟩ := ih _ (by simp only [size]; omega) h.1 us k rfl
      obtain ⟨r', k₂, hr, hur⟩ := ih _ (by simp only [size]; omega) h.2 us k₁ rfl
      refine ⟨_, k₂, ?_, .and hul hur⟩
      rw [skolemizeUnder]
      exact Except.bind_eq_ok.mpr ⟨_, hl, Except.bind_eq_ok.mpr ⟨_, hr, rfl⟩⟩
    | or l r =>
      rw [isNNF, Bool.and_eq_true] at h
      obtain ⟨l', k₁, hl, hul⟩ := ih _ (by simp only [size]; omega) h.1 us k rfl
      obtain ⟨r', k₂, hr, hur⟩ := ih _ (by simp only [size]; omega) h.2 us k₁ rfl
      refine ⟨_, k₂, ?_, .or hul hur⟩
      rw [skolemizeUnder]
      exact Except.bind_eq_ok.mpr ⟨_, hl, Except.bind_eq_ok.mpr ⟨_, hr, rfl⟩⟩
    | implies l r | iff l r => cases h
    | quant q vs s =>
      have hbody : s.isNNF = true := h
      cases q with
      | all =>
        obtain ⟨s', k', hs, hu⟩ := ih _ (by simp only [size]; omega) hbody (us ++ vs) k rfl
        refine ⟨.quant .all vs s', k', ?_, .all hu⟩
        rw [skolemizeUnder]
        exact Except.bind_eq_ok.mpr ⟨_, hs, rfl⟩
      | ex =>
        have hnnf := isNNF_subst hbody (skolemBindings us vs k)
        have hsize := size_subst_le (skolemBindings us vs k) s
        rw [skolemizeUnder]
        exact ih _ (by simp only [size]; omega) hnnf us _ rfl

/-! ## The matrix -/

theorem dropUniversals_total {s : Sentence} (h : s.Universal) :
    ∃ s', s.dropUniversals = .ok s' ∧ s'.Matrix := by
  induction h with
  | literal h => cases h <;> exact ⟨_, rfl, .literal (by constructor)⟩
  | and _ _ ihl ihr =>
    obtain ⟨l', hl, hml⟩ := ihl
    obtain ⟨r', hr, hmr⟩ := ihr
    exact ⟨_, by rw [dropUniversals, hl, hr]; rfl, .and hml hmr⟩
  | or _ _ ihl ihr =>
    obtain ⟨l', hl, hml⟩ := ihl
    obtain ⟨r', hr, hmr⟩ := ihr
    exact ⟨_, by rw [dropUniversals, hl, hr]; rfl, .or hml hmr⟩
  | all _ ih => exact ih

theorem conjunctive_orRight {l r : Sentence} (hl : l.Disjunctive) (hr : r.Conjunctive) :
    (orRight l r).Conjunctive := by
  induction hr with
  | disjunctive hr =>
    cases hr with
    | literal hr => cases hr <;> exact .disjunctive (.or hl (.literal (by constructor)))
    | or ha hb => exact .disjunctive (.or hl (.or ha hb))
  | and _ _ iha ihb => exact .and iha ihb

theorem conjunctive_orBoth {l r : Sentence} (hl : l.Conjunctive) (hr : r.Conjunctive) :
    (orBoth l r).Conjunctive := by
  induction hl with
  | disjunctive hl =>
    have hright := conjunctive_orRight hl hr
    cases hl with
    | literal hl => cases hl <;> exact hright
    | or => exact hright
  | and _ _ iha ihb => exact .and iha ihb

theorem distribute_total {s : Sentence} (h : s.Matrix) :
    ∃ s', s.distribute = .ok s' ∧ s'.Conjunctive := by
  induction h with
  | literal h => cases h <;> exact ⟨_, rfl, .disjunctive (.literal (by constructor))⟩
  | and _ _ ihl ihr =>
    obtain ⟨l', hl, hcl⟩ := ihl
    obtain ⟨r', hr, hcr⟩ := ihr
    exact ⟨_, by rw [distribute, hl, hr]; rfl, .and hcl hcr⟩
  | or _ _ ihl ihr =>
    obtain ⟨l', hl, hcl⟩ := ihl
    obtain ⟨r', hr, hcr⟩ := ihr
    exact ⟨_, by rw [distribute, hl, hr]; rfl, conjunctive_orBoth hcl hcr⟩

/-! ## Clauses -/

theorem disjunctive_of_mem {s : Sentence} (h : s.Conjunctive) : ∀ c ∈ s.conjuncts, c.Disjunctive := by
  induction h with
  | disjunctive h =>
    cases h with
    | literal h => cases h <;> exact List.forall_mem_singleton.mpr (.literal (by constructor))
    | or ha hb => exact List.forall_mem_singleton.mpr (.or ha hb)
  | and _ _ ihl ihr => exact List.forall_mem_append.mpr ⟨ihl, ihr⟩

theorem disjuncts_total {s : Sentence} (h : s.Disjunctive) : ∃ ls, s.disjuncts = .ok ls := by
  induction h with
  | literal h => cases h <;> exact ⟨_, rfl⟩
  | or _ _ ihl ihr =>
    obtain ⟨ls, hl⟩ := ihl
    obtain ⟨ms, hr⟩ := ihr
    exact ⟨_, by rw [disjuncts, hl, hr]; rfl⟩

theorem extract_total {s : Sentence} (h : s.Conjunctive) : ∃ cs, s.extract = .ok cs := by
  have hall : ∀ c ∈ s.conjuncts, ∃ d, Clause.ofList <$> c.disjuncts = .ok d := by
    intro c hc
    obtain ⟨ls, hls⟩ := disjuncts_total (disjunctive_of_mem h c hc)
    exact ⟨.ofList ls, Except.map_eq_ok.mpr ⟨ls, hls, rfl⟩⟩
  obtain ⟨ds, hds⟩ := Except.mapM_total hall
  exact ⟨_, Except.bind_eq_ok.mpr ⟨ds, hds, rfl⟩⟩

end Sentence

/-! ## The whole conversion -/

namespace Converter

/-- A conversion of `s` to `cs` by way of the skolemized sentence `t`, the matrix `m` and the
conjunctive form `n`. Each stage accepts what it gets: the shape is the one it has rules for. -/
structure Stages (c c' : Converter) (s t m n : Sentence) (cs : List Clause) : Prop where
  eliminated : s.eliminate.ImplicationFree
  normal : s.eliminate.nnf.standardize.isNNF = true
  skolemized : c.skolemize s.eliminate.nnf.standardize = .ok (t, c')
  universal : t.Universal
  dropped : t.dropUniversals = .ok m
  matrix : m.Matrix
  distributed : m.distribute = .ok n
  conjunctive : n.Conjunctive
  extracted : n.extract = .ok cs

theorem Stages.convert {c c' : Converter} {s t m n : Sentence} {cs : List Clause}
    (h : Stages c c' s t m n cs) : c.convert s = .ok (cs, c') :=
  Except.bind_eq_ok.mpr ⟨(t, c'), h.skolemized, Except.bind_eq_ok.mpr ⟨m, h.dropped,
    Except.bind_eq_ok.mpr ⟨n, h.distributed, Except.bind_eq_ok.mpr ⟨cs, h.extracted, rfl⟩⟩⟩⟩

theorem stages_total (c : Converter) (s : Sentence) : ∃ c' t m n cs, Stages c c' s t m n cs := by
  have hnnf := Sentence.isNNF_standardize (Sentence.isNNF_nnfOf s.eliminate false)
  obtain ⟨t, k, hsk, hu⟩ := Sentence.skolemizeUnder_total hnnf (Sentence.free _) c.issued
  obtain ⟨m, hdrop, hm⟩ := Sentence.dropUniversals_total hu
  obtain ⟨n, hdist, hn⟩ := Sentence.distribute_total hm
  obtain ⟨cs, hext⟩ := Sentence.extract_total hn
  have hskolem : c.skolemize s.eliminate.nnf.standardize = .ok (t, ⟨k⟩) :=
    Except.bind_eq_ok.mpr ⟨_, hsk, rfl⟩
  exact ⟨⟨k⟩, t, m, n, cs, s.implicationFree_eliminate, hnnf, hskolem, hu, hdrop, hm, hdist, hn, hext⟩

/-- Every sentence is converted. -/
theorem convert_total (c : Converter) (s : Sentence) : ∃ r, c.convert s = .ok r := by
  obtain ⟨c', t, m, n, cs, h⟩ := c.stages_total s
  exact ⟨(cs, c'), h.convert⟩

end Converter

end Refutation
