import Refutation.Proofs.Lifting
import Refutation.Proofs.Redundancy

/-!
# What a search starts from

Before a search starts, clauses are dropped from its input: tautologies, repetitions, clauses that
others subsume. What is left stands for all of it, and it covers the factors of its instances.

* `Search.intake`, `Search.dominates_intake`: what a search takes in, whatever its input, stands for
  all of it.
* `Search.Prepared`: some clauses stand for others and cover their own factors.
* `Search.Begun`: clauses were taken in; all are live, and the active ones have still to wait.
* `Search.start_begun`: the clauses that a search starts with stand for its input.
-/

namespace Refutation

theorem mem_clausesIn {cs : List Sourced} {c : Sourced} (h : c ∈ cs) : c.clause ∈ clausesIn cs :=
  ⟨c, h, rfl⟩

theorem clausesIn_append (cs ds : List Sourced) : clausesIn (cs ++ ds) = clausesIn cs ∪ clausesIn ds := by
  ext c
  simp [clausesIn, or_and_right, exists_or]

theorem clausesIn_cons (c : Sourced) (cs : List Sourced) :
    clausesIn (c :: cs) = {c.clause} ∪ clausesIn cs := by
  ext e
  simp [clausesIn, eq_comm]

theorem clausesIn_mono {cs ds : List Sourced} (h : ∀ c ∈ cs, c ∈ ds) : clausesIn cs ⊆ clausesIn ds := by
  rintro _ ⟨c, hc, rfl⟩
  exact mem_clausesIn (h c hc)

theorem Dominates.of_subsumes {cs ds : List Sourced}
    (h : ∀ c ∈ cs, ∃ d ∈ ds, d.clause.Subsumes c.clause) : Dominates (clausesIn ds) (clausesIn cs) := by
  rintro _ ⟨c, hc, rfl⟩
  obtain ⟨d, hd, hdc⟩ := h c hc
  exact .inr ⟨d.clause, mem_clausesIn hd, hdc⟩

theorem Dominates.mono_left {L M N : Set Clause} (h : Dominates N M) (hs : N ⊆ L) : Dominates L M :=
  (Dominates.of_subset hs).trans h

theorem Dominates.union {L M N : Set Clause} (h : Dominates N M) (h' : Dominates N L) :
    Dominates N (M ∪ L) := fun c hc => hc.elim (h c) (h' c)

theorem Dominates.append {input input' : Set Clause} {cs ds : List Sourced}
    (h : Dominates (clausesIn cs) input) (h' : Dominates (clausesIn ds) input') :
    Dominates (clausesIn (cs ++ ds)) (input ∪ input') := by
  rw [clausesIn_append]
  exact (h.mono_left Set.subset_union_left).union (h'.mono_left Set.subset_union_right)

namespace Search

/-! ## Intake -/

theorem exists_mem_distinct {cs : List Sourced} {c : Sourced} (h : c ∈ cs) :
    ∃ d ∈ distinct cs, d.clause.Subsumes c.clause := by
  obtain ⟨d, hd, rfl | hs⟩ := exists_mem_eraseDupsBy (r := fun c d => c.clause.same d.clause) h
  · exact ⟨c, hd, .refl _⟩
  · exact ⟨d, hd, Clause.subsumes_of_same (Clause.same_symm hs)⟩

/-- Preparation drops tautologies only. -/
theorem dominates_prepare (u : Unifier) (cs : List Sourced) (d : Derivation) :
    Dominates (clausesIn (prepare u cs d).1) (clausesIn cs) := by
  induction cs generalizing d with
  | nil => exact nofun
  | cons c cs ih =>
    unfold prepare
    rw [clausesIn_cons]
    split
    · rename_i ht
      refine .union ?_ (ih d)
      rintro _ rfl
      exact .inl ht
    · refine .append ?_ (ih _)
      rintro _ rfl
      exact .inr ⟨c.clause, mem_clausesIn List.mem_cons_self, .refl _⟩

theorem mem_withReflexivity (config : Config) (background support : List Sourced) (d : Derivation)
    {c : Sourced} (h : c ∈ background) : c ∈ (withReflexivity config background support d).1 := by
  unfold withReflexivity
  simp only
  split
  · exact List.mem_append_left _ h
  · exact h

/-- The clauses that a search takes in: the background and then the support. -/
def intake (config : Config) (background support : List Sourced) (d : Derivation) : List Sourced :=
  let (background, d) := prepare config.unifier background d
  let (support, d) := prepare config.unifier support d
  let background := (withReflexivity config (distinct background) (distinct support) d).1
  (reduce background).1 ++ (reduce (distinct support)).1

/-- What a search takes in stands for its input. -/
theorem dominates_intake (config : Config) (background support : List Sourced) (d : Derivation) :
    Dominates (clausesIn (intake config background support d)) (clausesIn (background ++ support)) := by
  have hdistinct : ∀ cs, Dominates (clausesIn (distinct cs)) (clausesIn cs) := fun cs =>
    .of_subsumes fun _ hc => exists_mem_distinct hc
  have hreduce : ∀ cs, Dominates (clausesIn (reduce cs).1) (clausesIn cs) := fun cs =>
    .of_subsumes fun _ hc => exists_mem_reduce hc
  have hreflexivity : ∀ bs ss d, Dominates (clausesIn (withReflexivity config bs ss d).1) (clausesIn bs) :=
    fun bs ss d => .of_subset (clausesIn_mono fun _ hc => mem_withReflexivity config bs ss d hc)
  rw [clausesIn_append]
  exact .append
    ((hreduce _).trans ((hreflexivity _ _ _).trans ((hdistinct _).trans (dominates_prepare _ _ _))))
    ((hreduce _).trans ((hdistinct _).trans (dominates_prepare _ _ _)))

/-! ## Preparation -/

/-- The clauses are fit, stand for the input and cover their own factors. -/
structure Prepared (input : Set Clause) (cs : List Sourced) : Prop where
  fit : ∀ c ∈ cs, c.clause.Fit
  dominates : Dominates (clausesIn cs) input
  factors : ∀ c ∈ cs, FactorsCovered (clausesIn cs) c.clause

/-- Part of the clauses is prepared if it stands for all of them. -/
theorem Prepared.part {input : Set Clause} {cs ds : List Sourced} (h : Prepared input cs)
    (hsub : ∀ d ∈ ds, d ∈ cs) (hdom : ∀ c ∈ cs, ∃ d ∈ ds, d.clause.Subsumes c.clause) :
    Prepared input ds := by
  have hds : Dominates (clausesIn ds) (clausesIn cs) := .of_subsumes hdom
  exact ⟨fun d hd => h.fit d (hsub d hd), hds.trans h.dominates,
    fun d hd => (h.factors d (hsub d hd)).mono hds⟩

theorem Prepared.distinct {input : Set Clause} {cs : List Sourced} (h : Prepared input cs) :
    Prepared input (distinct cs) :=
  h.part (fun _ hd => distinct_sub hd) fun _ hc => exists_mem_distinct hc

theorem Prepared.reduce {input : Set Clause} {cs : List Sourced} (h : Prepared input cs) :
    Prepared input (reduce cs).1 :=
  h.part (fun _ hd => reduce_sub hd) fun _ hc => exists_mem_reduce hc

theorem Prepared.append {input input' : Set Clause} {cs ds : List Sourced} (h : Prepared input cs)
    (h' : Prepared input' ds) : Prepared (input ∪ input') (cs ++ ds) := by
  have hcs : Dominates (clausesIn (cs ++ ds)) (clausesIn cs) := by
    rw [clausesIn_append]
    exact .of_subset Set.subset_union_left
  have hds : Dominates (clausesIn (cs ++ ds)) (clausesIn ds) := by
    rw [clausesIn_append]
    exact .of_subset Set.subset_union_right
  refine ⟨fun c hc => ?_, h.dominates.append h'.dominates, fun c hc => ?_⟩
  · exact (List.mem_append.mp hc).elim (h.fit c) (h'.fit c)
  · rcases List.mem_append.mp hc with hc | hc
    · exact (h.factors c hc).mono hcs
    · exact (h'.factors c hc).mono hds

/-- A clause is prepared by its factors, of which tautologies may be dropped. -/
theorem factors_prepared {u : Unifier} (hu : u.occursCheck = true) {c : Sourced} (hc : c.clause.Fit)
    (d : Derivation) (hd : ∀ p ∈ factorProblems u c d, u.withinDepth p = true) :
    Prepared {c.clause} (c :: (factors u c d).1.filter (!·.clause.isTautology)) := by
  have hfit := factors_fit hu hc d
  have hcover := factors_cover hu hc d hd
  generalize (factors u c d).1 = fs at hfit hcover
  have hsub : ∀ x ∈ c :: fs.filter (!·.clause.isTautology), x ∈ c :: fs :=
    List.cons_subset_cons c (List.filter_subset_self fs)
  have hdom : Dominates (clausesIn (c :: fs.filter (!·.clause.isTautology))) (clausesIn (c :: fs)) := by
    rintro _ ⟨x, hx, rfl⟩
    by_cases hxt : x.clause.isTautology = true
    · exact .inl hxt
    · refine .inr ⟨x.clause, mem_clausesIn ?_, .refl _⟩
      rcases List.mem_cons.mp hx with rfl | hx
      · exact List.mem_cons_self
      · exact List.mem_cons_of_mem _ (List.mem_filter.mpr ⟨hx, by simpa using hxt⟩)
  refine ⟨fun x hx => hfit x (hsub x hx), ?_, fun x hx => (hcover x (hsub x hx)).mono hdom⟩
  rintro _ rfl
  exact hdom _ (mem_clausesIn List.mem_cons_self)

theorem prepare_prepared {u : Unifier} (hu : u.occursCheck = true) {cs : List Sourced}
    (hcs : ∀ c ∈ cs, c.clause.Fit) (d : Derivation)
    (hd : ∀ p ∈ prepareProblems u cs d, u.withinDepth p = true) :
    Prepared (clausesIn cs) (prepare u cs d).1 := by
  induction cs generalizing d with
  | nil => exact ⟨nofun, nofun, nofun⟩
  | cons c cs ih =>
    rw [List.forall_mem_cons] at hcs
    unfold prepare
    unfold prepareProblems at hd
    rw [clausesIn_cons]
    split
    · rename_i ht
      rw [if_pos ht] at hd
      have h := ih hcs.2 d hd
      refine ⟨h.fit, ?_, h.factors⟩
      rintro e (rfl | he)
      · exact .inl ht
      · exact h.dominates e he
    · rename_i ht
      rw [if_neg ht, List.forall_mem_append] at hd
      exact (factors_prepared hu hcs.1 d hd.1).append (ih hcs.2 (factors u c d).2 hd.2)

theorem withReflexivity_eq {bs ss : List Sourced} (hbs : ∀ c ∈ bs, c.clause.Fit)
    (hss : ∀ c ∈ ss, c.clause.Fit) (config : Config) (d : Derivation) :
    withReflexivity config bs ss d = (bs, d) := by
  have hno : ∀ {cs : List Sourced}, (∀ c ∈ cs, c.clause.Fit) → cs.any (·.clause.hasEq) = false := by
    intro cs hcs
    simpa using fun c hc => (hcs c hc).noEq
  simp [withReflexivity, hno hbs, hno hss]

/-! ## Taking in clauses -/

/-- After clauses were taken in: those kept stand for them, all are live, and the active ones have
still to wait. -/
structure Begun (config : Config) (vars : List Var) (given : List Sourced) (s : Search) : Prop where
  config_eq : s.config = config
  vars_eq : s.answerVars = vars
  mem_given : ∀ c ∈ s.clauses, c ∈ given
  kept : ∀ c ∈ given, ∃ x ∈ s.clauses, x.clause.same c.clause = true
  live : ∀ i, i ∈ s.active ∨ i ∈ s.passive ↔ i < s.clauses.size
  waits : ∀ i ∈ s.active, i ∈ s.background

variable {config : Config} {vars : List Var} {given : List Sourced} {s : Search}

theorem isKept_iff {c : Clause} : s.isKept c = true ↔ ∃ x ∈ s.clauses, x.clause.same c = true := by
  rw [isKept, Array.any_eq_true']

/-- A clause that is kept already changes nothing. -/
theorem Begun.skip (h : Begun config vars given s) {c : Sourced} (hc : s.isKept c.clause = true) :
    Begun config vars (given ++ [c]) s where
  config_eq := h.config_eq
  vars_eq := h.vars_eq
  mem_given x hx := List.mem_append_left _ (h.mem_given x hx)
  kept x hx := by
    rcases List.mem_append.mp hx with hx | hx
    · exact h.kept x hx
    · cases List.mem_singleton.mp hx
      exact isKept_iff.mp hc
  live := h.live
  waits := h.waits

theorem Begun.keep (h : Begun config vars given s) (c : Sourced) {s' : Search}
    (hconfig : s'.config = s.config) (hvars : s'.answerVars = s.answerVars)
    (hclauses : s'.clauses = s.clauses.push c)
    (hlive : ∀ i, i ∈ s'.active ∨ i ∈ s'.passive ↔ (i ∈ s.active ∨ i ∈ s.passive) ∨ i = s.clauses.size)
    (hwaits : ∀ i ∈ s'.active, i ∈ s'.background) : Begun config vars (given ++ [c]) s' where
  config_eq := hconfig.trans h.config_eq
  vars_eq := hvars.trans h.vars_eq
  mem_given x hx := by
    rw [hclauses] at hx
    rcases Array.mem_push.mp hx with hx | rfl
    · exact List.mem_append_left _ (h.mem_given x hx)
    · exact List.mem_append_right _ List.mem_cons_self
  kept x hx := by
    rw [hclauses]
    rcases List.mem_append.mp hx with hx | hx
    · obtain ⟨y, hy, hs⟩ := h.kept x hx
      exact ⟨y, Array.mem_push_of_mem _ hy, hs⟩
    · cases List.mem_singleton.mp hx
      exact ⟨c, Array.mem_push_self, Clause.same_refl _⟩
  live i := by
    rw [hlive, h.live, hclauses, Array.size_push]
    omega
  waits := hwaits

theorem Begun.addBackground (h : Begun config vars given s) (c : Sourced) :
    Begun config vars (given ++ [c]) (s.addBackground c) := by
  unfold Search.addBackground
  split
  · rename_i hc
    exact h.skip hc
  · refine h.keep c rfl rfl rfl (fun i => ?_) fun i hi => ?_
    · simp only [List.mem_append, List.mem_singleton, Search.keep]
      tauto
    · rcases List.mem_append.mp hi with hi | hi
      · exact List.mem_append_left _ (h.waits i hi)
      · exact List.mem_append_right _ hi

theorem Begun.addSupport (h : Begun config vars given s) (c : Sourced) :
    Begun config vars (given ++ [c]) (s.addSupport c) := by
  unfold Search.addSupport
  split
  · rename_i hc
    exact h.skip hc
  · refine h.keep c rfl rfl rfl (fun i => ?_) h.waits
    simp only [List.mem_append, List.mem_singleton, Search.keep]
    tauto

theorem Begun.foldl (given : List Sourced) {add : Search → Sourced → Search}
    (hadd : ∀ given s c, Begun config vars given s → Begun config vars (given ++ [c]) (add s c))
    (h : Begun config vars given s) (cs : List Sourced) : Begun config vars (given ++ cs) (cs.foldl add s) := by
  induction cs generalizing given s with
  | nil => simpa using h
  | cons c cs ih => simpa using ih _ (hadd given s c h)

/-- A search starts with what it takes in. -/
theorem start_intake (config : Config) (vars : List Var) (background support : List Sourced)
    (d : Derivation) :
    Begun config vars (intake config background support d) (start config background support vars d) := by
  refine Begun.foldl _ (fun _ _ c h => h.addSupport c) ?_ _
  refine Begun.foldl [] (fun _ _ c h => h.addBackground c) ?_ _
  exact ⟨rfl, rfl, by simp, nofun, by simp, nofun⟩

/-- A search starts with clauses that stand for its input. -/
theorem start_begun (vars : List Var) {background support : List Sourced}
    (hu : config.occursCheck = true) (hb : ∀ c ∈ background, c.clause.Fit)
    (hs : ∀ c ∈ support, c.clause.Fit) (d : Derivation)
    (hd : ∀ p ∈ startProblems config background support d, config.unifier.withinDepth p = true) :
    ∃ given, Prepared (clausesIn (background ++ support)) given ∧
      Begun config vars given (start config background support vars d) := by
  rw [startProblems, List.forall_mem_append] at hd
  have h₁ := (prepare_prepared hu hb d hd.1).distinct
  have h₂ := (prepare_prepared hu hs _ hd.2).distinct
  refine ⟨_, ?_, start_intake config vars background support d⟩
  unfold intake
  simp only [withReflexivity_eq h₁.fit h₂.fit]
  exact clausesIn_append background support ▸ h₁.reduce.append h₂.reduce

end Search

end Refutation
