import Refutation.Proofs.Live

/-!
# What is disproved can be true

A search that ends without a contradiction has lost nothing: for clauses without equations, and if
no unification ended at the depth limit, its live clauses are saturated at the end and stand for
its input. So the input has a model.

* `Point.cover`: the live clauses and those on their way.
* `Search.Tidy`: the invariant of states, for clauses without equations.
* `Point.Fair`: the invariant of points. What is at hand stands for the input, covers its own factors
  and the resolvents of clauses that have met.
* `Move.fair`: moves keep it.
* `Search.disproved_satisfiable`: what is disproved has a model.
-/

namespace Refutation

variable {u : Unifier}

/-! ## States -/

namespace Search

variable {s s' : Search} {c : Sourced}

/-- The clauses kept are fit and not empty, and the live ones stand for all of them. -/
structure Tidy (u : Unifier) (s : Search) : Prop extends Lossless s where
  unifier : s.config.unifier = u
  vars : s.answerVars = []
  fit : ∀ c ∈ s.clauses, c.clause.Fit
  not_empty : ∀ c ∈ s.clauses, c.clause.isEmpty = false

/-- Only the clauses and which of them are live matter. -/
theorem Tidy.alike (h : Tidy u s) (ha : s.Alike s') : Tidy u s' where
  toLossless := ha.lossless h.toLossless
  unifier := by rw [ha.config_eq]; exact h.unifier
  vars := ha.vars_eq.trans h.vars
  fit := by rw [ha.clauses_eq]; exact h.fit
  not_empty := by rw [ha.clauses_eq]; exact h.not_empty

theorem Tidy.absorbed (h : Tidy u s) (hc : c.clause.Fit) (ha : Absorbed s c s') : Tidy u s' where
  toLossless := ha.lossless
  unifier := by rw [ha.config_eq]; exact h.unifier
  vars := ha.vars_eq.trans h.vars
  fit x hx := (ha.mem_clauses x hx).elim (h.fit x) fun he => he ▸ hc
  not_empty x hx := (ha.mem_clauses x hx).elim (h.not_empty x) fun he => he ▸ ha.not_empty

/-- Without answer variables a clause is never an answer. -/
theorem Tidy.takes (h : Tidy u s) (ha : Absorbed s c s') : Dominates s'.liveSet {c.clause} := by
  refine ha.takes.resolve_left fun hans => ?_
  simp [isAnswer, h.vars] at hans

end Search

/-! ## Inferring -/

/-- Fit clauses yield resolvents only. -/
theorem Search.infer_eq {s : Search} {left right : Sourced} (hl : left.clause.Fit)
    (hr : right.clause.Fit) :
    (s.infer left right).1 = (s.session.resolvents s.config.unifier left right).1 := by
  unfold infer
  simp only
  split
  · simp [Session.paramodulants_eq_nil hl hr]
  · rfl

/-- What two clauses yield is fit and covers the resolvents of their instances. -/
theorem Search.Tidy.infer {s : Search} (h : s.Tidy u) (hu : u.occursCheck = true) {left right : Sourced}
    (hl : left ∈ s.clauses) (hr : right ∈ s.clauses)
    (hd : ∀ p ∈ s.inferProblems left right, u.withinDepth p = true) :
    (∀ c ∈ (s.infer left right).1, c.clause.Fit) ∧
      ResolventsCovered (clausesIn (s.infer left right).1) left.clause right.clause := by
  have hleft := h.fit left hl
  have hright := h.fit right hr
  rw [infer_eq hleft hright, h.unifier]
  exact ⟨fun c hc => Session.resolvents_fit hu hleft hright _ (mem_clausesIn hc),
    Session.resolvents_cover hu hleft hright hd⟩

/-! ## Points -/

namespace Stage

/-- The clauses on their way that were factored. -/
def pending : Stage → List Sourced
  | .absorb _ _ pending _ => pending
  | _ => []

theorem pending_sub (st : Stage) {c : Sourced} (h : c ∈ st.pending) : c ∈ st.candidates := by
  cases st with
  | select | pair => cases h
  | absorb => exact List.mem_append_left _ h

end Stage

namespace Point

/-- The live clauses and those on their way. -/
def cover (p : Point) : Set Clause := p.search.liveSet ∪ clausesIn p.stage.candidates

theorem cover_select (s : Search) : cover ⟨s, .select⟩ = s.liveSet := by
  refine Set.union_eq_left.mpr ?_
  rintro _ ⟨x, hx, -⟩
  cases hx

/-- What is at hand stands for the input, and covers its own factors and the resolvents of clauses
that have met. -/
structure Fair (u : Unifier) (input : Set Clause) (p : Point) : Prop where
  tidy : p.search.Tidy u
  candidates : ∀ c ∈ p.stage.candidates, c.clause.Fit
  input : Dominates p.cover input
  factors_covered : ∀ c ∈ p.search.liveSet ∪ clausesIn p.stage.pending, FactorsCovered p.cover c
  resolvents_covered : ∀ i j A B, p.Met i j → p.search.clauses[i]? = some A → p.search.clauses[j]? = some B →
    ResolventsCovered p.cover A.clause B.clause

variable {input : Set Clause} {p q : Point}

/-- The meeting of two clauses brings fit clauses that cover the resolvents of their instances. -/
theorem Fair.infers (hu : u.occursCheck = true) (h : p.Fair u input) {A B : Sourced}
    (hA : A ∈ p.search.clauses) (hB : B ∈ p.search.clauses)
    (hq : p.Infers (fun x => u.withinDepth x = true) q A B) :
    (∀ c ∈ q.stage.candidates, c.clause.Fit) ∧ ResolventsCovered q.cover A.clause B.clause := by
  obtain ⟨hd, given, partners, rfl⟩ := hq
  obtain ⟨hfit, hcover⟩ := (h.tidy.alike p.search.alike_polled).infer hu hA hB hd
  exact ⟨hfit, hcover.mono (.of_subset Set.subset_union_right)⟩

variable {clock : Clock}

/-- A move keeps the invariant if what is at hand afterwards stands for what was before, and covers
the factors that are new. -/
theorem Fair.step (hu : u.occursCheck = true) (hm : Move clock (fun x => u.withinDepth x = true) p q)
    (h : p.Fair u input) (htidy : q.search.Tidy u) (hway : ∀ c ∈ q.stage.candidates, c.clause.Fit)
    (hdom : Dominates q.cover p.cover)
    (hfactors : ∀ c ∈ q.search.liveSet ∪ clausesIn q.stage.pending,
      c ∈ p.search.liveSet ∪ clausesIn p.stage.pending ∨ FactorsCovered q.cover c) : q.Fair u input where
  tidy := htidy
  candidates := hway
  input := hdom.trans h.input
  factors_covered c hc := (hfactors c hc).elim (fun hc => (h.factors_covered c hc).mono hdom) id
  resolvents_covered i j A B hij hA hB := by
    rcases hm.met h.tidy.toLossless hij hA hB with ⟨hp, hA, hB⟩ | hq | hq
    · exact (h.resolvents_covered i j A B hp hA hB).mono hdom
    all_goals
      obtain ⟨-, given, partners, he⟩ := id hq
      rw [he] at hA hB
    · exact (h.infers hu (Array.mem_of_getElem? hA) (Array.mem_of_getElem? hB) hq).2
    · exact (h.infers hu (Array.mem_of_getElem? hB) (Array.mem_of_getElem? hA) hq).2.symm

/-- A move without clauses on their way keeps the invariant. -/
theorem Fair.still (hu : u.occursCheck = true) (hm : Move clock (fun x => u.withinDepth x = true) p q)
    (h : p.Fair u input) (hp : p.stage.candidates = []) (hq : q.stage.candidates = []) : q.Fair u input := by
  rcases hm.alike_or_absorbs with halike | ⟨_, _, _, _, _, hstage, -⟩
  · refine h.step hu hm (h.tidy.alike halike) (by simp [hq]) ?_ fun c hc => .inl ?_
    · rw [cover, cover, halike.liveSet_eq, hp, hq]
      exact .of_subset subset_rfl
    · rw [halike.liveSet_eq] at hc
      refine hc.imp_right fun ⟨x, hx, _⟩ => ?_
      have hx := q.stage.pending_sub hx
      rw [hq] at hx
      cases hx
  · rw [hstage] at hp
    cases hp

end Point

/-! ## Moves -/

/-- Moves within the depth limit keep the invariant. -/
theorem Move.fair {clock : Clock} {input : Set Clause} (hu : u.occursCheck = true) {p q : Point}
    (hm : Move clock (fun x => u.withinDepth x = true) p q) (h : p.Fair u input) : q.Fair u input := by
  have hstep := h.step hu hm
  have hstill := h.still hu hm
  cases hm with
  | queue | activate | done | retired | skip | unknown | settled => exact hstill rfl rfl
  | @infer s given partner partners left right _ _ _ hl hr hP =>
    have halike : s.Alike (s.polled.inferred left right) := ⟨rfl, rfl, rfl, rfl, fun _ => Iff.rfl⟩
    have hfit := (h.infers hu (Array.mem_of_getElem? hl) (Array.mem_of_getElem? hr)
      ⟨hP, given, partners, rfl⟩).1
    refine hstep (h.tidy.alike halike) hfit ?_ fun c hc => .inl hc
    exact .of_subset (Set.union_subset_union_right _ fun c hc => nomatch hc)
  | @factor s given partners c derived hP =>
    have halike : s.Alike (s.factored c) := ⟨rfl, rfl, rfl, rfl, fun _ => Iff.rfl⟩
    have hway : ∀ x ∈ c :: derived, x.clause.Fit := h.candidates
    have hc := hway c List.mem_cons_self
    rw [h.tidy.unifier] at hP hstep ⊢
    have hfit := factors_fit hu hc s.session.derivation
    have hcover := factors_cover hu hc s.session.derivation hP
    generalize (factors u c s.session.derivation).1 = fs at hfit hcover hstep
    refine hstep (h.tidy.alike halike) (fun x hx => ?_) ?_ (fun x hx => ?_)
    · rcases List.mem_append.mp hx with hx | hx
      · exact hfit x hx
      · exact hway x (List.mem_cons_of_mem _ hx)
    · refine .of_subset (Set.union_subset_union_right _ (clausesIn_mono fun x hx => ?_))
      rcases List.mem_cons.mp (show x ∈ c :: derived from hx) with rfl | hx
      · exact List.mem_append_left _ List.mem_cons_self
      · exact List.mem_append_right _ hx
    · rcases hx with hx | ⟨y, hy, rfl⟩
      · exact .inl (.inl hx)
      · refine .inr ((hcover y hy).mono (.of_subset ?_))
        rintro _ ⟨z, hz, rfl⟩
        exact .inr (mem_clausesIn (List.mem_append_left _ hz))
  | @absorb s s' given partners c pending derived ha =>
    have htidy : s.counted.Tidy u := h.tidy.alike s.alike_counted
    have habs := htidy.toLossless.absorb ha
    have hkeeps : Dominates s'.liveSet (s.liveSet ∪ {c.clause}) := habs.keeps.union (htidy.takes habs)
    have hc : c.clause.Fit := h.candidates c List.mem_cons_self
    refine hstep (htidy.absorbed hc habs) (fun x hx => h.candidates x (List.mem_cons_of_mem _ hx)) ?_
      (fun x hx => .inl ?_)
    · have hdom := hkeeps.mono_left (Set.subset_union_left (t := clausesIn (pending ++ derived)))
      rintro _ (hx | ⟨x, hx, rfl⟩)
      · exact hdom _ (.inl hx)
      · rcases List.mem_cons.mp hx with rfl | hx
        · exact hdom _ (.inr rfl)
        · exact .inr ⟨x.clause, .inr (mem_clausesIn hx), .refl _⟩
    · rcases hx with hx | ⟨y, hy, rfl⟩
      · rcases habs.live x hx with hx | rfl
        · exact .inl hx
        · exact .inr (mem_clausesIn List.mem_cons_self)
      · exact .inr (mem_clausesIn (List.mem_cons_of_mem _ hy))

/-! ## The start and the end -/

namespace Search

variable {config : Config} {s : Search} {input : Set Clause}

/-- The invariant holds at the start, where no clauses have met. -/
theorem Begun.fair {given : List Sourced} (hp : Prepared input given) (hb : Begun config [] given s)
    (hne : ∀ c ∈ s.clauses, c.clause.isEmpty = false) :
    Point.Fair config.unifier input ⟨s.rewound, .select⟩ := by
  have hkept : Prepared input s.clauses.toList := by
    refine hp.part (fun c hc => hb.mem_given c (Array.mem_toList_iff.mp hc)) fun c hc => ?_
    obtain ⟨x, hx, hs⟩ := hb.kept c hc
    exact ⟨x, Array.mem_toList_iff.mpr hx, Clause.subsumes_of_same hs⟩
  have hset : s.rewound.liveSet = clausesIn s.clauses.toList := hb.liveSet_eq
  have hcover : clausesIn s.clauses.toList ⊆ Point.cover ⟨s.rewound, .select⟩ :=
    hset ▸ Set.subset_union_left
  refine ⟨⟨hb.lossless, ?_, hb.vars_eq, ?_, hne⟩, nofun, hkept.dominates.mono_left hcover, ?_, ?_⟩
  · rw [show s.rewound.config = config from hb.config_eq]
  · exact fun c hc => hkept.fit c (Array.mem_toList_iff.mpr hc)
  · rintro c (hc | ⟨x, hx, -⟩)
    · rw [hset] at hc
      obtain ⟨x, hx, rfl⟩ := hc
      exact (hkept.factors x hx).mono (.of_subset hcover)
    · cases hx
  · exact fun i j A B hij => (Point.not_met_of_begun hb hij).elim

end Search

/-- When nothing is left the live clauses are saturated. -/
theorem Point.Fair.saturated {input : Set Clause} {s : Search} (h : Point.Fair u input ⟨s, .select⟩)
    (hpassive : s.passive = []) (hback : s.background = []) : Saturated s.liveSet := by
  have hactive : ∀ i, s.Live i → i ∈ s.active := fun i hi =>
    hi.resolve_right (by rw [hpassive]; exact List.not_mem_nil)
  refine ⟨?_, fun A hA => ?_, ?_⟩
  · rintro _ ⟨i, x, -, hx, rfl⟩ he
    have hx := h.tidy.not_empty x (Array.mem_of_getElem? hx)
    rw [he] at hx
    cases hx
  · rw [← Point.cover_select]
    exact h.factors_covered A (.inl hA)
  · rintro _ ⟨i, A, hi, hA, rfl⟩ _ ⟨j, B, hj, hB, rfl⟩
    rw [← Point.cover_select]
    exact h.resolvents_covered i j A B
      (met_of_exhausted hpassive hback (hactive i hi) (hactive j hj)) hA hB

/-! ## Models -/

theorem Clause.Subsumes.trueIn {D : Type*} {c d : Clause} (h : c.Subsumes d) {I : Interpretation D}
    (hc : c.TrueIn I) : d.TrueIn I := by
  intro v
  obtain ⟨θ, hθ⟩ := h.instance_mem
  obtain ⟨l, hl, hlv⟩ := hc fun x => (θ x).eval I v
  exact ⟨l.inst θ, hθ l hl, (l.holds_inst I v θ).mpr hlv⟩

/-- What is disproved has a model: if the clauses have well-formed terms and no equations, and no
unification ended at the depth limit, some interpretation makes all of them true. -/
theorem Search.disproved_satisfiable (config : Config) (hu : config.occursCheck = true)
    (background support : List Sourced)
    (hclauses : ∀ c ∈ background ++ support, c.clause.wellFormed = true ∧ c.clause.hasEq = false)
    (d : Derivation) (clock : Clock) (fuel : Nat) (s : Search)
    (hrun : (start config background support [] d).run clock fuel = some (.disproved, s))
    (hstart : ∀ p ∈ startProblems config background support d, config.unifier.withinDepth p = true)
    (hloop : ∀ p ∈ (start config background support [] d).runProblems clock fuel,
      config.unifier.withinDepth p = true) :
    ∃ (D : Type) (I : Interpretation D), ∀ c ∈ background ++ support, c.clause.TrueIn I := by
  have hfit : ∀ c ∈ background ++ support, c.clause.Fit := fun c hc => ⟨(hclauses c hc).1, (hclauses c hc).2⟩
  rw [List.forall_mem_append] at hfit
  obtain ⟨given, hprepared, hbegun⟩ := start_begun [] hu hfit.1 hfit.2 d hstart
  rcases run_cases clock hrun hloop with ⟨c, -, -, -, h⟩ | ⟨hne, q, hq, hf⟩
  · cases h
  have hfair := Move.invariant (fun _ _ hm hp => Move.fair hu hm hp) hq (hbegun.fair hprepared hne)
  obtain ⟨hselect, hpassive, hback⟩ := hf.exhausted_of_disproved
  obtain ⟨s', stage⟩ := q
  cases hselect
  have hnoEq : ∀ A ∈ s'.liveSet, A.hasEq = false := by
    rintro _ ⟨i, x, -, hx, rfl⟩
    exact (hfair.tidy.fit x (Array.mem_of_getElem? hx)).noEq
  obtain ⟨I, hI⟩ := (hfair.saturated hpassive hback).exists_model hnoEq
  have hinput := hfair.input
  rw [Point.cover_select] at hinput
  refine ⟨Term, I, fun c hc => ?_⟩
  rcases hinput c.clause (mem_clausesIn hc) with ht | ⟨E, hE, hEc⟩
  · exact Clause.trueIn_of_isTautology ht I
  · exact hEc.trueIn (hI E hE)

namespace Search

/-- `P(x) | Q(f(x))`. -/
def caseSplit : Sourced :=
  ⟨.ofList [.pos (.pred "P" [.var ⟨"x"⟩]), .pos (.pred "Q" [.fn "f" [.var ⟨"x"⟩]])], none⟩

/-- `~P(x) | Q(y)`. -/
def spread : Sourced :=
  ⟨.ofList [.neg (.pred "P" [.var ⟨"x"⟩]), .pos (.pred "Q" [.var ⟨"y"⟩])], none⟩

/-- The search resolves the two clauses, factors the resolvent, retires both by the factor and ends.
So the two have a model. -/
theorem caseSplit_satisfiable :
    (∃ s, (start {} [caseSplit] [spread]).run (fun _ => 0) 20 = some (.disproved, s)) ∧
    ((start {} [caseSplit] [spread]).runProblems (fun _ => 0) 20).length = 2 ∧
    ∃ (D : Type) (I : Interpretation D), ∀ c ∈ [caseSplit] ++ [spread], c.clause.TrueIn I := by
  have hrun : ((start {} [caseSplit] [spread]).run (fun _ => 0) 20).any (fun r => r.1.isDisproved) =
      true := by cbv
  have hstart : (startProblems {} [caseSplit] [spread] .empty).all
      (Config.unifier {}).withinDepth = true := by cbv
  have hloop : ((start {} [caseSplit] [spread]).runProblems (fun _ => 0) 20).all
      (Config.unifier {}).withinDepth = true := by cbv
  obtain ⟨⟨o, s⟩, hs, ho⟩ := (Option.any_eq_true _ _).mp hrun
  cases o with
  | disproved =>
    refine ⟨⟨s, hs⟩, by cbv, ?_⟩
    exact disproved_satisfiable {} rfl [caseSplit] [spread] (by decide) .empty (fun _ => 0) 20 s hs
      (List.all_eq_true.mp hstart) (List.all_eq_true.mp hloop)
  | proved ps => cases ho
  | unknown limit => cases ho

end Search

end Refutation
