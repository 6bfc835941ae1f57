import Refutation.Proofs.Live

/-!
# What is disproved is a fixpoint

A search that ends without a contradiction has come to a fixpoint, whatever its clauses, bounds and
rules are: nothing waits, the active clauses stand for the input, and they stand for all that any two
of them yield, factors included.

* `factorClosure`: clauses and their factors. They do not depend on the steps recorded before
  (`factors_clauses`).
* `Config.yields`: what two clauses yield.
* `Point.Closing`: the invariant. What clauses yield that have met is not empty, and live clauses
  stand for it unless it is on its way.
* `Search.Fixpoint`, `Search.disproved_fixpoint`: what holds at the end.
-/

namespace Refutation

/-! ## Factors -/

namespace Factors

variable {u : Unifier} {whole : Clause} {fs fs' : Factors}

/-- The clauses found, in order. -/
def clauses (fs : Factors) : List Clause := fs.found.map Sourced.clause

theorem clauses_add (whole : Clause) (parent : Sourced) (fs : Factors) (i : Inference) :
    (add whole parent fs i).clauses =
      if i.conclusion.same whole || fs.clauses.any (·.same i.conclusion) then fs.clauses
      else fs.clauses ++ [i.conclusion] := by
  have hany : fs.clauses.any (·.same i.conclusion) = fs.found.any (·.clause.same i.conclusion) :=
    List.any_map
  rw [hany]
  unfold add
  split
  · rfl
  · rw [clauses, List.map_append]
    rfl

/-- What a parent adds depends on its clause and on the clauses found before. -/
theorem clauses_expand {parent parent' : Sourced} (hp : parent.clause = parent'.clause)
    (h : fs.clauses = fs'.clauses) :
    (expand u whole fs parent).clauses = (expand u whole fs' parent').clauses := by
  unfold expand
  rw [hp]
  generalize directFactors u parent'.clause = is
  induction is generalizing fs fs' with
  | nil => exact h
  | cons i is ih => exact ih (by rw [clauses_add, clauses_add, h])

theorem clauses_foldl_expand {level level' : List Sourced}
    (hlevel : level.map Sourced.clause = level'.map Sourced.clause) (h : fs.clauses = fs'.clauses) :
    (level.foldl (expand u whole) fs).clauses = (level'.foldl (expand u whole) fs').clauses := by
  induction level generalizing level' fs fs' with
  | nil =>
    cases List.map_eq_nil_iff.mp hlevel.symm
    exact h
  | cons p level ih =>
    obtain ⟨p', level', rfl, hp, hlevel'⟩ := List.map_eq_cons_iff.mp hlevel.symm
    rw [List.foldl_cons, List.foldl_cons]
    exact ih hlevel'.symm (clauses_expand hp.symm h)

theorem clauses_rounds {level level' : List Sourced} (n : Nat)
    (hlevel : level.map Sourced.clause = level'.map Sourced.clause) (h : fs.clauses = fs'.clauses) :
    (rounds u whole n level fs).clauses = (rounds u whole n level' fs').clauses := by
  induction n generalizing level level' fs fs' with
  | zero => exact h
  | succ n ih =>
    cases level with
    | nil =>
      cases List.map_eq_nil_iff.mp hlevel.symm
      exact h
    | cons p level =>
      obtain ⟨p', level', rfl, hp, hlevel'⟩ := List.map_eq_cons_iff.mp hlevel.symm
      have hnext : ((p :: level).foldl (expand u whole) fs).clauses =
          ((p' :: level').foldl (expand u whole) fs').clauses := clauses_foldl_expand hlevel h
      have hlength : fs.found.length = fs'.found.length := by
        simpa [clauses] using congrArg List.length h
      rw [rounds, rounds]
      · refine ih ?_ hnext
        rw [List.map_drop, List.map_drop, hlength]
        exact congrArg _ hnext
      all_goals exact List.cons_ne_nil _ _

end Factors

/-- The factors of a clause do not depend on the steps recorded before. -/
theorem factors_clauses (u : Unifier) (c : Sourced) (d d' : Derivation) :
    clausesIn (factors u c d).1 = clausesIn (factors u c d').1 := by
  have h : (factors u c d).1.map Sourced.clause = (factors u c d').1.map Sourced.clause :=
    Factors.clauses_rounds _ rfl rfl
  have hmem : ∀ cs : List Sourced, clausesIn cs = {e | e ∈ cs.map Sourced.clause} := by
    intro cs
    ext e
    simp [clausesIn]
  rw [hmem, hmem, h]

/-- The clauses and their factors. -/
def factorClosure (u : Unifier) (cs : List Sourced) : Set Clause :=
  {f | ∃ c ∈ cs, ∃ d, f ∈ clausesIn (c :: (factors u c d).1)}

theorem factorClosure_cons (u : Unifier) (c : Sourced) (cs : List Sourced) (d : Derivation) :
    factorClosure u (c :: cs) = clausesIn (c :: (factors u c d).1) ∪ factorClosure u cs := by
  ext f
  simp only [factorClosure, List.mem_cons, exists_eq_or_imp, Set.mem_union, Set.mem_ofPred_eq]
  refine or_congr_left ⟨?_, fun h => ⟨d, h⟩⟩
  rintro ⟨d', h⟩
  rw [clausesIn_cons, factors_clauses u c d' d, ← clausesIn_cons] at h
  exact h

/-! ## Inferences -/

/-- What two clauses yield when names are drawn from the session: resolvents, and paramodulants if
they are in use. -/
def Config.yields (config : Config) (session : Session) (left right : Sourced) : List Sourced :=
  let (resolvents, session) := session.resolvents config.unifier left right
  if config.paramodulation then resolvents ++ (session.paramodulants config.unifier left right).1
  else resolvents

theorem Search.infer_yields (s : Search) (left right : Sourced) :
    (s.infer left right).1 = s.config.yields s.session left right := by
  unfold infer Config.yields
  simp only
  split <;> rfl

/-! ## The invariant -/

/-- The clauses on their way, with the factors of those that are not factored yet. -/
def Stage.due (u : Unifier) : Stage → Set Clause
  | .absorb _ _ pending derived => clausesIn pending ∪ factorClosure u derived
  | _ => ∅

namespace Point

/-- The clause is not empty and live clauses stand for it, or it is on its way. -/
def Settles (u : Unifier) (p : Point) (f : Clause) : Prop :=
  f.isEmpty = false ∧ Dominates p.search.liveSet {f} ∨ f ∈ p.stage.due u

/-- For some names, all that the two clauses yield is settled, and so are the factors of it. -/
def Closes (config : Config) (p : Point) (left right : Sourced) : Prop :=
  ∃ session, ∀ f ∈ factorClosure config.unifier (config.yields session left right),
    p.Settles config.unifier f

/-- Live clauses stand for the input, and what clauses yield that have met is settled. -/
structure Closing (config : Config) (input : Set Clause) (p : Point) : Prop where
  config_eq : p.search.config = config
  lossless : p.search.Lossless
  input : Dominates p.search.liveSet input
  met : ∀ i j A B, p.Met i j → p.search.clauses[i]? = some A → p.search.clauses[j]? = some B →
    p.Closes config A B ∨ p.Closes config B A

variable {clock : Clock} {P : Problem → Prop} {config : Config} {input : Set Clause} {p q : Point}

/-- What is on its way stays so or is absorbed. Answers apart, it is settled then. -/
theorem Settles.of_due (hm : Move clock P p q) (hconfig : p.search.config = config)
    (h : p.search.Lossless) (hq : q.search.answers = []) {f : Clause}
    (hf : f ∈ p.stage.due config.unifier) : q.Settles config.unifier f := by
  cases hm with
  | queue | activate | done | retired | skip | infer | unknown => exact hf.elim
  | @factor s given partners c derived =>
    rcases hf with ⟨x, hx, -⟩ | hf
    · cases hx
    · cases hconfig
      rw [factorClosure_cons _ _ _ s.session.derivation] at hf
      exact .inr hf
  | @absorb s s' given partners c pending derived ha =>
    have habs := (s.alike_counted.lossless h).absorb ha
    rcases hf with hf | hf
    · rw [clausesIn_cons] at hf
      rcases hf with rfl | hf
      · exact .inl ⟨habs.not_empty, habs.takes.resolve_left fun hans => hans.2 hq⟩
      · exact .inr (.inl hf)
    · exact .inr (.inr hf)
  | settled =>
    rcases hf with ⟨x, hx, -⟩ | ⟨x, hx, -⟩
    · cases hx
    · cases hx

theorem Settles.step (hm : Move clock P p q) (hconfig : p.search.config = config)
    (h : p.search.Lossless) (hq : q.search.answers = []) {f : Clause}
    (hf : p.Settles config.unifier f) : q.Settles config.unifier f := by
  rcases hf with ⟨hne, hdom⟩ | hf
  · exact .inl ⟨hne, (hm.lossless h).2.2.1.trans hdom⟩
  · exact of_due hm hconfig h hq hf

/-- When two clauses meet, all that they yield is on its way. -/
theorem Closes.of_infers {A B : Sourced} (hconfig : p.search.config = config)
    (hq : p.Infers P q A B) : q.Closes config A B := by
  obtain ⟨-, given, partners, rfl⟩ := hq
  cases hconfig
  refine ⟨p.search.session, fun f hf => .inr (.inr ?_)⟩
  rw [Search.infer_yields]
  exact hf

/-- Moves without answers keep the invariant. -/
theorem Closing.step (hm : Move clock P p q) (h : p.Closing config input)
    (hq : q.search.answers = []) : q.Closing config input := by
  obtain ⟨hlossless, hconfig, hdom, -⟩ := hm.lossless h.lossless
  refine ⟨hconfig.trans h.config_eq, hlossless, hdom.trans h.input, fun i j A B hij hA hB => ?_⟩
  have hstep : ∀ {A B}, p.Closes config A B → q.Closes config A B := fun ⟨session, hs⟩ =>
    ⟨session, fun f hf => (hs f hf).step hm h.config_eq h.lossless hq⟩
  rcases hm.met h.lossless hij hA hB with ⟨hp, hA, hB⟩ | hinfers | hinfers
  · exact (h.met i j A B hp hA hB).imp hstep hstep
  · exact .inl (.of_infers h.config_eq hinfers)
  · exact .inr (.of_infers h.config_eq hinfers)

/-- No move loses an answer, so the invariant holds of all points without answers. -/
theorem Closing.step_or_answers (hm : Move clock P p q)
    (h : p.search.Lossless ∧ (p.search.answers = [] → p.Closing config input)) :
    q.search.Lossless ∧ (q.search.answers = [] → q.Closing config input) := by
  obtain ⟨hlossless, -, -, hanswers⟩ := hm.lossless h.1
  exact ⟨hlossless, fun hq => (h.2 (hanswers hq)).step hm hq⟩

end Point

/-! ## The fixpoint -/

namespace Search

variable {config : Config} {vars : List Var} {s : Search}

/-- The invariant holds at the start, where no clauses have met. -/
theorem Begun.closing {given : List Sourced} {input : Set Clause} (h : Begun config vars given s)
    (hinput : Dominates (clausesIn given) input) : Point.Closing config input ⟨s.rewound, .select⟩ where
  config_eq := h.config_eq
  lossless := h.lossless
  input := h.dominates.trans hinput
  met _ _ _ _ hij := (Point.not_met_of_begun h hij).elim

/-- The clause is a tautology or an active clause subsumes it. -/
def Redundant (s : Search) (f : Clause) : Prop :=
  f.isTautology = true ∨ f.subsumedByAny (s.clausesOf s.active) = true

/-- The search has come to a fixpoint: no bound on clauses or inferences is reached and nothing waits,
active clauses subsume the input but for tautologies, and any two active clauses, in one order and
with some names, yield only redundant clauses, which are not empty. -/
structure Fixpoint (config : Config) (input : List Sourced) (s : Search) : Prop where
  clauses_lt : 0 < config.maxClauses → s.clauses.size < config.maxClauses
  inferences_lt : 0 < config.maxInferences → s.inferences < config.maxInferences
  passive_eq : s.passive = []
  background_eq : s.background = []
  input_subsumed : ∀ c ∈ input, c.clause.isTautology = false →
    c.clause.subsumedByAny (s.clausesOf s.active) = true
  pair_redundant : ∀ i ∈ s.active, ∀ j ∈ s.active, ∃ left right,
    (s.clauses[i]? = some left ∧ s.clauses[j]? = some right ∨
      s.clauses[i]? = some right ∧ s.clauses[j]? = some left) ∧
    ∃ session, ∀ c ∈ config.yields session left right, ∀ d, ∀ f ∈ c :: (factors config.unifier c d).1,
      f.clause.isEmpty = false ∧ s.Redundant f.clause

/-- Where nothing waits, what live clauses stand for is redundant. -/
theorem redundant_of_dominates (hpassive : s.passive = []) {f : Clause} (h : Dominates s.liveSet {f}) :
    s.Redundant f := by
  refine (h f rfl).imp_right fun ⟨E, hE, hEf⟩ => Clause.subsumedByAny_iff.mpr ⟨E, ?_, hEf⟩
  have hlive : s.live = s.active := by simp [live, hpassive]
  rw [← hlive]
  exact mem_clausesOf_live.mpr hE

theorem redundant_of_closes (hpassive : s.passive = []) {left right : Sourced}
    (h : Point.Closes config ⟨s, .select⟩ left right) : ∃ session,
      ∀ c ∈ config.yields session left right, ∀ d, ∀ f ∈ c :: (factors config.unifier c d).1,
        f.clause.isEmpty = false ∧ s.Redundant f.clause := by
  obtain ⟨session, hs⟩ := h
  refine ⟨session, fun c hc d f hf => ?_⟩
  rcases hs f.clause ⟨c, hc, d, mem_clausesIn hf⟩ with ⟨hne, hdom⟩ | hdue
  · exact ⟨hne, redundant_of_dominates hpassive hdom⟩
  · cases hdue

/-- Where nothing is left, the invariant makes a fixpoint. -/
theorem fixpoint_of_closing {input : List Sourced} {elapsed : Nat}
    (h : Point.Closing config (clausesIn input) ⟨s, .select⟩) (hexceeded : s.exceeded elapsed = none)
    (hpassive : s.passive = []) (hback : s.background = []) : s.Fixpoint config input := by
  have hconfig : s.config = config := h.config_eq
  have hbounds := hconfig ▸ bounds_of_exceeded hexceeded
  refine ⟨hbounds.1, hbounds.2, hpassive, hback, fun c hc ht => ?_, fun i hi j hj => ?_⟩
  · have hdom : Dominates s.liveSet {c.clause} := by
      rintro _ rfl
      exact h.input _ (mem_clausesIn hc)
    refine (redundant_of_dominates hpassive hdom).resolve_left ?_
    simp [ht]
  · have hkept : ∀ i ∈ s.active, ∃ A, s.clauses[i]? = some A := fun i hi =>
      ⟨_, Array.getElem?_eq_getElem (h.lossless.ids i (.inl hi))⟩
    obtain ⟨A, hA⟩ := hkept i hi
    obtain ⟨B, hB⟩ := hkept j hj
    rcases h.met i j A B (Point.met_of_exhausted hpassive hback hi hj) hA hB with h | h
    · exact ⟨A, B, .inl ⟨hA, hB⟩, redundant_of_closes hpassive h⟩
    · exact ⟨B, A, .inr ⟨hA, hB⟩, redundant_of_closes hpassive h⟩

/-- What is disproved is a fixpoint, whatever the clauses and the configuration are. -/
theorem disproved_fixpoint (config : Config) (background support : List Sourced) (vars : List Var)
    (d : Derivation) (clock : Clock) (fuel : Nat) (s : Search)
    (hrun : (start config background support vars d).run clock fuel = some (.disproved, s)) :
    s.Fixpoint config (background ++ support) := by
  have hbegun := start_intake config vars background support d
  have hinput := dominates_intake config background support d
  rcases run_cases clock (P := fun _ => True) hrun (fun _ _ => trivial) with
    ⟨c, -, -, -, h⟩ | ⟨-, q, hq, hf⟩
  · cases h
  obtain ⟨hselect, hexceeded, hpassive, hback, hanswers, rfl⟩ := hf.of_disproved
  have hinv := Move.invariant (fun _ _ hm hp => Point.Closing.step_or_answers hm hp) hq
    ⟨hbegun.lossless, fun _ => hbegun.closing hinput⟩
  obtain ⟨s', stage⟩ := q
  cases hselect
  obtain ⟨h₁, h₂, h₃, h₄, h₅, h₆⟩ := fixpoint_of_closing (hinv.2 hanswers) hexceeded hpassive hback
  exact ⟨h₁, h₂, h₃, h₄, h₅, h₆⟩

/-- `A = B`. -/
def sameValue : Sourced := ⟨.ofList [.pos (.eq (.const "A") (.const "B"))], none⟩

/-- `~P(A)`. -/
def lacksP : Sourced := ⟨.ofList [.neg (.pred "P" [.const "A"])], none⟩

/-- The equation rewrites the other clause, which becomes `~P(B)`, and then nothing new comes. With
room for one clause and one inference more, the bounds are not reached. -/
theorem sameValue_fixpoint :
    ∃ s, (start { maxClauses := 5, maxInferences := 8 } [lacksP] [sameValue] [⟨"x"⟩]).run
        (fun _ => 0) 20 = some (.disproved, s) ∧
      s.active = [0, 1, 2, 3] ∧ s.inferences = 7 ∧
      s.Fixpoint { maxClauses := 5, maxInferences := 8 } ([lacksP] ++ [sameValue]) := by
  have hrun : ((start { maxClauses := 5, maxInferences := 8 } [lacksP] [sameValue] [⟨"x"⟩]).run
      (fun _ => 0) 20).any (fun r => r.1.isDisproved && r.2.active == [0, 1, 2, 3] &&
        r.2.inferences == 7) = true := by cbv
  obtain ⟨⟨o, s⟩, hs, ho⟩ := (Option.any_eq_true _ _).mp hrun
  simp only [Bool.and_eq_true, beq_iff_eq] at ho
  cases o with
  | disproved =>
    exact ⟨s, hs, ho.1.2, ho.2, disproved_fixpoint _ [lacksP] [sameValue] [⟨"x"⟩] .empty (fun _ => 0)
      20 s hs⟩
  | proved ps => cases ho.1.1
  | unknown limit => cases ho.1.1

end Search

end Refutation
