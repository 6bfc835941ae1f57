import Refutation.Proofs.Live

/-!
# The course of a search

A search may be run again and again, and a run may stop at any bound, in the middle of a round as
well. Here is all that can happen to a search, from its start over any number of runs, with a log of
what has happened. Whatever it was, nothing is lost: live clauses stand for the input, for all that
was ever kept and for all that was ever absorbed.

* `Log`: the states so far, the clauses selected and the clauses to be absorbed.
* `Course`: a search, its place in the loop and its log. `Course.of_run`: runs keep to it.
* `Search.Orderly`, `Search.absorb_state`: what is kept, and what absorbing a clause does to a state.
* `Course.Upheld`: the invariant. A move or the end of a run absorbs a clause, or is quiet.
* `Course.nothing_lost`: what holds at every point of a course.
* `Course.contradiction_stands`: once the empty clause is kept, every run proves.
  `Course.contradiction_dropped`: where it is derived it is not kept, and the next run may disprove.
-/

namespace Refutation

open Relation (ReflTransGen)

/-! ## Logs and courses -/

/-- What has happened to a search. -/
structure Log where
  /-- The states it was in, the present one last. -/
  states : List Search
  /-- The numbers of the clauses that were given, in order. -/
  selected : List Nat := []
  /-- The clauses that were to be absorbed, each with the state it came to. -/
  offered : List (Search × Sourced) := []

/-- The clause that is to be absorbed next. -/
def Stage.offer? : Stage → Option Sourced
  | .absorb _ _ (c :: _) _ => some c
  | _ => none

/-- The clause that is given where the round begins. -/
def Stage.given? : Stage → Option Stage → Option Nat
  | .select, some (.pair given _) => some given
  | _, _ => none

/-- A run ends where a clause that is to be absorbed decides it, or else with the state that it has, but
for the answers. -/
theorem Finish.state {clock : Clock} {p : Point} {s : Search} {o : Outcome}
    (hf : Finish clock p (s, some o)) :
    (p.stage.offer? = none ∧ ∃ as, s = { p.search.polled with answers := as }) ∨
      ∃ c, p.stage.offer? = some c ∧ p.search.counted.absorb c = (s, some o) := by
  generalize hr : (s, some o) = r at hf
  cases hf with
  | limit | exhausted | pairLimit =>
    unfold Search.finish at hr
    split at hr <;> cases hr <;> exact .inl ⟨rfl, _, rfl⟩
  | decided ha =>
    cases hr
    exact .inr ⟨_, rfl, ha⟩

namespace Log

/-- The log with one state more. -/
def reach (log : Log) (s : Search) : Log := { log with states := log.states ++ [s] }

/-- The log after the search has left a place in the loop: what was to be absorbed there, and what is
given at the next place. -/
def leave (log : Log) (s : Search) (stage : Stage) (next : Option Stage) : Log :=
  { log with
    selected := log.selected ++ (stage.given? next).toList
    offered := log.offered ++ (stage.offer?.map (s, ·)).toList }

/-- The one log goes on with the other. -/
structure Extends (log log' : Log) : Prop where
  states : log.states <+: log'.states
  selected : log.selected <+: log'.selected
  offered : log.offered <+: log'.offered

theorem Extends.refl (log : Log) : log.Extends log := ⟨List.prefix_rfl, List.prefix_rfl, List.prefix_rfl⟩

theorem Extends.trans {log log' log'' : Log} (h : log.Extends log') (h' : log'.Extends log'') :
    log.Extends log'' :=
  ⟨h.states.trans h'.states, h.selected.trans h'.selected, h.offered.trans h'.offered⟩

theorem extends_reach (log : Log) (s : Search) : log.Extends (log.reach s) :=
  ⟨List.prefix_append .., List.prefix_rfl, List.prefix_rfl⟩

theorem extends_leave (log : Log) (s : Search) (stage : Stage) (next : Option Stage) :
    log.Extends (log.leave s stage next) :=
  ⟨List.prefix_rfl, List.prefix_append .., List.prefix_append ..⟩

end Log

/-- All that can happen to a search that starts with a configuration and clauses. Between runs it has
no place in the loop. A run that finds the empty clause is over at once; any other goes by moves until
it finishes, and the clock may say anything. -/
inductive Course (config : Config) (background support : List Sourced) :
    Search → Option Stage → Log → Prop
  /-- The search is set up. -/
  | start (vars : List Var) (d : Derivation) :
      Course config background support (.start config background support vars d) none
        { states := [.start config background support vars d] }
  /-- Between runs other variables may be asked for. -/
  | answering {s : Search} {log : Log} (h : Course config background support s none log)
      (vars : List Var) :
      Course config background support { s with answerVars := vars } none
        (log.reach { s with answerVars := vars })
  /-- A run finds the empty clause among those kept. -/
  | found {s : Search} {log : Log} (h : Course config background support s none log)
      (hempty : ∃ c ∈ s.clauses, c.clause.isEmpty = true) :
      Course config background support s.rewound none (log.reach s.rewound)
  /-- A run begins. -/
  | call {s : Search} {log : Log} (h : Course config background support s none log)
      (hempty : ∀ c ∈ s.clauses, c.clause.isEmpty = false) :
      Course config background support s.rewound (some .select) (log.reach s.rewound)
  /-- The run goes on. -/
  | move {s s' : Search} {stage stage' : Stage} {log : Log} {clock : Clock}
      (h : Course config background support s (some stage) log)
      (hm : Move clock (fun _ => True) ⟨s, stage⟩ ⟨s', stage'⟩) :
      Course config background support s' (some stage') ((log.leave s stage (some stage')).reach s')
  /-- The run ends. -/
  | finish {s s' : Search} {stage : Stage} {log : Log} {clock : Clock} {o : Outcome}
      (h : Course config background support s (some stage) log)
      (hf : Finish clock ⟨s, stage⟩ (s', some o)) :
      Course config background support s' none ((log.leave s stage none).reach s')

namespace Course

variable {config : Config} {background support : List Sourced} {s s' : Search} {log : Log}

theorem of_moves {clock : Clock} {p q : Point} (hpq : ReflTransGen (Move clock fun _ => True) p q)
    (h : Course config background support p.search (some p.stage) log) :
    ∃ log', Course config background support q.search (some q.stage) log' ∧ log.Extends log' := by
  induction hpq with
  | refl => exact ⟨log, h, .refl log⟩
  | @tail b c _ hm ih =>
    obtain ⟨log', hb, hext⟩ := ih
    exact ⟨_, hb.move hm, hext.trans ((log'.extends_leave _ _ _).trans (Log.extends_reach _ _))⟩

/-- A run leads from one point between runs to another. -/
theorem of_run {clock : Clock} {fuel : Nat} {o : Outcome}
    (h : Course config background support s none log) (hrun : s.run clock fuel = some (o, s')) :
    ∃ log', Course config background support s' none log' ∧ log.Extends log' := by
  rcases Search.run_cases clock hrun (fun _ _ => trivial) with
    ⟨c, hc, hempty, rfl, -⟩ | ⟨hempty, q, hq, hf⟩
  · exact ⟨_, h.found ⟨c, hc, hempty⟩, log.extends_reach _⟩
  · obtain ⟨log', hlast, hext⟩ := of_moves hq (h.call hempty)
    exact ⟨_, hlast.finish hf, (log.extends_reach _).trans
      (hext.trans ((log'.extends_leave _ _ _).trans (Log.extends_reach _ _)))⟩

end Course

/-! ## What is kept -/

namespace Search

variable {s s' : Search} {c : Sourced} {input : List Sourced}

/-- Each clause has its weight, no clause is a tautology, and none is empty unless one of the input is. -/
structure Orderly (input : List Sourced) (s : Search) : Prop where
  weights_eq : s.weights = s.clauses.map fun c => c.clause.weight
  not_tautology : ∀ c ∈ s.clauses, c.clause.isTautology = false
  empty_given : ∀ c ∈ s.clauses, c.clause.isEmpty = true → ∃ x ∈ input, x.clause.isEmpty = true

theorem Orderly.keep (h : s.Orderly input) (hc : c.clause.isTautology = false)
    (hempty : c.clause.isEmpty = true → ∃ x ∈ input, x.clause.isEmpty = true) :
    (s.keep c).Orderly input where
  weights_eq := by
    simp only [Search.keep, Array.map_push, h.weights_eq]
  not_tautology x hx := by
    rcases Array.mem_push.mp hx with hx | rfl
    · exact h.not_tautology x hx
    · exact hc
  empty_given x hx := by
    rcases Array.mem_push.mp hx with hx | rfl
    · exact h.empty_given x hx
    · exact hempty

/-- Only the clauses and their weights matter. -/
theorem Orderly.of_eq (h : s.Orderly input) (hclauses : s'.clauses = s.clauses)
    (hweights : s'.weights = s.weights) : s'.Orderly input := by
  refine ⟨?_, ?_, ?_⟩ <;> rw [hclauses]
  · rw [hweights, h.weights_eq]
  · exact h.not_tautology
  · exact h.empty_given

/-- A clause that is prepared is no tautology, and it is one of the given clauses or a factor of one. -/
theorem mem_prepare {u : Unifier} {cs : List Sourced} {d : Derivation} (h : c ∈ (prepare u cs d).1) :
    c.clause.isTautology = false ∧ ∃ x ∈ cs, ∃ d', c ∈ x :: (factors u x d').1 := by
  induction cs generalizing d with
  | nil => cases h
  | cons x cs ih =>
    have hlater : ∀ d, c ∈ (prepare u cs d).1 → c.clause.isTautology = false ∧
        ∃ y ∈ x :: cs, ∃ d', c ∈ y :: (factors u y d').1 := by
      intro d h
      obtain ⟨ht, y, hy, hc⟩ := ih h
      exact ⟨ht, y, List.mem_cons_of_mem _ hy, hc⟩
    unfold prepare at h
    split at h
    · exact hlater d h
    · rename_i hx
      rcases List.mem_append.mp h with h | h
      · rcases List.mem_cons.mp h with rfl | h
        · exact ⟨Bool.eq_false_iff.mpr hx, c, List.mem_cons_self, d, List.mem_cons_self⟩
        · obtain ⟨hc, ht⟩ := List.mem_filter.mp h
          exact ⟨by simpa using ht, x, List.mem_cons_self, d, List.mem_cons_of_mem _ hc⟩
      · exact hlater _ h

/-- A search takes in no tautology, and but for reflexivity only clauses of its input and factors of
them. -/
theorem mem_intake {config : Config} {background support : List Sourced} {d : Derivation}
    (h : c ∈ intake config background support d) : c.clause.isTautology = false ∧
      (c.clause = reflexivity ∨
        ∃ x ∈ background ++ support, ∃ d', c ∈ x :: (factors config.unifier x d').1) := by
  have hprepared : ∀ {cs d}, (∀ x ∈ cs, x ∈ background ++ support) →
      c ∈ distinct (prepare config.unifier cs d).1 → c.clause.isTautology = false ∧
        (c.clause = reflexivity ∨
          ∃ x ∈ background ++ support, ∃ d', c ∈ x :: (factors config.unifier x d').1) := by
    intro cs d hcs hc
    obtain ⟨ht, x, hx, hc⟩ := mem_prepare (distinct_sub hc)
    exact ⟨ht, .inr ⟨x, hcs x hx, hc⟩⟩
  rcases List.mem_append.mp h with h | h
  · have hc := reduce_sub h
    unfold withReflexivity at hc
    simp only at hc
    split at hc
    · rcases List.mem_append.mp hc with hc | hc
      · exact hprepared (fun _ => List.mem_append_left _) hc
      · cases List.mem_singleton.mp hc
        exact ⟨rfl, .inl rfl⟩
    · exact hprepared (fun _ => List.mem_append_left _) hc
  · exact hprepared (fun _ => List.mem_append_right _) (reduce_sub h)

/-- A clause with literals has no empty factors. -/
theorem isEmpty_of_mem_factors {u : Unifier} {x : Sourced} {d : Derivation}
    (h : c ∈ x :: (factors u x d).1) (hc : c.clause.isEmpty = true) : x.clause.isEmpty = true := by
  by_contra hx
  have hall := factors_forall (Q := fun c => c.isEmpty = false) (u := u) ?_ (Bool.eq_false_iff.mpr hx) d
  · exact Bool.false_ne_true ((hall c h).symm.trans hc)
  · intro c _ i hi
    obtain ⟨l, hl, -, -, -, -, σ, -, rfl⟩ := mem_directFactors hi
    have hmem : l.subst σ ∈ c.subst σ := Clause.mem_subst.mpr ⟨l, hl, rfl⟩
    exact List.isEmpty_eq_false_iff.mpr (List.ne_nil_of_mem hmem)

theorem isEmpty_of_mem_intake {config : Config} {background support : List Sourced} {d : Derivation}
    (h : c ∈ intake config background support d) (hc : c.clause.isEmpty = true) :
    ∃ x ∈ background ++ support, x.clause.isEmpty = true := by
  rcases (mem_intake h).2 with hr | ⟨x, hx, d', hcx⟩
  · rw [hr] at hc
    cases hc
  · exact ⟨x, hx, isEmpty_of_mem_factors hcx hc⟩

/-- What holds of a search without clauses, and still holds when a clause is taken in, holds at the
start. -/
theorem start_induction {motive : Search → Prop} (config : Config) (background support : List Sourced)
    (vars : List Var) (d : Derivation)
    (hnil : ∀ session n, motive
      { config, answerVars := vars, selector := { ratio := config.ageWeightRatio }, session, subsumed := n })
    (hbackground : ∀ s, ∀ c ∈ intake config background support d, motive s → motive (s.addBackground c))
    (hsupport : ∀ s, ∀ c ∈ intake config background support d, motive s → motive (s.addSupport c)) :
    motive (start config background support vars d) := by
  refine List.foldlRecOn _ _ (List.foldlRecOn _ _ (hnil _ _) ?_) ?_
  · exact fun s hs c hc => hbackground s c (List.mem_append_left _ hc) hs
  · exact fun s hs c hc => hsupport s c (List.mem_append_right _ hc) hs

theorem start_orderly (config : Config) (background support : List Sourced) (vars : List Var)
    (d : Derivation) : (start config background support vars d).Orderly (background ++ support) := by
  have hkeep : ∀ s : Search, ∀ c ∈ intake config background support d,
      s.Orderly (background ++ support) → (s.keep c).Orderly (background ++ support) :=
    fun s c hc hs => hs.keep (mem_intake hc).1 (isEmpty_of_mem_intake hc)
  refine start_induction config background support vars d
    (fun _ _ => ⟨by simp, by simp, by simp⟩) ?_ ?_
  · intro s c hc hs
    unfold addBackground
    split
    · exact hs
    · exact (hkeep s c hc hs).of_eq rfl rfl
  · intro s c hc hs
    unfold addSupport
    split
    · exact hs
    · exact (hkeep s c hc hs).of_eq rfl rfl

/-- Nothing was absorbed and nothing answered at the start. -/
theorem start_idle (config : Config) (background support : List Sourced) (vars : List Var)
    (d : Derivation) : (start config background support vars d).inferences = 0 ∧
      (start config background support vars d).answers = [] := by
  refine start_induction (motive := fun s => s.inferences = 0 ∧ s.answers = []) config background support
    vars d (fun _ _ => ⟨rfl, rfl⟩) ?_ ?_
  · intro s c _ hs
    unfold addBackground
    split <;> exact hs
  · intro s c _ hs
    unfold addSupport
    split <;> exact hs

/-- What absorbing a clause does to the state, whether it ends the search or not: it is admitted, or at
most answers and counts change. -/
theorem absorb_state {o : Option Outcome} (h : s.absorb c = (s', o)) :
    (∃ as n, s' = { s with answers := as, subsumed := n }) ∨
      s' = s.admitted c ∧ c.clause.isTautology = false ∧ c.clause.isEmpty = false := by
  cases absorb_cases h with
  | contradiction | answered | noted | enough | dropped | subsumed => exact .inl ⟨_, _, rfl⟩
  | admitted hempty _ htaut => exact .inr ⟨rfl, htaut, hempty⟩

theorem Orderly.absorb {o : Option Outcome} (h : s.Orderly input) (ha : s.absorb c = (s', o)) :
    s'.Orderly input := by
  rcases absorb_state ha with ⟨as, n, rfl⟩ | ⟨rfl, ht, hempty⟩
  · exact h.of_eq rfl rfl
  · have hkeep := h.keep ht fun he => absurd (hempty.symm.trans he) Bool.false_ne_true
    exact hkeep.of_eq rfl rfl

/-- A clause that ends the search is empty or an answer, and only the answers change. -/
theorem absorb_decided {o : Outcome} (h : s.absorb c = (s', some o)) :
    (c.clause.isEmpty = true ∨ s.isAnswer c.clause = true) ∧ ∃ as, s' = { s with answers := as } := by
  cases absorb_cases h with
  | contradiction hempty => exact ⟨.inl hempty, s.answers, rfl⟩
  | enough _ hans => exact ⟨.inr hans, [], rfl⟩

/-- Whatever becomes of a clause, live clauses stand for those that were live, and for the clause unless
it is empty or an answer. -/
theorem Lossless.absorb_stands {o : Option Outcome} (h : s.Lossless) (ha : s.absorb c = (s', o)) :
    s'.Lossless ∧ Dominates s'.liveSet s.liveSet ∧
      (c.clause.isEmpty = false → s.isAnswer c.clause = false → Dominates s'.liveSet {c.clause}) := by
  cases o with
  | none =>
    have habs := h.absorb ha
    refine ⟨habs.lossless, habs.keeps, fun _ hans => habs.takes.resolve_left fun hyes => ?_⟩
    rw [hans] at hyes
    exact Bool.false_ne_true hyes.1
  | some o =>
    obtain ⟨hends, as, rfl⟩ := absorb_decided ha
    refine ⟨⟨h.ids, h.kept⟩, .of_subset subset_rfl, fun hempty hans => ?_⟩
    simp [hempty, hans] at hends

/-- Absorbing a clause does not count. -/
theorem absorb_inferences {o : Option Outcome} (h : s.absorb c = (s', o)) :
    s'.inferences = s.inferences := by
  rcases absorb_state h with ⟨as, n, rfl⟩ | ⟨rfl, -⟩ <;> rfl

end Search

/-! ## The invariant -/

/-- The clauses that live ones have to stand for: all that was ever kept, and all that was to be
absorbed but the empty clause and answers. -/
def Log.due (log : Log) : Set Clause :=
  {c | (∃ t ∈ log.states, ∃ x ∈ t.clauses, x.clause = c) ∨
    ∃ x ∈ log.offered, x.2.clause = c ∧ c.isEmpty = false ∧ x.1.isAnswer c = false}

namespace Course

/-- The search is in order, the log is complete, and live clauses stand for the input and for what is
due by the log. -/
structure Upheld (input : List Sourced) (s : Search) (log : Log) : Prop where
  orderly : ∀ t ∈ log.states, t.Orderly input
  lossless : s.Lossless
  last : s ∈ log.states
  counted : log.offered.length = s.inferences
  input : Dominates s.liveSet (clausesIn input)
  due : Dominates s.liveSet log.due

variable {input : List Sourced} {s s' : Search} {log log' : Log}

theorem Upheld.orderly_step (h : Upheld input s log) (hs : s'.Orderly input)
    (hstates : log'.states = log.states ++ [s']) : ∀ t ∈ log'.states, t.Orderly input := by
  rw [hstates, List.forall_mem_append, List.forall_mem_singleton]
  exact ⟨h.orderly, hs⟩

/-- What was due is dominated after a step if what was live is, and what the step brings is. -/
theorem Upheld.due_step (h : Upheld input s log) (hs : s'.Lossless)
    (hlive : Dominates s'.liveSet s.liveSet) (hstates : log'.states = log.states ++ [s'])
    {new : List (Search × Sourced)} (hoffered : log'.offered = log.offered ++ new)
    (hnew : ∀ x ∈ new, x.2.clause.isEmpty = false → x.1.isAnswer x.2.clause = false →
      Dominates s'.liveSet {x.2.clause}) : Dominates s'.liveSet log'.due := by
  have hold := hlive.trans h.due
  rintro c (⟨t, ht, x, hx, rfl⟩ | ⟨x, hx, rfl, hempty, hans⟩)
  · rw [hstates, List.mem_append, List.mem_singleton] at ht
    rcases ht with ht | rfl
    · exact hold _ (.inl ⟨t, ht, x, hx, rfl⟩)
    · exact hs.kept _ (mem_clausesIn (Array.mem_toList_iff.mpr hx))
  · rw [hoffered, List.mem_append] at hx
    rcases hx with hx | hx
    · exact hold _ (.inr ⟨x, hx, rfl, hempty, hans⟩)
    · exact hnew x hx hempty hans _ rfl

/-- A step that offers nothing and keeps the clauses and which of them are live. -/
theorem Upheld.quiet (h : Upheld input s log) (hs : s'.Lossless) (hlive : s'.liveSet = s.liveSet)
    (hclauses : s'.clauses = s.clauses) (hweights : s'.weights = s.weights)
    (hinferences : s'.inferences = s.inferences) (hstates : log'.states = log.states ++ [s'])
    (hoffered : log'.offered = log.offered) : Upheld input s' log' where
  orderly := h.orderly_step ((h.orderly s h.last).of_eq hclauses hweights) hstates
  lossless := hs
  last := by simp [hstates]
  counted := by rw [hoffered, h.counted, hinferences]
  input := hlive ▸ h.input
  due := h.due_step hs (hlive ▸ .of_subset subset_rfl) hstates
    (hoffered.trans (List.append_nil _).symm) (by simp)

/-- A step that absorbs a clause, whatever comes of it. -/
theorem Upheld.absorb (h : Upheld input s log) {c : Sourced} {o : Option Outcome}
    (ha : s.counted.absorb c = (s', o)) (hstates : log'.states = log.states ++ [s'])
    (hoffered : log'.offered = log.offered ++ [(s, c)]) : Upheld input s' log' := by
  have horderly : s.counted.Orderly input := (h.orderly s h.last).of_eq rfl rfl
  have hcounted : s'.inferences = s.inferences + 1 := Search.absorb_inferences ha
  obtain ⟨hs, hlive, htakes⟩ := (s.alike_counted.lossless h.lossless).absorb_stands ha
  refine ⟨h.orderly_step (horderly.absorb ha) hstates, hs, by simp [hstates], ?_, hlive.trans h.input, ?_⟩
  · rw [hoffered, List.length_append, h.counted, hcounted, List.length_singleton]
  · refine h.due_step hs hlive hstates hoffered fun x hx => ?_
    cases List.mem_singleton.mp hx
    exact htakes

/-- The invariant holds at the start. -/
theorem upheld_start (config : Config) (background support : List Sourced) (vars : List Var)
    (d : Derivation) : Upheld (background ++ support) (.start config background support vars d)
      { states := [.start config background support vars d] } := by
  have hbegun := Search.start_intake config vars background support d
  have hs : (Search.start config background support vars d).Lossless :=
    ⟨hbegun.lossless.ids, hbegun.lossless.kept⟩
  refine ⟨List.forall_mem_singleton.mpr (Search.start_orderly ..), hs, List.mem_singleton.mpr rfl, ?_,
    hbegun.dominates.trans (Search.dominates_intake config background support d), ?_⟩
  · exact (Search.start_idle ..).1.symm
  · rintro c (⟨t, ht, x, hx, rfl⟩ | ⟨x, hx, -⟩)
    · cases List.mem_singleton.mp ht
      exact hs.kept _ (mem_clausesIn (Array.mem_toList_iff.mpr hx))
    · cases hx

/-- Moves uphold the invariant. -/
theorem Upheld.move {clock : Clock} {P : Problem → Prop} {stage stage' : Stage}
    (h : Upheld input s log) (hm : Move clock P ⟨s, stage⟩ ⟨s', stage'⟩) :
    Upheld input s' ((log.leave s stage (some stage')).reach s') := by
  rcases hm.alike_or_absorbs with halike | ⟨_, _, c, _, _, rfl, rfl, ha⟩
  · have hs := halike.lossless h.lossless
    have hlive := halike.liveSet_eq
    cases hm with
    | absorb ha => exact h.absorb ha rfl rfl
    | queue | activate | done | retired | skip | infer | unknown | factor | settled =>
      exact h.quiet hs hlive rfl rfl rfl rfl (List.append_nil _)
  · exact h.absorb ha rfl rfl

/-- The end of a run upholds the invariant. -/
theorem Upheld.finish {clock : Clock} {stage : Stage} {o : Outcome} (h : Upheld input s log)
    (hf : Finish clock ⟨s, stage⟩ (s', some o)) :
    Upheld input s' ((log.leave s stage none).reach s') := by
  rcases hf.state with ⟨hoffer, as, rfl⟩ | ⟨c, hoffer, ha⟩
  · refine h.quiet ⟨h.lossless.ids, h.lossless.kept⟩ rfl rfl rfl rfl rfl ?_
    simp [Log.leave, Log.reach, show stage.offer? = none from hoffer]
  · refine h.absorb ha rfl ?_
    simp [Log.leave, Log.reach, show stage.offer? = some c from hoffer]

variable {config : Config} {background support : List Sourced} {stage : Option Stage}

/-- The invariant holds at every point of a course. -/
theorem upheld (h : Course config background support s stage log) :
    Upheld (background ++ support) s log := by
  induction h with
  | start vars d => exact upheld_start config background support vars d
  | answering _ _ ih | found _ _ ih | call _ _ ih =>
    exact ih.quiet ⟨ih.lossless.ids, ih.lossless.kept⟩ rfl rfl rfl rfl rfl rfl
  | move _ hm ih => exact ih.move hm
  | finish _ hf ih => exact ih.finish hf

end Course

/-! ## Nothing is lost -/

/-- The search is in order, and live clauses subsume all that they have to: the input, all that was
ever kept, and all that was ever to be absorbed. Tautologies need no clause that subsumes them, and
neither do the empty clause and answers that were to be absorbed. The log misses nothing: it has the
present state, and as many clauses to be absorbed as the search has counted. -/
structure Search.KeepsAll (input : List Sourced) (log : Log) (s : Search) : Prop where
  weights_eq : s.weights = s.clauses.map fun c => c.clause.weight
  ids : ∀ i, i ∈ s.active ∨ i ∈ s.passive → i < s.clauses.size
  not_tautology : ∀ c ∈ s.clauses, c.clause.isTautology = false
  input_subsumed : ∀ c ∈ input, c.clause.isTautology = false →
    c.clause.subsumedByAny (s.clausesOf s.live) = true
  kept_subsumed : ∀ t ∈ log.states, ∀ c ∈ t.clauses, c.clause.subsumedByAny (s.clausesOf s.live) = true
  offered_subsumed : ∀ x ∈ log.offered, x.2.clause.isEmpty = false → x.2.clause.isTautology = false →
    x.1.isAnswer x.2.clause = false → x.2.clause.subsumedByAny (s.clausesOf s.live) = true
  last : s ∈ log.states
  offered_length : log.offered.length = s.inferences

namespace Course

variable {config : Config} {background support : List Sourced} {s s' : Search} {stage : Option Stage}
  {log : Log}

/-- What live clauses stand for they subsume, unless it is a tautology. -/
theorem subsumedByAny_of_dominates {M : Set Clause} (h : Dominates s.liveSet M) {c : Clause}
    (hc : c ∈ M) (ht : c.isTautology = false) : c.subsumedByAny (s.clausesOf s.live) = true := by
  obtain ⟨E, hE, hsub⟩ := (h c hc).resolve_left (by simp [ht])
  exact Clause.subsumedByAny_iff.mpr ⟨E, Search.mem_clausesOf_live.mpr hE, hsub⟩

/-- Nothing is lost in the course of a search, whatever its clauses and its configuration are, however
often it is run, and wherever its runs stop. -/
theorem nothing_lost (h : Course config background support s stage log) :
    s.KeepsAll (background ++ support) log := by
  have hup := h.upheld
  exact {
    weights_eq := (hup.orderly s hup.last).weights_eq
    ids := hup.lossless.ids
    not_tautology := (hup.orderly s hup.last).not_tautology
    input_subsumed := fun c hc => subsumedByAny_of_dominates hup.input (mem_clausesIn hc)
    kept_subsumed := fun t ht c hc => subsumedByAny_of_dominates hup.due (.inl ⟨t, ht, c, hc, rfl⟩)
      ((hup.orderly t ht).not_tautology c hc)
    offered_subsumed := fun x hx hempty ht hans => subsumedByAny_of_dominates hup.due
      (.inr ⟨x, hx, rfl, hempty, hans⟩) ht
    last := hup.last
    offered_length := hup.counted }

/-- `P | Q`. -/
def eitherOf : Sourced := ⟨.ofList [.pos (.pred "P" []), .pos (.pred "Q" [])], none⟩

/-- `~Q`. -/
def lacksQ : Sourced := ⟨.ofList [.neg (.pred "Q" [])], none⟩

/-- The two clauses yield `P`, which retires the first of them and stands for it. -/
theorem eitherOf_nothing_lost : ∃ s log, Course {} [] [eitherOf, lacksQ] s none log ∧
    s.active = [1, 2] ∧ s.inferences = 1 ∧ s.KeepsAll [eitherOf, lacksQ] log := by
  have hrun : ((Search.start {} [] [eitherOf, lacksQ]).run (fun _ => 0) 10).any
      (fun r => r.2.active == [1, 2] && r.2.inferences == 1) = true := by cbv
  obtain ⟨⟨o, s⟩, hs, ho⟩ := (Option.any_eq_true _ _).mp hrun
  simp only [Bool.and_eq_true, beq_iff_eq] at ho
  obtain ⟨log, hcourse, -⟩ := (Course.start [] .empty).of_run hs
  exact ⟨s, log, hcourse, ho.1, ho.2, hcourse.nothing_lost⟩

/-! ## Verdicts that stand -/

theorem run_of_isEmpty (h : ∃ c ∈ s.clauses, c.clause.isEmpty = true) :
    ∃ c ∈ s.clauses, c.clause.isEmpty = true ∧ ∀ clock fuel,
      s.run clock fuel = some (.proved [.ofClause s.session.derivation c], s.rewound) := by
  obtain ⟨c, hc⟩ := Option.isSome_iff_exists.mp (Array.find?_isSome.mpr h)
  have hempty := Array.find?_some hc
  refine ⟨c, Array.mem_of_find?_eq_some hc, hempty, fun clock fuel => ?_⟩
  simp only [Search.run, hc, Search.rewound]

/-- If a clause of the input is empty, every run of the search proves, with the same clause. If none
is, the empty clause is not kept at any time, not even where a run has derived it: no run after it is
decided by it. -/
theorem contradiction_stands (h : Course config background support s none log) :
    ((∃ c ∈ background ++ support, c.clause.isEmpty = true) →
      ∃ c ∈ s.clauses, c.clause.isEmpty = true ∧ ∀ clock fuel,
        s.run clock fuel = some (.proved [.ofClause s.session.derivation c], s.rewound)) ∧
    ((∀ c ∈ background ++ support, c.clause.isEmpty = false) →
      ∀ t ∈ log.states, ∀ c ∈ t.clauses, c.clause.isEmpty = false) := by
  have hup := h.upheld
  refine ⟨fun ⟨c, hc, hempty⟩ => run_of_isEmpty ?_, fun hnone t ht c hc => ?_⟩
  · -- Only an empty clause subsumes an empty one.
    have ht : c.clause.isTautology = false := by
      simp [Clause.isTautology, Clause.positives, List.isEmpty_iff.mp hempty]
    obtain ⟨E, ⟨i, x, -, hx, rfl⟩, hsub⟩ := (hup.input _ (mem_clausesIn hc)).resolve_left (by simp [ht])
    have hsize := hsub.size_le
    rw [Clause.size, Clause.size, List.isEmpty_iff.mp hempty, List.length_nil, Nat.le_zero] at hsize
    exact ⟨x, Array.mem_of_getElem? hx, List.isEmpty_iff.mpr (List.length_eq_zero_iff.mp hsize)⟩
  · by_contra hempty
    obtain ⟨x, hx, hxe⟩ := (hup.orderly t ht).empty_given c hc (Bool.eq_true_of_not_eq_false hempty)
    exact Bool.false_ne_true ((hnone x hx).symm.trans hxe)

/-- A search that starts with the empty clause proves for the third time as for the first. -/
theorem empty_contradiction_stands : ∃ s log, Course {} [] [⟨.empty, none⟩] s none log ∧
    2 < log.states.length ∧ ∃ c ∈ s.clauses, c.clause.isEmpty = true ∧ ∀ clock fuel,
      s.run clock fuel = some (.proved [.ofClause s.session.derivation c], s.rewound) := by
  have hstart : ∃ c ∈ (Search.start {} [] [⟨.empty, none⟩]).clauses, c.clause.isEmpty = true :=
    Array.any_eq_true'.mp (by cbv)
  have hcourse : Course {} [] [⟨.empty, none⟩] _ none _ :=
    ((Course.start [] .empty).found hstart).found hstart
  exact ⟨_, _, hcourse, by decide, hcourse.contradiction_stands.1 ⟨_, List.mem_singleton.mpr rfl, rfl⟩⟩

/-- `P`. -/
def hasP : Sourced := ⟨.ofList [.pos (.pred "P" [])], none⟩

/-- `~P`. -/
def hasNotP : Sourced := ⟨.ofList [.neg (.pred "P" [])], none⟩

/-- The empty clause that is derived from two clauses is not kept. The first run ends with a proof of
it; for the next one nothing is left, and it ends as if there were none. -/
theorem contradiction_dropped : ∃ ps s s', (Search.start {} [] [hasP, hasNotP]).run (fun _ => 0) 10 =
      some (.proved ps, s) ∧ (∃ p ∈ ps, p.conclusion = .empty) ∧
    s.run (fun _ => 0) 10 = some (.disproved, s') := by
  have hrun : ((Search.start {} [] [hasP, hasNotP]).run (fun _ => 0) 10).any (fun r => r.1.isProved &&
      r.1.proofs.any (·.conclusion == .empty) &&
      (r.2.run (fun _ => 0) 10).any (·.1.isDisproved)) = true := by cbv
  obtain ⟨⟨o, s⟩, hs, ho⟩ := (Option.any_eq_true _ _).mp hrun
  simp only [Bool.and_eq_true, List.any_eq_true, beq_iff_eq] at ho
  obtain ⟨⟨hproved, hroot⟩, hagain⟩ := ho
  obtain ⟨⟨o', s'⟩, hs', ho'⟩ := (Option.any_eq_true _ _).mp hagain
  cases o with
  | proved ps =>
    cases o' with
    | disproved => exact ⟨ps, s, s', hs, hroot, hs'⟩
    | proved | unknown => cases ho'
  | disproved | unknown => cases hproved

end Course

end Refutation
