import Mathlib
import Refutation.Proofs.Problems
import Refutation.Proofs.Selection

/-!
# The loop as a machine

The given-clause loop is a nest of functions: rounds, pairs, derived clauses, factors. Here it is
one machine that moves from point to point. A point is a state of the search and the place in the
loop, with the work that is left there.

* `Move`: what one move does. An invariant of the loop is proved by cases on it. Moves are told
  apart by the unification problems that they pose, since a problem may be too deep to be solved.
* `Finish`: how the search ends at a point.
* `Search.Absorbs`, `Search.absorb_cases`: what becomes of a clause that is absorbed. Proofs about a
  clause that is absorbed are by cases on it.
* `Search.run_cases`: a run that ends was over before the first round, or came by moves to a point
  at which it finished.
* `Move.invariant`: what every move keeps holds at every point of a run.
* `Finish.of_disproved`: a search is disproved when no bound is met and nothing is left.
-/

namespace Refutation

open Relation (ReflTransGen)

/-! ## Points and moves -/

/-- A place in the loop, with the work that is left there. -/
inductive Stage where
  /-- Before a round. -/
  | select
  /-- In a round: the given clause has partners left. -/
  | pair (given : Nat) (partners : List Nat)
  /-- In a pair: derived clauses are left, and first those of `pending` without their factors. -/
  | absorb (given : Nat) (partners : List Nat) (pending derived : List Sourced)

/-- The clauses on their way at a place in the loop. -/
def Stage.candidates : Stage → List Sourced
  | .absorb _ _ pending derived => pending ++ derived
  | _ => []

/-- A state of the search at a place in the loop. -/
structure Point where
  search : Search
  stage : Stage

namespace Search

/-- The state after the clock was read. -/
def polled (s : Search) : Search := { s with readings := s.readings + 1 }

/-- The state after a clause was counted. -/
def counted (s : Search) : Search := { s with inferences := s.inferences + 1 }

/-- The state with a selected clause made active. -/
def activated (s : Search) (pick : Pick) : Search :=
  { s with
    active := if pick.id ∈ s.active then s.active else s.active ++ [pick.id]
    passive := pick.queue, selector := pick.selector, rounds := s.rounds + 1 }

/-- The state after the factors of a clause were recorded. -/
def factored (s : Search) (c : Sourced) : Search :=
  { s with session := ⟨s.session.names, (factors s.config.unifier c s.session.derivation).2⟩ }

/-- The state after inferences between two clauses were recorded. -/
def inferred (s : Search) (left right : Sourced) : Search :=
  { s with session := (s.infer left right).2 }

end Search

/-- One move that poses only unification problems with the property `P`. -/
inductive Move (clock : Clock) (P : Problem → Prop) : Point → Point → Prop
  /-- Nothing waits, so the background does from now on. -/
  | queue {s : Search} (hpoll : s.exceeded (clock s.readings) = none)
      (hsel : s.selector.select s.weights s.passive = none) (hback : s.background ≠ []) :
      Move clock P ⟨s, .select⟩ ⟨s.polled.queueBackground, .select⟩
  /-- A waiting clause is selected. -/
  | activate {s : Search} {pick : Pick} (hpoll : s.exceeded (clock s.readings) = none)
      (hsel : s.selector.select s.weights s.passive = some pick) :
      Move clock P ⟨s, .select⟩
        ⟨s.polled.activated pick, .pair pick.id (s.polled.activated pick).active⟩
  /-- The given clause met all its partners. -/
  | done {s : Search} {given : Nat} : Move clock P ⟨s, .pair given []⟩ ⟨s, .select⟩
  /-- The given clause was retired. -/
  | retired {s : Search} {given : Nat} {partners : List Nat} (hg : given ∉ s.active) :
      Move clock P ⟨s, .pair given partners⟩ ⟨s, .select⟩
  /-- A partner was retired. -/
  | skip {s : Search} {given partner : Nat} {partners : List Nat} (hg : given ∈ s.active)
      (hp : partner ∉ s.active) :
      Move clock P ⟨s, .pair given (partner :: partners)⟩ ⟨s, .pair given partners⟩
  /-- The given clause meets a partner. -/
  | infer {s : Search} {given partner : Nat} {partners : List Nat} {left right : Sourced}
      (hg : given ∈ s.active) (hp : partner ∈ s.active) (hpoll : s.exceeded (clock s.readings) = none)
      (hl : s.clauses[given]? = some left) (hr : s.clauses[partner]? = some right)
      (hP : ∀ p ∈ s.polled.inferProblems left right, P p) :
      Move clock P ⟨s, .pair given (partner :: partners)⟩
        ⟨s.polled.inferred left right, .absorb given partners [] (s.polled.infer left right).1⟩
  /-- One of the two is no number of a clause. -/
  | unknown {s : Search} {given partner : Nat} {partners : List Nat} (hg : given ∈ s.active)
      (hp : partner ∈ s.active) (hpoll : s.exceeded (clock s.readings) = none)
      (hn : s.clauses[given]? = none ∨ s.clauses[partner]? = none) :
      Move clock P ⟨s, .pair given (partner :: partners)⟩ ⟨s.polled, .pair given partners⟩
  /-- A derived clause is factored. -/
  | factor {s : Search} {given : Nat} {partners : List Nat} {c : Sourced} {derived : List Sourced}
      (hP : ∀ p ∈ factorProblems s.config.unifier c s.session.derivation, P p) :
      Move clock P ⟨s, .absorb given partners [] (c :: derived)⟩
        ⟨s.factored c,
          .absorb given partners (c :: (factors s.config.unifier c s.session.derivation).1) derived⟩
  /-- A clause is absorbed. -/
  | absorb {s s' : Search} {given : Nat} {partners : List Nat} {c : Sourced}
      {pending derived : List Sourced} (h : s.counted.absorb c = (s', none)) :
      Move clock P ⟨s, .absorb given partners (c :: pending) derived⟩
        ⟨s', .absorb given partners pending derived⟩
  /-- All that the pair yields is absorbed. -/
  | settled {s : Search} {given : Nat} {partners : List Nat} :
      Move clock P ⟨s, .absorb given partners [] []⟩ ⟨s, .pair given partners⟩

/-- How a search ends. -/
inductive Finish (clock : Clock) : Point → Search × Option Outcome → Prop
  /-- A bound is met before a round. -/
  | limit {s : Search} {l : Limit} (hpoll : s.exceeded (clock s.readings) = some l) :
      Finish clock ⟨s, .select⟩ (s.polled.finish (.unknown l))
  /-- Nothing waits any more. -/
  | exhausted {s : Search} (hpoll : s.exceeded (clock s.readings) = none)
      (hsel : s.selector.select s.weights s.passive = none) (hback : s.background = []) :
      Finish clock ⟨s, .select⟩ (s.polled.finish .disproved)
  /-- A bound is met before a pair. -/
  | pairLimit {s : Search} {given partner : Nat} {partners : List Nat} {l : Limit}
      (hg : given ∈ s.active) (hp : partner ∈ s.active)
      (hpoll : s.exceeded (clock s.readings) = some l) :
      Finish clock ⟨s, .pair given (partner :: partners)⟩ (s.polled.finish (.unknown l))
  /-- A derived clause decides. -/
  | decided {s s' : Search} {given : Nat} {partners : List Nat} {c : Sourced}
      {pending derived : List Sourced} {o : Outcome} (h : s.counted.absorb c = (s', some o)) :
      Finish clock ⟨s, .absorb given partners (c :: pending) derived⟩ (s', some o)

theorem Search.finish_ne_none (s : Search) (o : Outcome) : (s.finish o).2 ≠ none := by
  unfold finish
  split <;> exact nofun

theorem Finish.ne_none {clock : Clock} {p : Point} {r : Search × Option Outcome}
    (h : Finish clock p r) : r.2 ≠ none := by
  cases h with
  | limit | exhausted | pairLimit => exact Search.finish_ne_none _ _
  | decided => exact nofun

/-! ## Absorbing -/

namespace Search

/-- The answers with the clause as one more. -/
def noting (s : Search) (c : Sourced) : List Answer := s.answers ++ [⟨c.clause, s.answerProof c⟩]

/-- The state with a clause that waits in place of those it subsumes. -/
def admitted (s : Search) (c : Sourced) : Search :=
  let s' := (s.retireSubsumedBy c.clause).keep c
  { s' with passive := s'.passive ++ [s.clauses.size] }

/-- What becomes of a clause: the state after it, and the outcome if it ends the search. -/
inductive Absorbs (s : Search) (c : Sourced) : Search → Option Outcome → Prop
  /-- The empty clause ends the search. -/
  | contradiction (hempty : c.clause.isEmpty = true) :
      Absorbs s c s (some (.proved [.ofClause s.session.derivation c]))
  /-- An earlier answer subsumes this one. -/
  | answered (hempty : c.clause.isEmpty = false) (hans : s.isAnswer c.clause = true)
      (hold : c.clause.subsumedByAny (s.answers.map Answer.clause) = true) : Absorbs s c s none
  /-- The answer is new, and more are asked for. -/
  | noted (hempty : c.clause.isEmpty = false) (hans : s.isAnswer c.clause = true)
      (hnew : c.clause.subsumedByAny (s.answers.map Answer.clause) = false)
      (hfew : 0 < s.config.maxAnswers → (s.noting c).length < s.config.maxAnswers) :
      Absorbs s c { s with answers := s.noting c } none
  /-- The answer is new, and no more are asked for. -/
  | enough (hempty : c.clause.isEmpty = false) (hans : s.isAnswer c.clause = true)
      (hnew : c.clause.subsumedByAny (s.answers.map Answer.clause) = false)
      (hpos : 0 < s.config.maxAnswers) (hlen : s.config.maxAnswers ≤ (s.noting c).length) :
      Absorbs s c { s with answers := [] } (some (.proved (reported (s.noting c))))
  /-- A tautology is dropped, and so is a clause that is kept already. -/
  | dropped (hempty : c.clause.isEmpty = false) (hans : s.isAnswer c.clause = false)
      (hdrop : c.clause.isTautology = true ∨ s.isKept c.clause = true) : Absorbs s c s none
  /-- A live clause subsumes this one. -/
  | subsumed (hempty : c.clause.isEmpty = false) (hans : s.isAnswer c.clause = false)
      (hsub : c.clause.subsumedByAny (s.clausesOf s.live) = true) :
      Absorbs s c { s with subsumed := s.subsumed + 1 } none
  /-- Any other clause waits. -/
  | admitted (hempty : c.clause.isEmpty = false) (hans : s.isAnswer c.clause = false)
      (htaut : c.clause.isTautology = false) (hkept : s.isKept c.clause = false)
      (hsub : c.clause.subsumedByAny (s.clausesOf s.live) = false) : Absorbs s c (s.admitted c) none

theorem absorb_cases {s s' : Search} {c : Sourced} {o : Option Outcome} (h : s.absorb c = (s', o)) :
    Absorbs s c s' o := by
  unfold absorb recordAnswer at h
  simp only at h
  split at h
  · rename_i hempty
    cases h
    exact .contradiction hempty
  rename_i hempty
  rw [Bool.not_eq_true] at hempty
  split at h
  · rename_i hans
    split at h
    · rename_i hold
      cases h
      exact .answered hempty hans hold
    rename_i hnew
    rw [Bool.not_eq_true] at hnew
    split at h
    · rename_i henough
      cases h
      exact .enough hempty hans hnew henough.1 henough.2
    · rename_i hfew
      cases h
      exact .noted hempty hans hnew fun hpos => Nat.lt_of_not_le fun hle => hfew ⟨hpos, hle⟩
  rename_i hans
  rw [Bool.not_eq_true] at hans
  split at h
  · rename_i hdrop
    cases h
    exact .dropped hempty hans (Bool.or_eq_true_iff.mp hdrop)
  rename_i hdrop
  simp only [Bool.or_eq_true, not_or, Bool.not_eq_true] at hdrop
  split at h
  · rename_i hsub
    cases h
    exact .subsumed hempty hans hsub
  · rename_i hsub
    cases h
    exact .admitted hempty hans hdrop.1 hdrop.2 (Bool.eq_false_iff.mpr hsub)

end Search

/-! ## The loop moves -/

/-- From `p` the machine comes to `next` with the state that a part of the loop returns, or
finishes as it says. -/
def Leads (clock : Clock) (P : Problem → Prop) (p : Point) (r : Search × Option Outcome) (next : Stage) : Prop :=
  (r.2 = none ∧ ReflTransGen (Move clock P) p ⟨r.1, next⟩) ∨
    ∃ q, ReflTransGen (Move clock P) p q ∧ Finish clock q r

namespace Leads

variable {clock : Clock} {P : Problem → Prop} {p q : Point} {r : Search × Option Outcome} {next : Stage}

theorem refl (s : Search) : Leads clock P ⟨s, next⟩ (s, none) next := .inl ⟨rfl, .refl⟩

theorem finish (h : Finish clock p r) : Leads clock P p r next := .inr ⟨p, .refl, h⟩

/-- Moves may come first. -/
theorem head (hm : ReflTransGen (Move clock P) p q) (h : Leads clock P q r next) :
    Leads clock P p r next := by
  rcases h with ⟨hr, h⟩ | ⟨q', h, hf⟩
  · exact .inl ⟨hr, hm.trans h⟩
  · exact .inr ⟨q', hm.trans h, hf⟩

/-- A part that does not finish is followed by the next. -/
theorem trans {s : Search} {mid : Stage} (h : Leads clock P p (s, none) mid)
    (h' : Leads clock P ⟨s, mid⟩ r next) : Leads clock P p r next := by
  rcases h with ⟨-, h⟩ | ⟨q, -, hf⟩
  · exact h'.head h
  · exact (hf.ne_none rfl).elim

theorem of_some {s : Search} {o : Outcome} {mid : Stage} (h : Leads clock P p (s, some o) mid) :
    Leads clock P p (s, some o) next := by
  rcases h with ⟨hr, -⟩ | h
  · cases hr
  · exact .inr h

end Leads

namespace Search

variable (clock : Clock) {P : Problem → Prop}

theorem absorbAll_leads (given : Nat) (partners : List Nat) (pending derived : List Sourced)
    (s : Search) : Leads clock P ⟨s, .absorb given partners pending derived⟩ (absorbAll pending s)
      (.absorb given partners [] derived) := by
  induction pending generalizing s with
  | nil => exact .refl s
  | cons c pending ih =>
    unfold absorbAll
    split
    · rename_i s' h
      exact (ih s').head (.single (.absorb h))
    · rename_i s' o h
      exact .finish (.decided h)

theorem absorbFactored_leads (given : Nat) (partners : List Nat) (c : Sourced) (derived : List Sourced)
    (s : Search) (hP : ∀ p ∈ factorProblems s.config.unifier c s.session.derivation, P p) :
    Leads clock P ⟨s, .absorb given partners [] (c :: derived)⟩ (s.absorbFactored c)
      (.absorb given partners [] derived) :=
  (absorbAll_leads clock given partners _ derived (s.factored c)).head (.single (.factor hP))

theorem absorbDerived_leads (given : Nat) (partners : List Nat) (derived : List Sourced)
    (s : Search) (hP : ∀ p ∈ absorbDerivedProblems derived s, P p) :
    Leads clock P ⟨s, .absorb given partners [] derived⟩ (absorbDerived derived s)
      (.absorb given partners [] []) := by
  induction derived generalizing s with
  | nil => exact .refl s
  | cons c derived ih =>
    rw [absorbDerivedProblems, List.forall_mem_append] at hP
    have h := absorbFactored_leads clock given partners c derived s hP.1
    unfold absorbDerived
    split
    · rename_i s' he
      rw [he] at h hP
      exact h.trans (ih s' hP.2)
    · rename_i s' o he
      rw [he] at h
      exact h.of_some

theorem attemptPair_eq {s : Search} {given partner : Nat} {left right : Sourced}
    (hl : s.clauses[given]? = some left) (hr : s.clauses[partner]? = some right) :
    s.attemptPair given partner = absorbDerived (s.infer left right).1 (s.inferred left right) ∧
      s.attemptPairProblems given partner = s.inferProblems left right ++
        absorbDerivedProblems (s.infer left right).1 (s.inferred left right) := by
  unfold attemptPair attemptPairProblems
  rw [hl, hr]
  exact ⟨rfl, rfl⟩

theorem attemptPair_leads {s : Search} {given partner : Nat} (partners : List Nat)
    (hg : given ∈ s.active) (hp : partner ∈ s.active) (hpoll : s.exceeded (clock s.readings) = none)
    (hP : ∀ p ∈ s.polled.attemptPairProblems given partner, P p) :
    Leads clock P ⟨s, .pair given (partner :: partners)⟩ (s.polled.attemptPair given partner)
      (.pair given partners) := by
  cases hl : s.clauses[given]? with
  | none =>
    have he : s.polled.attemptPair given partner = (s.polled, none) := by
      unfold attemptPair
      rw [show s.polled.clauses[given]? = none from hl]
    rw [he]
    exact (Leads.refl _).head (.single (.unknown hg hp hpoll (.inl hl)))
  | some left =>
    cases hr : s.clauses[partner]? with
    | none =>
      have he : s.polled.attemptPair given partner = (s.polled, none) := by
        unfold attemptPair
        rw [show s.polled.clauses[given]? = some left from hl,
          show s.polled.clauses[partner]? = none from hr]
      rw [he]
      exact (Leads.refl _).head (.single (.unknown hg hp hpoll (.inr hr)))
    | some right =>
      obtain ⟨he, hproblems⟩ := attemptPair_eq (s := s.polled) hl hr
      rw [hproblems, List.forall_mem_append] at hP
      have h := (absorbDerived_leads clock given partners (s.polled.infer left right).1
        (s.polled.inferred left right) hP.2).head (.single (.infer hg hp hpoll hl hr hP.1))
      rw [← he] at h
      generalize s.polled.attemptPair given partner = r at h
      obtain ⟨s', o⟩ := r
      cases o with
      | none => exact h.trans ((Leads.refl s').head (.single .settled))
      | some o => exact h.of_some

theorem pairWith_leads (given : Nat) (partners : List Nat) (s : Search)
    (hP : ∀ p ∈ pairWithProblems clock given partners s, P p) :
    Leads clock P ⟨s, .pair given partners⟩ (pairWith clock given partners s) .select := by
  induction partners generalizing s with
  | nil => exact (Leads.refl s).head (.single .done)
  | cons partner partners ih =>
    unfold pairWith
    unfold pairWithProblems at hP
    split
    · rename_i hg
      exact (Leads.refl s).head (.single (.retired hg))
    rename_i hg
    rw [if_neg hg] at hP
    split
    · rename_i hp
      rw [if_pos hp] at hP
      exact (ih s hP).head (.single (.skip (not_not.mp hg) hp))
    rename_i hp
    rw [if_neg hp] at hP
    split
    · rename_i l s' hpoll
      obtain ⟨hl, rfl⟩ := Prod.mk.inj hpoll
      exact .finish (.pairLimit (not_not.mp hg) (not_not.mp hp) hl)
    · rename_i s' hpoll
      rw [hpoll, List.forall_mem_append] at hP
      obtain ⟨hl, rfl⟩ := Prod.mk.inj hpoll
      have h := attemptPair_leads clock partners (not_not.mp hg) (not_not.mp hp) hl hP.1
      split
      · rename_i s' he
        rw [show s.polled.attemptPair given partner = _ from he] at h
        rw [he] at hP
        exact h.trans (ih s' hP.2)
      · rename_i s' o he
        rw [show s.polled.attemptPair given partner = _ from he] at h
        exact h.of_some

theorem step_leads (s : Search) (hP : ∀ p ∈ s.stepProblems clock, P p) :
    Leads clock P ⟨s, .select⟩ (s.step clock) .select := by
  unfold step
  unfold stepProblems at hP
  split
  · rename_i l s' hpoll
    obtain ⟨hl, rfl⟩ := Prod.mk.inj hpoll
    exact .finish (.limit hl)
  · rename_i s' hpoll
    rw [hpoll] at hP
    obtain ⟨hl, rfl⟩ := Prod.mk.inj hpoll
    split
    · rename_i pick hsel
      simp only [hsel] at hP
      exact (pairWith_leads clock _ _ _ hP).head (.single (.activate hl hsel))
    · rename_i hsel
      split
      · rename_i hb
        exact .finish (.exhausted hl hsel (List.isEmpty_iff.mp hb))
      · rename_i hb
        exact (Leads.refl _).head (.single (.queue hl hsel fun h => hb (List.isEmpty_iff.mpr h)))

theorem loop_finishes {fuel : Nat} {s s' : Search} {o : Outcome}
    (h : loop clock fuel s = some (o, s')) (hP : ∀ p ∈ loopProblems clock fuel s, P p) :
    ∃ q, ReflTransGen (Move clock P) ⟨s, .select⟩ q ∧ Finish clock q (s', some o) := by
  induction fuel generalizing s with
  | zero => cases h
  | succ fuel ih =>
    rw [loopProblems, List.forall_mem_append] at hP
    have hstep := s.step_leads clock hP.1
    unfold loop at h
    split at h
    · rename_i s₁ he
      rw [he] at hstep hP
      obtain ⟨q, hq, hf⟩ := ih h hP.2
      rcases hstep with ⟨-, hm⟩ | ⟨q', -, hf'⟩
      · exact ⟨q, hm.trans hq, hf⟩
      · exact (hf'.ne_none rfl).elim
    · rename_i s₁ o₁ he
      cases h
      rw [he] at hstep
      rcases hstep with ⟨hn, -⟩ | hfin
      · cases hn
      · exact hfin

/-- The state in which a run starts. -/
def rewound (s : Search) : Search := { s with readings := 0 }

/-- A run that ends was over before the first round, or came by moves to a point at which it
finished. -/
theorem run_cases {s s' : Search} {fuel : Nat} {o : Outcome} (h : s.run clock fuel = some (o, s'))
    (hP : ∀ p ∈ s.runProblems clock fuel, P p) :
    (∃ c ∈ s.clauses, c.clause.isEmpty = true ∧ s' = s.rewound ∧
      o = .proved [.ofClause s.session.derivation c]) ∨
    (∀ c ∈ s.clauses, c.clause.isEmpty = false) ∧
      ∃ q, ReflTransGen (Move clock P) ⟨s.rewound, .select⟩ q ∧ Finish clock q (s', some o) := by
  unfold run at h
  unfold runProblems at hP
  simp only at h hP
  split at h
  · rename_i c hc
    cases h
    have he := Array.find?_some hc
    exact .inl ⟨c, Array.mem_of_find?_eq_some hc, he, rfl, rfl⟩
  · rename_i hn
    rw [hn] at hP
    refine .inr ⟨fun c hc => ?_, loop_finishes clock h hP⟩
    simpa using Array.find?_eq_none.mp hn c hc

end Search

/-- What every move keeps holds at every point of a run. -/
theorem Move.invariant {clock : Clock} {P : Problem → Prop} {Inv : Point → Prop}
    (hstep : ∀ p q, Move clock P p q → Inv p → Inv q) {p q : Point}
    (hpq : ReflTransGen (Move clock P) p q) (hp : Inv p) : Inv q := by
  induction hpq with
  | refl => exact hp
  | tail _ hm ih => exact hstep _ _ hm ih

/-! ## Bounds and disproofs -/

namespace Search

variable {s : Search}

theorem bounds_of_exceeded {elapsed : Nat} (h : s.exceeded elapsed = none) :
    (0 < s.config.maxClauses → s.clauses.size < s.config.maxClauses) ∧
      (0 < s.config.maxInferences → s.inferences < s.config.maxInferences) := by
  unfold exceeded at h
  split at h
  · cases h
  split at h
  · cases h
  split at h
  · cases h
  · omega

/-- Absorbing a clause ends a search with proofs only. -/
theorem absorb_isProved {s' : Search} {c : Sourced} {o : Outcome} (h : s.absorb c = (s', some o)) :
    o.isProved = true := by
  cases absorb_cases h <;> rfl

theorem finish_eq_disproved {o : Outcome} (h : (s.finish o).2 = some .disproved) : o = .disproved := by
  unfold finish at h
  split at h <;> cases h
  rfl

end Search

/-- A search ends without an outcome of its own when nothing is left: no bound is met, nothing waits,
and there are no answers. -/
theorem Finish.of_disproved {clock : Clock} {p : Point} {s : Search}
    (h : Finish clock p (s, some .disproved)) :
    p.stage = .select ∧ p.search.exceeded (clock p.search.readings) = none ∧ p.search.passive = [] ∧
      p.search.background = [] ∧ p.search.answers = [] ∧ s = p.search.polled := by
  generalize hr : (s, some Outcome.disproved) = r at h
  have ho : r.2 = some .disproved := by rw [← hr]
  cases h with
  | limit => cases Search.finish_eq_disproved ho
  | @exhausted s₁ hpoll hsel hback =>
    unfold Search.finish at hr
    split at hr
    · rename_i hanswers
      cases hr
      exact ⟨rfl, hpoll, Selector.select_eq_none hsel, hback, List.isEmpty_iff.mp hanswers, rfl⟩
    · cases hr
  | pairLimit => cases Search.finish_eq_disproved ho
  | decided ha =>
    cases ho
    cases Search.absorb_isProved ha

theorem Finish.exhausted_of_disproved {clock : Clock} {p : Point} {s : Search}
    (h : Finish clock p (s, some .disproved)) :
    p.stage = .select ∧ p.search.passive = [] ∧ p.search.background = [] := by
  obtain ⟨hselect, -, hpassive, hback, -⟩ := h.of_disproved
  exact ⟨hselect, hpassive, hback⟩

end Refutation
