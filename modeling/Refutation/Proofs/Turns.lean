import Refutation.Proofs.Course
import Refutation.Proofs.Factoring

/-!
# Turns

In the course of a search each clause is given once at most: one that has had its turn does not wait
again. So there are no more rounds than clauses. Where clauses or inferences are bounded there is only
room for so many clauses, and every run ends without the clock.

* `Turns`: the clauses that had their turn and those that wait are different clauses.
* `Course.turns`: that is so at every point of a course.
* `Search.Later`: what no move takes back. `Search.step_later`: a round that does not end the run brings
  the bound nearer.
* `Search.loop_ends`, `Search.loop_mono`: rounds come to an end, and more fuel changes nothing.
* `Course.bounded_ends`: bounded searches end, and factoring in them does.
-/

namespace Refutation

open Relation (ReflTransGen)

/-- The clauses that had their turn, those that wait and the background that has still to wait are
different clauses among those kept, and the turns are the rounds. -/
structure Turns (s : Search) (selected : List Nat) : Prop where
  nodup : (selected ++ (s.passive ++ s.background)).Nodup
  ids : ∀ i ∈ selected ++ (s.passive ++ s.background), i < s.clauses.size
  rounds_eq : s.rounds = selected.length

namespace Turns

variable {s s' : Search} {selected : List Nat}

/-- Clauses may stop waiting. -/
theorem of_sublist (h : Turns s selected)
    (hsub : (s'.passive ++ s'.background).Sublist (s.passive ++ s.background))
    (hsize : s'.clauses.size = s.clauses.size) (hrounds : s'.rounds = s.rounds) : Turns s' selected where
  nodup := h.nodup.sublist (hsub.append_left selected)
  ids i hi := hsize ▸ h.ids i ((hsub.append_left selected).subset hi)
  rounds_eq := hrounds.trans h.rounds_eq

/-- A new clause may wait. -/
theorem keep (h : Turns s selected) {waiting : List Nat}
    (hsub : waiting.Sublist (s.passive ++ s.background))
    (hperm : (s'.passive ++ s'.background).Perm (s.clauses.size :: waiting))
    (hsize : s'.clauses.size = s.clauses.size + 1) (hrounds : s'.rounds = s.rounds) :
    Turns s' selected := by
  have hold : ∀ i ∈ selected ++ waiting, i < s.clauses.size := fun i hi =>
    h.ids i ((hsub.append_left selected).subset hi)
  have hall : (selected ++ (s'.passive ++ s'.background)).Perm
      (s.clauses.size :: (selected ++ waiting)) :=
    (hperm.append_left selected).trans List.perm_middle
  refine ⟨hall.nodup_iff.mpr (List.nodup_cons.mpr ⟨fun hi => ?_, ?_⟩), fun i hi => ?_,
    hrounds.trans h.rounds_eq⟩
  · exact Nat.lt_irrefl _ (hold _ hi)
  · exact h.nodup.sublist (hsub.append_left selected)
  · rw [hsize]
    rcases List.mem_cons.mp (hall.mem_iff.mp hi) with rfl | hi
    · exact Nat.lt_succ_self _
    · exact Nat.lt_succ_of_lt (hold i hi)

/-- A clause that waits may have its turn. -/
theorem activate (h : Turns s selected) {pick : Pick} (hid : pick.id ∈ s.passive)
    (hqueue : pick.queue = s.passive.erase pick.id) :
    Turns (s.activated pick) (selected ++ [pick.id]) := by
  have hperm : (selected ++ [pick.id] ++ (pick.queue ++ s.background)).Perm
      (selected ++ (s.passive ++ s.background)) := by
    rw [List.append_assoc, hqueue]
    exact ((List.perm_cons_erase hid).symm.append_right s.background).append_left selected
  refine ⟨hperm.nodup_iff.mpr h.nodup, fun i hi => h.ids i (hperm.mem_iff.mp hi), ?_⟩
  rw [List.length_append, ← h.rounds_eq]
  rfl

theorem absorb (h : Turns s selected) {c : Sourced} {o : Option Outcome}
    (ha : s.absorb c = (s', o)) : Turns s' selected := by
  rcases Search.absorb_state ha with ⟨as, n, rfl⟩ | ⟨rfl, -⟩
  · exact h.of_sublist (List.Sublist.refl _) rfl rfl
  · have hsub : ((s.retireSubsumedBy c.clause).passive ++ s.background).Sublist
        (s.passive ++ s.background) := List.filter_sublist.append_right s.background
    exact h.keep hsub ((List.perm_append_singleton _ _).append_right s.background)
      (Array.size_push ..) rfl

/-- At the start all clauses wait, or are background. -/
theorem start (config : Config) (background support : List Sourced) (vars : List Var)
    (d : Derivation) : Turns (.start config background support vars d) [] := by
  refine Search.start_induction (motive := fun s => Turns s []) config background support vars d
    (fun _ _ => ⟨List.nodup_nil, by simp, rfl⟩) ?_ ?_
  · intro s c _ h
    unfold Search.addBackground
    split
    · exact h
    · refine h.keep (List.Sublist.refl _) ?_ (Array.size_push ..) rfl
      rw [← List.append_assoc]
      exact List.perm_append_singleton _ _
  · intro s c _ h
    unfold Search.addSupport
    split
    · exact h
    · refine h.keep (List.Sublist.refl _) ?_ (Array.size_push ..) rfl
      exact (List.perm_append_singleton _ _).append_right s.background

/-- Moves keep to the turns. -/
theorem move (h : Turns s selected) {clock : Clock} {P : Problem → Prop} {stage stage' : Stage}
    (hm : Move clock P ⟨s, stage⟩ ⟨s', stage'⟩) :
    Turns s' (selected ++ (stage.given? (some stage')).toList) := by
  cases hm with
  | queue =>
    simp only [Stage.given?, Option.toList_none, List.append_nil]
    refine h.of_sublist ?_ rfl rfl
    rw [show s.polled.queueBackground.background = [] from rfl, List.append_nil]
    exact (List.filter_sublist ..).append_left s.passive
  | activate _ hsel =>
    obtain ⟨hid, hqueue⟩ := Selector.select_eq_some hsel
    exact Turns.activate (s := s.polled) ⟨h.nodup, h.ids, h.rounds_eq⟩ hid hqueue
  | absorb ha =>
    simp only [Stage.given?, Option.toList_none, List.append_nil]
    exact Turns.absorb (s := s.counted) ⟨h.nodup, h.ids, h.rounds_eq⟩ ha
  | done | retired | skip | infer | unknown | factor | settled =>
    simp only [Stage.given?, Option.toList_none, List.append_nil]
    exact ⟨h.nodup, h.ids, h.rounds_eq⟩

theorem finish (h : Turns s selected) {clock : Clock} {stage : Stage} {o : Outcome}
    (hf : Finish clock ⟨s, stage⟩ (s', some o)) : Turns s' selected := by
  rcases hf.state with ⟨-, as, rfl⟩ | ⟨c, -, ha⟩
  · exact ⟨h.nodup, h.ids, h.rounds_eq⟩
  · exact Turns.absorb (s := s.counted) ⟨h.nodup, h.ids, h.rounds_eq⟩ ha

/-- There are no more rounds than clauses, and no more of the background waits. -/
theorem length_le (h : Turns s selected) :
    selected.length + s.background.length ≤ s.clauses.size := by
  have hsub : selected ++ s.background ⊆ List.range s.clauses.size := by
    intro i hi
    refine List.mem_range.mpr (h.ids i ?_)
    simp only [List.mem_append] at hi ⊢
    tauto
  have hnodup : (selected ++ s.background).Nodup :=
    h.nodup.sublist ((List.sublist_append_right _ _).append_left selected)
  have hle := (hnodup.subperm hsub).length_le
  rwa [List.length_append, List.length_range] at hle

end Turns

namespace Course

variable {config : Config} {background support : List Sourced} {s s' : Search} {stage : Option Stage}
  {log : Log}

theorem turns (h : Course config background support s stage log) : Turns s log.selected := by
  induction h with
  | start vars d => exact .start config background support vars d
  | answering _ _ ih | found _ _ ih | call _ _ ih => exact ⟨ih.nodup, ih.ids, ih.rounds_eq⟩
  | move _ hm ih => exact ih.move hm
  | @finish _ _ stage _ _ _ _ hf ih =>
    have hnone : stage.given? none = none := by cases stage <;> rfl
    simp only [Log.reach, Log.leave, hnone, Option.toList_none, List.append_nil]
    exact ih.finish hf

end Course

/-! ## Progress -/

namespace Search

variable {s s' s'' : Search} {clock : Clock}

/-- What no move takes back: rounds count up, the background is used up, and clauses are kept only out of
those that are counted. -/
structure Later (s s' : Search) : Prop where
  config_eq : s'.config = s.config
  rounds_le : s.rounds ≤ s'.rounds
  background_le : s'.background.length ≤ s.background.length
  size_le : s'.clauses.size + s.inferences ≤ s.clauses.size + s'.inferences

theorem Later.refl (s : Search) : s.Later s := ⟨rfl, Nat.le_refl _, Nat.le_refl _, Nat.le_refl _⟩

theorem Later.trans (h : s.Later s') (h' : s'.Later s'') : s.Later s'' where
  config_eq := h'.config_eq.trans h.config_eq
  rounds_le := h.rounds_le.trans h'.rounds_le
  background_le := h'.background_le.trans h.background_le
  size_le := by
    have h₁ := h.size_le
    have h₂ := h'.size_le
    omega

theorem later_absorb {c : Sourced} {o : Option Outcome} (ha : s.counted.absorb c = (s', o)) :
    s.Later s' := by
  rcases absorb_state ha with ⟨as, n, rfl⟩ | ⟨rfl, -⟩
  · refine ⟨rfl, Nat.le_refl _, Nat.le_refl _, ?_⟩
    show s.clauses.size + s.inferences ≤ s.clauses.size + (s.inferences + 1)
    omega
  · refine ⟨rfl, Nat.le_refl _, Nat.le_refl _, ?_⟩
    rw [clauses_admitted, Array.size_push]
    show s.clauses.size + 1 + s.inferences ≤ s.clauses.size + (s.inferences + 1)
    omega

end Search

theorem Move.later {clock : Clock} {P : Problem → Prop} {p q : Point} (hm : Move clock P p q) :
    p.search.Later q.search := by
  cases hm with
  | queue => exact ⟨rfl, Nat.le_refl _, Nat.zero_le _, Nat.le_refl _⟩
  | activate => exact ⟨rfl, Nat.le_succ _, Nat.le_refl _, Nat.le_refl _⟩
  | absorb ha => exact Search.later_absorb ha
  | done | retired | skip | infer | unknown | factor | settled =>
    exact ⟨rfl, Nat.le_refl _, Nat.le_refl _, Nat.le_refl _⟩

theorem Finish.later {clock : Clock} {p : Point} {s : Search} {o : Outcome}
    (hf : Finish clock p (s, some o)) : p.search.Later s := by
  rcases hf.state with ⟨-, as, rfl⟩ | ⟨c, -, ha⟩
  · exact ⟨rfl, Nat.le_refl _, Nat.le_refl _, Nat.le_refl _⟩
  · exact Search.later_absorb ha

theorem Search.later_of_moves {clock : Clock} {P : Problem → Prop} {p q : Point}
    (hpq : ReflTransGen (Move clock P) p q) : p.search.Later q.search := by
  induction hpq with
  | refl => exact .refl _
  | tail _ hm ih => exact ih.trans hm.later

namespace Course

variable {config : Config} {background support : List Sourced} {s s' : Search} {stage : Option Stage}
  {log : Log}

theorem config_eq (h : Course config background support s stage log) : s.config = config := by
  induction h with
  | start vars d => exact (Search.start_intake config vars background support d).config_eq
  | answering _ _ ih | found _ _ ih | call _ _ ih => exact ih
  | move _ hm ih => exact hm.later.config_eq.trans ih
  | finish _ hf ih => exact hf.later.config_eq.trans ih

/-- There are no more rounds than clauses. -/
theorem rounds_le (h : Course config background support s stage log) : s.rounds ≤ s.clauses.size := by
  have hle := h.turns.length_le
  rw [h.turns.rounds_eq]
  omega

end Course

/-! ## The end of a run -/

theorem Outcome.eq_unknown {o : Outcome} {l : Limit} (h : o.limit? = some l) : o = .unknown l := by
  cases o with
  | unknown => exact congrArg Outcome.unknown (Option.some.inj h)
  | proved | disproved => cases h

namespace Search

variable {config : Config} {background support : List Sourced} {first s s' : Search} {log : Log}
  {clock : Clock}

/-- The clauses and rounds that a run can come to from a state on. -/
def room (s : Search) : Nat := s.clauses.size + s.config.maxClauses + s.config.maxInferences

/-- As long as no bound is met there is room for a clause. -/
theorem size_lt_room (hbound : 0 < first.config.maxClauses ∨ 0 < first.config.maxInferences)
    (hlater : first.Later s) {elapsed : Nat} (hpoll : s.exceeded elapsed = none) :
    s.clauses.size < first.room := by
  obtain ⟨hclauses, hinferences⟩ := bounds_of_exceeded hpoll
  rw [hlater.config_eq] at hclauses hinferences
  have hsize := hlater.size_le
  unfold room
  rcases hbound with hpos | hpos
  · have hlt := hclauses hpos
    omega
  · have hlt := hinferences hpos
    omega

/-- What is left to a run: rounds, and the background once. -/
def left (first s : Search) : Nat := first.room - s.rounds + s.background.length

/-- A round that does not end the run leaves less. -/
theorem step_later (hbound : 0 < first.config.maxClauses ∨ 0 < first.config.maxInferences)
    (hlater : first.Later s) (h : Course config background support s (some .select) log)
    (hstep : s.step clock = (s', none)) :
    (∃ log', Course config background support s' (some .select) log') ∧ s.Later s' ∧
      first.left s' < first.left s := by
  unfold step at hstep
  split at hstep
  · exact absurd (congrArg Prod.snd hstep) (finish_ne_none _ _)
  · rename_i s₁ hpoll
    obtain ⟨hl, rfl⟩ := Prod.mk.inj hpoll
    have hroom := size_lt_room hbound hlater hl
    have hrounds := h.rounds_le
    split at hstep
    · -- The round counts before its pairs do anything.
      rename_i pick hsel
      have hfirst : Move clock (fun _ => True) ⟨s, .select⟩
          ⟨s.polled.activated pick, .pair pick.id (s.polled.activated pick).active⟩ := .activate hl hsel
      have hpairs : pairWith clock pick.id (s.polled.activated pick).active (s.polled.activated pick) =
          (s', none) := hstep
      have hleads := pairWith_leads (P := fun _ => True) clock pick.id (s.polled.activated pick).active
        (s.polled.activated pick) (fun _ _ => trivial)
      rw [hpairs] at hleads
      rcases hleads with ⟨-, hmoves⟩ | ⟨q, -, hf⟩
      · have hrest := later_of_moves hmoves
        obtain ⟨log', hcourse, -⟩ := Course.of_moves hmoves (h.move hfirst)
        refine ⟨⟨log', hcourse⟩, hfirst.later.trans hrest, ?_⟩
        have hround : s.rounds + 1 ≤ s'.rounds := hrest.rounds_le
        have hback : s'.background.length ≤ s.background.length := hrest.background_le
        unfold left
        omega
      · exact absurd rfl hf.ne_none
    · rename_i hsel
      split at hstep
      · exact absurd (congrArg Prod.snd hstep) (finish_ne_none _ _)
      · rename_i hback
        have hne : s.background ≠ [] := fun he => hback (List.isEmpty_iff.mpr he)
        have hmove : Move clock (fun _ => True) ⟨s, .select⟩ ⟨s.polled.queueBackground, .select⟩ :=
          .queue hl hsel hne
        cases hstep
        refine ⟨⟨_, h.move hmove⟩, hmove.later, ?_⟩
        have hpos := List.length_pos_iff.mpr hne
        show first.room - s.rounds + 0 < first.room - s.rounds + s.background.length
        omega

/-- Rounds end when nothing is left to the run, or before. -/
theorem loop_ends (hbound : 0 < first.config.maxClauses ∨ 0 < first.config.maxInferences)
    (hlater : first.Later s) (h : Course config background support s (some .select) log) {fuel : Nat}
    (hfuel : first.left s < fuel) : ∃ r, loop clock fuel s = some r := by
  induction fuel generalizing s log with
  | zero => exact absurd hfuel (Nat.not_lt_zero _)
  | succ fuel ih =>
    unfold loop
    split
    · rename_i s' hstep
      obtain ⟨⟨log', hcourse⟩, hnext, hless⟩ := step_later hbound hlater h hstep
      exact ih (hlater.trans hnext) hcourse (by omega)
    · exact ⟨_, rfl⟩

/-- More fuel changes nothing. -/
theorem loop_mono {fuel fuel' : Nat} {r : Outcome × Search} (h : loop clock fuel s = some r)
    (hle : fuel ≤ fuel') : loop clock fuel' s = some r := by
  induction fuel generalizing s fuel' with
  | zero => cases h
  | succ fuel ih =>
    obtain ⟨fuel', rfl⟩ := Nat.exists_eq_add_one.mpr (Nat.lt_of_lt_of_le (Nat.succ_pos fuel) hle)
    unfold loop at h ⊢
    split at h
    · exact ih h (Nat.le_of_succ_le_succ hle)
    · exact h

theorem run_mono {fuel fuel' : Nat} {r : Outcome × Search} (h : s.run clock fuel = some r)
    (hle : fuel ≤ fuel') : s.run clock fuel' = some r := by
  unfold run at h ⊢
  simp only at h ⊢
  split
  · rename_i hc
    rw [hc] at h
    exact h
  · rename_i hc
    rw [hc] at h
    exact loop_mono h hle

end Search

namespace Course

variable {config : Config} {background support : List Sourced} {s : Search} {log : Log}

/-- A bounded run ends, and the bound on its rounds does not depend on the clock. -/
theorem run_ends (hbound : 0 < config.maxClauses ∨ 0 < config.maxInferences)
    (h : Course config background support s none log) (clock : Clock) :
    ∃ o s', ∀ fuel, 2 * s.clauses.size + config.maxClauses + config.maxInferences < fuel →
      s.run clock fuel = some (o, s') := by
  have hback := h.turns.length_le
  have hend : ∃ r, s.run clock (2 * s.clauses.size + config.maxClauses + config.maxInferences + 1) =
      some r := by
    unfold Search.run
    simp only
    split
    · exact ⟨_, rfl⟩
    · rename_i hc
      have hempty : ∀ c ∈ s.clauses, c.clause.isEmpty = false := fun c hm => by
        simpa using Array.find?_eq_none.mp hc c hm
      have hleft : s.rewound.left s.rewound <
          2 * s.clauses.size + config.maxClauses + config.maxInferences + 1 := by
        show s.clauses.size + s.config.maxClauses + s.config.maxInferences - s.rounds +
          s.background.length < _
        rw [h.config_eq]
        omega
      have hbound' : 0 < s.rewound.config.maxClauses ∨ 0 < s.rewound.config.maxInferences := by
        rwa [show s.rewound.config = config from h.config_eq]
      exact Search.loop_ends hbound' (.refl s.rewound) (h.call hempty) hleft
  obtain ⟨⟨o, s'⟩, hr⟩ := hend
  exact ⟨o, s', fun fuel hfuel => Search.run_mono hr hfuel⟩

/-- A search ends without the clock if clauses or inferences are bounded and the occurs check is on,
whatever its clauses are and however often it was run before. Factoring comes to an end in it by itself.
No clause is given twice over all its runs, and so there are no more rounds than clauses. -/
theorem bounded_ends (config : Config) (hcheck : config.occursCheck = true)
    (hbound : 0 < config.maxClauses ∨ 0 < config.maxInferences) (background support : List Sourced) :
    (∀ s log clock, Course config background support s none log →
      ∃ o s', ∀ fuel, 2 * s.clauses.size + config.maxClauses + config.maxInferences < fuel →
        s.run clock fuel = some (o, s')) ∧
    (∀ c d n, c.clause.vars.length < n → factors config.unifier c d =
      ((Factors.rounds config.unifier c.clause n [c] { derivation := d }).found,
        (Factors.rounds config.unifier c.clause n [c] { derivation := d }).derivation)) ∧
    ∀ s stage log, Course config background support s stage log →
      log.selected.Nodup ∧ (∀ i ∈ log.selected, i < s.clauses.size) ∧
        s.stats.rounds = log.selected.length ∧ s.stats.rounds ≤ s.stats.clauses := by
  refine ⟨fun s log clock h => h.run_ends hbound clock,
    fun c d n hn => factors_exhausted hcheck c d hn, fun s stage log h => ?_⟩
  have hturns := h.turns
  exact ⟨hturns.nodup.of_append_left, fun i hi => hturns.ids i (List.mem_append_left _ hi),
    hturns.rounds_eq, h.rounds_le⟩

/-- `~P(x) | P(F(x))`. -/
def grows : Sourced :=
  ⟨.ofList [.neg (.pred "P" [.var ⟨"x"⟩]), .pos (.pred "P" [.fn "F" [.var ⟨"x"⟩]])], none⟩

/-- `P(A)`. -/
def seed : Sourced := ⟨.ofList [.pos (.pred "P" [.const "A"])], none⟩

/-- The two clauses yield `P(F(A))`, `P(F(F(A)))` and so on. With room for four clauses the run stops,
though its clock stands still, and so does the next one. -/
theorem grows_bounded_ends : ∃ s₁ s₂ log, Course { maxClauses := 4 } [grows] [seed] s₂ none log ∧
    (∀ fuel, 8 < fuel → (Search.start { maxClauses := 4 } [grows] [seed]).run (fun _ => 0) fuel =
      some (.unknown .clauses, s₁)) ∧
    (∀ fuel, 12 < fuel → s₁.run (fun _ => 0) fuel = some (.unknown .clauses, s₂)) ∧
    log.selected.Nodup ∧ s₂.stats.rounds = log.selected.length ∧ s₂.stats.rounds ≤ s₂.stats.clauses := by
  obtain ⟨hends, -, hturns⟩ :=
    bounded_ends { maxClauses := 4 } rfl (.inl (by decide)) [grows] [seed]
  have hsize : (Search.start { maxClauses := 4 } [grows] [seed]).clauses.size = 2 := by cbv
  have hrun : ((Search.start { maxClauses := 4 } [grows] [seed]).run (fun _ => 0) 9).any (fun r =>
      r.1.limit? == some .clauses && r.2.clauses.size == 4 &&
      (r.2.run (fun _ => 0) 13).any (·.1.limit? == some .clauses)) = true := by cbv
  obtain ⟨o₁, s₁, h₁⟩ := hends _ _ (fun _ => 0) (Course.start [] .empty)
  rw [hsize] at h₁
  rw [h₁ 9 (by decide), Option.any_some] at hrun
  simp only [Bool.and_eq_true, beq_iff_eq] at hrun
  obtain ⟨⟨hlimit, hfour⟩, hagain⟩ := hrun
  cases Outcome.eq_unknown hlimit
  obtain ⟨log, hcourse, -⟩ := (Course.start [] .empty).of_run (h₁ 9 (by decide))
  obtain ⟨o₂, s₂, h₂⟩ := hends s₁ log (fun _ => 0) hcourse
  rw [hfour] at h₂
  rw [h₂ 13 (by decide), Option.any_some, beq_iff_eq] at hagain
  cases Outcome.eq_unknown hagain
  obtain ⟨log₂, hlast, -⟩ := hcourse.of_run (h₂ 13 (by decide))
  obtain ⟨hnodup, -, hrounds, hle⟩ := hturns s₂ none log₂ hlast
  exact ⟨s₁, s₂, log₂, hlast, h₁, h₂, hnodup, hrounds, hle⟩

end Course

end Refutation
