import Refutation.Proofs.Reported
import Refutation.Proofs.Turns

/-!
# How many answers a run delivers

A search notes answers until it has as many as are asked for. A choice between answers counts like any
other, but it is withdrawn from the report if a definite answer that came after it subsumes it. So a run
never delivers more answers than are asked for, and may deliver fewer for this reason too.

* `Search.withdrawn`, `Search.length_reported`: every answer that is noted is reported or withdrawn.
* `Search.Noted`, `Course.noted`: there are never enough answers between two moves, and no answer is
  noted that an earlier one subsumes.
* `Point.Completes`: the last answer asked for is noted, and some choices may be withdrawn.
* `Course.answers_delivered`: how many answers a run delivers, and why it may be fewer than asked for.
  `Course.choice_counted`: a run that could go on delivers one answer of two.
-/

namespace Refutation

open Relation (ReflTransGen)

namespace Search

variable {s s' : Search} {c : Sourced} {n : Nat} {as : List Answer}

/-! ## Reports -/

/-- The choices among the answers that a definite one of them subsumes. They are not reported. -/
def withdrawn (as : List Answer) : List Answer :=
  as.filter fun a =>
    !a.clause.isUnit && a.clause.subsumedByAny ((as.map Answer.clause).filter (·.isUnit))

/-- Every answer is reported or withdrawn. -/
theorem length_reported (as : List Answer) :
    (reported as).length + (withdrawn as).length = as.length := by
  have hsplit := List.length_eq_length_filter_add (l := as) fun a =>
    a.clause.isUnit || !a.clause.subsumedByAny ((as.map Answer.clause).filter (·.isUnit))
  simp only [Bool.not_or, Bool.not_not] at hsplit
  rw [reported, withdrawn, List.length_map]
  exact hsplit.symm

theorem mem_withdrawn {a : Answer} : a ∈ withdrawn as ↔ a ∈ as ∧ a.clause.isUnit = false ∧
    ∃ b ∈ as, b.clause.isUnit = true ∧ b.clause.Subsumes a.clause := by
  simp only [withdrawn, List.mem_filter, Bool.and_eq_true, Bool.not_eq_true', Clause.subsumedByAny_iff,
    List.mem_map, and_assoc, exists_exists_and_eq_and]

/-! ## Notes -/

/-- There are fewer answers than are asked for, and none subsumes a later one. -/
structure Noted (n : Nat) (as : List Answer) : Prop where
  few : 0 < n → as.length < n
  apart : as.Pairwise fun a b => ¬a.clause.Subsumes b.clause

theorem Noted.nil : Noted n [] := ⟨id, .nil⟩

/-- An answer that no other subsumes stands apart from those before it. -/
theorem Noted.apart_noting (h : Noted n s.answers)
    (hnew : c.clause.subsumedByAny (s.answers.map Answer.clause) = false) :
    (s.noting c).Pairwise fun a b => ¬a.clause.Subsumes b.clause := by
  refine List.pairwise_append.mpr ⟨h.apart, List.pairwise_singleton _ _, fun a ha b hb hsub => ?_⟩
  cases List.mem_singleton.mp hb
  have hany := Clause.subsumedByAny_iff.mpr ⟨a.clause, List.mem_map_of_mem ha, hsub⟩
  rw [hnew] at hany
  cases hany

theorem Noted.absorb (h : Noted s.config.maxAnswers s.answers) {o : Option Outcome}
    (ha : s.absorb c = (s', o)) : Noted s.config.maxAnswers s'.answers := by
  cases absorb_cases ha with
  | contradiction | answered | dropped | subsumed | admitted => exact h
  | noted _ _ hnew hfew => exact ⟨hfew, h.apart_noting hnew⟩
  | enough => exact .nil

/-- The choices that are withdrawn came before the definite answers that subsume them. -/
theorem exists_later_of_withdrawn (h : as.Pairwise fun a b => ¬a.clause.Subsumes b.clause) {a : Answer}
    (ha : a ∈ withdrawn as) : a.clause.isUnit = false ∧
      ∃ b, [a, b].Sublist as ∧ b.clause.isUnit = true ∧ b.clause.Subsumes a.clause := by
  obtain ⟨hmem, hchoice, b, hb, hunit, hsub⟩ := mem_withdrawn.mp ha
  refine ⟨hchoice, b, ?_, hunit, hsub⟩
  obtain ⟨before, after, rfl⟩ := List.append_of_mem hmem
  rcases List.mem_append.mp hb with hb | hb
  · exact absurd hsub ((List.pairwise_append.mp h).2.2 b hb a List.mem_cons_self)
  · rcases List.mem_cons.mp hb with rfl | hb
    · exact absurd (hchoice.symm.trans hunit) Bool.false_ne_true
    · exact ((List.singleton_sublist.mpr hb).cons_cons a).trans (List.sublist_append_right before _)

/-- A search that finishes hands over all its answers. -/
theorem finish_answers (s : Search) (o : Outcome) : (s.finish o).1.answers = [] := by
  unfold finish
  split
  · rename_i hempty
    exact List.isEmpty_iff.mp hempty
  · rfl

/-- Where a search finishes it reports no more than its answers. -/
theorem length_proofs_finish {o o' : Outcome} (h : s.finish o = (s', some o')) (ho : o.proofs = []) :
    o'.proofs.length ≤ s.answers.length := by
  unfold finish at h
  split at h
  · cases h
    rw [ho]
    exact Nat.zero_le _
  · cases h
    exact Nat.le.intro (length_reported s.answers)

end Search

open Search

/-! ## Along a course -/

/-- Moves keep to the notes. -/
theorem Move.noted {clock : Clock} {P : Problem → Prop} {p q : Point} (hm : Move clock P p q)
    (h : Noted p.search.config.maxAnswers p.search.answers) :
    Noted p.search.config.maxAnswers q.search.answers := by
  rcases hm.alike_or_absorbs with halike | ⟨_, _, c, _, _, -, -, ha⟩
  · rw [halike.answers_eq]
    exact h
  · exact Noted.absorb (s := p.search.counted) h ha

theorem Finish.noted {clock : Clock} {p : Point} {s : Search} {o : Outcome}
    (hf : Finish clock p (s, some o)) (h : Noted p.search.config.maxAnswers p.search.answers) :
    Noted p.search.config.maxAnswers s.answers := by
  generalize hr : (s, some o) = r at hf
  cases hf with
  | limit | exhausted | pairLimit =>
    have hanswers := congrArg (fun r : Search × Option Outcome => r.1.answers) hr
    rw [show s.answers = [] from hanswers.trans (finish_answers _ _)]
    exact .nil
  | @decided t _ _ _ _ _ _ _ ha =>
    cases hr
    exact Noted.absorb (s := t.counted) h ha

theorem Course.noted {config : Config} {background support : List Sourced} {s : Search}
    {stage : Option Stage} {log : Log} (h : Course config background support s stage log) :
    Noted config.maxAnswers s.answers := by
  induction h with
  | start vars d =>
    rw [(start_idle config background support vars d).2]
    exact .nil
  | answering _ _ ih | found _ _ ih | call _ _ ih => exact ih
  | move h hm ih =>
    rw [← h.config_eq] at ih ⊢
    exact hm.noted ih
  | finish h hf ih =>
    rw [← h.config_eq] at ih ⊢
    exact hf.noted ih

/-! ## The end of a run -/

namespace Point

/-- The clause to be absorbed is empty, and the outcome is the proof of it. -/
def Refuted (p : Point) (o : Outcome) : Prop :=
  ∃ c, p.stage.offer? = some c ∧ c.clause.isEmpty = true ∧
    o = .proved [.ofClause p.search.session.derivation c]

/-- Nothing waits any more, and nothing of the background is to wait. -/
def Exhausted (p : Point) : Prop :=
  p.stage = .select ∧ p.search.passive = [] ∧ p.search.background = []

/-- A bound is met. -/
def Bounded (clock : Clock) (p : Point) : Prop := p.search.exceeded (clock p.search.readings) ≠ none

/-- The clause to be absorbed makes up the number of answers. Those that are missing from the report
are choices, each subsumed by a definite answer that was noted after it. -/
structure Completes (p : Point) (c : Sourced) (o : Outcome) : Prop where
  offer : p.stage.offer? = some c
  enough : (p.search.noting c).length = p.search.config.maxAnswers
  outcome : o = .proved (reported (p.search.noting c))
  missing : o.proofs.length + (withdrawn (p.search.noting c)).length = p.search.config.maxAnswers
  choices : ∀ a ∈ withdrawn (p.search.noting c), a.clause.isUnit = false ∧
    ∃ b, [a, b].Sublist (p.search.noting c) ∧ b.clause.isUnit = true ∧ b.clause.Subsumes a.clause

end Point

/-- A run ends with no more proofs than answers are asked for: by a contradiction, because nothing waits
or a bound is met, or because the answers are enough. -/
theorem Finish.delivers {clock : Clock} {p : Point} {s : Search} {o : Outcome}
    (hf : Finish clock p (s, some o)) (h : Noted p.search.config.maxAnswers p.search.answers)
    (hn : 0 < p.search.config.maxAnswers) :
    o.proofs.length ≤ p.search.config.maxAnswers ∧
      (p.Refuted o ∨ p.Exhausted ∨ p.Bounded clock ∨ ∃ c, p.Completes c o) := by
  have hfew := h.few hn
  generalize hr : (s, some o) = r at hf
  cases hf with
  | limit hpoll | pairLimit _ _ hpoll =>
    have hlen := length_proofs_finish hr.symm rfl
    refine ⟨hlen.trans hfew.le, .inr (.inr (.inl ?_))⟩
    rw [Point.Bounded, hpoll]
    exact nofun
  | exhausted _ hsel hback =>
    have hlen := length_proofs_finish hr.symm rfl
    exact ⟨hlen.trans hfew.le, .inr (.inl ⟨rfl, Selector.select_eq_none hsel, hback⟩)⟩
  | @decided t _ _ _ c _ _ _ ha =>
    cases hr
    cases absorb_cases ha with
    | contradiction hempty => exact ⟨hn, .inl ⟨c, rfl, hempty, rfl⟩⟩
    | enough _ _ hnew _ hlen =>
      have hone : (t.noting c).length = t.answers.length + 1 := List.length_append
      have henough : (t.noting c).length = t.config.maxAnswers :=
        Nat.le_antisymm (hone ▸ hfew) hlen
      have hsplit := (length_reported (t.noting c)).trans henough
      refine ⟨Nat.le.intro hsplit, .inr (.inr (.inr ⟨c, rfl, henough, rfl, hsplit, fun a hmem => ?_⟩))⟩
      exact exists_later_of_withdrawn (Noted.apart_noting (s := t) h hnew) hmem

namespace Course

variable {config : Config} {background support : List Sourced} {s s' : Search} {log : Log}

/-- No run delivers more answers than are asked for. One that delivers fewer has proved a contradiction,
has nothing left to select, has met a bound, or has noted the full number of answers and withdrawn some
of them, since choices count although a later definite answer subsumes them. -/
theorem answers_delivered (h : Course config background support s none log) (hn : 0 < config.maxAnswers)
    {clock : Clock} {fuel : Nat} {o : Outcome} (hrun : s.run clock fuel = some (o, s')) :
    o.proofs.length ≤ config.maxAnswers ∧
      (o.proofs.length < config.maxAnswers →
        (∃ c ∈ s.clauses, c.clause.isEmpty = true ∧ o = .proved [.ofClause s.session.derivation c]) ∨
        ∃ q, ReflTransGen (Move clock fun _ => True) ⟨s.rewound, .select⟩ q ∧
          Finish clock q (s', some o) ∧
          (q.Refuted o ∨ q.Exhausted ∨ q.Bounded clock ∨
            ∃ c, q.Completes c o ∧ withdrawn (q.search.noting c) ≠ [])) := by
  rcases run_cases clock hrun (fun _ _ => trivial) with ⟨c, hc, hempty, -, rfl⟩ | ⟨hempty, q, hq, hf⟩
  · exact ⟨hn, fun _ => .inl ⟨c, hc, hempty, rfl⟩⟩
  · obtain ⟨log', hlast, -⟩ := of_moves hq (h.call hempty)
    have hnoted := hlast.noted
    rw [← hlast.config_eq] at hn hnoted ⊢
    obtain ⟨hmost, hends⟩ := hf.delivers hnoted hn
    refine ⟨hmost, fun hfewer => .inr ⟨q, hq, hf, ?_⟩⟩
    refine hends.imp_right (.imp_right (.imp_right ?_))
    rintro ⟨c, hc⟩
    refine ⟨c, hc, fun hnone => ?_⟩
    have hmissing := hc.missing
    rw [hnone, List.length_nil, Nat.add_zero] at hmissing
    exact hfewer.ne hmissing

/-- `P(B) | P(A)`. -/
def aOrB : Sourced :=
  ⟨.ofList [.pos (.pred "P" [.const "B"]), .pos (.pred "P" [.const "A"])], none⟩

/-- `~P(B)`. -/
def notB : Sourced := ⟨.ofList [.neg (.pred "P" [.const "B"])], none⟩

/-- `~P(x) | $answer(x)`. -/
def askP : Sourced :=
  ⟨.ofList [.neg (.pred "P" [.var ⟨"x"⟩]), .pos (.pred answerPredicate [.var ⟨"x"⟩])], none⟩

/-- `P(F(C)) | P(F(D))`. -/
def cOrD : Sourced :=
  ⟨.ofList [.pos (.pred "P" [.fn "F" [.const "C"]]), .pos (.pred "P" [.fn "F" [.const "D"]])], none⟩

/-- Which `x` have `P`? Two answers are asked for. -/
def twoAsked : Search := .start { maxAnswers := 2 } [aOrB, notB] [askP, cOrD] [⟨"x"⟩]

/-- The first run of `twoAsked` delivers one answer and leaves a clause that waits. The next run
delivers two. -/
theorem twoAsked_run : (twoAsked.run (fun _ => 0) 10).any (fun r => r.1.isProved &&
    r.1.proofs.map Proof.conclusion == [.ofList [.pos (.pred answerPredicate [.const "A"])]] &&
    r.2.passive == [3] && (r.2.exceeded 0).isNone &&
    (r.2.run (fun _ => 0) 10).any fun r => r.1.proofs.length == 2) = true := by cbv

/-- The answer `A` comes after the choice between `A` and `B`, which counts all the same. -/
theorem twoAsked_delivered : ∃ o s', twoAsked.run (fun _ => 0) 10 = some (o, s') ∧
    o.proofs.length < 2 ∧
    ((∃ c ∈ twoAsked.clauses, c.clause.isEmpty = true ∧
        o = .proved [.ofClause twoAsked.session.derivation c]) ∨
      ∃ q, ReflTransGen (Move (fun _ => 0) fun _ => True) ⟨twoAsked.rewound, .select⟩ q ∧
        Finish (fun _ => 0) q (s', some o) ∧
        (q.Refuted o ∨ q.Exhausted ∨ q.Bounded (fun _ => 0) ∨
          ∃ c, q.Completes c o ∧ withdrawn (q.search.noting c) ≠ [])) := by
  obtain ⟨⟨o, s'⟩, hrun, ho⟩ := (Option.any_eq_true _ _).mp twoAsked_run
  simp only [Bool.and_eq_true, beq_iff_eq] at ho
  have hone : o.proofs.length = 1 := by simpa using congrArg List.length ho.1.1.1.2
  have hfewer : o.proofs.length < 2 := hone ▸ Nat.one_lt_two
  exact ⟨o, s', hrun, hfewer, (answers_delivered (Course.start _ _) (by decide) hrun).2 hfewer⟩

/-- A run that is asked for two answers may deliver one, though a clause still waits and no bound is
met, and though the next run delivers two. -/
theorem choice_counted : ∃ p s, twoAsked.run (fun _ => 0) 10 = some (.proved [p], s) ∧
    p.conclusion = .ofList [.pos (.pred answerPredicate [.const "A"])] ∧ s.passive ≠ [] ∧
    s.exceeded 0 = none ∧ ∃ o s', s.run (fun _ => 0) 10 = some (o, s') ∧ o.proofs.length = 2 := by
  obtain ⟨⟨o, s⟩, hrun, ho⟩ := (Option.any_eq_true _ _).mp twoAsked_run
  simp only [Bool.and_eq_true, beq_iff_eq, Option.isNone_iff_eq_none] at ho
  obtain ⟨⟨⟨⟨hproved, hproofs⟩, hpassive⟩, hbound⟩, hagain⟩ := ho
  obtain ⟨p, hp, hconclusion⟩ := List.map_eq_singleton_iff.mp hproofs
  obtain ⟨⟨o', s'⟩, hrun', ho'⟩ := (Option.any_eq_true _ _).mp hagain
  rw [Outcome.eq_proved hproved, hp] at hrun
  refine ⟨p, s, hrun, hconclusion, ?_, hbound, o', s', hrun', beq_iff_eq.mp ho'⟩
  rw [hpassive]
  exact List.cons_ne_nil _ _

end Course

end Refutation
