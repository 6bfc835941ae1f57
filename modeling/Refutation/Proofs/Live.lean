import Refutation.Proofs.Loop
import Refutation.Proofs.Start

/-!
# Live clauses

A search drops and retires clauses all the time and loses nothing by it, whatever its clauses and
bounds are: live clauses stand for all that were ever kept. Nor does it leave out a pair: of two
active clauses one was selected when the other was active, and then the two met.

* `Search.liveSet`, `Search.Lossless`: the live clauses, and that they stand for all.
* `Search.Absorbed`, `Search.Lossless.absorb`: what absorbing a clause does.
* `Search.Alike`, `Move.alike_or_absorbs`: all other moves keep the clauses and which of them are live.
* `Move.lossless`: no move loses a clause.
* `Point.Met`: two clauses whose inferences were made.
* `Move.met`: clauses that have met after a move have met before, or the move is their meeting.
-/

namespace Refutation

namespace Search

variable {s s' : Search} {c : Sourced} {i j : Nat}

/-! ## States -/

/-- The clause is active or waits. -/
def Live (s : Search) (i : Nat) : Prop := i ∈ s.active ∨ i ∈ s.passive

/-- The live clauses. -/
def liveSet (s : Search) : Set Clause := {c | ∃ i x, s.Live i ∧ s.clauses[i]? = some x ∧ x.clause = c}

/-- The clause has still to be selected. -/
def Waits (s : Search) (i : Nat) : Prop := i ∈ s.passive ∨ i ∈ s.background

theorem mem_live : i ∈ s.live ↔ s.Live i := by
  simp only [live, Live, List.mem_append, List.mem_filter, decide_eq_true_eq]
  tauto

theorem mem_clausesOf_live {c : Clause} : c ∈ s.clausesOf s.live ↔ c ∈ s.liveSet := by
  simp only [clausesOf, liveSet, List.mem_filterMap, Option.map_eq_some_iff, mem_live, Set.mem_ofPred_eq]
  constructor
  · rintro ⟨i, hi, x, hx, rfl⟩
    exact ⟨i, x, hi, hx, rfl⟩
  · rintro ⟨i, x, hi, hx, rfl⟩
    exact ⟨i, hi, x, hx, rfl⟩

/-- The live clauses stand for all that were kept. -/
structure Lossless (s : Search) : Prop where
  ids : ∀ i, s.Live i → i < s.clauses.size
  kept : Dominates s.liveSet (clausesIn s.clauses.toList)

/-- The two have the same clauses, live ones and answers. -/
structure Alike (s s' : Search) : Prop where
  config_eq : s'.config = s.config
  vars_eq : s'.answerVars = s.answerVars
  answers_eq : s'.answers = s.answers
  clauses_eq : s'.clauses = s.clauses
  live_iff : ∀ i, s'.Live i ↔ s.Live i

namespace Alike

theorem liveSet_eq (h : s.Alike s') : s'.liveSet = s.liveSet := by
  simp only [liveSet, h.clauses_eq, h.live_iff]

theorem lossless (h : s.Alike s') (hs : s.Lossless) : s'.Lossless where
  ids i hi := by
    rw [h.clauses_eq]
    exact hs.ids i ((h.live_iff i).mp hi)
  kept := by
    rw [h.clauses_eq, h.liveSet_eq]
    exact hs.kept

end Alike

theorem alike_polled (s : Search) : s.Alike s.polled := ⟨rfl, rfl, rfl, rfl, fun _ => Iff.rfl⟩

theorem alike_counted (s : Search) : s.Alike s.counted := ⟨rfl, rfl, rfl, rfl, fun _ => Iff.rfl⟩

/-! ## The start -/

variable {config : Config} {vars : List Var} {given : List Sourced}

theorem Begun.liveSet_eq (h : Begun config vars given s) :
    s.liveSet = clausesIn s.clauses.toList := by
  ext c
  constructor
  · rintro ⟨i, x, -, hx, rfl⟩
    exact mem_clausesIn (Array.mem_toList_iff.mpr (Array.mem_of_getElem? hx))
  · rintro ⟨x, hx, rfl⟩
    obtain ⟨i, hi⟩ := Array.mem_iff_getElem?.mp (Array.mem_toList_iff.mp hx)
    exact ⟨i, x, (h.live i).mpr (Array.getElem?_eq_some_iff.mp hi).1, hi, rfl⟩

theorem Begun.lossless (h : Begun config vars given s) : s.rewound.Lossless :=
  ⟨fun i => (h.live i).mp, .of_subset h.liveSet_eq.ge⟩

/-- What was taken in is live, or the same clause is. -/
theorem Begun.dominates (h : Begun config vars given s) : Dominates s.rewound.liveSet (clausesIn given) := by
  rw [show s.rewound.liveSet = clausesIn s.clauses.toList from h.liveSet_eq]
  refine .of_subsumes fun c hc => ?_
  obtain ⟨x, hx, hs⟩ := h.kept c hc
  exact ⟨x, Array.mem_toList_iff.mpr hx, Clause.subsumes_of_same hs⟩

/-! ## Absorbing -/

/-- The clause is live and subsumed. -/
def Retires (s : Search) (c : Clause) (i : Nat) : Prop :=
  s.Live i ∧ ∃ x, s.clauses[i]? = some x ∧ c.subsumes x.clause = true

theorem mem_active_admitted : i ∈ (s.admitted c).active ↔ i ∈ s.active ∧ ¬s.Retires c.clause i := by
  simp only [admitted, keep, retireSubsumedBy, List.mem_filter, decide_eq_true_eq, mem_live,
    Option.any_eq_true, Retires]

theorem mem_passive_admitted :
    i ∈ (s.admitted c).passive ↔ (i ∈ s.passive ∧ ¬s.Retires c.clause i) ∨ i = s.clauses.size := by
  simp only [admitted, keep, retireSubsumedBy, List.mem_append, List.mem_filter, decide_eq_true_eq,
    mem_live, Option.any_eq_true, Retires, List.mem_singleton]

theorem live_admitted : (s.admitted c).Live i ↔ (s.Live i ∧ ¬s.Retires c.clause i) ∨ i = s.clauses.size := by
  rw [Live, mem_active_admitted, mem_passive_admitted, Live]
  tauto

theorem clauses_admitted : (s.admitted c).clauses = s.clauses.push c := rfl

theorem getElem?_admitted (i : Nat) : (s.admitted c).clauses[i]? =
    if i = s.clauses.size then some c else s.clauses[i]? := Array.getElem?_push ..

/-- What absorbing a clause does: live clauses stand for those that were live before, and for the
clause unless it is an answer. They are those before or the clause itself, and active clauses that
waited wait. -/
structure Absorbed (s : Search) (c : Sourced) (s' : Search) : Prop where
  config_eq : s'.config = s.config
  vars_eq : s'.answerVars = s.answerVars
  answers : s'.answers = [] → s.answers = []
  not_empty : c.clause.isEmpty = false
  lossless : s'.Lossless
  mem_clauses : ∀ x ∈ s'.clauses, x ∈ s.clauses ∨ x = c
  keeps : Dominates s'.liveSet s.liveSet
  takes : s.isAnswer c.clause = true ∧ s'.answers ≠ [] ∨ Dominates s'.liveSet {c.clause}
  live : ∀ d ∈ s'.liveSet, d ∈ s.liveSet ∨ d = c.clause
  active : ∀ i ∈ s'.active, i ∈ s.active ∧ (s.Waits i → s'.Waits i) ∧ s'.clauses[i]? = s.clauses[i]?

/-- A clause is dropped only if live clauses stand for it. -/
theorem Lossless.dropped (h : s.Lossless) {c : Clause} (hd : c.isTautology = true ∨
    s.isKept c = true ∨ c.subsumedByAny (s.clausesOf s.live) = true) : Dominates s.liveSet {c} := by
  rintro _ rfl
  rcases hd with ht | hk | hs
  · exact .inl ht
  · obtain ⟨x, hx, hsame⟩ := isKept_iff.mp hk
    have hsub := Clause.subsumes_of_same hsame
    rcases h.kept _ (mem_clausesIn (Array.mem_toList_iff.mpr hx)) with ht | ⟨E, hE, hEx⟩
    · exact .inl (hsub.isTautology ht)
    · exact .inr ⟨E, hE, hEx.trans hsub⟩
  · obtain ⟨E, hE, hEc⟩ := Clause.subsumedByAny_iff.mp hs
    exact .inr ⟨E, mem_clausesOf_live.mp hE, hEc⟩

/-- An admitted clause is live, and stands for those that it retires. -/
theorem Lossless.dominates_admitted (h : s.Lossless) (c : Sourced) :
    Dominates (s.admitted c).liveSet s.liveSet ∧ c.clause ∈ (s.admitted c).liveSet := by
  have hnew : c.clause ∈ (s.admitted c).liveSet :=
    ⟨s.clauses.size, c, live_admitted.mpr (.inr rfl), by rw [getElem?_admitted, if_pos rfl], rfl⟩
  refine ⟨?_, hnew⟩
  rintro _ ⟨i, x, hi, hx, rfl⟩
  by_cases hr : s.Retires c.clause i
  · obtain ⟨-, y, hy, hsub⟩ := hr
    cases hx.symm.trans hy
    exact .inr ⟨c.clause, hnew, Clause.subsumes_sound hsub⟩
  · have hne : i ≠ s.clauses.size := (h.ids i hi).ne
    refine .inr ⟨x.clause, ⟨i, x, live_admitted.mpr (.inl ⟨hi, hr⟩), ?_, rfl⟩, .refl _⟩
    rw [getElem?_admitted, if_neg hne]
    exact hx

theorem Lossless.admitted (h : s.Lossless) (hne : c.clause.isEmpty = false) :
    Absorbed s c (s.admitted c) := by
  obtain ⟨hkeeps, hnew⟩ := h.dominates_admitted c
  have htakes : Dominates (s.admitted c).liveSet {c.clause} :=
    .of_subset (Set.singleton_subset_iff.mpr hnew)
  refine ⟨rfl, rfl, id, hne, ⟨fun i hi => ?_, ?_⟩, fun x hx => ?_, hkeeps, .inr htakes, ?_, ?_⟩
  · rw [clauses_admitted, Array.size_push]
    rcases live_admitted.mp hi with ⟨hi, -⟩ | rfl
    · exact Nat.lt_succ_of_lt (h.ids i hi)
    · exact Nat.lt_succ_self _
  · rw [clauses_admitted, Array.toList_push, clausesIn_append, clausesIn_cons]
    exact (hkeeps.trans h.kept).union (htakes.union nofun)
  · exact Array.mem_push.mp hx
  · rintro _ ⟨i, x, hi, hx, rfl⟩
    rw [getElem?_admitted] at hx
    rcases live_admitted.mp hi with ⟨hi, -⟩ | rfl
    · rw [if_neg (h.ids i hi).ne] at hx
      exact .inl ⟨i, x, hi, hx, rfl⟩
    · rw [if_pos rfl] at hx
      cases hx
      exact .inr rfl
  · intro i hi
    obtain ⟨hi, hr⟩ := mem_active_admitted.mp hi
    refine ⟨hi, fun hw => ?_, ?_⟩
    · exact hw.imp (fun hp => mem_passive_admitted.mpr (.inl ⟨hp, hr⟩)) id
    · rw [getElem?_admitted, if_neg (h.ids i (.inl hi)).ne]

/-- Whatever becomes of a clause, nothing is lost. -/
theorem Lossless.absorb (h : s.Lossless) (ha : s.absorb c = (s', none)) : Absorbed s c s' := by
  have hsame : Dominates s.liveSet s.liveSet := .of_subset subset_rfl
  cases absorb_cases ha with
  | answered hempty hans hold =>
    have hsome : s.answers ≠ [] := by
      rintro he
      rw [he] at hold
      cases hold
    exact ⟨rfl, rfl, id, hempty, h, fun x hx => .inl hx, hsame, .inl ⟨hans, hsome⟩, fun d hd => .inl hd,
      fun i hi => ⟨hi, id, rfl⟩⟩
  | noted hempty hans =>
    have hsome : s.noting c ≠ [] := List.concat_ne_nil _ _
    exact ⟨rfl, rfl, fun he => (hsome he).elim, hempty, ⟨h.ids, h.kept⟩, fun x hx => .inl hx, hsame,
      .inl ⟨hans, hsome⟩, fun d hd => .inl hd, fun i hi => ⟨hi, id, rfl⟩⟩
  | dropped hempty _ hdrop =>
    exact ⟨rfl, rfl, id, hempty, h, fun x hx => .inl hx, hsame,
      .inr (h.dropped (hdrop.imp_right .inl)), fun d hd => .inl hd, fun i hi => ⟨hi, id, rfl⟩⟩
  | subsumed hempty _ hsub =>
    exact ⟨rfl, rfl, id, hempty, ⟨h.ids, h.kept⟩, fun x hx => .inl hx, hsame,
      .inr (h.dropped (.inr (.inr hsub))), fun d hd => .inl hd, fun i hi => ⟨hi, id, rfl⟩⟩
  | admitted hempty => exact h.admitted hempty

/-! ## Other moves -/

theorem mem_passive_queueBackground : i ∈ s.queueBackground.passive ↔
    i ∈ s.passive ∨ i ∈ s.background ∧ i ∈ s.active ∧ i ∉ s.passive := by
  simp only [queueBackground, List.mem_append, List.mem_filter, decide_eq_true_eq]

theorem mem_active_activated {pick : Pick} :
    i ∈ (s.activated pick).active ↔ i ∈ s.active ∨ i = pick.id := by
  unfold activated
  simp only
  split
  · rename_i hmem
    exact ⟨.inl, fun hi => hi.elim id fun he => he ▸ hmem⟩
  · rw [List.mem_append, List.mem_singleton]

theorem mem_passive_activated {pick : Pick} (h : pick.queue = s.passive.erase pick.id)
    (hi : i ≠ pick.id) : i ∈ (s.activated pick).passive ↔ i ∈ s.passive := by
  rw [show (s.activated pick).passive = pick.queue from rfl, h, List.mem_erase_of_ne hi]

theorem live_queueBackground : s.queueBackground.Live i ↔ s.Live i := by
  rw [Live, mem_passive_queueBackground, Live, show s.queueBackground.active = s.active from rfl]
  tauto

theorem live_activated {pick : Pick} (hid : pick.id ∈ s.passive)
    (hqueue : pick.queue = s.passive.erase pick.id) : (s.activated pick).Live i ↔ s.Live i := by
  by_cases hi : i = pick.id
  · cases hi
    simp [Live, mem_active_activated, hid]
  · simp [Live, mem_active_activated, mem_passive_activated hqueue hi, hi]

end Search

/-- A move absorbs a clause, or keeps the clauses and which of them are live. -/
theorem Move.alike_or_absorbs {clock : Clock} {P : Problem → Prop} {p q : Point}
    (hm : Move clock P p q) : p.search.Alike q.search ∨
      ∃ given partners c pending derived, p.stage = .absorb given partners (c :: pending) derived ∧
        q.stage = .absorb given partners pending derived ∧
        p.search.counted.absorb c = (q.search, none) := by
  cases hm with
  | queue => exact .inl ⟨rfl, rfl, rfl, rfl, fun _ => Search.live_queueBackground⟩
  | activate _ hsel =>
    obtain ⟨hid, hqueue⟩ := Selector.select_eq_some hsel
    exact .inl ⟨rfl, rfl, rfl, rfl, fun _ => Search.live_activated hid hqueue⟩
  | absorb ha => exact .inr ⟨_, _, _, _, _, rfl, rfl, ha⟩
  | done | retired | skip | infer | unknown | factor | settled =>
    exact .inl ⟨rfl, rfl, rfl, rfl, fun _ => Iff.rfl⟩

/-- No move loses a clause or an answer. -/
theorem Move.lossless {clock : Clock} {P : Problem → Prop} {p q : Point} (hm : Move clock P p q)
    (h : p.search.Lossless) : q.search.Lossless ∧ q.search.config = p.search.config ∧
      Dominates q.search.liveSet p.search.liveSet ∧ (q.search.answers = [] → p.search.answers = []) := by
  rcases hm.alike_or_absorbs with halike | ⟨_, _, c, _, _, -, -, ha⟩
  · refine ⟨halike.lossless h, halike.config_eq, ?_, fun he => halike.answers_eq ▸ he⟩
    rw [halike.liveSet_eq]
    exact .of_subset subset_rfl
  · have habs := (p.search.alike_counted.lossless h).absorb ha
    exact ⟨habs.lossless, habs.config_eq, habs.keeps, habs.answers⟩

/-! ## Pairs -/

/-- The first clause is given and has still to meet the second. -/
def Stage.Owes : Stage → Nat → Nat → Prop
  | .select, _, _ => False
  | .pair given partners, i, j => i = given ∧ j ∈ partners
  | .absorb given partners _ _, i, j => i = given ∧ j ∈ partners

namespace Point

/-- Both clauses are active, one was selected when the other was active, and neither is to meet
the other any more. -/
structure Met (p : Point) (i j : Nat) : Prop where
  left : i ∈ p.search.active
  right : j ∈ p.search.active
  selected : ¬(p.search.Waits i ∧ p.search.Waits j)
  not_owed : ¬(p.stage.Owes i j ∨ p.stage.Owes j i)

/-- But for the two clauses next to meet, those have met before that have met after. -/
theorem Met.cons {s : Search} {given partner i j : Nat} {partners : List Nat}
    (h : Met ⟨s, .pair given partners⟩ i j)
    (hne : ¬((i = given ∧ j = partner) ∨ (j = given ∧ i = partner))) :
    Met ⟨s, .pair given (partner :: partners)⟩ i j := by
  refine ⟨h.left, h.right, h.selected, fun ho => ?_⟩
  rcases ho with ⟨hg, hp⟩ | ⟨hg, hp⟩
  · rcases List.mem_cons.mp hp with he | hp
    · exact hne (.inl ⟨hg, he⟩)
    · exact h.not_owed (.inl ⟨hg, hp⟩)
  · rcases List.mem_cons.mp hp with he | hp
    · exact hne (.inr ⟨hg, he⟩)
    · exact h.not_owed (.inr ⟨hg, hp⟩)

/-- Queueing the background makes clauses wait that had to wait anyway. -/
theorem Met.queue {s : Search} {i j : Nat} (h : Met ⟨s.polled.queueBackground, .select⟩ i j) :
    Met ⟨s, .select⟩ i j := by
  have hwaits : ∀ i ∈ s.active, s.Waits i → s.polled.queueBackground.Waits i := by
    intro i hi hw
    refine .inl (Search.mem_passive_queueBackground.mpr ?_)
    by_cases hp : i ∈ s.passive
    · exact .inl hp
    · exact .inr ⟨hw.resolve_left hp, hi, hp⟩
  exact ⟨h.left, h.right, fun hw => h.selected ⟨hwaits i h.left hw.1, hwaits j h.right hw.2⟩,
    h.not_owed⟩

/-- A clause that is selected has all active clauses to meet. -/
theorem Met.activate {s : Search} {i j : Nat} {pick : Pick}
    (hqueue : pick.queue = s.passive.erase pick.id)
    (h : Met ⟨s.polled.activated pick, .pair pick.id (s.polled.activated pick).active⟩ i j) :
    Met ⟨s, .select⟩ i j := by
  have hi : i ≠ pick.id := fun he => h.not_owed (.inl ⟨he, h.right⟩)
  have hj : j ≠ pick.id := fun he => h.not_owed (.inr ⟨he, h.left⟩)
  have hwaits : ∀ i, i ≠ pick.id → s.Waits i → (s.polled.activated pick).Waits i := fun i hi hw =>
    hw.imp_left (Search.mem_passive_activated (s := s.polled) hqueue hi).mpr
  exact ⟨(Search.mem_active_activated.mp h.left).resolve_right hi,
    (Search.mem_active_activated.mp h.right).resolve_right hj,
    fun hw => h.selected ⟨hwaits i hi hw.1, hwaits j hj hw.2⟩, by simp [Stage.Owes]⟩

/-- At the start no clauses have met: the active ones still wait. -/
theorem not_met_of_begun {config : Config} {vars : List Var} {given : List Sourced} {s : Search}
    (h : s.Begun config vars given) {i j : Nat} : ¬Met ⟨s.rewound, .select⟩ i j := fun hij =>
  hij.selected ⟨.inr (h.waits i hij.left), .inr (h.waits j hij.right)⟩

/-- When nothing is left all active clauses have met. -/
theorem met_of_exhausted {s : Search} (hpassive : s.passive = []) (hback : s.background = [])
    {i j : Nat} (hi : i ∈ s.active) (hj : j ∈ s.active) : Met ⟨s, .select⟩ i j := by
  refine ⟨hi, hj, fun hw => ?_, by simp [Stage.Owes]⟩
  simp [Search.Waits, hpassive, hback] at hw

/-- The move makes the inferences between two clauses, which pose only problems with the
property `P`. -/
def Infers (P : Problem → Prop) (p q : Point) (left right : Sourced) : Prop :=
  (∀ x ∈ p.search.polled.inferProblems left right, P x) ∧
    ∃ given partners, q = ⟨p.search.polled.inferred left right,
      .absorb given partners [] (p.search.polled.infer left right).1⟩

end Point

/-- Clauses that have met after a move have met before, or the move is their meeting. -/
theorem Move.met {clock : Clock} {P : Problem → Prop} {p q : Point} (hm : Move clock P p q)
    (h : p.search.Lossless) {i j : Nat} {A B : Sourced} (hij : q.Met i j)
    (hA : q.search.clauses[i]? = some A) (hB : q.search.clauses[j]? = some B) :
    (p.Met i j ∧ p.search.clauses[i]? = some A ∧ p.search.clauses[j]? = some B) ∨
      p.Infers P q A B ∨ p.Infers P q B A := by
  cases hm with
  | queue => exact .inl ⟨hij.queue, hA, hB⟩
  | activate _ hsel => exact .inl ⟨hij.activate (Selector.select_eq_some hsel).2, hA, hB⟩
  | done => exact .inl ⟨⟨hij.left, hij.right, hij.selected, by simp [Stage.Owes]⟩, hA, hB⟩
  | retired hg =>
    refine .inl ⟨⟨hij.left, hij.right, hij.selected, fun ho => ?_⟩, hA, hB⟩
    rcases ho with ⟨rfl, -⟩ | ⟨rfl, -⟩
    · exact hg hij.left
    · exact hg hij.right
  | skip _ hp =>
    refine .inl ⟨hij.cons ?_, hA, hB⟩
    rintro (⟨-, rfl⟩ | ⟨-, rfl⟩)
    · exact hp hij.right
    · exact hp hij.left
  | @infer s given partner partners left right _ _ _ hl hr hP =>
    by_cases hpair : (i = given ∧ j = partner) ∨ (j = given ∧ i = partner)
    · rcases hpair with ⟨rfl, rfl⟩ | ⟨rfl, rfl⟩
      · cases hl.symm.trans hA
        cases hr.symm.trans hB
        exact .inr (.inl ⟨hP, _, _, rfl⟩)
      · cases hr.symm.trans hA
        cases hl.symm.trans hB
        exact .inr (.inr ⟨hP, _, _, rfl⟩)
    · exact .inl ⟨Point.Met.cons ⟨hij.left, hij.right, hij.selected, hij.not_owed⟩ hpair, hA, hB⟩
  | @unknown s given partner partners _ _ _ hn =>
    by_cases hpair : (i = given ∧ j = partner) ∨ (j = given ∧ i = partner)
    · have hn' : s.clauses[i]? = none ∨ s.clauses[j]? = none := by
        rcases hpair with ⟨rfl, rfl⟩ | ⟨rfl, rfl⟩
        · exact hn
        · exact hn.symm
      rcases hn' with hi | hj
      · cases hi.symm.trans hA
      · cases hj.symm.trans hB
    · exact .inl ⟨Point.Met.cons ⟨hij.left, hij.right, hij.selected, hij.not_owed⟩ hpair, hA, hB⟩
  | factor => exact .inl ⟨⟨hij.left, hij.right, hij.selected, hij.not_owed⟩, hA, hB⟩
  | absorb ha =>
    have habs := ((Search.alike_counted _).lossless h).absorb ha
    obtain ⟨hi, hwi, hci⟩ := habs.active i hij.left
    obtain ⟨hj, hwj, hcj⟩ := habs.active j hij.right
    exact .inl ⟨⟨hi, hj, fun hw => hij.selected ⟨hwi hw.1, hwj hw.2⟩, hij.not_owed⟩,
      hci.symm.trans hA, hcj.symm.trans hB⟩
  | settled => exact .inl ⟨⟨hij.left, hij.right, hij.selected, hij.not_owed⟩, hA, hB⟩

end Refutation
