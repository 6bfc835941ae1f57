import Mathlib
import Refutation.Search.Selection

/-!
# Every waiting clause has its turn

A selection takes one clause out of the queue and leaves the others in their order: the oldest one if it
goes by age, else the first of the lightest ones. With a ratio above zero selections go by age at fixed
intervals. So a waiting clause is selected in time, whatever is queued behind it and however light that
is.

* `Selector.Takes`, `Selector.select_takes`: what a selection does.
* `Selector.untilAge`: how many selections there are up to the next one by age.
* `Selector.Takes.progress`: a selection takes a clause, or brings it no further back. One by age brings
  it forward.
* `Selector.results`: what selections return among additions to the queue.
* `Selector.every_turn_comes`: each selection, and how long a clause waits at most.
-/

namespace Refutation

namespace Selector

variable {s : Selector} {weights : Array Nat} {queue before after : List Nat} {pick : Pick} {id p : Nat}

/-! ## One selection -/

/-- The next selection goes by age. -/
def ByAge (s : Selector) : Prop := 0 < s.ratio ∧ (s.picks + 1) % s.ratio = 0

instance (s : Selector) : Decidable s.ByAge :=
  inferInstanceAs (Decidable (0 < s.ratio ∧ (s.picks + 1) % s.ratio = 0))

/-- A selection takes the clause that stands between others. By age it is the oldest. By weight the
ones before it are heavier and none after it is lighter. -/
structure Takes (s : Selector) (weights : Array Nat) (before after : List Nat) (pick : Pick) : Prop where
  queue_eq : pick.queue = before ++ after
  selector_eq : pick.selector = { s with picks := s.picks + 1 }
  oldest : s.ByAge → before = []
  heavier : ¬s.ByAge → ∀ i ∈ before, weightOf weights pick.id < weightOf weights i
  lightest : ¬s.ByAge → ∀ i ∈ after, weightOf weights pick.id ≤ weightOf weights i

theorem lightest_splits (weights : Array Nat) (best : Nat) (ids : List Nat) :
    ∃ before after, best :: ids = before ++ lightest weights best ids :: after ∧
      (∀ i ∈ before, weightOf weights (lightest weights best ids) < weightOf weights i) ∧
      ∀ i ∈ after, weightOf weights (lightest weights best ids) ≤ weightOf weights i := by
  induction ids generalizing best with
  | nil => exact ⟨[], [], rfl, nofun, nofun⟩
  | cons j ids ih =>
    rw [lightest]
    split
    · rename_i hj
      obtain ⟨before, after, hids, hbefore, hafter⟩ := ih j
      have hle : weightOf weights (lightest weights j ids) ≤ weightOf weights j := by
        have hmem : j ∈ before ++ lightest weights j ids :: after := hids ▸ List.mem_cons_self
        rcases List.mem_append.mp hmem with hmem | hmem
        · exact (hbefore j hmem).le
        · rcases List.mem_cons.mp hmem with heq | hmem
          · exact (congrArg (weightOf weights) heq).ge
          · exact hafter j hmem
      refine ⟨best :: before, after, congrArg (best :: ·) hids, ?_, hafter⟩
      exact List.forall_mem_cons.mpr ⟨hle.trans_lt hj, hbefore⟩
    · rename_i hj
      obtain ⟨before, after, hids, hbefore, hafter⟩ := ih best
      rcases before with _ | ⟨b, before⟩
      · -- The first clause is still the lightest.
        obtain ⟨hbest, rfl⟩ := List.cons.inj hids
        rw [← hbest] at hafter ⊢
        exact ⟨[], j :: ids, rfl, nofun, List.forall_mem_cons.mpr ⟨not_lt.mp hj, hafter⟩⟩
      · obtain ⟨rfl, hrest⟩ := List.cons.inj hids
        obtain ⟨hb, hbefore⟩ := List.forall_mem_cons.mp hbefore
        refine ⟨best :: j :: before, after, congrArg (best :: j :: ·) hrest, ?_, hafter⟩
        exact List.forall_mem_cons.mpr ⟨hb, List.forall_mem_cons.mpr ⟨hb.trans_le (not_lt.mp hj), hbefore⟩⟩

/-- A selection from a queue takes a clause of it, and only that. -/
theorem select_takes (s : Selector) (weights : Array Nat) (hq : queue ≠ []) :
    ∃ pick before after, s.select weights queue = some pick ∧ queue = before ++ pick.id :: after ∧
      s.Takes weights before after pick := by
  obtain ⟨oldest, rest, rfl⟩ := List.exists_cons_of_ne_nil hq
  by_cases hage : s.ByAge
  · refine ⟨⟨oldest, rest, { s with picks := s.picks + 1 }⟩, [], rest, ?_, rfl, rfl, rfl, fun _ => rfl,
      absurd hage, absurd hage⟩
    rw [select]
    simp only [show 0 < s.ratio ∧ (s.picks + 1) % s.ratio = 0 from hage, and_self, if_true,
      List.erase_cons_head]
  · obtain ⟨before, after, hids, hbefore, hafter⟩ := lightest_splits weights oldest rest
    have hnew : lightest weights oldest rest ∉ before := fun hmem => (hbefore _ hmem).false
    refine ⟨⟨lightest weights oldest rest, before ++ after, { s with picks := s.picks + 1 }⟩, before,
      after, ?_, hids, rfl, rfl, fun h => absurd h hage, fun _ => hbefore, fun _ => hafter⟩
    rw [select]
    simp only [if_neg (show ¬(0 < s.ratio ∧ (s.picks + 1) % s.ratio = 0) from hage)]
    rw [hids, List.erase_append_right _ hnew, List.erase_cons_head]

theorem takes_of_select (h : s.select weights queue = some pick) :
    ∃ before after, queue = before ++ pick.id :: after ∧ s.Takes weights before after pick := by
  have hq : queue ≠ [] := by
    rintro rfl
    cases h
  obtain ⟨pick', before, after, hpick, hsplit, htakes⟩ := s.select_takes weights hq
  cases h.symm.trans hpick
  exact ⟨before, after, hsplit, htakes⟩

/-- A clause is selected from the queue and leaves it. -/
theorem select_eq_some (h : s.select weights queue = some pick) :
    pick.id ∈ queue ∧ pick.queue = queue.erase pick.id := by
  constructor
  · obtain ⟨before, after, rfl, -⟩ := takes_of_select h
    simp
  · cases queue with
    | nil => cases h
    | cons oldest rest =>
      cases h
      rfl

theorem select_eq_none (h : s.select weights queue = none) : queue = [] := by
  by_contra hq
  obtain ⟨pick, _, _, hpick, -⟩ := s.select_takes weights hq
  cases h.symm.trans hpick

/-! ## Turns -/

/-- How many selections there are up to the next one by age, that one included. -/
def untilAge (s : Selector) : Nat := s.ratio - s.picks % s.ratio

theorem untilAge_le (s : Selector) : s.untilAge ≤ s.ratio := Nat.sub_le ..

theorem untilAge_pos (h : 0 < s.ratio) : 0 < s.untilAge := Nat.sub_pos_of_lt (Nat.mod_lt _ h)

/-- Each selection brings the next one by age nearer, and after that one the interval starts again. -/
theorem Takes.untilAge_eq (h : s.Takes weights before after pick) (hratio : 0 < s.ratio) :
    (s.ByAge ∧ s.untilAge = 1 ∧ pick.selector.untilAge = s.ratio) ∨
      (¬s.ByAge ∧ s.untilAge = pick.selector.untilAge + 1) := by
  have hlt := Nat.mod_lt s.picks hratio
  have hmod : (s.picks % s.ratio + 1) % s.ratio = (s.picks + 1) % s.ratio := Nat.mod_add_mod ..
  rw [h.selector_eq]
  simp only [ByAge, untilAge]
  rcases (Nat.succ_le_of_lt hlt).lt_or_eq with hlater | hnow
  · rw [Nat.mod_eq_of_lt hlater] at hmod
    refine .inr ⟨fun hage => ?_, ?_⟩ <;> omega
  · rw [show s.picks % s.ratio + 1 = s.ratio from hnow, Nat.mod_self] at hmod
    refine .inl ⟨⟨hratio, hmod.symm⟩, ?_, ?_⟩ <;> omega

/-- A selection takes the clause at a place, or leaves it at that place or further to the front. If it
goes by age the clause moves. -/
theorem Takes.progress (h : s.Takes weights before after pick)
    (hp : (before ++ pick.id :: after)[p]? = some id) :
    pick.id = id ∨ ∃ p' ≤ p, pick.queue[p']? = some id ∧ (s.ByAge → p' < p) := by
  rw [h.queue_eq]
  rcases lt_trichotomy p before.length with hlt | rfl | hgt
  · refine .inr ⟨p, le_rfl, ?_, fun hage => ?_⟩
    · rwa [List.getElem?_append_left hlt] at hp ⊢
    · rw [h.oldest hage] at hlt
      exact absurd hlt (Nat.not_lt_zero p)
  · left
    simpa using hp
  · obtain ⟨n, rfl⟩ := Nat.exists_eq_add_of_lt hgt
    refine .inr ⟨before.length + n, by omega, ?_, fun _ => by omega⟩
    rw [List.getElem?_append_right (by omega), show before.length + n + 1 - before.length = n + 1 by omega,
      List.getElem?_cons_succ] at hp
    rwa [List.getElem?_append_right (by omega), Nat.add_sub_cancel_left]

/-! ## Sequences of selections -/

/-- What happens to a queue. -/
inductive Event where
  /-- A clause goes to the end, unless it waits already. -/
  | add (id : Nat)
  /-- A clause is selected. -/
  | select (weights : Array Nat)

/-- The queue with a clause at its end, unless it waits already. -/
def enqueue (queue : List Nat) (id : Nat) : List Nat := if id ∈ queue then queue else queue ++ [id]

/-- What the selections among the events return, in order. -/
def results : List Event → Selector → List Nat → List (Option Nat)
  | [], _, _ => []
  | .add id :: es, s, queue => results es s (enqueue queue id)
  | .select weights :: es, s, queue =>
    match s.select weights queue with
    | none => none :: results es s queue
    | some pick => some pick.id :: results es pick.selector pick.queue

/-- What is queued comes behind the clauses that wait. -/
theorem getElem?_enqueue {new : Nat} (hp : queue[p]? = some id) : (enqueue queue new)[p]? = some id := by
  unfold enqueue
  split
  · exact hp
  · rwa [List.getElem?_append_left (List.getElem?_eq_some_iff.mp hp).1]

/-- A clause with `p` others before it is selected by the time of the next selection by age and `p` more
of them. -/
theorem results_of_waiting {es : List Event} (hratio : 0 < s.ratio) (hp : queue[p]? = some id)
    (hlen : s.untilAge + s.ratio * p ≤ (results es s queue).length) :
    ∃ n < s.untilAge + s.ratio * p, (results es s queue)[n]? = some (some id) := by
  induction es generalizing s queue p with
  | nil =>
    have hpos := untilAge_pos hratio
    simp only [results, List.length_nil] at hlen
    omega
  | cons e es ih =>
    cases e with
    | add new => exact ih hratio (getElem?_enqueue hp) hlen
    | select weights =>
      have hq : queue ≠ [] := by
        rintro rfl
        cases hp
      obtain ⟨pick, before, after, hpick, hsplit, htakes⟩ := s.select_takes weights hq
      simp only [results, hpick, List.length_cons] at hlen ⊢
      have hpos := untilAge_pos hratio
      rw [hsplit] at hp
      rcases htakes.progress hp with rfl | ⟨p', hle, hp', hage⟩
      · exact ⟨0, by omega, rfl⟩
      · -- One selection is over, and the clause has no longer to wait than one selection less.
        have hratio' : pick.selector.ratio = s.ratio := by rw [htakes.selector_eq]
        have hwait : pick.selector.untilAge + pick.selector.ratio * p' + 1 ≤ s.untilAge + s.ratio * p := by
          rw [hratio']
          rcases htakes.untilAge_eq hratio with ⟨hby, hnow, hnext⟩ | ⟨-, hnext⟩
          · have hless := Nat.mul_le_mul_left s.ratio (Nat.succ_le_of_lt (hage hby))
            rw [Nat.mul_succ] at hless
            omega
          · have hless := Nat.mul_le_mul_left s.ratio hle
            omega
        obtain ⟨n, hn, hget⟩ := ih (hratio'.symm ▸ hratio) hp' (by omega)
        exact ⟨n + 1, by omega, hget⟩

/-- Every selection from a queue takes one clause, the oldest or the first of the lightest, and leaves
the others in their order. With a ratio above zero a clause with `p` others before it is among the first
`ratio * (p + 1)` that are selected, whatever the weights are and whatever is queued meanwhile. -/
theorem every_turn_comes (s : Selector) :
    (∀ weights queue, queue ≠ [] → ∃ pick before after, s.select weights queue = some pick ∧
      queue = before ++ pick.id :: after ∧ s.Takes weights before after pick) ∧
    (0 < s.ratio → ∀ es queue p id, queue[p]? = some id →
      s.ratio * (p + 1) ≤ (results es s queue).length →
      ∃ n < s.ratio * (p + 1), (results es s queue)[n]? = some (some id)) := by
  refine ⟨fun weights queue => s.select_takes weights, fun hratio es queue p id hp hlen => ?_⟩
  have hle : s.untilAge + s.ratio * p ≤ s.ratio * (p + 1) := by
    rw [Nat.mul_succ, Nat.add_comm]
    exact Nat.add_le_add_left s.untilAge_le _
  obtain ⟨n, hn, hget⟩ := results_of_waiting hratio hp (hle.trans hlen)
  exact ⟨n, hn.trans_le hle, hget⟩

/-- A lighter clause is queued before each of six selections. -/
def crowded : List Event :=
  (List.range 6).flatMap fun i => [.add (i + 2), .select #[9, 8, 1, 1, 1, 1, 1, 1]]

/-- Clause 1 is heavy and comes second. Of three selections one goes by age, so it is among the first
six that are selected. -/
theorem crowded_turn_comes :
    results crowded ⟨3, 4⟩ [0, 1] = [some 2, some 0, some 3, some 4, some 1, some 5] ∧
      (∃ pick before after, (⟨3, 4⟩ : Selector).select #[9, 8] [0, 1] = some pick ∧
        [0, 1] = before ++ pick.id :: after ∧ (⟨3, 4⟩ : Selector).Takes #[9, 8] before after pick) ∧
      ∃ n < 6, (results crowded ⟨3, 4⟩ [0, 1])[n]? = some (some 1) := by
  have hresults : results crowded ⟨3, 4⟩ [0, 1] = [some 2, some 0, some 3, some 4, some 1, some 5] := by
    decide
  obtain ⟨htakes, hturn⟩ := every_turn_comes ⟨3, 4⟩
  refine ⟨hresults, htakes _ _ (by decide), hturn (by decide) crowded [0, 1] 1 1 rfl ?_⟩
  rw [hresults]
  decide

end Selector

end Refutation
