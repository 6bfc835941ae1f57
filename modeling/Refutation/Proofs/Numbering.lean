import Refutation.Proofs.Check

/-!
# The numbering of a proof

The steps of a proof are visited from its root downwards, and a step is listed once all that it cites
is. Steps are told apart by their place in the derivation and not by what they state, so a step that is
cited along many paths is listed once, and two steps that look alike are listed both. The lines of the
proof number the list, and cite by these numbers.

* `Derivation.Cites`, `Derivation.Reaches`: a step names another as a premise, or gets to it by way of
  premises.
* `Derivation.Lists`: a list of steps grows by one step after the other, each new and after its premises.
* `Derivation.visit_lists`: visiting a step makes a list grow so, by steps that it reaches.
* `Derivation.Topological`: a list of what the root reaches, once each, premises first and the root last.
* `Proof.numbering_topological`: the order of a proof is such a list, and every line has its place as
  number and cites smaller ones.
-/

namespace Refutation

namespace Derivation

variable {d : Derivation} {P Q : Nat → Prop} {order order' order'' : List Nat} {i j : Nat}

/-! ## Reaching -/

/-- The first step names the second among its premises. -/
def Cites (d : Derivation) (i j : Nat) : Prop := ∃ s, d.steps[i]? = some s ∧ j ∈ s.premises

/-- The second step is the first, or is got to from there by way of premises. -/
def Reaches (d : Derivation) : Nat → Nat → Prop := Relation.ReflTransGen d.Cites

theorem cites_iff (hi : i < d.steps.size) : d.Cites i j ↔ j ∈ d.steps[i].premises := by
  simp [Cites, Array.getElem?_eq_getElem hi]

theorem Cites.lt (h : d.Cites i j) : j < i := by
  obtain ⟨s, hs, hj⟩ := h
  obtain ⟨hi, rfl⟩ := Array.getElem?_eq_some_iff.mp hs
  exact d.earlier i hi j hj

theorem Reaches.le (h : d.Reaches i j) : j ≤ i := by
  induction h with
  | refl => exact Nat.le_refl i
  | tail _ hc ih => exact Nat.le_trans (Nat.le_of_lt hc.lt) ih

theorem Closed.reaches (ho : d.Closed order) (hi : i ∈ order) (h : d.Reaches i j) : j ∈ order := by
  induction h with
  | refl => exact hi
  | tail _ hc ih =>
    obtain ⟨hlt, hprem⟩ := ho _ ih
    exact hprem _ ((cites_iff hlt).mp hc)

/-! ## Listing -/

/-- A list of steps becomes another one step after the other: each step that is added is there, has
the property, is not in the list yet, and cites only what is. -/
inductive Lists (d : Derivation) (P : Nat → Prop) (order : List Nat) : List Nat → Prop
  | refl : Lists d P order order
  | snoc {order' : List Nat} {i : Nat} (h : Lists d P order order') (hi : i < d.size) (hP : P i)
      (hnew : i ∉ order') (hcited : ∀ j, d.Cites i j → j ∈ order') : Lists d P order (order' ++ [i])

namespace Lists

theorem trans (h : d.Lists P order order') (h' : d.Lists P order' order'') : d.Lists P order order'' := by
  induction h' with
  | refl => exact h
  | snoc _ hi hP hnew hcited ih => exact .snoc ih hi hP hnew hcited

theorem imp (h : d.Lists P order order') (hPQ : ∀ i, P i → Q i) : d.Lists Q order order' := by
  induction h with
  | refl => exact .refl
  | snoc _ hi hP hnew hcited ih => exact .snoc ih hi (hPQ _ hP) hnew hcited

theorem subset (h : d.Lists P order order') : order ⊆ order' := by
  induction h with
  | refl => exact fun _ hj => hj
  | snoc _ _ _ _ _ ih => exact fun _ hj => List.mem_append_left _ (ih hj)

theorem mem (h : d.Lists P order order') (hj : j ∈ order') : j ∈ order ∨ (j < d.size ∧ P j) := by
  induction h with
  | refl => exact .inl hj
  | snoc _ hi hP _ _ ih =>
    rcases List.mem_append.mp hj with hj | hj
    · exact ih hj
    · cases List.mem_singleton.mp hj
      exact .inr ⟨hi, hP⟩

theorem nodup (h : d.Lists P order order') (ho : order.Nodup) : order'.Nodup := by
  induction h with
  | refl => exact ho
  | snoc _ _ _ hnew _ ih => exact List.nodup_append.mpr ⟨ih, List.nodup_singleton _, by grind⟩

/-- What a listed step cites stands before it. -/
theorem before (h : d.Lists P [] order) {k : Nat} (hk : order[k]? = some i) (hc : d.Cites i j) :
    ∃ m < k, order[m]? = some j := by
  induction h with
  | refl => simp at hk
  | @snoc order i' _ _ _ _ hcited ih =>
    rcases Nat.lt_trichotomy k order.length with hlt | rfl | hgt
    · rw [List.getElem?_append_left hlt] at hk
      obtain ⟨m, hm, hj⟩ := ih hk
      exact ⟨m, hm, by rwa [List.getElem?_append_left (Nat.lt_trans hm hlt)]⟩
    · simp only [List.getElem?_concat_length, Option.some.injEq] at hk
      subst hk
      obtain ⟨m, hm, rfl⟩ := List.mem_iff_getElem.mp (hcited j hc)
      exact ⟨m, hm, by rw [List.getElem?_append_left hm, List.getElem?_eq_getElem hm]⟩
    · rw [List.getElem?_eq_none (by simpa using hgt)] at hk
      cases hk

end Lists

/-! ## Visiting -/

theorem visit_of_mem (hi : i ∈ order) : d.visit i order = order := by
  rw [visit, if_pos hi]

/-- A step that is not listed comes right after its premises were visited from left to right. -/
theorem visit_of_new (hi : i < d.steps.size) (hnew : i ∉ order) : d.visit i order =
    d.steps[i].premises.foldl (fun order p => d.visit p order) order ++ [i] := by
  rw [visit, if_neg hnew, dif_pos hi, List.foldl_attach (f := fun order p => d.visit p order)]

theorem foldl_visit_lists {ps : List Nat}
    (hps : ∀ p ∈ ps, ∀ order, d.Lists P order (d.visit p order) ∧ p ∈ d.visit p order)
    (order : List Nat) : d.Lists P order (ps.foldl (fun order p => d.visit p order) order) ∧
      ∀ p ∈ ps, p ∈ ps.foldl (fun order p => d.visit p order) order := by
  induction ps generalizing order with
  | nil => exact ⟨.refl, nofun⟩
  | cons p ps ih =>
    rw [List.forall_mem_cons] at hps
    obtain ⟨hp, hmem⟩ := hps.1 order
    obtain ⟨hrest, hall⟩ := ih hps.2 (d.visit p order)
    exact ⟨hp.trans hrest, List.forall_mem_cons.mpr ⟨hrest.subset hmem, hall⟩⟩

/-- Visiting a step lists it, by way of steps that it reaches. -/
theorem visit_lists (d : Derivation) {i : Nat} (hi : i < d.size) (order : List Nat) :
    d.Lists (d.Reaches i) order (d.visit i order) ∧ i ∈ d.visit i order := by
  induction i using Nat.strong_induction_on generalizing order with
  | _ i ih =>
    by_cases hmem : i ∈ order
    · rw [visit_of_mem hmem]
      exact ⟨.refl, hmem⟩
    · rw [visit_of_new hi hmem]
      have hcited : ∀ p ∈ d.steps[i].premises, d.Cites i p := fun p hp => (cites_iff hi).mpr hp
      -- All that the premises list is reached from one of them, so it stands before the step.
      obtain ⟨hlists, hall⟩ := foldl_visit_lists (P := fun j => ∃ p, d.Cites i p ∧ d.Reaches p j)
        (fun p hp order =>
          have hlt := (hcited p hp).lt
          have ⟨hl, hin⟩ := ih p hlt (Nat.lt_trans hlt hi) order
          ⟨hl.imp fun j hj => ⟨p, hcited p hp, hj⟩, hin⟩) order
      have hnew : i ∉ d.steps[i].premises.foldl (fun order p => d.visit p order) order := by
        intro hin
        rcases hlists.mem hin with hin | ⟨-, p, hp, hreach⟩
        · exact hmem hin
        · exact absurd (Nat.lt_of_le_of_lt hreach.le hp.lt) (Nat.lt_irrefl i)
      have hreached := hlists.imp fun j ⟨p, hp, hreach⟩ => Relation.ReflTransGen.head hp hreach
      refine ⟨.snoc hreached hi .refl hnew fun j hj => ?_, by simp⟩
      exact hall j ((cites_iff hi).mp hj)

theorem order_lists (d : Derivation) {root : Nat} (h : root < d.size) :
    d.Lists (d.Reaches root) [] (d.order root) := (d.visit_lists h []).1

/-- The list holds the steps that the root reaches: each once, after those it cites, and the root
last. -/
structure Topological (d : Derivation) (root : Nat) (order : List Nat) : Prop where
  nodup : order.Nodup
  mem_iff : ∀ i, i ∈ order ↔ d.Reaches root i
  before : ∀ k i : Nat, order[k]? = some i → ∀ j, d.Cites i j → ∃ m < k, order[m]? = some j
  last : order.getLast? = some root

theorem order_topological (d : Derivation) {root : Nat} (h : root < d.size) :
    d.Topological root (d.order root) where
  nodup := (d.order_lists h).nodup List.nodup_nil
  mem_iff i := by
    obtain ⟨hroot, hclosed⟩ := d.order_closed h
    refine ⟨fun hi => ?_, hclosed.reaches hroot⟩
    rcases (d.order_lists h).mem hi with hi | ⟨-, hi⟩
    · cases hi
    · exact hi
  before _ _ hk _ hc := (d.order_lists h).before hk hc
  last := by rw [order, visit_of_new h List.not_mem_nil, List.getLast?_concat]

end Derivation

/-! ## Lines -/

/-- A list from which nothing is left out goes along with what becomes of it. -/
theorem forall₂_filterMap {α β : Type*} {f : α → Option β} {xs : List α}
    (h : ∀ x ∈ xs, (f x).isSome = true) : List.Forall₂ (fun x y => f x = some y) xs (xs.filterMap f) := by
  induction xs with
  | nil => exact .nil
  | cons x xs ih =>
    rw [List.forall_mem_cons] at h
    obtain ⟨y, hy⟩ := Option.isSome_iff_exists.mp h.1
    rw [List.filterMap_cons_some hy]
    exact .cons hy (ih h.2)

namespace Proof

variable {p : Proof} {i k : Nat} {line : ProofLine}

/-- The steps of a proof are those of its order, one by one. -/
theorem order_steps (p : Proof) :
    List.Forall₂ (fun i s => p.derivation.steps[i]? = some s) p.order p.steps := by
  refine forall₂_filterMap fun i hi => ?_
  rcases (p.derivation.order_lists p.rooted).mem hi with hi | ⟨hi, -⟩
  · cases hi
  · rw [Array.getElem?_eq_getElem (show i < p.derivation.steps.size from hi), Option.isSome_some]

theorem getElem?_lines (hk : p.lines[k]? = some line) : ∃ s, p.steps[k]? = some s ∧
    line = ⟨k + 1, s, s.premises.filterMap fun q => (p.order.idxOf? q).map (· + 1)⟩ := by
  simp only [lines, List.getElem?_map, List.getElem?_zipIdx, Option.map_map, Option.map_eq_some_iff,
    Function.comp_apply, Nat.zero_add] at hk
  obtain ⟨s, hs, rfl⟩ := hk
  exact ⟨s, hs, rfl⟩

/-- The number by which a step is cited is that of its line, which stands before. -/
theorem cited_number {q n : Nat} (hm : ∃ m < k, p.order[m]? = some q)
    (hn : (p.order.idxOf? q).map (· + 1) = some n) : 0 < n ∧ n ≤ k ∧ p.order[n - 1]? = some q := by
  obtain ⟨m, hm, hq⟩ := hm
  obtain ⟨j, hj, rfl⟩ := Option.map_eq_some_iff.mp hn
  obtain ⟨hlt, hjq, hfirst⟩ := List.idxOf?_eq_some_iff.mp hj
  obtain ⟨hml, hmq⟩ := List.getElem?_eq_some_iff.mp hq
  have hjm : j ≤ m := Nat.le_of_not_lt fun h => hfirst m h hmq
  refine ⟨Nat.succ_pos j, by omega, ?_⟩
  rw [Nat.add_sub_cancel, List.getElem?_eq_getElem hlt, hjq]

/-- A line cites one number for each premise of its step, in their order. -/
theorem cited_numbers {s : Step} (hi : p.order[k]? = some i) (hs : p.derivation.steps[i]? = some s) :
    List.Forall₂ (fun q n => 0 < n ∧ n ≤ k ∧ p.order[n - 1]? = some q) s.premises
      (s.premises.filterMap fun q => (p.order.idxOf? q).map (· + 1)) := by
  have hbefore : ∀ q ∈ s.premises, ∃ m < k, p.order[m]? = some q := fun q hq =>
    (p.derivation.order_lists p.rooted).before hi ⟨s, hs, hq⟩
  have hsome : ∀ q ∈ s.premises, ((p.order.idxOf? q).map (· + 1)).isSome = true := by
    intro q hq
    obtain ⟨m, -, hm⟩ := hbefore q hq
    rw [Option.isSome_map, List.isSome_idxOf?]
    exact List.mem_of_getElem? hm
  have hnumbers := forall₂_filterMap hsome
  rw [List.forall₂_iff_get] at hnumbers ⊢
  refine ⟨hnumbers.1, fun m h h' => ?_⟩
  exact cited_number (hbefore _ (List.get_mem _ _)) (hnumbers.2 m h h')

/-- The order of a proof lists the steps that its root reaches, each once and after its premises, with
the root last. The lines are these steps, numbered from 1, and each cites one number for each premise
of its step, in their order: a smaller one, of the line where the premise stands. -/
theorem numbering_topological (p : Proof) :
    p.derivation.Topological p.root p.order ∧
    List.Forall₂ (fun i s => p.derivation.steps[i]? = some s) p.order p.steps ∧
    p.lines.map ProofLine.step = p.steps ∧
    ∀ (k : Nat) (line : ProofLine), p.lines[k]? = some line → line.number = k + 1 ∧
      List.Forall₂ (fun q n => 0 < n ∧ n < line.number ∧ p.order[n - 1]? = some q) line.step.premises
        line.premises := by
  refine ⟨p.derivation.order_topological p.rooted, p.order_steps, ?_, fun k line hk => ?_⟩
  · rw [lines, List.map_map]
    exact List.zipIdx_map_fst 0 p.steps
  · obtain ⟨s, hs, rfl⟩ := getElem?_lines hk
    obtain ⟨hlen, hget⟩ := List.forall₂_iff_get.mp p.order_steps
    obtain ⟨hlt, rfl⟩ := List.getElem?_eq_some_iff.mp hs
    have hlt' : k < p.order.length := hlen ▸ hlt
    refine ⟨rfl, (cited_numbers (List.getElem?_eq_getElem hlt') (hget k hlt' hlt)).imp ?_⟩
    rintro q n ⟨hpos, hle, hq⟩
    exact ⟨hpos, Nat.lt_succ_of_le hle, hq⟩

-- Two premises that look alike are two lines, and a step that cites one of them twice says so.
example :
    let d := (Derivation.empty.input .empty .premise).input .empty .premise
    let p : Proof := ⟨d.push ⟨.empty, .goal, [1, 0, 1]⟩ (by decide), 2, by decide, .empty, []⟩
    p.order = [1, 0, 2] ∧ p.lines.map ProofLine.premises = [[], [], [1, 2, 1]] := by
  decide +kernel

end Proof

end Refutation
