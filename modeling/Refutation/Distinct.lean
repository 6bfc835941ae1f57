/-!
# Lists without repetitions

A finite set whose order can be seen is a list without repetitions, in order of first
occurrence: `List.eraseDups` builds it.

* `nodup_eraseDups`: the result has no repetitions.
* `eraseDups_eq_self`: a list without repetitions stays as it is.
* `eraseDups_map_eraseDups`: repetitions may be dropped before a map or after it.
* `eraseDups_append_eraseDups`, `eraseDups_append_of_nodup`: what a list adds to one in front of it.
* `mem_of_mem_eraseDupsBy`, `exists_mem_eraseDupsBy`, `pairwise_eraseDupsBy`: where items count as
  repetitions by a relation of their own, what is left stood in the list, stands for all of it and
  holds no repetition.
-/

namespace Refutation

variable {α : Type} [DecidableEq α]

/-- Keeping first occurrences leaves no repetition. -/
theorem nodup_eraseDups (xs : List α) : xs.eraseDups.Nodup := by
  match xs with
  | [] => simp
  | a :: as =>
    rw [List.eraseDups_cons, List.nodup_cons]
    refine ⟨fun h => ?_, nodup_eraseDups (as.filter fun b => !b == a)⟩
    simpa using List.mem_eraseDups.mp h
termination_by xs.length
decreasing_by exact Nat.lt_succ_of_le (List.length_filter_le _ _)

/-- A list without repetitions has nothing to lose. -/
theorem eraseDups_eq_self {xs : List α} (h : xs.Nodup) : xs.eraseDups = xs := by
  induction xs with
  | nil => simp
  | cons a as ih =>
    have hd := List.nodup_cons.mp h
    have hf : as.filter (fun b => !b == a) = as := by
      refine List.filter_eq_self.mpr fun b hb => ?_
      have : b ≠ a := fun e => hd.1 (e ▸ hb)
      simpa using this
    rw [List.eraseDups_cons, hf, ih hd.2]

/-- Of the items that are kept, those that pass are the ones kept of those that pass. -/
theorem eraseDups_filter (p : α → Bool) (xs : List α) :
    (xs.filter p).eraseDups = xs.eraseDups.filter p := by
  match xs with
  | [] => simp
  | a :: as =>
    have ih := eraseDups_filter p (as.filter fun b => !b == a)
    rw [List.eraseDups_cons, List.filter_cons, List.filter_cons]
    cases hp : p a with
    | true =>
      have hcomm : (as.filter p).filter (fun b => !b == a) = (as.filter fun b => !b == a).filter p := by
        simp only [List.filter_filter, Bool.and_comm]
      rw [if_pos rfl, if_pos rfl, List.eraseDups_cons, ← ih, hcomm]
    | false =>
      have hf : (as.filter fun b => !b == a).filter p = as.filter p := by
        rw [List.filter_filter]
        refine List.filter_congr fun b _ => ?_
        by_cases hb : b = a
        · simp [hb, hp]
        · simp [hb]
      rw [if_neg (by simp), if_neg (by simp), ← ih, hf]
termination_by xs.length
decreasing_by exact Nat.lt_succ_of_le (List.length_filter_le _ _)

/-- Repetitions in front may be dropped before a list is appended or after it. -/
theorem eraseDups_append_eraseDups (xs ys : List α) :
    (xs.eraseDups ++ ys).eraseDups = (xs ++ ys).eraseDups := by
  have hremove : ys.removeAll xs.eraseDups = ys.removeAll xs := List.filter_congr fun y _ => by simp
  rw [List.eraseDups_append, List.eraseDups_append, eraseDups_eq_self (nodup_eraseDups xs), hremove]

/-- After a list without repetitions comes what it does not hold yet, in order of first occurrence. -/
theorem eraseDups_append_of_nodup {xs : List α} (h : xs.Nodup) (ys : List α) :
    (xs ++ ys).eraseDups = xs ++ ys.eraseDups.filter (· ∉ xs) := by
  rw [List.eraseDups_append, eraseDups_eq_self h, List.removeAll, eraseDups_filter]
  simp

/-- What repeats an earlier item repeats it still when both are mapped. -/
theorem eraseDups_map_eraseDups {β : Type} [DecidableEq β] (f : α → β) (xs : List α) :
    (xs.eraseDups.map f).eraseDups = (xs.map f).eraseDups := by
  match xs with
  | [] => simp
  | a :: as =>
    have hmap : ∀ ys : List α, (ys.map f).filter (fun b => !b == f a) =
        (ys.filter fun b => !f b == f a).map f := fun ys => by rw [List.filter_map]; rfl
    have hfilter : (as.filter fun b => !b == a).filter (fun b => !f b == f a) =
        as.filter fun b => !f b == f a := by
      rw [List.filter_filter]
      refine List.filter_congr fun b _ => ?_
      by_cases hb : b = a
      · simp [hb]
      · simp [hb]
    have ih := eraseDups_map_eraseDups f (as.filter fun b => !f b == f a)
    rw [List.eraseDups_cons, List.map_cons, List.map_cons, List.eraseDups_cons, List.eraseDups_cons,
      hmap, hmap, ← eraseDups_filter, hfilter, ih]
termination_by xs.length
decreasing_by exact Nat.lt_succ_of_le (List.length_filter_le _ _)

section By

variable {α : Type} {r : α → α → Bool}

theorem mem_of_mem_eraseDupsBy {xs : List α} {a : α} (h : a ∈ xs.eraseDupsBy r) : a ∈ xs := by
  match xs with
  | [] => simp at h
  | b :: bs =>
    rw [List.eraseDupsBy_cons, List.mem_cons] at h
    rcases h with rfl | h
    · exact List.mem_cons_self
    · exact List.mem_cons_of_mem _ (List.mem_filter.mp (mem_of_mem_eraseDupsBy h)).1
termination_by xs.length
decreasing_by exact Nat.lt_succ_of_le (List.length_filter_le _ _)

/-- What is dropped repeats something that is kept. -/
theorem exists_mem_eraseDupsBy {xs : List α} {a : α} (h : a ∈ xs) :
    ∃ b ∈ xs.eraseDupsBy r, a = b ∨ r a b = true := by
  match xs with
  | [] => simp at h
  | c :: cs =>
    rw [List.eraseDupsBy_cons]
    rcases List.mem_cons.mp h with rfl | h
    · exact ⟨a, List.mem_cons_self, .inl rfl⟩
    · cases hr : r a c with
      | true => exact ⟨c, List.mem_cons_self, .inr hr⟩
      | false =>
        have hf : a ∈ cs.filter fun b => r b c = false := List.mem_filter.mpr ⟨h, by simp [hr]⟩
        obtain ⟨b, hb, hab⟩ := exists_mem_eraseDupsBy hf
        exact ⟨b, List.mem_cons_of_mem _ hb, hab⟩
termination_by xs.length
decreasing_by exact Nat.lt_succ_of_le (List.length_filter_le _ _)

/-- Nothing that is kept repeats an earlier item. -/
theorem pairwise_eraseDupsBy (xs : List α) : (xs.eraseDupsBy r).Pairwise fun a b => r b a = false := by
  match xs with
  | [] => simp
  | c :: cs =>
    rw [List.eraseDupsBy_cons, List.pairwise_cons]
    refine ⟨fun b hb => ?_, pairwise_eraseDupsBy _⟩
    simpa using (List.mem_filter.mp (mem_of_mem_eraseDupsBy hb)).2
termination_by xs.length
decreasing_by exact Nat.lt_succ_of_le (List.length_filter_le _ _)

end By

end Refutation
