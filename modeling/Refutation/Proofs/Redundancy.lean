import Refutation.Search.State
import Refutation.Proofs.Subsumption

/-!
# Redundant clauses

The test for subsumption counts the literals of each sign before it looks for an instance. An instance
may have fewer literals than the clause, so that a clause with no more literals than another, and an
instance in it, may still be turned away: `P(x) | P(y)` does not subsume `P(A) | ~Q`.

A list of clauses is reduced by marking what its clauses subsume, smaller ones first. A clause that has
marked others may be marked itself later on, but then whatever it marked is subsumed by the clause that
marks it.

* `Clause.subsumes_of_instance`, `Clause.merging_not_subsumes`: what is turned away.
* `Marking`: what holds after some clauses have had their turn, and `Marking.take`: the turn of one more.
* `subsumedIndices_exact`: what is marked in the end.
* `Search.exists_mem_reduce`: what stays of a list subsumes all of it.
-/

namespace Refutation

/-! ## Counting by sign -/

namespace Clause

variable {c d : Clause} {σ : Substitution}

/-- A clause whose literals stay different has as many of either sign as its instance. -/
theorem length_filter_subst (h : ∀ l ∈ c, ∀ m ∈ c, l.subst σ = m.subst σ → l = m) {p : Literal → Bool}
    (hp : ∀ l : Literal, p (l.subst σ) = p l) :
    ((c.subst σ).literals.filter p).length = (c.literals.filter p).length := by
  rw [literals_subst h, List.filter_map, List.length_map]
  exact congrArg (fun q => (c.literals.filter q).length) (funext hp)

/-- A clause is turned away although it has an instance in another and no more literals only if the
instance collapses literals and the other has literals of both signs. The instance is never turned
away. -/
theorem subsumes_of_instance (hsize : c.size ≤ d.size) (hσ : ∀ l ∈ c.subst σ, l ∈ d) :
    (c.subsumes d = true ↔ c.positives.length ≤ d.positives.length ∧
      c.negatives.length ≤ d.negatives.length) ∧
    (c.subsumes d = false → (∃ l ∈ c, ∃ m ∈ c, l ≠ m ∧ l.subst σ = m.subst σ) ∧
      d.positives ≠ [] ∧ d.negatives ≠ []) ∧
    (c.subst σ).subsumes d = true := by
  have hinst : (c.subst σ).Subsumes d := subsumes_of_subset hσ
  have hiff : c.subsumes d = true ↔ c.positives.length ≤ d.positives.length ∧
      c.negatives.length ≤ d.negatives.length := by
    rw [subsumes_iff]
    refine ⟨fun h => ⟨h.positives, h.negatives⟩, fun h => ⟨h.1, h.2, σ.image, fun l hl => ?_⟩⟩
    rw [← Literal.subst_eq_inst]
    exact hσ _ (mem_subst.mpr ⟨l, hl, rfl⟩)
  refine ⟨hiff, fun hno => ⟨?_, ?_⟩, subsumes_iff.mpr hinst⟩
  · by_contra hcollapse
    push Not at hcollapse
    have hinj : ∀ l ∈ c, ∀ m ∈ c, l.subst σ = m.subst σ → l = m := fun l hl m hm he =>
      by_contra fun hne => hcollapse l hl m hm hne he
    have hpos : (c.subst σ).positives.length = c.positives.length :=
      length_filter_subst hinj fun _ => rfl
    have hneg : (c.subst σ).negatives.length = c.negatives.length :=
      length_filter_subst hinj fun _ => rfl
    have hyes := hiff.mpr ⟨hpos ▸ hinst.positives, hneg ▸ hinst.negatives⟩
    exact absurd hyes (by simp [hno])
  · -- What is too many of one sign is too few of the other.
    have hmem : ∀ p : Literal → Bool, (∀ l : Literal, p (l.subst σ) = p l) →
        c.literals.filter p ≠ [] → d.literals.filter p ≠ [] := by
      intro p hp hne
      obtain ⟨l, hl⟩ := List.exists_mem_of_ne_nil _ hne
      rw [List.mem_filter] at hl
      refine List.ne_nil_of_mem (List.mem_filter.mpr ⟨hσ _ (mem_subst.mpr ⟨l, hl.1, rfl⟩), ?_⟩)
      rw [hp, hl.2]
    have hcounts : ¬(c.positives.length ≤ d.positives.length ∧
        c.negatives.length ≤ d.negatives.length) := by
      rw [← hiff, hno]
      decide
    rw [size_eq, size_eq] at hsize
    rw [not_and_or, Nat.not_le, Nat.not_le] at hcounts
    rcases hcounts with hpos | hneg
    · have hc : c.positives ≠ [] := List.ne_nil_of_length_pos (by omega)
      exact ⟨hmem _ (fun _ => rfl) hc, List.ne_nil_of_length_pos (by omega)⟩
    · have hc : c.negatives ≠ [] := List.ne_nil_of_length_pos (by omega)
      exact ⟨List.ne_nil_of_length_pos (by omega), hmem _ (fun _ => rfl) hc⟩

/-- `P(x) | P(y)`. -/
def merging : Clause := .ofList [.pos (.pred "P" [.var ⟨"x"⟩]), .pos (.pred "P" [.var ⟨"y"⟩])]

/-- Both variables become `A`. -/
def toA : Substitution := .ofList [(⟨"x"⟩, .const "A"), (⟨"y"⟩, .const "A")]

/-- `P(A) | ~Q`. -/
def mixed : Clause := .ofList [.pos (.pred "P" [.const "A"]), .neg (.pred "Q" [])]

/-- `P(A) | R | ~Q`. -/
def widened : Clause := .ofList [.pos (.pred "P" [.const "A"]), .pos (.pred "R" []), .neg (.pred "Q" [])]

theorem merging_widened :
    merging.size ≤ widened.size ∧ (∀ l ∈ merging.subst toA, l ∈ widened) ∧
    merging.subsumes widened = true ∧ (merging.subst toA).subsumes widened = true := by
  have hsize : merging.size ≤ widened.size := by decide
  have hσ : ∀ l ∈ merging.subst toA, l ∈ widened := by decide
  obtain ⟨hiff, -, hinst⟩ := subsumes_of_instance hsize hσ
  exact ⟨hsize, hσ, hiff.mpr (by decide), hinst⟩

/-- Two positive literals do not go into one, although there are two literals in all. -/
theorem merging_not_subsumes :
    merging.size ≤ mixed.size ∧ (∀ l ∈ merging.subst toA, l ∈ mixed) ∧
      merging.subsumes mixed = false := by
  refine ⟨by decide, by decide, by decide⟩

end Clause

/-! ## Marking -/

/-- A clause comes before another if it is smaller, or of the same size and earlier in the list. -/
def Indexed.Before (a b : Indexed) : Prop :=
  a.clause.size < b.clause.size ∨ (a.clause.size = b.clause.size ∧ a.index < b.index)

/-- The clause stands at its place in the list. -/
def Indexed.In (cs : List Clause) (c : Indexed) : Prop := cs[c.index]? = some c.clause

theorem Indexed.In.clause_eq {cs : List Clause} {c d : Indexed} (hc : c.In cs) (hd : d.In cs)
    (h : c.index = d.index) : c.clause = d.clause := by
  rw [Indexed.In, h] at hc
  exact Option.some.inj (hc.symm.trans hd)

section MarkSubsumedBy

variable {c : Indexed} {others : List Indexed} {marked : List Nat}

/-- A clause marks what it subsumes, and what was marked stays so. -/
theorem mem_markSubsumedBy {i : Nat} : i ∈ markSubsumedBy c others marked ↔
    i ∈ marked ∨ c.index ≠ i ∧ ∃ d ∈ others, d.index = i ∧ c.clause.Subsumes d.clause := by
  unfold markSubsumedBy
  induction others generalizing marked with
  | nil => simp
  | cons d others ih =>
    rw [List.foldl_cons, ih, List.exists_mem_cons_iff]
    clear ih
    split
    all_goals
      rename_i hd
      rw [Clause.subsumes_iff] at hd
      grind

theorem nodup_markSubsumedBy (h : marked.Nodup) : (markSubsumedBy c others marked).Nodup := by
  unfold markSubsumedBy
  refine List.foldlRecOn others _ h fun marked h d _ => ?_
  split
  · rename_i hd
    refine List.nodup_append.mpr ⟨h, List.nodup_singleton _, fun a ha b hb he => hd.2.1 ?_⟩
    rwa [← List.mem_singleton.mp hb, ← he]
  · exact h

end MarkSubsumedBy

/-- What holds of the marks when the clauses `done` have had their turn. -/
structure Marking (cs : List Clause) (done : List Indexed) (marked : List Nat) : Prop where
  nodup : marked.Nodup
  /-- What is marked stands in the list and is subsumed by a clause that is not marked. -/
  represented : ∀ i ∈ marked, ∃ d, cs[i]? = some d ∧
    ∃ c ∈ done, c.In cs ∧ c.index ∉ marked ∧ c.clause.Subsumes d
  /-- A clause that is not marked has marked all that it subsumes. -/
  closed : ∀ c ∈ done, c.index ∉ marked → ∀ d : Indexed, d.In cs → c.index ≠ d.index →
    c.clause.Subsumes d.clause → d.index ∈ marked
  /-- What a clause subsumes is marked if it comes later, even if the clause is marked too. -/
  later : ∀ c ∈ done, ∀ d : Indexed, d.In cs → c.Before d → c.clause.Subsumes d.clause →
    d.index ∈ marked

namespace Marking

variable {cs : List Clause} {done : List Indexed} {marked : List Nat} {c : Indexed}

theorem nil (cs : List Clause) : Marking cs [] [] := ⟨List.nodup_nil, nofun, nofun, nofun⟩

/-- The turn of a marked clause. -/
theorem pass (h : Marking cs done marked) (hc : c.In cs) (hcm : c.index ∈ marked)
    (hbefore : ∀ a ∈ done, a.Before c) : Marking cs (done ++ [c]) marked where
  nodup := h.nodup
  represented i hi := by
    obtain ⟨d, hd, a, ha, h⟩ := h.represented i hi
    exact ⟨d, hd, a, List.mem_append_left _ ha, h⟩
  closed a ha ham := by
    rcases List.mem_append.mp ha with ha | ha
    · exact h.closed a ha ham
    · cases List.mem_singleton.mp ha
      exact absurd hcm ham
  later a ha d hd had hsub := by
    rcases List.mem_append.mp ha with ha | ha
    · exact h.later a ha d hd had hsub
    · cases List.mem_singleton.mp ha
      -- What the marked clause subsumes, the clause that represents it has marked.
      obtain ⟨_, hc', b, hb, hbin, hbm, hbc⟩ := h.represented c.index hcm
      cases hc.symm.trans hc'
      refine h.closed b hb hbm d hd (fun he => ?_) (hbc.trans hsub)
      have hsame := congrArg Clause.size (hbin.clause_eq hd he)
      have hbefore := hbefore b hb
      unfold Indexed.Before at hbefore had
      omega

/-- The turn of a clause that is not marked. -/
theorem mark (h : Marking cs done marked) (hc : c.In cs) (hcm : c.index ∉ marked)
    {others : List Indexed} (hin : ∀ d ∈ others, d.In cs)
    (hall : ∀ d : Indexed, d.In cs → c.clause.size ≤ d.clause.size → d ∈ others) :
    Marking cs (done ++ [c]) (markSubsumedBy c others marked) := by
  have hmono : ∀ i, i ∈ marked → i ∈ markSubsumedBy c others marked := fun i hi =>
    mem_markSubsumedBy.mpr (.inl hi)
  have hself : c.index ∉ markSubsumedBy c others marked := by simp [mem_markSubsumedBy, hcm]
  have hmarks : ∀ d : Indexed, d.In cs → c.index ≠ d.index → c.clause.Subsumes d.clause →
      d.index ∈ markSubsumedBy c others marked := fun d hd hne hsub =>
    mem_markSubsumedBy.mpr (.inr ⟨hne, d, hall d hd hsub.size_le, rfl, hsub⟩)
  refine ⟨nodup_markSubsumedBy h.nodup, fun i hi => ?_, fun a ha ham d hd hne hsub => ?_,
    fun a ha d hd had hsub => ?_⟩
  · have hmem : c ∈ done ++ [c] := List.mem_append_right _ (List.mem_singleton.mpr rfl)
    rcases mem_markSubsumedBy.mp hi with hi | ⟨-, d, hd, rfl, hsub⟩
    · obtain ⟨d, hd, a, ha, hain, ham, had⟩ := h.represented i hi
      by_cases hmarked : a.index ∈ markSubsumedBy c others marked
      · -- The clause takes the place of one that it marks.
        obtain ⟨-, b, hb, hba, hcb⟩ := (mem_markSubsumedBy.mp hmarked).resolve_left ham
        have hab := (hin b hb).clause_eq hain hba
        exact ⟨d, hd, c, hmem, hc, hself, (hab ▸ hcb).trans had⟩
      · exact ⟨d, hd, a, List.mem_append_left _ ha, hain, hmarked, had⟩
    · exact ⟨d.clause, hin d hd, c, hmem, hc, hself, hsub⟩
  · rcases List.mem_append.mp ha with ha | ha
    · exact hmono _ (h.closed a ha (fun hm => ham (hmono _ hm)) d hd hne hsub)
    · cases List.mem_singleton.mp ha
      exact hmarks d hd hne hsub
  · rcases List.mem_append.mp ha with ha | ha
    · exact hmono _ (h.later a ha d hd had hsub)
    · cases List.mem_singleton.mp ha
      refine hmarks d hd (fun he => ?_) hsub
      have hsame := congrArg Clause.size (hc.clause_eq hd he)
      unfold Indexed.Before at had
      omega

end Marking

/-! ## The order of turns -/

/-- The clauses of a list, each with its place. -/
def indexed (cs : List Clause) : List Indexed := cs.zipIdx.map fun (c, i) => ⟨c, i⟩

/-- The clauses of a list, smaller ones first. -/
def bySize (cs : List Clause) : List Indexed :=
  (indexed cs).mergeSort fun a b => decide (a.clause.size ≤ b.clause.size)

theorem mem_bySize {cs : List Clause} {c : Indexed} : c ∈ bySize cs ↔ c.In cs := by
  rw [bySize, List.mem_mergeSort, indexed, List.mem_map]
  constructor
  · rintro ⟨⟨d, i⟩, hd, rfl⟩
    exact List.mem_zipIdx_iff_getElem?.mp hd
  · intro hc
    exact ⟨(c.clause, c.index), List.mem_zipIdx_iff_getElem?.mpr hc, rfl⟩

theorem indexed_pairwise (cs : List Clause) : (indexed cs).Pairwise fun a b => a.index < b.index := by
  have hindex : (indexed cs).map Indexed.index = List.range' 0 cs.length := by
    rw [indexed, List.map_map]
    exact List.zipIdx_map_snd 0 cs
  rw [← List.pairwise_map (f := Indexed.index), hindex]
  exact List.pairwise_lt_range'

/-- Sorting by size leaves clauses of the same size in their order. -/
theorem bySize_filter (cs : List Clause) (n : Nat) :
    (bySize cs).filter (·.clause.size = n) = (indexed cs).filter (·.clause.size = n) := by
  have hsub : ((indexed cs).filter (·.clause.size = n)).Sublist (bySize cs) := by
    refine List.sublist_mergeSort (fun a b c => ?_) (fun a b => ?_) ?_ List.filter_sublist
    · simpa using Nat.le_trans
    · simpa using Nat.le_total ..
    · refine List.pairwise_of_forall_mem_list fun a ha b hb => ?_
      simp only [List.mem_filter, decide_eq_true_eq] at ha hb
      simp [ha.2, hb.2]
  refine (List.Sublist.eq_of_length ?_ ?_).symm
  · simpa using hsub.filter (·.clause.size = n)
  · exact ((List.mergeSort_perm ..).filter _).length_eq.symm

theorem bySize_pairwise (cs : List Clause) : (bySize cs).Pairwise Indexed.Before := by
  rw [List.pairwise_iff_forall_sublist]
  intro a b hab
  have hsize : a.clause.size ≤ b.clause.size := by
    have hsorted : (bySize cs).Pairwise fun a b => decide (a.clause.size ≤ b.clause.size) = true :=
      List.pairwise_mergeSort (fun a b c => by simpa using Nat.le_trans)
        (fun a b => by simpa using Nat.le_total ..) (indexed cs)
    simpa using List.pairwise_iff_forall_sublist.mp hsorted hab
  rcases Nat.lt_or_eq_of_le hsize with hlt | heq
  · exact .inl hlt
  · -- Among the clauses of one size the order is that of the list.
    have hsub : [a, b].Sublist (indexed cs) := by
      have hfilter := hab.filter (·.clause.size = a.clause.size)
      rw [bySize_filter] at hfilter
      simpa [heq] using hfilter.trans List.filter_sublist
    exact .inr ⟨heq, List.pairwise_iff_forall_sublist.mp (indexed_pairwise cs) hsub⟩

/-! ## What is marked -/

/-- The turn of a clause. -/
def takeTurn (all : List Indexed) (marked : List Nat) (c : Indexed) : List Nat :=
  if c.index ∈ marked then marked
  else markSubsumedBy c (all.filter fun d => decide (c.clause.size ≤ d.clause.size)) marked

theorem subsumedIndices_eq (cs : List Clause) :
    subsumedIndices cs = (bySize cs).foldl (takeTurn (bySize cs)) [] := rfl

theorem Marking.take {cs : List Clause} {done : List Indexed} {marked : List Nat} {c : Indexed}
    (h : Marking cs done marked) (hc : c.In cs) (hbefore : ∀ a ∈ done, a.Before c) :
    Marking cs (done ++ [c]) (takeTurn (bySize cs) marked c) := by
  unfold takeTurn
  split
  · exact h.pass hc ‹_› hbefore
  · refine h.mark hc ‹_› (fun d hd => mem_bySize.mp (List.mem_filter.mp hd).1) fun d hd hle => ?_
    exact List.mem_filter.mpr ⟨mem_bySize.mpr hd, by simpa using hle⟩

theorem Marking.foldl {cs : List Clause} {done rest : List Indexed} {marked : List Nat}
    (h : Marking cs done marked) (hall : bySize cs = done ++ rest) :
    Marking cs (bySize cs) (rest.foldl (takeTurn (bySize cs)) marked) := by
  induction rest generalizing done marked with
  | nil => rwa [hall, List.append_nil]
  | cons c rest ih =>
    have hc : c ∈ bySize cs := by simp [hall]
    have hbefore : ∀ a ∈ done, a.Before c := by
      have hpairwise := bySize_pairwise cs
      rw [hall, List.pairwise_append] at hpairwise
      exact fun a ha => hpairwise.2.2 a ha c List.mem_cons_self
    exact ih (h.take (mem_bySize.mp hc) hbefore) (by rw [hall]; simp)

/-- What holds of the marks when all clauses have had their turn. -/
theorem subsumedIndices_marking (cs : List Clause) : Marking cs (bySize cs) (subsumedIndices cs) := by
  rw [subsumedIndices_eq]
  exact (Marking.nil cs).foldl rfl

/-- The marks are places of the list, each once. A clause that is marked is subsumed by one that is not;
no clause that is not marked subsumes another; of two that subsume each other the later one is
marked. -/
theorem subsumedIndices_exact (cs : List Clause) :
    (subsumedIndices cs).Nodup ∧
    (∀ j ∈ subsumedIndices cs, ∃ d, cs[j]? = some d ∧ ∃ i c, cs[i]? = some c ∧
      i ∉ subsumedIndices cs ∧ c.subsumes d = true) ∧
    (∀ i j c d, cs[i]? = some c → cs[j]? = some d → i ∉ subsumedIndices cs →
      j ∉ subsumedIndices cs → i ≠ j → c.subsumes d = false) ∧
    ∀ i j c d, cs[i]? = some c → cs[j]? = some d → i < j → c.subsumes d = true →
      d.subsumes c = true → j ∈ subsumedIndices cs := by
  have h := subsumedIndices_marking cs
  refine ⟨h.nodup, fun j hj => ?_, fun i j c d hc hd hi hj hne => ?_,
    fun i j c d hc hd hij hcd hdc => ?_⟩
  · obtain ⟨d, hd, c, -, hc, hcm, hsub⟩ := h.represented j hj
    exact ⟨d, hd, c.index, c.clause, hc, hcm, Clause.subsumes_iff.mpr hsub⟩
  · rw [Bool.eq_false_iff]
    intro hcd
    have hin : Indexed.In cs ⟨c, i⟩ := hc
    exact hj (h.closed ⟨c, i⟩ (mem_bySize.mpr hin) hi ⟨d, j⟩ hd hne (Clause.subsumes_iff.mp hcd))
  · rw [Clause.subsumes_iff] at hcd hdc
    have hsize := Nat.le_antisymm hcd.size_le hdc.size_le
    have hin : Indexed.In cs ⟨c, i⟩ := hc
    exact h.later ⟨c, i⟩ (mem_bySize.mpr hin) ⟨d, j⟩ hd (.inr ⟨hsize, hij⟩) hcd

/-- `P(A)`, `P(x)`, `P(A) | Q`, `P(y)`. -/
def chained : List Clause :=
  [.ofList [.pos (.pred "P" [.const "A"])], .ofList [.pos (.pred "P" [.var ⟨"x"⟩])],
    .ofList [.pos (.pred "P" [.const "A"]), .pos (.pred "Q" [])], .ofList [.pos (.pred "P" [.var ⟨"y"⟩])]]

/-- The first clause marks the third and is then marked by the second, which is all that stays. -/
theorem chained_subsumedIndices : 0 ∈ subsumedIndices chained ∧ 1 ∉ subsumedIndices chained ∧
    2 ∈ subsumedIndices chained ∧ 3 ∈ subsumedIndices chained := by
  obtain ⟨-, hrepresented, happart, hlater⟩ := subsumedIndices_exact chained
  have h₃ : 3 ∈ subsumedIndices chained := hlater 1 3 _ _ rfl rfl (by decide) (by cbv) (by cbv)
  have h₁ : 1 ∉ subsumedIndices chained := by
    intro h₁
    obtain ⟨d, hd, i, c, hc, hi, hsub⟩ := hrepresented 1 h₁
    cases hd
    rcases i with _ | _ | _ | _ | i
    · cases hc
      exact Bool.eq_false_iff.mp (by cbv) hsub
    · exact hi h₁
    · cases hc
      exact Bool.eq_false_iff.mp (by cbv) hsub
    · exact hi h₃
    · cases hc
  have hmarked : ∀ j d, chained[j]? = some d → 1 ≠ j → (chained[1]).subsumes d = true →
      j ∈ subsumedIndices chained := by
    intro j d hd hne hsub
    by_contra hj
    exact Bool.eq_false_iff.mp (happart 1 j _ d rfl hd h₁ hj hne) hsub
  exact ⟨hmarked 0 _ rfl (by decide) (by cbv), h₁, hmarked 2 _ rfl (by decide) (by cbv), h₃⟩

namespace Search

theorem distinct_sub {cs : List Sourced} {c : Sourced} (h : c ∈ distinct cs) : c ∈ cs :=
  mem_of_mem_eraseDupsBy h

theorem reduce_sub {cs : List Sourced} {c : Sourced} (h : c ∈ (reduce cs).1) : c ∈ cs := by
  obtain ⟨⟨x, i⟩, hx, rfl⟩ := List.mem_map.mp h
  exact List.fst_mem_of_mem_zipIdx (List.mem_filter.mp hx).1

/-- Of a list that is reduced, what stays subsumes all of it. -/
theorem exists_mem_reduce {cs : List Sourced} {c : Sourced} (h : c ∈ cs) :
    ∃ e ∈ (reduce cs).1, e.clause.Subsumes c.clause := by
  have hstays : ∀ (e : Sourced) (j : Nat), cs[j]? = some e →
      j ∉ subsumedIndices (cs.map Sourced.clause) → e ∈ (reduce cs).1 := by
    intro e j he hj
    refine List.mem_map.mpr ⟨(e, j), List.mem_filter.mpr ⟨List.mem_zipIdx_iff_getElem?.mpr he, ?_⟩, rfl⟩
    simpa using hj
  obtain ⟨i, hi⟩ := List.mem_iff_getElem?.mp h
  by_cases him : i ∈ subsumedIndices (cs.map Sourced.clause)
  · obtain ⟨d, hd, e, -, he, hem, hsub⟩ := (subsumedIndices_marking _).represented i him
    rw [List.getElem?_map, hi] at hd
    cases hd
    rw [Indexed.In, List.getElem?_map] at he
    obtain ⟨x, hx, hxe⟩ := Option.map_eq_some_iff.mp he
    exact ⟨x, hstays x e.index hx hem, hxe ▸ hsub⟩
  · exact ⟨c, hstays c i hi him, .refl _⟩

end Search

end Refutation
