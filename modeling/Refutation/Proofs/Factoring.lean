import Refutation.Proofs.Lifting
import Refutation.Proofs.Unifiers

/-!
# The end of factoring

Factoring takes up what it finds, and its only bound is one that no run reaches. With the occurs check
it needs none, whatever the clauses are: a unifier of two literals binds some of the variables of the
clause, which are gone from the factor, or it binds nothing, and then the factor is not new. What is
found in the end is closed: unifying two more literals leads to nothing else.

* `directFactors_narrow`: a direct factor is the clause itself or has fewer variables.
* `Factors.rounds_eq`, `factors_exhausted`: further rounds find nothing.
* `Factors.Ends`, `factors_ends`: rounds without a bound come to the same end.
* `factors_closed`: what is found in the end.
-/

namespace Refutation

/-! ## Factors and variables -/

theorem Clause.mem_occurrences_subst {c : Clause} {σ : Substitution} {y : Var}
    (hy : y ∈ (c.subst σ).occurrences) : ∃ x ∈ c.occurrences, y ∈ (σ.image x).occurrences := by
  obtain ⟨_, hm, hy⟩ := mem_occurrences.mp hy
  obtain ⟨l, hl, rfl⟩ := mem_subst.mp hm
  obtain ⟨_, hmap, hy⟩ := Atom.mem_occurrences.mp hy
  rw [Literal.subst, Atom.subst, Atom.args_map] at hmap
  obtain ⟨t, ht, rfl⟩ := List.mem_map.mp hmap
  obtain ⟨x, hx, hy⟩ := Term.mem_occurrences_subst.mp hy
  exact ⟨x, mem_occurrences.mpr ⟨l, hl, Atom.mem_occurrences.mpr ⟨t, ht, hx⟩⟩, hy⟩

variable {u : Unifier}

/-- A direct factor is the clause itself or has fewer variables. -/
theorem directFactors_narrow (hu : u.occursCheck = true) {c : Clause} {i : Inference}
    (hi : i ∈ directFactors u c) : i.conclusion = c ∨ i.conclusion.vars.length < c.vars.length := by
  obtain ⟨l, hl, m, hm, -, -, σ, hσ, rfl⟩ := mem_directFactors hi
  have hconfined : σ.Confined {x | x ∈ c.occurrences} := by
    refine Unifier.literals_confined hu (fun x hx => ?_) (fun x hx => ?_) hσ
    · exact Clause.mem_occurrences.mpr ⟨l, hl, hx⟩
    · exact Clause.mem_occurrences.mpr ⟨m, hm, hx⟩
  by_cases hbound : ∃ x, σ.get? x ≠ none
  · -- A bound variable stands in the clause and is gone from the factor.
    obtain ⟨x, hx⟩ := hbound
    have hxc : x ∈ c.vars := Clause.mem_vars.mpr (hconfined.bound x hx)
    have hsub : (c.subst σ).vars ⊆ c.vars.erase x := by
      intro y hy
      obtain ⟨z, hz, hyz⟩ := Clause.mem_occurrences_subst (Clause.mem_vars.mp hy)
      have hne : y ≠ x := fun he => hx (he ▸ hconfined.resolved.unbound (t := .var z) hyz)
      exact (List.mem_erase_of_ne hne).mpr (Clause.mem_vars.mpr (hconfined.image z hz y hyz))
    have hle := ((nodup_eraseDups (c.subst σ).occurrences).subperm hsub).length_le
    rw [List.length_erase_of_mem hxc] at hle
    have hpos : 0 < c.vars.length := List.length_pos_of_mem hxc
    exact .inr (Nat.lt_of_le_of_lt hle (Nat.sub_lt hpos Nat.one_pos))
  · rw [not_exists] at hbound
    exact .inl (Clause.subst_eq_self fun x _ => Substitution.image_of_unbound (not_not.mp (hbound x)))

/-! ## Rounds -/

namespace Factors

variable {whole : Clause} {fs fs' fs'' : Factors} {P : Clause → Prop}

/-- What was found from the first to the second is new, and has the property `P`. -/
def Finds (whole : Clause) (P : Clause → Prop) (fs fs' : Factors) : Prop :=
  ∃ new, fs'.found = fs.found ++ new ∧ ∀ y ∈ new, P y.clause ∧ ¬fs.Has whole y.clause

theorem Finds.refl (fs : Factors) : Finds whole P fs fs := ⟨[], by simp, nofun⟩

theorem Finds.trans (h : Finds whole P fs fs') (h' : Finds whole P fs' fs'') :
    Finds whole P fs fs'' := by
  obtain ⟨new, he, hnew⟩ := h
  obtain ⟨new', he', hnew'⟩ := h'
  refine ⟨new ++ new', by rw [he', he, List.append_assoc], fun y hy => ?_⟩
  rcases List.mem_append.mp hy with hy | hy
  · exact hnew y hy
  · refine ⟨(hnew' y hy).1, fun hhas => (hnew' y hy).2 (hhas.imp_right ?_)⟩
    rintro ⟨z, hz, hs⟩
    exact ⟨z, by rw [he]; exact List.mem_append_left _ hz, hs⟩

theorem add_finds (parent : Sourced) (fs : Factors) {i : Inference} (hi : P i.conclusion) :
    Finds whole P fs (add whole parent fs i) := by
  unfold add
  split
  · exact .refl fs
  · rename_i hnew
    refine ⟨[_], rfl, fun y hy => ?_⟩
    cases List.mem_singleton.mp hy
    rw [Bool.or_eq_true, List.any_eq_true] at hnew
    exact ⟨hi, hnew⟩

/-- A level of factoring finds new direct factors of its clauses. -/
theorem foldl_expand_finds (u : Unifier) (whole : Clause) (level : List Sourced) (fs : Factors) :
    Finds whole (fun c => ∃ p ∈ level, ∃ i ∈ directFactors u p.clause, c = i.conclusion) fs
      (level.foldl (expand u whole) fs) := by
  refine List.foldlRecOn level _ (.refl fs) fun fs' h p hp => h.trans ?_
  refine List.foldlRecOn (directFactors u p.clause) _ (.refl fs') fun fs'' h i hi => h.trans ?_
  exact add_finds p fs'' ⟨p, hp, i, hi, rfl⟩

theorem rounds_nil (n : Nat) (fs : Factors) : rounds u whole n [] fs = fs := by
  cases n <;> rfl

/-- The clauses of a level were found, and they have fewer variables than the number says. -/
def Narrow (whole : Clause) (n : Nat) (level : List Sourced) (fs : Factors) : Prop :=
  ∀ p ∈ level, fs.Has whole p.clause ∧ p.clause.vars.length < n

/-- Each round takes one variable from the clauses that are new. -/
theorem Narrow.next (hu : u.occursCheck = true) {n : Nat} {level new : List Sourced}
    (h : Narrow whole (n + 1) level fs)
    (he : (level.foldl (expand u whole) fs).found = fs.found ++ new) :
    Narrow whole n new (level.foldl (expand u whole) fs) := by
  obtain ⟨new', he', hnew⟩ := foldl_expand_finds u whole level fs
  cases List.append_cancel_left (he.symm.trans he')
  refine fun y hy => ⟨.inr ⟨y, ?_, Clause.same_refl _⟩, ?_⟩
  · rw [he]
    exact List.mem_append_right _ hy
  · obtain ⟨⟨q, hq, i, hi, hyi⟩, hfresh⟩ := hnew y hy
    obtain ⟨hhas, hlt⟩ := h q hq
    rcases directFactors_narrow hu hi with hsame | hless
    · rw [hyi, hsame] at hfresh
      exact absurd hhas hfresh
    · rw [hyi]
      omega

theorem Narrow.eq_nil {level : List Sourced} (h : Narrow whole 0 level fs) : level = [] :=
  List.eq_nil_iff_forall_not_mem.mpr fun p hp => absurd (h p hp).2 (Nat.not_lt_zero _)

/-- Rounds are over when each clause of the level has had as many as it has variables. -/
theorem rounds_eq (hu : u.occursCheck = true) {n m : Nat} {level : List Sourced}
    (hlevel : Narrow whole n level fs) (hnm : n ≤ m) :
    rounds u whole m level fs = rounds u whole n level fs := by
  induction n generalizing m level fs with
  | zero => rw [hlevel.eq_nil, rounds_nil, rounds_nil]
  | succ n ih =>
    cases level with
    | nil => rw [rounds_nil, rounds_nil]
    | cons p level =>
      obtain ⟨m, rfl⟩ := Nat.exists_eq_add_one.mpr (Nat.lt_of_lt_of_le (Nat.succ_pos n) hnm)
      obtain ⟨new, he, -⟩ := foldl_expand_finds u whole (p :: level) fs
      rw [rounds_succ he, rounds_succ he]
      exact ih (hlevel.next hu he) (Nat.le_of_succ_le_succ hnm)

/-- Rounds without a bound, which take up what the last one found until there is nothing, end with the
second of the two. -/
inductive Ends (u : Unifier) (whole : Clause) : List Sourced → Factors → Factors → Prop
  | done (fs : Factors) : Ends u whole [] fs fs
  | round {p : Sourced} {level : List Sourced} {fs fs' : Factors}
      (rest : Ends u whole (((p :: level).foldl (expand u whole) fs).found.drop fs.found.length)
        ((p :: level).foldl (expand u whole) fs) fs') : Ends u whole (p :: level) fs fs'

theorem rounds_ends (hu : u.occursCheck = true) {n : Nat} {level : List Sourced}
    (hlevel : Narrow whole n level fs) : Ends u whole level fs (rounds u whole n level fs) := by
  induction n generalizing level fs with
  | zero =>
    rw [hlevel.eq_nil]
    exact .done fs
  | succ n ih =>
    cases level with
    | nil => exact .done fs
    | cons p level =>
      obtain ⟨new, he, -⟩ := foldl_expand_finds u whole (p :: level) fs
      refine .round ?_
      rw [rounds_succ he, he, List.drop_left]
      exact ih (hlevel.next hu he)

/-! ## What is found -/

/-- A property of what was found lasts through rounds if it lasts when a factor is added. -/
theorem rounds_induction {P : Factors → Prop} (hadd : ∀ fs parent i, P fs → P (add whole parent fs i))
    {n : Nat} {level : List Sourced} (h : P fs) : P (rounds u whole n level fs) := by
  have hlevel : ∀ (level : List Sourced) (fs : Factors), P fs → P (level.foldl (expand u whole) fs) := by
    intro level fs h
    refine List.foldlRecOn level _ h fun fs h p _ => ?_
    exact List.foldlRecOn (directFactors u p.clause) _ h fun fs h i _ => hadd fs p i h
  induction n generalizing level fs with
  | zero => exact h
  | succ n ih =>
    cases level with
    | nil => exact h
    | cons p level => exact ih (hlevel (p :: level) fs h)

/-- No two of the whole clause and those found have the same literals. -/
def Distinct (whole : Clause) (fs : Factors) : Prop :=
  (∀ y ∈ fs.found, y.clause.same whole = false) ∧
    fs.found.Pairwise fun x y => x.clause.same y.clause = false

theorem Distinct.add (h : Distinct whole fs) (parent : Sourced) (i : Inference) :
    Distinct whole (add whole parent fs i) := by
  unfold Factors.add
  split
  · exact h
  · rename_i hnew
    simp only [Bool.or_eq_true, List.any_eq_true, not_or, not_exists, not_and, Bool.not_eq_true] at hnew
    refine ⟨fun y hy => ?_, List.pairwise_append.mpr ⟨h.2, List.pairwise_singleton _ _, ?_⟩⟩
    · rcases List.mem_append.mp hy with hy | hy
      · exact h.1 y hy
      · cases List.mem_singleton.mp hy
        exact hnew.1
    · intro x hx y hy
      cases List.mem_singleton.mp hy
      exact hnew.2 x hx

end Factors

section

variable {c : Sourced} {d : Derivation}

theorem narrow_root {n : Nat} (hn : c.clause.vars.length < n) :
    Factors.Narrow c.clause n [c] { derivation := d } := by
  intro p hp
  cases List.mem_singleton.mp hp
  exact ⟨.inl (Clause.same_refl _), hn⟩

theorem vars_lt_factorRounds (c : Clause) : c.vars.length < factorRounds c := by
  unfold factorRounds
  omega

/-- The rounds of factoring come to an end by themselves: as many as the clause has variables, and one,
are as many as it takes. -/
theorem factors_exhausted (hu : u.occursCheck = true) (c : Sourced) (d : Derivation) {n : Nat}
    (hn : c.clause.vars.length < n) : factors u c d =
      ((Factors.rounds u c.clause n [c] { derivation := d }).found,
        (Factors.rounds u c.clause n [c] { derivation := d }).derivation) := by
  have hroot : Factors.Narrow c.clause (c.clause.vars.length + 1) [c] { derivation := d } :=
    narrow_root (Nat.lt_succ_self _)
  rw [factors, Factors.rounds_eq hu hroot (vars_lt_factorRounds c.clause), Factors.rounds_eq hu hroot hn]

theorem factors_ends (hu : u.occursCheck = true) (c : Sourced) (d : Derivation) :
    Factors.Ends u c.clause [c] { derivation := d } ⟨(factors u c d).1, (factors u c d).2⟩ :=
  Factors.rounds_ends hu (narrow_root (vars_lt_factorRounds c.clause))

theorem factors_distinct (u : Unifier) (c : Sourced) (d : Derivation) :
    Factors.Distinct c.clause ⟨(factors u c d).1, (factors u c d).2⟩ :=
  Factors.rounds_induction (fun _ parent i h => h.add parent i) ⟨nofun, List.Pairwise.nil⟩

/-! ## The closure -/

theorem mem_pairs_of_lt {α : Type} {xs : List α} {i j : Nat} {a b : α} (hij : i < j)
    (ha : xs[i]? = some a) (hb : xs[j]? = some b) : (a, b) ∈ pairs xs := by
  induction xs generalizing i j with
  | nil => cases ha
  | cons x xs ih =>
    rw [pairs, List.mem_append]
    obtain ⟨j, rfl⟩ := Nat.exists_eq_add_one.mpr (Nat.lt_of_le_of_lt (Nat.zero_le i) hij)
    cases i with
    | zero =>
      cases ha
      exact .inl (List.mem_map_of_mem (List.mem_of_getElem? hb))
    | succ i => exact .inr (ih (Nat.lt_of_succ_lt_succ hij) ha hb)

/-- Two literals of the same sign that unify yield a direct factor. -/
theorem mem_directFactors_of_unifier (hu : u.occursCheck = true) {x : Clause} (hx : x.wellFormed = true)
    {l m : Literal} (hlm : (l, m) ∈ pairs x.literals) (hsign : l.positive = m.positive)
    {σ : Substitution} (hσ : u.literals l m = .ok σ) :
    ⟨x.subst σ, .factor σ⟩ ∈ directFactors u x := by
  obtain ⟨hl, hm, -⟩ := mem_pairs hlm x.nodup
  have hmgu := Unifier.literals_mostGeneral hu (Clause.wellFormed_iff.mp hx l hl)
    (Clause.wellFormed_iff.mp hx m hm) hσ
  have hsig := Literal.sameSignature_of_inst hmgu.meets
  rw [directFactors_eq]
  refine List.mem_filterMap.mpr ⟨(l, m), List.mem_filter.mpr ⟨hlm, by simp [hsign, hsig]⟩, ?_⟩
  simp only [hσ]

/-- What factoring finds is the clause under a substitution, with fewer literals. -/
theorem factors_instance (hu : u.occursCheck = true) (hc : c.clause.wellFormed = true) {x : Sourced}
    (hx : x ∈ (factors u c d).1) :
    (∃ σ, x.clause = c.clause.subst σ) ∧ x.clause.size < c.clause.size := by
  have hall := factors_forall (u := u) (Q := fun e => e.wellFormed = true ∧
    (∃ σ, e = c.clause.subst σ) ∧ (e = c.clause ∨ e.size < c.clause.size)) (c := c)
    (fun e he i hi => ?_) ⟨hc, ⟨.empty, ?_⟩, .inl rfl⟩ d
  · obtain ⟨-, hinst, hsize⟩ := hall x (List.mem_cons_of_mem _ hx)
    refine ⟨hinst, hsize.resolve_left fun he => ?_⟩
    have hdiffers := (factors_distinct u c d).1 x hx
    rw [he, Clause.same_refl] at hdiffers
    cases hdiffers
  · obtain ⟨hwf, ⟨σ, hσ⟩, hsize⟩ := he
    obtain ⟨τ, rfl, hτ, hlt⟩ := directFactors_cases hu hwf hi
    refine ⟨Clause.wellFormed_subst hwf hτ, ⟨σ.compose τ, ?_⟩, .inr ?_⟩
    · rw [Clause.subst_compose, ← hσ]
    · rcases hsize with rfl | hsize
      · exact hlt
      · exact hlt.trans hsize
  · exact (Clause.subst_eq_self fun _ _ => rfl).symm

end

/-- Factoring comes to an end, with clauses that differ from each other as sets of literals. Each is the
clause under a substitution and has fewer literals, and together with the clause they are closed under
unifying two literals of the same sign. -/
theorem factors_closed {u : Unifier} (hu : u.occursCheck = true) {c : Sourced}
    (hc : c.clause.wellFormed = true) (d : Derivation) :
    Factors.Ends u c.clause [c] { derivation := d } ⟨(factors u c d).1, (factors u c d).2⟩ ∧
    ((factors u c d).1.Pairwise fun x y => x.clause.same y.clause = false) ∧
    (∀ x ∈ (factors u c d).1, (∃ σ, x.clause = c.clause.subst σ) ∧ x.clause.size < c.clause.size) ∧
    ∀ x ∈ c :: (factors u c d).1, ∀ (i j : Nat) (l m : Literal) (σ : Substitution), i < j →
      x.clause.literals[i]? = some l → x.clause.literals[j]? = some m → l.positive = m.positive →
      u.literals l m = .ok σ → ∃ y ∈ (factors u c d).1, y.clause.same (x.clause.subst σ) = true := by
  refine ⟨factors_ends hu c d, (factors_distinct u c d).2, fun x hx => factors_instance hu hc hx,
    fun x hx i j l m σ hij hl hm hsign hσ => ?_⟩
  have hxw := factors_wellFormed hu hc d x hx
  have hfactor := mem_directFactors_of_unifier hu hxw (mem_pairs_of_lt hij hl hm) hsign hσ
  obtain ⟨y, hy, hsame⟩ := exists_mem_factors hu hc d hx hfactor
  refine ⟨y, (List.mem_cons.mp hy).resolve_left ?_, hsame⟩
  rintro rfl
  -- A factor has fewer literals than the clause it comes from, and that has no more than the first.
  obtain ⟨_, he, -, hlt⟩ := directFactors_cases hu hxw hfactor
  rw [← (Inference.mk.inj he).1] at hlt
  have hle : x.clause.size ≤ y.clause.size := by
    rcases List.mem_cons.mp hx with rfl | hx
    · exact Nat.le_refl _
    · exact (factors_instance hu hc hx).2.le
  have hsize : y.clause.size ≤ (x.clause.subst σ).size := (Clause.subsumes_of_same hsame).size_le
  omega

/-- `P(x) | P(y) | P(f(x))`. -/
def threefold : Sourced :=
  ⟨.ofList [.pos (.pred "P" [.var ⟨"x"⟩]), .pos (.pred "P" [.var ⟨"y"⟩]),
    .pos (.pred "P" [.fn "f" [.var ⟨"x"⟩]])], none⟩

/-- The last two unify and the first two do; the first and the last do not. -/
theorem threefold_factors_closed :
    threefold.clause.wellFormed = true ∧
    (∃ y ∈ (factors {} threefold .empty).1, y.clause.same (.ofList [.pos (.pred "P" [.var ⟨"x"⟩]),
      .pos (.pred "P" [.fn "f" [.var ⟨"x"⟩]])]) = true) ∧
    (∃ y ∈ (factors {} threefold .empty).1, y.clause.same (.ofList [.pos (.pred "P" [.var ⟨"y"⟩]),
      .pos (.pred "P" [.fn "f" [.var ⟨"y"⟩]])]) = true) ∧
    ∀ y ∈ (factors {} threefold .empty).1, y.clause.size < 3 := by
  have hwf : threefold.clause.wellFormed = true := by decide
  obtain ⟨-, -, hinst, hclosed⟩ := factors_closed (u := {}) rfl hwf .empty
  have hlast := hclosed threefold List.mem_cons_self 1 2 _ _
    (.single ⟨"y"⟩ (.fn "f" [.var ⟨"x"⟩])) (by decide) rfl rfl rfl (by cbv)
  have hfirst := hclosed threefold List.mem_cons_self 0 1 _ _
    (.single ⟨"x"⟩ (.var ⟨"y"⟩)) (by decide) rfl rfl rfl (by cbv)
  exact ⟨hwf, hlast, hfirst, fun y hy => (hinst y hy).2⟩

end Refutation
