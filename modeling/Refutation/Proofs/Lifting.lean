import Refutation.Proofs.Inference
import Refutation.Proofs.Problems
import Refutation.Proofs.Saturation

/-!
# Inferences from instances

The search infers from clauses with variables, and what it infers covers the inferences from all
their instances: unifiers are most general, and clauses are renamed apart before. Only an attempt to
unify that ends at the depth limit may lose an inference.

* `Clause.Fit`: the clauses to which this applies, with well-formed terms and without equations.
* `Session.exists_mem_resolvents`: a resolvent of instances is an instance of a resolvent.
* `Session.resolvents_cover`: the resolvents of two clauses cover those of their instances.
* `Session.paramodulants_eq_nil`: fit clauses have no paramodulants.
* `factors_cover`: a clause and its factors cover the factors of their instances.
-/

namespace Refutation

variable {u : Unifier}

/-! ## Unification -/

/-- Literals with a common instance have a unifier of which it is an instance. -/
theorem Unifier.exists_unifier (hu : u.occursCheck = true) {l m : Literal}
    (hl : l.atom.wellFormed = true) (hm : m.atom.wellFormed = true) (hd : u.withinDepth (l, m) = true)
    {v : Var → Term} (hv : l.atom.inst v = m.atom.inst v) :
    ∃ σ, u.literals l m = .ok σ ∧ σ.MoreGeneral v := by
  cases h : u.literals l m with
  | error e =>
    obtain ⟨n, rfl⟩ := literals_complete hu hl hm hv h
    simp [withinDepth, h] at hd
  | ok σ => exact ⟨σ, rfl, (literals_mostGeneral hu hl hm h).general v hv⟩

/-- Literals whose atoms have a common instance pass the test before unification. -/
theorem Literal.sameSignature_of_inst {l m : Literal} {v w : Var → Term}
    (h : l.atom.inst v = m.atom.inst w) : l.sameSignature m = true := by
  simp only [sameSignature, Bool.and_eq_true, beq_iff_eq]
  rw [← l.atom.symbol_inst v, ← l.atom.arity_inst v, h]
  exact ⟨m.atom.symbol_inst w, m.atom.arity_inst w⟩

/-! ## Fit clauses -/

/-- The terms are well-formed, and there is no equation. -/
structure Clause.Fit (c : Clause) : Prop where
  wellFormed : c.wellFormed = true
  noEq : c.hasEq = false

namespace Clause

theorem hasEq_eq_false {c : Clause} : c.hasEq = false ↔ ∀ l ∈ c, l.atom.isEq = false := by
  simp [hasEq, mem_iff]

theorem hasEq_subst {c : Clause} (h : c.hasEq = false) {σ : Substitution} : (c.subst σ).hasEq = false := by
  rw [hasEq_eq_false] at h ⊢
  intro l hl
  obtain ⟨m, hm, rfl⟩ := mem_subst.mp hl
  have he := h m hm
  cases ha : m.atom with
  | pred p args => rw [Literal.subst, ha]; rfl
  | eq s t => rw [ha] at he; cases he

theorem Fit.subst {c : Clause} (h : c.Fit) {σ : Substitution} (hσ : σ.WellFormed) : (c.subst σ).Fit :=
  ⟨wellFormed_subst h.wellFormed hσ, hasEq_subst h.noEq⟩

end Clause

/-! ## Resolution -/

/-- The clauses of a list. -/
def clausesIn (cs : List Sourced) : Set Clause := {c | ∃ x ∈ cs, x.clause = c}

/-- What a candidate yields, whatever the names, is found. -/
theorem exists_mem_tryEach {α β : Type} (attempt : α → NameSource → Option (β × NameSource))
    {as : List α} {a : α} (ha : a ∈ as) (h : ∀ ns, attempt a ns ≠ none) (ns : NameSource) :
    ∃ ns₁ b ns₂, attempt a ns₁ = some (b, ns₂) ∧ b ∈ (tryEach attempt as ns).1 := by
  induction as generalizing ns with
  | nil => cases ha
  | cons a' as ih =>
    unfold tryEach
    rcases List.mem_cons.mp ha with rfl | ha
    · split
      · rename_i hn
        exact (h ns hn).elim
      · rename_i b ns' hb
        exact ⟨ns, b, ns', hb, List.mem_cons_self⟩
    · split
      · exact ih ha ns
      · rename_i b ns' hb
        obtain ⟨ns₁, b', ns₂, hb', hmem⟩ := ih ha ns'
        exact ⟨ns₁, b', ns₂, hb', List.mem_cons_of_mem _ hmem⟩

/-- Candidates that yield nothing, whatever the names, make no difference. -/
theorem tryEach_filter {α β : Type} {attempt : α → NameSource → Option (β × NameSource)}
    {p : α → Bool} (h : ∀ a ns, p a = false → attempt a ns = none) (as : List α) (ns : NameSource) :
    tryEach attempt (as.filter p) ns = tryEach attempt as ns := by
  induction as generalizing ns with
  | nil => rfl
  | cons a as ih =>
    cases hp : p a with
    | false =>
      rw [List.filter_cons_of_neg (by simp [hp]), ih, tryEach, h a ns hp]
    | true =>
      rw [List.filter_cons_of_pos hp, tryEach, tryEach]
      simp only [ih]

/-- The listed pairs are those on which resolution is attempted. -/
theorem resolventsApart_eq (u : Unifier) (left right : Clause) (ns : NameSource) :
    resolventsApart u left right ns =
      tryEach (fun p => resolveOn u left right p.1 p.2) (resolutionPairs left right) ns := by
  refine (tryEach_filter (fun p ns hp => ?_) _ ns).symm
  obtain ⟨l, m⟩ := p
  have hno : (l.positive = m.positive || !l.sameSignature m) = true := by
    simpa [imp_iff_not_or] using hp
  show resolveOn u left right l m ns = none
  rw [resolveOn, if_pos hno]

namespace Session

variable {s : Session} {left right : Sourced}

/-- The second clause is separate from the first, or is renamed apart from it. -/
theorem separate_cases (s : Session) (left right : Sourced) :
    ((s.separate left right).1.clause = right.clause ∧
      ∀ x ∈ right.clause.vars, x ∉ left.clause.vars) ∨
    ∃ ns, (s.separate left right).1.clause = (right.clause.renameApart left.clause.vars ns).clause := by
  unfold separate
  simp only
  split
  · rename_i h
    exact .inl ⟨rfl, by simpa using h⟩
  · exact .inr ⟨s.names, rfl⟩

theorem separate_wellFormed (h : right.clause.wellFormed = true) :
    (s.separate left right).1.clause.wellFormed = true := by
  rcases s.separate_cases left right with ⟨he, -⟩ | ⟨ns, he⟩
  · rw [he]
    exact h
  · rw [he]
    exact Clause.wellFormed_renameApart h _ ns

theorem separate_fit (h : right.clause.Fit) : (s.separate left right).1.clause.Fit := by
  rcases s.separate_cases left right with ⟨he, -⟩ | ⟨ns, he⟩
  · rw [he]
    exact h
  · rw [he]
    exact h.subst (right.clause.renameApart_freshens _ ns).wellFormed

/-- Any two instances of the clauses are instances of the separate clauses under one map. -/
theorem separate_joint (s : Session) (left right : Sourced) :
    ∃ f : Literal → Literal, (∀ k, k ∈ (s.separate left right).1.clause ↔ ∃ m ∈ right.clause, f m = k) ∧
      ∀ v w : Var → Term, ∃ θ : Var → Term, (∀ l ∈ left.clause, l.inst θ = l.inst v) ∧
        ∀ m ∈ right.clause, (f m).inst θ = m.inst w := by
  rcases s.separate_cases left right with ⟨he, hdisj⟩ | ⟨ns, he⟩
  · refine ⟨id, fun k => by simp [he], fun v w => ?_⟩
    refine ⟨fun x => if x ∈ left.clause.vars then v x else w x, fun l hl => ?_, fun m hm => ?_⟩
    · exact Clause.inst_congr (fun x hx => if_pos hx) hl
    · exact Clause.inst_congr (fun x hx => if_neg (hdisj x hx)) hm
  · refine ⟨Literal.subst (right.clause.renameApart left.clause.vars ns).rename, fun k => ?_,
      fun v w => ?_⟩
    · rw [he]
      exact Clause.mem_subst
    · obtain ⟨θ, hv, hw⟩ := right.clause.renameApart_joint left.clause.vars ns v w
      exact ⟨θ, fun _ => Clause.inst_congr hv, hw⟩

end Session

/-- Literals under a unifier and with fresh variables still have the instances that the unifier is
more general than. -/
theorem Clause.instantiateFresh_inst (ls : List Literal) {σ : Substitution} {θ : Var → Term}
    (hσ : σ.MoreGeneral θ) (ns : NameSource) :
    ∃ v, (instantiateFresh ls σ ns).clause.instSet v = {k | ∃ l ∈ ls, l.inst θ = k} := by
  obtain ⟨v, -, hv⟩ := ((ofList ls).subst σ).renameApart_joint [] ns θ θ
  have hmem : ∀ {l}, l ∈ ls → l.subst σ ∈ (ofList ls).subst σ := fun hl =>
    mem_subst.mpr ⟨_, mem_ofList.mpr hl, rfl⟩
  have hinst : ∀ l ∈ ls, ((l.subst σ).subst (instantiateFresh ls σ ns).rename).inst v = l.inst θ := by
    intro l hl
    rw [← hσ.literal l]
    exact hv _ (hmem hl)
  refine ⟨v, Set.ext fun k => ⟨?_, ?_⟩⟩
  · rintro ⟨_, hk, rfl⟩
    obtain ⟨_, hk', rfl⟩ := mem_subst.mp hk
    obtain ⟨l, hl, rfl⟩ := mem_subst.mp hk'
    exact ⟨l, mem_ofList.mp hl, (hinst l (mem_ofList.mp hl)).symm⟩
  · rintro ⟨l, hl, rfl⟩
    exact ⟨_, mem_subst.mpr ⟨_, hmem hl, rfl⟩, hinst l hl⟩

/-- Where two literals of clauses without common variables have opposite instances, what is left is an
instance of a resolvent. -/
theorem exists_mem_resolventsApart (hu : u.occursCheck = true) {left right : Clause}
    (hleft : left.wellFormed = true) (hright : right.wellFormed = true)
    (hd : ∀ p ∈ resolutionPairs left right, u.withinDepth p = true) {θ : Var → Term} {l m : Literal}
    (hl : l ∈ left) (hm : m ∈ right) (hsign : l.positive ≠ m.positive)
    (hatom : l.atom.inst θ = m.atom.inst θ) (ns : NameSource) :
    ∃ i ∈ (resolventsApart u left right ns).1, ∃ v,
      i.conclusion.instSet v = left.instRest l θ ∪ right.instRest m θ := by
  have hsig := Literal.sameSignature_of_inst hatom
  have hpair : (l, m) ∈ resolutionPairs left right :=
    List.mem_filter.mpr ⟨List.mem_flatMap.mpr ⟨l, hl, List.mem_map_of_mem hm⟩, by simp [hsign, hsig]⟩
  obtain ⟨σ, hσ, hgen⟩ := Unifier.exists_unifier hu (Clause.wellFormed_iff.mp hleft l hl)
    (Clause.wellFormed_iff.mp hright m hm) (hd _ hpair) hatom
  have hsome : ∀ ns, resolveOn u left right l m ns ≠ none := by
    intro ns
    simp [resolveOn, hsign, hsig, hσ]
  obtain ⟨ns₁, i, ns₂, hi, hmem⟩ := exists_mem_tryEach (fun p => resolveOn u left right p.1 p.2)
    hpair hsome ns
  rw [← resolventsApart_eq] at hmem
  obtain ⟨-, -, σ', hσ', rfl⟩ := resolveOn_eq_some hi
  cases hσ.symm.trans hσ'
  obtain ⟨v, hv⟩ := Clause.instantiateFresh_inst (left.without l ++ right.without m) hgen ns₁
  refine ⟨_, hmem, v, hv.trans (Set.ext fun k => ?_)⟩
  simp only [Clause.instRest, Set.mem_ofPred_eq, Set.mem_union, List.mem_append, Clause.mem_without,
    or_and_right, exists_or, and_assoc]

theorem resolventsApart_fit (hu : u.occursCheck = true) {left right : Clause} (hleft : left.Fit)
    (hright : right.Fit) (ns : NameSource) : ∀ i ∈ (resolventsApart u left right ns).1, i.conclusion.Fit := by
  intro i hi
  refine ⟨(resolventsApart_valid hu hleft.wellFormed hright.wellFormed ns i hi).wellFormed, ?_⟩
  obtain ⟨⟨l, m⟩, -, ns₁, ns₂, h⟩ := mem_tryEach hi
  obtain ⟨-, -, σ, -, rfl⟩ := resolveOn_eq_some h
  refine Clause.hasEq_subst (Clause.hasEq_subst (Clause.hasEq_eq_false.mpr fun k hk => ?_))
  rcases List.mem_append.mp (Clause.mem_ofList.mp hk) with hk | hk
  · exact Clause.hasEq_eq_false.mp hleft.noEq k (Clause.mem_without.mp hk).1
  · exact Clause.hasEq_eq_false.mp hright.noEq k (Clause.mem_without.mp hk).1

namespace Session

variable {s : Session} {left right : Sourced}

/-- The clauses that are found are the conclusions of the inferences. -/
theorem clausesIn_resolvents {c : Clause} : c ∈ clausesIn (s.resolvents u left right).1 ↔
    ∃ i ∈ (resolventsApart u left.clause (s.separate left right).1.clause
      (s.separate left right).2.names).1, i.conclusion = c := by
  have hmap : (s.resolvents u left right).1.map Sourced.clause =
      (resolventsApart u left.clause (s.separate left right).1.clause
        (s.separate left right).2.names).1.map Inference.conclusion := record_clauses ..
  rw [← List.mem_map, ← hmap, List.mem_map]
  rfl

theorem resolvents_fit (hu : u.occursCheck = true) (hleft : left.clause.Fit)
    (hright : right.clause.Fit) : ∀ c ∈ clausesIn (s.resolvents u left right).1, c.Fit := by
  intro c hc
  obtain ⟨i, hi, rfl⟩ := clausesIn_resolvents.mp hc
  exact resolventsApart_fit hu hleft (separate_fit hright) _ i hi

/-- Where a literal of the one clause has an instance opposite to that of a literal of the other, what is
left of the two instances is an instance of a resolvent. -/
theorem exists_mem_resolvents (hu : u.occursCheck = true) (hleft : left.clause.wellFormed = true)
    (hright : right.clause.wellFormed = true)
    (hd : ∀ p ∈ resolutionPairs left.clause (s.separate left right).1.clause, u.withinDepth p = true)
    {v w : Var → Term} {l m : Literal} (hl : l ∈ left.clause) (hm : m ∈ right.clause)
    (hsign : l.positive ≠ m.positive) (hatom : l.atom.inst v = m.atom.inst w) :
    ∃ r ∈ (s.resolvents u left right).1, ∃ z,
      r.clause.instSet z = left.clause.instRest l v ∪ right.clause.instRest m w := by
  obtain ⟨f, hf, hjoint⟩ := s.separate_joint left right
  obtain ⟨θ, hθl, hθr⟩ := hjoint v w
  have hinj : ∀ m' ∈ right.clause, f m' = f m → m' = m := by
    intro m' hm' he
    obtain ⟨ι, -, hι⟩ := hjoint .var .var
    rw [← Literal.inst_id m', ← Literal.inst_id m, ← hι m' hm', ← hι m hm, he]
  have hsign' : l.positive ≠ (f m).positive := by
    have hpos : ((f m).inst θ).positive = (m.inst w).positive := congrArg _ (hθr m hm)
    exact fun h => hsign (h.trans hpos)
  have hatom' : l.atom.inst θ = (f m).atom.inst θ := by
    have hl' : (l.inst θ).atom = (l.inst v).atom := congrArg _ (hθl l hl)
    have hm' : ((f m).inst θ).atom = (m.inst w).atom := congrArg _ (hθr m hm)
    exact hl'.trans (hatom.trans hm'.symm)
  obtain ⟨i, hi, z, hz⟩ := exists_mem_resolventsApart hu hleft (separate_wellFormed hright) hd hl
    ((hf _).mpr ⟨m, hm, rfl⟩) hsign' hatom' (s.separate left right).2.names
  obtain ⟨r, hr, hri⟩ := clausesIn_resolvents.mpr ⟨i, hi, rfl⟩
  -- What is left of the separate clauses under `θ` is what is left of the instances.
  have hrestl : left.clause.instRest l θ = left.clause.instRest l v := by
    refine Set.ext fun k => exists_congr fun l' => and_congr_right fun hl' => ?_
    rw [hθl l' hl']
  have hrestr : (s.separate left right).1.clause.instRest (f m) θ = right.clause.instRest m w := by
    refine Set.ext fun k => ⟨?_, ?_⟩
    · rintro ⟨_, hk, hne, rfl⟩
      obtain ⟨m', hm', rfl⟩ := (hf _).mp hk
      exact ⟨m', hm', fun he => hne (congrArg f he), (hθr m' hm').symm⟩
    · rintro ⟨m', hm', hne, rfl⟩
      exact ⟨f m', (hf _).mpr ⟨m', hm', rfl⟩, fun he => hne (hinj m' hm' he), hθr m' hm'⟩
  refine ⟨r, hr, z, ?_⟩
  rw [hri, hz, hrestl, hrestr]

/-- The resolvents of two clauses cover those of their instances. -/
theorem resolvents_cover (hu : u.occursCheck = true) (hleft : left.clause.Fit)
    (hright : right.clause.Fit)
    (hd : ∀ p ∈ resolutionPairs left.clause (s.separate left right).1.clause, u.withinDepth p = true) :
    ResolventsCovered (clausesIn (s.resolvents u left right).1) left.clause right.clause := by
  intro v w l hl m hm hsign hatom
  obtain ⟨r, hr, z, hz⟩ := exists_mem_resolvents hu hleft.wellFormed hright.wellFormed hd hl hm hsign
    hatom
  exact .inr ⟨r.clause, ⟨r, hr, rfl⟩, z, hz.subset⟩

end Session

/-! ## Paramodulation -/

/-- Without equations there is nothing to replace by. -/
theorem replacements_eq_nil {source : Clause} (h : source.hasEq = false) (into : Clause) :
    replacements source into = [] := by
  refine List.eq_nil_iff_forall_not_mem.mpr fun w hw => ?_
  obtain ⟨l, r, he, hmem, -⟩ := mem_replacements hw
  have hno := Clause.hasEq_eq_false.mp h w.equation hmem
  rw [he] at hno
  cases hno

theorem Session.paramodulants_eq_nil {s : Session} {left right : Sourced} (hleft : left.clause.Fit)
    (hright : right.clause.Fit) : (s.paramodulants u left right).1 = [] := by
  have hright' : (s.separate left right).1.clause.Fit := separate_fit hright
  unfold paramodulants
  simp only [paramodulantsInto, replacements_eq_nil hleft.noEq, replacements_eq_nil hright'.noEq,
    tryEach, record, List.append_nil]

/-! ## Factoring -/

theorem mem_pairs_or {α : Type} {xs : List α} {a b : α} (ha : a ∈ xs) (hb : b ∈ xs) (hne : a ≠ b) :
    (a, b) ∈ pairs xs ∨ (b, a) ∈ pairs xs := by
  induction xs with
  | nil => cases ha
  | cons x xs ih =>
    rw [pairs]
    rcases List.mem_cons.mp ha with rfl | ha'
    · have hb' := (List.mem_cons.mp hb).resolve_left hne.symm
      exact .inl (List.mem_append_left _ (List.mem_map_of_mem hb'))
    · rcases List.mem_cons.mp hb with rfl | hb'
      · exact .inr (List.mem_append_left _ (List.mem_map_of_mem ha'))
      · exact (ih ha' hb').imp (List.mem_append_right _) (List.mem_append_right _)

/-- The listed pairs are those on which factoring is attempted. -/
theorem directFactors_eq (u : Unifier) (c : Clause) :
    directFactors u c = (factorPairs c).filterMap fun (l, m) =>
      match u.literals l m with
      | .error _ => none
      | .ok σ => some ⟨c.subst σ, .factor σ⟩ := by
  rw [factorPairs, List.filterMap_filter, directFactors]
  refine List.filterMap_congr fun (l, m) _ => ?_
  have hguard : (l.positive != m.positive || !l.sameSignature m) =
      !(l.positive == m.positive && l.sameSignature m) := by
    rw [Bool.not_and]
    rfl
  simp only [hguard]
  cases l.positive == m.positive && l.sameSignature m with
  | false => rfl
  | true => cases u.literals l m <;> rfl

/-- Where two literals of a clause have the same instance, the clause has a factor with that
instance. -/
theorem exists_mem_directFactors (hu : u.occursCheck = true) {c : Clause} (hc : c.wellFormed = true)
    (hd : ∀ p ∈ factorPairs c, u.withinDepth p = true) {v : Var → Term} {l m : Literal} (hl : l ∈ c)
    (hm : m ∈ c) (hne : l ≠ m) (he : l.inst v = m.inst v) :
    ∃ i ∈ directFactors u c, i.conclusion.instSet v = c.instSet v := by
  wlog hpair : (l, m) ∈ pairs c.literals generalizing l m with hsymm
  · exact hsymm hm hl hne.symm he.symm ((mem_pairs_or hl hm hne).resolve_left hpair)
  have hsign : (l.inst v).positive = (m.inst v).positive := congrArg _ he
  have hatom : (l.inst v).atom = (m.inst v).atom := congrArg _ he
  rw [Literal.positive_inst, Literal.positive_inst] at hsign
  have hsig := Literal.sameSignature_of_inst hatom
  have hlisted : (l, m) ∈ factorPairs c := List.mem_filter.mpr ⟨hpair, by simp [hsign, hsig]⟩
  obtain ⟨σ, hσ, hgen⟩ := Unifier.exists_unifier hu (Clause.wellFormed_iff.mp hc l hl)
    (Clause.wellFormed_iff.mp hc m hm) (hd _ hlisted) hatom
  rw [directFactors_eq]
  refine ⟨⟨c.subst σ, .factor σ⟩, List.mem_filterMap.mpr ⟨(l, m), hlisted, ?_⟩, ?_⟩
  · simp [hσ]
  · refine Set.ext fun k => ⟨?_, ?_⟩
    · rintro ⟨_, hk, rfl⟩
      obtain ⟨k', hk', rfl⟩ := Clause.mem_subst.mp hk
      rw [hgen.literal]
      exact c.mem_instSet hk' v
    · rintro ⟨k', hk', rfl⟩
      exact ⟨k'.subst σ, Clause.mem_subst.mpr ⟨k', hk', rfl⟩, hgen.literal k'⟩

namespace Factors

variable {whole : Clause} {fs fs' fs'' : Factors} {is js : List Inference}

/-- The clause is the whole one or was found, in whatever order of literals. -/
def Has (whole : Clause) (fs : Factors) (c : Clause) : Prop :=
  c.same whole = true ∨ ∃ y ∈ fs.found, y.clause.same c = true

/-- From the first to the second, conclusions of the inferences were found, and none was missed. -/
structure Adds (whole : Clause) (is : List Inference) (fs fs' : Factors) : Prop where
  grows : ∃ new, fs'.found = fs.found ++ new ∧ ∀ y ∈ new, ∃ i ∈ is, y.clause = i.conclusion
  has : ∀ i ∈ is, fs'.Has whole i.conclusion

theorem Adds.nil (fs : Factors) : Adds whole [] fs fs := ⟨⟨[], by simp, nofun⟩, nofun⟩

theorem Adds.sub (h : Adds whole is fs fs') {y : Sourced} (hy : y ∈ fs.found) : y ∈ fs'.found := by
  obtain ⟨new, he, -⟩ := h.grows
  rw [he]
  exact List.mem_append_left _ hy

theorem Adds.keeps (h : Adds whole is fs fs') {c : Clause} (hc : fs.Has whole c) : fs'.Has whole c :=
  hc.imp_right fun ⟨y, hy, hs⟩ => ⟨y, h.sub hy, hs⟩

theorem Adds.append (h : Adds whole is fs fs') (h' : Adds whole js fs' fs'') :
    Adds whole (is ++ js) fs fs'' := by
  obtain ⟨new, he, hnew⟩ := h.grows
  obtain ⟨new', he', hnew'⟩ := h'.grows
  refine ⟨⟨new ++ new', by rw [he', he, List.append_assoc], fun y hy => ?_⟩, fun i hi => ?_⟩
  · rcases List.mem_append.mp hy with hy | hy
    · obtain ⟨i, hi, hyi⟩ := hnew y hy
      exact ⟨i, List.mem_append_left _ hi, hyi⟩
    · obtain ⟨i, hi, hyi⟩ := hnew' y hy
      exact ⟨i, List.mem_append_right _ hi, hyi⟩
  · rcases List.mem_append.mp hi with hi | hi
    · exact h'.keeps (h.has i hi)
    · exact h'.has i hi

theorem add_adds (whole : Clause) (parent : Sourced) (fs : Factors) (i : Inference) :
    Adds whole [i] fs (add whole parent fs i) := by
  unfold add
  split
  · rename_i h
    simp only [Bool.or_eq_true, List.any_eq_true] at h
    exact ⟨⟨[], by simp, nofun⟩, fun j hj => by cases List.mem_singleton.mp hj; exact h⟩
  · refine ⟨⟨[_], rfl, fun y hy => ?_⟩, fun j hj => ?_⟩
    · cases List.mem_singleton.mp hy
      exact ⟨i, List.mem_cons_self, Derivation.derive_clause ..⟩
    · cases List.mem_singleton.mp hj
      exact .inr ⟨_, List.mem_append_right _ List.mem_cons_self, Clause.same_refl _⟩

theorem expand_adds (u : Unifier) (whole : Clause) (fs : Factors) (parent : Sourced) :
    Adds whole (directFactors u parent.clause) fs (expand u whole fs parent) := by
  unfold expand
  generalize directFactors u parent.clause = is
  induction is generalizing fs with
  | nil => exact .nil fs
  | cons i is ih => exact (add_adds whole parent fs i).append (ih _)

theorem foldl_expand_adds (u : Unifier) (whole : Clause) (level : List Sourced) (fs : Factors) :
    Adds whole (level.flatMap fun p => directFactors u p.clause) fs (level.foldl (expand u whole) fs) := by
  induction level generalizing fs with
  | nil => exact .nil fs
  | cons p level ih => exact (expand_adds u whole fs p).append (ih _)

theorem rounds_succ {n : Nat} {p : Sourced} {level new : List Sourced}
    (h : ((p :: level).foldl (expand u whole) fs).found = fs.found ++ new) :
    rounds u whole (n + 1) (p :: level) fs =
      rounds u whole n new ((p :: level).foldl (expand u whole) fs) := by
  rw [rounds, h, List.drop_left]
  exact List.cons_ne_nil p level

/-- One round finds the direct factors of a level and goes on with what is new among them. -/
theorem rounds_cons (u : Unifier) (whole : Clause) (n : Nat) (p : Sourced) (level : List Sourced)
    (fs : Factors) : ∃ new fs', rounds u whole (n + 1) (p :: level) fs = rounds u whole n new fs' ∧
      fs'.found = fs.found ++ new ∧
      (∀ y ∈ new, ∃ q ∈ p :: level, ∃ i ∈ directFactors u q.clause, y.clause = i.conclusion) ∧
      ∀ q ∈ p :: level, ∀ i ∈ directFactors u q.clause, fs'.Has whole i.conclusion := by
  have hadds := foldl_expand_adds u whole (p :: level) fs
  obtain ⟨new, he, hnew⟩ := hadds.grows
  refine ⟨new, (p :: level).foldl (expand u whole) fs, rounds_succ he, he, fun y hy => ?_,
    fun q hq i hi => ?_⟩
  · obtain ⟨i, hi, hyi⟩ := hnew y hy
    obtain ⟨q, hq, hi⟩ := List.mem_flatMap.mp hi
    exact ⟨q, hq, i, hi, hyi⟩
  · exact hadds.has i (List.mem_flatMap.mpr ⟨q, hq, hi⟩)

/-- What rounds find has every property that direct factors take over. -/
theorem rounds_forall {Q : Clause → Prop} (hQ : ∀ c, Q c → ∀ i ∈ directFactors u c, Q i.conclusion)
    {n : Nat} {level : List Sourced} (hlevel : ∀ p ∈ level, Q p.clause)
    (hfound : ∀ y ∈ fs.found, Q y.clause) : ∀ y ∈ (rounds u whole n level fs).found, Q y.clause := by
  induction n generalizing level fs with
  | zero => exact hfound
  | succ n ih =>
    cases level with
    | nil => exact hfound
    | cons p level =>
      obtain ⟨new, fs', hr, he, hnew, -⟩ := rounds_cons u whole n p level fs
      have hnewQ : ∀ y ∈ new, Q y.clause := by
        intro y hy
        obtain ⟨q, hq, i, hi, hyi⟩ := hnew y hy
        rw [hyi]
        exact hQ q.clause (hlevel q hq) i hi
      rw [hr]
      refine ih hnewQ fun y hy => ?_
      rw [he] at hy
      exact (List.mem_append.mp hy).elim (hfound y) (hnewQ y)

/-- The direct factors of the clause were found. -/
def Expanded (u : Unifier) (whole : Clause) (fs : Factors) (x : Sourced) : Prop :=
  ∀ i ∈ directFactors u x.clause, fs.Has whole i.conclusion

/-- Rounds end when all that was found is expanded: each has fewer literals than the last. -/
theorem rounds_expanded (hu : u.occursCheck = true) {root : Sourced} {n : Nat} {level : List Sourced}
    (hlevel : ∀ p ∈ level, p.clause.wellFormed = true ∧ p.clause.size ≤ n)
    (hrest : ∀ x ∈ root :: fs.found, x ∈ level ∨ Expanded u whole fs x) :
    ∀ x ∈ root :: (rounds u whole n level fs).found, Expanded u whole (rounds u whole n level fs) x := by
  induction n generalizing level fs with
  | zero =>
    -- A clause without literals has no factors.
    intro x hx
    refine (hrest x hx).elim (fun hl i hi => ?_) id
    obtain ⟨σ, -, -, hlt⟩ := directFactors_cases hu (hlevel x hl).1 hi
    have hle := (hlevel x hl).2
    omega
  | succ n ih =>
    cases level with
    | nil => exact fun x hx => (hrest x hx).resolve_left (List.not_mem_nil)
    | cons p level =>
      obtain ⟨new, fs', hr, he, hnew, hhas⟩ := rounds_cons u whole n p level fs
      rw [hr]
      refine ih (fun y hy => ?_) fun x hx => ?_
      · obtain ⟨q, hq, i, hi, hyi⟩ := hnew y hy
        obtain ⟨hqw, hqn⟩ := hlevel q hq
        obtain ⟨σ, rfl, hσ, hlt⟩ := directFactors_cases hu hqw hi
        rw [hyi]
        exact ⟨Clause.wellFormed_subst hqw hσ, by simp only; omega⟩
      · rw [he, ← List.cons_append] at hx
        rcases List.mem_append.mp hx with hx | hx
        · refine .inr ((hrest x hx).elim (hhas x) fun hexp i hi => ?_)
          refine (hexp i hi).imp_right fun ⟨y, hy, hs⟩ => ⟨y, ?_, hs⟩
          rw [he]
          exact List.mem_append_left _ hy
        · exact .inl hx

end Factors

/-- The factors of a clause have every property that direct factors take over. -/
theorem factors_forall {Q : Clause → Prop} (hQ : ∀ c, Q c → ∀ i ∈ directFactors u c, Q i.conclusion)
    {c : Sourced} (hc : Q c.clause) (d : Derivation) : ∀ x ∈ c :: (factors u c d).1, Q x.clause := by
  obtain ⟨n, -, he⟩ := factors_eq u c d
  rw [he, List.forall_mem_cons]
  exact ⟨hc, Factors.rounds_forall hQ (by simpa using hc) nofun⟩

theorem factors_wellFormed (hu : u.occursCheck = true) {c : Sourced} (hc : c.clause.wellFormed = true)
    (d : Derivation) : ∀ x ∈ c :: (factors u c d).1, x.clause.wellFormed = true := by
  refine factors_forall (Q := (·.wellFormed = true)) (fun c hc i hi => ?_) hc d
  obtain ⟨σ, rfl, hσ, -⟩ := directFactors_cases hu hc hi
  exact Clause.wellFormed_subst hc hσ

theorem factors_fit (hu : u.occursCheck = true) {c : Sourced} (hc : c.clause.Fit) (d : Derivation) :
    ∀ x ∈ c :: (factors u c d).1, x.clause.Fit := by
  refine factors_forall (fun c hc i hi => ?_) hc d
  obtain ⟨σ, rfl, hσ, -⟩ := directFactors_cases hu hc.wellFormed hi
  exact hc.subst hσ

/-- Every direct factor of a clause and its factors is one of them. -/
theorem exists_mem_factors (hu : u.occursCheck = true) {c : Sourced} (hc : c.clause.wellFormed = true)
    (d : Derivation) {x : Sourced} (hx : x ∈ c :: (factors u c d).1) {i : Inference}
    (hi : i ∈ directFactors u x.clause) :
    ∃ y ∈ c :: (factors u c d).1, y.clause.same i.conclusion = true := by
  obtain ⟨n, hn, he⟩ := factors_eq u c d
  rw [he] at hx ⊢
  have hexp : Factors.Expanded u c.clause (.rounds u c.clause n [c] { derivation := d }) x :=
    Factors.rounds_expanded hu (by simpa using ⟨hc, hn⟩) (by simp) x hx
  rcases hexp i hi with hs | ⟨y, hy, hs⟩
  · exact ⟨c, List.mem_cons_self, Clause.same_symm hs⟩
  · exact ⟨y, List.mem_cons_of_mem _ hy, hs⟩

/-- A clause and its factors cover the factors of their instances. -/
theorem factors_cover (hu : u.occursCheck = true) {c : Sourced} (hc : c.clause.Fit) (d : Derivation)
    (hd : ∀ p ∈ factorProblems u c d, u.withinDepth p = true) :
    ∀ x ∈ c :: (factors u c d).1, FactorsCovered (clausesIn (c :: (factors u c d).1)) x.clause := by
  intro x hx v l hl m hm hne he
  have hxw := (factors_fit hu hc d x hx).wellFormed
  obtain ⟨i, hi, hinst⟩ := exists_mem_directFactors hu hxw
    (fun p hp => hd p (List.mem_flatMap.mpr ⟨x, hx, hp⟩)) hl hm hne he
  obtain ⟨y, hy, hs⟩ := exists_mem_factors hu hc.wellFormed d hx hi
  have hsize := (Clause.subsumes_of_same hs).size_le
  obtain ⟨σ, rfl, -, hlt⟩ := directFactors_cases hu hxw hi
  refine .inr ⟨y.clause, ⟨⟨y, hy, rfl⟩, hsize.trans_lt hlt⟩, v, ?_⟩
  rintro _ ⟨k, hk, rfl⟩
  exact hinst.subset (Clause.mem_instSet ((Clause.same_iff.mp hs k).mp hk) v)

end Refutation
