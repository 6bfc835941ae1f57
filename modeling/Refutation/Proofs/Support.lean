import Refutation.Proofs.Course
import Refutation.Proofs.Reported

/-!
# The set of support

A search infers from its support. The background is active from the start but does not wait until
the support is exhausted, so up to then one parent of every inference rests on the support.

* `Derivation.RestsOn`, `Sourced.Rooted`: a step with a property is among those that a step, or the
  step behind a clause, rests on.
* `Derivation.Inherits`: what is recorded is rooted if one of its parents is. So it is with every
  inference.
* `Search.Supported`, `Course.Driven`: the invariant of states, and of a course up to the point where
  the background is queued.
* `Course.support_drives`: all that is kept or on its way rests on the support, and no clause of the
  background is given.
-/

namespace Refutation

variable {A : Step → Prop} {d d' d₁ : Derivation}

/-! ## Ancestors -/

namespace Derivation

/-- The step has the property, or a step that it rests on has. -/
inductive RestsOn (A : Step → Prop) (d : Derivation) : Nat → Prop
  | here {i : Nat} {s : Step} (hs : d.steps[i]? = some s) (hA : A s) : RestsOn A d i
  | above {i j : Nat} {s : Step} (hs : d.steps[i]? = some s) (hj : j ∈ s.premises)
      (h : RestsOn A d j) : RestsOn A d i

theorem RestsOn.mono {i : Nat} (h : d.RestsOn A i) (hd : d.Extends d') : d'.RestsOn A i := by
  induction h with
  | here hs hA => exact .here (hd _ _ hs) hA
  | above hs hj _ ih => exact .above (hd _ _ hs) hj ih

/-- The step with the property is in every list that holds the step and all that it rests on. -/
theorem RestsOn.exists_mem {order : List Nat} (ho : d.Closed order) {i : Nat} (h : d.RestsOn A i)
    (hi : i ∈ order) : ∃ j ∈ order, ∃ s, d.steps[j]? = some s ∧ A s := by
  induction h with
  | @here i s hs hA => exact ⟨i, hi, s, hs, hA⟩
  | above hs hj _ ih =>
    obtain ⟨hlt, hprem⟩ := ho _ hi
    rw [Array.getElem?_eq_getElem hlt] at hs
    cases hs
    exact ih (hprem _ hj)

end Derivation

/-- The step behind the clause rests on one with the property. A clause without a step has the premise
that will state it. -/
def Sourced.Rooted (A : Step → Prop) (d : Derivation) (c : Sourced) : Prop :=
  match c.step with
  | none => A ⟨c.clause, .premise, []⟩
  | some i => d.RestsOn A i

theorem Sourced.Rooted.mono {c : Sourced} (h : c.Rooted A d) (hd : d.Extends d') : c.Rooted A d' := by
  unfold Rooted at h ⊢
  split at h
  · exact h
  · exact Derivation.RestsOn.mono h hd

/-! ## Citing -/

namespace Derivation

theorem getElem?_push_size {s : Step} (h : ∀ p ∈ s.premises, p < d.size) :
    (d.push s h).steps[d.size]? = some s := getElem?_push.mpr (.inl ⟨rfl, rfl⟩)

theorem cite_extends (d : Derivation) (c : Sourced) : d.Extends (d.cite c).1.1 := by
  have hinput : d.Extends (d.input c.clause .premise) := extends_push
  unfold cite
  split
  · split
    · exact .refl d
    · exact hinput
  · exact hinput

theorem cite_restsOn {c : Sourced} (h : c.Rooted A d) : (d.cite c).1.1.RestsOn A (d.cite c).1.2 := by
  unfold Sourced.Rooted at h
  unfold cite
  split
  · rename_i i hi
    rw [hi] at h
    have hlt : i < d.size := by
      cases h with
      | here hs _ | above hs _ _ => exact lt_size_of_getElem? hs
    rw [dif_pos hlt]
    exact h
  · rename_i hi
    rw [hi] at h
    have hlast : (d.input c.clause .premise).steps[d.size]? = some ⟨c.clause, .premise, []⟩ :=
      getElem?_push_size _
    exact .here hlast h

theorem citeAll_extends (d : Derivation) (cs : List Sourced) : d.Extends (d.citeAll cs).1.1 := by
  induction cs generalizing d with
  | nil => exact .refl d
  | cons c cs ih => exact (d.cite_extends c).trans (ih _)

theorem citeAll_restsOn {cs : List Sourced} (h : ∃ c ∈ cs, c.Rooted A d) :
    ∃ i ∈ (d.citeAll cs).1.2, (d.citeAll cs).1.1.RestsOn A i := by
  induction cs generalizing d with
  | nil => simp at h
  | cons c cs ih =>
    obtain ⟨x, hx, hroot⟩ := h
    rcases List.mem_cons.mp hx with rfl | hx
    · exact ⟨_, List.mem_cons_self, (cite_restsOn hroot).mono (citeAll_extends _ cs)⟩
    · obtain ⟨i, hi, hrests⟩ := ih ⟨x, hx, hroot.mono (d.cite_extends c)⟩
      exact ⟨i, List.mem_cons_of_mem _ hi, hrests⟩

/-! ## Recording -/

/-- Recording the clauses `cs` for `parents` takes `d` to `d'`: it grows, and they are rooted if one of
the parents is. -/
structure Inherits (A : Step → Prop) (d : Derivation) (parents cs : List Sourced) (d' : Derivation) :
    Prop where
  grows : d.Extends d'
  rooted : (∃ p ∈ parents, p.Rooted A d) → ∀ c ∈ cs, c.Rooted A d'

variable {parents cs ds : List Sourced}

theorem Inherits.append (h : Inherits A d parents cs d₁) (h' : Inherits A d₁ parents ds d') :
    Inherits A d parents (cs ++ ds) d' where
  grows := h.grows.trans h'.grows
  rooted := fun ⟨p, hp, hroot⟩ => List.forall_mem_append.mpr
    ⟨fun c hc => (h.rooted ⟨p, hp, hroot⟩ c hc).mono h'.grows, h'.rooted ⟨p, hp, hroot.mono h.grows⟩⟩

theorem Inherits.of_subset {parents' : List Sourced} (h : Inherits A d parents cs d')
    (hsub : parents' ⊆ parents) : Inherits A d parents' cs d' where
  grows := h.grows
  rooted := fun ⟨p, hp, hroot⟩ => h.rooted ⟨p, hsub hp, hroot⟩

theorem derive_inherits (d : Derivation) (c : Clause) (rule : Rule) (parents : List Sourced) :
    Inherits A d parents [(d.derive c rule parents).1] (d.derive c rule parents).2 := by
  have hpremises := (d.citeAll parents).2.1
  have hgrows := extends_push (s := ⟨c, rule, (d.citeAll parents).1.2⟩) (h := hpremises)
  refine ⟨(d.citeAll_extends parents).trans hgrows, fun h => List.forall_mem_singleton.mpr ?_⟩
  obtain ⟨i, hi, hrests⟩ := citeAll_restsOn h
  exact .above (getElem?_push_size hpremises) hi (hrests.mono hgrows)

end Derivation

namespace Session

theorem record_inherits (parents : List Sourced) (is : List Inference) (d : Derivation) :
    d.Inherits A parents (record parents is d).1 (record parents is d).2 := by
  induction is generalizing d with
  | nil => exact ⟨.refl d, nofun⟩
  | cons i is ih => exact (d.derive_inherits i.conclusion i.rule parents).append (ih _)

theorem separate_inherits (s : Session) (c other : Sourced) :
    s.derivation.Inherits A [other] [(s.separate c other).1] (s.separate c other).2.derivation := by
  unfold separate
  simp only
  split
  · exact ⟨.refl _, by simp⟩
  · exact s.derivation.derive_inherits ..

/-- Clauses that are recorded once the second parent is renamed apart. -/
theorem inherits_of_separate {s : Session} {left right : Sourced} {cs : List Sourced}
    (h : (s.separate left right).2.derivation.Inherits A [left, (s.separate left right).1] cs d') :
    s.derivation.Inherits A [left, right] cs d' := by
  have hsep := s.separate_inherits (A := A) left right
  refine ⟨hsep.grows.trans h.grows, fun ⟨p, hp, hroot⟩ => h.rooted ?_⟩
  rcases List.mem_pair.mp hp with rfl | rfl
  · exact ⟨p, List.mem_cons_self, hroot.mono hsep.grows⟩
  · refine ⟨(s.separate left p).1, by simp, ?_⟩
    exact hsep.rooted ⟨p, List.mem_singleton_self p, hroot⟩ _ (List.mem_singleton_self _)

theorem resolvents_inherits (s : Session) (u : Unifier) (left right : Sourced) :
    s.derivation.Inherits A [left, right] (s.resolvents u left right).1
      (s.resolvents u left right).2.derivation :=
  inherits_of_separate (record_inherits ..)

theorem paramodulants_inherits (s : Session) (u : Unifier) (left right : Sourced) :
    s.derivation.Inherits A [left, right] (s.paramodulants u left right).1
      (s.paramodulants u left right).2.derivation :=
  inherits_of_separate ((record_inherits ..).append
    ((record_inherits [(s.separate left right).1, left] ..).of_subset (by simp)))

end Session

/-! ## Factoring -/

namespace Factors

variable {u : Unifier} {whole : Clause} {c parent : Sourced} {fs : Factors} {level : List Sourced}

/-- The factors that are found for a clause are rooted if the clause is. -/
def Inherit (A : Step → Prop) (d : Derivation) (c : Sourced) (fs : Factors) : Prop :=
  d.Inherits A [c] (c :: fs.found) fs.derivation

theorem found_subset_add (whole : Clause) (parent : Sourced) (fs : Factors) (i : Inference) :
    fs.found ⊆ (add whole parent fs i).found := by
  unfold add
  split
  · exact fun _ h => h
  · exact List.subset_append_left ..

/-- A factor of the clause, or of a factor that was found, may be added. -/
theorem Inherit.add (h : fs.Inherit A d c) (hp : parent ∈ c :: fs.found) (i : Inference) :
    (add whole parent fs i).Inherit A d c := by
  unfold Factors.add
  split
  · exact h
  · have hnew := fs.derivation.derive_inherits (A := A) i.conclusion i.rule [parent]
    refine ⟨h.grows.trans hnew.grows, fun hroot => ?_⟩
    have hold := h.rooted hroot
    rw [← List.cons_append, List.forall_mem_append]
    exact ⟨fun x hx => (hold x hx).mono hnew.grows,
      hnew.rooted ⟨parent, List.mem_singleton_self _, hold parent hp⟩⟩

theorem Inherit.expand (h : fs.Inherit A d c) (hp : parent ∈ c :: fs.found) :
    (expand u whole fs parent).Inherit A d c ∧ fs.found ⊆ (expand u whole fs parent).found := by
  refine List.foldlRecOn (motive := fun fs' : Factors => fs'.Inherit A d c ∧ fs.found ⊆ fs'.found) _ _
    ⟨h, fun _ hx => hx⟩ fun fs' ⟨h', hsub⟩ i _ => ?_
  exact ⟨h'.add (List.cons_subset_cons c hsub hp) i, List.Subset.trans hsub (found_subset_add ..)⟩

theorem Inherit.foldl_expand (h : fs.Inherit A d c) (hlevel : level ⊆ c :: fs.found) :
    (level.foldl (Factors.expand u whole) fs).Inherit A d c := by
  refine (List.foldlRecOn (motive := fun fs' : Factors => fs'.Inherit A d c ∧ fs.found ⊆ fs'.found)
    _ _ ⟨h, fun _ hx => hx⟩ fun fs' ⟨h', hsub⟩ parent hp => ?_).1
  obtain ⟨hnext, hsub'⟩ := h'.expand (List.cons_subset_cons c hsub (hlevel hp))
  exact ⟨hnext, List.Subset.trans hsub hsub'⟩

theorem Inherit.rounds {n : Nat} (h : fs.Inherit A d c) (hlevel : level ⊆ c :: fs.found) :
    (rounds u whole n level fs).Inherit A d c := by
  induction n generalizing level fs with
  | zero => exact h
  | succ n ih =>
    cases level with
    | nil => exact h
    | cons parent level =>
      exact ih (h.foldl_expand hlevel) fun x hx => List.mem_cons_of_mem c (List.mem_of_mem_drop hx)

end Factors

theorem factors_inherits (u : Unifier) (c : Sourced) (d : Derivation) :
    d.Inherits A [c] (c :: (factors u c d).1) (factors u c d).2 := by
  obtain ⟨n, -, he⟩ := factors_eq u c d
  rw [he]
  have hnone : Factors.Inherit A d c { derivation := d } := ⟨.refl d, by simp⟩
  exact hnone.rounds (List.Subset.refl _)

/-! ## States -/

namespace Search

theorem infer_inherits (s : Search) (left right : Sourced) :
    s.session.derivation.Inherits A [left, right] (s.infer left right).1
      (s.infer left right).2.derivation := by
  have h := s.session.resolvents_inherits (A := A) s.config.unifier left right
  unfold infer
  simp only
  split
  · exact h.append (Session.paramodulants_inherits ..)
  · exact h

/-- The clauses but those with the numbers in `B` are rooted, and none of those waits. -/
structure Supported (A : Step → Prop) (B : List Nat) (s : Search) : Prop where
  numbered : ∀ i ∈ B, i < s.clauses.size
  kept : ∀ i c, s.clauses[i]? = some c → i ∉ B → c.Rooted A s.session.derivation
  waiting : ∀ i ∈ s.passive, i ∉ B

variable {B : List Nat} {s s' : Search} {c : Sourced}

/-- A derivation may grow, and clauses may stop waiting. -/
theorem Supported.mono (h : s.Supported A B) (hclauses : s'.clauses = s.clauses)
    (hpassive : ∀ i ∈ s'.passive, i ∈ s.passive)
    (hgrows : s.session.derivation.Extends s'.session.derivation) : s'.Supported A B where
  numbered := hclauses ▸ h.numbered
  kept i c hc hi := (h.kept i c (hclauses ▸ hc) hi).mono hgrows
  waiting i hi := h.waiting i (hpassive i hi)

/-- A rooted clause may be kept, and wait in place of others. -/
theorem Supported.keep (h : s.Supported A B) (hc : c.Rooted A s.session.derivation)
    (hclauses : s'.clauses = s.clauses.push c)
    (hpassive : ∀ i ∈ s'.passive, i ∈ s.passive ∨ i = s.clauses.size)
    (hsession : s'.session = s.session) : s'.Supported A B where
  numbered i hi := by
    rw [hclauses, Array.size_push]
    exact Nat.lt_succ_of_lt (h.numbered i hi)
  kept i x hx hi := by
    rw [hsession]
    rw [hclauses, Array.getElem?_push] at hx
    split at hx
    · cases hx
      exact hc
    · exact h.kept i x hx hi
  waiting i hi hiB := by
    rcases hpassive i hi with hi | rfl
    · exact h.waiting i hi hiB
    · exact Nat.lt_irrefl _ (h.numbered _ hiB)

theorem Supported.absorb {o : Option Outcome} (h : s.Supported A B)
    (hc : c.Rooted A s.session.derivation) (ha : s.absorb c = (s', o)) : s'.Supported A B := by
  rcases absorb_state ha with ⟨as, n, rfl⟩ | ⟨rfl, -⟩
  · exact h.mono rfl (fun _ hi => hi) (.refl _)
  · refine h.keep hc rfl (fun i hi => ?_) rfl
    exact (mem_passive_admitted.mp hi).imp_left And.left

theorem absorb_background {o : Option Outcome} (ha : s.absorb c = (s', o)) :
    s'.background = s.background := by
  rcases absorb_state ha with ⟨as, n, rfl⟩ | ⟨rfl, -⟩ <;> rfl

/-! ## The start -/

theorem prepare_extends (u : Unifier) (cs : List Sourced) (d : Derivation) :
    d.Extends (prepare u cs d).2 := by
  induction cs generalizing d with
  | nil => exact .refl d
  | cons c cs ih =>
    unfold prepare
    split
    · exact ih d
    · exact (factors_inherits (A := fun _ => True) u c d).grows.trans (ih _)

theorem prepare_rooted {u : Unifier} {cs : List Sourced} (h : ∀ c ∈ cs, c.Rooted A d) :
    ∀ x ∈ (prepare u cs d).1, x.Rooted A (prepare u cs d).2 := by
  induction cs generalizing d with
  | nil => exact nofun
  | cons c cs ih =>
    rw [List.forall_mem_cons] at h
    unfold prepare
    split
    · exact ih h.2
    · have hf := factors_inherits (A := A) u c d
      have hroot := hf.rooted ⟨c, List.mem_singleton_self c, h.1⟩
      have hgrows := prepare_extends u cs (factors u c d).2
      rw [List.forall_mem_append]
      refine ⟨fun x hx => (hroot x ?_).mono hgrows, ih fun x hx => (h.2 x hx).mono hf.grows⟩
      rcases List.mem_cons.mp hx with rfl | hx
      · exact List.mem_cons_self
      · exact List.mem_cons_of_mem c (List.mem_filter.mp hx).1

theorem withReflexivity_extends (config : Config) (background support : List Sourced)
    (d : Derivation) : d.Extends (withReflexivity config background support d).2 := by
  unfold withReflexivity
  simp only
  split
  · exact (d.derive_inherits (A := fun _ => True) reflexivity (.builtin "reflexivity") []).grows
  · exact .refl d

/-- The background is taken in first: it has the first numbers, and nothing waits. -/
theorem foldl_addBackground (cs : List Sourced) (hs : s.passive = [])
    (hids : ∀ i, i < s.clauses.size ↔ i ∈ s.background) :
    (cs.foldl addBackground s).passive = [] ∧
      (∀ i, i < (cs.foldl addBackground s).clauses.size ↔ i ∈ (cs.foldl addBackground s).background) ∧
      (cs.foldl addBackground s).session = s.session := by
  refine List.foldlRecOn (motive := fun t : Search => t.passive = [] ∧
    (∀ i, i < t.clauses.size ↔ i ∈ t.background) ∧ t.session = s.session) _ _ ⟨hs, hids, rfl⟩ ?_
  rintro t ⟨hpassive, hids, hsession⟩ c -
  unfold addBackground
  split
  · exact ⟨hpassive, hids, hsession⟩
  · refine ⟨hpassive, fun i => ?_, hsession⟩
    simp only [Search.keep, Array.size_push, List.mem_append, List.mem_singleton, ← hids]
    omega

/-- Rooted clauses of the support are kept beside the background. -/
theorem Supported.foldl_addSupport (h : s.Supported A B) (cs : List Sourced)
    (hcs : ∀ c ∈ cs, c.Rooted A s.session.derivation) :
    (cs.foldl addSupport s).Supported A B ∧ (cs.foldl addSupport s).background = s.background := by
  have hall := List.foldlRecOn (motive := fun t : Search => t.Supported A B ∧
    t.background = s.background ∧ t.session = s.session) cs addSupport (b := s) ⟨h, rfl, rfl⟩ ?_
  · exact ⟨hall.1, hall.2.1⟩
  · rintro t ⟨ht, hback, hsession⟩ c hc
    unfold addSupport
    split
    · exact ⟨ht, hback, hsession⟩
    · refine ⟨ht.keep (hsession ▸ hcs c hc) rfl (fun i hi => ?_) rfl, hback, hsession⟩
      simpa using hi

/-- At the start all clauses but the background are rooted if the support is. -/
theorem start_supported (config : Config) (background : List Sourced) {support : List Sourced}
    (vars : List Var) (hs : ∀ c ∈ support, c.Rooted A d) :
    (start config background support vars d).Supported A
      (start config background support vars d).background := by
  have h₁ := prepare_extends config.unifier background d
  have h₂ := prepare_rooted (u := config.unifier) fun c hc => (hs c hc).mono h₁
  unfold start
  generalize prepare config.unifier background d = r₁ at h₁ h₂ ⊢
  obtain ⟨background, d₁⟩ := r₁
  simp only at h₂ ⊢
  generalize prepare config.unifier support d₁ = r₂ at h₂ ⊢
  obtain ⟨support, d₂⟩ := r₂
  simp only at h₂ ⊢
  have h₃ := withReflexivity_extends config (distinct background) (distinct support) d₂
  generalize withReflexivity config (distinct background) (distinct support) d₂ = r₃ at h₃ ⊢
  obtain ⟨background, d₃⟩ := r₃
  simp only at h₃ ⊢
  obtain ⟨hpassive, hids, hsession⟩ := foldl_addBackground (reduce background).1
    (s := { config, answerVars := vars, selector := { ratio := config.ageWeightRatio },
            session := { names := { stem := "c" }, derivation := d₃ },
            subsumed := (reduce background).2 + (reduce (distinct support)).2 }) rfl (by simp)
  generalize (reduce background).1.foldl addBackground _ = s at hpassive hids hsession ⊢
  have hbackground : s.Supported A s.background := by
    refine ⟨fun i => (hids i).mpr, fun i c hc hi => ?_, by simp [hpassive]⟩
    exact (hi ((hids i).mp (Array.getElem?_eq_some_iff.mp hc).1)).elim
  have hsupport : ∀ c ∈ (reduce (distinct support)).1, c.Rooted A s.session.derivation := by
    intro c hc
    rw [hsession]
    exact (h₂ c (distinct_sub (reduce_sub hc))).mono h₃
  obtain ⟨hall, hback⟩ := hbackground.foldl_addSupport _ hsupport
  rw [hback]
  exact hall

end Search

/-! ## Courses -/

namespace Stage

/-- The clause that is given at a place in the loop. -/
def current? : Stage → Option Nat
  | .select => none
  | .pair given _ | .absorb given _ _ _ => some given

theorem mem_candidates_of_offer {stage : Stage} {c : Sourced} (h : stage.offer? = some c) :
    c ∈ stage.candidates := by
  unfold offer? at h
  split at h
  · cases h
    exact List.mem_cons_self
  · cases h

theorem current_of_given {stage next : Stage} {i : Nat} (h : stage.given? (some next) = some i) :
    next.current? = some i := by
  unfold given? at h
  split at h
  · rename_i hnext
    cases hnext
    exact h
  · cases h

end Stage

/-- A move leaves the background as it is or queues it all. -/
theorem Move.background_cases {clock : Clock} {P : Problem → Prop} {s s' : Search}
    {stage stage' : Stage} (hm : Move clock P ⟨s, stage⟩ ⟨s', stage'⟩) :
    s'.background = s.background ∨ s.background ≠ [] ∧ s'.background = [] := by
  cases hm with
  | queue _ _ hback => exact .inr ⟨hback, rfl⟩
  | absorb ha => exact .inl (Search.absorb_background (s := s.counted) ha)
  | activate | done | retired | skip | infer | unknown | factor | settled => exact .inl rfl

theorem Finish.background_eq {clock : Clock} {p : Point} {s : Search} {o : Outcome}
    (hf : Finish clock p (s, some o)) : s.background = p.search.background := by
  rcases hf.state with ⟨-, as, rfl⟩ | ⟨c, -, ha⟩
  · rfl
  · exact Search.absorb_background (s := p.search.counted) ha

/-- All that was to be absorbed is rooted, and no clause of `B` was given. -/
structure Log.Driven (A : Step → Prop) (B : List Nat) (log : Log) : Prop where
  offered : ∀ x ∈ log.offered, x.2.Rooted A x.1.session.derivation
  selected : ∀ i ∈ log.selected, i ∉ B

/-- All that is on its way is rooted, and so is all that is kept beside `B`. No clause of `B` is
given. -/
structure Search.Driven (A : Step → Prop) (B : List Nat) (s : Search) (stage : Option Stage) :
    Prop where
  supported : s.Supported A B
  candidates : ∀ p ∈ stage, ∀ c ∈ p.candidates, c.Rooted A s.session.derivation
  current : ∀ p ∈ stage, ∀ i ∈ p.current?, i ∉ B

variable {B : List Nat} {s s' : Search} {log : Log} {stage stage' : Stage}

theorem Log.Driven.leave (h : log.Driven A B) (hs : s.Driven A B (some stage)) (next : Option Stage)
    (hnext : ∀ p ∈ next, ∀ i ∈ p.current?, i ∉ B) : (log.leave s stage next).Driven A B where
  offered := by
    simp only [Log.leave, List.forall_mem_append, Option.mem_toList, Option.map_eq_some_iff]
    refine ⟨h.offered, ?_⟩
    rintro _ ⟨c, hc, rfl⟩
    exact hs.candidates stage rfl c (Stage.mem_candidates_of_offer hc)
  selected := by
    simp only [Log.leave, List.forall_mem_append, Option.mem_toList]
    refine ⟨h.selected, fun i hi => ?_⟩
    cases next with
    | none => cases stage <;> cases hi
    | some p => exact hnext p rfl i (Stage.current_of_given hi)

namespace Search.Driven

/-- Between runs, and where a round begins, only the clauses that are kept matter. -/
theorem of_supported (h : s.Supported A B) {stage : Option Stage}
    (hstage : stage = none ∨ stage = some .select) : s.Driven A B stage := by
  refine ⟨h, ?_, ?_⟩ <;> rcases hstage with rfl | rfl <;> simp [Stage.candidates, Stage.current?]

/-- At a pair the given clause matters too. -/
theorem of_pair {given : Nat} (h : s.Supported A B) (hgiven : given ∉ B) (partners : List Nat) :
    s.Driven A B (some (.pair given partners)) where
  supported := h
  candidates := by simp [Stage.candidates]
  current := by simpa [Stage.current?] using hgiven

theorem of_absorb {given : Nat} (h : s.Supported A B) (hgiven : given ∉ B) (partners : List Nat)
    {pending derived : List Sourced}
    (hway : ∀ c ∈ pending ++ derived, c.Rooted A s.session.derivation) :
    s.Driven A B (some (.absorb given partners pending derived)) where
  supported := h
  candidates := by simpa [Stage.candidates] using hway
  current := by simpa [Stage.current?] using hgiven

/-- Moves that do not queue the background. -/
theorem move {clock : Clock} {P : Problem → Prop} (h : s.Driven A B (some stage))
    (hm : Move clock P ⟨s, stage⟩ ⟨s', stage'⟩) (hback : s'.background = s.background) :
    s'.Driven A B (some stage') := by
  obtain ⟨hs, hway, hgiven⟩ := h
  replace hway := hway stage rfl
  replace hgiven := hgiven stage rfl
  have hpolled : s.polled.Supported A B := hs.mono rfl (fun _ hi => hi) (.refl _)
  cases hm with
  | queue _ _ hne => exact (hne hback.symm).elim
  | @activate _ pick _ hsel =>
    obtain ⟨hid, hqueue⟩ := Selector.select_eq_some hsel
    have hleft : ∀ i ∈ pick.queue, i ∈ s.passive := fun i hi => List.mem_of_mem_erase (hqueue ▸ hi)
    have hactivated : (s.polled.activated pick).Supported A B := hpolled.mono rfl hleft (.refl _)
    exact of_pair hactivated (hs.waiting _ hid) _
  | done | retired => exact of_supported hs (.inr rfl)
  | skip => exact of_pair hs (hgiven _ rfl) _
  | unknown => exact of_pair hpolled (hgiven _ rfl) _
  | @infer _ _ _ _ left right _ _ _ hl =>
    -- The partner may be of the background; the given clause is not.
    have hinfer := s.polled.infer_inherits (A := A) left right
    have hroot := hs.kept _ left hl (hgiven _ rfl)
    have hinferred : (s.polled.inferred left right).Supported A B :=
      hpolled.mono rfl (fun _ hi => hi) hinfer.grows
    exact of_absorb hinferred (hgiven _ rfl) _ (hinfer.rooted ⟨left, List.mem_cons_self, hroot⟩)
  | @factor _ _ _ c derived =>
    have hfactor := factors_inherits (A := A) s.config.unifier c s.session.derivation
    have hroot := hway c List.mem_cons_self
    have hfactored : (s.factored c).Supported A B := hs.mono rfl (fun _ hi => hi) hfactor.grows
    refine of_absorb hfactored (hgiven _ rfl) _ ?_
    refine List.forall_mem_append.mpr ⟨hfactor.rooted ⟨c, List.mem_singleton_self c, hroot⟩, ?_⟩
    exact fun x hx => (hway x (List.mem_cons_of_mem c hx)).mono hfactor.grows
  | @absorb _ _ _ _ c pending derived ha =>
    have hcounted : s.counted.Supported A B := hs.mono rfl (fun _ hi => hi) (.refl _)
    refine of_absorb (hcounted.absorb (hway c List.mem_cons_self) ha) (hgiven _ rfl) _ fun x hx => ?_
    rw [absorb_session ha]
    exact hway x (List.mem_cons_of_mem c hx)
  | settled => exact of_pair hs (hgiven _ rfl) _

theorem finish {clock : Clock} {o : Outcome} (h : s.Driven A B (some stage))
    (hf : Finish clock ⟨s, stage⟩ (s', some o)) : s'.Driven A B none := by
  refine of_supported ?_ (.inl rfl)
  rcases hf.state with ⟨-, as, rfl⟩ | ⟨c, hoffer, ha⟩
  · exact h.supported.mono rfl (fun _ hi => hi) (.refl _)
  · have hcounted : s.counted.Supported A B := h.supported.mono rfl (fun _ hi => hi) (.refl _)
    exact hcounted.absorb (h.candidates stage rfl c (Stage.mem_candidates_of_offer hoffer)) ha

end Search.Driven

/-- A log begins with the state that the search starts in. -/
theorem Log.Extends.head_eq {s₀ : Search} (h : Log.Extends { states := [s₀] } log) :
    log.states.head? = some s₀ := by
  obtain ⟨states, hstates⟩ := h.states
  rw [← hstates]
  rfl

namespace Course

variable {config : Config} {background support : List Sourced} {stage : Option Stage} {s₀ : Search}

theorem states_ne_nil (h : Course config background support s stage log) : log.states ≠ [] :=
  List.ne_nil_of_mem h.upheld.last

theorem head_reach (h : Course config background support s stage log) (s' : Search) :
    (log.reach s').states.head? = log.states.head? :=
  List.head?_append_of_ne_nil _ h.states_ne_nil

/-- The background is as at the start until it is queued, and then it is gone. -/
theorem background_cases (h : Course config background support s stage log)
    (hstart : log.states.head? = some s₀) :
    s.background = s₀.background ∨ s₀.background ≠ [] ∧ s.background = [] := by
  induction h with
  | start vars d =>
    cases hstart
    exact .inl rfl
  | answering h vars ih | found h _ ih | call h _ ih => exact ih ((h.head_reach _).symm.trans hstart)
  | move h hm ih =>
    have hold := ih ((h.head_reach _).symm.trans hstart)
    rcases hm.background_cases with heq | ⟨hne, hnil⟩
    · rwa [heq]
    · exact .inr ⟨fun hnone => hne (hold.elim (·.trans hnone) And.right), hnil⟩
  | finish h hf ih =>
    rw [hf.background_eq]
    exact ih ((h.head_reach _).symm.trans hstart)

theorem driven {vars : List Var} (h : Course config background support s stage log)
    (hstart : log.states.head? = some (.start config background support vars d))
    (hs : ∀ c ∈ support, c.Rooted A d)
    (hback : s.background = (Search.start config background support vars d).background) :
    s.Driven A (Search.start config background support vars d).background stage ∧
      log.Driven A (Search.start config background support vars d).background := by
  induction h with
  | start vars' d' =>
    rw [Option.some.inj hstart]
    exact ⟨.of_supported (Search.start_supported config background vars hs) (.inl rfl), nofun, nofun⟩
  | answering h _ ih | found h _ ih =>
    obtain ⟨⟨hkept, -, -⟩, hlog⟩ := ih ((h.head_reach _).symm.trans hstart) hback
    refine ⟨.of_supported ?_ (.inl rfl), hlog.offered, hlog.selected⟩
    exact hkept.mono rfl (fun _ hi => hi) (.refl _)
  | call h _ ih =>
    obtain ⟨⟨hkept, -, -⟩, hlog⟩ := ih ((h.head_reach _).symm.trans hstart) hback
    refine ⟨.of_supported ?_ (.inr rfl), hlog.offered, hlog.selected⟩
    exact hkept.mono rfl (fun _ hi => hi) (.refl _)
  | @move s s' _ _ _ _ h hm ih =>
    have hstart' := (h.head_reach _).symm.trans hstart
    have heq : s'.background = s.background := by
      refine hm.background_cases.resolve_right fun ⟨hne, hnil⟩ => ?_
      have hnone := hback.symm.trans hnil
      exact (h.background_cases hstart').elim (fun h => hne (h.trans hnone)) fun h => h.1 hnone
    obtain ⟨hdriven, hlog⟩ := ih hstart' (heq.symm.trans hback)
    have hnext := hdriven.move hm heq
    have hleft := hlog.leave hdriven _ hnext.current
    exact ⟨hnext, hleft.offered, hleft.selected⟩
  | finish h hf ih =>
    have hstart' := (h.head_reach _).symm.trans hstart
    obtain ⟨hdriven, hlog⟩ := ih hstart' (hf.background_eq.symm.trans hback)
    have hleft := hlog.leave hdriven none nofun
    exact ⟨hdriven.finish hf, hleft.offered, hleft.selected⟩

end Course

/-! ## Proofs that rest on the support -/

/-- The step takes in a clause of the support, as a premise or as the goal. -/
def Step.TakesIn (support : List Sourced) (t : Step) : Prop :=
  (t.rule = .premise ∨ t.rule = .goal) ∧ ∃ c ∈ support, t.conclusion.same c.clause = true

namespace Sourced

/-- The clause has no step behind it, or one that takes it in. -/
def IsInput (c : Sourced) (d : Derivation) : Prop :=
  c.step = none ∨ ∃ i t, c.step = some i ∧ d.steps[i]? = some t ∧ t.TakesIn [c]

theorem IsInput.rooted {c : Sourced} (h : c.IsInput d) {support : List Sourced} (hc : c ∈ support) :
    c.Rooted (Step.TakesIn support) d := by
  unfold Rooted
  rcases h with hnone | ⟨i, t, hi, ht, hrule, x, hx, hsame⟩
  · rw [hnone]
    exact ⟨.inl rfl, c, hc, Clause.same_refl _⟩
  · rw [hi]
    cases List.mem_singleton.mp hx
    exact .here ht ⟨hrule, c, hc, hsame⟩

/-- The proof of the clause takes in a clause of the support. -/
def ProvedFrom (support : List Sourced) (d : Derivation) (c : Sourced) : Prop :=
  ∃ t ∈ (Proof.ofClause d c).steps, t.TakesIn support

/-- The proof of a rooted clause has a step with the property. -/
theorem Rooted.exists_step {c : Sourced} (h : c.Rooted A d) :
    ∃ t ∈ (Proof.ofClause d c).steps, A t := by
  obtain ⟨hroot, hclosed⟩ := (d.cite c).1.1.order_closed (d.cite c).2.1
  obtain ⟨j, hj, t, ht, hA⟩ := (Derivation.cite_restsOn h).exists_mem hclosed hroot
  obtain ⟨hlt, rfl⟩ := Array.getElem?_eq_some_iff.mp ht
  exact ⟨_, Proof.mem_steps.mpr ⟨j, hj, hlt, rfl⟩, hA⟩

end Sourced

/-- The search is driven by its support: what is kept but not of the first background, what is on its
way and what was to be absorbed has a proof that takes in a clause of the support, and no clause of the
background is or was given. -/
structure Search.DrivenBy (support : List Sourced) (start s : Search) (stage : Option Stage)
    (log : Log) : Prop where
  initial : ∀ i ∈ start.background, i < start.clauses.size
  kept : ∀ i c, s.clauses[i]? = some c → i ∉ start.background →
    c.ProvedFrom support s.session.derivation
  candidates : ∀ p ∈ stage, ∀ c ∈ p.candidates, c.ProvedFrom support s.session.derivation
  offered : ∀ x ∈ log.offered, x.2.ProvedFrom support x.1.session.derivation
  current : ∀ p ∈ stage, ∀ i ∈ p.current?, i ∉ start.background
  selected : ∀ i ∈ log.selected, i ∉ start.background

namespace Course

variable {config : Config} {background support : List Sourced} {stage : Option Stage}

/-- As long as the background is not queued a search is driven by its support, whatever its clauses and
its configuration are, and however often it is run. -/
theorem support_drives {vars : List Var} (h : Course config background support s stage log)
    (hstart : log.states.head? = some (.start config background support vars d))
    (hinput : ∀ c ∈ support, c.IsInput d)
    (hback : s.background = (Search.start config background support vars d).background) :
    Search.DrivenBy support (.start config background support vars d) s stage log := by
  have hroots : ∀ c ∈ support, c.Rooted (Step.TakesIn support) d :=
    fun c hc => (hinput c hc).rooted hc
  obtain ⟨hdriven, hlog⟩ := h.driven hstart hroots hback
  exact {
    initial := (Search.start_supported config background vars hroots).numbered
    kept := fun i c hc hi => (hdriven.supported.kept i c hc hi).exists_step
    candidates := fun p hp c hc => (hdriven.candidates p hp c hc).exists_step
    offered := fun x hx => (hlog.offered x hx).exists_step
    current := hdriven.current
    selected := hlog.selected }

/-- `~P(x) | Q(x)`. -/
def impliesQ : Sourced :=
  ⟨.ofList [.neg (.pred "P" [.var ⟨"x"⟩]), .pos (.pred "Q" [.var ⟨"x"⟩])], none⟩

/-- `~Q(x) | ~R(x)`. -/
def notBoth : Sourced :=
  ⟨.ofList [.neg (.pred "Q" [.var ⟨"x"⟩]), .neg (.pred "R" [.var ⟨"x"⟩])], none⟩

/-- `P(A)`, with the first step behind it. -/
def asksP : Sourced := ⟨.ofList [.pos (.pred "P" [.const "A"])], some 0⟩

/-- The step that takes in `P(A)` as the goal. -/
def asking : Derivation := Derivation.empty.input asksP.clause .goal

/-- The two clauses of the background could be resolved with each other. The support is resolved with
the first of them instead, and when the bound is met `Q(A)` is kept. -/
theorem asksP_support_drives : ∃ s log,
    Course { maxInferences := 1 } [impliesQ, notBoth] [asksP] s none log ∧
      s.background = [0, 1] ∧ s.clauses.size = 4 ∧ Search.DrivenBy [asksP]
        (.start { maxInferences := 1 } [impliesQ, notBoth] [asksP] [] asking) s none log := by
  have hstart : (Search.start { maxInferences := 1 } [impliesQ, notBoth] [asksP] []
      asking).background = [0, 1] := by cbv
  have hrun : ((Search.start { maxInferences := 1 } [impliesQ, notBoth] [asksP] [] asking).run
      (fun _ => 0) 10).any (fun r => r.2.background == [0, 1] && r.2.clauses.size == 4) = true := by
    cbv
  obtain ⟨⟨o, s⟩, hs, ho⟩ := (Option.any_eq_true _ _).mp hrun
  simp only [Bool.and_eq_true, beq_iff_eq] at ho
  obtain ⟨log, hcourse, hext⟩ := (Course.start [] asking).of_run hs
  have hinput : ∀ c ∈ [asksP], c.IsInput asking := by
    intro c hc
    cases List.mem_singleton.mp hc
    exact .inr ⟨0, ⟨asksP.clause, .goal, []⟩, rfl, rfl, .inr rfl, asksP, List.mem_singleton_self _,
      Clause.same_refl _⟩
  exact ⟨s, log, hcourse, ho.1, ho.2,
    hcourse.support_drives hext.head_eq hinput (ho.1.trans hstart.symm)⟩

end Course

end Refutation
