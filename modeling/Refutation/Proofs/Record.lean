import Refutation.Calculus.Session
import Refutation.Proofs.Check
import Refutation.Proofs.Fresh

/-!
# Recording

A derivation only grows: steps keep their numbers, so what checked goes on checking. Clauses that
take part in inferences name the steps that state them, and new steps cite those.

* `Derivation.Extends`: the steps of one derivation stand in another under their numbers.
* `Derivation.Checked`: every step checks and states a well-formed clause, and the inputs are
  among those allowed.
* `Derivation.Records`: what recording clauses does to a derivation. `Derivation.derive`,
  `Session.record` and `Session.separate` all do this.
-/

namespace Refutation

/-! ## Growing derivations -/

namespace Derivation

/-- The steps of `d` stand in `d'` under their numbers. -/
def Extends (d d' : Derivation) : Prop :=
  ∀ (i : Nat) (s : Step), d.steps[i]? = some s → d'.steps[i]? = some s

theorem Extends.refl (d : Derivation) : d.Extends d := fun _ _ h => h

theorem Extends.trans {d₁ d₂ d₃ : Derivation} (h₁ : d₁.Extends d₂) (h₂ : d₂.Extends d₃) :
    d₁.Extends d₃ := fun i s h => h₂ i s (h₁ i s h)

theorem lt_size_of_getElem? {d : Derivation} {i : Nat} {s : Step} (h : d.steps[i]? = some s) :
    i < d.size := (Array.getElem?_eq_some_iff.mp h).1

/-- A step is the new one or stood there before. -/
theorem getElem?_push {d : Derivation} {s t : Step} {h : ∀ p ∈ s.premises, p < d.size} {i : Nat} :
    (d.push s h).steps[i]? = some t ↔ (i = d.size ∧ t = s) ∨ d.steps[i]? = some t := by
  show (d.steps.push s)[i]? = some t ↔ _
  rw [Array.getElem?_push]
  split
  · rename_i hi
    subst hi
    simp [size, eq_comm]
  · rename_i hi
    exact ⟨.inr, fun h => h.resolve_left fun h => hi h.1⟩

theorem extends_push {d : Derivation} {s : Step} {h : ∀ p ∈ s.premises, p < d.size} :
    d.Extends (d.push s h) := fun _ _ hi => getElem?_push.mpr (.inr hi)

/-- A step that cites what is there checks the same in every longer derivation. -/
theorem checkStep_extends {d d' : Derivation} (h : d.Extends d') {s : Step}
    (hp : ∀ p ∈ s.premises, p < d.size) : d'.checkStep s = d.checkStep s := by
  have hc : (s.premises.filterMap fun p => d'.steps[p]?.map Step.conclusion) =
      s.premises.filterMap fun p => d.steps[p]?.map Step.conclusion := by
    refine List.filterMap_congr fun p hmem => ?_
    have hlt : p < d.steps.size := hp p hmem
    rw [h p _ (Array.getElem?_eq_getElem hlt), Array.getElem?_eq_getElem hlt]
  rw [checkStep, checkStep, hc]

end Derivation

/-- The clause names the step that states it. -/
def Sourced.StatedIn (c : Sourced) (d : Derivation) : Prop :=
  ∃ i s, c.step = some i ∧ d.steps[i]? = some s ∧ s.conclusion = c.clause

theorem Sourced.StatedIn.mono {c : Sourced} {d d' : Derivation} (h : c.StatedIn d) (hd : d.Extends d') :
    c.StatedIn d' := by
  obtain ⟨i, s, hc, hs, hcl⟩ := h
  exact ⟨i, s, hc, hd i s hs, hcl⟩

/-! ## Derivations that check -/

namespace Derivation

/-- Every step checks and states a well-formed clause, and `Φ` allows the inputs. -/
def Checked (Φ : Rule → Clause → Prop) (d : Derivation) : Prop :=
  ∀ (i : Nat) (s : Step), d.steps[i]? = some s → d.checkStep s = .ok () ∧ s.conclusion.wellFormed = true ∧
    (s.rule.isInput = true → Φ s.rule s.conclusion)

variable {Φ : Rule → Clause → Prop}

theorem checked_empty : empty.Checked Φ := fun i s h => by simp [empty] at h

theorem Checked.wellFormed {d : Derivation} (hd : d.Checked Φ) {c : Sourced} (hc : c.StatedIn d) :
    c.clause.wellFormed = true := by
  obtain ⟨i, s, -, hs, hcl⟩ := hc
  exact hcl ▸ (hd i s hs).2.1

theorem Checked.push {d : Derivation} (hd : d.Checked Φ) {s : Step} {h : ∀ p ∈ s.premises, p < d.size}
    (hs : d.checkStep s = .ok ()) (hw : s.conclusion.wellFormed = true)
    (hΦ : s.rule.isInput = true → Φ s.rule s.conclusion) : (d.push s h).Checked Φ := by
  intro i t hi
  rcases getElem?_push.mp hi with ⟨-, rfl⟩ | hi
  · rw [checkStep_extends extends_push h]
    exact ⟨hs, hw, hΦ⟩
  · obtain ⟨hlt, rfl⟩ := Array.getElem?_eq_some_iff.mp hi
    rw [checkStep_extends extends_push fun p hp => Nat.lt_trans (d.earlier i hlt p hp) hlt]
    exact hd i _ hi

/-- Recording the clauses `cs` takes `d` to `d'`: it grows, it checks, and it states them. -/
structure Records (Φ : Rule → Clause → Prop) (d : Derivation) (cs : List Sourced) (d' : Derivation) :
    Prop where
  grows : d.Extends d'
  checked : d'.Checked Φ
  stated : ∀ c ∈ cs, c.StatedIn d'

variable {d d₁ d₂ : Derivation} {cs ds : List Sourced}

theorem Records.nil (hd : d.Checked Φ) : Records Φ d [] d := ⟨.refl d, hd, nofun⟩

theorem Records.append (h₁ : Records Φ d cs d₁) (h₂ : Records Φ d₁ ds d₂) :
    Records Φ d (cs ++ ds) d₂ where
  grows := h₁.grows.trans h₂.grows
  checked := h₂.checked
  stated c hc := by
    rcases List.mem_append.mp hc with hc | hc
    · exact (h₁.stated c hc).mono h₂.grows
    · exact h₂.stated c hc

theorem Records.sub (h : Records Φ d cs d₁) (hds : ∀ c ∈ ds, c ∈ cs) : Records Φ d ds d₁ :=
  ⟨h.grows, h.checked, fun c hc => h.stated c (hds c hc)⟩

/-! ## Citing -/

/-- A stated clause is cited by its step. -/
theorem cite_of_stated {c : Sourced} (h : c.StatedIn d) :
    ∃ i s, (d.cite c).1 = (d, i) ∧ d.steps[i]? = some s ∧ s.conclusion = c.clause := by
  obtain ⟨i, s, hc, hs, hcl⟩ := h
  refine ⟨i, s, ?_, hs, hcl⟩
  unfold cite
  split
  · rename_i j hj
    cases hc.symm.trans hj
    rw [dif_pos (lt_size_of_getElem? hs)]
  · rename_i hj
    cases hc.symm.trans hj

/-- Stated clauses are cited by their steps, and nothing is recorded. -/
theorem citeAll_of_stated (h : ∀ c ∈ cs, c.StatedIn d) : ∃ is, (d.citeAll cs).1 = (d, is) ∧
    (is.filterMap fun p => d.steps[p]?.map Step.conclusion) = cs.map Sourced.clause := by
  induction cs with
  | nil => exact ⟨[], rfl, rfl⟩
  | cons c cs ih =>
    obtain ⟨i, s, hi, hs, hcl⟩ := cite_of_stated (h c List.mem_cons_self)
    obtain ⟨is, his, hmap⟩ := ih fun c hc => h c (List.mem_cons_of_mem _ hc)
    refine ⟨i :: is, ?_, ?_⟩
    · unfold citeAll
      split
      rename_i d₁ i₁ h₁ hc₁
      have he : (d₁, i₁) = (d, i) := by rw [← hi, hc₁]
      cases he
      split
      rename_i d₂ is₂ h₂ hc₂
      have he : (d₂, is₂) = (d, is) := by rw [← his, hc₂]
      cases he
      rfl
    · rw [List.filterMap_cons, hs, List.map_cons, ← hmap]
      simp [hcl]

/-! ## Inferring -/

@[simp]
theorem derive_clause (d : Derivation) (c : Clause) (rule : Rule) (parents : List Sourced) :
    (d.derive c rule parents).1.clause = c := rfl

/-- A clause that follows from stated parents is recorded. -/
theorem derive_records (hd : d.Checked Φ) {c : Clause} {rule : Rule} (parents : List Sourced)
    (hp : ∀ p ∈ parents, p.StatedIn d) (hr : rule.check c (parents.map Sourced.clause) = .ok ())
    (hw : c.wellFormed = true) (hΦ : rule.isInput = true → Φ rule c) :
    Records Φ d [(d.derive c rule parents).1] (d.derive c rule parents).2 := by
  obtain ⟨is, his, hmap⟩ := citeAll_of_stated hp
  have he : ∃ h, d.derive c rule parents = (⟨c, some d.size⟩, d.push ⟨c, rule, is⟩ h) := by
    unfold derive
    split
    rename_i d₁ is₁ h₁ hc₁
    have he : (d₁, is₁) = (d, is) := by rw [← his, hc₁]
    cases he
    exact ⟨h₁.1, rfl⟩
  obtain ⟨h, he⟩ := he
  have hcheck : d.checkStep ⟨c, rule, is⟩ = .ok () := by
    rw [checkStep, hmap]
    exact hr
  simp only [he]
  refine ⟨extends_push, hd.push hcheck hw hΦ, fun x hx => ?_⟩
  cases List.mem_singleton.mp hx
  exact ⟨d.size, ⟨c, rule, is⟩, rfl, getElem?_push.mpr (.inl ⟨rfl, rfl⟩), rfl⟩

end Derivation

/-! ## Sessions -/

/-- The clause follows from the premises by the rule, which is no input. -/
structure Inference.Valid (premises : List Clause) (i : Inference) : Prop where
  check : i.rule.check i.conclusion premises = .ok ()
  wellFormed : i.conclusion.wellFormed = true
  notInput : i.rule.isInput = false

theorem Clause.renameApart_valid {c : Clause} (h : c.wellFormed = true) (avoid : List Var)
    (ns : NameSource) :
    Inference.Valid [c] ⟨(c.renameApart avoid ns).clause, .rename (c.renameApart avoid ns).rename⟩ where
  check := Rule.check_rename.mpr ⟨(c.renameApart_freshens avoid ns).isRenaming, same_refl _⟩
  wellFormed := wellFormed_renameApart h avoid ns
  notInput := rfl

variable {Φ : Rule → Clause → Prop} {d : Derivation}

theorem Inference.Valid.derive {i : Inference} (hd : d.Checked Φ) (parents : List Sourced)
    (h : i.Valid (parents.map Sourced.clause)) (hp : ∀ p ∈ parents, p.StatedIn d) :
    Derivation.Records Φ d [(d.derive i.conclusion i.rule parents).1]
      (d.derive i.conclusion i.rule parents).2 :=
  Derivation.derive_records hd parents hp h.check h.wellFormed fun hr => by rw [h.notInput] at hr; cases hr

/-- What comes of trying candidates comes of one of them. -/
theorem mem_tryEach {α β : Type} {attempt : α → NameSource → Option (β × NameSource)} {as : List α}
    {ns : NameSource} {b : β} (h : b ∈ (tryEach attempt as ns).1) :
    ∃ a ∈ as, ∃ ns₁ ns₂, attempt a ns₁ = some (b, ns₂) := by
  induction as generalizing ns with
  | nil => simp [tryEach] at h
  | cons a as ih =>
    unfold tryEach at h
    split at h
    · obtain ⟨a', ha', hex⟩ := ih h
      exact ⟨a', List.mem_cons_of_mem _ ha', hex⟩
    · rename_i b' ns' hb'
      rcases List.mem_cons.mp h with rfl | h
      · exact ⟨a, List.mem_cons_self, ns, ns', hb'⟩
      · obtain ⟨a', ha', hex⟩ := ih h
        exact ⟨a', List.mem_cons_of_mem _ ha', hex⟩

namespace Session

/-- Recorded clauses are the conclusions of the inferences, in order. -/
theorem record_clauses (parents : List Sourced) (is : List Inference) (d : Derivation) :
    (record parents is d).1.map Sourced.clause = is.map Inference.conclusion := by
  induction is generalizing d with
  | nil => rfl
  | cons i is ih => rw [record, List.map_cons, ih, List.map_cons, Derivation.derive_clause]

theorem record_records (hd : d.Checked Φ) (parents : List Sourced) {is : List Inference}
    (hp : ∀ p ∈ parents, p.StatedIn d) (hi : ∀ i ∈ is, i.Valid (parents.map Sourced.clause)) :
    Derivation.Records Φ d (record parents is d).1 (record parents is d).2 := by
  induction is generalizing d with
  | nil => exact .nil hd
  | cons i is ih =>
    have h₁ := (hi i List.mem_cons_self).derive hd parents hp
    exact h₁.append (ih h₁.checked (fun p hm => (hp p hm).mono h₁.grows)
      fun j hj => hi j (List.mem_cons_of_mem _ hj))

/-- Renaming apart is recorded. -/
theorem separate_records {s : Session} (hd : s.derivation.Checked Φ) {c other : Sourced}
    (ho : other.StatedIn s.derivation) :
    Derivation.Records Φ s.derivation [(s.separate c other).1] (s.separate c other).2.derivation := by
  unfold separate
  simp only
  split
  · exact ⟨.refl _, hd, fun x hx => by cases List.mem_singleton.mp hx; exact ho⟩
  · have hv : Inference.Valid [other.clause] ⟨_, .rename _⟩ :=
      Clause.renameApart_valid (hd.wellFormed ho) c.clause.vars s.names
    exact hv.derive hd [other] fun p hp => by cases List.mem_singleton.mp hp; exact ho

end Session

end Refutation
