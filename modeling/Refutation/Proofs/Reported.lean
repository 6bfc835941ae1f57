import Refutation.Proofs.Inference
import Refutation.Proofs.Loop
import Refutation.Proofs.Redundancy

/-!
# Reported proofs check

Along every run the derivation checks and states every clause that the search holds, kept or on
its way. So what the search reports are proofs that check.

* `Proof.Answers`: what a reported proof proves, and how its bindings answer the query.
* `Search.Sound`: the invariant of states; `Point.Sound` adds the clauses on their way.
* `Search.start_sound`, `Move.sound`, `Finish.sound`: it holds at the start, moves keep it, and it
  makes the outcome sound.
* `Search.run_sound`: every proof of an outcome is sound.
-/

namespace Refutation

variable {Φ : Rule → Clause → Prop} {vars : List Var} {d : Derivation}

/-! ## Proofs -/

namespace Proof

/-- The proof of a stated clause is its step in the derivation. -/
theorem ofClause_of_stated {c : Sourced} (h : c.StatedIn d) (σ : Substitution)
    (σs : List Substitution) : (ofClause d c σ σs).derivation = d ∧
      (ofClause d c σ σs).conclusion = c.clause ∧ (ofClause d c σ σs).bindings = σ ∧
      (ofClause d c σ σs).alternatives = σs := by
  obtain ⟨i, s, hi, hs, hcl⟩ := Derivation.cite_of_stated h
  unfold ofClause
  split
  rename_i d₁ i₁ h₁ hc₁
  have he : (d₁, i₁) = (d, i) := by rw [← hi, hc₁]
  cases he
  obtain ⟨hlt, rfl⟩ := Array.getElem?_eq_some_iff.mp hs
  exact ⟨rfl, hcl, rfl, rfl⟩

/-- A contradiction without bindings or, where there are variables to bind, a clause of answers: of
one answer the bindings, of several the alternatives pair the variables with the arguments, place by
place. -/
def Answers (vars : List Var) (p : Proof) : Prop :=
  (p.conclusion = .empty ∧ p.bindings = .empty ∧ p.alternatives = []) ∨
  (vars ≠ [] ∧ p.conclusion ≠ .empty ∧
    (∀ l ∈ p.conclusion, ∃ args, l = .pos (.pred answerPredicate args)) ∧
    ((∃ l, p.conclusion.literals = [l] ∧ p.bindings.bindings = vars.zip l.atom.args ∧
        p.alternatives = []) ∨
      (2 ≤ p.conclusion.size ∧ p.bindings = .empty ∧
        p.alternatives.map Substitution.bindings =
          p.conclusion.literals.map fun l => vars.zip l.atom.args)))

/-- The derivation checks, and the proof answers a query over the variables. -/
structure Sound (Φ : Rule → Clause → Prop) (vars : List Var) (p : Proof) : Prop where
  checked : p.derivation.Checked Φ
  answers : p.Answers vars

theorem Sound.verify {p : Proof} (h : p.Sound Φ vars) : p.verify = .ok () := by
  rw [verify_eq_ok]
  intro s hs
  obtain ⟨i, -, hi, rfl⟩ := mem_steps.mp hs
  exact (h.checked i _ (Array.getElem?_eq_getElem hi)).1

theorem Sound.input {p : Proof} (h : p.Sound Φ vars) {s : Step} (hs : s ∈ p.steps)
    (hr : s.rule.isInput = true) : Φ s.rule s.conclusion := by
  obtain ⟨i, -, hi, rfl⟩ := mem_steps.mp hs
  exact (h.checked i _ (Array.getElem?_eq_getElem hi)).2.2 hr

/-- The proof of a stated clause is sound if such a proof is an answer. -/
theorem sound_ofClause (hd : d.Checked Φ) {c : Sourced} (hc : c.StatedIn d) {σ : Substitution}
    {σs : List Substitution} (h : ∀ p : Proof, p.conclusion = c.clause → p.bindings = σ →
      p.alternatives = σs → p.Answers vars) : (ofClause d c σ σs).Sound Φ vars := by
  obtain ⟨hder, hcon, hb, ha⟩ := ofClause_of_stated hc σ σs
  exact ⟨by rw [hder]; exact hd, h _ hcon hb ha⟩

theorem sound_ofClause_empty (hd : d.Checked Φ) {c : Sourced} (hc : c.StatedIn d)
    (he : c.clause.isEmpty = true) : (ofClause d c).Sound Φ vars :=
  sound_ofClause hd hc fun _ hcon hb ha =>
    .inl ⟨hcon.trans (Clause.ext (List.isEmpty_iff.mp he)), hb, ha⟩

end Proof

namespace Search

theorem bindings_answerBindings {s : Search} (h : s.answerVars.Nodup) (l : Literal) :
    (s.answerBindings l).bindings = s.answerVars.zip l.atom.args :=
  Substitution.bindings_ofList_zip h _

theorem isAnswer_literals {s : Search} {c : Clause} (h : s.isAnswer c = true) :
    s.answerVars ≠ [] ∧ ∀ l ∈ c, ∃ args, l = .pos (.pred answerPredicate args) := by
  simp only [isAnswer, Bool.and_eq_true, List.all_eq_true, Bool.not_eq_true', List.isEmpty_eq_false_iff]
    at h
  refine ⟨h.1, fun l hl => ?_⟩
  have hl := h.2 l hl
  split at hl
  · rename_i name args _
    cases eq_of_beq hl
    exact ⟨args, rfl⟩
  · cases hl

/-- The proof of an answer clause. -/
theorem answerProof_sound {s : Search} (hd : s.session.derivation.Checked Φ)
    (hv : s.answerVars.Nodup) {c : Sourced} (hc : c.StatedIn s.session.derivation)
    (he : c.clause.isEmpty = false) (ha : s.isAnswer c.clause = true) :
    (s.answerProof c).Sound Φ s.answerVars := by
  have hne : c.clause ≠ .empty := by
    intro h
    rw [h] at he
    cases he
  obtain ⟨hvars, hlits⟩ := isAnswer_literals ha
  unfold answerProof
  split
  · rename_i σ hσ
    obtain ⟨l, hl, rfl⟩ := List.map_eq_singleton_iff.mp hσ
    refine Proof.sound_ofClause hd hc fun p hcon hb halt => .inr ?_
    rw [hcon]
    exact ⟨hvars, hne, hlits, .inl ⟨l, hl, by rw [hb, bindings_answerBindings hv], halt⟩⟩
  · rename_i hσ
    refine Proof.sound_ofClause hd hc fun p hcon hb halt => .inr ?_
    rw [hcon]
    refine ⟨hvars, hne, hlits, .inr ⟨?_, hb, ?_⟩⟩
    · -- Neither none nor one.
      rw [Clause.size]
      rcases hls : c.clause.literals with _ | ⟨l, _ | ⟨m, ls⟩⟩
      · exact (hne (Clause.ext hls)).elim
      · exact (hσ (s.answerBindings l) (by rw [hls]; rfl)).elim
      · simp
    · rw [halt, List.map_map]
      exact List.map_congr_left fun l _ => bindings_answerBindings hv l

end Search

theorem Outcome.eq_proved {o : Outcome} (h : o.isProved = true) : o = .proved o.proofs := by
  cases o with
  | proved ps => rfl
  | disproved => cases h
  | unknown limit => cases h

/-- The proofs of the outcome are sound, and there are some if it says so. -/
structure Outcome.Sound (Φ : Rule → Clause → Prop) (vars : List Var) (o : Outcome) : Prop where
  proofs : ∀ p ∈ o.proofs, p.Sound Φ vars
  some : o.isProved = true → o.proofs ≠ []

namespace Search

/-! ## States -/

/-- The derivation checks and states every clause kept, and the answers so far are sound. -/
structure Sound (Φ : Rule → Clause → Prop) (vars : List Var) (s : Search) : Prop where
  occurs : s.config.occursCheck = true
  vars_eq : s.answerVars = vars
  checked : s.session.derivation.Checked Φ
  stated : ∀ c ∈ s.clauses, c.StatedIn s.session.derivation
  answers : ∀ a ∈ s.answers, a.proof.Sound Φ vars

variable {s : Search}

/-- Recording keeps a state sound. -/
theorem Sound.record (h : s.Sound Φ vars) (session : Session) {cs : List Sourced}
    (hr : Derivation.Records Φ s.session.derivation cs session.derivation) :
    Sound Φ vars { s with session } where
  occurs := h.occurs
  vars_eq := h.vars_eq
  checked := hr.checked
  stated c hc := (h.stated c hc).mono hr.grows
  answers := h.answers

theorem Sound.polled (h : s.Sound Φ vars) : s.polled.Sound Φ vars :=
  ⟨h.occurs, h.vars_eq, h.checked, h.stated, h.answers⟩

theorem Sound.counted (h : s.Sound Φ vars) : s.counted.Sound Φ vars :=
  ⟨h.occurs, h.vars_eq, h.checked, h.stated, h.answers⟩

theorem Sound.keep (h : s.Sound Φ vars) {c : Sourced} (hc : c.StatedIn s.session.derivation) :
    (s.keep c).Sound Φ vars where
  occurs := h.occurs
  vars_eq := h.vars_eq
  checked := h.checked
  stated x hx := by
    rcases Array.mem_push.mp hx with hx | rfl
    · exact h.stated x hx
    · exact hc
  answers := h.answers

theorem infer_records (h : s.Sound Φ vars) {left right : Sourced}
    (hl : left.StatedIn s.session.derivation) (hr : right.StatedIn s.session.derivation) :
    Derivation.Records Φ s.session.derivation (s.infer left right).1
      (s.infer left right).2.derivation := by
  have h₁ := Session.resolvents_records (u := s.config.unifier) h.occurs h.checked hl hr
  unfold infer
  simp only
  split
  · exact h₁.append (Session.paramodulants_records h.occurs h₁.checked (hl.mono h₁.grows)
      (hr.mono h₁.grows))
  · exact h₁

theorem mem_reported {as : List Answer} {p : Proof} (h : p ∈ reported as) : ∃ a ∈ as, a.proof = p := by
  obtain ⟨a, ha, hp⟩ := List.mem_map.mp h
  exact ⟨a, (List.mem_filter.mp ha).1, hp⟩

theorem sound_contradiction (hd : d.Checked Φ) {c : Sourced} (hc : c.StatedIn d)
    (he : c.clause.isEmpty = true) : (Outcome.proved [.ofClause d c]).Sound Φ vars where
  proofs p hp := by
    cases List.mem_singleton.mp hp
    exact Proof.sound_ofClause_empty hd hc he
  some := nofun

/-- Of some answers some are reported: choices go only if a definite answer stays. -/
theorem reported_ne_nil {as : List Answer} (h : as ≠ []) : reported as ≠ [] := by
  obtain ⟨a, as', rfl⟩ := List.exists_cons_of_ne_nil h
  unfold reported
  simp only [ne_eq, List.map_eq_nil_iff, List.filter_eq_nil_iff, Bool.or_eq_true, Bool.not_eq_true',
    not_forall, not_not]
  by_cases hd : ((a :: as').map Answer.clause).filter (·.isUnit) = []
  · exact ⟨a, List.mem_cons_self, .inr (by rw [hd]; rfl)⟩
  · obtain ⟨c, hc⟩ := List.exists_mem_of_ne_nil _ hd
    obtain ⟨hc, hunit⟩ := List.mem_filter.mp hc
    obtain ⟨b, hb, rfl⟩ := List.mem_map.mp hc
    exact ⟨b, hb, .inl hunit⟩

theorem sound_reported {as : List Answer} (h : as ≠ []) (hall : ∀ a ∈ as, a.proof.Sound Φ vars) :
    (Outcome.proved (reported as)).Sound Φ vars where
  proofs p hp := by
    obtain ⟨a, ha, rfl⟩ := mem_reported hp
    exact hall a ha
  some _ := reported_ne_nil h

/-! ## Absorbing -/

/-- With a new answer all answers are sound. -/
theorem Sound.noting (h : s.Sound Φ vars) (hv : vars.Nodup) {c : Sourced}
    (hc : c.StatedIn s.session.derivation) (hempty : c.clause.isEmpty = false)
    (hans : s.isAnswer c.clause = true) : ∀ a ∈ s.noting c, a.proof.Sound Φ vars := by
  have hproof := answerProof_sound h.checked (h.vars_eq ▸ hv) hc hempty hans
  rw [h.vars_eq] at hproof
  exact List.forall_mem_append.mpr ⟨h.answers, List.forall_mem_singleton.mpr hproof⟩

theorem absorb_sound {s' : Search} {o : Option Outcome} (h : s.Sound Φ vars) (hv : vars.Nodup)
    {c : Sourced} (hc : c.StatedIn s.session.derivation) (ha : s.absorb c = (s', o)) :
    s'.Sound Φ vars ∧ ∀ r ∈ o, r.Sound Φ vars := by
  cases absorb_cases ha with
  | contradiction hempty =>
    refine ⟨h, fun r hr => ?_⟩
    cases Option.mem_some_iff.mp hr
    exact sound_contradiction h.checked hc hempty
  | answered | dropped => exact ⟨h, nofun⟩
  | noted hempty hans =>
    exact ⟨⟨h.occurs, h.vars_eq, h.checked, h.stated, h.noting hv hc hempty hans⟩, nofun⟩
  | enough hempty hans =>
    refine ⟨⟨h.occurs, h.vars_eq, h.checked, h.stated, nofun⟩, fun r hr => ?_⟩
    cases Option.mem_some_iff.mp hr
    exact sound_reported (List.concat_ne_nil _ _) (h.noting hv hc hempty hans)
  | subsumed => exact ⟨⟨h.occurs, h.vars_eq, h.checked, h.stated, h.answers⟩, nofun⟩
  | admitted =>
    have hkeep := h.keep hc
    exact ⟨⟨hkeep.occurs, hkeep.vars_eq, hkeep.checked, hkeep.stated, hkeep.answers⟩, nofun⟩

theorem absorb_session {s s' : Search} {c : Sourced} {o : Option Outcome} (h : s.absorb c = (s', o)) :
    s'.session = s.session := by
  cases absorb_cases h <;> rfl

theorem finish_sound (h : s.Sound Φ vars) {o : Outcome} (ho : o.Sound Φ vars) :
    ∀ r ∈ (s.finish o).2, r.Sound Φ vars := by
  unfold finish
  split
  · intro r hr
    cases Option.mem_some_iff.mp hr
    exact ho
  · rename_i hne
    intro r hr
    cases Option.mem_some_iff.mp hr
    exact sound_reported (fun he => hne (List.isEmpty_iff.mpr he)) h.answers

/-! ## The start -/

theorem prepare_records {u : Unifier} (hu : u.occursCheck = true) (hd : d.Checked Φ)
    {cs : List Sourced} (hcs : ∀ c ∈ cs, c.StatedIn d) :
    Derivation.Records Φ d (prepare u cs d).1 (prepare u cs d).2 := by
  induction cs generalizing d with
  | nil => exact .nil hd
  | cons c cs ih =>
    have hc := hcs c List.mem_cons_self
    have hcs' := fun x hx => hcs x (List.mem_cons_of_mem _ hx)
    unfold prepare
    split
    · exact ih hd hcs'
    · have hf := factors_records hu hd hc
      have hrest := ih hf.checked fun x hx => (hcs' x hx).mono hf.grows
      have hself : Derivation.Records Φ d [c] d :=
        ⟨.refl d, hd, fun x hx => by cases List.mem_singleton.mp hx; exact hc⟩
      exact hself.append ((hf.sub fun x hx => (List.mem_filter.mp hx).1).append hrest)

theorem withReflexivity_records (config : Config) {bs : List Sourced} (ss : List Sourced)
    (hd : d.Checked Φ) (hbs : ∀ c ∈ bs, c.StatedIn d) (hΦ : Φ (.builtin "reflexivity") reflexivity) :
    Derivation.Records Φ d (withReflexivity config bs ss d).1 (withReflexivity config bs ss d).2 := by
  have hself : Derivation.Records Φ d bs d := ⟨.refl d, hd, hbs⟩
  unfold withReflexivity
  simp only
  split
  · exact hself.append (Derivation.derive_records hd [] (by simp) rfl (by decide) fun _ => hΦ)
  · exact hself

theorem Sound.addBackground (h : s.Sound Φ vars) {c : Sourced} (hc : c.StatedIn s.session.derivation) :
    (s.addBackground c).Sound Φ vars ∧ (s.addBackground c).session = s.session := by
  unfold Search.addBackground
  split
  · exact ⟨h, rfl⟩
  · have hk := h.keep hc
    exact ⟨⟨hk.occurs, hk.vars_eq, hk.checked, hk.stated, hk.answers⟩, rfl⟩

theorem Sound.addSupport (h : s.Sound Φ vars) {c : Sourced} (hc : c.StatedIn s.session.derivation) :
    (s.addSupport c).Sound Φ vars ∧ (s.addSupport c).session = s.session := by
  unfold Search.addSupport
  split
  · exact ⟨h, rfl⟩
  · have hk := h.keep hc
    exact ⟨⟨hk.occurs, hk.vars_eq, hk.checked, hk.stated, hk.answers⟩, rfl⟩

/-- Taking in clauses one by one keeps a state sound. -/
theorem Sound.foldl {add : Search → Sourced → Search}
    (hadd : ∀ (s : Search) (c : Sourced), s.Sound Φ vars → c.StatedIn s.session.derivation →
      (add s c).Sound Φ vars ∧ (add s c).session = s.session)
    {cs : List Sourced} (h : s.Sound Φ vars) (hcs : ∀ c ∈ cs, c.StatedIn s.session.derivation) :
    (cs.foldl add s).Sound Φ vars ∧ (cs.foldl add s).session = s.session := by
  induction cs generalizing s with
  | nil => exact ⟨h, rfl⟩
  | cons c cs ih =>
    obtain ⟨h₁, hs⟩ := hadd s c h (hcs c List.mem_cons_self)
    obtain ⟨h₂, hs'⟩ := ih h₁ fun x hx => by rw [hs]; exact hcs x (List.mem_cons_of_mem _ hx)
    exact ⟨h₂, hs'.trans hs⟩

theorem start_sound {config : Config} (hu : config.occursCheck = true) (hd : d.Checked Φ)
    {background support : List Sourced} (hb : ∀ c ∈ background, c.StatedIn d)
    (hs : ∀ c ∈ support, c.StatedIn d) (hΦ : Φ (.builtin "reflexivity") reflexivity) :
    (start config background support vars d).Sound Φ vars := by
  have h₁ := prepare_records (u := config.unifier) hu hd hb
  have h₂ := prepare_records (u := config.unifier) hu h₁.checked fun c hc => (hs c hc).mono h₁.grows
  unfold start
  generalize prepare config.unifier background d = r₁ at h₁ h₂ ⊢
  obtain ⟨background, d₁⟩ := r₁
  simp only at h₁ h₂ ⊢
  generalize prepare config.unifier support d₁ = r₂ at h₂ ⊢
  obtain ⟨support, d₂⟩ := r₂
  simp only at h₂ ⊢
  have h₃ := withReflexivity_records config (distinct support) h₂.checked
    (fun c hc => (h₁.stated c (distinct_sub hc)).mono h₂.grows) hΦ
  generalize withReflexivity config (distinct background) (distinct support) d₂ = r₃ at h₃ ⊢
  obtain ⟨background, d₃⟩ := r₃
  simp only at h₃ ⊢
  obtain ⟨hB, hsession⟩ := Sound.foldl (fun s c h hc => Sound.addBackground h hc)
    (s := { config, answerVars := vars, selector := { ratio := config.ageWeightRatio },
            session := { names := { stem := "c" }, derivation := d₃ },
            subsumed := (reduce background).2 + (reduce (distinct support)).2 })
    ⟨hu, rfl, h₃.checked, by simp, nofun⟩ fun c hc => h₃.stated c (reduce_sub hc)
  refine (Sound.foldl (fun s c h hc => Sound.addSupport h hc) hB fun c hc => ?_).1
  rw [hsession]
  exact (h₂.stated c (distinct_sub (reduce_sub hc))).mono h₃.grows

end Search

/-! ## Runs -/

/-- The state is sound, and the clauses on their way are stated. -/
def Point.Sound (Φ : Rule → Clause → Prop) (vars : List Var) (p : Point) : Prop :=
  p.search.Sound Φ vars ∧ ∀ c ∈ p.stage.candidates, c.StatedIn p.search.session.derivation

theorem Move.sound {clock : Clock} {P : Problem → Prop} {p q : Point} (hm : Move clock P p q) (hv : vars.Nodup)
    (hp : p.Sound Φ vars) : q.Sound Φ vars := by
  obtain ⟨h, hway⟩ := hp
  cases hm with
  | queue | activate | done | retired | skip | unknown | settled =>
    exact ⟨⟨h.occurs, h.vars_eq, h.checked, h.stated, h.answers⟩, nofun⟩
  | infer hg hp hpoll hl hr =>
    have hrec := Search.infer_records h.polled (h.stated _ (Array.mem_of_getElem? hl))
      (h.stated _ (Array.mem_of_getElem? hr))
    exact ⟨h.polled.record _ hrec, hrec.stated⟩
  | @factor s given partners c derived =>
    have hc := hway c List.mem_cons_self
    have hrec := factors_records (u := s.config.unifier) h.occurs h.checked hc
    refine ⟨h.record ⟨s.session.names, _⟩ hrec, fun x hx => ?_⟩
    rcases List.mem_append.mp hx with hx | hx
    · rcases List.mem_cons.mp hx with rfl | hx
      · exact hc.mono hrec.grows
      · exact hrec.stated x hx
    · exact (hway x (List.mem_cons_of_mem _ hx)).mono hrec.grows
  | @absorb s s' given partners c pending derived ha =>
    refine ⟨(Search.absorb_sound h.counted hv (hway c List.mem_cons_self) ha).1, fun x hx => ?_⟩
    show x.StatedIn s'.session.derivation
    rw [Search.absorb_session ha]
    exact hway x (List.mem_cons_of_mem _ hx)

theorem Finish.sound {clock : Clock} {p : Point} {r : Search × Option Outcome}
    (hf : Finish clock p r) (hv : vars.Nodup) (hp : p.Sound Φ vars) : ∀ o ∈ r.2, o.Sound Φ vars := by
  obtain ⟨h, hway⟩ := hp
  cases hf with
  | limit | exhausted | pairLimit => exact Search.finish_sound h.polled ⟨nofun, nofun⟩
  | @decided s s' given partners c pending derived o ha =>
    exact (Search.absorb_sound h.counted hv (hway c List.mem_cons_self) ha).2

/-- Every proof that a search reports is sound. -/
theorem Search.run_sound {s s' : Search} {clock : Clock} {fuel : Nat} {o : Outcome}
    (h : s.Sound Φ vars) (hv : vars.Nodup) (hrun : s.run clock fuel = some (o, s')) :
    o.Sound Φ vars := by
  rcases run_cases clock (P := fun _ => True) hrun fun _ _ => trivial with
    ⟨c, hc, he, -, rfl⟩ | ⟨-, q, hq, hf⟩
  · exact sound_contradiction h.checked (h.stated c hc) he
  · have hstart : Point.Sound Φ vars ⟨s.rewound, .select⟩ :=
      ⟨⟨h.occurs, h.vars_eq, h.checked, h.stated, h.answers⟩, nofun⟩
    have hend := Move.invariant (fun _ _ hm hp => Move.sound hm hv hp) hq hstart
    exact hf.sound hv hend o rfl

end Refutation
