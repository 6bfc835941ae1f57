import Refutation.Proofs.Substitution
import Refutation.Unification

/-!
# Most general unifiers

With the occurs check, an attempt at unification extends the present bindings to the most general
substitution that makes the sides equal. Terms are taken to be well-formed: the unifier compares
names and numbers of arguments, and only for well-formed terms is that all there is to compare.

* `Attempt.Solves`: what an attempt does to a condition on instances, such as the equality of two
  terms. Bindings stay resolved, earlier ones are refined, the condition is met if the attempt
  succeeds, every instance that meets it is an instance of the bindings, and where there is one the
  attempt fails for want of depth only.
* `Unifier.extend_sound`: the attempt on two terms, by induction on the levels it may enter.
* `Unifier.MostGeneral`: the same in short for an attempt that starts from nothing.
* `Unifier.terms_mostGeneral`, `Unifier.literals_mostGeneral`, `Unifier.literals_complete`: what
  inferences need of it.
-/

namespace Refutation

/-- The error says that the depth limit was reached. -/
def UnifyError.IsDepth (e : UnifyError) : Prop := ∃ n, e = .depthExceeded n

/-- What an attempt that starts from `σ` does to a condition on instances. -/
structure Attempt.Solves (a : Attempt) (σ : Substitution) (P : (Var → Term) → Prop) : Prop where
  resolved : a.bindings.Resolved
  wellFormed : a.bindings.WellFormed
  refines : σ.MoreGeneral a.bindings.image
  meets : a.error = none → P a.bindings.image
  general : ∀ v, σ.MoreGeneral v → P v → a.bindings.MoreGeneral v
  complete : ∀ v, σ.MoreGeneral v → P v → ∀ e, a.error = some e → e.IsDepth

namespace Attempt

variable {a : Attempt} {σ : Substitution} {P Q : (Var → Term) → Prop}

theorem toExcept_eq_ok : a.toExcept = .ok σ ↔ a.error = none ∧ a.bindings = σ := by
  unfold toExcept
  split <;> simp_all

theorem toExcept_eq_error {e : UnifyError} : a.toExcept = .error e ↔ a.error = some e := by
  unfold toExcept
  split <;> simp_all

/-- Conditions that agree on the instances of the present bindings are solved together. -/
theorem Solves.congr (h : a.Solves σ P) (hPQ : ∀ v, σ.MoreGeneral v → (P v ↔ Q v)) : a.Solves σ Q where
  resolved := h.resolved
  wellFormed := h.wellFormed
  refines := h.refines
  meets he := (hPQ _ h.refines).mp (h.meets he)
  general v hv hQ := h.general v hv ((hPQ v hv).mpr hQ)
  complete v hv hQ := h.complete v hv ((hPQ v hv).mpr hQ)

theorem moreGeneral_self (hr : σ.Resolved) : σ.MoreGeneral σ.image := fun x => by
  rw [← Term.subst_eq_inst]
  exact hr.subst_subst (.var x)

/-- An attempt that keeps the bindings, which meet the condition. -/
theorem solves_of_meets (hr : σ.Resolved) (hw : σ.WellFormed) (h : P σ.image) : Solves ⟨σ, none⟩ σ P where
  resolved := hr
  wellFormed := hw
  refines := moreGeneral_self hr
  meets _ := h
  general _ hv _ := hv
  complete _ _ _ := nofun

/-- An attempt that fails, for want of depth or because no instance meets the condition. -/
theorem solves_of_error {e : UnifyError} (hr : σ.Resolved) (hw : σ.WellFormed)
    (h : e.IsDepth ∨ ∀ v, σ.MoreGeneral v → ¬P v) : Solves ⟨σ, some e⟩ σ P where
  resolved := hr
  wellFormed := hw
  refines := moreGeneral_self hr
  meets := nofun
  general _ hv _ := hv
  complete v hv hp e' he := by
    cases he
    exact h.resolve_right fun hn => hn v hv hp

/-- One attempt after the other meets both conditions, if instances keep the first. -/
theorem Solves.andThen {next : Substitution → Attempt} (hP : ∀ v w, P v → P fun x => (v x).inst w)
    (h : a.Solves σ P) (hn : (next a.bindings).Solves a.bindings Q) :
    (a.andThen next).Solves σ fun v => P v ∧ Q v := by
  unfold Attempt.andThen
  cases he : a.error with
  | some e =>
    refine ⟨h.resolved, h.wellFormed, h.refines, fun h' => ?_, fun v hv hp => h.general v hv hp.1,
      fun v hv hp => h.complete v hv hp.1⟩
    rw [he] at h'; cases h'
  | none =>
    refine ⟨hn.resolved, hn.wellFormed, h.refines.trans hn.refines, fun h' => ⟨?_, hn.meets h'⟩,
      fun v hv hp => hn.general v (h.general v hv hp.1) hp.2,
      fun v hv hp => hn.complete v (h.general v hv hp.1) hp.2⟩
    have := hP _ (next a.bindings).bindings.image (h.meets he)
    rwa [funext hn.refines] at this

end Attempt

namespace Unifier

variable {u : Unifier}

/-! ## Terms -/

/-- A way to unify two terms that does what it should. -/
def Sound (attempt : Term → Term → Substitution → Attempt) : Prop :=
  ∀ s t σ, s.wellFormed = true → t.wellFormed = true → σ.Resolved → σ.WellFormed →
    (attempt s t σ).Solves σ fun v => s.inst v = t.inst v

theorem weight_le_weightList {s : Term} {ts : List Term} (h : s ∈ ts) :
    s.weight ≤ Term.weightList ts := by
  induction ts with
  | nil => cases h
  | cons t ts ih =>
    rw [Term.weightList]
    rcases List.mem_cons.mp h with rfl | h
    · omega
    · have := ih h
      omega

/-- A term that a variable stands in, and is not, has instances larger than those of the variable. -/
theorem weight_lt_inst {t : Term} {x : Var} (hx : x ∈ t.occurrences) (hne : t ≠ .var x)
    (v : Var → Term) : (v x).weight < (t.inst v).weight := by
  induction t with
  | var y => exact (hne (by simpa using Eq.symm (List.mem_singleton.mp hx))).elim
  | const c => cases hx
  | app f args ih =>
    obtain ⟨s, hs, hxs⟩ := Term.mem_occurrences_app.mp hx
    have hle : (v x).weight ≤ (s.inst v).weight := by
      by_cases hsx : s = .var x
      · rw [hsx]; exact Nat.le_refl _
      · exact Nat.le_of_lt (ih s hs hxs hsx)
    have := weight_le_weightList (List.mem_map_of_mem (f := Term.inst v) hs)
    rw [Term.inst_app, Term.weight]
    omega

/-- What is resolved so far sees only the new binding. -/
theorem subst_bind_of_resolved {σ : Substitution} {x : Var} (hx : σ.get? x = none) (t : Term)
    {r : Term} (hr : ∀ y ∈ r.occurrences, σ.get? y = none) :
    r.subst (σ.bind x t) = r.subst (.single x (t.subst σ)) := by
  rw [Term.subst_bind hx, Term.subst_eq_self hr]

/-- Binding a variable solves its equation with a term that differs from it. -/
theorem bindVar_solves (hu : u.occursCheck = true) {x : Var} {t : Term} {σ : Substitution}
    (hr : σ.Resolved) (hw : σ.WellFormed) (hx : σ.get? x = none) (ht : t.wellFormed = true)
    (hres : ∀ y ∈ t.occurrences, σ.get? y = none) (hne : t ≠ .var x) :
    (u.bindVar x t σ).Solves σ fun v => v x = t.inst v := by
  have hself : t.subst σ = t := Term.subst_eq_self hres
  unfold bindVar
  by_cases hocc : x ∈ t.occurrences
  · rw [if_pos (by simp [hu, Term.hasVar_iff, hocc])]
    refine Attempt.solves_of_error hr hw (.inr fun v _ heq => ?_)
    have hlt := weight_lt_inst hocc hne v
    rw [heq] at hlt
    exact Nat.lt_irrefl _ hlt
  · rw [if_neg (by simp [hu, Term.hasVar_iff, hocc])]
    refine ⟨hr.bind hx (by rwa [hself]), hw.bind hx ht, fun y => ?_, fun _ => ?_,
      fun v hv heq => hv.bind hx heq, nofun⟩
    · have hy : ∀ z ∈ (σ.image y).occurrences, σ.get? z = none := fun z =>
        hr.unbound (t := .var y)
      show (σ.image y).inst (σ.bind x t).image = (σ.bind x t).image y
      rw [← Term.subst_eq_inst, subst_bind_of_resolved hx t hy, Substitution.image_bind hx]
    · have hsingle : t.subst (.single x t) = t := by
        refine Term.subst_eq_self fun y hy => ?_
        rw [Substitution.get?_single, if_neg fun e : y = x => hocc (e ▸ hy)]
      show (σ.bind x t).image x = t.inst (σ.bind x t).image
      rw [← Term.subst_eq_inst, subst_bind_of_resolved hx t hres, hself, hsingle,
        Substitution.image_bind hx, Substitution.image_of_unbound hx, hself, Term.subst_var,
        Substitution.image_single, if_pos rfl]

theorem pairwise_solves {attempt : Term → Term → Substitution → Attempt} (h : Sound attempt)
    {ss ts : List Term} (hlen : ss.length = ts.length) (hs : ∀ s ∈ ss, s.wellFormed = true)
    (ht : ∀ t ∈ ts, t.wellFormed = true) {σ : Substitution} (hr : σ.Resolved) (hw : σ.WellFormed) :
    (pairwise attempt ss ts σ).Solves σ fun v => ss.map (Term.inst v) = ts.map (Term.inst v) := by
  induction ss generalizing ts σ with
  | nil =>
    cases List.length_eq_zero_iff.mp hlen.symm
    exact Attempt.solves_of_meets hr hw rfl
  | cons s ss ih =>
    cases ts with
    | nil => simp at hlen
    | cons t ts =>
      have h₁ := h s t σ (hs s (by simp)) (ht t (by simp)) hr hw
      have h₂ := ih (by simpa using hlen) (fun r hm => hs r (List.mem_cons_of_mem _ hm))
        (fun r hm => ht r (List.mem_cons_of_mem _ hm)) h₁.resolved h₁.wellFormed
      refine (h₁.andThen (fun v w hvw => ?_) h₂).congr fun v _ => ?_
      · rw [← Term.inst_inst, ← Term.inst_inst, hvw]
      · rw [List.map_cons, List.map_cons, List.cons.injEq]

/-- Argument lists of function symbols with the same name, which for well-formed terms are the same
symbol if the lists have the same length. -/
theorem lists_solves {attempt : Term → Term → Substitution → Attempt} (h : Sound attempt)
    {f g : FunSym} {ss ts : List Term} (hs : (Term.app f ss).wellFormed = true)
    (ht : (Term.app g ts).wellFormed = true) (hname : f.name = g.name) {σ : Substitution}
    (hr : σ.Resolved) (hw : σ.WellFormed) :
    (lists attempt ss ts σ).Solves σ fun v => (Term.app f ss).inst v = (Term.app g ts).inst v := by
  obtain ⟨hf, hss⟩ := Term.wellFormed_app.mp hs
  obtain ⟨hg, hts⟩ := Term.wellFormed_app.mp ht
  unfold lists
  split
  · rename_i hlen
    have hfg : f = g := by
      cases f; cases g
      simp_all
    refine (pairwise_solves h hlen hss hts hr hw).congr fun v _ => ?_
    rw [Term.inst_app, Term.inst_app, Term.app.injEq, and_iff_right hfg]
  · rename_i hlen
    refine Attempt.solves_of_error hr hw (.inr fun v _ heq => hlen ?_)
    rw [Term.inst_app, Term.inst_app, Term.app.injEq] at heq
    simpa using congrArg List.length heq.2

theorem extend_sound (hu : u.occursCheck = true) (levels : Nat) : Sound (u.extend levels) := by
  induction levels with
  | zero => exact fun s t σ _ _ hr hw => Attempt.solves_of_error hr hw (.inl ⟨_, rfl⟩)
  | succ levels ih =>
    intro s t σ hs ht hr hw
    -- The equation is that of the two terms as resolved so far.
    suffices h : (u.extend (levels + 1) s t σ).Solves σ fun v =>
        (s.subst σ).inst v = (t.subst σ).inst v from
      h.congr fun v hv => by rw [hv.inst_subst, hv.inst_subst]
    have hs' := Term.wellFormed_subst hs hw
    have ht' := Term.wellFormed_subst ht hw
    have hsr : ∀ y ∈ (s.subst σ).occurrences, σ.get? y = none := fun y => hr.unbound
    have htr : ∀ y ∈ (t.subst σ).occurrences, σ.get? y = none := fun y => hr.unbound
    rw [extend]
    generalize s.subst σ = s' at *
    generalize t.subst σ = t' at *
    by_cases heq : s' = t'
    · rw [if_pos heq]
      exact Attempt.solves_of_meets hr hw (by rw [heq])
    · rw [if_neg heq]
      cases s' with
      | var x => exact bindVar_solves hu hr hw (hsr x (by simp)) ht' htr (Ne.symm heq)
      | const c =>
        cases t' with
        | var x =>
          exact (bindVar_solves hu hr hw (htr x (by simp)) hs' hsr heq).congr fun v _ => eq_comm
        | const d => exact Attempt.solves_of_error hr hw (.inr fun v _ => heq)
        | app g ts => exact Attempt.solves_of_error hr hw (.inr fun v _ h => by simp at h)
      | app f ss =>
        cases t' with
        | var x =>
          exact (bindVar_solves hu hr hw (htr x (by simp)) hs' hsr heq).congr fun v _ => eq_comm
        | const d => exact Attempt.solves_of_error hr hw (.inr fun v _ h => by simp at h)
        | app g ts =>
          by_cases hname : f.name = g.name
          · simp only [hname, if_true]
            exact lists_solves ih hs' ht' hname hr hw
          · simp only [hname, if_false]
            refine Attempt.solves_of_error hr hw (.inr fun v _ h => hname ?_)
            rw [Term.inst_app, Term.inst_app, Term.app.injEq] at h
            rw [h.1]

/-! ## Atoms -/

theorem wellFormed_fn {p : String} {ts : List Term} :
    (Term.fn p ts).wellFormed = true ↔ ∀ t ∈ ts, t.wellFormed = true := by
  simp [Term.fn]

theorem extendAtoms_solves (hu : u.occursCheck = true) {a b : Atom} (ha : a.wellFormed = true)
    (hb : b.wellFormed = true) {σ : Substitution} (hr : σ.Resolved) (hw : σ.WellFormed) :
    (u.extendAtoms a b σ).Solves σ fun v => a.inst v = b.inst v := by
  rw [Atom.wellFormed_iff] at ha hb
  have hsound : Sound u.extendTerms := extend_sound hu _
  cases a with
  | pred p ss =>
    cases b with
    | pred q ts =>
      rw [extendAtoms]
      split
      · rename_i hpq
        -- A predicate over terms unifies like a function of them.
        refine (lists_solves hsound (wellFormed_fn.mpr ha) (wellFormed_fn.mpr hb) hpq hr hw).congr
          fun v _ => ?_
        subst hpq
        rw [Term.inst_app, Term.inst_app, Term.app.injEq, FunSym.mk.injEq, Atom.inst, Atom.inst,
          Atom.map, Atom.map, Atom.pred.injEq]
        refine ⟨fun h => ⟨rfl, h.2⟩, fun h => ⟨⟨rfl, ?_⟩, h.2⟩⟩
        show ss.length = ts.length
        simpa using congrArg List.length h.2
      · rename_i hpq
        refine Attempt.solves_of_error hr hw (.inr fun v _ h => hpq ?_)
        exact (Atom.pred.inj h).1
    | eq l r => exact Attempt.solves_of_error hr hw (.inr fun v _ h => by cases h)
  | eq l r =>
    cases b with
    | pred q ts => exact Attempt.solves_of_error hr hw (.inr fun v _ h => by cases h)
    | eq l' r' =>
      have h₁ := hsound l l' σ (ha l (by simp [Atom.args])) (hb l' (by simp [Atom.args])) hr hw
      have h₂ := hsound r r' _ (ha r (by simp [Atom.args])) (hb r' (by simp [Atom.args])) h₁.resolved
        h₁.wellFormed
      refine (h₁.andThen (fun v w hvw => ?_) h₂).congr fun v _ => ?_
      · rw [← Term.inst_inst, ← Term.inst_inst, hvw]
      · rw [Atom.inst, Atom.inst, Atom.map, Atom.map, Atom.eq.injEq]

/-! ## From nothing -/

/-- A most general substitution that meets a condition on instances. -/
structure MostGeneral (σ : Substitution) (P : (Var → Term) → Prop) : Prop where
  resolved : σ.Resolved
  wellFormed : σ.WellFormed
  meets : P σ.image
  general : ∀ v, P v → σ.MoreGeneral v

theorem mostGeneral_of_ok {a : Attempt} {P : (Var → Term) → Prop} (h : a.Solves .empty P)
    {σ : Substitution} (hσ : a.toExcept = .ok σ) : MostGeneral σ P := by
  obtain ⟨he, rfl⟩ := Attempt.toExcept_eq_ok.mp hσ
  exact ⟨h.resolved, h.wellFormed, h.meets he,
    fun v hv => h.general v (Substitution.moreGeneral_empty v) hv⟩

theorem isDepth_of_error {a : Attempt} {P : (Var → Term) → Prop} (h : a.Solves .empty P)
    {v : Var → Term} (hv : P v) {e : UnifyError} (he : a.toExcept = .error e) : e.IsDepth :=
  h.complete v (Substitution.moreGeneral_empty v) hv e (Attempt.toExcept_eq_error.mp he)

theorem terms_mostGeneral (hu : u.occursCheck = true) {s t : Term} (hs : s.wellFormed = true)
    (ht : t.wellFormed = true) {σ : Substitution} (h : u.terms s t = .ok σ) :
    MostGeneral σ fun v => s.inst v = t.inst v :=
  mostGeneral_of_ok (extend_sound hu _ s t .empty hs ht Substitution.resolved_empty
    Substitution.wellFormed_empty) h

theorem literals_mostGeneral (hu : u.occursCheck = true) {l m : Literal}
    (hl : l.atom.wellFormed = true) (hm : m.atom.wellFormed = true) {σ : Substitution}
    (h : u.literals l m = .ok σ) : MostGeneral σ fun v => l.atom.inst v = m.atom.inst v :=
  mostGeneral_of_ok (extendAtoms_solves hu hl hm Substitution.resolved_empty
    Substitution.wellFormed_empty) h

/-- Atoms with a common instance fail to unify for want of depth only. -/
theorem literals_complete (hu : u.occursCheck = true) {l m : Literal}
    (hl : l.atom.wellFormed = true) (hm : m.atom.wellFormed = true) {v : Var → Term}
    (hv : l.atom.inst v = m.atom.inst v) {e : UnifyError} (h : u.literals l m = .error e) : e.IsDepth :=
  isDepth_of_error (extendAtoms_solves hu hl hm Substitution.resolved_empty
    Substitution.wellFormed_empty) hv h

end Unifier

end Refutation
