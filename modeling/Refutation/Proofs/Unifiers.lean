import Refutation.Proofs.Unification

/-!
# What unification keeps

Unification applies the bindings it has, takes terms apart and binds variables to what it comes upon.
A property of terms that lasts through these steps holds of all that the bindings make of the two
sides, whether the attempt succeeds or not.

* `Unifier.Lasting`, `Unifier.Carries`: such properties, and attempts that keep them.
* `Unifier.extend_carries`, `Unifier.extendAtoms_carries`: every attempt with the occurs check does.
* `Substitution.Confined`, `Unifier.literals_confined`: the unifier of two literals is confined to
  their variables.
* `Equation.after`, `Equation.shared_consistent`: attempts one after the other on the same bindings.
-/

namespace Refutation

/-! ## Lasting properties -/

namespace Unifier

variable {u : Unifier} {σ : Substitution} {P : Substitution → Term → Prop}

/-- A property of terms under bindings that unification keeps: an application leaves it to its
arguments, and nothing loses it when a variable is bound to a term and both have it. -/
structure Lasting (P : Substitution → Term → Prop) : Prop where
  arg : ∀ {σ : Substitution} {f : FunSym} {ss : List Term}, P σ (.app f ss) → ∀ s ∈ ss, P σ s
  bind : ∀ {σ : Substitution} {x : Var} {t : Term}, σ.get? x = none → t.subst σ = t →
    x ∉ t.occurrences → P σ (.var x) → P σ t → ∀ r, P σ r → P (σ.bind x t) (r.subst (.single x t))

/-- An attempt that starts from `σ` leaves resolved bindings, and what they make of a term has the
property if it had it before. -/
structure Carries (P : Substitution → Term → Prop) (σ : Substitution) (a : Attempt) : Prop where
  resolved : a.bindings.Resolved
  keeps : ∀ r : Term, P σ (r.subst σ) → P a.bindings (r.subst a.bindings)

theorem Carries.stay (h : σ.Resolved) (e : Option UnifyError) : Carries P σ ⟨σ, e⟩ := ⟨h, fun _ => id⟩

theorem Carries.andThen {a : Attempt} {next : Substitution → Attempt} (h : Carries P σ a)
    (hnext : Carries P a.bindings (next a.bindings)) : Carries P σ (a.andThen next) := by
  unfold Attempt.andThen
  split
  · exact ⟨hnext.resolved, fun r hr => hnext.keeps r (h.keeps r hr)⟩
  · exact h

/-- A way to unify two terms that keeps the property if both have it. -/
def Carrying (P : Substitution → Term → Prop) (attempt : Term → Term → Substitution → Attempt) : Prop :=
  ∀ (s t : Term) (σ : Substitution), σ.Resolved → P σ (s.subst σ) → P σ (t.subst σ) →
    Carries P σ (attempt s t σ)

theorem bindVar_carries (hu : u.occursCheck = true) (hP : Lasting P) {x : Var} {t : Term}
    (hr : σ.Resolved) (hx : σ.get? x = none) (ht : ∀ y ∈ t.occurrences, σ.get? y = none)
    (hPx : P σ (.var x)) (hPt : P σ t) : Carries P σ (u.bindVar x t σ) := by
  have hself : t.subst σ = t := Term.subst_eq_self ht
  unfold bindVar
  split
  · exact .stay hr _
  · rename_i hocc
    rw [hu, Bool.true_and, Term.hasVar_iff] at hocc
    refine ⟨hr.bind hx (by rwa [hself]), fun r hPr => ?_⟩
    show P (σ.bind x t) (r.subst (σ.bind x t))
    rw [Term.subst_bind hx, hself]
    exact hP.bind hx hself hocc hPx hPt _ hPr

theorem pairwise_carries {attempt : Term → Term → Substitution → Attempt} (h : Carrying P attempt)
    {ss ts : List Term} (hr : σ.Resolved) (hs : ∀ s ∈ ss, P σ (s.subst σ))
    (ht : ∀ t ∈ ts, P σ (t.subst σ)) : Carries P σ (pairwise attempt ss ts σ) := by
  induction ss generalizing ts σ with
  | nil => exact .stay hr _
  | cons s ss ih =>
    cases ts with
    | nil => exact .stay hr _
    | cons t ts =>
      rw [List.forall_mem_cons] at hs ht
      have hfirst := h s t σ hr hs.1 ht.1
      exact hfirst.andThen (ih hfirst.resolved (fun r hm => hfirst.keeps r (hs.2 r hm))
        fun r hm => hfirst.keeps r (ht.2 r hm))

theorem lists_carries {attempt : Term → Term → Substitution → Attempt} (h : Carrying P attempt)
    {ss ts : List Term} (hr : σ.Resolved) (hs : ∀ s ∈ ss, P σ (s.subst σ))
    (ht : ∀ t ∈ ts, P σ (t.subst σ)) : Carries P σ (lists attempt ss ts σ) := by
  unfold lists
  split
  · exact pairwise_carries h hr hs ht
  · exact .stay hr _

theorem extend_carries (hu : u.occursCheck = true) (hP : Lasting P) (levels : Nat) :
    Carrying P (u.extend levels) := by
  induction levels with
  | zero => exact fun s t σ hr _ _ => .stay hr _
  | succ levels ih =>
    intro s t σ hr hs ht
    have hsr : ∀ y ∈ (s.subst σ).occurrences, σ.get? y = none := fun y => hr.unbound
    have htr : ∀ y ∈ (t.subst σ).occurrences, σ.get? y = none := fun y => hr.unbound
    rw [extend]
    generalize s.subst σ = s' at *
    generalize t.subst σ = t' at *
    -- The arguments of a resolved application are resolved, so that they have the property as they are.
    have hargs : ∀ {f : FunSym} {rs : List Term}, (∀ y ∈ (Term.app f rs).occurrences, σ.get? y = none) →
        P σ (.app f rs) → ∀ r ∈ rs, P σ (r.subst σ) := by
      intro f rs hres hrs r hr
      rw [Term.subst_eq_self fun y hy => hres y (Term.mem_occurrences_app.mpr ⟨r, hr, hy⟩)]
      exact hP.arg hrs r hr
    by_cases heq : s' = t'
    · rw [if_pos heq]
      exact .stay hr _
    · rw [if_neg heq]
      cases s' with
      | var x => exact bindVar_carries hu hP hr (hsr x (by simp)) htr hs ht
      | const c =>
        cases t' with
        | var x => exact bindVar_carries hu hP hr (htr x (by simp)) hsr ht hs
        | const | app => exact .stay hr _
      | app f ss =>
        cases t' with
        | var x => exact bindVar_carries hu hP hr (htr x (by simp)) hsr ht hs
        | const => exact .stay hr _
        | app g ts =>
          simp only
          split
          · exact lists_carries ih hr (hargs hsr hs) (hargs htr ht)
          · exact .stay hr _

/-- Atoms of the same kind and symbol unify argument by argument, others not at all. -/
theorem extendAtoms_cases (u : Unifier) (a b : Atom) (σ : Substitution) :
    u.extendAtoms a b σ = lists u.extendTerms a.args b.args σ ∨
      ∃ e, u.extendAtoms a b σ = ⟨σ, some e⟩ ∧ ¬e.IsDepth := by
  cases a with
  | pred p ss =>
    cases b with
    | pred q ts =>
      by_cases hpq : p = q
      · exact .inl (if_pos hpq)
      · exact .inr ⟨.predicateClash p q, if_neg hpq, nofun⟩
    | eq => exact .inr ⟨_, rfl, nofun⟩
  | eq l r =>
    cases b with
    | pred => exact .inr ⟨_, rfl, nofun⟩
    | eq l' r' =>
      have hlast : ∀ τ, pairwise u.extendTerms [r] [r'] τ = u.extendTerms r r' τ := by
        intro τ
        rw [pairwise, Attempt.andThen]
        split
        · rename_i he
          rw [pairwise, ← he]
          nofun
        · rfl
      refine .inl ?_
      rw [extendAtoms, ← funext hlast]
      rfl

theorem extendAtoms_carries (hu : u.occursCheck = true) (hP : Lasting P) {a b : Atom} (hr : σ.Resolved)
    (ha : ∀ t ∈ a.args, P σ (t.subst σ)) (hb : ∀ t ∈ b.args, P σ (t.subst σ)) :
    Carries P σ (u.extendAtoms a b σ) := by
  rcases u.extendAtoms_cases a b σ with he | ⟨e, he, -⟩
  · rw [he]
    exact lists_carries (extend_carries hu hP _) hr ha hb
  · rw [he]
    exact .stay hr _

end Unifier

/-! ## Variables -/

/-- The bindings are resolved, and they bind variables of the set to terms over the set. -/
structure Substitution.Confined (X : Set Var) (σ : Substitution) : Prop where
  resolved : σ.Resolved
  bound : ∀ x, σ.get? x ≠ none → x ∈ X
  image : ∀ x ∈ X, ∀ y ∈ (σ.image x).occurrences, y ∈ X

theorem Substitution.confined_empty {X : Set Var} : empty.Confined X where
  resolved := resolved_empty
  bound _ h := (h rfl).elim
  image x hx y hy := by
    rw [image_empty, Term.occurrences_var, List.mem_singleton] at hy
    exact hy ▸ hx

namespace Unifier

variable {u : Unifier} {X : Set Var} {σ : Substitution}

/-- The bound variables, and those of the term, belong to the set. -/
def Within (X : Set Var) (σ : Substitution) (r : Term) : Prop :=
  (∀ x, σ.get? x ≠ none → x ∈ X) ∧ ∀ y ∈ r.occurrences, y ∈ X

theorem lasting_within (X : Set Var) : Lasting (Within X) where
  arg h s hs := ⟨h.1, fun y hy => h.2 y (Term.mem_occurrences_app.mpr ⟨s, hs, hy⟩)⟩
  bind {σ x t} _ _ _ hx ht r hr := by
    refine ⟨fun y hy => ?_, fun y hy => ?_⟩
    · by_cases he : y = x
      · exact he ▸ hx.2 x (by simp)
      · exact hx.1 y fun hn => hy (Substitution.get?_bind_eq_none.mpr ⟨he, hn⟩)
    · obtain ⟨z, hz, hy⟩ := Term.mem_occurrences_subst.mp hy
      rw [Substitution.image_single] at hy
      split at hy
      · exact ht.2 y hy
      · rw [Term.occurrences_var, List.mem_singleton] at hy
        exact hy ▸ hr.2 z hz

/-- Bindings confined to some variables stay so while terms over these are unified. -/
theorem Carries.confined {a : Attempt} (h : Carries (Within X) σ a) (hσ : σ.Confined X) :
    a.bindings.Confined X where
  resolved := h.resolved
  bound := (h.keeps (.const "") ⟨hσ.bound, nofun⟩).1
  image x hx := (h.keeps (.var x) ⟨hσ.bound, hσ.image x hx⟩).2

/-- What confined bindings make of a term over the set is a term over the set. -/
theorem within_subst (hσ : σ.Confined X) {t : Term} (ht : ∀ x ∈ t.occurrences, x ∈ X) :
    Within X σ (t.subst σ) := by
  refine ⟨hσ.bound, fun y hy => ?_⟩
  obtain ⟨x, hx, hyx⟩ := Term.mem_occurrences_subst.mp hy
  exact hσ.image x (ht x hx) y hyx

theorem extendTerms_confined (hu : u.occursCheck = true) {s t : Term} (hs : ∀ x ∈ s.occurrences, x ∈ X)
    (ht : ∀ x ∈ t.occurrences, x ∈ X) (hσ : σ.Confined X) :
    (u.extendTerms s t σ).bindings.Confined X :=
  (extend_carries hu (lasting_within X) _ s t σ hσ.resolved (within_subst hσ hs)
    (within_subst hσ ht)).confined hσ

theorem extendAtoms_confined (hu : u.occursCheck = true) {a b : Atom}
    (ha : ∀ x ∈ a.occurrences, x ∈ X) (hb : ∀ x ∈ b.occurrences, x ∈ X) (hσ : σ.Confined X) :
    (u.extendAtoms a b σ).bindings.Confined X := by
  have hargs : ∀ {a : Atom}, (∀ x ∈ a.occurrences, x ∈ X) → ∀ t ∈ a.args, Within X σ (t.subst σ) :=
    fun ha t ht => within_subst hσ fun x hx => ha x (Atom.mem_occurrences.mpr ⟨t, ht, hx⟩)
  exact (extendAtoms_carries hu (lasting_within X) hσ.resolved (hargs ha) (hargs hb)).confined hσ

/-- With the occurs check a unifier of two literals is resolved and speaks of their variables only. -/
theorem literals_confined (hu : u.occursCheck = true) {l m : Literal}
    (hl : ∀ x ∈ l.occurrences, x ∈ X) (hm : ∀ x ∈ m.occurrences, x ∈ X)
    (h : u.literals l m = .ok σ) : σ.Confined X := by
  have hconfined := extendAtoms_confined (u := u) hu hl hm Substitution.confined_empty
  obtain ⟨-, rfl⟩ := Attempt.toExcept_eq_ok.mp h
  exact hconfined

end Unifier

/-! ## One attempt after the other -/

/-- Two atoms that are to become equal, and the settings to unify them by. -/
structure Equation where
  settings : Unifier
  left : Atom
  right : Atom

namespace Equation

/-- The attempt at the equation that goes on from given bindings. -/
def attempt (e : Equation) (σ : Substitution) : Attempt := e.settings.extendAtoms e.left e.right σ

/-- The occurs check is on, and the atoms are well-formed. -/
structure Proper (e : Equation) : Prop where
  occursCheck : e.settings.occursCheck = true
  left : e.left.wellFormed = true
  right : e.right.wellFormed = true

/-- The bindings after an attempt at one equation after the other. An attempt that fails leaves those
that it has made by then, and the next one goes on from them. -/
def goOn (σ : Substitution) (es : List Equation) : Substitution :=
  es.foldl (fun σ e => (e.attempt σ).bindings) σ

/-- The bindings after attempts at the equations, with nothing bound at the start. -/
def after (es : List Equation) : Substitution := goOn .empty es

variable {e : Equation} {es : List Equation} {σ : Substitution}

theorem Proper.solves (h : e.Proper) (hr : σ.Resolved) (hw : σ.WellFormed) :
    (e.attempt σ).Solves σ fun v => e.left.inst v = e.right.inst v :=
  Unifier.extendAtoms_solves h.occursCheck h.left h.right hr hw

/-- Whatever becomes of the attempts, the bindings stay resolved, and the last ones apply to what the
first have made of a variable. -/
theorem goOn_refines (hes : ∀ e ∈ es, e.Proper) (hr : σ.Resolved) (hw : σ.WellFormed) :
    (goOn σ es).Resolved ∧ (goOn σ es).WellFormed ∧ σ.MoreGeneral (goOn σ es).image := by
  induction es generalizing σ with
  | nil => exact ⟨hr, hw, Attempt.moreGeneral_self hr⟩
  | cons e es ih =>
    rw [List.forall_mem_cons] at hes
    have hstep := hes.1.solves hr hw
    obtain ⟨hr', hw', hrefines⟩ := ih hes.2 hstep.resolved hstep.wellFormed
    exact ⟨hr', hw', hstep.refines.trans hrefines⟩

theorem after_refines (hes : ∀ e ∈ es, e.Proper) : (after es).Resolved ∧ (after es).WellFormed := by
  obtain ⟨hr, hw, -⟩ := goOn_refines hes Substitution.resolved_empty Substitution.wellFormed_empty
  exact ⟨hr, hw⟩

theorem after_append (before later : List Equation) : after (before ++ later) = goOn (after before) later :=
  List.foldl_append

/-- Bindings that attempts share stay consistent, whether these succeed or fail. No bound variable stands
in a bound term, two atoms that an attempt has made equal stay equal, and the bindings at any time apply
to what those at an earlier time have made of a term. -/
theorem shared_consistent {es : List Equation} (hes : ∀ e ∈ es, e.Proper) :
    (∀ x ∈ (after es).domain, ∀ t ∈ (after es).terms, x ∉ t.occurrences) ∧
    (∀ before e later, es = before ++ e :: later → (e.attempt (after before)).error = none →
      e.left.subst (after es) = e.right.subst (after es)) ∧
    ∀ before later, es = before ++ later → ∀ t : Term,
      t.subst (after es) = (t.subst (after before)).subst (after es) := by
  refine ⟨fun x hx t ht => (after_refines hes).1.not_mem_occurrences hx ht, ?_, ?_⟩
  · rintro before e later rfl hok
    rw [List.forall_mem_append, List.forall_mem_cons] at hes
    obtain ⟨hr, hw⟩ := after_refines hes.1
    have hsolves := hes.2.1.solves hr hw
    -- What the attempt makes equal is equal in every instance of its bindings.
    have hgeneral : (e.attempt (after before)).bindings.MoreGeneral (after (before ++ e :: later)).image := by
      rw [after_append]
      exact (goOn_refines hes.2.2 hsolves.resolved hsolves.wellFormed).2.2
    have hequal : e.left.subst (e.attempt (after before)).bindings =
        e.right.subst (e.attempt (after before)).bindings := by
      rw [Atom.subst_eq_inst, Atom.subst_eq_inst, hsolves.meets hok]
    rw [Atom.subst_eq_inst, Atom.subst_eq_inst, ← hgeneral.atom, hequal, hgeneral.atom]
  · rintro before later rfl t
    rw [List.forall_mem_append] at hes
    obtain ⟨hr, hw⟩ := after_refines hes.1
    obtain ⟨-, -, hgeneral⟩ := goOn_refines hes.2 hr hw
    rw [after_append, Term.subst_eq_inst, Term.subst_eq_inst _ (t.subst _), hgeneral.inst_subst]

/-- Two constants that differ, after two variables that need not. -/
def clash : Equation := ⟨{}, .pred "P" [.var ⟨"x"⟩, .const "A"], .pred "P" [.var ⟨"y"⟩, .const "B"]⟩

/-- One of the variables is an application, with no more than one level to enter. -/
def applied : Equation :=
  ⟨{ maxDepth := 1 }, .pred "Q" [.var ⟨"y"⟩], .pred "Q" [.fn "f" [.var ⟨"z"⟩]]⟩

/-- The other one is an application to a constant. -/
def completed : Equation :=
  ⟨{}, .eq (.var ⟨"x"⟩) (.var ⟨"w"⟩), .eq (.fn "f" [.const "A"]) (.var ⟨"z"⟩)⟩

/-- What an attempt that fails has bound takes part in all that follows. -/
theorem clash_consistent :
    clash.attempt .empty = ⟨.single ⟨"x"⟩ (.var ⟨"y"⟩), some (.constantClash "A" "B")⟩ ∧
    (after [clash, applied, completed]).bindings = [(⟨"x"⟩, .fn "f" [.const "A"]),
      (⟨"y"⟩, .fn "f" [.const "A"]), (⟨"z"⟩, .const "A"), (⟨"w"⟩, .const "A")] ∧
    applied.left.subst (after [clash, applied, completed]) =
      applied.right.subst (after [clash, applied, completed]) ∧
    ∀ t : Term, t.subst (after [clash, applied, completed]) =
      (t.subst (.single ⟨"x"⟩ (.var ⟨"y"⟩))).subst (after [clash, applied, completed]) := by
  have hproper : ∀ e ∈ [clash, applied, completed], e.Proper := by
    simp only [List.forall_mem_cons]
    exact ⟨⟨rfl, by decide, by decide⟩, ⟨rfl, by decide, by decide⟩, ⟨rfl, by decide, by decide⟩, nofun⟩
  obtain ⟨-, hequal, hlater⟩ := shared_consistent hproper
  have hclash : clash.attempt .empty = ⟨.single ⟨"x"⟩ (.var ⟨"y"⟩), some (.constantClash "A" "B")⟩ := by cbv
  have hafter : after [clash] = .single ⟨"x"⟩ (.var ⟨"y"⟩) := congrArg Attempt.bindings hclash
  exact ⟨hclash, by decide +kernel, hequal [clash] applied [completed] rfl (by cbv),
    hafter ▸ hlater [clash] [applied, completed] rfl⟩

end Equation

end Refutation
