import Refutation.Proofs.Unifiers

/-!
# The results of unification and its depth limit

With the occurs check, unification finds a most general unifier or an error that rules one out, as
long as it does not come to the depth limit. Bindings are never cyclic then, but terms that are nested
deep enough come to the limit all the same, also those that have a unifier. For that they need more
applications than the limit allows levels: whatever the bindings build is made of the applications that
the two sides have, and none of these is nested in itself.

* `Term.applications`: the subterms that are applications; a term is nested no deeper than it has
  different ones (`Term.depth_le_card`).
* `Unifier.Shared`: what the bindings build is made of given applications, a lasting property.
* `Unifier.extend_deep`: where the limit is reached, the sides are nested that deep.
* `Unifier.unification_decides`: what the result of unification says.
* `Unifier.unifies_within_limit`, `Unifier.nested_not_unified`: where the limit is not reached, and
  where it is.
-/

namespace Refutation

/-! ## Applications -/

namespace Term

mutual

/-- The subterms that are applications, a term before its arguments. -/
def applications : Term → List Term
  | .var _ | .const _ => []
  | .app f args => .app f args :: applicationsList args

def applicationsList : List Term → List Term
  | [] => []
  | t :: ts => t.applications ++ applicationsList ts

end

theorem mem_applicationsList {a : Term} {ts : List Term} :
    a ∈ applicationsList ts ↔ ∃ t ∈ ts, a ∈ t.applications := by
  induction ts with
  | nil => simp [applicationsList]
  | cons t ts ih => simp [applicationsList, ih]

theorem mem_applications_app {a : Term} {f : FunSym} {args : List Term} :
    a ∈ (app f args).applications ↔ a = .app f args ∨ ∃ t ∈ args, a ∈ t.applications := by
  rw [applications, List.mem_cons, mem_applicationsList]

/-- An application in an instance comes from one in the term or from a variable. -/
theorem mem_applications_subst {σ : Substitution} {t a : Term} (h : a ∈ (t.subst σ).applications) :
    (∃ b ∈ t.applications, b.subst σ = a) ∨ ∃ x ∈ t.occurrences, a ∈ (σ.image x).applications := by
  induction t with
  | var x => exact .inr ⟨x, by simp, h⟩
  | const c => cases h
  | app f args ih =>
    rw [subst_app, mem_applications_app] at h
    rcases h with rfl | ⟨_, hmap, h⟩
    · exact .inl ⟨.app f args, mem_applications_app.mpr (.inl rfl), subst_app σ f args⟩
    · obtain ⟨s, hs, rfl⟩ := List.mem_map.mp hmap
      rcases ih s hs h with ⟨b, hb, rfl⟩ | ⟨x, hx, h⟩
      · exact .inl ⟨b, mem_applications_app.mpr (.inr ⟨s, hs, hb⟩), rfl⟩
      · exact .inr ⟨x, mem_occurrences_app.mpr ⟨s, hs, hx⟩, h⟩

theorem occurrences_of_mem_applications {t a : Term} (h : a ∈ t.applications) :
    ∀ x ∈ a.occurrences, x ∈ t.occurrences := by
  induction t with
  | var | const => cases h
  | app f args ih =>
    rcases mem_applications_app.mp h with rfl | ⟨s, hs, h⟩
    · exact fun _ => id
    · exact fun x hx => mem_occurrences_app.mpr ⟨s, hs, ih s hs h x hx⟩

theorem weight_lt_app {f : FunSym} {args : List Term} {s : Term} (h : s ∈ args) :
    s.weight < (app f args).weight := by
  have := Unifier.weight_le_weightList h
  rw [weight]
  omega

theorem weight_le_of_mem_applications {t a : Term} (h : a ∈ t.applications) : a.weight ≤ t.weight := by
  induction t with
  | var | const => cases h
  | app f args ih =>
    rcases mem_applications_app.mp h with rfl | ⟨s, hs, h⟩
    · exact Nat.le_refl _
    · exact (ih s hs h).trans (weight_lt_app hs).le

/-! ### Nesting -/

theorem depthList_le {ts : List Term} {n : Nat} : depthList ts ≤ n ↔ ∀ t ∈ ts, t.depth ≤ n := by
  induction ts with
  | nil => simp [depthList]
  | cons t ts ih => simp [depthList, ih]

theorem depth_lt_app {f : FunSym} {args : List Term} {s : Term} (h : s ∈ args) :
    s.depth < (app f args).depth := by
  have := depthList_le.mp (Nat.le_refl (depthList args)) s h
  rw [depth]
  omega

theorem depth_le_inst (v : Var → Term) (t : Term) : t.depth ≤ (t.inst v).depth := by
  induction t with
  | var | const => exact Nat.zero_le _
  | app f args ih =>
    have hargs : depthList args ≤ depthList (args.map (inst v)) :=
      depthList_le.mpr fun s hs =>
        (ih s hs).trans (depthList_le.mp (Nat.le_refl _) _ (List.mem_map_of_mem hs))
    rw [inst_app, depth, depth]
    omega

/-- A term is nested no deeper than it has different applications: none is nested in itself. -/
theorem depth_le_card (t : Term) : t.depth ≤ t.applications.toFinset.card := by
  induction t with
  | var | const => exact Nat.zero_le _
  | app f args ih =>
    have hself : app f args ∈ (app f args).applications.toFinset := by
      rw [List.mem_toFinset, mem_applications_app]
      exact .inl rfl
    have hargs : ∀ s ∈ args, s.depth < (app f args).applications.toFinset.card := by
      intro s hs
      refine (ih s hs).trans_lt (Finset.card_lt_card ?_)
      refine (Finset.ssubset_iff_of_subset fun a ha => ?_).mpr ⟨app f args, hself, fun hm => ?_⟩
      · rw [List.mem_toFinset] at ha ⊢
        exact mem_applications_app.mpr (.inr ⟨s, hs, ha⟩)
      · have hle := weight_le_of_mem_applications (List.mem_toFinset.mp hm)
        exact (weight_lt_app hs).not_ge hle
    have hpos : 0 < (app f args).applications.toFinset.card := Finset.card_pos.mpr ⟨_, hself⟩
    have hle : depthList args ≤ (app f args).applications.toFinset.card - 1 :=
      depthList_le.mpr fun s hs => Nat.le_sub_one_of_lt (hargs s hs)
    rw [depth]
    omega

end Term

namespace Unifier

variable {u : Unifier} {σ : Substitution}

/-! ## Shared applications -/

/-- Each application in the term is one of those given, under the bindings. -/
def Shared (S : List Term) (σ : Substitution) (r : Term) : Prop :=
  ∀ a ∈ r.applications, ∃ q ∈ S, q.subst σ = a

theorem lasting_shared (S : List Term) : Lasting (Shared S) where
  arg h s hs a ha := h a (Term.mem_applications_app.mpr (.inr ⟨s, hs, ha⟩))
  bind {σ x t} hx hself hocc _ ht r hr a ha := by
    have hbind : ∀ q : Term, q.subst (σ.bind x t) = (q.subst σ).subst (.single x t) := fun q => by
      rw [Term.subst_bind hx, hself]
    rcases Term.mem_applications_subst ha with ⟨b, hb, rfl⟩ | ⟨y, -, hmem⟩
    · obtain ⟨q, hq, rfl⟩ := hr b hb
      exact ⟨q, hq, hbind q⟩
    · rw [Substitution.image_single] at hmem
      split at hmem
      · -- The variable does not stand in the term it is bound to, nor in an application of it.
        obtain ⟨q, hq, rfl⟩ := ht a hmem
        refine ⟨q, hq, (hbind q).trans (Term.subst_eq_self fun y hy => ?_)⟩
        rw [Substitution.get?_single, if_neg]
        rintro rfl
        exact hocc (Term.occurrences_of_mem_applications hmem y hy)
      · cases hmem

theorem Shared.depth_le {S : List Term} {r : Term} (h : Shared S σ r) : r.depth ≤ S.length := by
  have hsub : r.applications.toFinset ⊆ (S.map (Term.subst σ)).toFinset := by
    intro a ha
    rw [List.mem_toFinset] at ha ⊢
    exact List.mem_map.mpr (h a ha)
  calc r.depth ≤ r.applications.toFinset.card := r.depth_le_card
    _ ≤ (S.map (Term.subst σ)).toFinset.card := Finset.card_le_card hsub
    _ ≤ S.length := by simpa using List.toFinset_card_le (S.map (Term.subst σ))

/-- At the start every side is made of its own applications. -/
theorem shared_empty {parts : List Term} {t : Term} (ht : t ∈ parts) :
    Shared (Term.applicationsList parts) .empty (t.subst .empty) := by
  intro a ha
  rw [Term.subst_eq_self fun _ _ => rfl] at ha
  exact ⟨a, Term.mem_applicationsList.mpr ⟨t, ht, ha⟩, Term.subst_eq_self fun _ _ => rfl⟩

/-! ## Reaching the limit -/

theorem lasting_moreGeneral (σ : Substitution) : Lasting fun τ _ => σ.MoreGeneral τ.image where
  arg h _ _ := h
  bind {τ x t} hx _ _ h _ _ _ y := by
    have hy : (σ.image y).subst τ = τ.image y := (Term.subst_eq_inst ..).trans (h y)
    rw [← Term.subst_eq_inst, Term.subst_bind hx, hy, Substitution.image_bind hx]

/-- Bindings stay resolved, and the last ones apply to what the first have made of a term. -/
theorem extend_refines (hu : u.occursCheck = true) (levels : Nat) (s t : Term) (hr : σ.Resolved) :
    (u.extend levels s t σ).bindings.Resolved ∧ ∀ r : Term,
      (r.subst σ).subst (u.extend levels s t σ).bindings = r.subst (u.extend levels s t σ).bindings := by
  have hself := Attempt.moreGeneral_self hr
  have hcarries := extend_carries hu (lasting_moreGeneral σ) levels s t σ hr hself hself
  refine ⟨hcarries.resolved, fun r => ?_⟩
  calc (r.subst σ).subst (u.extend levels s t σ).bindings
      = (r.subst σ).inst (u.extend levels s t σ).bindings.image := Term.subst_eq_inst ..
    _ = r.inst (u.extend levels s t σ).bindings.image := (hcarries.keeps r hself).inst_subst r
    _ = r.subst (u.extend levels s t σ).bindings := (Term.subst_eq_inst ..).symm

theorem bindVar_error {x : Var} {t : Term} {e : UnifyError} (h : (u.bindVar x t σ).error = some e) :
    e = .occurs x t := by
  unfold bindVar at h
  split at h <;> cases h
  rfl

/-- A way to unify two terms that reaches the depth limit only where the first is nested at least so
deep, under the bindings that are made till then. -/
def Deep (u : Unifier) (levels : Nat) (attempt : Term → Term → Substitution → Attempt) : Prop :=
  ∀ (s t : Term) (σ : Substitution) (n : Nat), σ.Resolved →
    (attempt s t σ).error = some (.depthExceeded n) →
    n = u.maxDepth ∧ levels ≤ (s.subst (attempt s t σ).bindings).depth

theorem pairwise_deep {levels : Nat} {attempt : Term → Term → Substitution → Attempt}
    (hres : ∀ s t σ, σ.Resolved → (attempt s t σ).bindings.Resolved) (h : u.Deep levels attempt)
    {ss ts : List Term} (hr : σ.Resolved) {n : Nat}
    (he : (pairwise attempt ss ts σ).error = some (.depthExceeded n)) :
    n = u.maxDepth ∧ ∃ s ∈ ss, levels ≤ (s.subst (pairwise attempt ss ts σ).bindings).depth := by
  induction ss generalizing ts σ with
  | nil => cases he
  | cons s ss ih =>
    cases ts with
    | nil => cases he
    | cons t ts =>
      rw [pairwise, Attempt.andThen] at he ⊢
      cases hfirst : (attempt s t σ).error with
      | none =>
        simp only [hfirst] at he ⊢
        obtain ⟨hn, r, hmem, hdeep⟩ := ih (hres s t σ hr) he
        exact ⟨hn, r, List.mem_cons_of_mem _ hmem, hdeep⟩
      | some e =>
        simp only [hfirst] at he ⊢
        obtain ⟨hn, hdeep⟩ := h s t σ n hr (hfirst.trans he)
        exact ⟨hn, s, List.mem_cons_self, hdeep⟩

theorem lists_deep {levels : Nat} {attempt : Term → Term → Substitution → Attempt}
    (hres : ∀ s t σ, σ.Resolved → (attempt s t σ).bindings.Resolved) (h : u.Deep levels attempt)
    {ss ts : List Term} (hr : σ.Resolved) {n : Nat}
    (he : (lists attempt ss ts σ).error = some (.depthExceeded n)) :
    n = u.maxDepth ∧ ∃ s ∈ ss, levels ≤ (s.subst (lists attempt ss ts σ).bindings).depth := by
  unfold lists at he ⊢
  split at he
  · rw [if_pos ‹_›]
    exact pairwise_deep hres h hr he
  · cases he

theorem extend_deep (hu : u.occursCheck = true) (levels : Nat) : u.Deep levels (u.extend levels) := by
  induction levels with
  | zero =>
    intro s t σ n _ he
    cases he
    exact ⟨rfl, Nat.zero_le _⟩
  | succ levels ih =>
    intro s t σ n hr he
    -- The first side under the last bindings is what they make of it as it is resolved now.
    rw [← (extend_refines hu (levels + 1) s t hr).2 s]
    rw [extend] at he ⊢
    generalize s.subst σ = s' at *
    generalize t.subst σ = t' at *
    by_cases heq : s' = t'
    · rw [if_pos heq] at he
      cases he
    · rw [if_neg heq] at he ⊢
      cases s' with
      | var x => cases bindVar_error he
      | const c =>
        cases t' with
        | var x => cases bindVar_error he
        | const | app => cases he
      | app f ss =>
        cases t' with
        | var x => cases bindVar_error he
        | const => cases he
        | app g ts =>
          simp only at he ⊢
          split at he
          · rename_i hname
            rw [if_pos hname]
            obtain ⟨hn, r, hmem, hdeep⟩ :=
              lists_deep (fun s t _ hr => (extend_refines hu levels s t hr).1) ih hr he
            refine ⟨hn, ?_⟩
            rw [Term.subst_app]
            exact Nat.succ_le_of_lt (hdeep.trans_lt (Term.depth_lt_app (List.mem_map_of_mem hmem)))
          · cases he

theorem extendTerms_deep (hu : u.occursCheck = true) : u.Deep (u.maxDepth + 1) u.extendTerms :=
  extend_deep hu _

theorem extendAtoms_deep (hu : u.occursCheck = true) {a b : Atom} (hr : σ.Resolved) {n : Nat}
    (he : (u.extendAtoms a b σ).error = some (.depthExceeded n)) :
    n = u.maxDepth ∧ ∃ s ∈ a.args, u.maxDepth < (s.subst (u.extendAtoms a b σ).bindings).depth := by
  rcases u.extendAtoms_cases a b σ with hlists | ⟨e, herr, hnot⟩
  · rw [hlists] at he ⊢
    exact lists_deep (fun s t _ hr => (extend_refines hu _ s t hr).1) (extendTerms_deep hu) hr he
  · rw [herr] at he
    cases he
    exact (hnot ⟨n, rfl⟩).elim

/-- What an attempt builds out of the sides is nested no deeper than they have applications. -/
theorem Carries.depth_le {a : Attempt} {parts : List Term}
    (h : Carries (Shared (Term.applicationsList parts)) .empty a) {s : Term} (hs : s ∈ parts) :
    (s.subst a.bindings).depth ≤ (Term.applicationsList parts).length :=
  (h.keeps s (shared_empty hs)).depth_le

theorem extendTerms_exceeded (hu : u.occursCheck = true) {s t : Term} {n : Nat}
    (he : (u.extendTerms s t .empty).error = some (.depthExceeded n)) :
    n = u.maxDepth ∧ u.maxDepth < (Term.applicationsList [s, t]).length := by
  obtain ⟨hn, hdeep⟩ := extendTerms_deep hu s t .empty n Substitution.resolved_empty he
  have hcarries := extend_carries hu (lasting_shared (Term.applicationsList [s, t])) (u.maxDepth + 1) s t
    .empty Substitution.resolved_empty (shared_empty (by simp)) (shared_empty (by simp))
  exact ⟨hn, Nat.lt_of_lt_of_le hdeep (hcarries.depth_le (by simp))⟩

theorem extendAtoms_exceeded (hu : u.occursCheck = true) {a b : Atom} {n : Nat}
    (he : (u.extendAtoms a b .empty).error = some (.depthExceeded n)) :
    n = u.maxDepth ∧ u.maxDepth < (Term.applicationsList (a.args ++ b.args)).length := by
  obtain ⟨hn, s, hs, hdeep⟩ := extendAtoms_deep hu Substitution.resolved_empty he
  have hcarries := extendAtoms_carries hu (lasting_shared (Term.applicationsList (a.args ++ b.args)))
    Substitution.resolved_empty (fun t ht => shared_empty (List.mem_append_left _ ht))
    (fun t ht => shared_empty (List.mem_append_right _ ht))
  exact ⟨hn, Nat.lt_of_lt_of_le hdeep (hcarries.depth_le (List.mem_append_left _ hs))⟩

/-! ## Results -/

/-- `θ` is a most general unifier of two sides made of the given terms: it makes them equal, no variable
that it binds is left in what it binds, it speaks of their variables only, and whatever makes them equal
can be applied after it without a difference. -/
structure IsMgu (parts : List Term) (Unifies : Substitution → Prop) (θ : Substitution) : Prop where
  unifies : Unifies θ
  resolved : ∀ x ∈ θ.domain, ∀ t ∈ θ.terms, x ∉ t.occurrences
  domain_sub : ∀ x ∈ θ.domain, x ∈ Term.occurrencesList parts
  terms_sub : ∀ t ∈ θ.terms, ∀ x ∈ t.occurrences, x ∈ Term.occurrencesList parts
  general : ∀ σ, Unifies σ → ∀ x, ((Term.var x).subst θ).subst σ = (Term.var x).subst σ

/-- The result of unification is a most general unifier, or an error that leaves no unifier, or the
depth limit, for which there are more applications in the sides than it allows levels. -/
def Decides (u : Unifier) (parts : List Term) (Unifies : Substitution → Prop) :
    Except UnifyError Substitution → Prop
  | .ok θ => IsMgu parts Unifies θ
  | .error e => (e = .depthExceeded u.maxDepth ∧ u.maxDepth < (Term.applicationsList parts).length) ∨
    ∀ σ, ¬Unifies σ

theorem isMgu_of_mostGeneral {p : (Var → Term) → Prop} {parts : List Term} {θ : Substitution}
    (h : MostGeneral θ p) (hc : θ.Confined {x | x ∈ Term.occurrencesList parts}) :
    IsMgu parts (fun σ => p σ.image) θ := by
  have hbound : ∀ x ∈ θ.domain, θ.get? x ≠ none := fun x hx hn => Substitution.get?_eq_none.mp hn hx
  refine ⟨h.meets, fun x hx t ht => h.resolved.not_mem_occurrences hx ht,
    fun x hx => hc.bound x (hbound x hx), fun t ht y hy => ?_, fun σ hσ x => ?_⟩
  · obtain ⟨⟨z, t⟩, hb, rfl⟩ := List.mem_map.mp ht
    refine hc.image z (hc.bound z (hbound z (List.mem_map_of_mem hb))) y ?_
    rwa [Substitution.image_of_get? (Substitution.get?_of_mem hb)]
  · rw [Term.subst_var, Term.subst_var, Term.subst_eq_inst]
    exact h.general σ.image hσ x

/-- An attempt decides if it solves the condition that the sides become equal, keeps to their variables,
and reaches the limit only where they have applications enough. -/
theorem decides_of_solves {a : Attempt} {p : (Var → Term) → Prop} {parts : List Term}
    (h : a.Solves .empty p) (hc : a.bindings.Confined {x | x ∈ Term.occurrencesList parts})
    (hd : ∀ n, a.error = some (.depthExceeded n) →
      n = u.maxDepth ∧ u.maxDepth < (Term.applicationsList parts).length) :
    u.Decides parts (fun σ => p σ.image) a.toExcept := by
  cases he : a.error with
  | none =>
    have hok : a.toExcept = .ok a.bindings := Attempt.toExcept_eq_ok.mpr ⟨he, rfl⟩
    rw [hok]
    exact isMgu_of_mostGeneral (mostGeneral_of_ok h hok) hc
  | some e =>
    have herr : a.toExcept = .error e := Attempt.toExcept_eq_error.mpr he
    rw [herr]
    by_cases hex : ∃ σ : Substitution, p σ.image
    · obtain ⟨σ, hσ⟩ := hex
      obtain ⟨n, rfl⟩ := isDepth_of_error h hσ herr
      obtain ⟨rfl, hlt⟩ := hd n he
      exact .inl ⟨rfl, hlt⟩
    · exact .inr (not_exists.mp hex)

/-- With the occurs check, unification of well-formed terms and of well-formed atoms decides. -/
theorem unification_decides {u : Unifier} (hu : u.occursCheck = true) :
    (∀ s t : Term, s.wellFormed = true → t.wellFormed = true →
      u.Decides [s, t] (fun σ => s.subst σ = t.subst σ) (u.terms s t)) ∧
    ∀ a b : Atom, a.wellFormed = true → b.wellFormed = true →
      u.Decides (a.args ++ b.args) (fun σ => a.subst σ = b.subst σ) (u.atoms a b) := by
  have hvars : ∀ {parts : List Term} {t : Term}, t ∈ parts → ∀ x ∈ t.occurrences,
      x ∈ Term.occurrencesList parts := by
    intro parts t ht x hx
    rw [Term.occurrencesList_eq_flatMap]
    exact List.mem_flatMap.mpr ⟨t, ht, hx⟩
  constructor
  · intro s t hs ht
    simp only [Term.subst_eq_inst]
    refine decides_of_solves (extend_sound hu _ s t .empty hs ht Substitution.resolved_empty
      Substitution.wellFormed_empty) ?_ fun n => extendTerms_exceeded hu
    exact extendTerms_confined hu (hvars (by simp)) (hvars (by simp)) Substitution.confined_empty
  · intro a b ha hb
    simp only [Atom.subst_eq_inst]
    refine decides_of_solves (extendAtoms_solves hu ha hb Substitution.resolved_empty
      Substitution.wellFormed_empty) ?_ fun n => extendAtoms_exceeded hu
    refine extendAtoms_confined hu (fun x hx => ?_) (fun x hx => ?_) Substitution.confined_empty
    · obtain ⟨t, ht, hx⟩ := Atom.mem_occurrences.mp hx
      exact hvars (List.mem_append_left _ ht) x hx
    · obtain ⟨t, ht, hx⟩ := Atom.mem_occurrences.mp hx
      exact hvars (List.mem_append_right _ ht) x hx

/-- Two terms that share a variable. -/
def linked : Term × Term :=
  (.fn "f" [.var ⟨"x"⟩, .fn "g" [.var ⟨"x"⟩]], .fn "f" [.fn "g" [.var ⟨"y"⟩], .var ⟨"z"⟩])

/-- Two atoms whose arguments would have to be nested in themselves. -/
def circular : Atom × Atom :=
  (.pred "P" [.var ⟨"x"⟩, .var ⟨"y"⟩], .pred "P" [.fn "g" [.var ⟨"y"⟩], .var ⟨"x"⟩])

theorem linked_circular_decided :
    (∃ θ, ({} : Unifier).terms linked.1 linked.2 = .ok θ ∧ θ.domain = [⟨"x"⟩, ⟨"z"⟩] ∧
      IsMgu [linked.1, linked.2] (fun σ => linked.1.subst σ = linked.2.subst σ) θ) ∧
    ∀ σ, circular.1.subst σ ≠ circular.2.subst σ := by
  obtain ⟨hterms, hatoms⟩ := unification_decides (u := {}) rfl
  have hlinked : ({} : Unifier).terms linked.1 linked.2 = .ok (.ofList [(⟨"x"⟩, .fn "g" [.var ⟨"y"⟩]),
      (⟨"z"⟩, .fn "g" [.fn "g" [.var ⟨"y"⟩]])]) := by cbv
  have hcircular : ({} : Unifier).atoms circular.1 circular.2 =
      .error (.occurs ⟨"y"⟩ (.fn "g" [.var ⟨"y"⟩])) := by cbv
  have hmgu := hterms linked.1 linked.2 (by decide) (by decide)
  have hnone := hatoms circular.1 circular.2 (by decide) (by decide)
  rw [hlinked] at hmgu
  rw [hcircular] at hnone
  exact ⟨⟨_, hlinked, by decide, hmgu⟩, hnone.resolve_left (by rintro ⟨h, -⟩; cases h)⟩

end Unifier

/-! ## The limit -/

namespace Term

/-- A function of one argument applied so many times. -/
def nested (f : String) : Nat → Term → Term
  | 0, t => t
  | n + 1, t => .fn f [nested f n t]

theorem wellFormed_nested (f : String) (n : Nat) {t : Term} (h : t.wellFormed = true) :
    (nested f n t).wellFormed = true := by
  induction n with
  | zero => exact h
  | succ n ih => simp [nested, Unifier.wellFormed_fn, ih]

theorem subst_nested (f : String) (n : Nat) (σ : Substitution) (t : Term) :
    (nested f n t).subst σ = nested f n (t.subst σ) := by
  induction n with
  | zero => rfl
  | succ n ih => simp [nested, fn, ih]

theorem depth_nested (f : String) (n : Nat) (t : Term) : (nested f n t).depth = n + t.depth := by
  induction n with
  | zero => simp [nested]
  | succ n ih =>
    simp only [nested, fn, depth, depthList, ih]
    omega

end Term

namespace Unifier

variable {u : Unifier}

/-- Whatever the limit, terms that are nested deeper and differ below come to it. -/
theorem nested_exceeds (u : Unifier) (f : String) {s t : Term} (hst : s ≠ t) {levels n : Nat}
    (h : levels ≤ n) : u.extend levels (.nested f n s) (.nested f n t) .empty =
      ⟨.empty, some (.depthExceeded u.maxDepth)⟩ := by
  have hinj : ∀ n, Term.nested f n s ≠ Term.nested f n t := by
    intro n
    induction n with
    | zero => exact hst
    | succ n ih => simpa [Term.nested, Term.fn] using ih
  induction levels generalizing n with
  | zero => rfl
  | succ levels ih =>
    obtain ⟨n, rfl⟩ := Nat.exists_eq_add_one.mpr (Nat.lt_of_lt_of_le (Nat.succ_pos levels) h)
    have hself : ∀ r : Term, r.subst .empty = r := fun r => Term.subst_eq_self fun _ _ => rfl
    rw [extend, hself, hself, if_neg (hinj (n + 1))]
    simp only [Term.nested, Term.fn, if_true, lists, List.length_cons, List.length_nil, pairwise,
      ih (Nat.le_of_succ_le_succ h), Attempt.andThen]

/-- Terms that come to the limit have more applications than it allows levels, and all their common
instances are nested deeper than it. -/
theorem limit_of_exceeded (hu : u.occursCheck = true) {s t : Term} (hs : s.wellFormed = true)
    (ht : t.wellFormed = true) {n : Nat} (h : u.terms s t = .error (.depthExceeded n)) :
    n = u.maxDepth ∧ u.maxDepth < s.applications.length + t.applications.length ∧
      ∀ σ, s.subst σ = t.subst σ → u.maxDepth < (s.subst σ).depth := by
  have he := Attempt.toExcept_eq_error.mp h
  obtain ⟨hn, hlt⟩ := extendTerms_exceeded hu he
  refine ⟨hn, by simpa [Term.applicationsList] using hlt, fun σ hσ => ?_⟩
  rw [Term.subst_eq_inst, Term.subst_eq_inst] at hσ
  -- The common instance is one of what the bindings have made of the first term by then.
  have hgen := (extend_sound hu (u.maxDepth + 1) s t .empty hs ht Substitution.resolved_empty
    Substitution.wellFormed_empty).general σ.image (Substitution.moreGeneral_empty _) hσ
  obtain ⟨-, hdeep⟩ := extendTerms_deep hu s t .empty n Substitution.resolved_empty he
  rw [Term.subst_eq_inst, ← hgen.inst_subst s]
  exact Nat.lt_of_lt_of_le hdeep (Term.depth_le_inst _ _)

/-- The depth limit is out of reach for terms with no more applications than it allows levels. Terms
with a common instance unify if that is so, or if the instance is nested no deeper than the limit. -/
theorem unifies_within_limit {u : Unifier} (hu : u.occursCheck = true) {s t : Term}
    (hs : s.wellFormed = true) (ht : t.wellFormed = true) :
    (∀ n, u.terms s t = .error (.depthExceeded n) → n = u.maxDepth ∧
      u.maxDepth < s.applications.length + t.applications.length ∧
      ∀ σ, s.subst σ = t.subst σ → u.maxDepth < (s.subst σ).depth) ∧
    ∀ σ, s.subst σ = t.subst σ →
      s.applications.length + t.applications.length ≤ u.maxDepth ∨ (s.subst σ).depth ≤ u.maxDepth →
      ∃ θ, u.terms s t = .ok θ := by
  refine ⟨fun n h => limit_of_exceeded hu hs ht h, fun σ hσ hle => ?_⟩
  cases h : u.terms s t with
  | ok θ => exact ⟨θ, rfl⟩
  | error e =>
    -- A common instance leaves no other error than the limit.
    have hinst : s.inst σ.image = t.inst σ.image := by
      rw [← Term.subst_eq_inst, ← Term.subst_eq_inst, hσ]
    obtain ⟨n, rfl⟩ := isDepth_of_error (extend_sound hu _ s t .empty hs ht
      Substitution.resolved_empty Substitution.wellFormed_empty) hinst h
    obtain ⟨-, happ, hdeep⟩ := limit_of_exceeded hu hs ht h
    have := hdeep σ hσ
    omega

/-- Nested as deep as the default limit allows, terms with a common instance unify. -/
theorem nested_within_limit :
    (Term.nested "f" 256 (.var ⟨"x"⟩)).subst (.single ⟨"x"⟩ (.const "A")) =
      (Term.nested "f" 256 (.const "A")).subst (.single ⟨"x"⟩ (.const "A")) ∧
    ((Term.nested "f" 256 (.var ⟨"x"⟩)).subst (.single ⟨"x"⟩ (.const "A"))).depth = 256 ∧
    ∃ θ, ({} : Unifier).terms (.nested "f" 256 (.var ⟨"x"⟩)) (.nested "f" 256 (.const "A")) = .ok θ := by
  have heq : (Term.nested "f" 256 (.var ⟨"x"⟩)).subst (.single ⟨"x"⟩ (.const "A")) =
      (Term.nested "f" 256 (.const "A")).subst (.single ⟨"x"⟩ (.const "A")) := by
    rw [Term.subst_nested, Term.subst_nested]
    rfl
  have hdepth : ((Term.nested "f" 256 (.var ⟨"x"⟩)).subst (.single ⟨"x"⟩ (.const "A"))).depth = 256 := by
    rw [Term.subst_nested, Term.depth_nested]
    rfl
  exact ⟨heq, hdepth, (unifies_within_limit (u := {}) rfl (Term.wellFormed_nested _ _ rfl)
    (Term.wellFormed_nested _ _ rfl)).2 _ heq (.inr (Nat.le_of_eq hdepth))⟩

/-- Nested one level deeper, they do not. -/
theorem nested_not_unified :
    (Term.nested "f" 257 (.var ⟨"x"⟩)).wellFormed = true ∧
    (Term.nested "f" 257 (.const "A")).wellFormed = true ∧
    (Term.nested "f" 257 (.var ⟨"x"⟩)).subst (.single ⟨"x"⟩ (.const "A")) =
      (Term.nested "f" 257 (.const "A")).subst (.single ⟨"x"⟩ (.const "A")) ∧
    ({} : Unifier).terms (.nested "f" 257 (.var ⟨"x"⟩)) (.nested "f" 257 (.const "A")) =
      .error (.depthExceeded 256) := by
  refine ⟨Term.wellFormed_nested _ _ rfl, Term.wellFormed_nested _ _ rfl, ?_, ?_⟩
  · rw [Term.subst_nested, Term.subst_nested]
    rfl
  · have hrun := nested_exceeds {} "f" (s := .var ⟨"x"⟩) (t := .const "A") nofun (Nat.le_refl 257)
    rw [terms, extendTerms, hrun]
    rfl

end Unifier

end Refutation
