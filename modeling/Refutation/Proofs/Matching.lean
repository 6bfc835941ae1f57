import Refutation.Matching
import Refutation.Proofs.Substitution

/-!
# Matching is exact

Matching goes through a pattern from left to right. A variable that it meets for the first time is bound
to what stands there in the target, and from then on the target must agree with the binding. Nothing is
ever substituted on the way, so the variables of the target stay as they are, also those that the
pattern has too.

* `Substitution.Keeps`, `Substitution.Grows`: bindings that stay, and bindings that stay in front of
  those of some variables more.
* `Term.matchTo_sound`, `Atom.matchTo_sound`, `Literal.matchTo_sound`: a match that succeeds makes the
  pattern the target, and binds the variables of the pattern in order of first occurrence.
* `Term.matchTo_complete`, `Atom.matchTo_complete`, `Literal.matchTo_complete`: a pattern is matched to
  each of its instances.
* `matching_exact`: when a match succeeds, and with which bindings.
-/

namespace Refutation

/-! ## Bindings -/

namespace Substitution

/-- What the first binds the second binds alike. -/
def Keeps (σ τ : Substitution) : Prop := ∀ x t, σ.get? x = some t → τ.get? x = some t

/-- The first bindings stay in front, and after them the variables of the list that were unbound are
bound, in order of first occurrence. -/
structure Grows (σ τ : Substitution) (xs : List Var) : Prop where
  front : σ.bindings <+: τ.bindings
  domain_eq : τ.domain = (σ.domain ++ xs).eraseDups

/-- The bindings are those of the assignment. -/
def Agrees (σ : Substitution) (θ : Var → Term) : Prop := ∀ x t, σ.get? x = some t → t = θ x

variable {σ τ υ : Substitution} {xs ys : List Var} {θ : Var → Term}

theorem Keeps.refl (σ : Substitution) : σ.Keeps σ := fun _ _ h => h

theorem Keeps.trans (h : σ.Keeps τ) (h' : τ.Keeps υ) : σ.Keeps υ := fun x t hx => h' x t (h x t hx)

theorem Keeps.agrees (h : σ.Keeps τ) : σ.Agrees τ.image := fun x t hx => (image_of_get? (h x t hx)).symm

theorem Grows.keeps (h : σ.Grows τ xs) : σ.Keeps τ := fun _ _ hx =>
  get?_of_mem (h.front.subset (mem_of_get? hx))

theorem Grows.refl (σ : Substitution) : σ.Grows σ [] where
  front := List.prefix_refl _
  domain_eq := by rw [List.append_nil, eraseDups_eq_self σ.nodup_domain]

theorem Grows.trans (h : σ.Grows τ xs) (h' : τ.Grows υ ys) : σ.Grows υ (xs ++ ys) where
  front := h.front.trans h'.front
  domain_eq := by rw [h'.domain_eq, h.domain_eq, eraseDups_append_eraseDups, List.append_assoc]

/-- A variable that is bound already adds nothing. -/
theorem Grows.bound {x : Var} {t : Term} (h : σ.get? x = some t) : σ.Grows σ [x] where
  front := List.prefix_refl _
  domain_eq := by
    have hx : x ∈ σ.domain := List.mem_map_of_mem (f := Prod.fst) (mem_of_get? h)
    rw [eraseDups_append_of_nodup σ.nodup_domain]
    simp [List.eraseDups_cons, hx]

theorem Grows.insert {x : Var} (h : σ.get? x = none) (t : Term) : σ.Grows (σ.insert x t) [x] := by
  have hb : (σ.insert x t).bindings = σ.bindings ++ [(x, t)] := bindings_insert (get?_eq_none.mp h) t
  have hdomain : (σ.insert x t).domain = σ.domain ++ [x] := by
    rw [domain, hb, List.map_append]
    rfl
  exact ⟨hb ▸ List.prefix_append .., by rw [← hdomain, eraseDups_eq_self (nodup_domain _)]⟩

/-- The bindings that come after those there were. -/
theorem Grows.exists_new (h : σ.Grows τ xs) : ∃ new : List (Var × Term),
    τ.bindings = σ.bindings ++ new ∧ new.map Prod.fst = xs.eraseDups.filter (· ∉ σ.domain) := by
  obtain ⟨new, hnew⟩ := h.front
  refine ⟨new, hnew.symm, ?_⟩
  have hdomain : τ.domain = σ.domain ++ new.map Prod.fst := by
    rw [domain, ← hnew, List.map_append]
    rfl
  rw [h.domain_eq, eraseDups_append_of_nodup σ.nodup_domain] at hdomain
  exact (List.append_cancel_left hdomain).symm

theorem agrees_empty (θ : Var → Term) : empty.Agrees θ := nofun

theorem Agrees.insert (h : σ.Agrees θ) (x : Var) : (σ.insert x (θ x)).Agrees θ := by
  intro y t hy
  rw [get?_insert] at hy
  split at hy
  · rename_i hyx
    cases hy
    rw [hyx]
  · exact h y t hy

end Substitution

/-! ## Soundness -/

namespace Term

/-- Matching a pattern to a target adds bindings of the pattern's variables, and from then on the
pattern's instance is the target. -/
def MatchSound (p : Term) : Prop :=
  ∀ (σ σ' : Substitution) (t : Term), p.matchTo σ t = (true, σ') →
    σ.Grows σ' p.occurrences ∧ ∀ τ, σ'.Keeps τ → p.subst τ = t

theorem matchLists_sound {ps ts : List Term} (hp : ∀ p ∈ ps, p.MatchSound)
    (hlen : ps.length = ts.length) {σ σ' : Substitution} (h : matchLists σ ps ts = (true, σ')) :
    σ.Grows σ' (occurrencesList ps) ∧ ∀ τ, σ'.Keeps τ → ps.map (subst τ) = ts := by
  induction ps generalizing ts σ with
  | nil =>
    cases List.length_eq_zero_iff.mp hlen.symm
    cases h
    exact ⟨.refl _, fun _ _ => rfl⟩
  | cons p ps ih =>
    obtain ⟨t, ts, rfl⟩ := List.exists_cons_of_length_eq_add_one hlen.symm
    rw [matchLists] at h
    split at h
    · rename_i σ₁ h₁
      obtain ⟨hg, hpt⟩ := hp p List.mem_cons_self σ σ₁ t h₁
      obtain ⟨hg', hps⟩ := ih (fun q hq => hp q (List.mem_cons_of_mem _ hq)) (Nat.succ.inj hlen) h
      refine ⟨hg.trans hg', fun τ hτ => ?_⟩
      rw [List.map_cons, hpt τ (hg'.keeps.trans hτ), hps τ hτ]
    · cases h

theorem matchTo_sound (p : Term) : p.MatchSound := by
  induction p with
  | var x =>
    intro σ σ' t h
    rw [matchTo] at h
    split at h
    · rename_i bound hx
      obtain ⟨hb, rfl⟩ := Prod.mk.inj h
      cases eq_of_beq hb
      exact ⟨.bound hx, fun τ hτ => Substitution.image_of_get? (hτ x _ hx)⟩
    · rename_i hx
      obtain ⟨-, rfl⟩ := Prod.mk.inj h
      refine ⟨.insert hx t, fun τ hτ => Substitution.image_of_get? (hτ x t ?_)⟩
      rw [Substitution.get?_insert, if_pos rfl]
  | const c =>
    intro σ σ' t h
    cases t with
    | const d =>
      obtain ⟨hb, rfl⟩ := Prod.mk.inj h
      cases eq_of_beq hb
      exact ⟨.refl _, fun _ _ => rfl⟩
    | var y => cases h
    | app g ts => cases h
  | app f ps ih =>
    intro σ σ' t h
    cases t with
    | const d => cases h
    | var y => cases h
    | app g ts =>
      rw [matchTo] at h
      split at h
      · rename_i hfg
        obtain ⟨hg, hps⟩ := matchLists_sound ih hfg.2 h
        refine ⟨hg, fun τ hτ => ?_⟩
        rw [subst_app, hps τ hτ, hfg.1]
      · cases h

end Term

theorem Atom.matchTo_sound {a b : Atom} {σ σ' : Substitution} (h : a.matchTo σ b = (true, σ')) :
    σ.Grows σ' a.occurrences ∧ ∀ τ, σ'.Keeps τ → a.subst τ = b := by
  have hargs : ∀ ps ts : List Term, ps.length = ts.length → Term.matchLists σ ps ts = (true, σ') →
      σ.Grows σ' (Term.occurrencesList ps) ∧ ∀ τ, σ'.Keeps τ → ps.map (Term.subst τ) = ts :=
    fun _ _ hlen h => Term.matchLists_sound (fun p _ => p.matchTo_sound) hlen h
  cases a with
  | pred p ps =>
    cases b with
    | eq l r => cases h
    | pred q ts =>
      rw [matchTo] at h
      split at h
      · rename_i hpq
        obtain ⟨hg, hps⟩ := hargs ps ts hpq.2 h
        refine ⟨hg, fun τ hτ => ?_⟩
        rw [subst, map, hps τ hτ, hpq.1]
      · cases h
  | eq l r =>
    cases b with
    | pred q ts => cases h
    | eq l' r' =>
      obtain ⟨hg, hps⟩ := hargs [l, r] [l', r'] rfl h
      refine ⟨hg, fun τ hτ => ?_⟩
      obtain ⟨hl, hr⟩ := List.cons.inj (hps τ hτ)
      rw [subst, map, hl, (List.cons.inj hr).1]

theorem Literal.matchTo_sound {l m : Literal} {σ σ' : Substitution} (h : l.matchTo σ m = (true, σ')) :
    σ.Grows σ' l.occurrences ∧ ∀ τ, σ'.Keeps τ → l.subst τ = m := by
  unfold matchTo at h
  split at h
  · rename_i hsign
    obtain ⟨hg, ha⟩ := Atom.matchTo_sound h
    refine ⟨hg, fun τ hτ => ?_⟩
    rw [subst, hsign, ha τ hτ]
  · cases h

/-! ## Completeness -/

namespace Term

/-- A pattern is matched to each of its instances, by bindings that the instance has. -/
def MatchComplete (p : Term) : Prop :=
  ∀ (σ : Substitution) (θ : Var → Term), σ.Agrees θ →
    ∃ σ', p.matchTo σ (p.inst θ) = (true, σ') ∧ σ'.Agrees θ

theorem matchLists_complete {ps : List Term} (hp : ∀ p ∈ ps, p.MatchComplete) {σ : Substitution}
    {θ : Var → Term} (h : σ.Agrees θ) :
    ∃ σ', matchLists σ ps (ps.map (inst θ)) = (true, σ') ∧ σ'.Agrees θ := by
  induction ps generalizing σ with
  | nil => exact ⟨σ, by rw [matchLists]; nofun, h⟩
  | cons p ps ih =>
    obtain ⟨σ₁, h₁, hσ₁⟩ := hp p List.mem_cons_self σ θ h
    obtain ⟨σ₂, h₂, hσ₂⟩ := ih (fun q hq => hp q (List.mem_cons_of_mem _ hq)) hσ₁
    refine ⟨σ₂, ?_, hσ₂⟩
    rw [List.map_cons, matchLists, h₁]
    exact h₂

theorem matchTo_complete (p : Term) : p.MatchComplete := by
  induction p with
  | var x =>
    intro σ θ h
    rw [inst_var, matchTo]
    split
    · rename_i bound hx
      exact ⟨σ, by rw [h x bound hx, beq_self_eq_true], h⟩
    · exact ⟨_, rfl, h.insert x⟩
  | const c =>
    intro σ θ h
    exact ⟨σ, by rw [inst_const, matchTo, beq_self_eq_true], h⟩
  | app f ps ih =>
    intro σ θ h
    rw [inst_app, matchTo, if_pos ⟨rfl, List.length_map _ |>.symm⟩]
    exact matchLists_complete ih h

end Term

theorem Atom.matchTo_complete (a : Atom) {σ : Substitution} {θ : Var → Term} (h : σ.Agrees θ) :
    ∃ σ', a.matchTo σ (a.inst θ) = (true, σ') ∧ σ'.Agrees θ := by
  have hargs : ∀ ps : List Term, ∃ σ', Term.matchLists σ ps (ps.map (Term.inst θ)) = (true, σ') ∧
      σ'.Agrees θ := fun ps => Term.matchLists_complete (fun p _ => p.matchTo_complete) h
  cases a with
  | pred p ps =>
    rw [inst, map, matchTo, if_pos ⟨rfl, List.length_map _ |>.symm⟩]
    exact hargs ps
  | eq l r => exact hargs [l, r]

theorem Literal.matchTo_complete (l : Literal) {σ : Substitution} {θ : Var → Term} (h : σ.Agrees θ) :
    ∃ σ', l.matchTo σ (l.inst θ) = (true, σ') ∧ σ'.Agrees θ := by
  rw [matchTo, if_pos (by rfl)]
  exact l.atom.matchTo_complete h

/-! ## Exactness -/

/-- What the result of a match from `σ` says of a pattern with the given variables. It succeeds if and
only if some bindings of these variables that keep to `σ` map the pattern to the target. Then it has
added exactly the variables that were unbound, in their order, and its own bindings do so. -/
structure MatchExact (vars : List Var) (Maps : Substitution → Prop) (σ : Substitution)
    (result : Bool × Substitution) : Prop where
  verdict : result.1 = true ↔ ∃ τ, σ.Keeps τ ∧ (∀ x ∈ vars, x ∈ τ.domain) ∧ Maps τ
  bindings : result.1 = true → ∃ new : List (Var × Term), result.2.bindings = σ.bindings ++ new ∧
    new.map Prod.fst = vars.filter (· ∉ σ.domain)
  maps : result.1 = true → Maps result.2

theorem matchExact_of_sound {xs : List Var} {Maps : Substitution → Prop} {σ : Substitution}
    {result : Bool × Substitution}
    (hsound : ∀ σ', result = (true, σ') → σ.Grows σ' xs ∧ ∀ τ, σ'.Keeps τ → Maps τ)
    (hcomplete : ∀ τ, σ.Agrees τ.image → Maps τ → ∃ σ', result = (true, σ')) :
    MatchExact xs.eraseDups Maps σ result := by
  have htrue : result.1 = true → result = (true, result.2) := fun h => Prod.ext h rfl
  refine ⟨⟨fun h => ?_, ?_⟩, fun h => (hsound _ (htrue h)).1.exists_new,
    fun h => (hsound _ (htrue h)).2 _ (.refl _)⟩
  · obtain ⟨hgrows, hmaps⟩ := hsound _ (htrue h)
    refine ⟨result.2, hgrows.keeps, fun x hx => ?_, hmaps _ (.refl _)⟩
    rw [hgrows.domain_eq, List.mem_eraseDups]
    exact List.mem_append_right _ (List.mem_eraseDups.mp hx)
  · rintro ⟨τ, hkeeps, -, hmaps⟩
    obtain ⟨σ', hσ'⟩ := hcomplete τ hkeeps.agrees hmaps
    rw [hσ']

/-- Matching is exact for terms, for atoms, and for literals, which must have the same sign. -/
theorem matching_exact (σ : Substitution) :
    (∀ p t : Term, MatchExact p.vars (fun τ => p.subst τ = t) σ (p.matchTo σ t)) ∧
    (∀ a b : Atom, MatchExact a.vars (fun τ => a.subst τ = b) σ (a.matchTo σ b)) ∧
    ∀ l m : Literal, MatchExact l.vars (fun τ => l.subst τ = m) σ (l.matchTo σ m) := by
  refine ⟨fun p t => ?_, fun a b => ?_, fun l m => ?_⟩
  · refine matchExact_of_sound (fun σ' h => p.matchTo_sound σ σ' t h) fun τ hτ hmaps => ?_
    obtain ⟨σ', h, -⟩ := p.matchTo_complete σ τ.image hτ
    exact ⟨σ', by rwa [← hmaps, Term.subst_eq_inst]⟩
  · refine matchExact_of_sound (fun σ' h => Atom.matchTo_sound h) fun τ hτ hmaps => ?_
    obtain ⟨σ', h, -⟩ := a.matchTo_complete hτ
    exact ⟨σ', by rwa [← hmaps, Atom.subst_eq_inst]⟩
  · refine matchExact_of_sound (fun σ' h => Literal.matchTo_sound h) fun τ hτ hmaps => ?_
    obtain ⟨σ', h, -⟩ := l.matchTo_complete hτ
    exact ⟨σ', by rwa [← hmaps, Literal.subst_eq_inst]⟩

/-- Two variables that change places, the names being those of the target too. -/
example : ((Term.fn "f" [.var ⟨"x"⟩, .var ⟨"y"⟩]).matchTo .empty
    (.fn "f" [.var ⟨"y"⟩, .var ⟨"x"⟩])).2.bindings = [(⟨"x"⟩, .var ⟨"y"⟩), (⟨"y"⟩, .var ⟨"x"⟩)] := by
  decide

end Refutation
