import Refutation.Proof.Basic
import Refutation.Proofs.Except
import Refutation.Proofs.Interpretation

/-!
# Soundness of the checker

A proof that checks proves its conclusion: where the inputs are true, the conclusion is. The
checker trusts nothing that a step records, so every rule is sound for whatever substitutions,
literals and positions stand in it.

* `Rule.check_sound`: a step that checks states a clause that is true where its premises are.
* `Derivation.visit_closed`: the order of a proof holds all that its steps cite.
* `Proof.conclusion_true_of_verify`: soundness of a whole proof.
-/

namespace Refutation

universe u

variable {D : Type u} {I : Interpretation D}

/-! ## Replacing equals -/

theorem map_set_eq {α β : Type*} {f : α → β} {xs : List α} {i : Nat} {a b : α} (h : xs[i]? = some a)
    (hf : f b = f a) : (xs.set i b).map f = xs.map f := by
  obtain ⟨hi, rfl⟩ := List.getElem?_eq_some_iff.mp h
  rw [List.map_set, hf, ← List.getElem_map f (h := by simpa using hi), List.set_getElem_self]

/-- A subterm exchanged for one of the same value leaves the value as it was. -/
theorem Term.eval_replaceAt {v : Var → D} {path : List Nat} {t t' s r : Term} (hs : t.at? path = some s)
    (ht : t.replaceAt? path r = some t') (h : r.eval I v = s.eval I v) : t'.eval I v = t.eval I v := by
  induction path generalizing t t' with
  | nil =>
    simp only [at?, replaceAt?, Option.some.injEq] at hs ht
    rw [hs, ← ht, h]
  | cons i path ih =>
    obtain ⟨f, args, a, a', rfl, ha, ha', rfl⟩ := replaceAt?_cons_eq_some.mp ht
    obtain ⟨b, hb, hs⟩ := at?_cons_eq_some.mp hs
    cases ha.symm.trans hb
    rw [eval_app, eval_app, map_set_eq ha (ih hs ha')]

theorem Atom.holds_setArg {v : Var → D} {a : Atom} {i : Nat} {t t' : Term} (hi : a.args[i]? = some t)
    (h : t'.eval I v = t.eval I v) : (a.setArg i t').Holds I v ↔ a.Holds I v := by
  cases a with
  | pred p args =>
    have hm : (args.set i t').map (Term.eval I v) = args.map (Term.eval I v) := map_set_eq hi h
    rw [setArg, Holds, Holds, hm]
  | eq l r =>
    rcases i with _ | _ | i
    · cases hi; simp [setArg, Holds, h]
    · cases hi; simp [setArg, Holds, h]
    · simp [args] at hi

theorem Atom.holds_replaceAt {v : Var → D} {a a' : Atom} {i : Nat} {path : List Nat} {s r : Term}
    (hs : a.at? i path = some s) (ha : a.replaceAt? i path r = some a')
    (h : r.eval I v = s.eval I v) : a'.Holds I v ↔ a.Holds I v := by
  obtain ⟨t, ht, hs⟩ := Option.bind_eq_some_iff.mp hs
  obtain ⟨b, t', hb, ht', rfl⟩ := replaceAt?_eq_some.mp ha
  cases ht.symm.trans hb
  exact holds_setArg ht (Term.eval_replaceAt hs ht' h)

/-- Where the clause holds, it holds after an exchange of equals. -/
theorem Clause.holds_replaceAt {v : Var → D} {c : Clause} {p : Position} {s r : Term}
    {ls : List Literal} (hs : p.resolve? c = some s) (hr : c.replaceAt? p r = some ls)
    (h : r.eval I v = s.eval I v) (hc : c.Holds I v) : ∃ l ∈ ls, l.Holds I v := by
  simp only [Position.resolve?, replaceAt?, Option.bind_eq_bind, Option.bind_eq_some_iff,
    Option.some.injEq] at hs hr
  obtain ⟨m, hm, hs⟩ := hs
  obtain ⟨m', hm', a, ha, rfl⟩ := hr
  cases hm.symm.trans hm'
  obtain ⟨hlt, hget⟩ := List.getElem?_eq_some_iff.mp hm
  obtain ⟨l, hl, hlv⟩ := hc
  obtain ⟨j, hj, rfl⟩ := List.mem_iff_getElem.mp hl
  by_cases hjp : p.literal = j
  · subst hjp
    refine ⟨⟨m.positive, a⟩, List.mem_set hlt .., ?_⟩
    rw [hget] at hlv
    simpa only [Literal.Holds, Atom.holds_replaceAt hs ha h] using hlv
  · refine ⟨_, List.mem_iff_getElem.mpr ⟨j, by simpa using hj, ?_⟩, hlv⟩
    rw [List.getElem_set_ne hjp]

/-! ## What passes the checker -/

theorem expectConclusion_eq_ok {expected recorded : Clause} {u : Unit} :
    expectConclusion expected recorded = .ok u ↔ expected.same recorded = true := by
  unfold expectConclusion
  split
  · rename_i h; exact ⟨fun _ => h, fun _ => rfl⟩
  · rename_i h; exact ⟨nofun, fun h' => (h h').elim⟩

theorem checkParamodulant_eq_ok {source into c : Clause} {e : Literal} {leftToRight : Bool}
    {p : Position} {σ ρ : Substitution} {u : Unit} :
    checkParamodulant source into e leftToRight p σ ρ c = .ok u ↔
      ∃ l r s replaced, e = .pos (.eq l r) ∧ e ∈ source ∧ p.resolve? into = some s ∧
        s.subst σ = (if leftToRight then l else r).subst σ ∧
        into.replaceAt? p (if leftToRight then r else l) = some replaced ∧
        (((Clause.ofList (source.without e ++ replaced)).subst σ).subst ρ).same c = true := by
  obtain ⟨positive, a⟩ := e
  unfold checkParamodulant
  by_cases he : (positive && decide (⟨positive, a⟩ ∈ source)) = true
  · rw [if_pos he]
    simp only [Bool.and_eq_true, decide_eq_true_eq] at he
    obtain ⟨rfl, hmem⟩ := he
    cases a with
    | pred q args => exact ⟨nofun, fun ⟨_, _, _, _, h, _⟩ => by cases h⟩
    | eq l r =>
      have hd : (if leftToRight then (l, r) else (r, l)) =
          (if leftToRight then l else r, if leftToRight then r else l) := by cases leftToRight <;> rfl
      simp only [hd]
      cases hs : p.resolve? into with
      | none => exact ⟨nofun, fun ⟨_, _, _, _, _, _, h, _⟩ => by cases h⟩
      | some s =>
        simp only [Except.guard_eq_ok]
        cases hr : into.replaceAt? p (if leftToRight then r else l) with
        | none =>
          refine ⟨nofun, fun ⟨_, _, _, _, h, _, _, _, h', _⟩ => ?_⟩
          cases h
          cases hr.symm.trans h'
        | some replaced =>
          simp only [expectConclusion_eq_ok]
          constructor
          · rintro ⟨hu, hc⟩
            exact ⟨l, r, s, replaced, rfl, hmem, rfl, hu, hr, hc⟩
          · rintro ⟨l', r', s', replaced', h, -, hs', hu, hr', hc⟩
            cases h
            cases hs'
            cases hr.symm.trans hr'
            exact ⟨hu, hc⟩
  · rw [if_neg he]
    refine ⟨nofun, fun ⟨l, r, _, _, h, hm, _⟩ => he.elim ?_⟩
    cases h
    simpa using hm

namespace Rule

theorem check_rename {ρ : Substitution} {c d : Clause} {u : Unit} :
    (rename ρ).check c [d] = .ok u ↔ ρ.isRenaming = true ∧ (d.subst ρ).same c = true := by
  rw [← expectConclusion_eq_ok (u := u)]
  exact Except.guard_eq_ok

theorem check_factor {σ : Substitution} {c d : Clause} {u : Unit} :
    (factor σ).check c [d] = .ok u ↔ (d.subst σ).size < d.size ∧ (d.subst σ).same c = true := by
  rw [← expectConclusion_eq_ok (u := u)]
  exact Except.guard_eq_ok

theorem check_resolve {l : Literal} {σ ρ : Substitution} {c left right : Clause} {u : Unit} :
    (resolve l σ ρ).check c [left, right] = .ok u ↔
      l ∈ left ∧ left.hasResolvent right l σ ρ c = true := by
  rw [← Except.unless_eq_ok (p := left.hasResolvent right l σ ρ c = true)
    (e := Flaw.noPair left right c) (u := u)]
  exact Except.guard_eq_ok

/-- A step by a rule that needs premises checks only if it has them. -/
theorem check_cases {rule : Rule} {c : Clause} {premises : List Clause} {u : Unit}
    (h : rule.check c premises = .ok u) :
    rule.isInput = true ∨ (∃ ρ d, rule = .rename ρ ∧ premises = [d]) ∨
      (∃ σ d, rule = .factor σ ∧ premises = [d]) ∨
      (∃ l σ ρ d e, rule = .resolve l σ ρ ∧ premises = [d, e]) ∨
      ∃ q b p σ ρ d e, rule = .paramodulate q b p σ ρ ∧ premises = [d, e] := by
  unfold check at h
  split at h <;> simp_all [isInput]

end Rule

/-! ## The rules are sound -/

namespace Clause

/-- Resolution: one of two opposite literals fails, so the rest of its clause holds. -/
theorem trueIn_resolvent {left right : Clause} {l m : Literal} {σ : Substitution}
    (hs : m.positive ≠ l.positive) (ha : m.atom.subst σ = l.atom.subst σ) (hl : left.TrueIn I)
    (hr : right.TrueIn I) : (left.resolvent right l m σ).TrueIn I := by
  intro v
  rw [resolvent, holds_subst, holds_ofList]
  obtain ⟨a, ha', hav⟩ := hl fun x => (σ.image x).eval I v
  obtain ⟨b, hb', hbv⟩ := hr fun x => (σ.image x).eval I v
  by_cases hal : a = l
  · by_cases hbm : b = m
    · subst hal hbm
      have heq : a.atom.Holds I (fun x => (σ.image x).eval I v) ↔
          b.atom.Holds I fun x => (σ.image x).eval I v := by
        rw [← Atom.holds_inst, ← Atom.holds_inst, ← Atom.subst_eq_inst, ← Atom.subst_eq_inst, ha]
      exact (Literal.not_holds_of_opposite hs.symm heq hav hbv).elim
    · exact ⟨b, List.mem_append_right _ (mem_without.mpr ⟨hb', hbm⟩), hbv⟩
  · exact ⟨a, List.mem_append_left _ (mem_without.mpr ⟨ha', hal⟩), hav⟩

theorem trueIn_of_hasResolvent {left right c : Clause} {l : Literal} {σ ρ : Substitution}
    (h : left.hasResolvent right l σ ρ c = true) (hl : left.TrueIn I) (hr : right.TrueIn I) :
    c.TrueIn I := by
  simp only [hasResolvent, List.any_eq_true, Bool.and_eq_true, bne_iff_ne, beq_iff_eq] at h
  obtain ⟨m, -, ⟨hs, ha⟩, hc⟩ := h
  exact (trueIn_of_same hc).mp ((trueIn_resolvent hs ha hl hr).subst ρ)

/-- Paramodulation: where the equation fails the rest of its clause holds, and where it is true the
exchange keeps the truth of the other clause. -/
theorem trueIn_paramodulant {source into : Clause} {l r s before after : Term} {p : Position}
    {σ : Substitution} {replaced : List Literal}
    (hd : ∀ v, l.eval I v = r.eval I v → after.eval I v = before.eval I v)
    (hs : p.resolve? into = some s) (hu : s.subst σ = before.subst σ)
    (hr : into.replaceAt? p after = some replaced) (hsource : source.TrueIn I)
    (hinto : into.TrueIn I) :
    ((ofList (source.without (.pos (.eq l r)) ++ replaced)).subst σ).TrueIn I := by
  intro v
  rw [holds_subst, holds_ofList]
  obtain ⟨a, ha, hav⟩ := hsource fun x => (σ.image x).eval I v
  by_cases hae : a = .pos (.eq l r)
  · have hlr : l.eval I (fun x => (σ.image x).eval I v) = r.eval I fun x => (σ.image x).eval I v := by
      subst hae
      simpa [Literal.Holds, Literal.pos, Atom.Holds] using hav
    have hsb := congrArg (Term.eval I v) hu
    rw [Term.eval_subst, Term.eval_subst] at hsb
    obtain ⟨m, hm, hmv⟩ := holds_replaceAt hs hr ((hd _ hlr).trans hsb.symm) (hinto _)
    exact ⟨m, List.mem_append_right _ hm, hmv⟩
  · exact ⟨a, List.mem_append_left _ (mem_without.mpr ⟨ha, hae⟩), hav⟩

theorem trueIn_of_checkParamodulant {source into c : Clause} {e : Literal} {leftToRight : Bool}
    {p : Position} {σ ρ : Substitution} {u : Unit}
    (h : checkParamodulant source into e leftToRight p σ ρ c = .ok u) (hsource : source.TrueIn I)
    (hinto : into.TrueIn I) : c.TrueIn I := by
  obtain ⟨l, r, s, replaced, rfl, -, hs, hu, hr, hc⟩ := checkParamodulant_eq_ok.mp h
  refine (trueIn_of_same hc).mp ((trueIn_paramodulant (fun v hv => ?_) hs hu hr hsource hinto).subst ρ)
  cases leftToRight
  · exact hv
  · exact hv.symm

end Clause

/-- A step that checks states a clause that is true where its premises are. -/
theorem Rule.check_sound {rule : Rule} {c : Clause} {premises : List Clause} {u : Unit}
    (h : rule.check c premises = .ok u) (hr : rule.isInput = false)
    (hp : ∀ d ∈ premises, d.TrueIn I) : c.TrueIn I := by
  rcases check_cases h with hin | ⟨ρ, d, rfl, rfl⟩ | ⟨σ, d, rfl, rfl⟩ | ⟨l, σ, ρ, d, e, rfl, rfl⟩ |
    ⟨q, b, p, σ, ρ, d, e, rfl, rfl⟩
  · rw [hr] at hin; cases hin
  · exact (Clause.trueIn_of_same (check_rename.mp h).2).mp ((hp d (by simp)).subst ρ)
  · exact (Clause.trueIn_of_same (check_factor.mp h).2).mp ((hp d (by simp)).subst σ)
  · exact Clause.trueIn_of_hasResolvent (check_resolve.mp h).2 (hp d (by simp)) (hp e (by simp))
  · exact Clause.trueIn_of_checkParamodulant h (hp d (by simp)) (hp e (by simp))

/-! ## The order of a proof -/

namespace Derivation

/-- All that the steps of a list cite is in the list. -/
def Closed (d : Derivation) (order : List Nat) : Prop :=
  ∀ i ∈ order, ∃ h : i < d.steps.size, ∀ p ∈ d.steps[i].premises, p ∈ order

theorem closed_nil (d : Derivation) : d.Closed [] := nofun

/-- Visiting a step keeps what is listed, lists the step, and lists all that it rests on. -/
theorem visit_closed (d : Derivation) (i : Nat) (hi : i < d.size) (order : List Nat)
    (ho : d.Closed order) :
    order ⊆ d.visit i order ∧ i ∈ d.visit i order ∧ d.Closed (d.visit i order) := by
  induction i using Nat.strong_induction_on generalizing order with
  | _ i ih =>
    rw [visit]
    split
    · rename_i hmem
      exact ⟨fun _ h => h, hmem, ho⟩
    · rw [dif_pos (show i < d.steps.size from hi)]
      -- The premises are visited from left to right, each in what the last one left.
      have hfold : ∀ (ps : List { p // p ∈ d.steps[i].premises }) (order : List Nat), d.Closed order →
          order ⊆ ps.foldl (fun order p => d.visit p.1 order) order ∧
          (∀ p ∈ ps, p.1 ∈ ps.foldl (fun order p => d.visit p.1 order) order) ∧
          d.Closed (ps.foldl (fun order p => d.visit p.1 order) order) := by
        intro ps
        induction ps with
        | nil => exact fun order ho => ⟨fun _ h => h, nofun, ho⟩
        | cons p ps ihps =>
          intro order ho
          have hlt := d.earlier i hi p.1 p.2
          obtain ⟨h₁, h₂, h₃⟩ := ih p.1 hlt (Nat.lt_trans hlt hi) order ho
          obtain ⟨k₁, k₂, k₃⟩ := ihps _ h₃
          refine ⟨fun _ h => k₁ (h₁ h), fun q hq => ?_, k₃⟩
          rcases List.mem_cons.mp hq with rfl | hq
          · exact k₁ h₂
          · exact k₂ q hq
      obtain ⟨h₁, h₂, h₃⟩ := hfold d.steps[i].premises.attach order ho
      refine ⟨fun _ h => List.mem_append_left _ (h₁ h), by simp, fun j hj => ?_⟩
      rcases List.mem_append.mp hj with hj | hj
      · obtain ⟨hlt, hp⟩ := h₃ j hj
        exact ⟨hlt, fun p h => List.mem_append_left _ (hp p h)⟩
      · cases List.mem_singleton.mp hj
        exact ⟨hi, fun p h => List.mem_append_left _ (h₂ ⟨p, h⟩ (List.mem_attach _ _))⟩

theorem order_closed (d : Derivation) {root : Nat} (h : root < d.size) :
    root ∈ d.order root ∧ d.Closed (d.order root) :=
  (d.visit_closed root h [] d.closed_nil).2

/-- The clauses that a step cites. -/
theorem mem_premises {d : Derivation} {s : Step} {c : Clause} :
    c ∈ (s.premises.filterMap fun p => d.steps[p]?.map Step.conclusion) ↔
      ∃ p ∈ s.premises, ∃ h : p < d.steps.size, d.steps[p].conclusion = c := by
  simp only [List.mem_filterMap, Option.map_eq_some_iff, Array.getElem?_eq_some_iff]
  constructor
  · rintro ⟨p, hp, _, ⟨h, rfl⟩, rfl⟩
    exact ⟨p, hp, h, rfl⟩
  · rintro ⟨p, hp, h, rfl⟩
    exact ⟨p, hp, _, ⟨h, rfl⟩, rfl⟩

/-- In a closed list of steps that check, every clause is true where the inputs are. -/
theorem trueIn_of_closed {d : Derivation} {order : List Nat} (ho : d.Closed order)
    (hcheck : ∀ i ∈ order, ∀ h : i < d.steps.size, d.checkStep d.steps[i] = .ok ())
    (hin : ∀ i ∈ order, ∀ h : i < d.steps.size, d.steps[i].rule.isInput = true →
      d.steps[i].conclusion.TrueIn I)
    {i : Nat} (hi : i ∈ order) (h : i < d.steps.size) : d.steps[i].conclusion.TrueIn I := by
  induction i using Nat.strong_induction_on with
  | _ i ih =>
    cases hr : d.steps[i].rule.isInput with
    | true => exact hin i hi h hr
    | false =>
      refine Rule.check_sound (hcheck i hi h) hr fun c hc => ?_
      obtain ⟨p, hp, hlt, rfl⟩ := mem_premises.mp hc
      obtain ⟨_, hprem⟩ := ho i hi
      exact ih p (d.earlier i h p hp) (hprem p hp) hlt

end Derivation

/-! ## Proofs -/

namespace Proof

theorem mem_steps {p : Proof} {s : Step} :
    s ∈ p.steps ↔ ∃ i ∈ p.order, ∃ h : i < p.derivation.steps.size, p.derivation.steps[i] = s := by
  simp only [steps, List.mem_filterMap, Array.getElem?_eq_some_iff]

theorem verify_eq_ok {p : Proof} {u : Unit} :
    p.verify = .ok u ↔ ∀ s ∈ p.steps, p.derivation.checkStep s = .ok () := by
  have hl : p.lines.map ProofLine.step = p.steps := by
    rw [lines, List.map_map]
    exact List.zipIdx_map_fst 0 p.steps
  rw [← hl, List.forall_mem_map]
  simp only [verify, Except.forM_eq_ok, Except.mapError_eq_ok]

/-- Every input step states one of the inputs, up to the order of literals. -/
theorem exists_input {p : Proof} {s : Step} (hs : s ∈ p.steps) (hr : s.rule.isInput = true) :
    ∃ c ∈ p.inputs, s.conclusion.same c = true := by
  have hmem : s.conclusion ∈ (p.steps.filter (·.rule.isInput)).map Step.conclusion :=
    List.mem_map.mpr ⟨s, List.mem_filter.mpr ⟨hs, hr⟩, rfl⟩
  obtain ⟨c, hc, rfl | h⟩ := exists_mem_eraseDupsBy (r := Clause.same) hmem
  · exact ⟨_, hc, Clause.same_refl _⟩
  · exact ⟨c, hc, h⟩

/-- A proof whose steps check and whose input steps state true clauses proves a true clause. -/
theorem conclusion_trueIn {p : Proof} (h : p.verify = .ok ())
    (hin : ∀ s ∈ p.steps, s.rule.isInput = true → s.conclusion.TrueIn I) : p.conclusion.TrueIn I := by
  obtain ⟨hroot, hclosed⟩ := p.derivation.order_closed p.rooted
  rw [verify_eq_ok] at h
  exact Derivation.trueIn_of_closed hclosed (fun i hi hlt => h _ (mem_steps.mpr ⟨i, hi, hlt, rfl⟩))
    (fun i hi hlt => hin _ (mem_steps.mpr ⟨i, hi, hlt, rfl⟩)) hroot p.rooted

/-- The checker is sound: where the inputs of a proof that checks are true, its conclusion is. -/
theorem conclusion_true_of_verify (p : Proof) (h : p.verify = .ok ()) (I : Interpretation D)
    (hin : ∀ c ∈ p.inputs, c.TrueIn I) : p.conclusion.TrueIn I := by
  refine conclusion_trueIn h fun s hs hr => ?_
  obtain ⟨c, hc, hsame⟩ := exists_input hs hr
  exact (Clause.trueIn_of_same hsame).mpr (hin c hc)

end Proof

/-- From `~P(x) | f(x) = x`, `P(A)` and `Q(f(A))` to `Q(A)`, by a resolution and a replacement. -/
def Proof.fixedPoint : Proof where
  derivation :=
    let x : Term := .var ⟨"x"⟩
    let a : Term := .const "A"
    let f (t : Term) : Term := .fn "f" [t]
    let p (t : Term) : Atom := .pred "P" [t]
    let q (t : Term) : Atom := .pred "Q" [t]
    let d := Derivation.empty.input (.ofList [.neg (p x), .pos (.eq (f x) x)]) .premise
    let d := d.input (.ofList [.pos (p a)]) .premise
    let d := d.push ⟨.ofList [.pos (.eq (f a) a)],
      .resolve (.pos (p a)) (.single ⟨"x"⟩ a) .empty, [1, 0]⟩ (by decide)
    let d := d.input (.ofList [.pos (q (f a))]) .goal
    d.push ⟨.ofList [.pos (q a)],
      .paramodulate (.pos (.eq (f a) a)) true ⟨0, 0, []⟩ .empty .empty, [2, 3]⟩ (by decide)
  root := 4
  rooted := by decide

/-- Truth values, where functions give their argument back and predicates tell whether theirs is
`true`. -/
def Interpretation.truthValues : Interpretation Bool where
  const _ := true
  func _ args := args.headD true
  pred _ args := args = [true]

theorem Proof.fixedPoint_conclusion_true :
    fixedPoint.verify = .ok () ∧ (∀ c ∈ fixedPoint.inputs, c.TrueIn .truthValues) ∧
      fixedPoint.conclusion.TrueIn .truthValues := by
  have hv : fixedPoint.verify = .ok () := by decide +kernel
  have hin : fixedPoint.inputs.map Clause.literals =
      [[.pos (.pred "P" [.const "A"])],
        [.neg (.pred "P" [.var ⟨"x"⟩]), .pos (.eq (.fn "f" [.var ⟨"x"⟩]) (.var ⟨"x"⟩))],
        [.pos (.pred "Q" [.fn "f" [.const "A"]])]] := by
    decide +kernel
  have htrue : ∀ c ∈ fixedPoint.inputs, c.TrueIn .truthValues := by
    intro c hc v
    have hl := List.mem_map_of_mem (f := Clause.literals) hc
    simp only [hin, List.mem_cons, List.not_mem_nil, or_false] at hl
    rcases hl with hl | hl | hl <;>
      simp [Clause.Holds, Clause.mem_iff, hl, Literal.Holds, Literal.pos, Literal.neg, Atom.Holds,
        Term.fn, Interpretation.truthValues]
  exact ⟨hv, htrue, conclusion_true_of_verify fixedPoint hv .truthValues htrue⟩

end Refutation
