import Refutation.Proofs.Freshness

/-!
# Answers are true

A query with free variables is answered by bindings of them. Wherever the stored clauses are true, the
query is true of what the bindings stand for, or in one of several alternatives, under every valuation
of the variables left. The bindings may speak of Skolem symbols that were given out for the query, so
these get their meaning first; nothing else changes.

The argument reads the answer predicate as the query itself: then the goal, that the query is false
or an answer, is true, and so are the clauses of answers that are derived from it.

* `Interpretation.withPred`: another meaning for one predicate.
* `Sentence.TrueOf`: truth of a query for elements in the order of its free variables.
* `Interpretation.answering`: the answer predicate, read as the query.
* `Substitution.Answers`: bindings that make a query true.
* `History.answers_true`: the answers of every proof.
-/

namespace Refutation

universe u

variable {D : Type u}

/-! ## One predicate more or less -/

/-- The interpretation with another meaning for one predicate. -/
def Interpretation.withPred (I : Interpretation D) (p : String) (R : List D → Prop) : Interpretation D :=
  { I with pred := Function.update I.pred p R }

section WithPred

variable {I K : Interpretation D} {p : String} {R : List D → Prop} {v : Var → D}

theorem Term.eval_withPred (t : Term) : t.eval (I.withPred p R) v = t.eval I v := by
  induction t with
  | var x | const c => rfl
  | app f args ih =>
    rw [eval_app, eval_app, List.map_congr_left ih]
    rfl

theorem Atom.holds_withPred {a : Atom} (h : p ∉ a.predicates) :
    a.Holds (I.withPred p R) v ↔ a.Holds I v := by
  cases a with
  | pred q args =>
    have hq : q ≠ p := fun hq => h (List.mem_singleton.mpr hq.symm)
    have hpred : (I.withPred p R).pred q = I.pred q := by
      simp only [Interpretation.withPred, Function.update_of_ne hq]
    rw [Holds, Holds, hpred, List.map_congr_left fun t _ => t.eval_withPred]
  | eq l r => rw [Holds, Holds, l.eval_withPred, r.eval_withPred]

/-- Only the predicates that occur matter. -/
theorem Sentence.holds_withPred {s : Sentence} (h : p ∉ s.predicates) :
    s.Holds (I.withPred p R) v ↔ s.Holds I v := by
  induction s generalizing v with
  | atom a => exact Atom.holds_withPred fun ha => h (List.mem_flatMap.mpr ⟨a, List.mem_cons_self, ha⟩)
  | not s ih => exact not_congr (ih h)
  | and l r ihl ihr | or l r ihl ihr | implies l r ihl ihr | iff l r ihl ihr =>
    simp only [predicates, atoms, List.flatMap_append, List.mem_append, not_or] at h ihl ihr
    simp only [Holds, ihl h.1, ihr h.2]
  | quant q vs s ih =>
    rw [holds_quant, holds_quant]
    exact Quantifier.over_congr fun w _ => ih h

theorem Clause.trueIn_withPred {c : Clause} (h : p ∉ c.predicates) (hc : c.TrueIn I) :
    c.TrueIn (I.withPred p R) := by
  intro v
  obtain ⟨l, hl, hlv⟩ := hc v
  refine ⟨l, hl, ?_⟩
  rwa [Literal.Holds, Atom.holds_withPred fun ha => h (List.mem_flatMap.mpr ⟨l, hl, ha⟩)]

/-- The predicate gets its meaning back. -/
theorem Interpretation.AgreeOn.restore {S : Symbol → Prop} (h : AgreeOn S (I.withPred p R) K) :
    AgreeOn S I (K.withPred p (I.pred p)) where
  const := h.const
  func := h.func
  pred := by
    have hK : K.pred = Function.update I.pred p R := h.pred.symm
    simp only [withPred, hK, Function.update_idem, Function.update_eq_self]

end WithPred

/-! ## The answer predicate -/

/-- The query is true of the elements, in the order of its free variables. -/
def Sentence.TrueOf (I : Interpretation D) (query : Sentence) (ds : List D) : Prop :=
  ds.length = query.free.length ∧ query.Holds I (valuationOf query.free ds (I.const ""))

theorem Sentence.trueOf_map {I : Interpretation D} {query : Sentence} {v : Var → D} :
    query.TrueOf I (query.free.map v) ↔ query.Holds I v := by
  rw [TrueOf, List.length_map, holds_congr fun x hx => valuationOf_map (mem_free.mpr hx)]
  exact and_iff_right rfl

/-- The interpretation in which the answers are what the query is true of. -/
def Interpretation.answering (I : Interpretation D) (query : Sentence) : Interpretation D :=
  I.withPred answerPredicate (query.TrueOf I)

theorem Interpretation.answering_pred (I : Interpretation D) (query : Sentence) :
    (I.answering query).pred answerPredicate = query.TrueOf I := by
  simp only [answering, withPred, Function.update_self]

/-- What the query is false of is no answer, and what it is true of is one. -/
theorem KnowledgeBase.goal_trueIn {query : Sentence} (hopen : query.free ≠ [])
    (hq : answerPredicate ∉ query.predicates) (I : Interpretation D) :
    (goal query).TrueIn (I.answering query) := by
  intro v
  rw [goal, if_neg (by simpa using hopen)]
  by_cases hv : query.Holds I v
  · refine .inr ?_
    have hargs : (query.free.map Term.var).map (Term.eval (I.answering query) v) = query.free.map v := by
      rw [List.map_map]
      rfl
    rw [Sentence.Holds, Atom.Holds, I.answering_pred, hargs, Sentence.trueOf_map]
    exact hv
  · exact .inl fun h => hv ((Sentence.holds_withPred hq).mp h)

/-! ## Bindings -/

/-- The variables of the query are bound, and it is true of what they are bound to. -/
def Substitution.Answers (K : Interpretation D) (v : Var → D) (query : Sentence) (σ : Substitution) :
    Prop :=
  σ.domain = query.free ∧ query.Holds K fun x => (σ.image x).eval K v

/-- Bindings to terms that the query is true of answer it. -/
theorem Sentence.TrueOf.answers {I K : Interpretation D} {v : Var → D} {query : Sentence}
    {args : List Term} (h : query.TrueOf I (args.map (Term.eval K v)))
    (hIK : ∀ w, query.Holds I w ↔ query.Holds K w) {σ : Substitution}
    (hσ : σ.bindings = query.free.zip args) : σ.Answers K v query := by
  obtain ⟨hlength, hholds⟩ := h
  rw [List.length_map] at hlength
  constructor
  · rw [Substitution.domain, hσ, List.map_fst_zip hlength.ge]
  · rw [hIK] at hholds
    refine (Sentence.holds_congr fun x hx => ?_).mp hholds
    have hidx := List.getElem?_idxOf (Sentence.mem_free.mpr hx)
    have hlt : query.free.idxOf x < args.length :=
      hlength ▸ List.idxOf_lt_length_iff.mpr (Sentence.mem_free.mpr hx)
    have harg := List.getElem?_eq_getElem hlt
    -- The variable and its term stand at the same place.
    have hmem : (x, args[query.free.idxOf x]) ∈ σ.bindings := by
      rw [hσ]
      exact List.mem_of_getElem? (List.getElem?_zip_eq_some.mpr ⟨hidx, harg⟩)
    rw [Substitution.image_of_get? (Substitution.get?_of_mem hmem), valuationOf,
      List.getD_eq_getElem?_getD, List.getElem?_map, harg]
    rfl

/-! ## Proofs with answers -/

/-- If the bindings of every answer literal that is true have a property, those of a proof whose
conclusion is true have it, or those of one of its alternatives. -/
theorem Proof.Answers.exists_of_trueIn {vars : List Var} {p : Proof} (hp : p.Answers vars)
    {K : Interpretation D} (htrue : p.conclusion.TrueIn K) {A : (Var → D) → Substitution → Prop}
    (hA : ∀ (v : Var → D) (args : List Term) (σ : Substitution), σ.bindings = vars.zip args →
      K.pred answerPredicate (args.map (Term.eval K v)) → A v σ) :
    (p.alternatives = [] → ∀ v, A v p.bindings) ∧
      (p.alternatives ≠ [] → ∀ v, ∃ σ ∈ p.alternatives, A v σ) := by
  rcases hp with ⟨hempty, -⟩ | ⟨-, hne, hlits, hbindings⟩
  · rw [hempty] at htrue
    exact (Clause.not_holds_empty (htrue fun _ => K.const "")).elim
  have hlit : ∀ v, ∃ l ∈ p.conclusion, ∀ σ : Substitution, σ.bindings = vars.zip l.atom.args → A v σ := by
    intro v
    obtain ⟨l, hl, hlv⟩ := htrue v
    obtain ⟨args, rfl⟩ := hlits l hl
    exact ⟨_, hl, fun σ hσ => hA v args σ hσ hlv⟩
  rcases hbindings with ⟨l, hl, hσ, halt⟩ | ⟨-, -, halts⟩
  · refine ⟨fun _ v => ?_, fun hsome => (hsome halt).elim⟩
    obtain ⟨m, hm, hAm⟩ := hlit v
    rw [Clause.mem_iff, hl, List.mem_singleton] at hm
    exact hAm _ (hm ▸ hσ)
  · refine ⟨fun hnone => ?_, fun _ v => ?_⟩
    · rw [hnone] at halts
      exact (hne (Clause.ext (List.map_eq_nil_iff.mp halts.symm))).elim
    · obtain ⟨l, hl, hAl⟩ := hlit v
      have hmem : vars.zip l.atom.args ∈ p.alternatives.map Substitution.bindings := by
        rw [halts]
        exact List.mem_map_of_mem hl
      obtain ⟨σ, hσ, hbs⟩ := List.mem_map.mp hmem
      exact ⟨σ, hσ, hAl σ hbs⟩

namespace History

/-- A model of the stored clauses becomes one in which the answers are read as the query and the
goal's clauses are true, and only Skolem symbols given out for the query change. -/
theorem exists_answering {rs : List Request} {query : Sentence} (hopen : query.free ≠ [])
    (hfree : ∀ p ∈ Premise.sentence query :: (after rs).accepted, p.Unreserved)
    {goals : List Clause} {converter : Converter}
    (hconv : (after rs).kb.converter.convert (KnowledgeBase.goal query) = .ok (goals, converter))
    {I : Interpretation D} (hI : ∀ c ∈ (after rs).kb.clauses, c.TrueIn I) :
    ∃ K : Interpretation D,
      (I.answering query).AgreeOn
        (fun y => ¬y.Issued (after rs).kb.converter.issued converter.issued goals) K ∧
      (∀ c ∈ (after rs).kb.clauses, c.TrueIn K) ∧ ∀ c ∈ goals, c.TrueIn K := by
  rw [List.forall_mem_cons] at hfree
  obtain ⟨hquery, hfree⟩ := hfree
  have hplain : (KnowledgeBase.goal query).AllTerms (Term.Over Symbol.Plain) :=
    KnowledgeBase.goal_allTerms (fun _ => nofun) (Premise.allTerms_over.mpr hquery.symbols)
  have hterms := (modelled.{u} rs fun p hp => Premise.allTerms_over.mpr (hfree p hp).symbols).terms
  have hgoal := KnowledgeBase.goal_trueIn hopen hquery.predicates I
  have hstored : ∀ c ∈ (after rs).kb.clauses, c.TrueIn (I.answering query) := by
    intro c hc
    refine Clause.trueIn_withPred (fun hq => ?_) (hI c hc)
    obtain ⟨p, hp, hq⟩ := (traced rs).predicates c hc _ hq
    exact (hfree p hp).predicates hq
  obtain ⟨J, hJ, -, hgoals⟩ := Converter.convert_extends hconv hplain hterms hgoal hstored
  obtain ⟨K, hK, hgoals⟩ := Interpretation.exists_change hJ (Converter.convert_below hconv hplain) hgoals
  refine ⟨K, hK, fun c hc => hK.clause_trueIn ?_ (hstored c hc), hgoals⟩
  exact (hterms c hc).over_mono fun _ hy => hy.not_issued

/-- Wherever the stored clauses are true, the query is true of what a proof binds its variables to, or
in one of the alternatives that the proof leaves, if the Skolem symbols given out for the query have a
fit meaning. Neither what was accepted nor the query may use reserved names. -/
theorem answers_true (rs : List Request) (query : Sentence) (hopen : query.free ≠ []) (config : Config)
    (hu : config.occursCheck = true)
    (hfree : ∀ p ∈ Premise.sentence query :: (after rs).accepted, p.Unreserved) (clock : Clock)
    (fuel : Nat) (proofs : List Proof) (s : Search)
    (h : (after rs).kb.ask query config clock fuel = .ok (some (.proved proofs, s))) :
    ∃ goals converter,
      (after rs).kb.converter.convert (KnowledgeBase.goal query) = .ok (goals, converter) ∧
      ∀ (D : Type u) (I : Interpretation D), (∀ c ∈ (after rs).kb.clauses, c.TrueIn I) →
        ∃ K : Interpretation D,
          I.AgreeOn (fun y => ¬y.Issued (after rs).kb.converter.issued converter.issued goals) K ∧
          ∀ p ∈ proofs,
            (p.alternatives = [] → ∀ v, p.bindings.Answers K v query) ∧
            (p.alternatives ≠ [] → ∀ v, ∃ σ ∈ p.alternatives, σ.Answers K v query) := by
  obtain ⟨goals, converter, hconv, hsound⟩ := KnowledgeBase.ask_outcome_sound (History.wellFormed rs) hu h
  refine ⟨goals, converter, hconv, fun D I hI => ?_⟩
  obtain ⟨K, hIK, hkb, hgoals⟩ := exists_answering hopen hfree hconv hI
  refine ⟨K.withPred answerPredicate (I.pred answerPredicate), hIK.restore, fun p hp => ?_⟩
  have hquery := hfree _ List.mem_cons_self
  have hsame : ∀ w, query.Holds I w ↔
      query.Holds (K.withPred answerPredicate (I.pred answerPredicate)) w := by
    refine fun w => hIK.restore.holds (Sentence.allTerms_over.mpr fun y hy => ?_) w
    exact ((hquery.symbols y hy).below _).not_issued
  have hanswer : K.pred answerPredicate = query.TrueOf I :=
    (congrFun hIK.pred answerPredicate).symm.trans (I.answering_pred query)
  have hp := hsound.proofs p hp
  have htrue : p.conclusion.TrueIn K := Proof.conclusion_trueIn hp.verify fun step hstep hr =>
    (hp.input hstep hr).trueIn hkb hgoals
  refine hp.answers.exists_of_trueIn htrue fun v args σ hσ hargs => Sentence.TrueOf.answers ?_ hsame hσ
  rw [hanswer] at hargs
  rwa [List.map_congr_left fun t _ => t.eval_withPred]

/-- Every `R` is an `S`. -/
def everyRIsS : Sentence :=
  .quant .all [⟨"y"⟩] (.implies (.atom (.pred "R" [.var ⟨"y"⟩])) (.atom (.pred "S" [.var ⟨"y"⟩])))

/-- If anything is an `R`, then `x` is an `S`. -/
def ifAnyR : Sentence :=
  .quant .all [⟨"y"⟩] (.implies (.atom (.pred "R" [.var ⟨"y"⟩])) (.atom (.pred "S" [.var ⟨"x"⟩])))

/-- Told that every `R` is an `S`, the knowledge base finds an `x` without a name for it: anything is
one, or else the `R` that speaks against it is. The second alternative is a Skolem term of the query. -/
theorem everyRIsS_answers_true :
    ∃ p s goals converter,
      (after [.tell everyRIsS]).kb.ask ifAnyR {} (fun _ => 0) 40 = .ok (some (.proved [p], s)) ∧
      (p.alternatives.map fun σ => σ.terms.map Term.text) = [["c8"], ["SF0(c8)"]] ∧
      (after [.tell everyRIsS]).kb.converter.convert (KnowledgeBase.goal ifAnyR) =
        .ok (goals, converter) ∧
      ∀ (D : Type) (I : Interpretation D),
        (∀ c ∈ (after [.tell everyRIsS]).kb.clauses, c.TrueIn I) → ∃ K : Interpretation D,
          I.AgreeOn (fun y => ¬y.Issued (after [.tell everyRIsS]).kb.converter.issued
            converter.issued goals) K ∧
          ∀ v, ∃ σ ∈ p.alternatives, σ.Answers K v ifAnyR := by
  have hrun : ((after [.tell everyRIsS]).kb.ask ifAnyR {} (fun _ => 0) 40).toOption.join.any (fun r =>
      r.1.isProved && (r.1.proofs.map fun p => p.alternatives.map fun σ => σ.terms.map Term.text) ==
        [[["c8"], ["SF0(c8)"]]]) = true := by cbv
  have hacc : (after [.tell everyRIsS]).accepted = [.sentence everyRIsS] := by cbv
  have hfree : ∀ q ∈ [Premise.sentence ifAnyR, .sentence everyRIsS], q.Unreserved := by
    rw [List.forall_mem_cons, List.forall_mem_singleton]
    exact ⟨⟨List.forall_mem_nil _, by decide⟩, ⟨List.forall_mem_nil _, by decide⟩⟩
  rw [← hacc] at hfree
  obtain ⟨⟨o, s⟩, hask, ho⟩ := Except.exists_of_any hrun
  rw [Bool.and_eq_true, beq_iff_eq, List.map_eq_singleton_iff] at ho
  obtain ⟨hproved, p, hp, htexts⟩ := ho
  rw [Outcome.eq_proved (o := o) hproved, hp] at hask
  obtain ⟨goals, converter, hconv, hanswers⟩ :=
    answers_true [.tell everyRIsS] ifAnyR (by decide) {} rfl hfree _ _ _ _ hask
  refine ⟨p, s, goals, converter, hask, htexts, hconv, fun D I hI => ?_⟩
  obtain ⟨K, hK, hbound⟩ := hanswers D I hI
  refine ⟨K, hK, (hbound p List.mem_cons_self).2 fun hnone => ?_⟩
  rw [hnone] at htexts
  cases htexts

end History

end Refutation
