import Refutation.Proofs.Check
import Refutation.Proofs.ClausalForm
import Refutation.Proofs.History

/-!
# Entailment

A query without free variables that is proved follows from what the knowledge base accepted: it is
true wherever the accepted sentences and clauses are true. The clauses that the knowledge base
stores instead say more, since Skolem symbols have a meaning in them. So a model of what was accepted
is first changed into a model of the clauses, at Skolem symbols only, and these are symbols that
neither the accepted sentences nor the query speak of.

* `Premise.TrueIn`: truth of what was accepted.
* `History.Modelled`: models of what was accepted become models of the clauses.
* `History.query_follows`: a proved query is true in every model of what was accepted.
-/

namespace Refutation

universe u

variable {D : Type u}

/-! ## Models of a history -/

namespace Premise

/-- What was accepted is true, whatever its free variables stand for. -/
def TrueIn (I : Interpretation D) : Premise → Prop
  | .sentence s => s.TrueIn I
  | .clause c => c.TrueIn I

/-- Every term that is an argument in it has the property. -/
def AllTerms (T : Term → Prop) : Premise → Prop
  | .sentence s => s.AllTerms T
  | .clause c => c.AllTerms T

end Premise

namespace History

/-- The clauses use Skolem symbols that were given out only, and models of what was accepted become
models of the clauses by another meaning of Skolem symbols. -/
structure Modelled (h : History) : Prop where
  terms : ∀ c ∈ h.kb.clauses, c.AllTerms (Term.Over (Symbol.Below h.kb.converter.issued))
  model : ∀ (D : Type u) (I : Interpretation D), (∀ p ∈ h.accepted, p.TrueIn I) →
    ∃ J : Interpretation D, I.AgreeOn Symbol.Plain J ∧ ∀ c ∈ h.kb.clauses, c.TrueIn J

theorem Modelled.tell {h : History} (hm : Modelled.{u} h) {s : Sentence} {n : Nat} {kb : KnowledgeBase}
    (ht : h.kb.tell s = .ok (n, kb)) (hs : s.AllTerms (Term.Over Symbol.Plain)) :
    Modelled.{u} ⟨kb, h.accepted ++ [.sentence s]⟩ := by
  obtain ⟨-, cs, hcs, hmem⟩ := KnowledgeBase.tell_ok ht
  have hle := Converter.issued_le hcs
  constructor
  · intro c hc
    rcases hmem c hc with hc | hc
    · exact (hm.terms c hc).over_mono fun _ hy => hy.mono hle
    · exact Converter.convert_below hcs hs c hc
  · intro D I hI
    rw [List.forall_mem_append] at hI
    obtain ⟨J, hIJ, hJ⟩ := hm.model D I hI.1
    have hsJ : s.TrueIn J := hIJ.sentence_trueIn hs (hI.2 _ List.mem_cons_self)
    obtain ⟨K, hJK, hold, hnew⟩ := Converter.convert_extends hcs hs hm.terms hsJ hJ
    refine ⟨K, hIJ.trans hJK fun _ hy => hy.below _, fun c hc => ?_⟩
    rcases hmem c hc with hc | hc
    · exact hold c hc
    · exact hnew c hc

theorem Modelled.tellClause {h : History} (hm : Modelled.{u} h) {d : Clause} {b : Bool}
    {kb : KnowledgeBase} (ht : h.kb.tellClause d = .ok (b, kb))
    (hd : d.AllTerms (Term.Over Symbol.Plain)) : Modelled.{u} ⟨kb, h.accepted ++ [.clause d]⟩ := by
  obtain ⟨-, hconv, hmem⟩ := KnowledgeBase.tellClause_ok ht
  constructor
  · intro c hc
    rw [hconv]
    rcases hmem c hc with hc | rfl
    · exact hm.terms c hc
    · exact hd.over_mono fun _ hy => hy.below _
  · intro D I hI
    rw [List.forall_mem_append] at hI
    obtain ⟨J, hIJ, hJ⟩ := hm.model D I hI.1
    refine ⟨J, hIJ, fun c hc => ?_⟩
    rcases hmem c hc with hc | rfl
    · exact hJ c hc
    · exact hIJ.clause_trueIn hd (hI.2 _ List.mem_cons_self)

/-- Models of what was accepted become models of the clauses. -/
theorem modelled (rs : List Request)
    (hrs : ∀ p ∈ (after rs).accepted, p.AllTerms (Term.Over Symbol.Plain)) : Modelled.{u} (after rs) := by
  revert hrs
  refine History.induction (P := fun h => (∀ p ∈ h.accepted, p.AllTerms (Term.Over Symbol.Plain)) →
    Modelled.{u} h) ?_ ?_ ?_ rs
  · intro _
    exact ⟨nofun, fun D I _ => ⟨I, .refl I, nofun⟩⟩
  · intro h s n kb ih ht hall
    rw [List.forall_mem_append] at hall
    exact (ih hall.1).tell ht (hall.2 _ List.mem_cons_self)
  · intro h d b kb ih ht hall
    rw [List.forall_mem_append] at hall
    exact (ih hall.1).tellClause ht (hall.2 _ List.mem_cons_self)

end History

/-! ## Queries -/

/-- A sentence without free variables is true or its negation is. -/
theorem Sentence.not_trueIn_of_closed {s : Sentence} (hs : s.free = []) {I : Interpretation D}
    (h : ¬s.TrueIn I) : (Sentence.not s).TrueIn I := by
  obtain ⟨v, hv⟩ := not_forall.mp h
  intro w hw
  refine hv ((holds_congr fun x hx => ?_).mp hw)
  rw [← mem_free, hs] at hx
  cases hx

theorem trueIn_reflexivity (I : Interpretation D) : reflexivity.TrueIn I := fun _ =>
  Clause.holds_ofList.mpr ⟨_, List.mem_singleton_self _, rfl⟩

theorem KnowledgeBase.Input.trueIn {kb : KnowledgeBase} {goals : List Clause} {rule : Rule} {c : Clause}
    (h : kb.Input goals rule c) {I : Interpretation D} (hkb : ∀ c ∈ kb.clauses, c.TrueIn I)
    (hgoals : ∀ c ∈ goals, c.TrueIn I) : c.TrueIn I := by
  rcases h with ⟨-, hc⟩ | ⟨-, hc⟩ | ⟨-, rfl⟩
  · exact hkb c hc
  · exact hgoals c hc
  · exact trueIn_reflexivity I

/-- A query without free variables that is proved is true in every model of what the knowledge base
accepted, if neither speaks of Skolem symbols. -/
theorem History.query_follows (rs : List Request) (query : Sentence) (hclosed : query.free = [])
    (config : Config) (hu : config.occursCheck = true)
    (hrs : ∀ p ∈ (after rs).accepted, p.AllTerms (Term.Over Symbol.Plain))
    (hquery : query.AllTerms (Term.Over Symbol.Plain)) (clock : Clock) (fuel : Nat)
    (proofs : List Proof) (s : Search)
    (h : (after rs).kb.ask query config clock fuel = .ok (some (.proved proofs, s)))
    (D : Type u) (I : Interpretation D) (hI : ∀ p ∈ (after rs).accepted, p.TrueIn I) :
    query.TrueIn I := by
  by_contra hnot
  have hm := modelled.{u} rs hrs
  obtain ⟨J, hIJ, hJ⟩ := hm.model D I hI
  obtain ⟨goals, converter, hconv, hsound⟩ := KnowledgeBase.ask_outcome_sound (History.wellFormed rs) hu h
  have hgoal : KnowledgeBase.goal query = .not query := by simp [KnowledgeBase.goal, hclosed]
  rw [hgoal] at hconv
  have hneg : (Sentence.not query).TrueIn J :=
    hIJ.sentence_trueIn hquery (Sentence.not_trueIn_of_closed hclosed hnot)
  obtain ⟨K, -, hkb, hgoals⟩ := Converter.convert_extends hconv hquery hm.terms hneg hJ
  obtain ⟨p, hp⟩ := List.exists_mem_of_ne_nil _ (hsound.some rfl)
  have hp := hsound.proofs p hp
  have htrue : p.conclusion.TrueIn K := Proof.conclusion_trueIn hp.verify fun step hstep hr =>
    (hp.input hstep hr).trueIn hkb hgoals
  rcases hp.answers with ⟨hempty, -⟩ | ⟨hvars, -⟩
  · rw [hempty] at htrue
    exact Clause.not_holds_empty (htrue fun _ => K.const "")
  · exact hvars hclosed

/-! ## An exchange of quantifiers -/

namespace Sentence

/-- Some one is below all. -/
def hasLeast : Sentence :=
  .quant .ex [⟨"x"⟩] (.quant .all [⟨"y"⟩] (.atom (.pred "Below" [.var ⟨"x"⟩, .var ⟨"y"⟩])))

/-- All have some one below them. -/
def allBounded : Sentence :=
  .quant .all [⟨"y"⟩] (.quant .ex [⟨"x"⟩] (.atom (.pred "Below" [.var ⟨"x"⟩, .var ⟨"y"⟩])))

end Sentence

/-- The natural numbers in their order. -/
def Interpretation.naturals : Interpretation Nat where
  const _ := 0
  func _ _ := 0
  pred _ args := args.getD 0 0 ≤ args.getD 1 0

/-- Told that there is a least one, the knowledge base proves that all are bounded. The natural
numbers have a least one, so they are bounded. -/
theorem History.hasLeast_query_follows :
    (∃ proofs s, (after [.tell .hasLeast]).kb.ask .allBounded {} (fun _ => 0) 20 =
      .ok (some (.proved proofs, s))) ∧
    Sentence.hasLeast.TrueIn Interpretation.naturals ∧
    Sentence.allBounded.TrueIn Interpretation.naturals := by
  have hrun : ((after [.tell .hasLeast]).kb.ask .allBounded {} (fun _ => 0) 20).toOption.join.any
      (fun r => r.1.isProved) = true := by cbv
  have hacc : (after [.tell .hasLeast]).accepted = [.sentence .hasLeast] := by cbv
  have hleast : Sentence.hasLeast.TrueIn Interpretation.naturals := by
    intro v
    refine ⟨fun x => if x = ⟨"x"⟩ then 0 else v x, fun x hx => if_neg (by simpa using hx), ?_⟩
    intro w hw
    have hx : w ⟨"x"⟩ = 0 := hw _ (by decide)
    change w ⟨"x"⟩ ≤ w ⟨"y"⟩
    omega
  have hplain : ∀ s ∈ [Sentence.hasLeast, .allBounded], s.AllTerms (Term.Over Symbol.Plain) := by
    simp [Sentence.AllTerms, Sentence.hasLeast, Sentence.allBounded, Sentence.atoms, Atom.args,
      Term.Over, Term.symbols]
  rw [List.forall_mem_cons, List.forall_mem_singleton] at hplain
  obtain ⟨⟨o, s⟩, hask, hproved⟩ := Except.exists_of_any hrun
  rw [Outcome.eq_proved (o := o) hproved] at hask
  refine ⟨⟨o.proofs, s, hask⟩, hleast, ?_⟩
  refine query_follows [.tell .hasLeast] .allBounded (by cbv) {} rfl ?_ hplain.2 _ _ o.proofs s hask
    Nat .naturals ?_
  · rw [hacc, List.forall_mem_singleton]
    exact hplain.1
  · rw [hacc, List.forall_mem_singleton]
    exact hleast

end Refutation
