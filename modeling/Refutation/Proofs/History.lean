import Refutation.KnowledgeBase
import Refutation.Proofs.Arities
import Refutation.Proofs.Conversion
import Refutation.Proofs.Reported

/-!
# Histories of a knowledge base

A knowledge base comes about by requests: sentences and clauses are told, some are refused, and
now and then all is cleared. What is accepted is well-formed, so the proofs that a query gets
check.

* `Request`, `History`: requests, and the knowledge base after them with what it accepted.
* `History.induction`: what accepting one sentence or clause keeps holds of every history.
* `History.wellFormed`: the clauses of a knowledge base are well-formed.
* `KnowledgeBase.Input`: the clauses that proofs of a query start from.
* `History.proofs_check`: every proof that a query gets checks, starts from these inputs, and ends
  in a contradiction or in answers.
-/

namespace Refutation

/-- A sentence that fits a signature has well-formed terms. -/
theorem Signature.wellFormed_of_check {s : Sentence} {g g' : Signature} (h : g.check s = .ok g') :
    s.AllTerms fun t => t.wellFormed = true :=
  (Sentence.wellFormed_iff.mp ((takes_check s).admitted h)).2

/-! ## Requests -/

/-- What a knowledge base is asked to do to itself. -/
inductive Request where
  | tell (s : Sentence)
  | tellAll (ss : List Sentence)
  | tellClause (c : Clause)
  | clear

/-- Something that a knowledge base took in. -/
inductive Premise where
  | sentence (s : Sentence)
  | clause (c : Clause)

/-- A knowledge base and what it accepted since it was last cleared. -/
structure History where
  kb : KnowledgeBase := .empty
  accepted : List Premise := []

/-- The sentences that are accepted when a list is told: those before the first one refused. -/
def KnowledgeBase.acceptedOf (kb : KnowledgeBase) : List Sentence → List Sentence
  | [] => []
  | s :: ss =>
    match kb.tell s with
    | .ok (_, kb) => s :: kb.acceptedOf ss
    | .error _ => []

namespace History

/-- The history after one request more. What is refused changes nothing. -/
def serve (h : History) : Request → History
  | .tell s =>
    match h.kb.tell s with
    | .ok (_, kb) => ⟨kb, h.accepted ++ [.sentence s]⟩
    | .error _ => h
  | .tellAll ss => ⟨(h.kb.tellAll ss).2, h.accepted ++ (h.kb.acceptedOf ss).map .sentence⟩
  | .tellClause c =>
    match h.kb.tellClause c with
    | .ok (_, kb) => ⟨kb, h.accepted ++ [.clause c]⟩
    | .error _ => h
  | .clear => {}

/-- The history of a list of requests to an empty knowledge base. -/
def after (rs : List Request) : History := rs.foldl serve {}

/-- What is true of nothing told, and kept by each sentence and each clause that is accepted, is
true of every history. -/
theorem induction {P : History → Prop} (hempty : P {})
    (htell : ∀ h s n kb, P h → h.kb.tell s = .ok (n, kb) → P ⟨kb, h.accepted ++ [.sentence s]⟩)
    (hclause : ∀ h c b kb, P h → h.kb.tellClause c = .ok (b, kb) → P ⟨kb, h.accepted ++ [.clause c]⟩)
    (rs : List Request) : P (after rs) := by
  have hall : ∀ (ss : List Sentence) (n : Nat) (h : History), P h →
      P ⟨(KnowledgeBase.tellAll.go h.kb n ss).2, h.accepted ++ (h.kb.acceptedOf ss).map .sentence⟩ := by
    intro ss
    induction ss with
    | nil =>
      intro n h hP
      simpa [KnowledgeBase.tellAll.go, KnowledgeBase.acceptedOf] using hP
    | cons s ss ih =>
      intro n h hP
      rw [KnowledgeBase.tellAll.go, KnowledgeBase.acceptedOf]
      cases ht : h.kb.tell s with
      | error e => simpa using hP
      | ok r =>
        obtain ⟨m, kb⟩ := r
        simpa using ih (n + m) _ (htell h s m kb hP ht)
  have hserve : ∀ (r : Request) (h : History), P h → P (h.serve r) := by
    intro r h hP
    cases r with
    | tell s =>
      rw [serve]
      split
      · rename_i n kb ht
        exact htell h s n kb hP ht
      · exact hP
    | tellAll ss => exact hall ss 0 h hP
    | tellClause c =>
      rw [serve]
      split
      · rename_i b kb ht
        exact hclause h c b kb hP ht
      · exact hP
    | clear => exact hempty
  have hfold : ∀ (rs : List Request) (h : History), P h → P (rs.foldl serve h) := by
    intro rs
    induction rs with
    | nil => exact fun h hP => hP
    | cons r rs ih => exact fun h hP => ih _ (hserve r h hP)
  exact hfold rs {} hempty

end History

/-! ## What is stored -/

namespace KnowledgeBase

theorem mem_store {kb : KnowledgeBase} {cs : List Clause} {c : Clause}
    (h : c ∈ (kb.store cs).clauses) : c ∈ kb.clauses ∨ c ∈ cs := by
  have hfold : ∀ (cs kept : List Clause), c ∈ cs.foldl
      (fun kept c => if kept.any (·.same c) then kept else kept ++ [c]) kept → c ∈ kept ∨ c ∈ cs := by
    intro cs
    induction cs with
    | nil => exact fun kept h => .inl h
    | cons d cs ih =>
      intro kept h
      rcases ih _ h with h | h
      · simp only at h
        split at h
        · exact .inl h
        · rcases List.mem_append.mp h with h | h
          · exact .inl h
          · exact .inr (List.mem_cons.mpr (.inl (List.mem_singleton.mp h)))
      · exact .inr (List.mem_cons_of_mem _ h)
  exact hfold cs kb.clauses h

/-- A sentence is accepted if it fits the signature and converts; its clauses are stored. -/
theorem tell_ok {kb kb' : KnowledgeBase} {s : Sentence} {n : Nat} (h : kb.tell s = .ok (n, kb')) :
    (∃ g, kb.signature.check s = .ok g) ∧ ∃ cs, kb.converter.convert s = .ok (cs, kb'.converter) ∧
      ∀ c ∈ kb'.clauses, c ∈ kb.clauses ∨ c ∈ cs := by
  obtain ⟨g, hg, h⟩ := Except.bind_eq_ok.mp h
  obtain ⟨⟨cs, converter⟩, hcs, h⟩ := Except.bind_eq_ok.mp h
  cases h
  exact ⟨⟨g, Except.mapError_eq_ok.mp hg⟩, cs, Except.mapError_eq_ok.mp hcs, fun c hc => mem_store hc⟩

/-- A clause is accepted if its sentence fits the signature, and is stored. -/
theorem tellClause_ok {kb kb' : KnowledgeBase} {c : Clause} {b : Bool}
    (h : kb.tellClause c = .ok (b, kb')) :
    (∀ s, c.toSentence? = some s → ∃ g, kb.signature.check s = .ok g) ∧
      kb'.converter = kb.converter ∧ ∀ d ∈ kb'.clauses, d ∈ kb.clauses ∨ d = c := by
  have hstored : ∀ d ∈ (kb.store [c]).clauses, d ∈ kb.clauses ∨ d = c := fun d hd =>
    (mem_store hd).imp_right List.mem_singleton.mp
  unfold tellClause at h
  split at h
  · rename_i s hs
    obtain ⟨g, hg, h⟩ := Except.bind_eq_ok.mp h
    cases h
    refine ⟨fun s' hs' => ?_, rfl, hstored⟩
    cases hs.symm.trans hs'
    exact ⟨g, Except.mapError_eq_ok.mp hg⟩
  · rename_i hs
    cases h
    exact ⟨fun s' hs' => (nomatch hs.symm.trans hs'), rfl, hstored⟩

end KnowledgeBase

/-- The atoms of a clause are those of its sentence. -/
theorem Clause.mem_atoms_toSentence {c : Clause} {s : Sentence} (h : c.toSentence? = some s)
    {l : Literal} (hl : l ∈ c) : l.atom ∈ s.atoms := by
  have hlit : ∀ l : Literal, l.toSentence.atoms = [l.atom] := by
    intro l
    unfold Literal.toSentence
    split <;> rfl
  have hfold : ∀ (ss : List Sentence) (s : Sentence), (ss.foldl .or s).atoms =
      s.atoms ++ ss.flatMap Sentence.atoms := by
    intro ss
    induction ss with
    | nil => simp
    | cons t ss ih =>
      intro s
      rw [List.foldl_cons, ih]
      simp [Sentence.atoms]
  unfold toSentence? at h
  rw [Clause.mem_iff] at hl
  cases hc : c.literals with
  | nil => rw [hc] at hl; cases hl
  | cons m ms =>
    rw [hc] at h hl
    cases h
    rw [hfold, List.mem_append, List.mem_flatMap]
    rcases List.mem_cons.mp hl with rfl | hl
    · exact .inl (by simp [hlit])
    · exact .inr ⟨l.toSentence, List.mem_map_of_mem hl, by simp [hlit]⟩

theorem Clause.wellFormed_of_toSentence {c : Clause}
    (h : ∀ s, c.toSentence? = some s → s.AllTerms fun t => t.wellFormed = true) :
    c.wellFormed = true := by
  rw [wellFormed_iff]
  intro l hl
  rw [Atom.wellFormed_iff]
  cases hs : c.toSentence? with
  | none =>
    unfold toSentence? at hs
    rw [mem_iff] at hl
    cases hc : c.literals with
    | nil => rw [hc] at hl; cases hl
    | cons m ms => rw [hc] at hs; cases hs
  | some s => exact h s hs l.atom (mem_atoms_toSentence hs hl)

/-- What a knowledge base stores is well-formed. -/
theorem History.wellFormed (rs : List Request) : ∀ c ∈ (after rs).kb.clauses, c.wellFormed = true := by
  refine History.induction (P := fun h => ∀ c ∈ h.kb.clauses, c.wellFormed = true) ?_ ?_ ?_ rs
  · exact fun c hc => nomatch hc
  · intro h s n kb ih ht c hc
    obtain ⟨⟨g, hg⟩, cs, hcs, hmem⟩ := KnowledgeBase.tell_ok ht
    rcases hmem c hc with hc | hc
    · exact ih c hc
    · exact Converter.convert_wellFormed hcs (Signature.wellFormed_of_check hg) c hc
  · intro h d b kb ih ht c hc
    obtain ⟨hsig, -, hmem⟩ := KnowledgeBase.tellClause_ok ht
    rcases hmem c hc with hc | rfl
    · exact ih c hc
    · refine Clause.wellFormed_of_toSentence fun s hs => ?_
      obtain ⟨g, hg⟩ := hsig s hs
      exact Signature.wellFormed_of_check hg

/-! ## Queries -/

namespace KnowledgeBase

/-- What a proof of a query may start from: a stored clause, a clause of the goal, or that
everything equals itself. -/
def Input (kb : KnowledgeBase) (goals : List Clause) (rule : Rule) (c : Clause) : Prop :=
  (rule = .premise ∧ c ∈ kb.clauses) ∨ (rule = .goal ∧ c ∈ goals) ∨
    (rule = .builtin "reflexivity" ∧ c = reflexivity)

theorem inputs_records {Φ : Rule → Clause → Prop} {rule : Rule} (hr : rule = .premise ∨ rule = .goal)
    {cs : List Clause} {d : Derivation} (hd : d.Checked Φ) (hw : ∀ c ∈ cs, c.wellFormed = true)
    (hΦ : ∀ c ∈ cs, Φ rule c) :
    Derivation.Records Φ d (inputs rule cs d).1 (inputs rule cs d).2 := by
  induction cs generalizing d with
  | nil => exact .nil hd
  | cons c cs ih =>
    have hcheck : rule.check c [] = .ok () := by rcases hr with rfl | rfl <;> rfl
    have h₁ := Derivation.derive_records hd [] (by simp) hcheck (hw c List.mem_cons_self)
      fun _ => hΦ c List.mem_cons_self
    exact h₁.append (ih h₁.checked (fun c hc => hw c (List.mem_cons_of_mem _ hc))
      fun c hc => hΦ c (List.mem_cons_of_mem _ hc))

theorem goal_allTerms {T : Term → Prop} (hT : ∀ x, T (.var x)) {query : Sentence}
    (h : query.AllTerms T) : (goal query).AllTerms T := by
  unfold goal
  split
  · exact h
  · intro a ha t ht
    rcases List.mem_append.mp ha with ha | ha
    · exact h a ha t ht
    · cases List.mem_singleton.mp ha
      obtain ⟨x, -, rfl⟩ := List.mem_map.mp ht
      exact hT x

/-- The search for a query starts from its inputs and is sound. -/
theorem search_sound {kb : KnowledgeBase} {query : Sentence} {config : Config} {s : Search}
    (hkb : ∀ c ∈ kb.clauses, c.wellFormed = true) (hu : config.occursCheck = true)
    (h : kb.search query config = .ok s) :
    ∃ goals converter, kb.converter.convert (goal query) = .ok (goals, converter) ∧
      s.Sound (kb.Input goals) query.free := by
  obtain ⟨_, -, h⟩ := Except.bind_eq_ok.mp h
  obtain ⟨g, hg, h⟩ := Except.bind_eq_ok.mp h
  obtain ⟨⟨goals, converter⟩, hgoals, h⟩ := Except.bind_eq_ok.mp h
  cases h
  have hconv := Except.mapError_eq_ok.mp hgoals
  have hquery := Signature.wellFormed_of_check (Except.mapError_eq_ok.mp hg)
  have hwf := Converter.convert_wellFormed hconv (goal_allTerms (fun _ => rfl) hquery)
  refine ⟨goals, converter, hconv, ?_⟩
  have h₁ := inputs_records (Φ := kb.Input goals) (.inl rfl) Derivation.checked_empty hkb
    fun c hc => .inl ⟨rfl, hc⟩
  have h₂ := inputs_records (Φ := kb.Input goals) (.inr rfl) h₁.checked hwf
    fun c hc => .inr (.inl ⟨rfl, hc⟩)
  exact Search.start_sound hu h₂.checked (fun c hc => (h₁.stated c hc).mono h₂.grows) h₂.stated
    (.inr (.inr ⟨rfl, rfl⟩))

theorem nodup_free (s : Sentence) : s.free.Nodup := nodup_eraseDups _

/-- Every outcome of a query is sound. -/
theorem ask_outcome_sound {kb : KnowledgeBase} {query : Sentence} {config : Config} {clock : Clock}
    {fuel : Nat} {o : Outcome} {s : Search} (hkb : ∀ c ∈ kb.clauses, c.wellFormed = true)
    (hu : config.occursCheck = true) (h : kb.ask query config clock fuel = .ok (some (o, s))) :
    ∃ goals converter, kb.converter.convert (goal query) = .ok (goals, converter) ∧
      o.Sound (kb.Input goals) query.free := by
  obtain ⟨s₀, hs₀, h⟩ := Except.bind_eq_ok.mp h
  obtain ⟨goals, converter, hconv, hsound⟩ := search_sound hkb hu hs₀
  exact ⟨goals, converter, hconv, Search.run_sound hsound (nodup_free query) (Except.pure_eq_ok.mp h)⟩

end KnowledgeBase

/-- Every proof that a query gets checks. Its inputs are stored clauses, clauses of the goal, or
that everything equals itself, and it ends in a contradiction or in answers to the query. -/
theorem History.proofs_check (rs : List Request) (query : Sentence) (config : Config)
    (hu : config.occursCheck = true) (clock : Clock) (fuel : Nat) (proofs : List Proof) (s : Search)
    (h : (after rs).kb.ask query config clock fuel = .ok (some (.proved proofs, s))) :
    ∃ goals converter,
      (after rs).kb.converter.convert (KnowledgeBase.goal query) = .ok (goals, converter) ∧
      ∀ p ∈ proofs, p.verify = .ok () ∧
        (∀ step ∈ p.steps, step.rule.isInput = true →
          (after rs).kb.Input goals step.rule step.conclusion) ∧
        p.Answers query.free := by
  obtain ⟨goals, converter, hconv, hsound⟩ := KnowledgeBase.ask_outcome_sound (History.wellFormed rs) hu h
  refine ⟨goals, converter, hconv, fun p hp => ?_⟩
  have hp := hsound.proofs p hp
  exact ⟨hp.verify, fun step hstep hr => hp.input hstep hr, hp.answers⟩

/-- That `P` is true of `A` or of `B`, and nothing more. -/
def History.eitherHolds : List Request :=
  [.tell (.or (.atom (.pred "P" [.const "A"])) (.atom (.pred "P" [.const "B"])))]

/-- Asked for which `x` the sentence `P(x)` is true, the knowledge base that holds `P(A) ∨ P(B)` has
one proof, which has two answers. -/
theorem History.eitherHolds_proofs_check :
    ∃ p s goals converter,
      (after eitherHolds).kb.ask (.atom (.pred "P" [.var ⟨"x"⟩])) {} (fun _ => 0) 20 =
        .ok (some (.proved [p], s)) ∧
      (after eitherHolds).kb.converter.convert
        (KnowledgeBase.goal (.atom (.pred "P" [.var ⟨"x"⟩]))) = .ok (goals, converter) ∧
      p.verify = .ok () ∧
      (∀ step ∈ p.steps, step.rule.isInput = true →
        (after eitherHolds).kb.Input goals step.rule step.conclusion) ∧
      p.Answers [⟨"x"⟩] := by
  have hrun : ((after eitherHolds).kb.ask (.atom (.pred "P" [.var ⟨"x"⟩])) {} (fun _ => 0)
      20).toOption.join.any (fun r => r.1.isProved && r.1.proofs.length == 1) = true := by cbv
  obtain ⟨⟨o, s⟩, hask, ho⟩ := Except.exists_of_any hrun
  rw [Bool.and_eq_true, beq_iff_eq, List.length_eq_one_iff] at ho
  obtain ⟨hproved, p, hp⟩ := ho
  rw [Outcome.eq_proved (o := o) hproved, hp] at hask
  obtain ⟨goals, converter, hconv, hcheck⟩ := proofs_check eitherHolds _ {} rfl _ _ _ _ hask
  exact ⟨p, s, goals, converter, hask, hconv, hcheck p List.mem_cons_self⟩

end Refutation
