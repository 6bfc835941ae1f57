import Refutation.Proofs.Entailment

/-!
# Freshness

The search works with names that it makes up: Skolem symbols, and a predicate for answers. They are
taken by number or by a fixed spelling, and nobody looks whether they are in use. So they are new just
as long as what is told and asked stays off such names. Conversion itself takes up no name but
Skolem symbols that were not given out before.

* `Sentence.symbols`, `Sentence.predicates`: the vocabulary of a sentence; also of clauses and of
  what was accepted.
* `Converter.convert_symbols`, `Converter.convert_predicates`: the vocabulary of a sentence's clauses.
* `History.Traced`: where the vocabulary of the stored clauses comes from.
* `History.introduced_fresh`: no name made up for a query is in use, if the reserved names are not.
* `History.namedSkolem_clash`: a told `SC0` makes a query provable that does not follow.
-/

namespace Refutation

/-! ## Vocabulary -/

/-- The predicate; equations have none. -/
def Atom.predicates : Atom → List String
  | .pred p _ => [p]
  | .eq .. => []

theorem Atom.predicates_subst (σ : Substitution) (a : Atom) : (a.subst σ).predicates = a.predicates := by
  cases a <;> rfl

namespace Sentence

/-- The constants and function symbols from left to right, with repetitions. -/
def symbols (s : Sentence) : List Symbol := s.atoms.flatMap fun a => Term.symbolsList a.args

/-- The predicates from left to right, with repetitions. -/
def predicates (s : Sentence) : List String := s.atoms.flatMap Atom.predicates

theorem allTerms_over {S : Symbol → Prop} {s : Sentence} :
    s.AllTerms (Term.Over S) ↔ ∀ y ∈ s.symbols, S y := by
  simp only [AllTerms, Term.Over, symbols, List.mem_flatMap, Term.mem_symbolsList]
  constructor
  · rintro h y ⟨a, ha, t, ht, hy⟩
    exact h a ha t ht y hy
  · exact fun h a ha t ht y hy => h y ⟨a, ha, t, ht, hy⟩

theorem predicates_of_atoms {s s' : Sentence} (h : ∀ a ∈ s'.atoms, a ∈ s.atoms) {q : String}
    (hq : q ∈ s'.predicates) : q ∈ s.predicates := by
  obtain ⟨a, ha, hq⟩ := List.mem_flatMap.mp hq
  exact List.mem_flatMap.mpr ⟨a, h a ha, hq⟩

theorem predicates_subst (σ : Substitution) (s : Sentence) : (s.subst σ).predicates = s.predicates := by
  rw [predicates, predicates, atoms_subst, List.flatMap_map]
  exact congrArg (s.atoms.flatMap ·) (funext (Atom.predicates_subst σ))

theorem predicates_renameBinders (scope : Substitution) (b : BinderScan) (s : Sentence) :
    (s.renameBinders scope b).1.predicates = s.predicates := by
  induction s generalizing scope b with
  | atom a => exact congrArg (· ++ []) (Atom.predicates_subst scope a)
  | not s ih => exact ih scope b
  | and l r ihl ihr | or l r ihl ihr | implies l r ihl ihr | iff l r ihl ihr =>
    have hl := ihl scope b
    have hr := ihr scope (l.renameBinders scope b).2
    simp only [predicates, renameBinders, atoms, List.flatMap_append] at hl hr ⊢
    rw [hl, hr]
  | quant q vs s ih => exact ih _ _

end Sentence

theorem Skolemizes.predicates {us : List Var} {k k' : Nat} {s s' : Sentence}
    (h : Skolemizes us k s s' k') {q : String} (hq : q ∈ s'.predicates) : q ∈ s.predicates := by
  induction h with
  | atom | not => exact hq
  | and _ _ ihl ihr | or _ _ ihl ihr =>
    simp only [Sentence.predicates, Sentence.atoms, List.flatMap_append, List.mem_append] at ihl ihr hq ⊢
    exact hq.imp ihl ihr
  | all _ ih => exact ih hq
  | @ex us vs k k' s s' _ ih =>
    rw [Sentence.predicates_subst] at ih
    exact ih hq

/-- The predicates from left to right, with repetitions. -/
def Clause.predicates (c : Clause) : List String := c.literals.flatMap fun l => l.atom.predicates

namespace Converter

variable {c c' : Converter} {s : Sentence} {cs : List Clause}

/-- A symbol of the clauses stands in the sentence or is given out for it. -/
theorem convert_symbols (h : c.convert s = .ok (cs, c')) {d : Clause} (hd : d ∈ cs) {y : Symbol}
    (hy : y ∈ d.symbols) : y ∈ s.symbols ∨ y.Issued c.issued c'.issued cs := by
  have hterms : d.AllTerms (Term.Over fun y =>
      y ∈ s.symbols ∨ ∃ n, c.issued ≤ n ∧ n < c'.issued ∧ y.IsSkolem n) :=
    convert_allTerms (substitutive_over _) h
      (fun us n hle hlt => (over_isSkolem us n).mono fun _ hy => .inr ⟨n, hle, hlt, hy⟩)
      (Sentence.allTerms_over.mpr fun _ hy => .inl hy) d hd
  exact (Clause.allTerms_over.mp hterms y hy).imp_right fun hn => ⟨hn, d, hd, hy⟩

/-- Conversion makes up no predicates. -/
theorem convert_predicates (h : c.convert s = .ok (cs, c')) {d : Clause} (hd : d ∈ cs) {q : String}
    (hq : q ∈ d.predicates) : q ∈ s.predicates := by
  obtain ⟨t, hsk, hcs, -⟩ := convert_ok.{0} h
  obtain ⟨l, hl, hq⟩ := List.mem_flatMap.mp hq
  have ht : q ∈ t.predicates := List.mem_flatMap.mpr ⟨l.atom, (hcs d hd).1 l hl, hq⟩
  have hnormal := hsk.predicates ht
  rw [Sentence.standardize, Sentence.predicates_renameBinders] at hnormal
  exact Sentence.predicates_of_atoms
    (fun a ha => Sentence.atoms_eliminate (Sentence.atoms_nnfOf ha)) hnormal

end Converter

namespace Premise

def symbols : Premise → List Symbol
  | .sentence s => s.symbols
  | .clause c => c.symbols

def predicates : Premise → List String
  | .sentence s => s.predicates
  | .clause c => c.predicates

theorem allTerms_over {S : Symbol → Prop} {p : Premise} :
    p.AllTerms (Term.Over S) ↔ ∀ y ∈ p.symbols, S y := by
  cases p with
  | sentence s => exact Sentence.allTerms_over
  | clause c => exact Clause.allTerms_over

/-- No name is used that the search makes up. -/
structure Unreserved (p : Premise) : Prop where
  symbols : ∀ y ∈ p.symbols, y.Plain
  predicates : answerPredicate ∉ p.predicates

end Premise

/-! ## Stored clauses -/

namespace History

/-- The vocabulary of the clauses came with what was accepted, Skolem symbols given out apart. -/
structure Traced (h : History) : Prop where
  symbols : ∀ c ∈ h.kb.clauses, ∀ y ∈ c.symbols,
    (∃ p ∈ h.accepted, y ∈ p.symbols) ∨ ∃ n < h.kb.converter.issued, y.IsSkolem n
  predicates : ∀ c ∈ h.kb.clauses, ∀ q ∈ c.predicates, ∃ p ∈ h.accepted, q ∈ p.predicates

theorem Traced.tell {h : History} (ht : h.Traced) {s : Sentence} {n : Nat} {kb : KnowledgeBase}
    (htell : h.kb.tell s = .ok (n, kb)) : Traced ⟨kb, h.accepted ++ [.sentence s]⟩ := by
  obtain ⟨-, cs, hcs, hmem⟩ := KnowledgeBase.tell_ok htell
  have hle := Converter.issued_le hcs
  have hlast : Premise.sentence s ∈ h.accepted ++ [.sentence s] := by simp
  constructor
  · intro c hc y hy
    rcases hmem c hc with hc | hc
    · rcases ht.symbols c hc y hy with ⟨p, hp, hy⟩ | ⟨m, hm, hy⟩
      · exact .inl ⟨p, List.mem_append_left _ hp, hy⟩
      · exact .inr ⟨m, Nat.lt_of_lt_of_le hm hle, hy⟩
    · rcases Converter.convert_symbols hcs hc hy with hy | ⟨⟨m, -, hm, hy⟩, -⟩
      · exact .inl ⟨_, hlast, hy⟩
      · exact .inr ⟨m, hm, hy⟩
  · intro c hc q hq
    rcases hmem c hc with hc | hc
    · obtain ⟨p, hp, hq⟩ := ht.predicates c hc q hq
      exact ⟨p, List.mem_append_left _ hp, hq⟩
    · exact ⟨_, hlast, Converter.convert_predicates hcs hc hq⟩

theorem Traced.tellClause {h : History} (ht : h.Traced) {d : Clause} {b : Bool} {kb : KnowledgeBase}
    (htell : h.kb.tellClause d = .ok (b, kb)) : Traced ⟨kb, h.accepted ++ [.clause d]⟩ := by
  obtain ⟨-, hconv, hmem⟩ := KnowledgeBase.tellClause_ok htell
  have hlast : Premise.clause d ∈ h.accepted ++ [.clause d] := by simp
  constructor
  · intro c hc y hy
    rw [hconv]
    rcases hmem c hc with hc | rfl
    · rcases ht.symbols c hc y hy with ⟨p, hp, hy⟩ | hy
      · exact .inl ⟨p, List.mem_append_left _ hp, hy⟩
      · exact .inr hy
    · exact .inl ⟨_, hlast, hy⟩
  · intro c hc q hq
    rcases hmem c hc with hc | rfl
    · obtain ⟨p, hp, hq⟩ := ht.predicates c hc q hq
      exact ⟨p, List.mem_append_left _ hp, hq⟩
    · exact ⟨_, hlast, hq⟩

theorem traced (rs : List Request) : (after rs).Traced := by
  refine History.induction (P := Traced) ?_ ?_ ?_ rs
  · exact ⟨nofun, nofun⟩
  · exact fun h s n kb ht htell => ht.tell htell
  · exact fun h d b kb ht htell => ht.tellClause htell

/-! ## Queries -/

/-- If neither what was accepted nor a query uses a reserved name, no Skolem symbol given out so far or
for the query is among the supplied ones. Stored clauses use supplied symbols and Skolem symbols given
out before, and the answer predicate does not stand in them. Clauses of the goal use symbols of the
query and Skolem symbols that stand in no stored clause. -/
theorem introduced_fresh (rs : List Request) (query : Sentence)
    (hfree : ∀ p ∈ Premise.sentence query :: (after rs).accepted, p.Unreserved) :
    ∃ goals converter,
      (after rs).kb.converter.convert (KnowledgeBase.goal query) = .ok (goals, converter) ∧
      (∀ n < converter.issued, ∀ y : Symbol, y.IsSkolem n →
        ∀ p ∈ Premise.sentence query :: (after rs).accepted, y ∉ p.symbols) ∧
      (∀ c ∈ (after rs).kb.clauses, answerPredicate ∉ c.predicates ∧ ∀ y ∈ c.symbols,
        (∃ p ∈ (after rs).accepted, y ∈ p.symbols) ∨
          ∃ n < (after rs).kb.converter.issued, y.IsSkolem n) ∧
      ∀ c ∈ goals, ∀ y ∈ c.symbols, y ∈ query.symbols ∨
        y.Issued (after rs).kb.converter.issued converter.issued goals ∧
          ∀ d ∈ (after rs).kb.clauses, y ∉ d.symbols := by
  obtain ⟨⟨goals, converter⟩, hconv⟩ := (after rs).kb.converter.convert_total (KnowledgeBase.goal query)
  have htraced := traced rs
  have hgoal : ∀ y ∈ (KnowledgeBase.goal query).symbols, y ∈ query.symbols := by
    refine Sentence.allTerms_over.mp (KnowledgeBase.goal_allTerms (fun _ => nofun) ?_)
    exact Sentence.allTerms_over.mpr fun _ hy => hy
  -- A Skolem symbol is not plain, and all that is supplied is.
  have hunused : ∀ n, ∀ y : Symbol, y.IsSkolem n →
      ∀ p ∈ Premise.sentence query :: (after rs).accepted, y ∉ p.symbols :=
    fun n y hn p hp hy => (hfree p hp).symbols y hy n hn
  refine ⟨goals, converter, hconv, fun n _ y hn => hunused n y hn, fun c hc => ⟨fun hq => ?_,
    htraced.symbols c hc⟩, fun c hc y hy => ?_⟩
  · obtain ⟨p, hp, hq⟩ := htraced.predicates c hc _ hq
    exact (hfree p (List.mem_cons_of_mem _ hp)).predicates hq
  · rcases Converter.convert_symbols hconv hc hy with hy | hissued
    · exact .inl (hgoal y hy)
    · refine .inr ⟨hissued, fun d hd hyd => ?_⟩
      obtain ⟨⟨n, hle, -, hn⟩, -⟩ := hissued
      rcases htraced.symbols d hd y hyd with ⟨p, hp, hyp⟩ | ⟨m, hm, hym⟩
      · exact hunused n y hn p (List.mem_cons_of_mem _ hp) hyp
      · have hnm := hn.inj hym
        omega

/-- Told that there is a least one, which is named `SC0`, the knowledge base names `SC1` what the
query denies to be bounded. -/
theorem hasLeast_introduced_fresh :
    (after [.tell .hasLeast]).kb.clauses.map Clause.text = ["Below(SC0,y)"] ∧
    ∃ goals converter,
      (after [.tell .hasLeast]).kb.converter.convert (KnowledgeBase.goal .allBounded) =
        .ok (goals, converter) ∧ goals.map Clause.text = ["~Below(x,SC1)"] ∧
      (∀ n < converter.issued, ∀ y : Symbol, y.IsSkolem n →
        ∀ p ∈ [Premise.sentence .allBounded, .sentence .hasLeast], y ∉ p.symbols) ∧
      (∀ c ∈ (after [.tell .hasLeast]).kb.clauses, answerPredicate ∉ c.predicates ∧ ∀ y ∈ c.symbols,
        (∃ p ∈ [Premise.sentence .hasLeast], y ∈ p.symbols) ∨
          ∃ n < (after [.tell .hasLeast]).kb.converter.issued, y.IsSkolem n) ∧
      ∀ c ∈ goals, ∀ y ∈ c.symbols, y ∈ Sentence.allBounded.symbols ∨
        y.Issued (after [.tell .hasLeast]).kb.converter.issued converter.issued goals ∧
          ∀ d ∈ (after [.tell .hasLeast]).kb.clauses, y ∉ d.symbols := by
  have hacc : (after [.tell .hasLeast]).accepted = [.sentence .hasLeast] := by cbv
  have hrun : ((after [.tell .hasLeast]).kb.converter.convert
      (KnowledgeBase.goal .allBounded)).toOption.map (fun r => r.1.map Clause.text) =
        some ["~Below(x,SC1)"] := by cbv
  have hfree : ∀ p ∈ [Premise.sentence .allBounded, .sentence .hasLeast], p.Unreserved := by
    rw [List.forall_mem_cons, List.forall_mem_singleton]
    exact ⟨⟨List.forall_mem_nil _, by decide⟩, ⟨List.forall_mem_nil _, by decide⟩⟩
  rw [← hacc] at hfree
  obtain ⟨goals, converter, hconv, hunused, hstored, hgoals⟩ :=
    introduced_fresh [.tell .hasLeast] .allBounded hfree
  rw [hconv] at hrun
  rw [hacc] at hunused hstored
  exact ⟨by cbv, goals, converter, hconv, Option.some.inj hrun, hunused, hstored, hgoals⟩

/-- That `P` is true of the constant `SC0`. -/
def namedSkolem : List Request := [.tell (.atom (.pred "P" [.const "SC0"]))]

/-- That `P` is true of all. -/
def allHaveP : Sentence := .quant .all [⟨"x"⟩] (.atom (.pred "P" [.var ⟨"x"⟩]))

/-- Names in use are not looked at: asked whether `P` is true of all, the knowledge base takes `SC0` for
one of which it is not. Since `P` is told to be true of `SC0` the query is proved, and yet it does not
follow. -/
theorem namedSkolem_clash :
    (∃ p ∈ (after namedSkolem).accepted, .const "SC0" ∈ p.symbols) ∧
    (∃ goals converter,
      (after namedSkolem).kb.converter.convert (KnowledgeBase.goal allHaveP) = .ok (goals, converter) ∧
      (Symbol.const "SC0").Issued (after namedSkolem).kb.converter.issued converter.issued goals) ∧
    (∃ proofs s, (after namedSkolem).kb.ask allHaveP {} (fun _ => 0) 20 =
      .ok (some (.proved proofs, s))) ∧
    ∃ I : Interpretation Bool, (∀ p ∈ (after namedSkolem).accepted, p.TrueIn I) ∧ ¬allHaveP.TrueIn I := by
  have hacc : (after namedSkolem).accepted = [.sentence (.atom (.pred "P" [.const "SC0"]))] := by cbv
  have hissued : (after namedSkolem).kb.converter.issued = 0 := by cbv
  have hgoal : ((after namedSkolem).kb.converter.convert (KnowledgeBase.goal allHaveP)).toOption =
      some ([.ofList [.neg (.pred "P" [.const "SC0"])]], ⟨1⟩) := by cbv
  have hrun : ((after namedSkolem).kb.ask allHaveP {} (fun _ => 0) 20).toOption.join.any
      (fun r => r.1.isProved) = true := by cbv
  rw [hacc, hissued]
  refine ⟨⟨_, List.mem_cons_self, by decide⟩, ?_, ?_, ?_⟩
  · obtain ⟨⟨goals, converter⟩, hconv⟩ :=
      (after namedSkolem).kb.converter.convert_total (KnowledgeBase.goal allHaveP)
    rw [hconv] at hgoal
    cases Option.some.inj hgoal
    exact ⟨_, _, hconv, ⟨0, by decide, by decide, .inl rfl⟩, _, List.mem_cons_self, by decide⟩
  · obtain ⟨⟨o, s⟩, hask, hproved⟩ := Except.exists_of_any hrun
    rw [Outcome.eq_proved (o := o) hproved] at hask
    exact ⟨o.proofs, s, hask⟩
  · -- `SC0` is one of two elements, and `P` is true of it alone.
    refine ⟨⟨fun _ => true, fun _ _ => true, fun _ ds => ds = [true]⟩, ?_, fun h => ?_⟩
    · rw [List.forall_mem_singleton]
      exact fun v => rfl
    · have hfalse : [false] = [true] := h (fun _ => false) (fun _ => false) fun _ _ => rfl
      exact absurd hfalse (by decide)

end History

end Refutation
