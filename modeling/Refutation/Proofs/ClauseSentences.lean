import Refutation.Proofs.NormalForm

/-!
# Clauses through sentences

A clause is told as the disjunction of its literals, and a rule can be written as an implication. When
such a sentence is converted, there is nothing for the stages to do once negations have moved to the
atoms: no quantifier is there and no conjunction under a disjunction. The literals are read from left to
right, so what comes back is the clause that was written.

* `Sentence.standardize_of_matrix`, `Sentence.skolemizeUnder_of_matrix`,
  `Sentence.dropUniversals_of_matrix`: what the stages for quantifiers leave alone.
* `Sentence.distribute_of_disjunctive`, `Sentence.conjuncts_of_disjunctive`: and the later ones.
* `Converter.convert_of_disjuncts`: a sentence whose normal form is a disjunction of literals becomes the
  clause of these literals.
* `Converter.convert_clause_sentence`: clauses and rules come back from their sentences.
-/

namespace Refutation

theorem Atom.subst_empty (a : Atom) : a.subst .empty = a := by
  rw [subst_eq_inst]
  exact inst_id a

namespace Sentence

variable {s : Sentence} {ls : List Literal}

/-! ## Nothing to do -/

theorem renameBinders_of_matrix (h : s.Matrix) (b : BinderScan) : s.renameBinders .empty b = (s, b) := by
  induction h generalizing b with
  | literal h => cases h <;> simp only [renameBinders, Atom.subst_empty]
  | and _ _ ihl ihr | or _ _ ihl ihr => simp only [renameBinders, ihl, ihr]

theorem standardize_of_matrix (h : s.Matrix) : s.standardize = s :=
  congrArg Prod.fst (renameBinders_of_matrix h _)

theorem skolemizeUnder_of_matrix (h : s.Matrix) (us : List Var) (k : Nat) :
    s.skolemizeUnder us k = .ok (s, k) := by
  induction h generalizing k with
  | literal h => cases h <;> rw [skolemizeUnder]
  | and _ _ ihl ihr | or _ _ ihl ihr =>
    rw [skolemizeUnder]
    exact Except.bind_eq_ok.mpr ⟨_, ihl k, Except.bind_eq_ok.mpr ⟨_, ihr k, rfl⟩⟩

theorem dropUniversals_of_matrix (h : s.Matrix) : s.dropUniversals = .ok s := by
  induction h with
  | literal h => cases h <;> rfl
  | and _ _ ihl ihr | or _ _ ihl ihr =>
    rw [dropUniversals, ihl, ihr]
    rfl

theorem Disjunctive.matrix (h : s.Disjunctive) : s.Matrix := by
  induction h with
  | literal h => exact .literal h
  | or _ _ ihl ihr => exact .or ihl ihr

theorem Disjunctive.isNNF (h : s.Disjunctive) : s.isNNF = true := by
  induction h with
  | literal h => cases h <;> rfl
  | or _ _ ihl ihr => rw [Sentence.isNNF, ihl, ihr, Bool.and_self]

theorem orRight_of_disjunctive {r : Sentence} (l : Sentence) (h : r.Disjunctive) :
    orRight l r = .or l r := by
  cases h with
  | literal h => cases h <;> rfl
  | or => rfl

theorem orBoth_of_disjunctive {l r : Sentence} (hl : l.Disjunctive) (hr : r.Disjunctive) :
    orBoth l r = .or l r := by
  have hright := orRight_of_disjunctive l hr
  cases hl with
  | literal hl => cases hl <;> exact hright
  | or => exact hright

theorem distribute_of_disjunctive (h : s.Disjunctive) : s.distribute = .ok s := by
  induction h with
  | literal h => cases h <;> rfl
  | or hl hr ihl ihr =>
    rw [distribute, ihl, ihr]
    exact congrArg Except.ok (orBoth_of_disjunctive hl hr)

theorem conjuncts_of_disjunctive (h : s.Disjunctive) : s.conjuncts = [s] := by
  cases h with
  | literal h => cases h <;> rfl
  | or => rfl

/-- What has literals to read is a disjunction of them. -/
theorem disjunctive_of_disjuncts (h : s.disjuncts = .ok ls) : s.Disjunctive := by
  induction s generalizing ls with
  | atom a => exact .literal (.atom a)
  | not s =>
    cases s with
    | atom a => exact .literal (.not a)
    | _ => cases h
  | or l r ihl ihr =>
    obtain ⟨_, _, hl, hr, -⟩ := Except.bind₂_eq_ok.mp h
    exact .or (ihl hl) (ihr hr)
  | and l r | implies l r | iff l r | quant q vs s => cases h

theorem extract_of_disjuncts (h : s.disjuncts = .ok ls) (ht : (Clause.ofList ls).isTautology = false) :
    s.extract = .ok [.ofList ls] := by
  have hread : s.conjuncts.mapM (fun c => Clause.ofList <$> c.disjuncts) = .ok [.ofList ls] := by
    rw [conjuncts_of_disjunctive (disjunctive_of_disjuncts h), List.mapM_cons, h]
    rfl
  have hkeep : [Clause.ofList ls].filter (!·.isTautology) = [.ofList ls] := by simp [ht]
  refine Except.bind_eq_ok.mpr ⟨_, hread, ?_⟩
  rw [hkeep]
  rfl

/-! ## Sentences of literals -/

theorem disjuncts_toSentence (l : Literal) : l.toSentence.disjuncts = .ok [l] := by
  obtain ⟨sign, a⟩ := l
  cases sign <;> rfl

theorem disjuncts_or {t : Sentence} {ms : List Literal} (hs : s.disjuncts = .ok ls)
    (ht : t.disjuncts = .ok ms) : (Sentence.or s t).disjuncts = .ok (ls ++ ms) := by
  rw [disjuncts, hs, ht]
  rfl

theorem disjuncts_foldl_or (hs : s.disjuncts = .ok ls) (ms : List Literal) :
    ((ms.map Literal.toSentence).foldl .or s).disjuncts = .ok (ls ++ ms) := by
  induction ms generalizing s ls with
  | nil => rw [List.append_nil]; exact hs
  | cons m ms ih =>
    have hm := ih (disjuncts_or hs (disjuncts_toSentence m))
    rwa [List.append_assoc] at hm

/-- The disjunction of some literals is read back as these literals. -/
theorem exists_disj? (hls : ls ≠ []) :
    ∃ s, disj? (ls.map Literal.toSentence) = some s ∧ s.disjuncts = .ok ls := by
  obtain ⟨l, ls, rfl⟩ := List.exists_cons_of_ne_nil hls
  exact ⟨_, rfl, disjuncts_foldl_or (disjuncts_toSentence l) ls⟩

/-- A negated conjunction is the disjunction of the negations, nested in the same way. -/
theorem nnfOf_foldl_and (s : Sentence) (ss : List Sentence) :
    (ss.foldl .and s).nnfOf true = (ss.map (nnfOf true)).foldl .or (s.nnfOf true) := by
  induction ss generalizing s with
  | nil => rfl
  | cons t ss ih => exact ih (.and s t)

theorem nnfOf_of_conj? {ss : List Sentence} (h : conj? ss = some s) :
    disj? (ss.map (nnfOf true)) = some (s.nnfOf true) := by
  cases ss with
  | nil => cases h
  | cons t ss =>
    cases h
    exact congrArg some (nnfOf_foldl_and t ss).symm

/-- The negated premise of a rule is read back as the literals that it was made of. -/
theorem exists_conj? (hls : ls ≠ []) (hneg : ∀ l ∈ ls, l.positive = false) :
    ∃ s, conj? (ls.map fun l => .atom l.atom) = some s ∧ (s.nnfOf true).disjuncts = .ok ls := by
  have hmap : (ls.map fun l => Sentence.atom l.atom).map (nnfOf true) = ls.map Literal.toSentence := by
    rw [List.map_map]
    refine List.map_congr_left fun l hl => ?_
    simp [Literal.toSentence, nnfOf, hneg l hl]
  obtain ⟨t, ht, hread⟩ := exists_disj? hls
  obtain ⟨s, hs⟩ : ∃ s, conj? (ls.map fun l => Sentence.atom l.atom) = some s := by
    obtain ⟨l, ls, rfl⟩ := List.exists_cons_of_ne_nil hls
    exact ⟨_, rfl⟩
  have heq := nnfOf_of_conj? hs
  rw [hmap, ht] at heq
  cases heq
  exact ⟨s, hs, hread⟩

end Sentence

/-! ## Clauses and rules -/

namespace Clause

theorem perm_negatives_positives (c : Clause) : (c.negatives ++ c.positives).Perm c.literals := by
  have h := List.filter_append_perm (fun l : Literal => !l.positive) c.literals
  simpa only [Bool.not_not, negatives, positives] using h

/-- The clause with its negative literals first, as an implication lists them. -/
def negativesFirst (c : Clause) : Clause :=
  ⟨c.negatives ++ c.positives, c.perm_negatives_positives.nodup_iff.mpr c.nodup⟩

theorem mem_negativesFirst {c : Clause} {l : Literal} : l ∈ c.negativesFirst ↔ l ∈ c :=
  c.perm_negatives_positives.mem_iff

theorem isTautology_negativesFirst (c : Clause) : c.negativesFirst.isTautology = c.isTautology := by
  rw [Bool.eq_iff_iff, isTautology_iff, isTautology_iff]
  simp only [mem_negativesFirst]

/-- The implication of a rule has a disjunction for its normal form, with the negative literals first. -/
theorem exists_toImplication? {c : Clause} (h : c.isRule = true) :
    ∃ s, c.toImplication? = some s ∧ s.nnf.disjuncts = .ok c.negativesFirst.literals := by
  have ⟨hdef, hnegs⟩ : c.positives.length = 1 ∧ 0 < c.negatives.length := by
    simpa [isRule, isDefinite] using h
  obtain ⟨p, hp⟩ := List.length_eq_one_iff.mp hdef
  have hpos : p.positive = true := (List.mem_filter.mp (hp ▸ List.mem_singleton_self p)).2
  have hneg : ∀ l ∈ c.negatives, l.positive = false := fun l hl => by
    simpa using (List.mem_filter.mp hl).2
  obtain ⟨s, hs, hread⟩ := Sentence.exists_conj? (List.ne_nil_of_length_pos hnegs) hneg
  have hhead : (Sentence.atom p.atom).disjuncts = .ok [p] := by
    have hp' := Sentence.disjuncts_toSentence p
    rwa [Literal.toSentence, if_pos hpos] at hp'
  refine ⟨.implies s (.atom p.atom), ?_, ?_⟩
  · simp [toImplication?, h, hs, hp]
  · have hread := Sentence.disjuncts_or hread hhead
    rwa [← hp] at hread

end Clause

namespace Converter

/-- If the normal form of a sentence is a disjunction of literals, then the sentence becomes the clause
of these literals, and no Skolem symbol is used up. -/
theorem convert_of_disjuncts (k : Converter) {s : Sentence} {ls : List Literal}
    (h : s.nnf.disjuncts = .ok ls) (ht : (Clause.ofList ls).isTautology = false) :
    k.convert s = .ok ([.ofList ls], k) := by
  have hshape := Sentence.disjunctive_of_disjuncts h
  have hnormal : s.eliminate.nnf.standardize = s.nnf := by
    have helim : s.eliminate.nnf = s.nnf := Sentence.nnfOf_eliminate s false
    rw [helim, Sentence.standardize_of_matrix hshape.matrix]
  have hskolem : k.skolemize s.nnf = .ok (s.nnf, k) :=
    Except.bind_eq_ok.mpr ⟨_, Sentence.skolemizeUnder_of_matrix hshape.matrix _ _, rfl⟩
  unfold convert
  rw [hnormal]
  refine Except.bind_eq_ok.mpr ⟨_, hskolem, ?_⟩
  refine Except.bind_eq_ok.mpr ⟨_, Sentence.dropUniversals_of_matrix hshape.matrix, ?_⟩
  refine Except.bind_eq_ok.mpr ⟨_, Sentence.distribute_of_disjunctive hshape, ?_⟩
  exact Except.bind_eq_ok.mpr ⟨_, Sentence.extract_of_disjuncts h ht, rfl⟩

/-- Whatever a converter has issued before, it takes the sentence of a clause back to that clause, and
the implication of a rule to the rule's literals with the negative ones first. It issues nothing for
them. -/
theorem convert_clause_sentence (k : Converter) (c : Clause) (ht : c.isTautology = false) :
    (c.isEmpty = false → ∃ s, c.toSentence? = some s ∧ k.convert s = .ok ([c], k)) ∧
    (c.isRule = true → ∃ s d, c.toImplication? = some s ∧ k.convert s = .ok ([d], k) ∧
      d.literals = c.negatives ++ c.positives ∧ d.same c = true) := by
  refine ⟨fun hne => ?_, fun hrule => ?_⟩
  · obtain ⟨s, hs, hread⟩ := Sentence.exists_disj? (List.isEmpty_eq_false_iff.mp hne)
    have hnnf := Sentence.nnf_of_isNNF (Sentence.disjunctive_of_disjuncts hread).isNNF
    have hconv := k.convert_of_disjuncts (hnnf.symm ▸ hread) (by rwa [Clause.ofList_literals])
    rw [Clause.ofList_literals] at hconv
    exact ⟨s, hs, hconv⟩
  · obtain ⟨s, hs, hread⟩ := Clause.exists_toImplication? hrule
    have hconv := k.convert_of_disjuncts hread
      (by rwa [Clause.ofList_literals, Clause.isTautology_negativesFirst])
    rw [Clause.ofList_literals] at hconv
    exact ⟨s, _, hs, hconv, rfl, Clause.same_iff.mpr fun l => Clause.mem_negativesFirst⟩

/-- `Ancestor(x,z) | ~Parent(x,y) | ~Ancestor(y,z)`. -/
def ancestors : Clause :=
  .ofList [.pos (.pred "Ancestor" [.var ⟨"x"⟩, .var ⟨"z"⟩]),
    .neg (.pred "Parent" [.var ⟨"x"⟩, .var ⟨"y"⟩]), .neg (.pred "Ancestor" [.var ⟨"y"⟩, .var ⟨"z"⟩])]

theorem ancestors_sentence :
    (∃ s, ancestors.toSentence? = some s ∧ convert ⟨3⟩ s = .ok ([ancestors], ⟨3⟩)) ∧
    ∃ s d, ancestors.toImplication? = some s ∧ convert ⟨3⟩ s = .ok ([d], ⟨3⟩) ∧
      d.literals = ancestors.negatives ++ ancestors.positives ∧ d.same ancestors = true := by
  have h := convert_clause_sentence ⟨3⟩ ancestors (by decide +kernel)
  exact ⟨h.1 (by decide +kernel), h.2 (by decide +kernel)⟩

end Converter

end Refutation
