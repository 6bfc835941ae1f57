import Refutation.Proofs.Conversion
import Refutation.Proofs.Shape

/-!
# What the normal forms are

The negation normal form and the clausal form, by what holds of every result. The stages before and
after are in `Refutation.Proofs.Conversion` (truth) and `Refutation.Proofs.Shape` (shapes).

* `Sentence.nnf_canonical`: the negation normal form is one, is equivalent to the sentence, is its own
  normal form, and does not depend on whether implications were eliminated before.
* `Converter.convert_proper`: every sentence is converted, each stage gets what it accepts, and the
  clauses are neither empty nor tautologies nor repetitions of each other.
-/

namespace Refutation

universe u

namespace Sentence

/-! ## Negation normal form -/

theorem nnf_of_isNNF {s : Sentence} (h : s.isNNF = true) : s.nnf = s := by
  induction s with
  | atom a => rfl
  | not s =>
    cases s with
    | atom a => rfl
    | _ => cases h
  | and l r ihl ihr =>
    rw [isNNF, Bool.and_eq_true] at h
    exact congrArg₂ and (ihl h.1) (ihr h.2)
  | or l r ihl ihr =>
    rw [isNNF, Bool.and_eq_true] at h
    exact congrArg₂ or (ihl h.1) (ihr h.2)
  | implies l r | iff l r => cases h
  | quant q vs s ih => exact congrArg (quant q vs) (ih h)

/-- Negations move in over an implication as they do over what it is exchanged for. -/
theorem nnfOf_eliminate (s : Sentence) (negated : Bool) :
    s.eliminate.nnfOf negated = s.nnfOf negated := by
  induction s generalizing negated with
  | atom a => rfl
  | not s ih => exact ih _
  | and l r ihl ihr | or l r ihl ihr | implies l r ihl ihr | iff l r ihl ihr =>
    cases negated <;> simp [eliminate, nnfOf, ihl, ihr]
  | quant q vs s ih => rw [eliminate, nnfOf, nnfOf, ih]

/-- The normal form of a sentence is in normal form and says what the sentence says. A second pass
leaves it as it is, and a first pass that eliminates implications makes no difference. -/
theorem nnf_canonical (s : Sentence) :
    s.nnf.isNNF = true ∧
      (∀ (D : Type u) (I : Interpretation D) (v : Var → D), s.nnf.Holds I v ↔ s.Holds I v) ∧
      s.nnf.nnf = s.nnf ∧ s.eliminate.nnf = s.nnf := by
  have hnormal : s.nnf.isNNF = true := isNNF_nnfOf s false
  exact ⟨hnormal, fun _ _ _ => holds_nnf, nnf_of_isNNF hnormal, nnfOf_eliminate s false⟩

/-! ## Clauses -/

theorem disjuncts_ne_nil {s : Sentence} {ls : List Literal} (h : s.disjuncts = .ok ls) : ls ≠ [] := by
  induction s generalizing ls with
  | atom a => cases h; exact List.cons_ne_nil _ _
  | not s =>
    cases s with
    | atom a => cases h; exact List.cons_ne_nil _ _
    | _ => cases h
  | or l r ihl ihr =>
    obtain ⟨ls₁, ls₂, hl, hr, rfl⟩ := Except.bind₂_eq_ok.mp h
    exact List.append_ne_nil_of_left_ne_nil (ihl hl) ls₂
  | and l r | implies l r | iff l r | quant q vs s => cases h

theorem isEmpty_of_mem_extract {s : Sentence} {cs : List Clause} (h : s.extract = .ok cs) {c : Clause}
    (hc : c ∈ cs) : c.isEmpty = false := by
  obtain ⟨-, t, -, ls, hls, rfl⟩ := exists_of_mem_extract h hc
  obtain ⟨l, hl⟩ := List.exists_mem_of_ne_nil ls (disjuncts_ne_nil hls)
  have hmem : l ∈ Clause.ofList ls := Clause.mem_ofList.mpr hl
  exact List.isEmpty_eq_false_iff_exists_mem.mpr ⟨l, hmem⟩

theorem pairwise_extract {s : Sentence} {cs : List Clause} (h : s.extract = .ok cs) :
    cs.Pairwise fun c d => ¬∀ l, l ∈ c ↔ l ∈ d := by
  obtain ⟨ds, hds, h⟩ := Except.bind_eq_ok.mp h
  cases h
  refine (pairwise_eraseDupsBy _).imp fun {c d} hsame heq => ?_
  rw [Clause.same_iff.mpr fun l => (heq l).symm] at hsame
  cases hsame

end Sentence

/-- No conversion meets a shape that a stage has no rule for, and what it returns are proper clauses:
with literals, not always true, and no two with the same literals. -/
theorem Converter.convert_proper (c : Converter) (s : Sentence) :
    ∃ c' t m n cs, Stages c c' s t m n cs ∧ c.convert s = .ok (cs, c') ∧
      (∀ d ∈ cs, d.isEmpty = false ∧ d.isTautology = false) ∧
      cs.Pairwise fun d e => ¬∀ l, l ∈ d ↔ l ∈ e := by
  obtain ⟨c', t, m, n, cs, h⟩ := c.stages_total s
  refine ⟨c', t, m, n, cs, h, h.convert, fun d hd => ⟨?_, ?_⟩, ?_⟩
  · exact Sentence.isEmpty_of_mem_extract h.extracted hd
  · exact (Sentence.exists_of_mem_extract h.extracted hd).1
  · exact Sentence.pairwise_extract h.extracted

end Refutation
