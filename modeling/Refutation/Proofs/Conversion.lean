import Refutation.Proofs.Binders
import Refutation.Proofs.Skolem

/-!
# Conversion to clauses

The stages of the conversion, one by one: each keeps what the sentence says or, from skolemization
on, whether it can be true, and none of them makes up terms but Skolem terms.

* `Sentence.holds_eliminate`, `Sentence.holds_nnfOf`, `Sentence.holds_of_dropUniversals`,
  `Sentence.holds_distribute`, `Sentence.clause_of_extract`: the truth of each stage, and back
  (`Sentence.holds_of_matrix`, `Sentence.holds_of_extract`).
* `Sentence.exists_of_mem_extract`, `Sentence.exists_mem_extract`: which clauses are extracted.
* `Converter.convert_allTerms`: properties of terms that the clauses inherit.
* `Converter.convert_sound`: where a sentence is true, its clauses are after a choice of meanings
  for new Skolem symbols.
* `Converter.convert_faithful`: where the clauses are true, so is the sentence.
-/

namespace Refutation

universe u

variable {D : Type u} {I : Interpretation D} {v : Var → D}

namespace Sentence

/-! ## Negation normal form -/

theorem holds_eliminate {s : Sentence} : s.eliminate.Holds I v ↔ s.Holds I v := by
  induction s generalizing v with
  | atom a => rfl
  | not s ih => exact not_congr ih
  | and l r ihl ihr => exact and_congr ihl ihr
  | or l r ihl ihr => exact or_congr ihl ihr
  | implies l r ihl ihr =>
    simp only [eliminate, Holds, ihl, ihr]
    exact imp_iff_not_or.symm
  | iff l r ihl ihr =>
    simp only [eliminate, Holds, ihl, ihr]
    rw [← imp_iff_not_or, ← imp_iff_not_or]
    exact iff_def.symm
  | quant q vs s ih =>
    rw [eliminate, holds_quant, holds_quant]
    exact Quantifier.over_congr fun w _ => ih

theorem atoms_eliminate {s : Sentence} {a : Atom} (h : a ∈ s.eliminate.atoms) : a ∈ s.atoms := by
  induction s with
  | atom b => exact h
  | not s ih => exact ih h
  | and l r ihl ihr | or l r ihl ihr | implies l r ihl ihr =>
    exact List.mem_append.mpr ((List.mem_append.mp h).imp ihl ihr)
  | iff l r ihl ihr =>
    simp only [eliminate, atoms, List.mem_append] at h ⊢
    exact h.elim (fun h => h.imp ihl ihr) fun h => (h.imp ihr ihl).symm
  | quant q vs s ih => exact ih h

theorem holds_nnfOf {s : Sentence} {negated : Bool} :
    (s.nnfOf negated).Holds I v ↔ if negated then ¬s.Holds I v else s.Holds I v := by
  induction s generalizing negated v with
  | atom a => cases negated <;> rfl
  | not s ih =>
    rw [nnfOf, ih]
    cases negated <;> simp [Holds]
  | and l r ihl ihr =>
    cases negated <;> simp only [nnfOf, Holds, ihl, ihr, if_true, Bool.false_eq_true, if_false]
    tauto
  | or l r ihl ihr | implies l r ihl ihr | iff l r ihl ihr =>
    cases negated <;> simp only [nnfOf, Holds, ihl, ihr, if_true, Bool.false_eq_true, if_false] <;> tauto
  | quant q vs s ih =>
    cases negated with
    | false =>
      simp only [nnfOf, Bool.false_eq_true, if_false, holds_quant]
      exact Quantifier.over_congr fun w _ => by rw [ih]; simp
    | true =>
      simp only [nnfOf, if_true, holds_quant, Quantifier.not_over]
      exact Quantifier.over_congr fun w _ => by rw [ih]; simp

theorem holds_nnf {s : Sentence} : s.nnf.Holds I v ↔ s.Holds I v := by
  rw [nnf, holds_nnfOf]
  simp

theorem atoms_nnfOf {s : Sentence} {negated : Bool} {a : Atom} (h : a ∈ (s.nnfOf negated).atoms) :
    a ∈ s.atoms := by
  induction s generalizing negated with
  | atom b => cases negated <;> exact h
  | not s ih => exact ih h
  | and l r ihl ihr | or l r ihl ihr | implies l r ihl ihr =>
    cases negated <;> exact List.mem_append.mpr ((List.mem_append.mp h).imp ihl ihr)
  | iff l r ihl ihr =>
    cases negated <;>
    · simp only [nnfOf, Bool.false_eq_true, if_false, if_true, atoms, List.mem_append] at h ⊢
      exact h.elim (fun h => h.imp ihl ihr) fun h => (h.imp ihr ihl).symm
  | quant q vs s ih => exact ih h

/-! ## The matrix -/

theorem holds_of_dropUniversals {s s' : Sentence} (h : s.dropUniversals = .ok s') (hs : s.Holds I v) :
    s'.Holds I v := by
  induction s generalizing s' with
  | atom a => cases h; exact hs
  | not s => cases h; exact hs
  | and l r ihl ihr =>
    obtain ⟨l', r', hl, hr, rfl⟩ := Except.bind₂_eq_ok.mp h
    exact ⟨ihl hl hs.1, ihr hr hs.2⟩
  | or l r ihl ihr =>
    obtain ⟨l', r', hl, hr, rfl⟩ := Except.bind₂_eq_ok.mp h
    exact hs.imp (ihl hl) (ihr hr)
  | implies l r | iff l r => cases h
  | quant q vs s ih =>
    cases q with
    | all => exact ih h (hs v fun _ _ => rfl)
    | ex => cases h

theorem free_dropUniversals {s s' : Sentence} (h : s.dropUniversals = .ok s') {x : Var}
    (hx : s'.Free x) : s.Free x ∨ x ∈ s.binders := by
  induction s generalizing s' with
  | atom a => cases h; exact .inl hx
  | not s => cases h; exact .inl hx
  | and l r ihl ihr | or l r ihl ihr =>
    obtain ⟨l', r', hl, hr, rfl⟩ := Except.bind₂_eq_ok.mp h
    rcases hx with hx | hx
    · exact (ihl hl hx).imp .inl (List.mem_append_left _)
    · exact (ihr hr hx).imp .inr (List.mem_append_right _)
  | implies l r | iff l r => cases h
  | quant q vs s ih =>
    cases q with
    | ex => cases h
    | all =>
      by_cases hxv : x ∈ vs
      · exact .inr (List.mem_append_left _ hxv)
      · exact (ih h hx).imp (fun hx => ⟨hxv, hx⟩) (List.mem_append_right _)

/-- Quantifiers come out of a disjunction, each on its own side, if neither binds what the other side
speaks of. -/
theorem holds_or_of_forall {l r : Sentence} {xs ys : List Var} (hl : ∀ x, l.Free x → x ∉ ys)
    (hr : ∀ x, r.Free x → x ∉ xs)
    (h : ∀ w, AgreeOff (xs ++ ys) v w → l.Holds I w ∨ r.Holds I w) :
    (∀ w, AgreeOff xs v w → l.Holds I w) ∨ ∀ w, AgreeOff ys v w → r.Holds I w := by
  classical
  by_contra hno
  push Not at hno
  obtain ⟨⟨w₁, hw₁, hl'⟩, w₂, hw₂, hr'⟩ := hno
  -- Values that make the left side false and values that do so for the right go together.
  have hw : AgreeOff (xs ++ ys) v fun x => if x ∈ xs then w₁ x else w₂ x := by
    intro x hx
    rw [List.mem_append, not_or] at hx
    exact (if_neg hx.1).trans (hw₂ x hx.2)
  rcases h _ hw with h | h
  · refine hl' ((holds_congr fun x hx => ?_).mp h)
    by_cases hxs : x ∈ xs
    · rw [if_pos hxs]
    · rw [if_neg hxs, hw₁ x hxs, hw₂ x (hl x hx)]
  · exact hr' ((holds_congr fun x hx => if_neg (hr x hx)).mp h)

/-- Dropped quantifiers come back, if no variable is bound twice or both bound and free: the matrix
has to hold for all values of the bound variables. -/
theorem holds_of_matrix {s s' : Sentence} (h : s.dropUniversals = .ok s') (hnd : s.binders.Nodup)
    (hfree : ∀ x, s.Free x → x ∉ s.binders) (hs : ∀ w, AgreeOff s.binders v w → s'.Holds I w) :
    s.Holds I v := by
  induction s generalizing s' v with
  | atom a => cases h; exact hs v fun _ _ => rfl
  | not s => cases h; exact hs v fun _ _ => rfl
  | and l r ihl ihr =>
    obtain ⟨l', r', hl, hr, rfl⟩ := Except.bind₂_eq_ok.mp h
    simp only [binders, List.mem_append, not_or] at hfree
    obtain ⟨hndl, hndr, -⟩ := List.nodup_append.mp hnd
    refine ⟨ihl hl hndl (fun x hx => (hfree x (.inl hx)).1) fun w hw => ?_,
      ihr hr hndr (fun x hx => (hfree x (.inr hx)).2) fun w hw => ?_⟩
    · exact (hs w fun x hx => hw x fun hb => hx (List.mem_append_left _ hb)).1
    · exact (hs w fun x hx => hw x fun hb => hx (List.mem_append_right _ hb)).2
  | or l r ihl ihr =>
    obtain ⟨l', r', hl, hr, rfl⟩ := Except.bind₂_eq_ok.mp h
    simp only [binders, List.mem_append, not_or] at hfree
    obtain ⟨hndl, hndr, hdisj⟩ := List.nodup_append.mp hnd
    have hleft : ∀ x, l'.Free x → x ∉ r.binders := fun x hx hb =>
      (free_dropUniversals hl hx).elim (fun hx => (hfree x (.inl hx)).2 hb) fun hx => hdisj x hx x hb rfl
    have hright : ∀ x, r'.Free x → x ∉ l.binders := fun x hx hb =>
      (free_dropUniversals hr hx).elim (fun hx => (hfree x (.inr hx)).1 hb) fun hx => hdisj x hb x hx rfl
    exact (holds_or_of_forall hleft hright hs).imp
      (ihl hl hndl fun x hx => (hfree x (.inl hx)).1) (ihr hr hndr fun x hx => (hfree x (.inr hx)).2)
  | implies l r | iff l r => cases h
  | quant q vs s ih =>
    cases q with
    | ex => cases h
    | all =>
      obtain ⟨-, hnds, hdisj⟩ := List.nodup_append.mp hnd
      intro w hw
      refine ih h hnds (fun x hx hb => ?_) fun w' hw' => hs w' fun x hx => ?_
      · by_cases hxv : x ∈ vs
        · exact hdisj x hxv x hb rfl
        · exact hfree x ⟨hxv, hx⟩ (List.mem_append_right _ hb)
      · simp only [binders, List.mem_append, not_or] at hx
        rw [hw' x hx.2, hw x hx.1]

theorem atoms_dropUniversals {s s' : Sentence} (h : s.dropUniversals = .ok s') {a : Atom}
    (ha : a ∈ s'.atoms) : a ∈ s.atoms := by
  induction s generalizing s' with
  | atom b => cases h; exact ha
  | not s => cases h; exact ha
  | and l r ihl ihr | or l r ihl ihr =>
    obtain ⟨l', r', hl, hr, rfl⟩ := Except.bind₂_eq_ok.mp h
    exact List.mem_append.mpr ((List.mem_append.mp ha).imp (ihl hl) (ihr hr))
  | implies l r | iff l r => cases h
  | quant q vs s ih =>
    cases q with
    | all => exact ih h ha
    | ex => cases h

theorem holds_orRight {l r : Sentence} : (orRight l r).Holds I v ↔ l.Holds I v ∨ r.Holds I v := by
  induction r with
  | and a b iha ihb =>
    rw [orRight, Holds, iha, ihb, Holds]
    exact or_and_left.symm
  | _ => rfl

theorem holds_orBoth {l r : Sentence} : (orBoth l r).Holds I v ↔ l.Holds I v ∨ r.Holds I v := by
  induction l with
  | and a b iha ihb =>
    rw [orBoth, Holds, iha, ihb, Holds]
    exact and_or_right.symm
  | _ => exact holds_orRight

theorem atoms_orRight {l r : Sentence} {a : Atom} (h : a ∈ (orRight l r).atoms) :
    a ∈ l.atoms ∨ a ∈ r.atoms := by
  induction r with
  | and x y ihx ihy =>
    simp only [orRight, atoms, List.mem_append] at h ⊢
    tauto
  | _ => exact List.mem_append.mp h

theorem atoms_orBoth {l r : Sentence} {a : Atom} (h : a ∈ (orBoth l r).atoms) :
    a ∈ l.atoms ∨ a ∈ r.atoms := by
  induction l with
  | and x y ihx ihy =>
    simp only [orBoth, atoms, List.mem_append] at h ⊢
    tauto
  | _ => exact atoms_orRight h

theorem holds_distribute {s s' : Sentence} (h : s.distribute = .ok s') :
    s'.Holds I v ↔ s.Holds I v := by
  induction s generalizing s' with
  | atom a => cases h; rfl
  | not s => cases h; rfl
  | and l r ihl ihr =>
    obtain ⟨l', r', hl, hr, rfl⟩ := Except.bind₂_eq_ok.mp h
    exact and_congr (ihl hl) (ihr hr)
  | or l r ihl ihr =>
    obtain ⟨l', r', hl, hr, rfl⟩ := Except.bind₂_eq_ok.mp h
    exact holds_orBoth.trans (or_congr (ihl hl) (ihr hr))
  | implies l r | iff l r | quant q vs s => cases h

theorem atoms_distribute {s s' : Sentence} (h : s.distribute = .ok s') {a : Atom}
    (ha : a ∈ s'.atoms) : a ∈ s.atoms := by
  induction s generalizing s' with
  | atom b => cases h; exact ha
  | not s => cases h; exact ha
  | and l r ihl ihr =>
    obtain ⟨l', r', hl, hr, rfl⟩ := Except.bind₂_eq_ok.mp h
    exact List.mem_append.mpr ((List.mem_append.mp ha).imp (ihl hl) (ihr hr))
  | or l r ihl ihr =>
    obtain ⟨l', r', hl, hr, rfl⟩ := Except.bind₂_eq_ok.mp h
    exact List.mem_append.mpr ((atoms_orBoth ha).imp (ihl hl) (ihr hr))
  | implies l r | iff l r | quant q vs s => cases h

/-! ## Clauses -/

theorem conjunct_of_mem {s c : Sentence} (h : c ∈ s.conjuncts) :
    (∀ a ∈ c.atoms, a ∈ s.atoms) ∧ (s.Holds I v → c.Holds I v) := by
  induction s with
  | and l r ihl ihr =>
    rcases List.mem_append.mp h with h | h
    · obtain ⟨ha, hh⟩ := ihl h
      exact ⟨fun a hm => List.mem_append_left _ (ha a hm), fun hs => hh hs.1⟩
    · obtain ⟨ha, hh⟩ := ihr h
      exact ⟨fun a hm => List.mem_append_right _ (ha a hm), fun hs => hh hs.2⟩
  | _ =>
    cases List.mem_singleton.mp h
    exact ⟨fun _ hm => hm, fun hs => hs⟩

theorem holds_of_conjuncts {s : Sentence} (h : ∀ c ∈ s.conjuncts, c.Holds I v) : s.Holds I v := by
  induction s with
  | and l r ihl ihr =>
    rw [conjuncts, List.forall_mem_append] at h
    exact ⟨ihl h.1, ihr h.2⟩
  | _ => exact h _ List.mem_cons_self

theorem disjuncts_ok {s : Sentence} {ls : List Literal} (h : s.disjuncts = .ok ls) :
    (∀ l ∈ ls, l.atom ∈ s.atoms) ∧ (s.Holds I v ↔ ∃ l ∈ ls, l.Holds I v) := by
  induction s generalizing ls with
  | atom a =>
    cases h
    exact ⟨fun l hl => by cases List.mem_singleton.mp hl; simp [Literal.pos, atoms],
      by simp [Holds, Literal.pos, Literal.Holds]⟩
  | not s =>
    cases s with
    | atom a =>
      cases h
      exact ⟨fun l hl => by cases List.mem_singleton.mp hl; simp [Literal.neg, atoms],
        by simp [Holds, Literal.neg, Literal.Holds]⟩
    | _ => cases h
  | or l r ihl ihr =>
    obtain ⟨ls₁, ls₂, hl, hr, rfl⟩ := Except.bind₂_eq_ok.mp h
    obtain ⟨ha₁, hh₁⟩ := ihl hl
    obtain ⟨ha₂, hh₂⟩ := ihr hr
    refine ⟨fun l hl => ?_, ?_⟩
    · exact List.mem_append.mpr ((List.mem_append.mp hl).imp (ha₁ l) (ha₂ l))
    · simp only [Holds, hh₁, hh₂, List.mem_append, or_and_right, exists_or]
  | and l r | implies l r | iff l r | quant q vs s => cases h

/-- An extracted clause has the literals of a conjunct and is no tautology. -/
theorem exists_of_mem_extract {s : Sentence} {cs : List Clause} (h : s.extract = .ok cs) {c : Clause}
    (hc : c ∈ cs) :
    c.isTautology = false ∧ ∃ t ∈ s.conjuncts, ∃ ls, t.disjuncts = .ok ls ∧ c = .ofList ls := by
  obtain ⟨ds, hds, h⟩ := Except.bind_eq_ok.mp h
  cases h
  obtain ⟨hd, htaut⟩ := List.mem_filter.mp (mem_of_mem_eraseDupsBy hc)
  obtain ⟨t, ht, hct⟩ := Except.mem_of_mapM_eq_ok hds hd
  obtain ⟨ls, hls, rfl⟩ := Except.map_eq_ok.mp hct
  exact ⟨by simpa using htaut, t, ht, ls, hls, rfl⟩

/-- The literals of a conjunct are those of an extracted clause, unless they make a tautology. -/
theorem exists_mem_extract {s t : Sentence} {cs : List Clause} (h : s.extract = .ok cs)
    (ht : t ∈ s.conjuncts) : ∃ ls, t.disjuncts = .ok ls ∧
      ((Clause.ofList ls).isTautology = false → ∃ c ∈ cs, c.same (.ofList ls) = true) := by
  obtain ⟨ds, hds, h⟩ := Except.bind_eq_ok.mp h
  cases h
  obtain ⟨d, hd, hct⟩ := Except.exists_of_mapM_eq_ok hds ht
  obtain ⟨ls, hls, rfl⟩ := Except.map_eq_ok.mp hct
  refine ⟨ls, hls, fun htaut => ?_⟩
  have hkept : Clause.ofList ls ∈ ds.filter (!·.isTautology) :=
    List.mem_filter.mpr ⟨hd, by simpa using htaut⟩
  obtain ⟨c, hc, rfl | hsame⟩ := exists_mem_eraseDupsBy (r := Clause.same) hkept
  · exact ⟨_, hc, Clause.same_refl _⟩
  · exact ⟨c, hc, Clause.same_symm hsame⟩

/-- Every clause of the extracted ones is a disjunction that the sentence implies. -/
theorem clause_of_extract {s : Sentence} {cs : List Clause} (h : s.extract = .ok cs) {c : Clause}
    (hc : c ∈ cs) : (∀ l ∈ c, l.atom ∈ s.atoms) ∧ (s.Holds I v → c.Holds I v) := by
  obtain ⟨-, t, ht, ls, hls, rfl⟩ := exists_of_mem_extract h hc
  obtain ⟨ha, hh⟩ := conjunct_of_mem (I := I) (v := v) ht
  obtain ⟨ha', hh'⟩ := disjuncts_ok (I := I) (v := v) hls
  refine ⟨fun l hl => ha _ (ha' l (Clause.mem_ofList.mp hl)), fun hs => ?_⟩
  exact Clause.holds_ofList.mpr (hh'.mp (hh hs))

/-- Tautologies and repetitions apart, the clauses say all that the sentence says. -/
theorem holds_of_extract {s : Sentence} {cs : List Clause} (h : s.extract = .ok cs)
    (hcs : ∀ c ∈ cs, c.Holds I v) : s.Holds I v := by
  refine holds_of_conjuncts fun t ht => ?_
  obtain ⟨ls, hls, hkept⟩ := exists_mem_extract h ht
  rw [(disjuncts_ok hls).2, ← Clause.holds_ofList]
  by_cases htaut : (Clause.ofList ls).isTautology = true
  · exact Clause.trueIn_of_isTautology htaut I v
  · obtain ⟨c, hc, hsame⟩ := hkept (by simpa using htaut)
    exact (Clause.holds_of_same hsame).mp (hcs c hc)

end Sentence

/-! ## The whole conversion -/

namespace Converter

/-- The stages of a conversion that succeeds. -/
theorem convert_stages {c c' : Converter} {s : Sentence} {cs : List Clause}
    (h : c.convert s = .ok (cs, c')) : ∃ t m n,
      Skolemizes s.eliminate.nnf.standardize.free c.issued s.eliminate.nnf.standardize t c'.issued ∧
      t.dropUniversals = .ok m ∧ m.distribute = .ok n ∧ n.extract = .ok cs := by
  obtain ⟨⟨t, c₁⟩, hsk, h⟩ := Except.bind_eq_ok.mp h
  obtain ⟨m, hdrop, h⟩ := Except.bind_eq_ok.mp h
  obtain ⟨n, hdist, h⟩ := Except.bind_eq_ok.mp h
  obtain ⟨cs', hext, h⟩ := Except.bind_eq_ok.mp h
  cases h
  obtain ⟨⟨t', k⟩, hunder, h⟩ := Except.bind_eq_ok.mp hsk
  cases h
  exact ⟨t, m, n, skolemizes_of_ok hunder, hdrop, hdist, hext⟩

/-- A conversion that succeeds skolemizes the standardized normal form, and its clauses follow from
the result. The result follows from them if its variables are distinct. -/
theorem convert_ok {c c' : Converter} {s : Sentence} {cs : List Clause}
    (h : c.convert s = .ok (cs, c')) :
    ∃ t, Skolemizes s.eliminate.nnf.standardize.free c.issued s.eliminate.nnf.standardize t c'.issued ∧
      (∀ d ∈ cs, (∀ l ∈ d, l.atom ∈ t.atoms) ∧
        ∀ (D : Type u) (I : Interpretation D) (v : Var → D), t.Holds I v → d.Holds I v) ∧
      (t.binders.Nodup → (∀ x, t.Free x → x ∉ t.binders) →
        ∀ (D : Type u) (I : Interpretation D), (∀ d ∈ cs, d.TrueIn I) → t.TrueIn I) := by
  obtain ⟨t, m, n, hsk, hdrop, hdist, hext⟩ := convert_stages h
  refine ⟨t, hsk, fun d hd => ⟨fun l hl => ?_, fun D I v ht => ?_⟩,
    fun hnd hfree D I hcs v => ?_⟩
  · have hatoms := (Sentence.clause_of_extract (I := Interpretation.free) (v := .var) hext hd).1
    exact Sentence.atoms_dropUniversals hdrop (Sentence.atoms_distribute hdist (hatoms l hl))
  · refine (Sentence.clause_of_extract hext hd).2 ?_
    exact (Sentence.holds_distribute hdist).mpr (Sentence.holds_of_dropUniversals hdrop ht)
  · refine Sentence.holds_of_matrix hdrop hnd hfree fun w _ => ?_
    exact (Sentence.holds_distribute hdist).mp (Sentence.holds_of_extract hext fun d hd => hcs d hd w)

theorem normalForm_allTerms {T : Term → Prop} (hT : Substitutive T) {s : Sentence}
    (hs : s.AllTerms T) : s.eliminate.nnf.standardize.AllTerms T := by
  refine Sentence.AllTerms.standardize hT fun a ha => hs a ?_
  exact Sentence.atoms_eliminate (Sentence.atoms_nnfOf ha)

variable {c c' : Converter} {s : Sentence} {cs : List Clause}

theorem issued_le (h : c.convert s = .ok (cs, c')) : c.issued ≤ c'.issued := by
  obtain ⟨t, hsk, -⟩ := convert_ok.{0} h
  exact hsk.le

/-- The terms of the clauses have every property of the sentence's terms that instances keep and
that the new Skolem terms have. -/
theorem convert_allTerms {T : Term → Prop} (hT : Substitutive T) (h : c.convert s = .ok (cs, c'))
    (hk : ∀ us n, c.issued ≤ n → n < c'.issued → T (skolemTerm us n)) (hs : s.AllTerms T) :
    ∀ d ∈ cs, ∀ l ∈ d, ∀ t ∈ l.atom.args, T t := by
  obtain ⟨t, hsk, hcs, -⟩ := convert_ok.{0} h
  have ht := hsk.allTerms hT hk (normalForm_allTerms hT hs)
  exact fun d hd l hl => ht l.atom ((hcs d hd).1 l hl)

theorem convert_wellFormed (h : c.convert s = .ok (cs, c'))
    (hs : s.AllTerms fun t => t.wellFormed = true) : ∀ d ∈ cs, d.wellFormed = true := by
  intro d hd
  rw [Clause.wellFormed_iff]
  intro l hl
  rw [Atom.wellFormed_iff]
  exact convert_allTerms substitutive_wellFormed h (fun us n _ _ => wellFormed_skolemTerm us n) hs d hd l hl

theorem skolemizable_normalForm {k : Nat} (hs : s.AllTerms (Term.Over (Symbol.Below k))) :
    s.eliminate.nnf.standardize.Skolemizable s.eliminate.nnf.standardize.free k := by
  obtain ⟨hnd, hapart⟩ := Sentence.standardize_distinct s.eliminate.nnf
  exact ⟨hnd, fun x hx => hapart x (Sentence.mem_free.mp hx), fun x hx => Sentence.mem_free.mpr hx,
    normalForm_allTerms (substitutive_over _) hs⟩

/-- Where a sentence is true, its clauses are true after a choice of meanings for the Skolem
symbols that are new. -/
theorem convert_sound (h : c.convert s = .ok (cs, c'))
    (hs : s.AllTerms (Term.Over (Symbol.Below c.issued))) {I : Interpretation D} (hI : s.TrueIn I) :
    ∃ J : Interpretation D, I.AgreeOn (Symbol.Below c.issued) J ∧ ∀ d ∈ cs, d.TrueIn J := by
  obtain ⟨t, hsk, hcs, -⟩ := convert_ok.{u} h
  obtain ⟨J, hJ, htJ⟩ := hsk.sound (skolemizable_normalForm hs) I
  refine ⟨J, hJ, fun d hd v => (hcs d hd).2 D J v (htJ v ?_)⟩
  rw [Sentence.holds_standardize, Sentence.holds_nnf, Sentence.holds_eliminate]
  exact hI v

/-- Where the clauses of a sentence are true, so is the sentence. -/
theorem convert_faithful (h : c.convert s = .ok (cs, c'))
    (hs : s.AllTerms (Term.Over (Symbol.Below c.issued))) {I : Interpretation D}
    (hI : ∀ d ∈ cs, d.TrueIn I) : s.TrueIn I := by
  obtain ⟨t, hsk, -, hback⟩ := convert_ok.{u} h
  have hsource := skolemizable_normalForm hs
  obtain ⟨hbinders, hfree⟩ := hsk.distinct hsource
  have ht := hback (hbinders.nodup hsource.nodup)
    (fun x hx hb => hsource.apart x (hfree x hx) (hbinders.subset hb)) D I hI
  intro v
  have hv := hsk.holds hsource (ht v)
  rwa [Sentence.holds_standardize, Sentence.holds_nnf, Sentence.holds_eliminate] at hv

end Converter

end Refutation
