import Refutation.Proofs.Conversion
import Refutation.Proofs.Shape

/-!
# Clausal form keeps the meaning

Sentences that are converted one after the other say what their clauses say, up to the meaning of
Skolem symbols: where the clauses are true the sentences are, and where the sentences are true the
clauses become true when the Skolem symbols that the conversions gave out change their meaning. No
other symbol has to change, so whatever else was true of them stays true.

* `Symbol.Plain`: symbols that are no Skolem symbols.
* `Symbol.Issued`: the Skolem symbols that conversions gave out.
* `Converter.convert_extends`: conversion keeps the meaning of clauses that were there before.
* `Interpretation.exists_change`: a change of meaning can be kept to the symbols given out.
* `Converter.convertAll_equisatisfiable`: sentences against their clauses.
-/

namespace Refutation

universe u

variable {D : Type u}

/-! ## Plain symbols -/

/-- The symbol is no Skolem symbol. -/
def Symbol.Plain (y : Symbol) : Prop := ∀ n, ¬y.IsSkolem n

theorem Symbol.Plain.below {y : Symbol} (h : y.Plain) (k : Nat) : y.Below k :=
  fun n hn => (h n hn).elim

theorem Symbol.plain_const {c : String} (h : c.toList.take 2 ≠ ['S', 'C']) : (Symbol.const c).Plain := by
  rintro n (hc | hc)
  · cases hc
    simp at h
  · cases hc

/-- Every term that is an argument in the clause has the property. -/
def Clause.AllTerms (T : Term → Prop) (c : Clause) : Prop := ∀ l ∈ c, ∀ t ∈ l.atom.args, T t

theorem Clause.AllTerms.over_mono {S S' : Symbol → Prop} {c : Clause} (h : c.AllTerms (Term.Over S))
    (hS : ∀ y, S y → S' y) : c.AllTerms (Term.Over S') := fun l hl t ht => (h l hl t ht).mono hS

theorem Sentence.AllTerms.plain_below {s : Sentence} (h : s.AllTerms (Term.Over Symbol.Plain))
    (k : Nat) : s.AllTerms (Term.Over (Symbol.Below k)) :=
  h.over_mono fun _ hy => hy.below k

namespace Interpretation.AgreeOn

variable {S : Symbol → Prop} {I J : Interpretation D}

theorem clause_trueIn (h : AgreeOn S I J) {c : Clause} (hc : c.AllTerms (Term.Over S))
    (hI : c.TrueIn I) : c.TrueIn J := by
  intro v
  obtain ⟨l, hl, hlv⟩ := hI v
  refine ⟨l, hl, ?_⟩
  rwa [Literal.Holds, ← h.atom_holds (hc l hl) v]

theorem sentence_trueIn (h : AgreeOn S I J) {s : Sentence} (hs : s.AllTerms (Term.Over S))
    (hI : s.TrueIn I) : s.TrueIn J := fun v => (h.holds hs v).mp (hI v)

end Interpretation.AgreeOn

/-! ## Conversion beside other clauses -/

namespace Converter

variable {c c' : Converter} {s : Sentence} {cs old : List Clause}

theorem convert_below (h : c.convert s = .ok (cs, c')) (hs : s.AllTerms (Term.Over Symbol.Plain)) :
    ∀ d ∈ cs, d.AllTerms (Term.Over (Symbol.Below c'.issued)) :=
  convert_allTerms (substitutive_over _) h (fun _ _ _ hn => over_skolemTerm hn) (hs.plain_below _)

/-- Where a sentence and some clauses are true, the clauses of the sentence become true by another
meaning of new Skolem symbols, and those there before stay true. -/
theorem convert_extends (h : c.convert s = .ok (cs, c')) (hs : s.AllTerms (Term.Over Symbol.Plain))
    (hold : ∀ d ∈ old, d.AllTerms (Term.Over (Symbol.Below c.issued))) {I : Interpretation D}
    (hI : s.TrueIn I) (hIold : ∀ d ∈ old, d.TrueIn I) :
    ∃ J : Interpretation D, I.AgreeOn (Symbol.Below c.issued) J ∧
      (∀ d ∈ old, d.TrueIn J) ∧ ∀ d ∈ cs, d.TrueIn J := by
  obtain ⟨J, hIJ, hJ⟩ := convert_sound h (hs.plain_below _) hI
  exact ⟨J, hIJ, fun d hd => hIJ.clause_trueIn (hold d hd) (hIold d hd), hJ⟩

end Converter

/-! ## Symbols of clauses -/

/-- The constants and function symbols from left to right, with repetitions. -/
def Clause.symbols (c : Clause) : List Symbol := c.literals.flatMap fun l => Term.symbolsList l.atom.args

theorem Clause.allTerms_over {S : Symbol → Prop} {c : Clause} :
    c.AllTerms (Term.Over S) ↔ ∀ y ∈ c.symbols, S y := by
  simp only [AllTerms, Term.Over, symbols, List.mem_flatMap, Term.mem_symbolsList]
  constructor
  · rintro h y ⟨l, hl, t, ht, hy⟩
    exact h l hl t ht y hy
  · exact fun h l hl t ht y hy => h y ⟨l, hl, t, ht, hy⟩

/-- The symbol is a Skolem symbol with a number from `k` to below `k'`, and stands in the clauses. -/
def Symbol.Issued (k k' : Nat) (cs : List Clause) (y : Symbol) : Prop :=
  (∃ n, k ≤ n ∧ n < k' ∧ y.IsSkolem n) ∧ ∃ c ∈ cs, y ∈ c.symbols

theorem Symbol.Below.not_issued {k k' : Nat} {cs : List Clause} {y : Symbol} (h : y.Below k) :
    ¬y.Issued k k' cs := by
  rintro ⟨⟨n, hn, -, hy⟩, -⟩
  have hlt := h n hy
  omega

namespace Interpretation

open Classical in
/-- The first interpretation, but with the given symbols read as in the second. -/
noncomputable def changed (S : Symbol → Prop) (I J : Interpretation D) : Interpretation D where
  const c := if S (.const c) then J.const c else I.const c
  func f := if S (.func f.name) then J.func f else I.func f
  pred := I.pred

variable {S : Symbol → Prop} {I J : Interpretation D}

theorem agreeOn_changed (hpred : I.pred = J.pred) : AgreeOn S J (changed S I J) where
  const c hc := by simp only [changed, if_pos hc]
  func f hf := by simp only [changed, if_pos hf]
  pred := hpred.symm

/-- If clauses become true by another meaning of Skolem symbols from `k` on, it is enough to change
those that stand in them. -/
theorem exists_change {k k' : Nat} (h : I.AgreeOn (Symbol.Below k) J) {cs : List Clause}
    (hcs : ∀ c ∈ cs, c.AllTerms (Term.Over (Symbol.Below k'))) (hJ : ∀ c ∈ cs, c.TrueIn J) :
    ∃ K : Interpretation D, I.AgreeOn (fun y => ¬y.Issued k k' cs) K ∧ ∀ c ∈ cs, c.TrueIn K := by
  have hbelow : ∀ y, (∃ c ∈ cs, y ∈ c.symbols) → ¬y.Issued k k' cs → y.Below k := by
    rintro y ⟨c, hc, hy⟩ hissued n hn
    have hlt := Clause.allTerms_over.mp (hcs c hc) y hy n hn
    by_contra hge
    exact hissued ⟨⟨n, by omega, hlt, hn⟩, c, hc, hy⟩
  refine ⟨changed (fun y => ∃ c ∈ cs, y ∈ c.symbols) I J, ⟨fun c hc => ?_, fun f hf => ?_, rfl⟩,
    fun c hc => (agreeOn_changed h.pred).clause_trueIn ?_ (hJ c hc)⟩
  · by_cases hin : ∃ d ∈ cs, Symbol.const c ∈ d.symbols
    · simp only [changed, if_pos hin]
      exact h.const c (hbelow _ hin hc)
    · simp only [changed, if_neg hin]
  · by_cases hin : ∃ d ∈ cs, Symbol.func f.name ∈ d.symbols
    · simp only [changed, if_pos hin]
      exact h.func f (hbelow _ hin hf)
    · simp only [changed, if_neg hin]
  · exact Clause.allTerms_over.mpr fun y hy => ⟨c, hc, hy⟩

end Interpretation

/-! ## Sequences of sentences -/

namespace Converter

/-- Converts sentences one after the other. -/
def convertAll (c : Converter) : List Sentence → Except ShapeFault (List Clause × Converter)
  | [] => .ok ([], c)
  | s :: ss => do
    let (cs, c) ← c.convert s
    let (ds, c) ← c.convertAll ss
    return (cs ++ ds, c)

variable {c c' : Converter} {ss : List Sentence} {cs : List Clause}

theorem convertAll_total (c : Converter) (ss : List Sentence) : ∃ r, c.convertAll ss = .ok r := by
  induction ss generalizing c with
  | nil => exact ⟨_, rfl⟩
  | cons s ss ih =>
    obtain ⟨⟨cs, c₁⟩, hs⟩ := c.convert_total s
    obtain ⟨⟨ds, c₂⟩, hss⟩ := ih c₁
    exact ⟨(cs ++ ds, c₂), Except.bind_eq_ok.mpr ⟨_, hs, Except.bind_eq_ok.mpr ⟨_, hss, rfl⟩⟩⟩

theorem convertAll_cons {s : Sentence} (h : c.convertAll (s :: ss) = .ok (cs, c')) :
    ∃ cs₁ c₁ cs₂, c.convert s = .ok (cs₁, c₁) ∧ c₁.convertAll ss = .ok (cs₂, c') ∧ cs = cs₁ ++ cs₂ := by
  obtain ⟨⟨cs₁, c₁⟩, hs, h⟩ := Except.bind_eq_ok.mp h
  obtain ⟨⟨cs₂, c₂⟩, hss, h⟩ := Except.bind_eq_ok.mp h
  cases h
  exact ⟨cs₁, c₁, cs₂, hs, hss, rfl⟩

theorem convertAll_le (h : c.convertAll ss = .ok (cs, c')) : c.issued ≤ c'.issued := by
  induction ss generalizing c cs with
  | nil => cases h; exact Nat.le_refl _
  | cons s ss ih =>
    obtain ⟨cs₁, c₁, cs₂, hs, hss, -⟩ := convertAll_cons h
    exact (issued_le hs).trans (ih hss)

theorem convertAll_below (h : c.convertAll ss = .ok (cs, c'))
    (hss : ∀ s ∈ ss, s.AllTerms (Term.Over Symbol.Plain)) :
    ∀ d ∈ cs, d.AllTerms (Term.Over (Symbol.Below c'.issued)) := by
  induction ss generalizing c cs with
  | nil => cases h; exact nofun
  | cons s ss ih =>
    obtain ⟨cs₁, c₁, cs₂, hs, hrest, rfl⟩ := convertAll_cons h
    rw [List.forall_mem_cons] at hss
    refine List.forall_mem_append.mpr ⟨fun d hd => ?_, ih hrest hss.2⟩
    exact (convert_below hs hss.1 d hd).over_mono fun _ hy => hy.mono (convertAll_le hrest)

/-- Where the clauses of all the sentences are true, so are the sentences. -/
theorem convertAll_faithful (h : c.convertAll ss = .ok (cs, c'))
    (hss : ∀ s ∈ ss, s.AllTerms (Term.Over Symbol.Plain)) {I : Interpretation D}
    (hI : ∀ d ∈ cs, d.TrueIn I) : ∀ s ∈ ss, s.TrueIn I := by
  induction ss generalizing c cs with
  | nil => exact nofun
  | cons s ss ih =>
    obtain ⟨cs₁, c₁, cs₂, hs, hrest, rfl⟩ := convertAll_cons h
    rw [List.forall_mem_cons] at hss
    rw [List.forall_mem_append] at hI
    exact List.forall_mem_cons.mpr ⟨convert_faithful hs (hss.1.plain_below _) hI.1, ih hrest hss.2 hI.2⟩

/-- Where the sentences and some older clauses are true, the clauses of the sentences become true by
another meaning of new Skolem symbols, and the older ones stay true. -/
theorem convertAll_extends {old : List Clause} (h : c.convertAll ss = .ok (cs, c'))
    (hss : ∀ s ∈ ss, s.AllTerms (Term.Over Symbol.Plain))
    (hold : ∀ d ∈ old, d.AllTerms (Term.Over (Symbol.Below c.issued))) {I : Interpretation D}
    (hI : ∀ s ∈ ss, s.TrueIn I) (hIold : ∀ d ∈ old, d.TrueIn I) :
    ∃ J : Interpretation D, I.AgreeOn (Symbol.Below c.issued) J ∧
      (∀ d ∈ old, d.TrueIn J) ∧ ∀ d ∈ cs, d.TrueIn J := by
  induction ss generalizing c cs old I with
  | nil => cases h; exact ⟨I, .refl I, hIold, nofun⟩
  | cons s ss ih =>
    obtain ⟨cs₁, c₁, cs₂, hs, hrest, rfl⟩ := convertAll_cons h
    rw [List.forall_mem_cons] at hss hI
    have hle := issued_le hs
    obtain ⟨J, hIJ, hJold, hJ⟩ := convert_extends hs hss.1 hold hI.1 hIold
    have hJss : ∀ s ∈ ss, s.TrueIn J := fun t ht =>
      hIJ.sentence_trueIn ((hss.2 t ht).plain_below _) (hI.2 t ht)
    -- The clauses of the first sentence are old ones to the rest.
    have hbelow : ∀ d ∈ old ++ cs₁, d.AllTerms (Term.Over (Symbol.Below c₁.issued)) :=
      List.forall_mem_append.mpr ⟨fun d hd => (hold d hd).over_mono fun _ hy => hy.mono hle,
        convert_below hs hss.1⟩
    obtain ⟨K, hJK, hK, hKnew⟩ := ih hrest hss.2 hbelow hJss (List.forall_mem_append.mpr ⟨hJold, hJ⟩)
    rw [List.forall_mem_append] at hK
    exact ⟨K, hIJ.trans hJK fun _ hy => hy.mono hle, hK.1, List.forall_mem_append.mpr ⟨hK.2, hKnew⟩⟩

/-- Sentences that do not speak of Skolem symbols are converted, one after the other. Where the clauses
are true so are the sentences, and where the sentences are true the clauses become true by a change
of the Skolem symbols given out, and of no other. -/
theorem convertAll_equisatisfiable (c : Converter) (ss : List Sentence)
    (hss : ∀ s ∈ ss, s.AllTerms (Term.Over Symbol.Plain)) :
    ∃ cs c', c.convertAll ss = .ok (cs, c') ∧ ∀ (D : Type u) (I : Interpretation D),
      ((∀ d ∈ cs, d.TrueIn I) → ∀ s ∈ ss, s.TrueIn I) ∧
      ((∀ s ∈ ss, s.TrueIn I) → ∃ K : Interpretation D,
        I.AgreeOn (fun y => ¬y.Issued c.issued c'.issued cs) K ∧ ∀ d ∈ cs, d.TrueIn K) := by
  obtain ⟨⟨cs, c'⟩, h⟩ := c.convertAll_total ss
  refine ⟨cs, c', h, fun D I => ⟨convertAll_faithful h hss, fun hI => ?_⟩⟩
  have hnone : ∀ d ∈ ([] : List Clause), d.AllTerms (Term.Over (Symbol.Below c.issued)) := nofun
  obtain ⟨J, hIJ, -, hJ⟩ := convertAll_extends h hss hnone hI nofun
  exact Interpretation.exists_change hIJ (convertAll_below h hss) hJ

end Converter

namespace Sentence

/-- Each `P` has a `Q`: the inner binder is named twice, and like the outer one; `z` is free. -/
def shadowed : Sentence :=
  .quant .all [⟨"x"⟩] (.implies (.atom (.pred "P" [.var ⟨"x"⟩]))
    (.quant .ex [⟨"x"⟩, ⟨"x"⟩] (.atom (.pred "Q" [.var ⟨"x"⟩, .var ⟨"z"⟩]))))

/-- There is a `P` just if `A` is one. -/
def someIffNamed : Sentence :=
  .iff (.quant .ex [⟨"y"⟩] (.atom (.pred "P" [.var ⟨"y"⟩]))) (.atom (.pred "P" [.const "A"]))

end Sentence

/-- Converted after three other Skolem symbols were given out, the two sentences use up three more, of
which two stand in the clauses. -/
theorem Converter.shadowed_equisatisfiable :
    ∃ cs c', (Converter.mk 3).convertAll [.shadowed, .someIffNamed] = .ok (cs, c') ∧
      cs.map Clause.text = ["~P(x) | Q(SF4(z,x),z)", "~P(y) | P(A)", "~P(A) | P(SC5)"] ∧
      c'.issued = 6 ∧ ∀ (D : Type) (I : Interpretation D),
        ((∀ d ∈ cs, d.TrueIn I) → ∀ s ∈ [Sentence.shadowed, .someIffNamed], s.TrueIn I) ∧
        ((∀ s ∈ [Sentence.shadowed, .someIffNamed], s.TrueIn I) → ∃ K : Interpretation D,
          I.AgreeOn (fun y => ¬y.Issued 3 c'.issued cs) K ∧ ∀ d ∈ cs, d.TrueIn K) := by
  have hplain : ∀ s ∈ [Sentence.shadowed, .someIffNamed], s.AllTerms (Term.Over Symbol.Plain) := by
    have hA : (Symbol.const "A").Plain := Symbol.plain_const (by decide)
    simp [Sentence.AllTerms, Sentence.shadowed, Sentence.someIffNamed, Sentence.atoms, Atom.args,
      Term.Over, Term.symbols, hA]
  have hrun : ((Converter.mk 3).convertAll [.shadowed, .someIffNamed]).toOption.map
      (fun r => (r.1.map Clause.text, r.2.issued)) =
        some (["~P(x) | Q(SF4(z,x),z)", "~P(y) | P(A)", "~P(A) | P(SC5)"], 6) := by cbv
  obtain ⟨cs, c', h, hI⟩ := convertAll_equisatisfiable ⟨3⟩ _ hplain
  rw [h] at hrun
  obtain ⟨htext, hissued⟩ := Prod.mk.inj (Option.some.inj hrun)
  exact ⟨cs, c', h, htext, hissued, hI⟩

end Refutation
