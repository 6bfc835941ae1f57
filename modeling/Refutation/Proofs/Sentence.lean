import Refutation.NormalForm.Binders
import Refutation.Proofs.Substitution

/-!
# Sentences and their variables

Only the free variables of a sentence matter to its truth, and a substitution that leaves the
binders alone and is not captured by them acts as it does on terms.

* `Quantifier.Over`: the two quantifiers as one, with one lemma that carries a quantified statement
  over to other valuations (`Quantifier.over_iff`).
* `Sentence.Free`, `Sentence.binders`: the free variables, and the bound ones from left to right.
* `Sentence.holds_congr`, `Sentence.holds_subst`: as above. `Sentence.over_holds_iff`: what a
  quantifier says where the valuations are changed under it.
* `Sentence.AllTerms`: a property of all terms in a sentence.
-/

namespace Refutation

universe u

variable {D : Type u} {I : Interpretation D}

/-! ## Quantifiers -/

namespace Quantifier

variable {α β : Type u} {q : Quantifier}

/-- All of `S`, or some of it, have the property `P`. -/
def Over (q : Quantifier) (S P : α → Prop) : Prop :=
  match q with
  | .all => ∀ a, S a → P a
  | .ex => ∃ a, S a ∧ P a

/-- Domains that match each other, member by member, give the same quantified statement. -/
theorem over_iff {S P : α → Prop} {T Q : β → Prop}
    (hST : ∀ a, S a → ∃ b, T b ∧ (P a ↔ Q b)) (hTS : ∀ b, T b → ∃ a, S a ∧ (P a ↔ Q b)) :
    q.Over S P ↔ q.Over T Q := by
  cases q with
  | all =>
    constructor
    · intro h b hb
      obtain ⟨a, ha, hiff⟩ := hTS b hb
      exact hiff.mp (h a ha)
    · intro h a ha
      obtain ⟨b, hb, hiff⟩ := hST a ha
      exact hiff.mpr (h b hb)
  | ex =>
    constructor
    · rintro ⟨a, ha, hP⟩
      obtain ⟨b, hb, hiff⟩ := hST a ha
      exact ⟨b, hb, hiff.mp hP⟩
    · rintro ⟨b, hb, hQ⟩
      obtain ⟨a, ha, hiff⟩ := hTS b hb
      exact ⟨a, ha, hiff.mpr hQ⟩

theorem over_congr {S P Q : α → Prop} (h : ∀ a, S a → (P a ↔ Q a)) : q.Over S P ↔ q.Over S Q :=
  over_iff (fun a ha => ⟨a, ha, h a ha⟩) fun a ha => ⟨a, ha, h a ha⟩

theorem not_over {S P : α → Prop} : ¬q.Over S P ↔ q.dual.Over S fun a => ¬P a := by
  cases q with
  | all => simp [Over, dual]
  | ex => simp [Over, dual]

end Quantifier

/-- The valuations agree but for the given variables. -/
def AgreeOff (vs : List Var) (v w : Var → D) : Prop := ∀ x, x ∉ vs → w x = v x

namespace Sentence

theorem holds_quant {q : Quantifier} {vs : List Var} {s : Sentence} {v : Var → D} :
    (quant q vs s).Holds I v ↔ q.Over (AgreeOff vs v) (s.Holds I) := by
  cases q <;> exact Iff.rfl

/-! ## Variables -/

/-- The variable is free in the sentence. -/
def Free (x : Var) : Sentence → Prop
  | .atom a => x ∈ a.occurrences
  | .not s => s.Free x
  | .and l r | .or l r | .implies l r | .iff l r => l.Free x ∨ r.Free x
  | .quant _ vs s => x ∉ vs ∧ s.Free x

theorem mem_freeOccurrences {x : Var} {bound : List Var} {s : Sentence} :
    x ∈ s.freeOccurrences bound ↔ s.Free x ∧ x ∉ bound := by
  induction s generalizing bound with
  | atom a => simp [freeOccurrences, Free]
  | not s ih => exact ih
  | and l r ihl ihr | or l r ihl ihr | implies l r ihl ihr | iff l r ihl ihr =>
    simp only [freeOccurrences, Free, List.mem_append, ihl, ihr]
    tauto
  | quant q vs s ih =>
    simp only [freeOccurrences, Free, ih, List.mem_append]
    tauto

theorem mem_free {x : Var} {s : Sentence} : x ∈ s.free ↔ s.Free x := by
  rw [free, List.mem_eraseDups, mem_freeOccurrences]
  simp

/-- The bound variables, from left to right. -/
def binders : Sentence → List Var
  | .atom _ => []
  | .not s => s.binders
  | .and l r | .or l r | .implies l r | .iff l r => l.binders ++ r.binders
  | .quant _ vs s => vs ++ s.binders

theorem mem_allVars_of_free {x : Var} {s : Sentence} (h : s.Free x) : x ∈ s.allVars := by
  induction s with
  | atom a => exact h
  | not s ih => exact ih h
  | and l r ihl ihr | or l r ihl ihr | implies l r ihl ihr | iff l r ihl ihr =>
    exact List.mem_append.mpr (h.imp ihl ihr)
  | quant q vs s ih => exact List.mem_append_right _ (ih h.2)

/-- Only the free variables matter. -/
theorem holds_congr {v w : Var → D} {s : Sentence} (h : ∀ x, s.Free x → v x = w x) :
    s.Holds I v ↔ s.Holds I w := by
  classical
  induction s generalizing v w with
  | atom a => exact Atom.holds_congr h
  | not s ih => exact not_congr (ih h)
  | and l r ihl ihr => exact and_congr (ihl fun x hx => h x (.inl hx)) (ihr fun x hx => h x (.inr hx))
  | or l r ihl ihr => exact or_congr (ihl fun x hx => h x (.inl hx)) (ihr fun x hx => h x (.inr hx))
  | implies l r ihl ihr =>
    exact imp_congr (ihl fun x hx => h x (.inl hx)) (ihr fun x hx => h x (.inr hx))
  | iff l r ihl ihr => exact iff_congr (ihl fun x hx => h x (.inl hx)) (ihr fun x hx => h x (.inr hx))
  | quant q vs s ih =>
    -- What a valuation gives to the bound variables can be given to them in any other.
    have hmove : ∀ v w : Var → D, (∀ x, (quant q vs s).Free x → v x = w x) → ∀ a, AgreeOff vs v a →
        ∃ b, AgreeOff vs w b ∧ (s.Holds I a ↔ s.Holds I b) := by
      intro v w h a ha
      refine ⟨fun x => if x ∈ vs then a x else w x, fun x hx => if_neg hx, ih fun x hx => ?_⟩
      by_cases hxv : x ∈ vs
      · exact (if_pos hxv).symm
      · rw [if_neg hxv, ha x hxv, h x ⟨hxv, hx⟩]
    rw [holds_quant, holds_quant]
    refine Quantifier.over_iff (hmove v w h) fun b hb => ?_
    obtain ⟨a, ha, hiff⟩ := hmove w v (fun x hx => (h x hx).symm) b hb
    exact ⟨a, ha, hiff.symm⟩

/-- A quantifier over `vs`, seen from valuations that `f` turns into those it is about: other variables
have the values they have in `u`, and the bound ones can have any. -/
theorem over_holds_iff {q : Quantifier} {vs ws : List Var} {s : Sentence} {u v : Var → D}
    (f : (Var → D) → Var → D)
    (hkeep : ∀ w, AgreeOff ws v w → ∀ x, s.Free x → x ∉ vs → f w x = u x)
    (hmeet : ∀ w', AgreeOff vs u w' → ∃ w, AgreeOff ws v w ∧ ∀ x ∈ vs, f w x = w' x) :
    q.Over (AgreeOff ws v) (fun w => s.Holds I (f w)) ↔ q.Over (AgreeOff vs u) (s.Holds I) := by
  classical
  refine Quantifier.over_iff (fun w hw => ?_) fun w' hw' => ?_
  · refine ⟨fun x => if x ∈ vs then f w x else u x, fun x hx => if_neg hx, holds_congr fun x hx => ?_⟩
    by_cases hxv : x ∈ vs
    · exact (if_pos hxv).symm
    · rw [if_neg hxv, hkeep w hw x hx hxv]
  · obtain ⟨w, hw, hval⟩ := hmeet w' hw'
    refine ⟨w, hw, holds_congr fun x hx => ?_⟩
    by_cases hxv : x ∈ vs
    · exact hval x hxv
    · rw [hkeep w hw x hx hxv, hw' x hxv]

/-! ## Substitution -/

theorem holds_quantify {q : Quantifier} {vs : List Var} {s : Sentence} {v : Var → D} :
    (quantify q vs s).Holds I v ↔ (quant q vs s).Holds I v := by
  unfold quantify
  split
  · rename_i h
    cases List.isEmpty_iff.mp h
    have hv : ∀ w, AgreeOff [] v w → w = v := fun w hw => funext fun x => hw x (by simp)
    rw [holds_quant]
    cases q with
    | all => exact ⟨fun h w hw => hv w hw ▸ h, fun h => h v fun _ _ => rfl⟩
    | ex => exact ⟨fun h => ⟨v, fun _ _ => rfl, h⟩, fun ⟨w, hw, h⟩ => hv w hw ▸ h⟩
  · rfl

section Subst

variable {σ : Substitution}

theorem filterMap_binder {vs : List Var} (h : ∀ x ∈ vs, σ.get? x = none) :
    vs.filterMap σ.binder? = vs := by
  rw [List.filterMap_congr (g := some) fun x hx => by rw [Substitution.binder?, h x hx]]
  exact List.filterMap_some

theorem binders_subst {s : Sentence} (h : ∀ x ∈ s.binders, σ.get? x = none) :
    (s.subst σ).binders = s.binders := by
  induction s with
  | atom a => rfl
  | not s ih => exact ih h
  | and l r ihl ihr | or l r ihl ihr | implies l r ihl ihr | iff l r ihl ihr =>
    simp only [binders, List.mem_append] at h
    simp only [subst, binders, ihl fun x hx => h x (.inl hx), ihr fun x hx => h x (.inr hx)]
  | quant q vs s ih =>
    simp only [binders, List.mem_append] at h
    rw [subst, filterMap_binder fun x hx => h x (.inl hx), quantify]
    split
    · rename_i hvs
      cases List.isEmpty_iff.mp hvs
      exact ih fun x hx => h x (.inr hx)
    · rw [binders, binders, ih fun x hx => h x (.inr hx)]

/-- A variable free under a substitution stands for, or in, a term of a free one. -/
theorem free_subst {s : Sentence} (h : ∀ x ∈ s.binders, σ.get? x = none) {y : Var}
    (hy : (s.subst σ).Free y) : ∃ x, s.Free x ∧ y ∈ (σ.image x).occurrences := by
  induction s with
  | atom a =>
    obtain ⟨t, ht, hy⟩ := Atom.mem_occurrences.mp hy
    rw [Atom.subst, Atom.args_map] at ht
    obtain ⟨t', ht', rfl⟩ := List.mem_map.mp ht
    obtain ⟨x, hx, hy⟩ := Term.mem_occurrences_subst.mp hy
    exact ⟨x, Atom.mem_occurrences.mpr ⟨t', ht', hx⟩, hy⟩
  | not s ih => exact ih h hy
  | and l r ihl ihr | or l r ihl ihr | implies l r ihl ihr | iff l r ihl ihr =>
    simp only [binders, List.mem_append] at h
    rcases hy with hy | hy
    · obtain ⟨x, hx, hy⟩ := ihl (fun x hx => h x (.inl hx)) hy
      exact ⟨x, .inl hx, hy⟩
    · obtain ⟨x, hx, hy⟩ := ihr (fun x hx => h x (.inr hx)) hy
      exact ⟨x, .inr hx, hy⟩
  | quant q vs s ih =>
    simp only [binders, List.mem_append] at h
    rw [subst, filterMap_binder fun x hx => h x (.inl hx)] at hy
    have hy : y ∉ vs ∧ (s.subst σ).Free y := by
      unfold quantify at hy
      split at hy
      · rename_i hvs
        cases List.isEmpty_iff.mp hvs
        exact ⟨by simp, hy⟩
      · exact hy
    obtain ⟨x, hx, hyx⟩ := ih (fun x hx => h x (.inr hx)) hy.2
    refine ⟨x, ⟨fun hxv => hy.1 ?_, hx⟩, hyx⟩
    rw [Substitution.image_of_unbound (h x (.inl hxv)), Term.occurrences_var, List.mem_singleton] at hyx
    exact hyx ▸ hxv

/-- Where binders are distinct, are not exchanged and capture nothing, an instance of a sentence
holds where the sentence holds under the shifted valuation. -/
theorem holds_subst {s : Sentence} {v : Var → D} (hnd : s.binders.Nodup)
    (hdom : ∀ x ∈ s.binders, σ.get? x = none)
    (hran : ∀ x, s.Free x → ∀ y ∈ (σ.image x).occurrences, y ∉ s.binders) :
    (s.subst σ).Holds I v ↔ s.Holds I fun x => (σ.image x).eval I v := by
  classical
  induction s generalizing v with
  | atom a =>
    show (a.subst σ).Holds I v ↔ _
    rw [Atom.subst_eq_inst, Atom.holds_inst]
    rfl
  | not s ih => exact not_congr (ih hnd hdom hran)
  | and l r ihl ihr | or l r ihl ihr | implies l r ihl ihr | iff l r ihl ihr =>
    simp only [binders, List.mem_append, not_or] at hdom hran
    have hl := ihl (v := v) (List.nodup_append.mp hnd).1 (fun x hx => hdom x (.inl hx))
      fun x hx y hy => (hran x (.inl hx) y hy).1
    have hr := ihr (v := v) (List.nodup_append.mp hnd).2.1 (fun x hx => hdom x (.inr hx))
      fun x hx y hy => (hran x (.inr hx) y hy).2
    simp only [subst, Holds, hl, hr]
  | quant q vs s ih =>
    simp only [binders, List.mem_append, not_or] at hdom hran
    obtain ⟨hvs, hnd, hdisj⟩ := List.nodup_append.mp hnd
    rw [subst, filterMap_binder fun x hx => hdom x (.inl hx), holds_quantify, holds_quant, holds_quant]
    have hself : ∀ x ∈ vs, σ.image x = .var x := fun x hx =>
      Substitution.image_of_unbound (hdom x (.inl hx))
    have ih' : ∀ w, (s.subst σ).Holds I w ↔ s.Holds I fun x => (σ.image x).eval I w := fun w => by
      refine ih hnd (fun x hx => hdom x (.inr hx)) fun x hx y hy => ?_
      by_cases hxv : x ∈ vs
      · rw [hself x hxv, Term.occurrences_var, List.mem_singleton] at hy
        exact fun hm => hdisj x hxv y hm hy.symm
      · exact (hran x ⟨hxv, hx⟩ y hy).2
    refine (Quantifier.over_congr fun w _ => ih' w).trans
      (over_holds_iff (fun w x => (σ.image x).eval I w) (fun w hw x hx hxv => ?_) fun w' _ => ?_)
    · -- The terms put for other variables are out of reach of these binders.
      exact Term.eval_congr fun y hy => hw y (hran x ⟨hxv, hx⟩ y hy).1
    · refine ⟨fun x => if x ∈ vs then w' x else v x, fun x hx => if_neg hx, fun x hx => ?_⟩
      rw [hself x hx, Term.eval_var, if_pos hx]

end Subst

/-! ## Terms -/

/-- All terms of the sentence have the property. -/
def AllTerms (T : Term → Prop) (s : Sentence) : Prop := ∀ a ∈ s.atoms, ∀ t ∈ a.args, T t

theorem atoms_subst (σ : Substitution) (s : Sentence) :
    (s.subst σ).atoms = s.atoms.map (Atom.subst σ) := by
  induction s with
  | atom a => rfl
  | not s ih => exact ih
  | and l r ihl ihr | or l r ihl ihr | implies l r ihl ihr | iff l r ihl ihr =>
    simp only [subst, atoms, ihl, ihr, List.map_append]
  | quant q vs s ih =>
    rw [subst, quantify, atoms, ← ih]
    split <;> rfl

end Sentence

/-- A property of variables that instances keep. -/
structure Substitutive (T : Term → Prop) : Prop where
  var : ∀ x, T (.var x)
  subst : ∀ (σ : Substitution) (t : Term), (∀ x, T (σ.image x)) → T t → T (t.subst σ)

theorem Sentence.AllTerms.subst {T : Term → Prop} (hT : Substitutive T) {s : Sentence}
    (h : s.AllTerms T) {σ : Substitution} (hσ : ∀ x, T (σ.image x)) : (s.subst σ).AllTerms T := by
  intro a ha t ht
  rw [atoms_subst] at ha
  obtain ⟨a', ha', rfl⟩ := List.mem_map.mp ha
  rw [Atom.subst, Atom.args_map] at ht
  obtain ⟨t', ht', rfl⟩ := List.mem_map.mp ht
  exact hT.subst σ t' hσ (h a' ha' t' ht')

theorem substitutive_wellFormed : Substitutive fun t => t.wellFormed = true where
  var _ := rfl
  subst _ _ hσ ht := Term.wellFormed_subst ht hσ

end Refutation
