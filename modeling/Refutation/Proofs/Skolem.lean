import Refutation.NormalForm.Clausal
import Refutation.Proofs.Except
import Refutation.Proofs.Fresh
import Refutation.Proofs.Sentence

/-!
# Skolem terms

Exchanging existential variables for Skolem terms changes what a sentence says, but not whether it
can be true: an interpretation of the sentence becomes one of the result when the Skolem symbols are
read as choices of the existential variables. Only Skolem symbols that are new change their meaning.

* `Symbol`, `Term.Over`: the symbols of terms that have a meaning of their own.
* `Symbol.Below`: Skolem symbols are numbered; those of a sentence stay below the counter.
* `Interpretation.AgreeOn`: two interpretations read some symbols alike.
* `Skolemizes`: what skolemization does, as a relation.
* `Skolemizes.sound`: the choice of meanings.
* `Skolemizes.holds`: the Skolem form says no less than the sentence.
-/

namespace Refutation

universe u

variable {D : Type u}

/-! ## Symbols -/

/-- A constant or a function symbol, known by its name. -/
inductive Symbol where
  | const (name : String)
  | func (name : String)
deriving DecidableEq

namespace Term

mutual

/-- The constants and function symbols from left to right, with repetitions. -/
def symbols : Term → List Symbol
  | .var _ => []
  | .const c => [.const c]
  | .app f args => .func f.name :: symbolsList args

def symbolsList : List Term → List Symbol
  | [] => []
  | t :: ts => t.symbols ++ symbolsList ts

end

theorem mem_symbolsList {y : Symbol} {ts : List Term} :
    y ∈ symbolsList ts ↔ ∃ t ∈ ts, y ∈ t.symbols := by
  induction ts with
  | nil => simp [symbolsList]
  | cons t ts ih => simp [symbolsList, ih]

theorem mem_symbols_app {y : Symbol} {f : FunSym} {args : List Term} :
    y ∈ (app f args).symbols ↔ y = .func f.name ∨ ∃ t ∈ args, y ∈ t.symbols := by
  rw [symbols, List.mem_cons, mem_symbolsList]

/-- All symbols of the term are among those given. -/
def Over (S : Symbol → Prop) (t : Term) : Prop := ∀ y ∈ t.symbols, S y

theorem over_app {S : Symbol → Prop} {f : FunSym} {args : List Term} :
    (app f args).Over S ↔ S (.func f.name) ∧ ∀ t ∈ args, t.Over S := by
  simp only [Over, mem_symbols_app]
  constructor
  · exact fun h => ⟨h _ (.inl rfl), fun t ht y hy => h y (.inr ⟨t, ht, hy⟩)⟩
  · rintro ⟨hf, hargs⟩ y (rfl | ⟨t, ht, hy⟩)
    · exact hf
    · exact hargs t ht y hy

theorem Over.mono {S S' : Symbol → Prop} (hS : ∀ y, S y → S' y) {t : Term} (h : t.Over S) :
    t.Over S' := fun y hy => hS y (h y hy)

end Term

theorem substitutive_over (S : Symbol → Prop) : Substitutive (Term.Over S) where
  var _ := nofun
  subst σ t hσ ht := by
    induction t with
    | var x => exact hσ x
    | const c => exact ht
    | app f args ih =>
      obtain ⟨hf, hargs⟩ := Term.over_app.mp ht
      rw [Term.subst_app, Term.over_app]
      refine ⟨hf, fun t ht => ?_⟩
      obtain ⟨s, hs, rfl⟩ := List.mem_map.mp ht
      exact ih s hs (hargs s hs)

theorem Sentence.AllTerms.over_mono {S S' : Symbol → Prop} {s : Sentence} (h : s.AllTerms (Term.Over S))
    (hS : ∀ y, S y → S' y) : s.AllTerms (Term.Over S') := fun a ha t ht => (h a ha t ht).mono hS

/-! ## Agreement -/

/-- The interpretations read the given symbols and all predicates alike. -/
structure Interpretation.AgreeOn (S : Symbol → Prop) (I J : Interpretation D) : Prop where
  const : ∀ c, S (.const c) → I.const c = J.const c
  func : ∀ f : FunSym, S (.func f.name) → I.func f = J.func f
  pred : I.pred = J.pred

namespace Interpretation.AgreeOn

variable {S S' : Symbol → Prop} {I J K : Interpretation D}

theorem refl (I : Interpretation D) : AgreeOn S I I := ⟨fun _ _ => rfl, fun _ _ => rfl, rfl⟩

theorem trans (h : AgreeOn S I J) (h' : AgreeOn S' J K) (hS : ∀ y, S y → S' y) : AgreeOn S I K where
  const c hc := (h.const c hc).trans (h'.const c (hS _ hc))
  func f hf := (h.func f hf).trans (h'.func f (hS _ hf))
  pred := h.pred.trans h'.pred

theorem eval (h : AgreeOn S I J) {t : Term} (ht : t.Over S) (v : Var → D) : t.eval I v = t.eval J v := by
  induction t with
  | var x => rfl
  | const c => exact h.const c (ht _ (by simp [Term.symbols]))
  | app f args ih =>
    obtain ⟨hf, hargs⟩ := Term.over_app.mp ht
    have hmap : args.map (Term.eval I v) = args.map (Term.eval J v) :=
      List.map_congr_left fun t ht => ih t ht (hargs t ht)
    rw [Term.eval_app, Term.eval_app, h.func f hf, hmap]

theorem atom_holds (h : AgreeOn S I J) {a : Atom} (ha : ∀ t ∈ a.args, t.Over S) (v : Var → D) :
    a.Holds I v ↔ a.Holds J v := by
  cases a with
  | pred p args =>
    have hmap : args.map (Term.eval I v) = args.map (Term.eval J v) :=
      List.map_congr_left fun t ht => h.eval (ha t ht) v
    rw [Atom.Holds, Atom.Holds, h.pred, hmap]
  | eq l r =>
    rw [Atom.Holds, Atom.Holds, h.eval (ha l (by simp [Atom.args])) v,
      h.eval (ha r (by simp [Atom.args])) v]

theorem holds (h : AgreeOn S I J) {s : Sentence} (hs : s.AllTerms (Term.Over S)) (v : Var → D) :
    s.Holds I v ↔ s.Holds J v := by
  induction s generalizing v with
  | atom a => exact h.atom_holds (hs a (by simp [Sentence.atoms])) v
  | not s ih => exact not_congr (ih hs v)
  | and l r ihl ihr | or l r ihl ihr | implies l r ihl ihr | iff l r ihl ihr =>
    have hl := ihl (fun a ha => hs a (List.mem_append_left _ ha)) v
    have hr := ihr (fun a ha => hs a (List.mem_append_right _ ha)) v
    simp only [Sentence.Holds, hl, hr]
  | quant q vs s ih =>
    rw [Sentence.holds_quant, Sentence.holds_quant]
    exact Quantifier.over_congr fun w _ => ih hs w

end Interpretation.AgreeOn

/-! ## Skolem symbols -/

/-- The symbol is a Skolem symbol with the given number. -/
def Symbol.IsSkolem (n : Nat) (y : Symbol) : Prop :=
  y = .const ("SC" ++ toString n) ∨ y = .func ("SF" ++ toString n)

/-- The symbol is no Skolem symbol, or one with a number below the given one. -/
def Symbol.Below (k : Nat) (y : Symbol) : Prop := ∀ n, y.IsSkolem n → n < k

theorem Symbol.IsSkolem.inj {y : Symbol} {m n : Nat} (hm : y.IsSkolem m) (hn : y.IsSkolem n) :
    m = n := by
  rcases hm with rfl | rfl <;> rcases hn with h | h
  · exact Nat.repr_injective ((String.append_right_inj _).mp (Symbol.const.inj h))
  · cases h
  · cases h
  · exact Nat.repr_injective ((String.append_right_inj _).mp (Symbol.func.inj h))

theorem Symbol.Below.mono {y : Symbol} {k k' : Nat} (h : y.Below k) (hk : k ≤ k') : y.Below k' :=
  fun n hn => Nat.lt_of_lt_of_le (h n hn) hk

/-- The one symbol of a Skolem term is a Skolem symbol. -/
theorem over_isSkolem (us : List Var) (n : Nat) : (skolemTerm us n).Over (Symbol.IsSkolem n) := by
  unfold skolemTerm
  split
  · intro y hy
    cases List.mem_singleton.mp hy
    exact .inl rfl
  · rw [Term.fn, Term.over_app]
    refine ⟨.inr rfl, fun t ht => ?_⟩
    obtain ⟨x, -, rfl⟩ := List.mem_map.mp ht
    exact nofun

theorem over_skolemTerm {us : List Var} {n k : Nat} (h : n < k) :
    (skolemTerm us n).Over (Symbol.Below k) :=
  (over_isSkolem us n).mono fun _ hy _ hm => hm.inj hy ▸ h

theorem wellFormed_skolemTerm (us : List Var) (n : Nat) : (skolemTerm us n).wellFormed = true := by
  unfold skolemTerm
  split
  · rfl
  · rw [Term.fn, Term.wellFormed_app]
    refine ⟨rfl, fun t ht => ?_⟩
    obtain ⟨x, -, rfl⟩ := List.mem_map.mp ht
    rfl

theorem occurrences_skolemTerm {us : List Var} {n : Nat} {x : Var} :
    x ∈ (skolemTerm us n).occurrences ↔ x ∈ us := by
  unfold skolemTerm
  split
  · rename_i h
    simp [List.isEmpty_iff.mp h]
  · simp [Term.fn]

/-! ## Skolem bindings -/

section Bindings

variable {us vs : List Var} {k : Nat} {x : Var}

theorem mem_skolemPairs {t : Term} :
    (x, t) ∈ ((vs.zipIdx k).map fun (v, i) => (v, skolemTerm us i)) ↔
      ∃ n, k ≤ n ∧ vs[n - k]? = some x ∧ t = skolemTerm us n := by
  simp only [List.mem_map, Prod.exists, Prod.mk.injEq, List.mem_zipIdx_iff_le_and_getElem?_sub]
  constructor
  · rintro ⟨v, n, ⟨hn, hv⟩, rfl, rfl⟩
    exact ⟨n, hn, hv, rfl⟩
  · rintro ⟨n, hn, hv, rfl⟩
    exact ⟨x, n, ⟨hn, hv⟩, rfl, rfl⟩

theorem get?_skolemBindings_eq_none : (skolemBindings us vs k).get? x = none ↔ x ∉ vs := by
  rw [skolemBindings, Substitution.get?_ofList_eq_none, List.map_map]
  exact not_congr (iff_of_eq (congrArg (x ∈ ·) (List.zipIdx_map_fst k vs)))

/-- Variables stand for themselves or for Skolem terms with the next numbers. -/
theorem image_skolemBindings (us vs : List Var) (k : Nat) (x : Var) :
    (skolemBindings us vs k).image x = .var x ∨
      ∃ n, k ≤ n ∧ n < k + vs.length ∧ (skolemBindings us vs k).image x = skolemTerm us n := by
  cases hx : (skolemBindings us vs k).get? x with
  | none => exact .inl (Substitution.image_of_unbound hx)
  | some t =>
    obtain ⟨n, hk, hn, rfl⟩ := mem_skolemPairs.mp (Substitution.mem_of_get?_ofList hx)
    obtain ⟨hlt, -⟩ := List.getElem?_eq_some_iff.mp hn
    exact .inr ⟨n, hk, by omega, Substitution.image_of_get? hx⟩

theorem skolemBindings_image {T : Term → Prop} (hT : Substitutive T)
    (hk : ∀ n, k ≤ n → n < k + vs.length → T (skolemTerm us n)) (x : Var) :
    T ((skolemBindings us vs k).image x) := by
  rcases image_skolemBindings us vs k x with he | ⟨n, hle, hlt, he⟩
  · rw [he]
    exact hT.var x
  · rw [he]
    exact hk n hle hlt

theorem image_skolemBindings_of_mem (hvs : vs.Nodup) (hx : x ∈ vs) :
    (skolemBindings us vs k).image x = skolemTerm us (k + vs.idxOf x) := by
  refine Substitution.image_of_get? (Substitution.get?_of_mem ?_)
  rw [skolemBindings, Substitution.bindings_ofList]
  · refine mem_skolemPairs.mpr ⟨k + vs.idxOf x, by omega, ?_, rfl⟩
    rw [Nat.add_sub_cancel_left]
    exact List.getElem?_idxOf hx
  · rw [List.map_map]
    exact (List.zipIdx_map_fst k vs).symm ▸ hvs

end Bindings

/-! ## Choices -/

/-- The values `ds` for the variables `us`, and `d` for others. -/
def valuationOf (us : List Var) (ds : List D) (d : D) (x : Var) : D := ds.getD (us.idxOf x) d

theorem valuationOf_map {us : List Var} {v : Var → D} {d : D} {x : Var} (h : x ∈ us) :
    valuationOf us (us.map v) d x = v x := by
  rw [valuationOf, List.getD_eq_getElem?_getD, List.getElem?_map, List.getElem?_idxOf h]
  rfl

namespace Interpretation

open Classical in
/-- Values for the variables `vs` that make `P` true where the variables `us` have the values `ds`,
if there are any. -/
noncomputable def choice (I : Interpretation D) (us vs : List Var) (P : (Var → D) → Prop) (ds : List D) :
    Var → D :=
  if h : ∃ w, AgreeOff vs (valuationOf us ds (I.const "")) w ∧ P w then h.choose
  else fun _ => I.const ""

open Classical in
/-- The interpretation with the Skolem symbols for `vs` read as choices that make `P` true. -/
noncomputable def choosing (I : Interpretation D) (us vs : List Var) (k : Nat) (P : (Var → D) → Prop) :
    Interpretation D where
  const c :=
    if h : ∃ x ∈ vs, c = "SC" ++ toString (k + vs.idxOf x) then I.choice us vs P [] h.choose
    else I.const c
  func f ds :=
    if h : ∃ x ∈ vs, f.name = "SF" ++ toString (k + vs.idxOf x) then I.choice us vs P ds h.choose
    else I.func f ds
  pred := I.pred

variable {I : Interpretation D} {us vs : List Var} {k : Nat} {P : (Var → D) → Prop}

theorem choice_spec {ds : List D} (h : ∃ w, AgreeOff vs (valuationOf us ds (I.const "")) w ∧ P w) :
    AgreeOff vs (valuationOf us ds (I.const "")) (I.choice us vs P ds) ∧ P (I.choice us vs P ds) := by
  unfold choice
  rw [dif_pos h]
  exact h.choose_spec

theorem choosing_agreeOn : AgreeOn (Symbol.Below k) I (I.choosing us vs k P) where
  const c hc := by
    have hn : ¬∃ x ∈ vs, c = "SC" ++ toString (k + vs.idxOf x) := by
      rintro ⟨x, -, rfl⟩
      have := hc _ (.inl rfl)
      omega
    simp only [choosing, dif_neg hn]
  func f hf := by
    funext ds
    have hn : ¬∃ x ∈ vs, f.name = "SF" ++ toString (k + vs.idxOf x) := by
      rintro ⟨x, -, hx⟩
      have := hf _ (.inr (congrArg Symbol.func hx))
      omega
    simp only [choosing, dif_neg hn]
  pred := rfl

/-- The Skolem term of a variable has the value chosen for it. -/
theorem eval_choosing {x : Var} (hx : x ∈ vs) (v : Var → D) :
    (skolemTerm us (k + vs.idxOf x)).eval (I.choosing us vs k P) v =
      I.choice us vs P (us.map v) x := by
  have hinj : ∀ y ∈ vs, k + vs.idxOf x = k + vs.idxOf y → y = x := fun y hy h =>
    ((List.idxOf_inj hx).mp (Nat.add_left_cancel h)).symm
  unfold skolemTerm
  split
  · rename_i hus
    cases List.isEmpty_iff.mp hus
    have hex : ∃ y ∈ vs, "SC" ++ toString (k + vs.idxOf x) = "SC" ++ toString (k + vs.idxOf y) :=
      ⟨x, hx, rfl⟩
    have hy := hinj _ hex.choose_spec.1
      (Nat.repr_injective ((String.append_right_inj _).mp hex.choose_spec.2))
    rw [Term.eval_const]
    refine (dif_pos hex).trans ?_
    rw [hy]
    rfl
  · have hex : ∃ y ∈ vs, "SF" ++ toString (k + vs.idxOf x) = "SF" ++ toString (k + vs.idxOf y) :=
      ⟨x, hx, rfl⟩
    have hy := hinj _ hex.choose_spec.1
      (Nat.repr_injective ((String.append_right_inj _).mp hex.choose_spec.2))
    rw [Term.fn, Term.eval_app, List.map_map]
    refine (dif_pos hex).trans ?_
    rw [hy]
    rfl

end Interpretation

/-- Nothing is bound twice, the variables `us` are those that may be free, and Skolem symbols have
numbers below `k`. -/
structure Sentence.Skolemizable (us : List Var) (k : Nat) (s : Sentence) : Prop where
  nodup : s.binders.Nodup
  apart : ∀ x ∈ us, x ∉ s.binders
  free : ∀ x, s.Free x → x ∈ us
  terms : s.AllTerms (Term.Over (Symbol.Below k))

theorem Sentence.Skolemizable.pair {us : List Var} {k : Nat} {l r : Sentence}
    (h : (Sentence.and l r).Skolemizable us k) : l.Skolemizable us k ∧ r.Skolemizable us k := by
  obtain ⟨hl, hr, -⟩ := List.nodup_append.mp h.nodup
  exact ⟨⟨hl, fun x hx hb => h.apart x hx (List.mem_append_left _ hb), fun x hx => h.free x (.inl hx),
      fun a ha => h.terms a (List.mem_append_left _ ha)⟩,
    ⟨hr, fun x hx hb => h.apart x hx (List.mem_append_right _ hb), fun x hx => h.free x (.inr hx),
      fun a ha => h.terms a (List.mem_append_right _ ha)⟩⟩

theorem Sentence.Skolemizable.mono {us : List Var} {k k' : Nat} {s : Sentence}
    (h : s.Skolemizable us k) (hk : k ≤ k') : s.Skolemizable us k' :=
  ⟨h.nodup, h.apart, h.free, h.terms.over_mono fun _ hy => hy.mono hk⟩

theorem Sentence.Skolemizable.all {us vs : List Var} {k : Nat} {s : Sentence}
    (h : (Sentence.quant .all vs s).Skolemizable us k) : s.Skolemizable (us ++ vs) k := by
  obtain ⟨-, hbs, hdisj⟩ := List.nodup_append.mp h.nodup
  refine ⟨hbs, fun x hx hb => ?_, fun x hx => ?_, h.terms⟩
  · rcases List.mem_append.mp hx with hx | hx
    · exact h.apart x hx (List.mem_append_right _ hb)
    · exact hdisj x hx x hb rfl
  · by_cases hxv : x ∈ vs
    · exact List.mem_append_right _ hxv
    · exact List.mem_append_left _ (h.free x ⟨hxv, hx⟩)

theorem Sentence.Skolemizable.ex {us vs : List Var} {k : Nat} {s : Sentence}
    (h : (Sentence.quant .ex vs s).Skolemizable us k) :
    (s.subst (skolemBindings us vs k)).Skolemizable us (k + vs.length) := by
  obtain ⟨hvs, hbs, hdisj⟩ := List.nodup_append.mp h.nodup
  have hdom : ∀ x ∈ s.binders, (skolemBindings us vs k).get? x = none := fun x hx =>
    get?_skolemBindings_eq_none.mpr fun hxv => hdisj x hxv x hx rfl
  have hbinders := Sentence.binders_subst hdom
  have hterms : s.AllTerms (Term.Over (Symbol.Below (k + vs.length))) :=
    Sentence.AllTerms.over_mono (s := s) h.terms fun _ hy => hy.mono (Nat.le_add_right _ _)
  refine ⟨hbinders.symm ▸ hbs, fun x hx hb => h.apart x hx (List.mem_append_right _ (hbinders ▸ hb)),
    fun y hy => ?_, hterms.subst (substitutive_over _)
      (skolemBindings_image (substitutive_over _) fun n _ hn => over_skolemTerm hn)⟩
  obtain ⟨x, hx, hyx⟩ := Sentence.free_subst hdom hy
  by_cases hxv : x ∈ vs
  · rw [image_skolemBindings_of_mem hvs hxv] at hyx
    exact occurrences_skolemTerm.mp hyx
  · rw [Substitution.image_of_unbound (get?_skolemBindings_eq_none.mpr hxv), Term.occurrences_var,
      List.mem_singleton] at hyx
    exact hyx ▸ h.free x ⟨hxv, hx⟩

/-- A free variable that is not bound here stands for itself and is universal. -/
theorem Sentence.Skolemizable.image_of_free {us vs : List Var} {k : Nat} {s : Sentence}
    (h : (Sentence.quant .ex vs s).Skolemizable us k) {x : Var} (hx : s.Free x) (hxv : x ∉ vs) :
    (skolemBindings us vs k).image x = .var x ∧ x ∈ us :=
  ⟨Substitution.image_of_unbound (get?_skolemBindings_eq_none.mpr hxv), h.free x ⟨hxv, hx⟩⟩

/-- With Skolem terms for its existential variables a sentence says what it says of their values. -/
theorem Sentence.Skolemizable.holds_subst {us vs : List Var} {k : Nat} {s : Sentence}
    (h : (Sentence.quant .ex vs s).Skolemizable us k) {I : Interpretation D} {v : Var → D} :
    (s.subst (skolemBindings us vs k)).Holds I v ↔
      s.Holds I fun x => ((skolemBindings us vs k).image x).eval I v := by
  obtain ⟨hvs, hbs, hdisj⟩ := List.nodup_append.mp h.nodup
  refine Sentence.holds_subst hbs ?_ ?_
  · exact fun x hx => get?_skolemBindings_eq_none.mpr fun hxv => hdisj x hxv x hx rfl
  · intro x hx y hy hyb
    refine h.apart y ?_ (List.mem_append_right _ hyb)
    by_cases hxv : x ∈ vs
    · rw [image_skolemBindings_of_mem hvs hxv] at hy
      exact occurrences_skolemTerm.mp hy
    · obtain ⟨he, hxu⟩ := h.image_of_free hx hxv
      rw [he, Term.occurrences_var, List.mem_singleton] at hy
      exact hy ▸ hxu

/-- The symbols of an existential sentence's Skolem terms can be read as choices. -/
theorem exists_choosing {us vs : List Var} {k : Nat} {s : Sentence}
    (h : (Sentence.quant .ex vs s).Skolemizable us k) (I : Interpretation D) :
    ∃ J : Interpretation D, I.AgreeOn (Symbol.Below k) J ∧ ∀ v, (Sentence.quant .ex vs s).Holds I v →
      (s.subst (skolemBindings us vs k)).Holds J v := by
  obtain ⟨hvs, -, -⟩ := List.nodup_append.mp h.nodup
  have hagree : I.AgreeOn (Symbol.Below k) (I.choosing us vs k (s.Holds I)) :=
    Interpretation.choosing_agreeOn
  refine ⟨_, hagree, fun v hv => ?_⟩
  -- The choice depends on the values of the universal variables only.
  have hex : ∃ w, AgreeOff vs (valuationOf us (us.map v) (I.const "")) w ∧ s.Holds I w :=
    (Sentence.holds_congr fun x hx => (valuationOf_map (h.free x hx)).symm).mp hv
  obtain ⟨hoff, hchoice⟩ := Interpretation.choice_spec hex
  rw [hagree.holds (s := s) h.terms] at hchoice
  rw [h.holds_subst]
  refine (Sentence.holds_congr fun x hx => ?_).mp hchoice
  by_cases hxv : x ∈ vs
  · rw [image_skolemBindings_of_mem hvs hxv, Interpretation.eval_choosing hxv]
  · obtain ⟨he, hxu⟩ := h.image_of_free hx hxv
    rw [he, Term.eval_var, hoff x hxv, valuationOf_map hxu]

/-! ## Skolemization -/

/-- `s` becomes `s'` below the universal variables `us`, and the counter goes from `k` to `k'`. -/
inductive Skolemizes : (us : List Var) → (k : Nat) → (s s' : Sentence) → (k' : Nat) → Prop
  | atom {us : List Var} {k : Nat} {a : Atom} : Skolemizes us k (.atom a) (.atom a) k
  | not {us : List Var} {k : Nat} {s : Sentence} : Skolemizes us k (.not s) (.not s) k
  | and {us : List Var} {k k₁ k₂ : Nat} {l l' r r' : Sentence} (hl : Skolemizes us k l l' k₁)
      (hr : Skolemizes us k₁ r r' k₂) : Skolemizes us k (.and l r) (.and l' r') k₂
  | or {us : List Var} {k k₁ k₂ : Nat} {l l' r r' : Sentence} (hl : Skolemizes us k l l' k₁)
      (hr : Skolemizes us k₁ r r' k₂) : Skolemizes us k (.or l r) (.or l' r') k₂
  | all {us vs : List Var} {k k' : Nat} {s s' : Sentence} (hs : Skolemizes (us ++ vs) k s s' k') :
      Skolemizes us k (.quant .all vs s) (.quant .all vs s') k'
  | ex {us vs : List Var} {k k' : Nat} {s s' : Sentence}
      (hs : Skolemizes us (k + vs.length) (s.subst (skolemBindings us vs k)) s' k') :
      Skolemizes us k (.quant .ex vs s) s' k'

theorem skolemizes_of_ok {us : List Var} {k k' : Nat} {s s' : Sentence}
    (h : s.skolemizeUnder us k = .ok (s', k')) : Skolemizes us k s s' k' := by
  induction hn : s.size using Nat.strong_induction_on generalizing us k k' s s' with
  | _ n ih =>
    subst hn
    cases s with
    | atom a =>
      rw [Sentence.skolemizeUnder] at h
      cases h
      exact .atom
    | not s =>
      rw [Sentence.skolemizeUnder] at h
      cases h
      exact .not
    | and l r =>
      rw [Sentence.skolemizeUnder] at h
      obtain ⟨⟨l', k₁⟩, hl, h⟩ := Except.bind_eq_ok.mp h
      obtain ⟨⟨r', k₂⟩, hr, h⟩ := Except.bind_eq_ok.mp h
      cases h
      exact .and (ih _ (by simp only [Sentence.size]; omega) hl rfl)
        (ih _ (by simp only [Sentence.size]; omega) hr rfl)
    | or l r =>
      rw [Sentence.skolemizeUnder] at h
      obtain ⟨⟨l', k₁⟩, hl, h⟩ := Except.bind_eq_ok.mp h
      obtain ⟨⟨r', k₂⟩, hr, h⟩ := Except.bind_eq_ok.mp h
      cases h
      exact .or (ih _ (by simp only [Sentence.size]; omega) hl rfl)
        (ih _ (by simp only [Sentence.size]; omega) hr rfl)
    | implies l r =>
      rw [Sentence.skolemizeUnder] at h
      cases h
    | iff l r =>
      rw [Sentence.skolemizeUnder] at h
      cases h
    | quant q vs s =>
      cases q with
      | all =>
        rw [Sentence.skolemizeUnder] at h
        obtain ⟨⟨s', k₁⟩, hs, h⟩ := Except.bind_eq_ok.mp h
        cases h
        exact .all (ih _ (by simp only [Sentence.size]; omega) hs rfl)
      | ex =>
        rw [Sentence.skolemizeUnder] at h
        have hlt := Sentence.size_subst_le (skolemBindings us vs k) s
        exact .ex (ih _ (by simp only [Sentence.size]; omega) h rfl)

namespace Skolemizes

variable {us : List Var} {k k' : Nat} {s s' : Sentence}

theorem le (h : Skolemizes us k s s' k') : k ≤ k' := by
  induction h with
  | atom | not => exact Nat.le_refl _
  | and _ _ ihl ihr | or _ _ ihl ihr => exact Nat.le_trans ihl ihr
  | all _ ih => exact ih
  | ex _ ih => omega

/-- A property that instances keep is kept, if the Skolem terms that are put in have it. -/
theorem allTerms {T : Term → Prop} (hT : Substitutive T) (h : Skolemizes us k s s' k')
    (hk : ∀ us n, k ≤ n → n < k' → T (skolemTerm us n)) (hs : s.AllTerms T) : s'.AllTerms T := by
  induction h with
  | atom | not => exact hs
  | and hl hr ihl ihr | or hl hr ihl ihr =>
    intro a ha
    rcases List.mem_append.mp ha with ha | ha
    · exact ihl (fun us n hle hlt => hk us n hle (Nat.lt_of_lt_of_le hlt hr.le))
        (fun a ha => hs a (List.mem_append_left _ ha)) a ha
    · exact ihr (fun us n hle hlt => hk us n (Nat.le_trans hl.le hle) hlt)
        (fun a ha => hs a (List.mem_append_right _ ha)) a ha
  | all _ ih => exact ih hk hs
  | @ex us vs k k' s s' hex ih =>
    have hs : s.AllTerms T := hs
    refine ih (fun us n hle hlt => hk us n (by omega) hlt) (hs.subst hT ?_)
    exact skolemBindings_image hT fun n hle hlt => hk us n hle (Nat.lt_of_lt_of_le hlt hex.le)

theorem symbols_below (h : Skolemizes us k s s' k') (hs : s.AllTerms (Term.Over (Symbol.Below k))) :
    s'.AllTerms (Term.Over (Symbol.Below k')) :=
  h.allTerms (substitutive_over _) (fun _ _ _ hn => over_skolemTerm hn)
    (hs.over_mono fun _ hy => hy.mono h.le)

/-- Two sentences skolemized one after the other have an interpretation together: the symbols of
the first are older than those that the second adds. -/
theorem sound_pair {k₁ : Nat} {l l' r r' : Sentence} {I : Interpretation D}
    (hl : Skolemizes us k l l' k₁) (hs : (Sentence.and l r).Skolemizable us k)
    (ihl : ∃ J : Interpretation D, I.AgreeOn (Symbol.Below k) J ∧ ∀ v, l.Holds I v → l'.Holds J v)
    (ihr : ∀ J : Interpretation D, ∃ K : Interpretation D, J.AgreeOn (Symbol.Below k₁) K ∧
      ∀ v, r.Holds J v → r'.Holds K v) :
    ∃ K : Interpretation D, I.AgreeOn (Symbol.Below k) K ∧ (∀ v, l.Holds I v → l'.Holds K v) ∧
      ∀ v, r.Holds I v → r'.Holds K v := by
  obtain ⟨J, hJ, hlJ⟩ := ihl
  obtain ⟨K, hK, hrK⟩ := ihr J
  exact ⟨K, hJ.trans hK fun _ hy => hy.mono hl.le,
    fun v hv => (hK.holds (hl.symbols_below hs.pair.1.terms) v).mp (hlJ v hv),
    fun v hv => hrK v ((hJ.holds hs.pair.2.terms v).mp hv)⟩

/-- An interpretation of a sentence with distinct binders becomes one of its Skolem form, and only
new Skolem symbols change their meaning. -/
theorem sound (h : Skolemizes us k s s' k') (hs : s.Skolemizable us k) (I : Interpretation D) :
    ∃ J : Interpretation D, I.AgreeOn (Symbol.Below k) J ∧ ∀ v, s.Holds I v → s'.Holds J v := by
  induction h generalizing I with
  | atom | not => exact ⟨I, .refl I, fun _ h => h⟩
  | and hl hr ihl ihr =>
    obtain ⟨K, hK, hleft, hright⟩ := sound_pair hl hs (ihl hs.pair.1 I) (ihr (hs.pair.2.mono hl.le))
    exact ⟨K, hK, fun v hv => ⟨hleft v hv.1, hright v hv.2⟩⟩
  | or hl hr ihl ihr =>
    have hs : (Sentence.and _ _).Skolemizable _ _ := ⟨hs.nodup, hs.apart, hs.free, hs.terms⟩
    obtain ⟨K, hK, hleft, hright⟩ := sound_pair hl hs (ihl hs.pair.1 I) (ihr (hs.pair.2.mono hl.le))
    exact ⟨K, hK, fun v hv => hv.imp (hleft v) (hright v)⟩
  | all _ ih =>
    obtain ⟨J, hJ, hsJ⟩ := ih hs.all I
    exact ⟨J, hJ, fun v hv w hw => hsJ w (hv w hw)⟩
  | ex _ ih =>
    obtain ⟨J, hJ, hsJ⟩ := exists_choosing hs I
    obtain ⟨K, hK, hsK⟩ := ih hs.ex J
    exact ⟨K, hJ.trans hK fun _ hy => hy.mono (Nat.le_add_right _ _), fun v hv => hsK v (hsJ v hv)⟩

/-- Where the Skolem form holds the sentence does: its Skolem terms are values of the variables. -/
theorem holds (h : Skolemizes us k s s' k') (hs : s.Skolemizable us k) {I : Interpretation D}
    {v : Var → D} (hv : s'.Holds I v) : s.Holds I v := by
  induction h generalizing v with
  | atom | not => exact hv
  | and hl hr ihl ihr => exact ⟨ihl hs.pair.1 hv.1, ihr (hs.pair.2.mono hl.le) hv.2⟩
  | or hl hr ihl ihr =>
    have hs : (Sentence.and _ _).Skolemizable _ _ := ⟨hs.nodup, hs.apart, hs.free, hs.terms⟩
    exact hv.imp (ihl hs.pair.1) (ihr (hs.pair.2.mono hl.le))
  | all _ ih => exact fun w hw => ih hs.all (hv w hw)
  | ex _ ih =>
    refine ⟨_, fun x hx => ?_, hs.holds_subst.mp (ih hs.ex hv)⟩
    rw [Substitution.image_of_unbound (get?_skolemBindings_eq_none.mpr hx), Term.eval_var]

/-- No binder is new, and what is free is universal. -/
theorem distinct (h : Skolemizes us k s s' k') (hs : s.Skolemizable us k) :
    s'.binders.Sublist s.binders ∧ ∀ x, s'.Free x → x ∈ us := by
  induction h with
  | atom | not => exact ⟨.refl _, hs.free⟩
  | and hl hr ihl ihr | or hl hr ihl ihr =>
    have hs : (Sentence.and _ _).Skolemizable _ _ := ⟨hs.nodup, hs.apart, hs.free, hs.terms⟩
    obtain ⟨hbl, hfl⟩ := ihl hs.pair.1
    obtain ⟨hbr, hfr⟩ := ihr (hs.pair.2.mono hl.le)
    exact ⟨hbl.append hbr, fun x hx => hx.elim (hfl x) (hfr x)⟩
  | all _ ih =>
    obtain ⟨hb, hf⟩ := ih hs.all
    exact ⟨(List.Sublist.refl _).append hb, fun x hx =>
      (List.mem_append.mp (hf x hx.2)).resolve_right hx.1⟩
  | @ex us vs k k' s s' _ ih =>
    obtain ⟨hb, hf⟩ := ih hs.ex
    refine ⟨hb.trans ?_, hf⟩
    rw [Sentence.binders_subst fun x hx => get?_skolemBindings_eq_none.mpr fun hxv =>
      (List.nodup_append.mp hs.nodup).2.2 x hxv x hx rfl]
    exact List.sublist_append_right _ _

end Skolemizes

end Refutation
