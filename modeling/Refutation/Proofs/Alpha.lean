import Refutation.Proofs.Binders

/-!
# Names of bound variables

Two sentences are the same up to the names of bound variables if they have the same shape and each
variable of the one refers to what its counterpart in the other refers to: to the same binder, or to
itself where it is free. Of binders with one name the innermost counts, and in the list of one
quantifier the last.

* `Var.refer`: what a variable refers to under some binders.
* `Sentence.Alpha`: the same sentence up to the names of bound variables.
* `Sentence.Alpha.free_eq`: such sentences have the same free variables, in the same order.
* `BinderScan.Tracks`: the name in force for a variable refers to what the variable refers to.
* `Sentence.standardize_apart`: distinct binders are a matter of names only.
-/

namespace Refutation

universe u

/-! ## References -/

namespace Var

/-- What a variable refers to under the given binders, innermost first: the binder at a place, or
itself if none of them has its name. -/
def refer (x : Var) : List Var → Nat ⊕ Var
  | [] => .inr x
  | y :: env => if x = y then .inl 0 else (x.refer env).map (· + 1) id

variable {x y : Var} {env : List Var}

@[simp]
theorem refer_nil (x : Var) : x.refer [] = .inr x := rfl

@[simp]
theorem refer_cons_self (x : Var) (env : List Var) : x.refer (x :: env) = .inl 0 := if_pos rfl

theorem refer_cons_of_ne (h : x ≠ y) (env : List Var) :
    x.refer (y :: env) = (x.refer env).map (· + 1) id := if_neg h

/-- A variable refers to itself just if no binder has its name. -/
theorem refer_eq_inr : x.refer env = .inr y ↔ x ∉ env ∧ x = y := by
  induction env with
  | nil => simp
  | cons z env ih =>
    by_cases hxz : x = z
    · subst hxz
      simp
    · rw [refer_cons_of_ne hxz, List.mem_cons, not_or, and_assoc, ← ih]
      cases x.refer env <;> simp [hxz]

end Var

/-! ## Sentences up to names -/

namespace Sentence

/-- The sentences are the same up to the names of bound variables, the first under the binders `env`
and the second under the binders `env'`, innermost first. -/
inductive Alpha : List Var → List Var → Sentence → Sentence → Prop
  | atom {env env' : List Var} {a : Atom} (ρ : Var → Var)
      (h : ∀ x ∈ a.occurrences, x.refer env = (ρ x).refer env') :
      Alpha env env' (.atom a) (.atom (a.inst fun x => .var (ρ x)))
  | not {env env' : List Var} {s s' : Sentence} (h : Alpha env env' s s') :
      Alpha env env' (.not s) (.not s')
  | and {env env' : List Var} {l l' r r' : Sentence} (hl : Alpha env env' l l')
      (hr : Alpha env env' r r') : Alpha env env' (.and l r) (.and l' r')
  | or {env env' : List Var} {l l' r r' : Sentence} (hl : Alpha env env' l l')
      (hr : Alpha env env' r r') : Alpha env env' (.or l r) (.or l' r')
  | implies {env env' : List Var} {l l' r r' : Sentence} (hl : Alpha env env' l l')
      (hr : Alpha env env' r r') : Alpha env env' (.implies l r) (.implies l' r')
  | iff {env env' : List Var} {l l' r r' : Sentence} (hl : Alpha env env' l l')
      (hr : Alpha env env' r r') : Alpha env env' (.iff l r) (.iff l' r')
  | quant {env env' vs ws : List Var} {q : Quantifier} {s s' : Sentence} (hlen : ws.length = vs.length)
      (h : Alpha (vs.reverse ++ env) (ws.reverse ++ env') s s') :
      Alpha env env' (.quant q vs s) (.quant q ws s')

variable {env env' : List Var} {s s' : Sentence}

/-- Variables that refer to themselves are the same on both sides. -/
theorem Alpha.freeOccurrences_eq (h : Alpha env env' s s') {bound bound' : List Var}
    (hb : ∀ x, x ∈ bound ↔ x ∈ env) (hb' : ∀ x, x ∈ bound' ↔ x ∈ env') :
    s'.freeOccurrences bound' = s.freeOccurrences bound := by
  induction h generalizing bound bound' with
  | @atom env env' a ρ h =>
    have hself : ∀ x ∈ a.occurrences, x ∉ bound → ρ x = x ∧ x ∉ bound' := by
      intro x hx hxb
      have href : x.refer env = .inr x := Var.refer_eq_inr.mpr ⟨fun hm => hxb ((hb x).mpr hm), rfl⟩
      obtain ⟨hne, he⟩ := Var.refer_eq_inr.mp ((h x hx).symm.trans href)
      exact ⟨he, fun hm => hne (he.symm ▸ (hb' x).mp hm)⟩
    have hbound : ∀ x ∈ a.occurrences, x ∈ bound → ρ x ∈ bound' := by
      intro x hx hxb
      by_contra hno
      have href : (ρ x).refer env' = .inr (ρ x) :=
        Var.refer_eq_inr.mpr ⟨fun hm => hno ((hb' _).mpr hm), rfl⟩
      exact (Var.refer_eq_inr.mp ((h x hx).trans href)).1 ((hb x).mp hxb)
    rw [freeOccurrences, freeOccurrences, Atom.occurrences_inst_var, List.filter_map]
    have hkept : a.occurrences.filter ((fun y => decide (y ∉ bound')) ∘ ρ) =
        a.occurrences.filter fun x => decide (x ∉ bound) := by
      refine List.filter_congr fun x hx => decide_eq_decide.mpr (not_congr ⟨fun hm => ?_, hbound x hx⟩)
      by_contra hxb
      obtain ⟨he, hxb'⟩ := hself x hx hxb
      exact hxb' (he ▸ hm)
    rw [hkept]
    refine (List.map_congr_left fun x hx => ?_).trans (List.map_id _)
    obtain ⟨hxa, hxb⟩ := List.mem_filter.mp hx
    exact (hself x hxa (of_decide_eq_true hxb)).1
  | not _ ih => exact ih hb hb'
  | and _ _ ihl ihr | or _ _ ihl ihr | implies _ _ ihl ihr | iff _ _ ihl ihr =>
    rw [freeOccurrences, freeOccurrences, ihl hb hb', ihr hb hb']
  | quant _ _ ih =>
    refine ih (fun x => ?_) fun x => ?_
    · rw [List.mem_append, List.mem_append, List.mem_reverse, hb]
    · rw [List.mem_append, List.mem_append, List.mem_reverse, hb']

/-- Sentences that are the same up to names have the same free variables, in the same order. -/
theorem Alpha.free_eq (h : Alpha [] [] s s') : s'.free = s.free := by
  rw [free, free, h.freeOccurrences_eq (fun _ => Iff.rfl) fun _ => Iff.rfl]

end Sentence

/-! ## Renaming of binders -/

namespace BinderScan

/-- The variable has a name in use under the scope, which refers to what the variable refers to. -/
def Tracks (scope : Substitution) (used env env' : List Var) (x : Var) : Prop :=
  ∃ y ∈ used, scope.image x = .var y ∧ x.refer env = y.refer env'

variable {orig used env env' : List Var} {scope : Substitution} {b : BinderScan}

/-- A binder with a name not in use hides no other variable's name. -/
theorem Tracks.insert {v w x : Var} (hw : w ∉ used) (h : x = v ∨ Tracks scope used env env' x) :
    Tracks (scope.insert v (.var w)) (w :: used) (v :: env) (w :: env') x := by
  by_cases hxv : x = v
  · subst hxv
    refine ⟨w, List.mem_cons_self, ?_, ?_⟩
    · rw [Substitution.image_insert, if_pos rfl]
    · rw [Var.refer_cons_self, Var.refer_cons_self]
  · obtain ⟨y, hy, himage, href⟩ := h.resolve_left hxv
    have hyw : y ≠ w := fun he => hw (he ▸ hy)
    refine ⟨y, List.mem_cons_of_mem _ hy, ?_, ?_⟩
    · rw [Substitution.image_insert, if_neg hxv, himage]
    · rw [Var.refer_cons_of_ne hxv, Var.refer_cons_of_ne hyw, href]

/-- One binder after the other: the new names refer as the old ones did. -/
theorem bindAll_tracks (scope : Substitution) (env env' : List Var) {vs : List Var}
    (h : b.Inv orig used) (hvs : ∀ v ∈ vs, v ∈ orig) :
    (b.bindAll scope vs).1.length = vs.length ∧
      ∀ x, x ∈ vs ∨ Tracks scope used env env' x →
        Tracks (b.bindAll scope vs).2.1 ((b.bindAll scope vs).1.reverse ++ used) (vs.reverse ++ env)
          ((b.bindAll scope vs).1.reverse ++ env') x := by
  induction vs generalizing b scope used env env' with
  | nil => exact ⟨rfl, fun x hx => hx.resolve_left List.not_mem_nil⟩
  | cons v vs ih =>
    obtain ⟨hw, hInv⟩ := h.bind (hvs v List.mem_cons_self)
    rw [bindAll]
    generalize b.bind v = r at hw hInv
    obtain ⟨w, b₁⟩ := r
    simp only at hw hInv ⊢
    obtain ⟨hlen, htracks⟩ := ih (scope.insert v (.var w)) (v :: env) (w :: env') hInv fun x hx =>
      hvs x (List.mem_cons_of_mem _ hx)
    refine ⟨by rw [List.length_cons, List.length_cons, hlen], fun x hx => ?_⟩
    rw [List.reverse_cons, List.reverse_cons, List.append_assoc, List.append_assoc, List.append_assoc]
    refine htracks x ?_
    rw [List.mem_cons] at hx
    rcases hx with (hx | hx) | hx
    · exact .inr (.insert hw (.inl hx))
    · exact .inl hx
    · exact .inr (.insert hw (.inr hx))

end BinderScan

namespace Sentence

open BinderScan (Tracks)

variable {orig used : List Var}

/-- Where every free variable has a name that refers as it does, renaming the binders changes names
only. -/
theorem renameBinders_alpha {s : Sentence} {scope : Substitution} {b : BinderScan} {env env' : List Var}
    (h : b.Inv orig used) (hs : ∀ x ∈ s.allVars, x ∈ orig)
    (hscope : ∀ x, s.Free x → Tracks scope used env env' x) :
    Alpha env env' s (s.renameBinders scope b).1 := by
  induction s generalizing scope b used env env' with
  | atom a =>
    have hname : ∀ x ∈ a.occurrences, scope.image x = .var ((scope.image x).var?.getD x) ∧
        x.refer env = ((scope.image x).var?.getD x).refer env' := by
      intro x hx
      obtain ⟨y, -, himage, href⟩ := hscope x hx
      rw [himage]
      exact ⟨rfl, href⟩
    have ha : a.subst scope = a.inst fun x => .var ((scope.image x).var?.getD x) := by
      rw [Atom.subst_eq_inst]
      refine Atom.map_congr fun t ht => Term.inst_congr fun x hx => ?_
      exact (hname x (Atom.mem_occurrences.mpr ⟨t, ht, hx⟩)).1
    rw [renameBinders, ha]
    exact .atom _ fun x hx => (hname x hx).2
  | not s ih => exact .not (ih h hs hscope)
  | and l r ihl ihr | or l r ihl ihr | implies l r ihl ihr | iff l r ihl ihr =>
    simp only [allVars, List.forall_mem_append] at hs
    -- The names in use after the left side include those before it.
    obtain ⟨used₁, hInv₁, hsub, -⟩ := renameBinders_renamed.{0} scope h hs.1 fun x hx => by
      obtain ⟨y, hy, himage, -⟩ := hscope x (.inl hx)
      exact ⟨y, hy, himage⟩
    have hright : ∀ x, r.Free x → Tracks scope used₁ env env' x := fun x hx => by
      obtain ⟨y, hy, hyx⟩ := hscope x (.inr hx)
      exact ⟨y, hsub y hy, hyx⟩
    constructor
    · exact ihl h hs.1 fun x hx => hscope x (.inl hx)
    · exact ihr hInv₁ hs.2 hright
  | quant q vs s ih =>
    simp only [allVars, List.forall_mem_append] at hs
    obtain ⟨-, used₁, hInv₁, hused₁⟩ := BinderScan.bindAll_renames scope h hs.1
    obtain ⟨hlen, htracks⟩ := BinderScan.bindAll_tracks scope env env' h hs.1
    refine .quant hlen (ih hInv₁ hs.2 fun x hx => ?_)
    have hx' : x ∈ vs ∨ Tracks scope used env env' x := by
      by_cases hxv : x ∈ vs
      · exact .inl hxv
      · exact .inr (hscope x ⟨hxv, hx⟩)
    obtain ⟨y, hy, hyx⟩ := htracks x hx'
    refine ⟨y, (hused₁ y).mpr ?_, hyx⟩
    rwa [List.mem_append, List.mem_reverse] at hy

theorem standardize_alpha (s : Sentence) : Alpha [] [] s s.standardize :=
  renameBinders_alpha s.inv_start (fun _ hx => hx) fun x hx => ⟨x, mem_free.mpr hx, rfl, rfl⟩

/-- Distinct binders change the names of bound variables and nothing else: free variables and truth
stay. Afterwards no variable is bound at two places, and none is both bound and free. -/
theorem standardize_apart (s : Sentence) :
    Alpha [] [] s s.standardize ∧ s.standardize.free = s.free ∧
      (∀ (D : Type u) (I : Interpretation D) (v : Var → D), s.standardize.Holds I v ↔ s.Holds I v) ∧
      s.standardize.binders.Nodup ∧ ∀ x ∈ s.standardize.free, x ∉ s.standardize.binders := by
  obtain ⟨hnd, hapart⟩ := standardize_distinct s
  exact ⟨standardize_alpha s, (standardize_alpha s).free_eq, fun D I v => holds_standardize, hnd,
    fun x hx => hapart x (mem_free.mp hx)⟩

-- Of three binders the first keeps the name, and new names pass over a free `q0`.
example :
    standardize (.quant .all [⟨"x"⟩, ⟨"x"⟩]
      (.quant .ex [⟨"x"⟩] (.atom (.pred "P" [.var ⟨"x"⟩, .var ⟨"q0"⟩])))) =
    .quant .all [⟨"x"⟩, ⟨"q1"⟩]
      (.quant .ex [⟨"q2"⟩] (.atom (.pred "P" [.var ⟨"q2"⟩, .var ⟨"q0"⟩]))) := by
  cbv

end Sentence

end Refutation
