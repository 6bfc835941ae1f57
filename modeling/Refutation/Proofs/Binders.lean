import Refutation.Proofs.Fresh
import Refutation.Proofs.Sentence

/-!
# Distinct binders

Renaming binders keeps what a sentence says, and afterwards no name is bound twice and no bound
name is free. The names in use are those free in the sentence and those bound so far; a new binder
is never one of them, since a name that is kept was not met before and a fresh one stands nowhere.

* `BinderScan.Inv`: what a scan knows of the names in use.
* `BinderScan.bindAll_renames`: the binders of one quantifier get names not in use, one to one.
* `Sentence.Renamed`: the result for a part of the sentence, under the names in force there.
* `Sentence.holds_standardize`, `Sentence.standardize_distinct`: the result for the whole.
-/

namespace Refutation

universe u

/-! ## Names in use -/

namespace BinderScan

/-- The scan knows the names in use: those that stand in the sentence it has seen, and none is free
to be drawn. -/
structure Inv (orig : List Var) (b : BinderScan) (used : List Var) : Prop where
  seen : ∀ x ∈ b.seen, x ∈ used
  taken : ∀ x ∈ used, x ∈ b.taken
  known : ∀ x ∈ orig, x ∈ b.taken
  kept : ∀ x ∈ used, x ∈ orig → x ∈ b.seen

variable {orig used : List Var} {b : BinderScan}

theorem Inv.bind (h : b.Inv orig used) {v : Var} (hv : v ∈ orig) :
    (b.bind v).1 ∉ used ∧ (b.bind v).2.Inv orig ((b.bind v).1 :: used) := by
  unfold BinderScan.bind
  split
  · have hfresh := b.names.fresh_not_mem b.taken
    refine ⟨fun hm => hfresh (h.taken _ hm), ?_, ?_, ?_, ?_⟩
    · exact fun x hx => List.mem_cons_of_mem _ (h.seen x hx)
    · intro x hx
      rcases List.mem_cons.mp hx with rfl | hx
      · simp
      · exact List.mem_append_left _ (h.taken x hx)
    · exact fun x hx => List.mem_append_left _ (h.known x hx)
    · intro x hx ho
      rcases List.mem_cons.mp hx with rfl | hx
      · exact (hfresh (h.known _ ho)).elim
      · exact h.kept x hx ho
  · rename_i hseen
    refine ⟨fun hm => hseen (h.kept v hm hv), ?_, ?_, h.known, ?_⟩
    · intro x hx
      rcases List.mem_append.mp hx with hx | hx
      · exact List.mem_cons_of_mem _ (h.seen x hx)
      · rw [List.mem_singleton.mp hx]
        exact List.mem_cons_self
    · intro x hx
      rcases List.mem_cons.mp hx with rfl | hx
      · exact h.known x hv
      · exact h.taken x hx
    · intro x hx ho
      rcases List.mem_cons.mp hx with rfl | hx
      · simp
      · exact List.mem_append_left _ (h.kept x hx ho)

/-- The binders `vs` become `ws`: different names not in use, one to one; other variables keep
theirs. -/
structure Renames (scope inner : Substitution) (vs ws used : List Var) : Prop where
  nodup : ws.Nodup
  unused : ∀ w ∈ ws, w ∉ used
  others : ∀ x, x ∉ vs → inner.image x = scope.image x
  image : ∀ x ∈ vs, ∃ w ∈ ws, inner.image x = .var w
  inj : ∀ x ∈ vs, ∀ y ∈ vs, inner.image x = inner.image y → x = y

variable {scope inner : Substitution} {vs ws : List Var}

/-- A name for a binder is one of the new names. -/
theorem Renames.mem_of_image (h : Renames scope inner vs ws used) {x y : Var} (hx : x ∈ vs)
    (he : inner.image x = .var y) : y ∈ ws := by
  obtain ⟨w, hw, hew⟩ := h.image x hx
  rw [he] at hew
  exact Term.var.inj hew ▸ hw

/-- One binder more in front: it has the name `w`, unless it is bound again. -/
theorem Renames.cons {v w : Var} (h : Renames (scope.insert v (.var w)) inner vs ws (w :: used))
    (hw : w ∉ used) : Renames scope inner (v :: vs) (w :: ws) used := by
  have hwws : w ∉ ws := fun hm => h.unused w hm List.mem_cons_self
  have hsame : v ∉ vs → inner.image v = .var w := fun hv => by
    rw [h.others v hv, Substitution.image_insert, if_pos rfl]
  refine ⟨List.nodup_cons.mpr ⟨hwws, h.nodup⟩, ?_, ?_, ?_, ?_⟩
  · intro x hx
    rcases List.mem_cons.mp hx with rfl | hx
    · exact hw
    · exact fun hm => h.unused x hx (List.mem_cons_of_mem _ hm)
  · intro x hx
    rw [List.mem_cons, not_or] at hx
    rw [h.others x hx.2, Substitution.image_insert, if_neg hx.1]
  · intro x hx
    by_cases hxv : x ∈ vs
    · obtain ⟨y, hy, he⟩ := h.image x hxv
      exact ⟨y, List.mem_cons_of_mem _ hy, he⟩
    · rcases List.mem_cons.mp hx with rfl | hx
      · exact ⟨w, List.mem_cons_self, hsame hxv⟩
      · exact (hxv hx).elim
  · -- A variable bound again later has a later name, and never that of another.
    have hcross : ∀ y ∈ vs, v ∉ vs → inner.image v ≠ inner.image y := fun y hy hv he =>
      hwws (h.mem_of_image hy (he.symm.trans (hsame hv)))
    intro x hx y hy he
    by_cases hxv : x ∈ vs <;> by_cases hyv : y ∈ vs
    · exact h.inj x hxv y hyv he
    · have hyv' : y = v := (List.mem_cons.mp hy).resolve_right hyv
      exact (hcross x hxv (hyv' ▸ hyv) (hyv' ▸ he.symm)).elim
    · have hxv' : x = v := (List.mem_cons.mp hx).resolve_right hxv
      exact (hcross y hyv (hxv' ▸ hxv) (hxv' ▸ he)).elim
    · rw [(List.mem_cons.mp hx).resolve_right hxv, (List.mem_cons.mp hy).resolve_right hyv]

theorem bindAll_renames (scope : Substitution) (h : b.Inv orig used) (hvs : ∀ v ∈ vs, v ∈ orig) :
    Renames scope (b.bindAll scope vs).2.1 vs (b.bindAll scope vs).1 used ∧
      ∃ used', (b.bindAll scope vs).2.2.Inv orig used' ∧
        ∀ x, x ∈ used' ↔ x ∈ (b.bindAll scope vs).1 ∨ x ∈ used := by
  induction vs generalizing b scope used with
  | nil =>
    exact ⟨⟨List.nodup_nil, by simp [bindAll], fun _ _ => rfl, by simp, by simp⟩,
      used, h, by simp [bindAll]⟩
  | cons v vs ih =>
    obtain ⟨hw, hInv⟩ := h.bind (hvs v List.mem_cons_self)
    rw [bindAll]
    generalize b.bind v = r at hw hInv
    obtain ⟨w, b₁⟩ := r
    simp only at hw hInv ⊢
    obtain ⟨hr, used', hInv', hused'⟩ := ih (scope.insert v (.var w)) hInv
      fun x hx => hvs x (List.mem_cons_of_mem _ hx)
    refine ⟨hr.cons hw, used', hInv', fun x => ?_⟩
    rw [hused', List.mem_cons, List.mem_cons]
    tauto

end BinderScan

/-! ## Sentences -/

namespace Sentence

/-- `s'` is `s` with its variables named by `scope` and its binders renamed to names not in use. -/
structure Renamed (scope : Substitution) (used used' : List Var) (s s' : Sentence) : Prop where
  nodup : s'.binders.Nodup
  unused : ∀ x ∈ s'.binders, x ∉ used
  noted : ∀ x ∈ s'.binders, x ∈ used'
  free : ∀ y, s'.Free y → ∃ x, s.Free x ∧ scope.image x = .var y
  holds : ∀ (D : Type u) (I : Interpretation D) (v : Var → D),
    s'.Holds I v ↔ s.Holds I fun x => (scope.image x).eval I v

variable {orig used used₁ used₂ : List Var} {scope inner : Substitution}

/-- The binders of two sentences renamed one after the other are distinct together. -/
theorem Renamed.append {l l' r r' : Sentence} (hl : Renamed.{u} scope used used₁ l l')
    (hr : Renamed.{u} scope used₁ used₂ r r') (h₁ : ∀ x ∈ used, x ∈ used₁)
    (h₂ : ∀ x ∈ used₁, x ∈ used₂) : (l'.binders ++ r'.binders).Nodup ∧
      (∀ x ∈ l'.binders ++ r'.binders, x ∉ used) ∧ ∀ x ∈ l'.binders ++ r'.binders, x ∈ used₂ := by
  refine ⟨List.nodup_append.mpr ⟨hl.nodup, hr.nodup, ?_⟩, fun x hx => ?_, fun x hx => ?_⟩
  · rintro x hx y hy rfl
    exact hr.unused x hy (hl.noted x hx)
  · rcases List.mem_append.mp hx with hx | hx
    · exact hl.unused x hx
    · exact fun hm => hr.unused x hx (h₁ x hm)
  · rcases List.mem_append.mp hx with hx | hx
    · exact h₂ x (hl.noted x hx)
    · exact hr.noted x hx

/-- A quantifier over renamed binders says the same: values for the new names are values for the old
ones, and back. -/
theorem Renamed.holds_quant {q : Quantifier} {vs ws : List Var} {s s' : Sentence} {D : Type u}
    {I : Interpretation D} {v : Var → D} (hr : BinderScan.Renames scope inner vs ws used)
    (hs : Renamed.{u} inner used₁ used₂ s s')
    (hscope : ∀ x, (Sentence.quant q vs s).Free x → ∃ y ∈ used, scope.image x = .var y) :
    (Sentence.quant q ws s').Holds I v ↔
      (Sentence.quant q vs s).Holds I fun x => (scope.image x).eval I v := by
  classical
  rw [Sentence.holds_quant, Sentence.holds_quant]
  refine (Quantifier.over_congr fun w _ => hs.holds D I w).trans
    (over_holds_iff (fun w x => (inner.image x).eval I w) (fun w hw x hx hxv => ?_) fun w' _ => ?_)
  · -- Names of other variables are in use, so these binders do not capture them.
    obtain ⟨y, hy, he⟩ := hscope x ⟨hxv, hx⟩
    rw [hr.others x hxv, he]
    exact hw y fun hm => hr.unused y hm hy
  · -- Each new name gets the value of the one variable that it stands for.
    refine ⟨fun y => if h : ∃ x ∈ vs, inner.image x = .var y then w' h.choose else v y,
      fun y hy => dif_neg fun ⟨x, hx, he⟩ => hy (hr.mem_of_image hx he), fun x hx => ?_⟩
    obtain ⟨y, -, he⟩ := hr.image x hx
    have hex : ∃ z ∈ vs, inner.image z = .var y := ⟨x, hx, he⟩
    rw [he, Term.eval_var, dif_pos hex,
      hr.inj _ hex.choose_spec.1 x hx (hex.choose_spec.2.trans he.symm)]

/-- The binders of a quantifier are renamed together with those under it. -/
theorem Renamed.quant {q : Quantifier} {vs ws : List Var} {s s' : Sentence}
    (hr : BinderScan.Renames scope inner vs ws used) (hs : Renamed.{u} inner used₁ used₂ s s')
    (h₁ : ∀ x, x ∈ used₁ ↔ x ∈ ws ∨ x ∈ used) (h₂ : ∀ x ∈ used₁, x ∈ used₂)
    (hscope : ∀ x, (Sentence.quant q vs s).Free x → ∃ y ∈ used, scope.image x = .var y) :
    Renamed.{u} scope used used₂ (.quant q vs s) (.quant q ws s') where
  nodup := by
    refine List.nodup_append.mpr ⟨hr.nodup, hs.nodup, ?_⟩
    rintro x hx y hy rfl
    exact hs.unused x hy ((h₁ x).mpr (.inl hx))
  unused x hx := by
    rcases List.mem_append.mp hx with hx | hx
    · exact hr.unused x hx
    · exact fun hm => hs.unused x hx ((h₁ x).mpr (.inr hm))
  noted x hx := by
    rcases List.mem_append.mp hx with hx | hx
    · exact h₂ x ((h₁ x).mpr (.inl hx))
    · exact hs.noted x hx
  free y hy := by
    obtain ⟨x, hx, he⟩ := hs.free y hy.2
    have hxv : x ∉ vs := fun hxv => hy.1 (hr.mem_of_image hxv he)
    exact ⟨x, ⟨hxv, hx⟩, by rw [← hr.others x hxv, he]⟩
  holds _ _ _ := hs.holds_quant hr hscope

theorem renameBinders_renamed {s : Sentence} (scope : Substitution) {b : BinderScan}
    (h : b.Inv orig used)
    (hs : ∀ x ∈ s.allVars, x ∈ orig)
    (hscope : ∀ x, s.Free x → ∃ y ∈ used, scope.image x = .var y) :
    ∃ used', (s.renameBinders scope b).2.Inv orig used' ∧ (∀ x ∈ used, x ∈ used') ∧
      Renamed.{u} scope used used' s (s.renameBinders scope b).1 := by
  induction s generalizing scope b used with
  | atom a =>
    refine ⟨used, h, fun _ hx => hx, List.nodup_nil, nofun, nofun, fun y hy => ?_, fun D I v => ?_⟩
    · obtain ⟨x, hx, hyx⟩ := free_subst (s := .atom a) (σ := scope) (fun x hx => nomatch hx) hy
      obtain ⟨z, -, he⟩ := hscope x hx
      rw [he, Term.occurrences_var, List.mem_singleton] at hyx
      exact ⟨x, hx, by rw [he, hyx]⟩
    · show (a.subst scope).Holds I v ↔ _
      rw [Atom.subst_eq_inst, Atom.holds_inst]
      rfl
  | not s ih =>
    obtain ⟨used', hInv, hsub, hr⟩ := ih scope h hs hscope
    exact ⟨used', hInv, hsub, hr.nodup, hr.unused, hr.noted, hr.free,
      fun D I v => not_congr (hr.holds D I v)⟩
  | and l r ihl ihr | or l r ihl ihr | implies l r ihl ihr | iff l r ihl ihr =>
    obtain ⟨used₁, hInv₁, hsub₁, hl⟩ := ihl scope h (fun x hx => hs x (List.mem_append_left _ hx))
      fun x hx => hscope x (.inl hx)
    obtain ⟨used₂, hInv₂, hsub₂, hr⟩ := ihr scope hInv₁ (fun x hx => hs x (List.mem_append_right _ hx))
      fun x hx => by
        obtain ⟨y, hy, he⟩ := hscope x (.inr hx)
        exact ⟨y, hsub₁ y hy, he⟩
    obtain ⟨hnd, hun, hno⟩ := hl.append hr hsub₁ hsub₂
    refine ⟨used₂, hInv₂, fun x hx => hsub₂ x (hsub₁ x hx), hnd, hun, hno, ?_, fun D I v => ?_⟩
    · rintro y (hy | hy)
      · obtain ⟨x, hx, he⟩ := hl.free y hy
        exact ⟨x, .inl hx, he⟩
      · obtain ⟨x, hx, he⟩ := hr.free y hy
        exact ⟨x, .inr hx, he⟩
    · simp only [renameBinders, Holds, hl.holds, hr.holds]
  | quant q vs s ih =>
    obtain ⟨hren, used₁, hInv₁, hused₁⟩ := BinderScan.bindAll_renames scope h
      fun v hv => hs v (List.mem_append_left _ hv)
    rw [renameBinders]
    generalize b.bindAll scope vs = r at hren hInv₁ hused₁
    obtain ⟨ws, inner, b₁⟩ := r
    simp only at hren hInv₁ hused₁ ⊢
    obtain ⟨used₂, hInv₂, hsub₂, hr⟩ := ih inner hInv₁
      (fun x hx => hs x (List.mem_append_right _ hx)) fun x hx => by
        by_cases hxv : x ∈ vs
        · obtain ⟨w, hw, he⟩ := hren.image x hxv
          exact ⟨w, (hused₁ w).mpr (.inl hw), he⟩
        · obtain ⟨y, hy, he⟩ := hscope x ⟨hxv, hx⟩
          exact ⟨y, (hused₁ y).mpr (.inr hy), by rw [hren.others x hxv, he]⟩
    exact ⟨used₂, hInv₂, fun x hx => hsub₂ x ((hused₁ x).mpr (.inr hx)),
      .quant hren hr hused₁ hsub₂ hscope⟩

/-- Where the renaming of a whole sentence starts, the names in use are those of its free variables. -/
theorem inv_start (s : Sentence) :
    BinderScan.Inv s.allVars { seen := s.free, taken := s.allVars.eraseDups, names := { stem := "q" } }
      s.free :=
  ⟨fun _ hx => hx, fun _ hx => List.mem_eraseDups.mpr (mem_allVars_of_free (mem_free.mp hx)),
    fun _ hx => List.mem_eraseDups.mpr hx, fun _ hx _ => hx⟩

/-- Distinct binders, as a renaming of the whole sentence. -/
theorem standardize_renamed (s : Sentence) :
    ∃ used', Renamed.{u} .empty s.free used' s s.standardize := by
  obtain ⟨used', -, -, h⟩ := renameBinders_renamed .empty s.inv_start (fun _ hx => hx)
    fun x hx => ⟨x, mem_free.mpr hx, rfl⟩
  exact ⟨used', h⟩

theorem holds_standardize {D : Type u} {I : Interpretation D} {s : Sentence} {v : Var → D} :
    s.standardize.Holds I v ↔ s.Holds I v := by
  obtain ⟨_, h⟩ := standardize_renamed.{u} s
  exact h.holds D I v

/-- No name is bound twice, and no bound name is free. -/
theorem standardize_distinct (s : Sentence) :
    s.standardize.binders.Nodup ∧ ∀ x, s.standardize.Free x → x ∉ s.standardize.binders := by
  obtain ⟨_, h⟩ := standardize_renamed.{0} s
  refine ⟨h.nodup, fun x hx hb => h.unused x hb ?_⟩
  obtain ⟨y, hy, he⟩ := h.free x hx
  rw [Substitution.image_empty] at he
  exact mem_free.mpr (Term.var.inj he ▸ hy)

/-! ## Terms -/

theorem bindAll_image {T : Term → Prop} (hT : Substitutive T) {b : BinderScan} {vs : List Var}
    (hscope : ∀ x, T (scope.image x)) (x : Var) : T ((b.bindAll scope vs).2.1.image x) := by
  induction vs generalizing b scope with
  | nil => exact hscope x
  | cons v vs ih =>
    refine ih (fun y => ?_)
    rw [Substitution.image_insert]
    split
    · exact hT.var _
    · exact hscope y

theorem AllTerms.renameBinders {T : Term → Prop} (hT : Substitutive T) {s : Sentence}
    (h : s.AllTerms T) (scope : Substitution) (hscope : ∀ x, T (scope.image x)) (b : BinderScan) :
    (s.renameBinders scope b).1.AllTerms T := by
  induction s generalizing scope b with
  | atom a => exact h.subst hT hscope
  | not s ih => exact ih h scope hscope b
  | and l r ihl ihr | or l r ihl ihr | implies l r ihl ihr | iff l r ihl ihr =>
    intro a ha
    rcases List.mem_append.mp ha with ha | ha
    · exact ihl (fun a ha => h a (List.mem_append_left _ ha)) scope hscope _ a ha
    · exact ihr (fun a ha => h a (List.mem_append_right _ ha)) scope hscope _ a ha
  | quant q vs s ih => exact ih h _ (bindAll_image hT hscope) _

theorem AllTerms.standardize {T : Term → Prop} (hT : Substitutive T) {s : Sentence}
    (h : s.AllTerms T) : s.standardize.AllTerms T := h.renameBinders hT .empty (fun x => hT.var x) _

end Sentence

end Refutation
