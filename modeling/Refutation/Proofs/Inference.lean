import Refutation.Calculus.Factoring
import Refutation.Calculus.Paramodulation
import Refutation.Calculus.Resolution
import Refutation.Proofs.Record
import Refutation.Proofs.Unification

/-!
# What is inferred checks

Inference and checker are written apart: one finds literals, positions and unifiers, the other
applies what is recorded and compares. With the occurs check, and for well-formed clauses, they
agree.

* `resolveOn_valid`, `paramodulantBy_valid`, `directFactors_valid`: one inference checks.
* `Session.resolvents_records`, `Session.paramodulants_records`, `factors_records`: so do all that
  a rule finds.
-/

namespace Refutation

variable {u : Unifier}

/-! ## Well-formed replacement -/

namespace Term

theorem wellFormed_at {t s : Term} {path : List Nat} (ht : t.wellFormed = true)
    (h : t.at? path = some s) : s.wellFormed = true := by
  induction path generalizing t with
  | nil => cases h; exact ht
  | cons i path ih =>
    obtain ⟨a, ha, hs⟩ := at?_cons_eq_some.mp h
    cases t with
    | var x => cases ha
    | const c => cases ha
    | app f as => exact ih ((wellFormed_app.mp ht).2 a (List.mem_of_getElem? ha)) hs

theorem wellFormed_replaceAt {t t' r : Term} {path : List Nat} (ht : t.wellFormed = true)
    (hr : r.wellFormed = true) (h : t.replaceAt? path r = some t') : t'.wellFormed = true := by
  induction path generalizing t t' with
  | nil => cases h; exact hr
  | cons i path ih =>
    obtain ⟨f, as, a, a', rfl, ha, ha', rfl⟩ := replaceAt?_cons_eq_some.mp h
    obtain ⟨hf, has⟩ := wellFormed_app.mp ht
    rw [wellFormed_app, List.length_set]
    refine ⟨hf, fun b hb => ?_⟩
    rcases List.mem_or_eq_of_mem_set hb with hb | rfl
    · exact has b hb
    · exact ih (has a (List.mem_of_getElem? ha)) ha'

end Term

theorem Atom.wellFormed_replaceAt {a a' : Atom} {i : Nat} {path : List Nat} {r : Term}
    (ha : a.wellFormed = true) (hr : r.wellFormed = true) (h : a.replaceAt? i path r = some a') :
    a'.wellFormed = true := by
  rw [wellFormed_iff] at ha ⊢
  obtain ⟨t, t', ht, ht', rfl⟩ := replaceAt?_eq_some.mp h
  obtain ⟨hi, -⟩ := List.getElem?_eq_some_iff.mp ht
  rw [args_setArg hi]
  intro s hs
  rcases List.mem_or_eq_of_mem_set hs with hs | rfl
  · exact ha s hs
  · exact Term.wellFormed_replaceAt (ha t (List.mem_of_getElem? ht)) hr ht'

namespace Clause

theorem wellFormed_resolve {c : Clause} {p : Position} {s : Term} (hc : c.wellFormed = true)
    (h : p.resolve? c = some s) : s.wellFormed = true := by
  obtain ⟨l, hl, h⟩ := Option.bind_eq_some_iff.mp h
  obtain ⟨t, ht, h⟩ := Option.bind_eq_some_iff.mp h
  have hlw := Atom.wellFormed_iff.mp (wellFormed_iff.mp hc l (List.mem_of_getElem? hl))
  exact Term.wellFormed_at (hlw t (List.mem_of_getElem? ht)) h

theorem wellFormed_replaceAt {c : Clause} {p : Position} {r : Term} {ls : List Literal}
    (hc : c.wellFormed = true) (hr : r.wellFormed = true) (h : c.replaceAt? p r = some ls) :
    ∀ l ∈ ls, l.atom.wellFormed = true := by
  obtain ⟨l, hl, h⟩ := Option.bind_eq_some_iff.mp h
  obtain ⟨a, ha, h⟩ := Option.bind_eq_some_iff.mp h
  cases h
  intro m hm
  rcases List.mem_or_eq_of_mem_set hm with hm | rfl
  · exact wellFormed_iff.mp hc m hm
  · exact Atom.wellFormed_replaceAt (wellFormed_iff.mp hc l (List.mem_of_getElem? hl)) hr ha

theorem wellFormed_without {c : Clause} (hc : c.wellFormed = true) {l m : Literal}
    (hm : m ∈ c.without l) : m.atom.wellFormed = true :=
  wellFormed_iff.mp hc m (mem_without.mp hm).1

end Clause

/-! ## Resolution -/

section Resolution

variable {left right : Clause} {l m : Literal} {ns ns' : NameSource} {i : Inference}

/-- A resolvent comes from opposite literals with a unifier. -/
theorem resolveOn_eq_some (h : resolveOn u left right l m ns = some (i, ns')) :
    l.positive ≠ m.positive ∧ l.sameSignature m = true ∧ ∃ σ, u.literals l m = .ok σ ∧
      i = ⟨(Clause.instantiateFresh (left.without l ++ right.without m) σ ns).clause, .resolve l σ
        (Clause.instantiateFresh (left.without l ++ right.without m) σ ns).rename⟩ := by
  unfold resolveOn at h
  split at h
  · cases h
  · rename_i hsig
    simp only [Bool.or_eq_true, decide_eq_true_eq, Bool.not_eq_true', not_or, Bool.not_eq_false] at hsig
    split at h
    · cases h
    · rename_i σ hσ
      cases h
      exact ⟨hsig.1, hsig.2, σ, hσ, rfl⟩

theorem resolveOn_valid (hu : u.occursCheck = true) (hleft : left.wellFormed = true)
    (hright : right.wellFormed = true) (hl : l ∈ left) (hm : m ∈ right)
    (h : resolveOn u left right l m ns = some (i, ns')) : i.Valid [left, right] := by
  obtain ⟨hsign, -, σ, hσ, rfl⟩ := resolveOn_eq_some h
  have hmgu := Unifier.literals_mostGeneral hu (Clause.wellFormed_iff.mp hleft l hl)
    (Clause.wellFormed_iff.mp hright m hm) hσ
  refine ⟨Rule.check_resolve.mpr ⟨hl, ?_⟩, ?_, rfl⟩
  · refine List.any_eq_true.mpr ⟨m, hm, ?_⟩
    simp only [Bool.and_eq_true, bne_iff_ne, beq_iff_eq, Atom.subst_eq_inst]
    exact ⟨⟨hsign.symm, hmgu.meets.symm⟩, Clause.same_refl _⟩
  · refine Clause.wellFormed_instantiateFresh (fun k hk => ?_) hmgu.wellFormed ns
    rcases List.mem_append.mp hk with hk | hk
    · exact Clause.wellFormed_without hleft hk
    · exact Clause.wellFormed_without hright hk

theorem resolventsApart_valid (hu : u.occursCheck = true) (hleft : left.wellFormed = true)
    (hright : right.wellFormed = true) (ns : NameSource) : ∀ i ∈ (resolventsApart u left right ns).1,
      i.Valid [left, right] := by
  intro i hi
  obtain ⟨⟨l, m⟩, hlm, ns₁, ns₂, h⟩ := mem_tryEach hi
  obtain ⟨l', hl, hlm⟩ := List.mem_flatMap.mp hlm
  obtain ⟨m', hm, hlm⟩ := List.mem_map.mp hlm
  cases hlm
  exact resolveOn_valid hu hleft hright hl hm h

end Resolution

/-! ## Paramodulation -/

section Paramodulation

variable {source into : Clause} {w : Replacement} {ns ns' : NameSource} {i : Inference}

/-- A replacement takes a positive equation in one of its directions. -/
theorem mem_replacements (h : w ∈ replacements source into) :
    ∃ l r, w.equation = .pos (.eq l r) ∧ w.equation ∈ source ∧
      w.before = (if w.leftToRight then l else r) ∧ w.after = if w.leftToRight then r else l := by
  obtain ⟨e, he, h⟩ := List.mem_flatMap.mp h
  obtain ⟨hmem, hpos⟩ := List.mem_filter.mp he
  obtain ⟨positive, a⟩ := e
  cases hpos
  cases a with
  | pred p args => cases h
  | eq l r =>
    obtain ⟨⟨before, after, leftToRight⟩, hdir, h⟩ := List.mem_flatMap.mp h
    obtain ⟨⟨m, i⟩, -, h⟩ := List.mem_flatMap.mp h
    obtain ⟨⟨arg, path⟩, -, rfl⟩ := List.mem_map.mp h
    simp only [List.mem_cons, Prod.mk.injEq, List.not_mem_nil, or_false] at hdir
    rcases hdir with ⟨rfl, rfl, rfl⟩ | ⟨rfl, rfl, rfl⟩
    · exact ⟨before, after, rfl, hmem, rfl, rfl⟩
    · exact ⟨after, before, rfl, hmem, rfl, rfl⟩

theorem paramodulantBy_valid (hu : u.occursCheck = true) (hsource : source.wellFormed = true)
    (hinto : into.wellFormed = true) (hw : w ∈ replacements source into)
    (h : paramodulantBy u source into w ns = some (i, ns')) : i.Valid [source, into] := by
  obtain ⟨l, r, he, hmem, hbefore, hafter⟩ := mem_replacements hw
  obtain ⟨s, hs, h⟩ := Option.bind_eq_some_iff.mp h
  obtain ⟨σ, hσ, h⟩ := Option.bind_eq_some_iff.mp h
  split at h
  · cases h
  obtain ⟨replaced, hreplaced, h⟩ := Option.bind_eq_some_iff.mp h
  cases h
  -- Both sides of the equation are well-formed, whatever its direction.
  have hsides := Atom.wellFormed_iff.mp (Clause.wellFormed_iff.mp hsource _ hmem)
  rw [he] at hsides
  have hl : l.wellFormed = true := hsides l (by simp [Literal.pos, Atom.args])
  have hr : r.wellFormed = true := hsides r (by simp [Literal.pos, Atom.args])
  have hbw : w.before.wellFormed = true := by rw [hbefore]; split <;> assumption
  have haw : w.after.wellFormed = true := by rw [hafter]; split <;> assumption
  have hok : u.terms s w.before = .ok σ := by
    cases ht : u.terms s w.before with
    | error e =>
      rw [ht] at hσ
      cases hσ
    | ok τ =>
      rw [ht] at hσ
      cases hσ
      rfl
  have hmgu := Unifier.terms_mostGeneral hu (Clause.wellFormed_resolve hinto hs) hbw hok
  refine ⟨checkParamodulant_eq_ok.mpr ⟨l, r, s, replaced, he, hmem, hs, ?_, ?_, Clause.same_refl _⟩,
    ?_, rfl⟩
  · rw [← hbefore, Term.subst_eq_inst, Term.subst_eq_inst]
    exact hmgu.meets
  · rw [← hafter]
    exact hreplaced
  · refine Clause.wellFormed_instantiateFresh (fun k hk => ?_) hmgu.wellFormed ns
    rcases List.mem_append.mp hk with hk | hk
    · exact Clause.wellFormed_without hsource hk
    · exact Clause.wellFormed_replaceAt hinto haw hreplaced k hk

theorem paramodulantsInto_valid (hu : u.occursCheck = true) (hsource : source.wellFormed = true)
    (hinto : into.wellFormed = true) (ns : NameSource) : ∀ i ∈ (paramodulantsInto u source into ns).1,
      i.Valid [source, into] := by
  intro i hi
  obtain ⟨w, hw, ns₁, ns₂, h⟩ := mem_tryEach hi
  exact paramodulantBy_valid hu hsource hinto hw h

end Paramodulation

/-! ## Factoring -/

theorem mem_pairs {α : Type} {xs : List α} {p : α × α} (h : p ∈ pairs xs) (hn : xs.Nodup) :
    p.1 ∈ xs ∧ p.2 ∈ xs ∧ p.1 ≠ p.2 := by
  induction xs with
  | nil => cases h
  | cons x xs ih =>
    obtain ⟨hx, hn⟩ := List.nodup_cons.mp hn
    rcases List.mem_append.mp h with h | h
    · obtain ⟨y, hy, rfl⟩ := List.mem_map.mp h
      refine ⟨List.mem_cons_self, List.mem_cons_of_mem _ hy, fun e => hx ?_⟩
      rw [show x = y from e]
      exact hy
    · obtain ⟨h₁, h₂, hne⟩ := ih h hn
      exact ⟨List.mem_cons_of_mem _ h₁, List.mem_cons_of_mem _ h₂, hne⟩

/-- Literals that become equal collapse. -/
theorem Clause.size_subst_lt {c : Clause} {l m : Literal} (hl : l ∈ c) (hm : m ∈ c) (hne : l ≠ m)
    {σ : Substitution} (h : l.subst σ = m.subst σ) : (c.subst σ).size < c.size := by
  have hsub : (c.subst σ).literals ⊆ (c.literals.erase l).map (Literal.subst σ) := by
    intro k hk
    obtain ⟨k', hk', rfl⟩ := mem_subst.mp hk
    by_cases hkl : k' = l
    · rw [hkl, h]
      exact List.mem_map_of_mem ((List.mem_erase_of_ne hne.symm).mpr hm)
    · exact List.mem_map_of_mem ((List.mem_erase_of_ne hkl).mpr hk')
  have hle := ((c.subst σ).nodup.subperm hsub).length_le
  rw [List.length_map, List.length_erase_of_mem hl] at hle
  have hpos : 0 < c.literals.length := List.length_pos_of_mem hl
  simp only [size]
  omega

/-- A direct factor comes from two literals of the same sign with a unifier. -/
theorem mem_directFactors {c : Clause} {i : Inference} (h : i ∈ directFactors u c) :
    ∃ l ∈ c, ∃ m ∈ c, l ≠ m ∧ l.positive = m.positive ∧ ∃ σ, u.literals l m = .ok σ ∧
      i = ⟨c.subst σ, .factor σ⟩ := by
  obtain ⟨⟨l, m⟩, hlm, h⟩ := List.mem_filterMap.mp h
  obtain ⟨hl, hm, hne⟩ := mem_pairs hlm c.nodup
  simp only at h
  split at h
  · cases h
  · rename_i hsig
    simp only [Bool.or_eq_true, bne_iff_ne, not_or, not_not] at hsig
    split at h
    · cases h
    · rename_i σ hσ
      cases h
      exact ⟨l, hl, m, hm, hne, hsig.1, σ, hσ, rfl⟩

/-- A direct factor is an instance with fewer literals. -/
theorem directFactors_cases (hu : u.occursCheck = true) {c : Clause} (hc : c.wellFormed = true)
    {i : Inference} (hi : i ∈ directFactors u c) :
    ∃ σ, i = ⟨c.subst σ, .factor σ⟩ ∧ σ.WellFormed ∧ (c.subst σ).size < c.size := by
  obtain ⟨l, hl, m, hm, hne, hsign, σ, hσ, rfl⟩ := mem_directFactors hi
  have hmgu := Unifier.literals_mostGeneral hu (Clause.wellFormed_iff.mp hc l hl)
    (Clause.wellFormed_iff.mp hc m hm) hσ
  have heq : l.subst σ = m.subst σ := by
    rw [Literal.subst, Literal.subst, hsign, Atom.subst_eq_inst, Atom.subst_eq_inst, hmgu.meets]
  exact ⟨σ, rfl, hmgu.wellFormed, Clause.size_subst_lt hl hm hne heq⟩

theorem directFactors_valid (hu : u.occursCheck = true) {c : Clause} (hc : c.wellFormed = true) :
    ∀ i ∈ directFactors u c, i.Valid [c] := by
  intro i hi
  obtain ⟨σ, rfl, hσ, hsize⟩ := directFactors_cases hu hc hi
  exact ⟨Rule.check_factor.mpr ⟨hsize, Clause.same_refl _⟩, Clause.wellFormed_subst hc hσ, rfl⟩

/-! ## All that a rule finds -/

variable {Φ : Rule → Clause → Prop}

namespace Session

variable {s : Session} {left right : Sourced}

theorem resolvents_records (hu : u.occursCheck = true) (hd : s.derivation.Checked Φ)
    (hl : left.StatedIn s.derivation) (hr : right.StatedIn s.derivation) :
    Derivation.Records Φ s.derivation (s.resolvents u left right).1
      (s.resolvents u left right).2.derivation := by
  have hsep := separate_records (c := left) hd hr
  unfold resolvents
  generalize s.separate left right = sep at hsep ⊢
  obtain ⟨right', s'⟩ := sep
  have hl' := hl.mono hsep.grows
  have hr' := hsep.stated right' (by simp)
  have hvalid := resolventsApart_valid hu (hsep.checked.wellFormed hl') (hsep.checked.wellFormed hr')
    s'.names
  have hrec := record_records hsep.checked [left, right'] (by simp [hl', hr']) hvalid
  exact ⟨hsep.grows.trans hrec.grows, hrec.checked, hrec.stated⟩

theorem paramodulants_records (hu : u.occursCheck = true) (hd : s.derivation.Checked Φ)
    (hl : left.StatedIn s.derivation) (hr : right.StatedIn s.derivation) :
    Derivation.Records Φ s.derivation (s.paramodulants u left right).1
      (s.paramodulants u left right).2.derivation := by
  have hsep := separate_records (c := left) hd hr
  unfold paramodulants
  generalize s.separate left right = sep at hsep ⊢
  obtain ⟨right', s'⟩ := sep
  have hl' := hl.mono hsep.grows
  have hr' := hsep.stated right' (by simp)
  have hlw := hsep.checked.wellFormed hl'
  have hrw := hsep.checked.wellFormed hr'
  have hforward := record_records hsep.checked [left, right'] (by simp [hl', hr'])
    (paramodulantsInto_valid hu hlw hrw s'.names)
  have hbackward := record_records hforward.checked [right', left]
    (by simp [hl'.mono hforward.grows, hr'.mono hforward.grows])
    (paramodulantsInto_valid hu hrw hlw (paramodulantsInto u left.clause right'.clause s'.names).2)
  have hall := hforward.append hbackward
  exact ⟨hsep.grows.trans hall.grows, hall.checked, hall.stated⟩

end Session

namespace Factors

variable {d : Derivation} {parent : Sourced} {fs : Factors}

theorem add_records (h : Derivation.Records Φ d fs.found fs.derivation)
    (hp : parent.StatedIn fs.derivation) {i : Inference} (hi : i.Valid [parent.clause])
    (whole : Clause) : Derivation.Records Φ d (add whole parent fs i).found (add whole parent fs i).derivation ∧
      fs.derivation.Extends (add whole parent fs i).derivation := by
  unfold add
  split
  · exact ⟨h, .refl _⟩
  · have hrec := hi.derive h.checked [parent] (by simpa using hp)
    exact ⟨h.append hrec, hrec.grows⟩

theorem expand_records (hu : u.occursCheck = true)
    (h : Derivation.Records Φ d fs.found fs.derivation) (hp : parent.StatedIn fs.derivation)
    (whole : Clause) : Derivation.Records Φ d (expand u whole fs parent).found (expand u whole fs parent).derivation ∧
      fs.derivation.Extends (expand u whole fs parent).derivation := by
  have hvalid := directFactors_valid hu (h.checked.wellFormed hp)
  unfold expand
  generalize directFactors u parent.clause = is at hvalid
  induction is generalizing fs with
  | nil => exact ⟨h, .refl _⟩
  | cons i is ih =>
    obtain ⟨h₁, he⟩ := add_records h hp (hvalid i List.mem_cons_self) whole
    obtain ⟨h₂, he'⟩ := ih h₁ (hp.mono he) fun j hj => hvalid j (List.mem_cons_of_mem _ hj)
    exact ⟨h₂, he.trans he'⟩

theorem foldl_expand_records (hu : u.occursCheck = true) {level : List Sourced}
    (h : Derivation.Records Φ d fs.found fs.derivation)
    (hp : ∀ parent ∈ level, parent.StatedIn fs.derivation) (whole : Clause) :
    Derivation.Records Φ d (level.foldl (expand u whole) fs).found
      (level.foldl (expand u whole) fs).derivation := by
  induction level generalizing fs with
  | nil => exact h
  | cons parent level ih =>
    obtain ⟨h₁, he⟩ := expand_records hu h (hp parent List.mem_cons_self) whole
    exact ih h₁ fun q hq => (hp q (List.mem_cons_of_mem _ hq)).mono he

theorem rounds_records (hu : u.occursCheck = true) {n : Nat} {level : List Sourced}
    (h : Derivation.Records Φ d fs.found fs.derivation)
    (hp : ∀ parent ∈ level, parent.StatedIn fs.derivation) (whole : Clause) :
    Derivation.Records Φ d (rounds u whole n level fs).found (rounds u whole n level fs).derivation := by
  induction n generalizing level fs with
  | zero => exact h
  | succ n ih =>
    cases level with
    | nil => exact h
    | cons parent level =>
      have h₁ := foldl_expand_records hu h hp whole
      exact ih h₁ fun q hq => h₁.stated q (List.mem_of_mem_drop hq)

end Factors

/-- Factoring takes at least as many rounds as the clause has literals. -/
theorem factors_eq (u : Unifier) (c : Sourced) (d : Derivation) : ∃ n, c.clause.size ≤ n ∧
    factors u c d = ((Factors.rounds u c.clause n [c] { derivation := d }).found,
      (Factors.rounds u c.clause n [c] { derivation := d }).derivation) := by
  refine ⟨factorRounds c.clause, ?_, ?_⟩
  · rw [factorRounds]
    omega
  · rw [factors]

theorem factors_records (hu : u.occursCheck = true) {c : Sourced} {d : Derivation} (hd : d.Checked Φ)
    (hc : c.StatedIn d) : Derivation.Records Φ d (factors u c d).1 (factors u c d).2 := by
  obtain ⟨n, -, he⟩ := factors_eq u c d
  rw [he]
  exact Factors.rounds_records hu (.nil hd) (by simpa using hc) _

end Refutation
