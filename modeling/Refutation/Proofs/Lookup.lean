import Refutation.Proofs.Depth
import Refutation.Proofs.History
import Refutation.Proofs.Matching
import Refutation.Proofs.Renaming

/-!
# Looking up facts

A look-up unifies a literal with a copy of each stored unit clause, one after the other. The copy has
fresh variables, so whatever is put for the variables of the literal and for those of the clause can be
put for both at once. Of a unifier only the bindings of the literal's own variables are kept: they
decide what becomes of the literal.

* `KnowledgeBase.fetched`, `KnowledgeBase.FetchExceeds`: how far a look-up is after some unit clauses,
  and that it comes to the depth limit at one.
* `KnowledgeBase.fetchFrom_cases`: what one unit clause adds.
* `KnowledgeBase.answer_sound`, `KnowledgeBase.answer_complete`: what the unifier with one unit clause
  says.
* `KnowledgeBase.Found`, `KnowledgeBase.Found.step`: what the bindings found so far say, and that one
  unit clause more keeps it.
* `History.fetch_exact`: what a look-up returns.

Whether a literal is a stored fact up to the names of its variables is found by a match in one direction
only.

* `Literal.InstanceOf`, `Literal.isRenaming_iff_of_matchTo`: what the bindings of a match say about the
  other direction.
* `KnowledgeBase.isRenaming_exact`: the literal and some stored fact are instances of each other.
-/

namespace Refutation

/-- A literal is what the bindings of its own variables make of it. -/
theorem Literal.subst_restrict (l : Literal) (σ : Substitution) :
    l.subst (σ.restrict l.vars) = l.subst σ := by
  rw [subst_eq_inst, subst_eq_inst]
  refine inst_congr fun x hx => ?_
  have hvars : x ∈ l.vars := List.mem_eraseDups.mpr hx
  rw [Substitution.image, Substitution.get?_restrict, if_pos hvars, Substitution.image]

/-- The copy of a unit clause is a unit clause. -/
theorem Clause.literals_renameApart {c : Clause} {u : Literal} (h : c.literals = [u]) (avoid : List Var)
    (ns : NameSource) :
    (c.renameApart avoid ns).clause.literals = [u.subst (c.renameApart avoid ns).rename] := by
  show (c.literals.map (Literal.subst (c.renameApart avoid ns).rename)).eraseDups = _
  rw [h]
  exact eraseDups_eq_self (List.nodup_singleton _)

namespace KnowledgeBase

/-- The bindings that a look-up of the literal has found in the given unit clauses, and the names that it
goes on with. -/
def fetched (l : Literal) (cs : List Clause) : List Substitution × NameSource :=
  cs.foldl (fetchFrom l) ([], { stem := "f" })

/-- The literal of a unit clause as it is unified with `l`, its variables renamed with names from the
source. -/
def copy (l : Literal) (c : Clause) (ns : NameSource) (u : Literal) : Literal :=
  u.subst (c.renameApart l.vars ns).rename

/-- The literal and a unit clause come to the depth limit, when the look-up has seen the clauses
before. -/
def Exceeds (l : Literal) (before : List Clause) (c : Clause) : Prop :=
  ∃ u, c.literals = [u] ∧
    ({} : Unifier).literals l (copy l c (fetched l before).2 u) = .error (.depthExceeded 256)

/-- The look-up of the literal comes to the depth limit at the unit clause. -/
def FetchExceeds (kb : KnowledgeBase) (l : Literal) (c : Clause) : Prop :=
  ∃ before, before ++ [c] <+: kb.unitClauses ∧ Exceeds l before c

variable {l u : Literal} {c : Clause}

/-! ## One unit clause -/

theorem wellFormed_copy (hu : u.atom.wellFormed = true) (ns : NameSource) :
    (copy l c ns u).atom.wellFormed = true :=
  Atom.wellFormed_subst hu (c.renameApart_freshens l.vars ns).wellFormed

/-- A unifier with the copy makes the literal an instance of the unit clause. -/
theorem answer_sound (hl : l.atom.wellFormed = true) (hu : u.atom.wellFormed = true)
    (hsign : u.positive = l.positive) {ns : NameSource} {υ : Substitution}
    (h : ({} : Unifier).literals l (copy l c ns u) = .ok υ) :
    ∃ τ, l.subst (υ.restrict l.vars) = u.subst τ := by
  have hmeets := (Unifier.literals_mostGeneral rfl hl (wellFormed_copy hu ns) h).meets
  rw [← Atom.subst_eq_inst, ← Atom.subst_eq_inst] at hmeets
  refine ⟨(c.renameApart l.vars ns).rename.compose υ, ?_⟩
  calc l.subst (υ.restrict l.vars) = l.subst υ := l.subst_restrict υ
    _ = (copy l c ns u).subst υ := by rw [Literal.subst, Literal.subst, hmeets, ← hsign]; rfl
    _ = u.subst ((c.renameApart l.vars ns).rename.compose υ) := (Literal.subst_compose ..).symm

/-- Where the literal and the unit clause have a common instance, the copy unifies, and the instance is
one of what the kept bindings make of the literal; or else the limit is reached. -/
theorem answer_complete (hl : l.atom.wellFormed = true) (hu : u.atom.wellFormed = true)
    (hc : c.literals = [u]) (ns : NameSource) {σ τ : Substitution} (h : l.subst σ = u.subst τ) :
    ({} : Unifier).literals l (copy l c ns u) = .error (.depthExceeded 256) ∨
      ∃ υ, ({} : Unifier).literals l (copy l c ns u) = .ok υ ∧
        ∃ δ, (l.subst (υ.restrict l.vars)).subst δ = l.subst σ := by
  have hcopy := wellFormed_copy (l := l) (c := c) hu ns
  -- Both substitutions at once, the second through the fresh variables.
  obtain ⟨θ, hσ, hτ⟩ := c.renameApart_joint l.vars ns σ.image τ.image
  have hleft : l.inst θ = l.subst σ := by
    rw [Literal.subst_eq_inst]
    exact Literal.inst_congr fun x hx => hσ x (List.mem_eraseDups.mpr hx)
  have hright : (copy l c ns u).inst θ = u.subst τ := by
    rw [copy, hτ u (by simp [Clause.mem_iff, hc]), Literal.subst_eq_inst]
  have hatom : l.atom.inst θ = (copy l c ns u).atom.inst θ :=
    congrArg Literal.atom (hleft.trans (h.trans hright.symm))
  cases hunify : ({} : Unifier).literals l (copy l c ns u) with
  | error e =>
    obtain ⟨n, rfl⟩ := Unifier.literals_complete rfl hl hcopy hatom hunify
    obtain ⟨rfl, -⟩ := Unifier.extendAtoms_exceeded rfl (Attempt.toExcept_eq_error.mp hunify)
    exact .inl rfl
  | ok υ =>
    have hgeneral := (Unifier.literals_mostGeneral rfl hl hcopy hunify).general θ hatom
    obtain ⟨δ, hδ⟩ := Substitution.exists_image_eq θ (l.subst υ).occurrences
    refine .inr ⟨υ, rfl, δ, ?_⟩
    calc (l.subst (υ.restrict l.vars)).subst δ = (l.subst υ).subst δ := by rw [l.subst_restrict]
      _ = (l.subst υ).inst θ := (Literal.subst_eq_inst ..).trans (Literal.inst_congr hδ)
      _ = l.inst θ := hgeneral.literal l
      _ = l.subst σ := hleft

/-! ## One after the other -/

/-- No two of the substitutions are the same map. -/
def Different (σs : List Substitution) : Prop := σs.Pairwise fun θ θ' => ¬∀ x, θ.get? x = θ'.get? x

/-- The second list has the substitutions of the first, and `θ` too unless one of them is the same. -/
structure Adds (θ : Substitution) (σs σs' : List Substitution) : Prop where
  kept : ∀ θ' ∈ σs, θ' ∈ σs'
  only : ∀ θ' ∈ σs', θ' ∈ σs ∨ θ' = θ
  added : ∃ θ' ∈ σs', ∀ x, θ'.get? x = θ.get? x
  different : Different σs → Different σs'

theorem adds_unless_same (θ : Substitution) (σs : List Substitution) :
    Adds θ σs (if σs.any (·.same θ) then σs else σs ++ [θ]) := by
  split
  · rename_i h
    obtain ⟨θ', hmem, hsame⟩ := List.any_eq_true.mp h
    exact ⟨fun _ => id, fun _ => .inl, ⟨θ', hmem, Substitution.same_iff.mp hsame⟩, id⟩
  · rename_i h
    refine ⟨fun _ => List.mem_append_left _, fun θ' hθ' => ?_, ⟨θ, by simp, fun _ => rfl⟩, fun hd => ?_⟩
    · simpa using hθ'
    · refine List.pairwise_append.mpr ⟨hd, List.pairwise_singleton .., fun θ' hθ' θ'' hθ'' hsame => h ?_⟩
      cases List.mem_singleton.mp hθ''
      exact List.any_eq_true.mpr ⟨θ', hθ', Substitution.same_iff.mpr hsame⟩

/-- A unit clause of the other sign, or one that does not unify, adds nothing; otherwise the unifier is
added, as far as it binds the literal's variables. -/
theorem fetchFrom_cases (hc : c.literals = [u]) (σs : List Substitution) (ns : NameSource) :
    (fetchFrom l (σs, ns) c).1 = σs ∧
      (u.positive ≠ l.positive ∨ ∃ e, ({} : Unifier).literals l (copy l c ns u) = .error e) ∨
    ∃ υ, u.positive = l.positive ∧ ({} : Unifier).literals l (copy l c ns u) = .ok υ ∧
      Adds (υ.restrict l.vars) σs (fetchFrom l (σs, ns) c).1 := by
  have hliterals := c.literals_renameApart hc l.vars ns
  simp only [fetchFrom, hliterals]
  split
  · rename_i hsign
    exact .inl ⟨rfl, .inl (by simpa [Literal.subst] using hsign)⟩
  · rename_i hsign
    split
    · rename_i e he
      exact .inl ⟨rfl, .inr ⟨e, he⟩⟩
    · rename_i υ hυ
      exact .inr ⟨υ, by simpa [Literal.subst] using hsign, hυ, adds_unless_same ..⟩

/-- What the bindings found in some unit clauses say: they bind variables of the literal, they make it an
instance of a clause, every common instance with a clause is an instance of what one of them makes of
it, and no two are the same. -/
structure Found (l : Literal) (cs : List Clause) (σs : List Substitution) : Prop where
  domain : ∀ θ ∈ σs, ∀ x ∈ θ.domain, x ∈ l.vars
  sound : ∀ θ ∈ σs, ∃ c ∈ cs, ∃ u, c.literals = [u] ∧ ∃ τ, l.subst θ = u.subst τ
  complete : ∀ before c, before ++ [c] <+: cs → ∀ u, c.literals = [u] →
    ∀ σ τ : Substitution, l.subst σ = u.subst τ →
      Exceeds l before c ∨ ∃ θ ∈ σs, ∃ δ, (l.subst θ).subst δ = l.subst σ
  different : Different σs

variable {cs : List Clause} {σs σs' : List Substitution} {θ : Substitution}

theorem found_nil (l : Literal) : Found l [] [] :=
  ⟨nofun, nofun, fun before c h => by simp at h, .nil⟩

theorem Found.complete_append (h : Found l cs σs) (hc : c.literals = [u]) (hkept : ∀ θ ∈ σs, θ ∈ σs')
    (hnew : ∀ σ τ : Substitution, l.subst σ = u.subst τ →
      Exceeds l cs c ∨ ∃ θ ∈ σs', ∃ δ, (l.subst θ).subst δ = l.subst σ) :
    ∀ before d, before ++ [d] <+: cs ++ [c] → ∀ v, d.literals = [v] →
      ∀ σ τ : Substitution, l.subst σ = v.subst τ →
        Exceeds l before d ∨ ∃ θ ∈ σs', ∃ δ, (l.subst θ).subst δ = l.subst σ := by
  intro before d hseen v hd σ τ heq
  rcases List.prefix_concat_iff.mp hseen with hlast | hearlier
  · obtain ⟨rfl, hdc⟩ := List.append_inj' hlast rfl
    cases hdc
    cases hc.symm.trans hd
    exact hnew σ τ heq
  · refine (h.complete before d hearlier v hd σ τ heq).imp id ?_
    rintro ⟨θ, hθ, hδ⟩
    exact ⟨θ, hkept θ hθ, hδ⟩

/-- A unit clause without a common instance adds nothing. -/
theorem Found.skip (h : Found l cs σs) (hc : c.literals = [u])
    (hnone : ∀ σ τ : Substitution, l.subst σ = u.subst τ → Exceeds l cs c) : Found l (cs ++ [c]) σs where
  domain := h.domain
  sound θ hθ := by
    obtain ⟨d, hd, hsound⟩ := h.sound θ hθ
    exact ⟨d, List.mem_append_left _ hd, hsound⟩
  complete := h.complete_append hc (fun _ => id) fun σ τ heq => .inl (hnone σ τ heq)
  different := h.different

/-- A unit clause adds bindings that make the literal an instance of it, and as general as can be. -/
theorem Found.add (h : Found l cs σs) (hadds : Adds θ σs σs') (hc : c.literals = [u])
    (hdomain : ∀ x ∈ θ.domain, x ∈ l.vars) (hsound : ∃ τ, l.subst θ = u.subst τ)
    (hcomplete : ∀ σ τ : Substitution, l.subst σ = u.subst τ →
      Exceeds l cs c ∨ ∃ δ, (l.subst θ).subst δ = l.subst σ) : Found l (cs ++ [c]) σs' where
  domain θ' hθ' := by
    rcases hadds.only θ' hθ' with hold | rfl
    · exact h.domain θ' hold
    · exact hdomain
  sound θ' hθ' := by
    rcases hadds.only θ' hθ' with hold | rfl
    · obtain ⟨d, hd, hsound⟩ := h.sound θ' hold
      exact ⟨d, List.mem_append_left _ hd, hsound⟩
    · exact ⟨c, by simp, u, hc, hsound⟩
  complete := by
    obtain ⟨θ', hmem, hsame⟩ := hadds.added
    have hsubst : l.subst θ' = l.subst θ := by
      rw [Literal.subst_eq_inst, Literal.subst_eq_inst]
      exact Literal.inst_congr fun x _ => by rw [Substitution.image, hsame, Substitution.image]
    refine h.complete_append hc hadds.kept fun σ τ heq => (hcomplete σ τ heq).imp id fun hδ => ?_
    exact ⟨θ', hmem, hsubst ▸ hδ⟩
  different := hadds.different h.different

theorem fetched_append (l : Literal) (cs : List Clause) (c : Clause) :
    fetched l (cs ++ [c]) = fetchFrom l (fetched l cs) c := List.foldl_concat ..

/-- One unit clause more. -/
theorem Found.step (h : Found l cs (fetched l cs).1) (hl : l.atom.wellFormed = true)
    (hu : u.atom.wellFormed = true) (hc : c.literals = [u]) :
    Found l (cs ++ [c]) (fetched l (cs ++ [c])).1 := by
  have hcomplete := fun σ τ => answer_complete (σ := σ) (τ := τ) hl hu hc (fetched l cs).2
  rw [fetched_append]
  rcases fetchFrom_cases hc (fetched l cs).1 (fetched l cs).2 with ⟨hsame, hno⟩ | ⟨υ, hsign, hυ, hadds⟩
  · rw [hsame]
    refine h.skip hc fun σ τ heq => ?_
    rcases hcomplete σ τ heq with herror | ⟨υ, hυ, -⟩
    · exact ⟨u, hc, herror⟩
    · rcases hno with hsign | ⟨e, he⟩
      · exact absurd (congrArg Literal.positive heq).symm hsign
      · cases he.symm.trans hυ
  · refine h.add hadds hc (fun x hx => ?_) (answer_sound hl hu hsign hυ) fun σ τ heq => ?_
    · by_contra hvars
      exact absurd hx (Substitution.get?_eq_none.mp (by rw [Substitution.get?_restrict, if_neg hvars]))
    · rcases hcomplete σ τ heq with herror | ⟨υ', hυ', hδ⟩
      · exact .inl ⟨u, hc, herror⟩
      · cases hυ.symm.trans hυ'
        exact .inr hδ

/-- All unit clauses, one after the other. -/
theorem found_fetched (hl : l.atom.wellFormed = true)
    (hcs : ∀ c ∈ cs, ∃ u, c.literals = [u] ∧ u.atom.wellFormed = true) :
    Found l cs (fetched l cs).1 := by
  induction cs using List.reverseRecOn with
  | nil => exact found_nil l
  | append_singleton cs c ih =>
    obtain ⟨u, hc, hu⟩ := hcs c (by simp)
    exact (ih fun d hd => hcs d (List.mem_append_left _ hd)).step hl hu hc

theorem mem_unitClauses {kb : KnowledgeBase} :
    c ∈ kb.unitClauses ↔ c ∈ kb.clauses ∧ ∃ u, c.literals = [u] := by
  rw [unitClauses, List.mem_filter, Clause.isUnit, Clause.size, beq_iff_eq, List.length_eq_one_iff]

/-- The look-up in a knowledge base of well-formed clauses. -/
theorem found_fetch {kb : KnowledgeBase} (hkb : ∀ c ∈ kb.clauses, c.wellFormed = true)
    (hl : l.atom.wellFormed = true) : Found l kb.unitClauses (kb.fetch l) := by
  refine found_fetched hl fun c hc => ?_
  obtain ⟨hmem, u, hu⟩ := mem_unitClauses.mp hc
  exact ⟨u, hu, Clause.wellFormed_iff.mp (hkb c hmem) u (by simp [Clause.mem_iff, hu])⟩

end KnowledgeBase

namespace History

/-- What a look-up in any knowledge base returns binds variables of the literal only and makes it an
instance of a stored unit clause. Every common instance of the literal and a stored unit clause is an
instance of what is returned, unless their unification comes to the depth limit. No two answers are the
same. -/
theorem fetch_exact (rs : List Request) {l : Literal} (hl : l.atom.wellFormed = true) :
    (∀ θ ∈ (after rs).kb.fetch l, (∀ x ∈ θ.domain, x ∈ l.vars) ∧
      ∃ c ∈ (after rs).kb.clauses, ∃ u, c.literals = [u] ∧ u.positive = l.positive ∧
        ∃ τ, l.subst θ = u.subst τ) ∧
    (∀ c ∈ (after rs).kb.clauses, ∀ u, c.literals = [u] → u.positive = l.positive →
      ∀ σ τ : Substitution, l.subst σ = u.subst τ →
        (after rs).kb.FetchExceeds l c ∨
          ∃ θ ∈ (after rs).kb.fetch l, ∃ δ, (l.subst θ).subst δ = l.subst σ) ∧
    ((after rs).kb.fetch l).Pairwise fun θ θ' => ¬∀ x, θ.get? x = θ'.get? x := by
  have hfound := KnowledgeBase.found_fetch (History.wellFormed rs) hl
  refine ⟨fun θ hθ => ⟨hfound.domain θ hθ, ?_⟩, fun c hc u hu _ σ τ heq => ?_, hfound.different⟩
  · obtain ⟨c, hc, u, hu, τ, heq⟩ := hfound.sound θ hθ
    obtain ⟨hmem, -⟩ := KnowledgeBase.mem_unitClauses.mp hc
    exact ⟨c, hmem, u, hu, (congrArg Literal.positive heq).symm, τ, heq⟩
  · obtain ⟨before, later, hsplit⟩ :=
      List.append_of_mem (KnowledgeBase.mem_unitClauses.mpr ⟨hc, u, hu⟩)
    have hseen : before ++ [c] <+: (after rs).kb.unitClauses := ⟨later, by simp [hsplit]⟩
    exact (hfound.complete before c hseen u hu σ τ heq).imp (fun h => ⟨before, hseen, h⟩) id

/-- Facts about `P`, three of which have a common instance with `P(x, B)`. -/
def pairs : List Request :=
  [.tellClause (.ofList [.pos (.pred "P" [.var ⟨"x"⟩, .var ⟨"y"⟩])]),
    .tellClause (.ofList [.pos (.pred "P" [.const "A", .var ⟨"x"⟩])]),
    .tellClause (.ofList [.pos (.pred "P" [.const "A", .const "B"])]),
    .tellClause (.ofList [.neg (.pred "P" [.const "C", .const "B"])])]

/-- Two of the facts leave the same binding, and the one with the literal's own variable names leaves a
fresh name. -/
theorem pairs_fetch_exact :
    let l := Literal.pos (.pred "P" [.var ⟨"x"⟩, .const "B"])
    let fact := Literal.pos (.pred "P" [.const "A", .var ⟨"x"⟩])
    ((after pairs).kb.fetch l).map Substitution.bindings =
      [[(⟨"x"⟩, .var ⟨"f0"⟩)], [(⟨"x"⟩, .const "A")]] ∧
    l.atom.wellFormed = true ∧ ¬(after pairs).kb.FetchExceeds l (.ofList [fact]) ∧
    (∃ θ ∈ (after pairs).kb.fetch l, ∃ δ,
      (l.subst θ).subst δ = .pos (.pred "P" [.const "A", .const "B"])) ∧
    ((after pairs).kb.fetch l).Pairwise fun θ θ' => ¬∀ x, θ.get? x = θ'.get? x := by
  intro l fact
  obtain ⟨-, hcomplete, hdifferent⟩ := fetch_exact pairs (l := l) (by decide)
  have hunifies : ∀ before ∈ (after pairs).kb.unitClauses.inits, ∀ u ∈ (Clause.ofList [fact]).literals,
      (({} : Unifier).literals l (KnowledgeBase.copy l (.ofList [fact])
        (KnowledgeBase.fetched l before).2 u)).isOk = true := by
    decide +kernel
  have hwithin : ¬(after pairs).kb.FetchExceeds l (.ofList [fact]) := by
    rintro ⟨before, hseen, u, hu, herror⟩
    have hok := hunifies before ((List.mem_inits ..).mpr ((List.prefix_append ..).trans hseen)) u
      (by simp [hu])
    rw [herror] at hok
    cases hok
  have hcommon := hcomplete (.ofList [fact]) (by decide +kernel) fact (by decide) (by decide)
    (.ofList [(⟨"x"⟩, .const "A")]) (.ofList [(⟨"x"⟩, .const "B")]) (by decide)
  exact ⟨by decide +kernel, by decide, hwithin, hcommon.resolve_left hwithin, hdifferent⟩

end History

/-! ## Facts up to names -/

namespace Literal

variable {l u : Literal} {σ : Substitution}

/-- A substitution makes the first literal of the second. -/
def InstanceOf (m l : Literal) : Prop := ∃ σ : Substitution, l.subst σ = m

/-- A match from nothing binds the variables of the pattern, and these only. -/
theorem mem_occurrences_of_matchTo (h : u.matchTo .empty l = (true, σ)) {x : Var} :
    x ∈ u.occurrences ↔ ∃ t, σ.get? x = some t := by
  rw [← Option.isSome_iff_exists, Option.isSome_iff_ne_none, ne_eq, Substitution.get?_eq_none, not_not,
    (matchTo_sound h).1.domain_eq, List.mem_eraseDups]
  rfl

/-- A one-to-one renaming of the variables of a literal can be undone. -/
theorem instanceOf_rename (u : Literal) (π : Equiv.Perm Var) : u.InstanceOf (u.rename π) := by
  obtain ⟨τ, hτ⟩ := Substitution.exists_image_eq (fun x => .var (π.symm x)) (u.rename π).occurrences
  refine ⟨τ, ?_⟩
  calc (u.rename π).subst τ = (u.rename π).rename π.symm := (subst_eq_inst ..).trans (inst_congr hτ)
    _ = u := by rw [rename_rename, Equiv.self_trans_symm, rename_refl]

/-- If all that a match has bound are different variables, the match can be undone. -/
theorem instanceOf_of_isRenaming (h : u.matchTo .empty l = (true, σ)) (hren : σ.isRenaming = true) :
    u.InstanceOf l := by
  obtain ⟨-, hinj⟩ := Substitution.isRenaming_iff.mp hren
  obtain ⟨f, hf⟩ := Substitution.exists_var_of_isRenaming hren
  have hget : ∀ x ∈ u.occurrences, σ.get? x = some (.var (f x)) := by
    intro x hx
    obtain ⟨t, ht⟩ := (mem_occurrences_of_matchTo h).mp hx
    rw [ht, ← hf x, Substitution.image_of_get? ht]
  have hone : ∀ x ∈ u.occurrences, ∀ y ∈ u.occurrences, f x = f y → x = y := by
    intro x hx y hy hxy
    exact hinj x y (.var (f x)) (hget x hx) (hxy ▸ hget y hy)
  obtain ⟨π, hπ⟩ := Var.exists_perm hone
  have hrename : u.rename π = l := by
    rw [← (matchTo_sound h).2 σ (.refl σ), subst_eq_inst]
    exact inst_congr fun x hx => by rw [hπ x hx, hf x]
  exact hrename ▸ u.instanceOf_rename π

/-- What a match has bound is a renaming exactly if the pattern is an instance of the target in turn. -/
theorem isRenaming_iff_of_matchTo (h : u.matchTo .empty l = (true, σ)) :
    σ.isRenaming = true ↔ u.InstanceOf l := by
  refine ⟨instanceOf_of_isRenaming h, ?_⟩
  rintro ⟨τ, hτ⟩
  have hback : u.inst (fun x => (σ.image x).inst τ.image) = u := by
    rw [← inst_inst, ← subst_eq_inst σ, (matchTo_sound h).2 σ (.refl σ), ← subst_eq_inst, hτ]
  have hundo : ∀ x t, σ.get? x = some t → t.inst τ.image = .var x := by
    intro x t ht
    rw [← Substitution.image_of_get? ht]
    exact eq_var_of_inst_eq_self hback x ((mem_occurrences_of_matchTo h).mpr ⟨t, ht⟩)
  refine Substitution.isRenaming_iff.mpr ⟨fun x t ht => ?_, fun x y t hx hy => ?_⟩
  · -- Only an instance of a variable is a variable.
    cases t with
    | var y => exact ⟨y, rfl⟩
    | const c => cases hundo x _ ht
    | app f args => cases hundo x _ ht
  · exact Term.var.inj ((hundo x t hx).symm.trans (hundo y t hy))

end Literal

namespace KnowledgeBase

/-- A literal is a known fact exactly if a stored unit clause and it are instances of each other. -/
theorem isRenaming_exact (kb : KnowledgeBase) (l : Literal) :
    kb.isRenaming l = true ↔ ∃ c ∈ kb.clauses, ∃ u, c.literals = [u] ∧ u.positive = l.positive ∧
      l.InstanceOf u ∧ u.InstanceOf l := by
  rw [isRenaming, List.any_eq_true]
  constructor
  · rintro ⟨c, hc, hknown⟩
    obtain ⟨hmem, u, hu⟩ := mem_unitClauses.mp hc
    refine ⟨c, hmem, u, hu, ?_⟩
    rw [hu, List.head?_cons, Option.any_some] at hknown
    split at hknown
    · rename_i σ hmatch
      have hinst : u.subst σ = l := (Literal.matchTo_sound hmatch).2 σ (.refl σ)
      exact ⟨by rw [← hinst]; rfl, ⟨σ, hinst⟩, (Literal.isRenaming_iff_of_matchTo hmatch).mp hknown⟩
    · cases hknown
  · rintro ⟨c, hmem, u, hu, -, ⟨σ, hinst⟩, hback⟩
    refine ⟨c, mem_unitClauses.mpr ⟨hmem, u, hu⟩, ?_⟩
    obtain ⟨σ', hmatch, -⟩ := u.matchTo_complete (Substitution.agrees_empty σ.image)
    rw [← Literal.subst_eq_inst, hinst] at hmatch
    rw [hu, List.head?_cons, Option.any_some, hmatch]
    exact (Literal.isRenaming_iff_of_matchTo hmatch).mpr hback

/-- The names of the variables may be permuted, but two variables are never one. -/
example :
    let kb := KnowledgeBase.empty.store [.ofList [.pos (.pred "P" [.var ⟨"x"⟩, .var ⟨"y"⟩])]]
    kb.isRenaming (.pos (.pred "P" [.var ⟨"y"⟩, .var ⟨"x"⟩])) = true ∧
      kb.isRenaming (.pos (.pred "P" [.var ⟨"x"⟩, .var ⟨"x"⟩])) = false := by
  decide

end KnowledgeBase

end Refutation
