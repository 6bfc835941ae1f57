import Refutation.Proofs.Variants

/-!
# The names of a session

A name source serves one call after the other: for a fresh variable, or for a clause renamed apart. Each
call draws names by their numbers and leaves the source past them, so no name is issued twice, whatever
names the clauses have and whatever is to be avoided.

* `NameSource.Issues`: names with numbers between two states of a source.
* `Substitution.Freshens.exists_inverse`: new names lead back to the old ones.
* `Clause.renameApart_apart`: what renaming apart does to a clause, and how it is undone.
* `NameSource.history`: the calls of a session, each with the source it finds.
  `NameSource.names_apart`: every call is served, no two issue the same name, and no two clauses that
  are renamed share a variable.
-/

namespace Refutation

namespace NameSource

variable {ns ns₁ ns₂ : NameSource} {taken avoid ws : List Var} {v : Var}

/-! ## Names by their numbers -/

/-- The names have numbers from the one state of a source to the other. -/
structure Issues (ns : NameSource) (ws : List Var) (ns' : NameSource) : Prop where
  stem_eq : ns'.stem = ns.stem
  next_le : ns.next ≤ ns'.next
  numbered : ∀ w ∈ ws, ∃ i, ns.next ≤ i ∧ i < ns'.next ∧ ns.nth i = w

theorem nth_of_stem_eq (h : ns₁.stem = ns.stem) (i : Nat) : ns₁.nth i = ns.nth i := by
  rw [nth, nth, h]

/-- What a later state issues has a number from the earlier state on. -/
theorem Issues.later (h : ns.Issues ws ns₁) {i : Nat} (hi : ns₁.next ≤ i) :
    ns.next ≤ i ∧ ns₁.nth i = ns.nth i :=
  ⟨h.next_le.trans hi, nth_of_stem_eq h.stem_eq i⟩

theorem Draws.issues (h : Draws avoid ns v ns₁) : ns.Issues [v] ns₁ := by
  induction h with
  | @free ns hfree =>
    exact ⟨rfl, Nat.le_succ _, List.forall_mem_singleton.mpr ⟨ns.next, le_rfl, Nat.lt_succ_self _, rfl⟩⟩
  | @taken ns ns' v htaken _ ih =>
    refine ⟨ih.stem_eq, (Nat.le_succ _).trans ih.next_le, fun w hw => ?_⟩
    obtain ⟨i, hle, hlt, hnth⟩ := ih.numbered w hw
    exact ⟨i, (Nat.le_succ _).trans hle, hlt, hnth⟩

theorem DrawsEach.issues (h : DrawsEach taken ns ws ns₁) : ns.Issues ws ns₁ := by
  induction h with
  | nil => exact ⟨rfl, le_rfl, nofun⟩
  | cons h _ ih =>
    have hfirst := h.issues
    refine ⟨ih.stem_eq.trans hfirst.stem_eq, hfirst.next_le.trans ih.next_le, ?_⟩
    refine List.forall_mem_cons.mpr ⟨?_, fun w hw => ?_⟩
    · obtain ⟨i, hle, hlt, hnth⟩ := hfirst.numbered _ List.mem_cons_self
      exact ⟨i, hle, hlt.trans_le ih.next_le, hnth⟩
    · obtain ⟨i, hle, hlt, hnth⟩ := ih.numbered w hw
      obtain ⟨hle, hsame⟩ := hfirst.later hle
      exact ⟨i, hle, hlt, hsame.symm.trans hnth⟩

end NameSource

/-! ## Renaming back -/

namespace Substitution

/-- A renaming of the listed variables, read backwards. -/
theorem inverse_bindings {vs ws : List Var} :
    ((vs.zip (ws.map Term.var)).filterMap fun b => b.2.var?.map (·, Term.var b.1)) =
      ws.zip (vs.map .var) := by
  induction vs generalizing ws with
  | nil => simp
  | cons v vs ih =>
    cases ws with
    | nil => simp
    | cons w ws => simpa [Term.var?] using ih

/-- New names lead back to the old ones. -/
theorem Freshens.exists_inverse {ρ : Substitution} {vs taken : List Var} (h : ρ.Freshens vs taken) :
    ∃ τ, ρ.inverse? = some τ ∧ ∀ x ∈ vs, (ρ.image x).subst τ = .var x := by
  have hren := h.isRenaming
  obtain ⟨ws, hlen, hnd, -, hb⟩ := h
  have hτ : (ofList (ρ.bindings.filterMap fun b => b.2.var?.map (·, .var b.1))).bindings =
      ws.zip (vs.map .var) := by
    rw [hb, inverse_bindings]
    exact bindings_ofList_zip hnd _
  have hinverse : ρ.inverse? =
      some (ofList (ρ.bindings.filterMap fun b => b.2.var?.map (·, .var b.1))) := if_pos hren
  refine ⟨_, hinverse, fun x hx => ?_⟩
  obtain ⟨i, hi, rfl⟩ := List.mem_iff_getElem.mp hx
  have hw : i < ws.length := hlen ▸ hi
  have hto : (vs[i], Term.var ws[i]) ∈ ρ.bindings := by
    rw [hb]
    exact List.mem_iff_getElem.mpr ⟨i, by simp [hlen, hi], by simp⟩
  have hback : (ws[i], Term.var vs[i]) ∈ ws.zip (vs.map Term.var) :=
    List.mem_iff_getElem.mpr ⟨i, by simp [hlen, hi], by simp⟩
  rw [image_of_get? (get?_of_mem hto), Term.subst_var]
  exact image_of_get? (get?_of_mem (hτ ▸ hback))

end Substitution

/-- The clause is renamed apart: each of its variables, and nothing else, has a name drawn from the
source, all different, none to be avoided and none in the clause. The renaming is applied to the clause,
and the variables of the result are the names drawn, in order. No literals collapse, and the inverse
renaming leads back to the clause. -/
structure Renamed.Apart (c : Clause) (avoid : List Var) (ns : NameSource) (r : Renamed) : Prop where
  drawn : ∃ ws, ns.DrawsEach (avoid ++ c.vars) ws r.names ∧ r.rename.terms = ws.map .var ∧
    r.clause.vars = ws
  domain_eq : r.rename.domain = c.vars
  fresh : ∀ x ∈ c.vars, ∃ w, r.rename.get? x = some (.var w) ∧ w ∉ avoid ∧ w ∉ c.vars
  injective : ∀ x y t, r.rename.get? x = some t → r.rename.get? y = some t → x = y
  clause_eq : r.clause = c.subst r.rename
  size_eq : r.clause.size = c.size
  inverse : ∃ τ, r.rename.inverse? = some τ ∧ r.clause.subst τ = c

theorem Clause.renameApart_apart (c : Clause) (avoid : List Var) (ns : NameSource) :
    (c.renameApart avoid ns).Apart c avoid ns := by
  have hfresh := c.renameApart_freshens avoid ns
  obtain ⟨π, hliterals, hπ⟩ := c.renameApart_rename avoid ns
  obtain ⟨ws, hlen, hdraws, hb⟩ := Substitution.freshRenaming_draws (avoid ++ c.vars)
    (ρ := .empty) ns c.nodup_vars fun _ _ => by simp [Substitution.domain, Substitution.empty]
  have hb : (c.renameApart avoid ns).rename.bindings = c.vars.zip (ws.map .var) := hb
  have hdomain : (c.renameApart avoid ns).rename.domain = c.vars := by
    rw [Substitution.domain, hb, List.map_fst_zip (by simp [hlen])]
  have hterms : (c.renameApart avoid ns).rename.terms = ws.map .var := by
    rw [Substitution.terms, hb, List.map_snd_zip (by simp [hlen])]
  -- The names drawn are the images of the variables, and these are the variables of the result.
  have hvars : c.vars.map π = ws := by
    refine List.map_injective_iff.mpr (fun x y => Term.var.inj) ?_
    rw [← hterms, Substitution.terms_eq, hdomain, List.map_map]
    exact List.map_congr_left fun x hx => (hπ x hx).1.symm
  refine ⟨⟨ws, hdraws, hterms, (vars_of_rename hliterals).trans hvars⟩, hdomain, fun x hx => ?_,
    (Substitution.isRenaming_iff.mp hfresh.isRenaming).2, rfl, ?_, ?_⟩
  · obtain ⟨himage, hnew⟩ := hπ x hx
    have hget := Substitution.get?_of_mem_domain (hdomain.symm ▸ hx)
    exact ⟨π x, himage ▸ hget, hnew⟩
  · rw [size, hliterals, List.length_map, size]
  · obtain ⟨τ, hτ, hback⟩ := hfresh.exists_inverse
    refine ⟨τ, hτ, ?_⟩
    show (c.subst (c.renameApart avoid ns).rename).subst τ = c
    rw [← subst_compose]
    refine subst_eq_self fun x hx => ?_
    rw [Substitution.image_compose, hback x hx]

/-! ## Sessions -/

namespace NameSource

/-- A call on a name source. -/
inductive Call where
  /-- For a fresh variable outside `avoid`. -/
  | fresh (avoid : List Var)
  /-- For a clause renamed apart, with variables outside `avoid` as well. -/
  | apart (c : Clause) (avoid : List Var)

namespace Call

/-- The names that a call issues. -/
def issued (ns : NameSource) : Call → List Var
  | fresh avoid => [(ns.fresh avoid).1]
  | apart c avoid => (c.renameApart avoid ns).rename.terms.filterMap Term.var?

/-- The variables of what a call returns: the fresh variable, or those of the renamed clause. -/
def vars (ns : NameSource) : Call → List Var
  | fresh avoid => [(ns.fresh avoid).1]
  | apart c avoid => (c.renameApart avoid ns).clause.vars

/-- The source after a call. -/
def after (ns : NameSource) : Call → NameSource
  | fresh avoid => (ns.fresh avoid).2
  | apart c avoid => (c.renameApart avoid ns).names

/-- The search for names comes to an end, and the result is as it should be. -/
def Served (ns : NameSource) : Call → Prop
  | fresh avoid => Draws avoid ns (ns.fresh avoid).1 (ns.fresh avoid).2 ∧ (ns.fresh avoid).1 ∉ avoid
  | apart c avoid => (c.renameApart avoid ns).Apart c avoid ns

theorem served (ns : NameSource) (call : Call) : call.Served ns := by
  cases call with
  | fresh avoid => exact ⟨ns.fresh_draws avoid, ns.fresh_not_mem avoid⟩
  | apart c avoid => exact c.renameApart_apart avoid ns

/-- The names issued for a clause are drawn from the source, and they are the variables of the clause
that is returned. -/
theorem apart_issued (ns : NameSource) (c : Clause) (avoid : List Var) :
    ns.DrawsEach (avoid ++ c.vars) ((apart c avoid).issued ns) ((apart c avoid).after ns) ∧
      (apart c avoid).vars ns = (apart c avoid).issued ns := by
  obtain ⟨ws, hdraws, hterms, hvars⟩ := (c.renameApart_apart avoid ns).drawn
  have hissued : (apart c avoid).issued ns = ws := by
    rw [issued, hterms, List.filterMap_map]
    exact List.filterMap_some
  rw [hissued]
  exact ⟨hdraws, hvars⟩

theorem issues (ns : NameSource) (call : Call) : ns.Issues (call.issued ns) (call.after ns) := by
  cases call with
  | fresh avoid => exact (ns.fresh_draws avoid).issues
  | apart c avoid => exact (apart_issued ns c avoid).1.issues

theorem vars_eq_issued (ns : NameSource) (call : Call) : call.vars ns = call.issued ns := by
  cases call with
  | fresh avoid => rfl
  | apart c avoid => exact (apart_issued ns c avoid).2

end Call

/-- The calls of a session in order, each with the source it finds. -/
def history : List Call → NameSource → List (NameSource × Call)
  | [], _ => []
  | call :: calls, ns => (ns, call) :: history calls (call.after ns)

/-- A session issues names with numbers from the present one on. -/
theorem history_numbered {calls : List Call} {ns : NameSource} {x : NameSource × Call}
    (hx : x ∈ history calls ns) {w : Var} (hw : w ∈ x.2.issued x.1) :
    ∃ i, ns.next ≤ i ∧ ns.nth i = w := by
  induction calls generalizing ns with
  | nil => cases hx
  | cons call calls ih =>
    rcases List.mem_cons.mp hx with rfl | hx
    · obtain ⟨i, hle, -, hnth⟩ := (call.issues ns).numbered w hw
      exact ⟨i, hle, hnth⟩
    · obtain ⟨i, hle, hnth⟩ := ih hx
      obtain ⟨hle, hsame⟩ := (call.issues ns).later hle
      exact ⟨i, hle, hsame.symm.trans hnth⟩

theorem history_disjoint (calls : List Call) (ns : NameSource) :
    (history calls ns).Pairwise fun x y => (x.2.issued x.1).Disjoint (y.2.issued y.1) := by
  induction calls generalizing ns with
  | nil => exact .nil
  | cons call calls ih =>
    refine List.pairwise_cons.mpr ⟨fun y hy w hw hw' => ?_, ih (call.after ns)⟩
    -- The name would have a number before the later calls and one among theirs.
    obtain ⟨i, -, hlt, hi⟩ := (call.issues ns).numbered w hw
    obtain ⟨j, hle, hj⟩ := history_numbered hy hw'
    rw [nth_of_stem_eq (call.issues ns).stem_eq] at hj
    have hij := ns.nth_injective (hi.trans hj.symm)
    omega

/-- Every call of a session is served, and no two of them issue the same name, whatever the clauses are
and whatever is to be avoided. So clauses that different calls rename share no variable with each other,
nor with a fresh variable of another call. -/
theorem names_apart (calls : List Call) (ns : NameSource) :
    (∀ x ∈ history calls ns, x.2.Served x.1) ∧
      ((history calls ns).Pairwise fun x y => (x.2.issued x.1).Disjoint (y.2.issued y.1)) ∧
      (history calls ns).Pairwise fun x y => (x.2.vars x.1).Disjoint (y.2.vars y.1) := by
  have hissued := history_disjoint calls ns
  refine ⟨fun x _ => x.2.served x.1, hissued, hissued.imp fun {x y} hxy => ?_⟩
  rwa [Call.vars_eq_issued, Call.vars_eq_issued]

/-- `P(c2,x)`. -/
def takenName : Clause := .ofList [.pos (.pred "P" [.var ⟨"c2"⟩, .var ⟨"x"⟩])]

/-- A fresh variable and a clause renamed twice, with names that the source would issue in the way. -/
def clashing : List Call :=
  [.fresh [⟨"c0"⟩], .apart takenName [⟨"c3"⟩], .apart takenName []]

/-- The source passes over the names that are taken, and the clause gets new names each time. -/
theorem clashing_names_apart :
    (history clashing { stem := "c" }).map (fun x => (x.2.issued x.1).map Var.name) =
      [["c1"], ["c4", "c5"], ["c6", "c7"]] ∧
    (takenName.renameApart [⟨"c3"⟩] ⟨"c", 2⟩).clause.literals =
      [.pos (.pred "P" [.var ⟨"c4"⟩, .var ⟨"c5"⟩])] ∧
    (takenName.renameApart [] ⟨"c", 6⟩).clause.literals =
      [.pos (.pred "P" [.var ⟨"c6"⟩, .var ⟨"c7"⟩])] ∧
    (takenName.renameApart [⟨"c3"⟩] ⟨"c", 2⟩).Apart takenName [⟨"c3"⟩] ⟨"c", 2⟩ ∧
    ((history clashing { stem := "c" }).Pairwise fun x y =>
      (x.2.issued x.1).Disjoint (y.2.issued y.1)) ∧
    (takenName.renameApart [⟨"c3"⟩] ⟨"c", 2⟩).clause.vars.Disjoint
      (takenName.renameApart [] ⟨"c", 6⟩).clause.vars := by
  have hhistory : history clashing { stem := "c" } =
      [(⟨"c", 0⟩, .fresh [⟨"c0"⟩]), (⟨"c", 2⟩, .apart takenName [⟨"c3"⟩]),
        (⟨"c", 6⟩, .apart takenName [])] := rfl
  obtain ⟨hserved, hissued, hvars⟩ := names_apart clashing { stem := "c" }
  rw [hhistory] at hserved hvars
  obtain ⟨-, hlater⟩ := List.pairwise_cons.mp hvars
  refine ⟨by decide +kernel, by decide +kernel, by decide +kernel, ?_, hissued, ?_⟩
  · exact hserved _ (List.mem_cons_of_mem _ List.mem_cons_self)
  · exact (List.pairwise_cons.mp hlater).1 _ List.mem_cons_self

end NameSource

end Refutation
