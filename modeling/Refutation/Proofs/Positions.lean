import Refutation.Proofs.Interpretation

/-!
# Positions as lenses

A path into a term is read by `Term.at?` and written by `Term.replaceAt?`, and the two obey the laws of a
lens: what is written is read back, what is not written is read as before, and writing what is there
changes nothing. Substitution reaches below every path, so it may come before or after. A place in an
atom is a path into the atom taken as a term (`Atom.asTerm`), its argument being the first step, and
obeys the same laws.

* `Term.mem_nonVarPaths`, `Term.pairwise_nonVarPaths`: which paths are listed, and in which order.
* `Term.at?_replaceAt?_of_incomparable`: an exchange is seen from no place beside it.
* `Term.replaceAt?_subst`: exchange and substitution commute.
* `Atom.replaceAt?_iff_asTerm`: an exchange in an atom is one in its term.
* `Atom.positions_lens`: the laws together, for atoms.

The order on paths is the lexicographic one. It is pre-order: a path comes before its extensions, and of
two paths that part, the one that goes to the earlier argument comes first.
-/

namespace Refutation

namespace Term

/-! ## Writing and reading -/

variable {t t' r s : Term} {p q : List Nat}

theorem isSome_replaceAt? (t r : Term) (p : List Nat) :
    (t.replaceAt? p r).isSome = (t.at? p).isSome := by
  induction p generalizing t with
  | nil => rfl
  | cons i p ih =>
    cases t with
    | var x => rfl
    | const c => rfl
    | app f ts =>
      cases hs : ts[i]? with
      | none => simp [replaceAt?, at?, args, hs]
      | some s =>
        simp only [replaceAt?, at?, args, hs, Option.bind_eq_bind, Option.bind_some, ← ih s]
        cases s.replaceAt? p r <;> rfl

/-- What is written is read back. -/
theorem at?_replaceAt? (h : t.replaceAt? p r = some t') : t'.at? p = some r := by
  induction p generalizing t t' with
  | nil => exact h.symm
  | cons i p ih =>
    obtain ⟨f, ts, s, s', rfl, hs, hs', rfl⟩ := replaceAt?_cons_eq_some.mp h
    obtain ⟨hi, -⟩ := List.getElem?_eq_some_iff.mp hs
    exact at?_cons_eq_some.mpr ⟨s', List.getElem?_set_self hi, ih hs'⟩

/-- A path neither above nor below the one written at reads what it read before. -/
theorem at?_replaceAt?_of_incomparable (h : t.replaceAt? p r = some t') (hpq : ¬p <+: q)
    (hqp : ¬q <+: p) : t'.at? q = t.at? q := by
  induction p generalizing t t' q with
  | nil => exact absurd List.nil_prefix hpq
  | cons i p ih =>
    cases q with
    | nil => exact absurd List.nil_prefix hqp
    | cons j q =>
      obtain ⟨f, ts, s, s', rfl, hs, hs', rfl⟩ := replaceAt?_cons_eq_some.mp h
      obtain ⟨hi, rfl⟩ := List.getElem?_eq_some_iff.mp hs
      -- The paths part in a later step, or in this one.
      by_cases hij : i = j
      · subst hij
        have hbelow : s'.at? q = ts[i].at? q :=
          ih hs' (fun h => hpq (List.cons_prefix_cons.mpr ⟨rfl, h⟩))
            (fun h => hqp (List.cons_prefix_cons.mpr ⟨rfl, h⟩))
        simp [at?, args, hi, hbelow]
      · simp [at?, args, hij]

/-- Writing what is there changes nothing. -/
theorem replaceAt?_at? (h : t.at? p = some s) : t.replaceAt? p s = some t := by
  induction p generalizing t with
  | nil => exact h.symm
  | cons i p ih =>
    obtain ⟨a, ha, hs⟩ := at?_cons_eq_some.mp h
    cases t with
    | var x => cases ha
    | const c => cases ha
    | app f ts =>
      obtain ⟨hi, rfl⟩ := List.getElem?_eq_some_iff.mp ha
      exact replaceAt?_cons_eq_some.mpr ⟨f, ts, ts[i], ts[i], rfl, ha, ih hs,
        congrArg (app f) (List.set_getElem_self hi).symm⟩

/-- Of two exchanges at one path only the second is left. -/
theorem replaceAt?_replaceAt? (h : t.replaceAt? p r = some t') (s : Term) :
    t'.replaceAt? p s = t.replaceAt? p s := by
  induction p generalizing t t' with
  | nil => rfl
  | cons i p ih =>
    obtain ⟨f, ts, a, a', rfl, ha, ha', rfl⟩ := replaceAt?_cons_eq_some.mp h
    obtain ⟨hi, rfl⟩ := List.getElem?_eq_some_iff.mp ha
    simp [replaceAt?, hi, ih ha']

/-- Exchange and substitution commute. -/
theorem replaceAt?_subst (σ : Substitution) (h : t.replaceAt? p r = some t') :
    (t.subst σ).replaceAt? p (r.subst σ) = some (t'.subst σ) := by
  induction p generalizing t t' with
  | nil => cases h; rfl
  | cons i p ih =>
    obtain ⟨f, ts, s, s', rfl, hs, hs', rfl⟩ := replaceAt?_cons_eq_some.mp h
    rw [subst_app, subst_app, List.map_set]
    refine replaceAt?_cons_eq_some.mpr ⟨f, _, s.subst σ, s'.subst σ, rfl, ?_, ih hs', rfl⟩
    rw [List.getElem?_map, hs, Option.map_some]

-- A substitution may open paths of its own, so the exchange has to be possible before.
example : let x : Term := .var ⟨"x"⟩
    let σ : Substitution := .single ⟨"x"⟩ (.fn "f" [.const "A"])
    x.replaceAt? [0] (.const "B") = none ∧
      (x.subst σ).replaceAt? [0] (.const "B") = some (.fn "f" [.const "B"]) := by
  decide

/-! ## The listed paths -/

theorem nonVarPathsFrom_eq (k : Nat) (ts : List Term) :
    nonVarPathsFrom k ts = (ts.zipIdx k).flatMap fun (t, i) => t.nonVarPaths.map (i :: ·) := by
  induction ts generalizing k with
  | nil => rfl
  | cons t ts ih => rw [nonVarPathsFrom, ih, List.zipIdx_cons, List.flatMap_cons]

theorem mem_nonVarPathsFrom {k : Nat} {ts : List Term} :
    p ∈ nonVarPathsFrom k ts ↔ ∃ i q t, p = (k + i) :: q ∧ ts[i]? = some t ∧ q ∈ t.nonVarPaths := by
  induction ts generalizing k with
  | nil => simp [nonVarPathsFrom]
  | cons t ts ih =>
    rw [nonVarPathsFrom, List.mem_append, List.mem_map, ih]
    constructor
    · rintro (⟨q, hq, rfl⟩ | ⟨i, q, s, rfl, hs, hq⟩)
      · exact ⟨0, q, t, rfl, rfl, hq⟩
      · exact ⟨i + 1, q, s, by rw [Nat.add_right_comm, Nat.add_assoc], hs, hq⟩
    · rintro ⟨_ | i, q, s, rfl, hs, hq⟩
      · cases hs
        exact .inl ⟨q, hq, rfl⟩
      · exact .inr ⟨i, q, s, by rw [Nat.add_right_comm, Nat.add_assoc], hs, hq⟩

/-- The listed paths are those that lead to a term other than a variable. -/
theorem mem_nonVarPaths : p ∈ t.nonVarPaths ↔ ∃ s, t.at? p = some s ∧ s.isVar = false := by
  induction t generalizing p with
  | var x => cases p <;> simp [nonVarPaths, at?, args, isVar, var?]
  | const c => cases p <;> simp [nonVarPaths, at?, args, isVar, var?]
  | app f ts ih =>
    cases p with
    | nil => simp [nonVarPaths, at?, isVar, var?]
    | cons i p =>
      simp only [nonVarPaths, List.mem_cons, reduceCtorEq, false_or, mem_nonVarPathsFrom,
        Nat.zero_add, List.cons.injEq, at?_cons_eq_some]
      constructor
      · rintro ⟨_, _, a, ⟨rfl, rfl⟩, ha, hp⟩
        obtain ⟨s, hs, hv⟩ := (ih a (List.mem_of_getElem? ha)).mp hp
        exact ⟨s, ⟨a, ha, hs⟩, hv⟩
      · rintro ⟨s, ⟨a, ha, hs⟩, hv⟩
        exact ⟨i, p, a, ⟨rfl, rfl⟩, ha, (ih a (List.mem_of_getElem? ha)).mpr ⟨s, hs, hv⟩⟩

theorem pairwise_nonVarPathsFrom {ts : List Term} (k : Nat)
    (h : ∀ t ∈ ts, t.nonVarPaths.Pairwise (· < ·)) : (nonVarPathsFrom k ts).Pairwise (· < ·) := by
  induction ts generalizing k with
  | nil => exact .nil
  | cons t ts ih =>
    rw [List.forall_mem_cons] at h
    rw [nonVarPathsFrom, List.pairwise_append]
    refine ⟨List.pairwise_map.mpr (h.1.imp List.cons_lt_cons_self.mpr), ih (k + 1) h.2, ?_⟩
    intro p hp q hq
    obtain ⟨p, -, rfl⟩ := List.mem_map.mp hp
    obtain ⟨i, q, -, rfl, -⟩ := mem_nonVarPathsFrom.mp hq
    exact List.cons_lt_cons_iff.mpr (.inl (by omega))

/-- The paths are listed in pre-order. -/
theorem pairwise_nonVarPaths (t : Term) : t.nonVarPaths.Pairwise (· < ·) := by
  induction t with
  | var x => exact .nil
  | const c => exact List.pairwise_singleton ..
  | app f ts ih =>
    refine List.pairwise_cons.mpr ⟨fun p hp => ?_, pairwise_nonVarPathsFrom 0 ih⟩
    obtain ⟨i, q, -, rfl, -⟩ := mem_nonVarPathsFrom.mp hp
    exact List.nil_lt_cons ..

end Term

namespace Atom

/-! ## Atoms as terms -/

variable {a a' b : Atom} {i : Nat} {p : List Nat} {r : Term}

/-- The atom with its symbol taken as a function. A place in the atom is a path into this term, its
argument the first step. -/
def asTerm (a : Atom) : Term := .fn a.symbol a.args

/-- As terms, only an equation and a predicate named `=` can be taken for each other. -/
theorem eq_of_asTerm (hkind : a.isEq = b.isEq) (h : a.asTerm = b.asTerm) : a = b := by
  obtain ⟨hhead, hargs⟩ := Term.app.inj h
  cases a with
  | pred n ts =>
    cases b with
    | pred m us =>
      obtain ⟨rfl, -⟩ := FunSym.mk.inj hhead
      exact congrArg (pred n) hargs
    | eq l r => cases hkind
  | eq l r =>
    cases b with
    | pred m us => cases hkind
    | eq l' r' => cases hargs; rfl

/-- An exchanged argument leaves kind and symbol as they are. -/
theorem head_setArg (a : Atom) (i : Nat) (t : Term) :
    (a.setArg i t).isEq = a.isEq ∧ (a.setArg i t).symbol = a.symbol := by
  cases a with
  | pred n ts => exact ⟨rfl, rfl⟩
  | eq l r =>
    rw [setArg]
    split <;> exact ⟨rfl, rfl⟩

theorem head_subst (σ : Substitution) (a : Atom) :
    (a.subst σ).isEq = a.isEq ∧ (a.subst σ).symbol = a.symbol := by
  cases a <;> exact ⟨rfl, rfl⟩

theorem asTerm_setArg (hi : i < a.args.length) (t : Term) :
    (a.setArg i t).asTerm = .app ⟨a.symbol, a.args.length⟩ (a.args.set i t) := by
  rw [asTerm, Term.fn, args_setArg hi, (head_setArg a i t).2, List.length_set]

theorem asTerm_subst (σ : Substitution) (a : Atom) : (a.subst σ).asTerm = a.asTerm.subst σ := by
  rw [asTerm, Term.fn, (head_subst σ a).2, subst, args_map, List.length_map, asTerm, Term.fn,
    Term.subst_app]

/-- An exchange in an atom is one in its term, and leaves a predicate a predicate. -/
theorem replaceAt?_iff_asTerm : a.replaceAt? i p r = some a' ↔
    a'.isEq = a.isEq ∧ a.asTerm.replaceAt? (i :: p) r = some a'.asTerm := by
  rw [replaceAt?_eq_some, Term.replaceAt?_cons_eq_some]
  constructor
  · rintro ⟨t, t', ht, ht', rfl⟩
    obtain ⟨hi, -⟩ := List.getElem?_eq_some_iff.mp ht
    exact ⟨(head_setArg ..).1, _, _, t, t', rfl, ht, ht', asTerm_setArg hi t'⟩
  · rintro ⟨hkind, f, ts, t, t', ⟨⟩, ht, ht', heq⟩
    obtain ⟨hi, -⟩ := List.getElem?_eq_some_iff.mp ht
    exact ⟨t, t', ht, ht', eq_of_asTerm (hkind.trans (head_setArg ..).1.symm)
      (heq.trans (asTerm_setArg hi t').symm)⟩

/-! ## Places in atoms -/

theorem isSome_replaceAt? (a : Atom) (i : Nat) (p : List Nat) (r : Term) :
    (a.replaceAt? i p r).isSome = (a.at? i p).isSome := by
  cases ht : a.args[i]? with
  | none => simp [replaceAt?, at?, ht]
  | some t =>
    simp only [replaceAt?, at?, ht, Option.bind_eq_bind, Option.bind_some, ← t.isSome_replaceAt? r p]
    cases t.replaceAt? p r <;> rfl

/-- The listed places are the paths below the root of the term. -/
theorem nonVarPaths_asTerm (a : Atom) :
    a.asTerm.nonVarPaths = [] :: a.nonVarPositions.map fun x => x.1 :: x.2 := by
  rw [asTerm, Term.fn, Term.nonVarPaths, Term.nonVarPathsFrom_eq, nonVarPositions, List.map_flatMap]
  simp [Function.comp_def]

theorem mem_nonVarPositions :
    (i, p) ∈ a.nonVarPositions ↔ ∃ t, a.at? i p = some t ∧ t.isVar = false := by
  have hpath : (i, p) ∈ a.nonVarPositions ↔ i :: p ∈ a.asTerm.nonVarPaths := by
    simp [nonVarPaths_asTerm]
  exact hpath.trans Term.mem_nonVarPaths

theorem pairwise_nonVarPositions (a : Atom) :
    a.nonVarPositions.Pairwise fun x y => x.1 :: x.2 < y.1 :: y.2 := by
  have h := a.asTerm.pairwise_nonVarPaths
  rw [nonVarPaths_asTerm] at h
  exact List.pairwise_map.mp (List.pairwise_cons.mp h).2

theorem replaceAt?_at? {t : Term} (h : a.at? i p = some t) : a.replaceAt? i p t = some a :=
  replaceAt?_iff_asTerm.mpr ⟨rfl, Term.replaceAt?_at? h⟩

theorem replaceAt?_replaceAt? (h : a.replaceAt? i p r = some a') (s : Term) :
    a'.replaceAt? i p s = a.replaceAt? i p s := by
  obtain ⟨hkind, hterm⟩ := replaceAt?_iff_asTerm.mp h
  refine Option.ext fun b => ?_
  rw [replaceAt?_iff_asTerm, replaceAt?_iff_asTerm, hkind, Term.replaceAt?_replaceAt? hterm]

theorem replaceAt?_subst (σ : Substitution) (h : a.replaceAt? i p r = some a') :
    (a.subst σ).replaceAt? i p (r.subst σ) = some (a'.subst σ) := by
  obtain ⟨hkind, hterm⟩ := replaceAt?_iff_asTerm.mp h
  refine replaceAt?_iff_asTerm.mpr ⟨?_, ?_⟩
  · rw [(head_subst σ a').1, (head_subst σ a).1, hkind]
  · rw [asTerm_subst, asTerm_subst]
    exact Term.replaceAt?_subst σ hterm

/-- Places are read and written as by a lens. The listed ones are those that hold a term other than a
variable, each once and in pre-order. A place can be written where it can be read; then it reads what was
written, every place that is neither above nor below it reads as before, writing again leaves nothing of
the first time, and a substitution may as well come first. Writing what is there changes nothing. -/
theorem positions_lens (a : Atom) (i : Nat) (p : List Nat) (r : Term) (σ : Substitution) :
    (∀ j q, (j, q) ∈ a.nonVarPositions ↔ ∃ t, a.at? j q = some t ∧ t.isVar = false) ∧
    a.nonVarPositions.Nodup ∧
    (a.nonVarPositions.Pairwise fun x y => x.1 :: x.2 < y.1 :: y.2) ∧
    ((a.replaceAt? i p r).isSome ↔ (a.at? i p).isSome) ∧
    (a.at? i p = some r → a.replaceAt? i p r = some a) ∧
    ∀ a', a.replaceAt? i p r = some a' →
      a'.at? i p = some r ∧
      (∀ j q, ¬i :: p <+: j :: q → ¬j :: q <+: i :: p → a'.at? j q = a.at? j q) ∧
      (∀ s, a'.replaceAt? i p s = a.replaceAt? i p s) ∧
      (a.subst σ).replaceAt? i p (r.subst σ) = some (a'.subst σ) := by
  refine ⟨fun j q => mem_nonVarPositions, ?_, a.pairwise_nonVarPositions, ?_, replaceAt?_at?,
    fun a' h => ?_⟩
  · -- No place comes before itself, so none is listed twice.
    refine a.pairwise_nonVarPositions.imp fun h e => ?_
    subst e
    exact lt_irrefl _ h
  · rw [isSome_replaceAt?]
  · obtain ⟨-, hterm⟩ := replaceAt?_iff_asTerm.mp h
    exact ⟨Term.at?_replaceAt? hterm, fun j q => Term.at?_replaceAt?_of_incomparable hterm,
      replaceAt?_replaceAt? h, replaceAt?_subst σ h⟩

/-- `P(f(x,g(A)),x)`. -/
def nestedX : Atom := .pred "P" [.fn "f" [.var ⟨"x"⟩, .fn "g" [.const "A"]], .var ⟨"x"⟩]

/-- `g(A)` gives way to `h(x)`, beside two occurrences of `x` under which a substitution puts more
terms. -/
theorem nestedX_replaced :
    let x : Term := .var ⟨"x"⟩
    let h : Term := .fn "h" [x]
    let σ : Substitution := .single ⟨"x"⟩ (.fn "k" [x, .const "B"])
    let replaced : Atom := .pred "P" [.fn "f" [x, h], x]
    (0, [1]) ∈ nestedX.nonVarPositions ∧ (0, [0]) ∉ nestedX.nonVarPositions ∧
    nestedX.replaceAt? 0 [1] h = some replaced ∧
    replaced.at? 0 [1] = some h ∧ replaced.at? 0 [0] = some x ∧ replaced.at? 1 [] = some x ∧
    (nestedX.subst σ).replaceAt? 0 [1] (h.subst σ) = some (replaced.subst σ) := by
  intro x h σ replaced
  obtain ⟨hlisted, -, -, -, -, hwritten⟩ := positions_lens nestedX 0 [1] h σ
  have hreplaced : nestedX.replaceAt? 0 [1] h = some replaced := by decide
  obtain ⟨hread, hbeside, -, hsubst⟩ := hwritten replaced hreplaced
  refine ⟨(hlisted 0 [1]).mpr ⟨_, rfl, rfl⟩, fun hx => ?_, hreplaced, hread, ?_, ?_, hsubst⟩
  · obtain ⟨t, ht, hv⟩ := (hlisted 0 [0]).mp hx
    cases ht
    cases hv
  · exact hbeside 0 [0] (by decide) (by decide)
  · exact hbeside 1 [] (by decide) (by decide)

end Atom

end Refutation
