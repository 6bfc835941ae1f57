import Refutation.Term.Basic

/-!
# Paths into terms

A path lists argument indices from the root of a term down.

* `Term.at?`: the subterm at a path.
* `Term.replaceAt?`: the term with the subterm at a path exchanged.
* `Term.nonVarPaths`: the paths of all subterms that are not variables, root first.
-/

namespace Refutation

namespace Term

/-- The arguments of an application; variables and constants have none. -/
def args : Term → List Term
  | .app _ args => args
  | _ => []

/-- The subterm that a path leads to. -/
def at? : Term → List Nat → Option Term
  | t, [] => some t
  | t, i :: path => t.args[i]? >>= fun s => s.at? path

/-- The term with the subterm at a path exchanged; `none` if the path leads nowhere. -/
def replaceAt? : Term → List Nat → Term → Option Term
  | _, [], r => some r
  | .app f args, i :: path, r => do
    let s ← args[i]?
    let s ← s.replaceAt? path r
    some (.app f (args.set i s))
  | _, _ :: _, _ => none

theorem at?_cons_eq_some {t s : Term} {i : Nat} {path : List Nat} :
    t.at? (i :: path) = some s ↔ ∃ a, t.args[i]? = some a ∧ a.at? path = some s :=
  Option.bind_eq_some_iff

/-- Below the root, an exchange takes place in one argument of an application. -/
theorem replaceAt?_cons_eq_some {t t' r : Term} {i : Nat} {path : List Nat} :
    t.replaceAt? (i :: path) r = some t' ↔ ∃ f args s s', t = .app f args ∧ args[i]? = some s ∧
      s.replaceAt? path r = some s' ∧ t' = .app f (args.set i s') := by
  cases t with
  | var x => exact ⟨nofun, nofun⟩
  | const c => exact ⟨nofun, nofun⟩
  | app f args =>
    constructor
    · intro h
      obtain ⟨s, hs, h⟩ := Option.bind_eq_some_iff.mp h
      obtain ⟨s', hs', h⟩ := Option.bind_eq_some_iff.mp h
      cases h
      exact ⟨f, args, s, s', rfl, hs, hs', rfl⟩
    · rintro ⟨f, args, s, s', ⟨⟩, hs, hs', rfl⟩
      simp [replaceAt?, hs, hs']

mutual

/-- The paths of the subterms that are not variables, a term before its arguments. -/
def nonVarPaths : Term → List (List Nat)
  | .var _ => []
  | .const _ => [[]]
  | .app _ args => [] :: nonVarPathsFrom 0 args

/-- The same for arguments numbered from `i`. -/
def nonVarPathsFrom (i : Nat) : List Term → List (List Nat)
  | [] => []
  | t :: ts => t.nonVarPaths.map (i :: ·) ++ nonVarPathsFrom (i + 1) ts

end

end Term

end Refutation
