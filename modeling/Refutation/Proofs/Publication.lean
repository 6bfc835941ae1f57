import Refutation.Proofs.Interpretation
import Refutation.Proofs.JsonText
import Refutation.Transcript.Entry

/-!
# Published clauses

A clause can be told from its published text. Recorded arities are left out, but in a well-formed term
they are the numbers of arguments; an equality is published as a predicate `=`, so no predicate may have
that name.

* `ClauseEntry.legible_toJson`, `ClauseEntry.toJson_injective`: entries are told from their text.
* `TermEntry.ofTerm_inj`, `AtomEntry.ofAtom_inj`: terms and atoms are told from their entries.
* `ClauseEntry.compact_ofClause_inj`: the text of a clause determines its literals and their order.
-/

namespace Refutation

/-- A map that is one-to-one on the members of two lists tells the lists apart. -/
theorem eq_of_map_eq {α β : Type} {f : α → β} {xs ys : List α}
    (hinj : ∀ x ∈ xs, ∀ y ∈ ys, f x = f y → x = y) (h : xs.map f = ys.map f) : xs = ys := by
  induction xs generalizing ys with
  | nil => exact (List.map_eq_nil_iff.mp h.symm).symm
  | cons x xs ih =>
    cases ys with
    | nil => cases h
    | cons y ys =>
      obtain ⟨hhead, htail⟩ := List.cons.inj h
      have hxy := hinj x List.mem_cons_self y List.mem_cons_self hhead
      have hrest := ih (fun x hx y hy => hinj x (.tail _ hx) y (.tail _ hy)) htail
      rw [hxy, hrest]

/-! ## Entries and their text -/

namespace TermEntry

/-- Induction over published terms: an application may use the statement of each argument. -/
@[elab_as_elim, induction_eliminator]
theorem ind {motive : TermEntry → Prop} (var : ∀ x, motive (.var x)) (const : ∀ c, motive (.const c))
    (app : ∀ f args, (∀ t ∈ args, motive t) → motive (.app f args)) (t : TermEntry) : motive t :=
  match t with
  | .var x => var x
  | .const c => const c
  | .app f args => app f args fun t _ => ind var const app t

@[simp]
theorem toJsons_eq_map (ts : List TermEntry) : toJsons ts = ts.map toJson := by
  induction ts with
  | nil => rfl
  | cons t ts ih => rw [toJsons, ih, List.map_cons]

theorem legible_toJson (t : TermEntry) : t.toJson.Legible := by
  induction t with
  | var x => exact Json.legible_record (by simp)
  | const c => exact Json.legible_record (by simp)
  | app f args ih =>
    have hargs : (Json.array (args.map toJson)).Legible := .array (by simpa using ih)
    exact Json.legible_record (by simp [hargs])

/-- The kinds of terms have different tags. -/
theorem toJson_injective : Function.Injective toJson := by
  intro s
  induction s with
  | var x =>
    intro t h
    cases t with
    | var y => simpa [toJson] using h
    | const d => simp [toJson] at h
    | app g ts => simp [toJson] at h
  | const c =>
    intro t h
    cases t with
    | var y => simp [toJson] at h
    | const d => simpa [toJson] using h
    | app g ts => simp [toJson] at h
  | app f ss ih =>
    intro t h
    cases t with
    | var y => simp [toJson] at h
    | const d => simp [toJson] at h
    | app g ts =>
      obtain ⟨rfl, hargs⟩ : f = g ∧ ss.map toJson = ts.map toJson := by simpa [toJson] using h
      rw [eq_of_map_eq (fun s hs t _ => @ih s hs t) hargs]

end TermEntry

namespace AtomEntry

theorem legible_toJson (a : AtomEntry) : a.toJson.Legible := by
  have hargs : (Json.array (a.args.map TermEntry.toJson)).Legible :=
    .array (by simpa using fun t _ => t.legible_toJson)
  refine Json.legible_record ?_
  split <;> simp [hargs]

/-- Where the arguments are left out, there are none. -/
theorem toJson_injective : Function.Injective toJson := by
  rintro ⟨p, ss⟩ ⟨q, ts⟩ h
  cases ss with
  | nil =>
    cases ts with
    | nil => simpa [toJson] using h
    | cons t ts => simp [toJson] at h
  | cons s ss =>
    cases ts with
    | nil => simp [toJson] at h
    | cons t ts =>
      obtain ⟨rfl, hargs⟩ : p = q ∧ (s :: ss).map TermEntry.toJson = (t :: ts).map TermEntry.toJson := by
        simpa [toJson] using h
      rw [List.map_injective_iff.mpr TermEntry.toJson_injective hargs]

end AtomEntry

namespace LiteralEntry

theorem legible_toJson (l : LiteralEntry) : l.toJson.Legible :=
  Json.legible_record (by simp [Json.Legible.bool, l.atom.legible_toJson])

theorem toJson_injective : Function.Injective toJson := by
  rintro ⟨p, a⟩ ⟨q, b⟩ h
  obtain ⟨rfl, hatom⟩ : p = q ∧ a.toJson = b.toJson := by simpa [toJson] using h
  rw [AtomEntry.toJson_injective hatom]

end LiteralEntry

namespace ClauseEntry

theorem legible_toJson (c : ClauseEntry) : c.toJson.Legible := by
  have hliterals : (Json.array (c.literals.map LiteralEntry.toJson)).Legible :=
    .array (by simpa using fun l _ => l.legible_toJson)
  exact Json.legible_record (by simp [hliterals])

theorem toJson_injective : Function.Injective toJson := by
  rintro ⟨ls⟩ ⟨ms⟩ h
  have hliterals : ls.map LiteralEntry.toJson = ms.map LiteralEntry.toJson := by simpa [toJson] using h
  rw [List.map_injective_iff.mpr LiteralEntry.toJson_injective hliterals]

end ClauseEntry

/-! ## Clauses and their entries -/

/-- Only an equality has the symbol `=`. -/
def Atom.ReservesEq (a : Atom) : Prop := a.symbol = "=" → a.isEq = true

instance (a : Atom) : Decidable a.ReservesEq := inferInstanceAs (Decidable (_ → _))

/-- No predicate of the clause is named `=`. -/
def Clause.ReservesEq (c : Clause) : Prop := ∀ l ∈ c.literals, l.atom.ReservesEq

instance (c : Clause) : Decidable c.ReservesEq := inferInstanceAs (Decidable (∀ l ∈ c.literals, _))

namespace TermEntry

theorem ofTerms_eq_map (ts : List Term) : ofTerms ts = ts.map ofTerm := by
  induction ts with
  | nil => rfl
  | cons t ts ih => rw [ofTerms, ih, List.map_cons]

/-- The arities that an entry lacks are the numbers of arguments. -/
theorem ofTerm_inj {s t : Term} (hs : s.wellFormed = true) (ht : t.wellFormed = true)
    (h : ofTerm s = ofTerm t) : s = t := by
  induction s generalizing t with
  | var x =>
    cases t with
    | var y =>
      obtain ⟨x⟩ := x
      obtain ⟨y⟩ := y
      rw [show x = y from var.inj h]
    | const d => cases h
    | app g ts => cases h
  | const c =>
    cases t with
    | var y => cases h
    | const d => exact congrArg Term.const (const.inj h)
    | app g ts => cases h
  | app f ss ih =>
    cases t with
    | var y => cases h
    | const d => cases h
    | app g ts =>
      obtain ⟨hf, hss⟩ := Term.wellFormed_app.mp hs
      obtain ⟨hg, hts⟩ := Term.wellFormed_app.mp ht
      obtain ⟨hname, hargs⟩ := app.inj h
      rw [ofTerms_eq_map, ofTerms_eq_map] at hargs
      obtain rfl := eq_of_map_eq (fun s hs t ht => ih s hs (hss s hs) (hts t ht)) hargs
      -- With the same arguments the recorded arities are the same.
      obtain ⟨f, m⟩ := f
      obtain ⟨g, n⟩ := g
      rw [show f = g from hname, show m = n from hf.trans hg.symm]

end TermEntry

namespace AtomEntry

theorem ofAtom_inj {a b : Atom} (ha : a.wellFormed = true) (hb : b.wellFormed = true)
    (hra : a.ReservesEq) (hrb : b.ReservesEq) (h : ofAtom a = ofAtom b) : a = b := by
  obtain ⟨hsymbol, hargs⟩ := AtomEntry.mk.inj h
  rw [TermEntry.ofTerms_eq_map, TermEntry.ofTerms_eq_map] at hargs
  have hterms : a.args = b.args := eq_of_map_eq (fun s hs t ht =>
    TermEntry.ofTerm_inj (Atom.wellFormed_iff.mp ha s hs) (Atom.wellFormed_iff.mp hb t ht)) hargs
  -- Symbol and arguments tell an equality from a predicate only because `=` is reserved.
  cases a with
  | pred p ss =>
    cases b with
    | pred q ts => rw [show p = q from hsymbol, show ss = ts from hterms]
    | eq l r => cases hra hsymbol
  | eq l r =>
    cases b with
    | pred q ts => cases hrb hsymbol.symm
    | eq l' r' =>
      obtain ⟨rfl, hright⟩ := List.cons.inj hterms
      rw [(List.cons.inj hright).1]

end AtomEntry

namespace ClauseEntry

variable {c d : Clause}

theorem literals_of_ofClause_eq (hc : c.wellFormed = true) (hd : d.wellFormed = true)
    (hrc : c.ReservesEq) (hrd : d.ReservesEq) (h : ofClause c = ofClause d) : c.literals = d.literals := by
  refine eq_of_map_eq (fun l hl m hm hlm => ?_) (ClauseEntry.mk.inj h)
  obtain ⟨hsign, hentry⟩ := LiteralEntry.mk.inj hlm
  have hatom := AtomEntry.ofAtom_inj (Clause.wellFormed_iff.mp hc l hl)
    (Clause.wellFormed_iff.mp hd m hm) (hrc l hl) (hrd m hm) hentry
  cases l with
  | mk p a => rw [show p = m.positive from hsign, show a = m.atom from hatom]

/-- Well-formed clauses without a predicate named `=` are published as the same text exactly if their
literals are the same in the same order. -/
theorem compact_ofClause_inj (hc : c.wellFormed = true) (hd : d.wellFormed = true) (hrc : c.ReservesEq)
    (hrd : d.ReservesEq) :
    (ofClause c).toJson.compact = (ofClause d).toJson.compact ↔ c.literals = d.literals := by
  constructor
  · intro h
    have hjson := Json.eq_of_compact_eq (legible_toJson _) (legible_toJson _) h
    exact literals_of_ofClause_eq hc hd hrc hrd (toJson_injective hjson)
  · intro h
    rw [ofClause, ofClause, h]

/-- The clause `P(f("A"))` of a function and a constant whose name has quotes. -/
def applied : Clause := .ofList [.pos (.pred "P" [.app ⟨"f", 1⟩ [.const "\"A\""]])]

/-- The clause `P(f("A"))` of one constant. -/
def named : Clause := .ofList [.pos (.pred "P" [.const "f(\"A\")"])]

/-- The written forms are the same, the published ones are not. -/
theorem applied_named_published : applied.wellFormed = true ∧ named.wellFormed = true ∧
    applied.ReservesEq ∧ named.ReservesEq ∧ applied.text = named.text ∧
    (ofClause applied).toJson.compact ≠ (ofClause named).toJson.compact := by
  have ha : applied.wellFormed = true := by decide
  have hn : named.wellFormed = true := by decide
  have hra : applied.ReservesEq := by decide
  have hrn : named.ReservesEq := by decide
  have hne : applied.literals ≠ named.literals := by decide
  exact ⟨ha, hn, hra, hrn, by decide, (compact_ofClause_inj ha hn hra hrn).not.mpr hne⟩

end ClauseEntry

end Refutation
