import Refutation.Signature
import Refutation.Proofs.Except
import Refutation.Proofs.Interpretation

/-!
# Signatures accept what is consistent

A signature takes in the symbols of a sentence one by one and stops at the first that does not fit.
Whether it gets through depends on the uses of symbols alone: each symbol has to be used with one arity,
in the sentence and in all that was accepted before. Then the signature knows these uses besides the
ones it knew. So the sentences of a list are all accepted in every order or in none.

* `Sentence.parts`, `Sentence.Applies`: the sentences and the function terms that stand in a sentence.
* `Sentence.uses`: its predicates and function symbols, with their arities.
* `Consistent`: uses of which no two give one symbol different arities.
* `Signature.Takes`: when something is taken into a signature, and what the signature knows then.
* `Signature.takes_check`: a sentence is taken in if its uses are consistent with those known.
* `Signature.Intake`: a signature that sentences are offered to, with those it accepted.
* `Signature.Intake.acceptance_exact`: which sentences are accepted, and what is known after them.
-/

namespace Refutation

/-! ## What stands in a sentence -/

namespace Term

/-- The second term stands in the first, at some path. -/
def Has (t u : Term) : Prop := ∃ path, t.at? path = some u

variable {t u : Term} {f : FunSym} {args : List Term}

theorem has_app : (app f args).Has u ↔ u = app f args ∨ ∃ t ∈ args, t.Has u := by
  constructor
  · rintro ⟨path, h⟩
    cases path with
    | nil => exact .inl (Option.some.inj h).symm
    | cons i path =>
      obtain ⟨t, ht, h⟩ := Option.bind_eq_some_iff.mp h
      exact .inr ⟨t, List.mem_of_getElem? ht, path, h⟩
  · rintro (rfl | ⟨t, ht, path, h⟩)
    · exact ⟨[], rfl⟩
    · obtain ⟨i, hi⟩ := List.mem_iff_getElem?.mp ht
      exact ⟨i :: path, Option.bind_eq_some_iff.mpr ⟨t, hi, h⟩⟩

theorem not_has_app_var {x : Var} : ¬(var x).Has (app f args) := by
  rintro ⟨_ | ⟨i, path⟩, h⟩ <;> cases h

theorem not_has_app_const {c : String} : ¬(const c).Has (app f args) := by
  rintro ⟨_ | ⟨i, path⟩, h⟩ <;> cases h

/-- A term is well-formed if every function symbol in it has the arguments it records. -/
theorem wellFormed_iff_has :
    t.wellFormed = true ↔ ∀ f args, t.Has (app f args) → f.arity = args.length := by
  induction t with
  | var x => simp [not_has_app_var]
  | const c => simp [not_has_app_const]
  | app g bs ih =>
    rw [wellFormed_app]
    constructor
    · rintro ⟨hg, hbs⟩ f args h
      rcases has_app.mp h with h | ⟨t, ht, h⟩
      · cases h
        exact hg
      · exact (ih t ht).mp (hbs t ht) f args h
    · intro h
      refine ⟨h g bs (has_app.mpr (.inl rfl)), fun t ht => (ih t ht).mpr fun f args hf => ?_⟩
      exact h f args (has_app.mpr (.inr ⟨t, ht, hf⟩))

end Term

namespace Sentence

/-- The sentence and the sentences in it, outer before inner and left before right. -/
def parts : Sentence → List Sentence
  | .atom a => [.atom a]
  | .not s => .not s :: s.parts
  | .and l r => .and l r :: (l.parts ++ r.parts)
  | .or l r => .or l r :: (l.parts ++ r.parts)
  | .implies l r => .implies l r :: (l.parts ++ r.parts)
  | .iff l r => .iff l r :: (l.parts ++ r.parts)
  | .quant q vs s => .quant q vs s :: s.parts

variable {s : Sentence} {a : Atom}

theorem mem_atoms : a ∈ s.atoms ↔ .atom a ∈ s.parts := by
  induction s with
  | atom b => simp [atoms, parts]
  | not s ih | quant q vs s ih => simp [atoms, parts, ih]
  | and l r ihl ihr | or l r ihl ihr | implies l r ihl ihr | iff l r ihl ihr =>
    simp [atoms, parts, ihl, ihr]

theorem emptyQuantifier?_eq_none :
    s.emptyQuantifier? = none ↔ ∀ q b, .quant q [] b ∉ s.parts := by
  induction s with
  | atom b => simp [emptyQuantifier?, parts]
  | not s ih => simp [emptyQuantifier?, parts, ih]
  | and l r ihl ihr | or l r ihl ihr | implies l r ihl ihr | iff l r ihl ihr =>
    simp [emptyQuantifier?, parts, ihl, ihr, forall_and]
  | quant q vs s ih =>
    cases vs with
    | nil =>
      refine ⟨nofun, fun h => (h q s ?_).elim⟩
      exact List.mem_cons_self
    | cons v vs => simp [emptyQuantifier?, parts, ih]

/-- The function term stands in the sentence. -/
def Applies (s : Sentence) (f : FunSym) (args : List Term) : Prop :=
  ∃ a, .atom a ∈ s.parts ∧ ∃ t ∈ a.args, t.Has (.app f args)

end Sentence

/-! ## Uses of symbols -/

/-- A symbol with the arity that it is used with. -/
@[ext]
structure SymbolUse where
  kind : SymbolKind
  name : String
  arity : Nat

/-- No two of the uses give one symbol different arities. -/
def Consistent (U : Set SymbolUse) : Prop :=
  ∀ u ∈ U, ∀ v ∈ U, u.kind = v.kind → u.name = v.name → u.arity = v.arity

theorem Consistent.mono {U V : Set SymbolUse} (h : Consistent V) (hUV : U ⊆ V) : Consistent U :=
  fun u hu v hv => h u (hUV hu) v (hUV hv)

/-- Uses are consistent with others that are consistent themselves if they agree with each other and
with those. -/
theorem consistent_union {U V : Set SymbolUse} (hV : Consistent V) : Consistent (V ∪ U) ↔
    ∀ u ∈ U, ∀ v ∈ U ∪ V, u.kind = v.kind → u.name = v.name → u.arity = v.arity := by
  rw [Set.union_comm]
  refine ⟨fun h u hu v hv => h u (.inl hu) v hv, fun h u hu v hv hkind hname => ?_⟩
  rcases hu with hu | hu
  · exact h u hu v hv hkind hname
  · rcases hv with hv | hv
    · exact (h v hv u (.inr hu) hkind.symm hname.symm).symm
    · exact hV u hu v hv hkind hname

/-- The function symbols of a term, with the arities they record. -/
def Term.uses (t : Term) : Set SymbolUse :=
  {u | ∃ f args, t.Has (.app f args) ∧ u = ⟨.function, f.name, f.arity⟩}

/-- The predicate, with the number of its arguments, and the function symbols in them. An equation has
no predicate. -/
def Atom.uses (a : Atom) : Set SymbolUse :=
  {u | ∃ p args, a = .pred p args ∧ u = ⟨.predicate, p, args.length⟩} ∪ {u | ∃ t ∈ a.args, u ∈ t.uses}

/-- The predicates and function symbols of a sentence, with their arities. -/
def Sentence.uses (s : Sentence) : Set SymbolUse := {u | ∃ a, .atom a ∈ s.parts ∧ u ∈ a.uses}

theorem Term.uses_app {f : FunSym} {args : List Term} :
    (app f args).uses = {⟨.function, f.name, f.arity⟩} ∪ {u | ∃ t ∈ args, u ∈ t.uses} := by
  ext u
  simp only [uses, has_app, Set.mem_ofPred_eq, Set.mem_union, Set.mem_singleton_iff]
  constructor
  · rintro ⟨g, bs, h | ⟨t, ht, h⟩, rfl⟩
    · cases h
      exact .inl rfl
    · exact .inr ⟨t, ht, g, bs, h, rfl⟩
  · rintro (rfl | ⟨t, ht, g, bs, h, rfl⟩)
    · exact ⟨f, args, .inl rfl, rfl⟩
    · exact ⟨g, bs, .inr ⟨t, ht, h⟩, rfl⟩

/-- The uses in some sentences. -/
def usesIn (ss : List Sentence) : Set SymbolUse := {u | ∃ s ∈ ss, u ∈ s.uses}

theorem usesIn_concat (ss : List Sentence) (s : Sentence) : usesIn (ss ++ [s]) = usesIn ss ∪ s.uses := by
  ext u
  simp [usesIn, or_and_right, exists_or]

/-- Every quantifier binds a variable, and every function symbol has the arguments it records. -/
structure Sentence.WellFormed (s : Sentence) : Prop where
  binds : ∀ q b, .quant q [] b ∉ s.parts
  applied : ∀ f args, s.Applies f args → f.arity = args.length

/-- That is so if no quantifier without variables is found and the terms of all atoms are
well-formed. -/
theorem Sentence.wellFormed_iff {s : Sentence} :
    s.WellFormed ↔ s.emptyQuantifier? = none ∧ ∀ a ∈ s.atoms, ∀ t ∈ a.args, t.wellFormed = true := by
  constructor
  · rintro ⟨hbinds, happlied⟩
    refine ⟨emptyQuantifier?_eq_none.mpr hbinds, fun a ha t ht => ?_⟩
    exact Term.wellFormed_iff_has.mpr fun f args hf => happlied f args ⟨a, mem_atoms.mp ha, t, ht, hf⟩
  · rintro ⟨hnone, hterms⟩
    refine ⟨emptyQuantifier?_eq_none.mp hnone, ?_⟩
    rintro f args ⟨a, ha, t, ht, hf⟩
    exact Term.wellFormed_iff_has.mp (hterms a (mem_atoms.mpr ha) t ht) f args hf

/-- The sentence is well-formed, and each symbol in it has one arity, there and in the other
sentences. -/
structure Sentence.Fits (s : Sentence) (ss : List Sentence) : Prop where
  wellFormed : s.WellFormed
  agrees : ∀ u ∈ s.uses, ∀ v ∈ s.uses ∪ usesIn ss, u.kind = v.kind → u.name = v.name → u.arity = v.arity

/-! ## Taking in -/

namespace Signature

variable {g g' : Signature} {u v : SymbolUse} {W W' : Prop} {U U' : Set SymbolUse}
  {add add' : Signature → Except SignatureFault Signature}

/-- The table of one kind of symbols. -/
def table (g : Signature) : SymbolKind → List (String × Nat)
  | .predicate => g.predicates
  | .function => g.functions

/-- The uses that the tables hold. -/
def known (g : Signature) : Set SymbolUse := {u | (g.table u.kind).lookup u.name = some u.arity}

theorem consistent_known (g : Signature) : Consistent g.known := by
  rintro ⟨kind, name, n⟩ hu ⟨kind', name', m⟩ hv hkind hname
  dsimp only at hkind hname
  subst hkind hname
  exact Option.some.inj (hu.symm.trans hv)

/-- Each symbol stands in its table once. -/
def Tidy (g : Signature) : Prop := ∀ kind, ((g.table kind).map Prod.fst).Nodup

/-- What taking something in does: it succeeds if `W` holds and the uses `U` are consistent with each
other and with those known. Then they are known besides, each symbol in one place; and if they were
known before, nothing changes. -/
structure Takes (W : Prop) (U : Set SymbolUse) (add : Signature → Except SignatureFault Signature) :
    Prop where
  succeeds : ∀ g, (∃ g', add g = .ok g') ↔ W ∧ Consistent (g.known ∪ U)
  known : ∀ g g', add g = .ok g' → g'.known = g.known ∪ U
  tidy : ∀ g g', add g = .ok g' → g.Tidy → g'.Tidy
  idle : W → ∀ g, U ⊆ g.known → add g = .ok g

theorem takes_nothing : Takes True ∅ .ok where
  succeeds g := by simpa using g.consistent_known
  known g g' h := by
    cases h
    simp
  tidy g g' h hg := by
    cases h
    exact hg
  idle _ _ _ := rfl

theorem Takes.congr (h : Takes W U add) (hW : W ↔ W') (hU : U = U') (hadd : ∀ g, add g = add' g) :
    Takes W' U' add' := by
  obtain rfl : W = W' := propext hW
  obtain rfl : add = add' := funext hadd
  subst hU
  exact h

theorem Takes.admitted (h : Takes W U add) (hg : add g = .ok g') : W := ((h.succeeds g).mp ⟨g', hg⟩).1

/-- One thing after the other. -/
theorem Takes.bind (h : Takes W U add) (h' : Takes W' U' add') :
    Takes (W ∧ W') (U ∪ U') fun g => add g >>= add' where
  succeeds g := by
    simp only [Except.bind_eq_ok]
    constructor
    · rintro ⟨g₂, g₁, h₁, h₂⟩
      obtain ⟨hW', hc⟩ := (h'.succeeds g₁).mp ⟨g₂, h₂⟩
      rw [h.known g g₁ h₁, Set.union_assoc] at hc
      exact ⟨⟨h.admitted h₁, hW'⟩, hc⟩
    · rintro ⟨⟨hW, hW'⟩, hc⟩
      rw [← Set.union_assoc] at hc
      obtain ⟨g₁, h₁⟩ := (h.succeeds g).mpr ⟨hW, hc.mono Set.subset_union_left⟩
      obtain ⟨g₂, h₂⟩ := (h'.succeeds g₁).mpr ⟨hW', by rwa [h.known g g₁ h₁]⟩
      exact ⟨g₂, g₁, h₁, h₂⟩
  known g g₂ hg := by
    obtain ⟨g₁, h₁, h₂⟩ := Except.bind_eq_ok.mp hg
    rw [h'.known g₁ g₂ h₂, h.known g g₁ h₁, Set.union_assoc]
  tidy g g₂ hg ht := by
    obtain ⟨g₁, h₁, h₂⟩ := Except.bind_eq_ok.mp hg
    exact h'.tidy g₁ g₂ h₂ (h.tidy g g₁ h₁ ht)
  idle hW g hU := by
    rw [Set.union_subset_iff] at hU
    exact Except.bind_eq_ok.mpr ⟨g, h.idle hW.1 g hU.1, h'.idle hW.2 g hU.2⟩

/-- Several things from left to right. -/
theorem Takes.foldlM {α : Type} {W : α → Prop} {U : α → Set SymbolUse}
    {add : Signature → α → Except SignatureFault Signature} {xs : List α}
    (h : ∀ x ∈ xs, Takes (W x) (U x) (add · x)) :
    Takes (∀ x ∈ xs, W x) {u | ∃ x ∈ xs, u ∈ U x} fun g => xs.foldlM add g := by
  induction xs with
  | nil => exact takes_nothing.congr (by simp) (by ext u; simp) fun _ => rfl
  | cons x xs ih =>
    rw [List.forall_mem_cons] at h
    refine (h.1.bind (ih h.2)).congr List.forall_mem_cons.symm ?_ fun _ => List.foldlM_cons.symm
    ext u
    simp

/-! ## One symbol -/

variable {kind : SymbolKind} {name : String} {arity : Nat} {table table' : List (String × Nat)}

/-- A symbol that is known with the arity leaves the table as it is, and one that is not known is put at
its end. -/
theorem record_eq_ok : record kind name arity table = .ok table' ↔
    (table.lookup name = some arity ∧ table' = table) ∨
      (table.lookup name = none ∧ table' = table ++ [(name, arity)]) := by
  unfold record
  cases table.lookup name with
  | none => simp [eq_comm]
  | some n =>
    by_cases hn : n = arity
    · simp [hn, eq_comm]
    · simp [hn]

theorem lookup_of_record (h : record kind name arity table = .ok table') (other : String) :
    table'.lookup other = if other = name then some arity else table.lookup other := by
  rcases record_eq_ok.mp h with ⟨hk, rfl⟩ | ⟨hk, rfl⟩
  · by_cases ho : other = name
    · rw [if_pos ho, ho, hk]
    · rw [if_neg ho]
  · rw [List.lookup_append]
    by_cases ho : other = name
    · simp [ho, hk]
    · simp [List.lookup_cons, beq_eq_false_iff_ne.mpr ho, ho]

theorem nodup_of_record (h : record kind name arity table = .ok table')
    (ht : (table.map Prod.fst).Nodup) : (table'.map Prod.fst).Nodup := by
  rcases record_eq_ok.mp h with ⟨-, rfl⟩ | ⟨hk, rfl⟩
  · exact ht
  · rw [List.lookup_eq_none_iff] at hk
    rw [List.map_append, List.nodup_append]
    refine ⟨ht, List.nodup_singleton _, fun a ha b hb hab => ?_⟩
    obtain ⟨e, he, rfl⟩ := List.mem_map.mp ha
    cases List.mem_singleton.mp hb
    simpa [hab] using hk e he

/-- The signature with one use recorded. -/
def put (u : SymbolUse) (g : Signature) : Except SignatureFault Signature :=
  match u.kind with
  | .predicate => do
    let predicates ← record .predicate u.name u.arity g.predicates
    pure { g with predicates }
  | .function => do
    let functions ← record .function u.name u.arity g.functions
    pure { g with functions }

/-- The use goes into the table of its kind; the other table stays. -/
theorem put_eq_ok : put u g = .ok g' ↔
    record u.kind u.name u.arity (g.table u.kind) = .ok (g'.table u.kind) ∧
      ∀ kind, kind ≠ u.kind → g'.table kind = g.table kind := by
  obtain ⟨kind, name, arity⟩ := u
  obtain ⟨predicates, functions⟩ := g'
  cases kind <;> simp only [put, Except.bind_eq_ok, Except.pure_eq_ok, table, mk.injEq]
  · constructor
    · rintro ⟨t, ht, rfl, rfl⟩
      exact ⟨ht, fun | .predicate, h => (h rfl).elim | .function, _ => rfl⟩
    · rintro ⟨ht, h⟩
      exact ⟨predicates, ht, rfl, (h .function nofun).symm⟩
  · constructor
    · rintro ⟨t, ht, rfl, rfl⟩
      exact ⟨ht, fun | .predicate, _ => rfl | .function, h => (h rfl).elim⟩
    · rintro ⟨ht, h⟩
      exact ⟨functions, ht, (h .predicate nofun).symm, rfl⟩

theorem exists_put (h : record u.kind u.name u.arity (g.table u.kind) = .ok table) :
    ∃ g', put u g = .ok g' := by
  obtain ⟨_ | _, name, arity⟩ := u
  · exact ⟨_, Except.bind_eq_ok.mpr ⟨table, h, rfl⟩⟩
  · exact ⟨_, Except.bind_eq_ok.mpr ⟨table, h, rfl⟩⟩

theorem known_of_put (h : put u g = .ok g') : g'.known = g.known ∪ {u} := by
  obtain ⟨ht, hother⟩ := put_eq_ok.mp h
  ext v
  by_cases hkind : v.kind = u.kind
  · have hv : v ∈ g'.known ↔ if v.name = u.name then u.arity = v.arity else v ∈ g.known := by
      simp only [known, Set.mem_ofPred_eq, hkind, lookup_of_record ht]
      split <;> simp
    rw [hv, Set.mem_union, Set.mem_singleton_iff]
    split
    · rename_i hname
      have hu : v ∈ g.known → u.arity = v.arity := by
        intro hk
        rw [known, Set.mem_ofPred_eq, hkind, hname] at hk
        rcases record_eq_ok.mp ht with ⟨hk', -⟩ | ⟨hk', -⟩ <;> simp_all
      exact ⟨fun ha => .inr (SymbolUse.ext hkind hname ha.symm), fun h => h.elim hu fun h => h ▸ rfl⟩
    · rename_i hname
      exact ⟨.inl, fun h => h.resolve_right fun h => hname (h ▸ rfl)⟩
  · have hv : v ∈ g'.known ↔ v ∈ g.known := by
      simp only [known, Set.mem_ofPred_eq, hother v.kind hkind]
    exact hv.trans ⟨.inl, fun h => h.resolve_right fun h => hkind (h ▸ rfl)⟩

theorem takes_put (u : SymbolUse) : Takes True {u} (put u) where
  succeeds g := by
    rw [true_and]
    constructor
    · rintro ⟨g', h⟩
      rw [← known_of_put h]
      exact g'.consistent_known
    · intro hc
      cases hk : (g.table u.kind).lookup u.name with
      | none => exact exists_put (record_eq_ok.mpr (.inr ⟨hk, rfl⟩))
      | some n =>
        have hn : n = u.arity := hc ⟨u.kind, u.name, n⟩ (.inl hk) u (.inr rfl) rfl rfl
        exact exists_put (record_eq_ok.mpr (.inl ⟨hn ▸ hk, rfl⟩))
  known g g' h := known_of_put h
  tidy g g' h hg kind := by
    obtain ⟨ht, hother⟩ := put_eq_ok.mp h
    by_cases hk : kind = u.kind
    · subst hk
      exact nodup_of_record ht (hg u.kind)
    · rw [hother kind hk]
      exact hg kind
  idle _ g hu := by
    have hu := Set.singleton_subset_iff.mp hu
    exact put_eq_ok.mpr ⟨record_eq_ok.mpr (.inl ⟨hu, rfl⟩), fun _ _ => rfl⟩

/-! ## Terms, atoms and sentences -/

theorem takes_refused (U : Set SymbolUse) (e : SignatureFault) : Takes False U fun _ => .error e where
  succeeds g := by simp
  known g g' h := nomatch h
  tidy g g' h := nomatch h
  idle h := h.elim

theorem addTerms_eq_foldlM (g : Signature) (ts : List Term) : g.addTerms ts = ts.foldlM addTerm g := by
  induction ts generalizing g with
  | nil => rfl
  | cons t ts ih =>
    rw [addTerms, List.foldlM_cons]
    exact congrArg (g.addTerm t >>= ·) (funext ih)

theorem takes_addTerms {ts : List Term}
    (h : ∀ t ∈ ts, Takes (t.wellFormed = true) t.uses (addTerm · t)) :
    Takes (∀ t ∈ ts, t.wellFormed = true) {u | ∃ t ∈ ts, u ∈ t.uses} (addTerms · ts) :=
  (Takes.foldlM h).congr .rfl rfl fun g => (g.addTerms_eq_foldlM ts).symm

theorem takes_addTerm (t : Term) : Takes (t.wellFormed = true) t.uses (addTerm · t) := by
  induction t with
  | var x => exact takes_nothing.congr (by simp) (by simp [Term.uses, Term.not_has_app_var]) fun _ => rfl
  | const c =>
    exact takes_nothing.congr (by simp) (by simp [Term.uses, Term.not_has_app_const]) fun _ => rfl
  | app f args ih =>
    by_cases hf : f.arity = args.length
    · refine ((takes_put ⟨.function, f.name, f.arity⟩).bind (takes_addTerms ih)).congr ?_
        Term.uses_app.symm fun g => ?_
      · rw [Term.wellFormed_app, true_and, and_iff_right hf]
      · rw [addTerm, if_neg (by simpa using hf), put]
        cases record .function f.name f.arity g.functions <;> rfl
    · refine (takes_refused _ (.misapplied f args.length)).congr ?_ rfl fun g => ?_
      · rw [Term.wellFormed_app]
        exact ⟨False.elim, fun h => hf h.1⟩
      · rw [addTerm, if_pos (by simpa using hf)]
        rfl

theorem takes_addAtom (a : Atom) :
    Takes (∀ t ∈ a.args, t.wellFormed = true) a.uses (addAtom · a) := by
  have hargs : Takes (∀ t ∈ a.args, t.wellFormed = true) _ (addTerms · a.args) :=
    takes_addTerms fun t _ => takes_addTerm t
  cases a with
  | pred p args =>
    refine ((takes_put ⟨.predicate, p, args.length⟩).bind hargs).congr (iff_of_eq (true_and _)) ?_
      fun g => ?_
    · ext u
      simp [Atom.uses]
    · rw [put, addAtom]
      cases record .predicate p args.length g.predicates <;> rfl
  | eq l r =>
    refine hargs.congr .rfl ?_ fun _ => rfl
    ext u
    simp [Atom.uses]

/-- A sentence is taken in if it is well-formed and its uses are consistent with those known. -/
theorem takes_check (s : Sentence) : Takes s.WellFormed s.uses (check · s) := by
  cases hq : s.emptyQuantifier? with
  | some q =>
    refine (takes_refused _ (.emptyQuantifier q)).congr ?_ rfl fun g => ?_
    · simp [Sentence.wellFormed_iff, hq]
    · rw [check, hq]
  | none =>
    have hatoms : Takes _ _ fun g => s.atoms.foldlM addAtom g := .foldlM fun a _ => takes_addAtom a
    refine hatoms.congr ?_ ?_ fun g => ?_
    · rw [Sentence.wellFormed_iff, and_iff_right hq]
    · simp only [Sentence.mem_atoms, Sentence.uses]
    · rw [check, hq]

end Signature

/-! ## Sentences one after the other -/

/-- A signature that sentences are offered to, and those it accepted. -/
structure Signature.Intake where
  signature : Signature := .empty
  accepted : List Sentence := []

namespace Signature.Intake

variable {r : Intake} {s : Sentence} {ss ss' : List Sentence}

/-- One sentence more. What is refused changes nothing. -/
def offer (r : Intake) (s : Sentence) : Intake :=
  match r.signature.check s with
  | .ok g => ⟨g, r.accepted ++ [s]⟩
  | .error _ => r

/-- What an empty signature is after some sentences were offered to it. -/
def after (ss : List Sentence) : Intake := ss.foldl offer {}

theorem after_concat (ss : List Sentence) (s : Sentence) : after (ss ++ [s]) = (after ss).offer s :=
  List.foldl_concat ..

/-- The tables hold the uses in the accepted sentences, and no symbol twice. -/
structure Exact (r : Intake) : Prop where
  known : r.signature.known = usesIn r.accepted
  tidy : r.signature.Tidy

theorem Exact.offer (h : r.Exact) (s : Sentence) : (r.offer s).Exact := by
  unfold Intake.offer
  split
  · rename_i g hg
    refine ⟨?_, (takes_check s).tidy _ g hg h.tidy⟩
    rw [(takes_check s).known _ g hg, h.known, usesIn_concat]
  · exact h

theorem after_exact (ss : List Sentence) : (after ss).Exact := by
  induction ss using List.reverseRecOn with
  | nil =>
    refine ⟨?_, fun kind => by cases kind <;> exact List.nodup_nil⟩
    ext ⟨_ | _, name, n⟩ <;> simp [Signature.known, table, usesIn, after, empty]
  | append_singleton ss s ih =>
    rw [after_concat]
    exact ih.offer s

theorem Exact.accepts_iff (h : r.Exact) (s : Sentence) :
    (∃ g, r.signature.check s = .ok g) ↔ s.Fits r.accepted := by
  have hknown := r.signature.consistent_known
  rw [(takes_check s).succeeds, consistent_union hknown, h.known]
  exact ⟨fun ⟨hw, ha⟩ => ⟨hw, ha⟩, fun ⟨hw, ha⟩ => ⟨hw, ha⟩⟩

theorem accepted_sublist (ss : List Sentence) : (after ss).accepted.Sublist ss := by
  induction ss using List.reverseRecOn with
  | nil => exact .refl _
  | append_singleton ss s ih =>
    rw [after_concat, offer]
    split
    · exact ih.append (.refl _)
    · exact ih.trans (List.sublist_append_left ss [s])

/-- All of the sentences are accepted if each is well-formed and their uses are consistent. -/
theorem accepted_eq_iff :
    (after ss).accepted = ss ↔ (∀ s ∈ ss, s.WellFormed) ∧ Consistent (usesIn ss) := by
  induction ss using List.reverseRecOn with
  | nil => simp [after, usesIn, Consistent]
  | append_singleton ss s ih =>
    have hall : (after (ss ++ [s])).accepted = ss ++ [s] ↔
        (after ss).accepted = ss ∧ ∃ g, (after ss).signature.check s = .ok g := by
      rw [after_concat, offer]
      split
      · rename_i g hg
        simp [hg]
      · rename_i e he
        have hlen := (accepted_sublist ss).length_le
        refine ⟨fun h => ?_, fun ⟨_, g, hg⟩ => by cases he.symm.trans hg⟩
        rw [h, List.length_append, List.length_singleton] at hlen
        omega
    rw [hall, (takes_check s).succeeds, (after_exact ss).known, List.forall_mem_append,
      List.forall_mem_singleton, usesIn_concat]
    constructor
    · rintro ⟨ha, hw, hc⟩
      rw [ha] at hc
      exact ⟨⟨(ih.mp ha).1, hw⟩, hc⟩
    · rintro ⟨⟨hws, hw⟩, hc⟩
      have ha := ih.mpr ⟨hws, hc.mono Set.subset_union_left⟩
      rw [ha]
      exact ⟨rfl, hw, hc⟩

/-- Sentences are offered to an empty signature one after the other. The next one is accepted if it fits
those accepted before, the tables hold the predicates and function symbols of just these with their
arities, and what is refused changes nothing. Whether all are accepted does not depend on their order. -/
theorem acceptance_exact (ss : List Sentence) (s : Sentence) :
    ((∃ g, (after ss).signature.check s = .ok g) ↔ s.Fits (after ss).accepted) ∧
    (∀ name n, (after ss).signature.predicateArity? name = some n ↔
      ∃ t ∈ (after ss).accepted, ⟨.predicate, name, n⟩ ∈ t.uses) ∧
    (∀ name n, (after ss).signature.functionArity? name = some n ↔
      ∃ t ∈ (after ss).accepted, ⟨.function, name, n⟩ ∈ t.uses) ∧
    (after ss).signature.Tidy ∧
    (∀ g, (after ss).signature.check s = .ok g → after (ss ++ [s]) = ⟨g, (after ss).accepted ++ [s]⟩) ∧
    (∀ e, (after ss).signature.check s = .error e → after (ss ++ [s]) = after ss) ∧
    ∀ ss', ss.Perm ss' → ((after ss).accepted = ss ↔ (after ss').accepted = ss') := by
  have hexact := after_exact ss
  have hknown : ∀ u, u ∈ (after ss).signature.known ↔ u ∈ usesIn (after ss).accepted := fun u => by
    rw [hexact.known]
  refine ⟨hexact.accepts_iff s, fun name n => hknown ⟨.predicate, name, n⟩,
    fun name n => hknown ⟨.function, name, n⟩, hexact.tidy, fun g hg => ?_, fun e he => ?_,
    fun ss' hperm => ?_⟩
  · rw [after_concat, offer, hg]
  · rw [after_concat, offer, he]
  · have huses : usesIn ss = usesIn ss' := by
      ext u
      simp only [usesIn, Set.mem_ofPred_eq, hperm.mem_iff]
    rw [accepted_eq_iff, accepted_eq_iff, huses]
    simp only [hperm.mem_iff]

end Signature.Intake

namespace Sentence

/-- `P(f(A))`. -/
def unaryF : Sentence := .atom (.pred "P" [.fn "f" [.const "A"]])

/-- `R(A) & P(f(A,B))`: the predicate `R` comes before the clash. -/
def binaryF : Sentence :=
  .and (.atom (.pred "R" [.const "A"])) (.atom (.pred "P" [.fn "f" [.const "A", .const "B"]]))

/-- `R(A,B)`. -/
def binaryR : Sentence := .atom (.pred "R" [.const "A", .const "B"])

end Sentence

/-- The second sentence clashes with the first when one of its symbols is met already. It is refused and
leaves no trace, so the third is free to use that symbol otherwise. -/
theorem Signature.Intake.binaryF_acceptance :
    (after [.unaryF]).signature.check .binaryF = .error (.clash .function "f" 1 2) ∧
    after [.unaryF, .binaryF] = after [.unaryF] ∧
    after [.unaryF, .binaryF, .binaryR] =
      ⟨⟨[("P", 1), ("R", 2)], [("f", 1)]⟩, [.unaryF, .binaryR]⟩ ∧
    ((after [.unaryF, .binaryF]).accepted = [.unaryF, .binaryF] ↔
      (after [.binaryF, .unaryF]).accepted = [.binaryF, .unaryF]) := by
  have hclash : (after [.unaryF]).signature.check .binaryF = .error (.clash .function "f" 1 2) := by
    decide +kernel
  have hfree : (after [.unaryF, .binaryF]).signature.check .binaryR =
      .ok ⟨[("P", 1), ("R", 2)], [("f", 1)]⟩ := by decide +kernel
  have hunary : (after [.unaryF, .binaryF]).accepted = [.unaryF] := by decide +kernel
  obtain ⟨-, -, -, -, -, hrefused, -⟩ := acceptance_exact [.unaryF] .binaryF
  obtain ⟨-, -, -, -, haccepted, -, horder⟩ := acceptance_exact [.unaryF, .binaryF] .binaryR
  rw [hunary] at haccepted
  exact ⟨hclash, hrefused _ hclash, haccepted _ hfree, horder _ (.swap ..)⟩

end Refutation
