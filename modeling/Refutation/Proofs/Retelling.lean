import Refutation.KnowledgeBase
import Refutation.Proofs.Arities
import Refutation.Proofs.ClausalForm

/-!
# Telling a sentence again

A sentence that was told is converted again when it is told again, and its existential variables give
way to new Skolem symbols. But for these the two conversions come to the same clauses, and the same
clause is not stored twice. So only clauses with new Skolem symbols are added.

* `Sentence.Twin`: two sentences that differ only where the second has a symbol of a certain kind.
* `Skolemizes.twin`: so do the Skolem forms that different counters give; later stages keep to it.
* `Converter.convert_twin`: clauses of the second conversion have a new Skolem symbol, or the first
  conversion gave them too.
* `Signature.check_again`: what a signature has taken in it takes in again.
* `KnowledgeBase.tell_again`: what telling a sentence again adds.
  `KnowledgeBase.someP_added_again`: it may add a clause.
-/

namespace Refutation

/-! ## Atoms and bindings -/

namespace Term

variable {σ : Substitution} {t : Term} {y : Symbol}

theorem mem_symbols_subst_of_mem (h : y ∈ t.symbols) : y ∈ (t.subst σ).symbols := by
  induction t with
  | var x => cases h
  | const c => exact h
  | app f args ih =>
    rw [subst_app, mem_symbols_app]
    refine (mem_symbols_app.mp h).imp_right ?_
    rintro ⟨t, ht, hy⟩
    exact ⟨t.subst σ, List.mem_map_of_mem ht, ih t ht hy⟩

theorem mem_symbols_subst_of_image {x : Var} (hx : x ∈ t.occurrences) (h : y ∈ (σ.image x).symbols) :
    y ∈ (t.subst σ).symbols := by
  induction t with
  | var z =>
    cases List.mem_singleton.mp hx
    exact h
  | const c => cases hx
  | app f args ih =>
    obtain ⟨t, ht, hx⟩ := mem_occurrences_app.mp hx
    rw [subst_app, mem_symbols_app]
    exact .inr ⟨t.subst σ, List.mem_map_of_mem ht, ih t ht hx⟩

end Term

variable {S : Symbol → Prop} {σ τ : Substitution}

/-- The atom has a symbol among those given. -/
def Atom.Meets (S : Symbol → Prop) (a : Atom) : Prop := ∃ t ∈ a.args, ∃ y ∈ t.symbols, S y

/-- The atoms are the same, or the second has a symbol among those given. -/
def Atom.Twin (S : Symbol → Prop) (a b : Atom) : Prop := a = b ∨ b.Meets S

/-- Variables have the same image, or the second image has a symbol among those given, and the same
becomes of binders. -/
structure Substitution.Twin (S : Symbol → Prop) (σ τ : Substitution) : Prop where
  image : ∀ x, σ.image x = τ.image x ∨ ∃ y ∈ (τ.image x).symbols, S y
  binder : ∀ x, σ.binder? x = τ.binder? x

theorem Atom.Twin.subst {a b : Atom} (h : a.Twin S b) (hστ : σ.Twin S τ) :
    (a.subst σ).Twin S (b.subst τ) := by
  rcases h with rfl | ⟨t, ht, y, hy, hS⟩
  · by_cases hsame : ∀ x ∈ a.occurrences, σ.image x = τ.image x
    · refine .inl (Atom.map_congr fun t ht => Term.subst_congr fun x hx => ?_)
      exact hsame x (Atom.mem_occurrences.mpr ⟨t, ht, hx⟩)
    · simp only [not_forall] at hsame
      obtain ⟨x, hx, hne⟩ := hsame
      obtain ⟨t, ht, hx⟩ := Atom.mem_occurrences.mp hx
      obtain ⟨y, hy, hS⟩ := (hστ.image x).resolve_left hne
      refine .inr ⟨t.subst τ, ?_, y, Term.mem_symbols_subst_of_image hx hy, hS⟩
      rw [Atom.subst, Atom.args_map]
      exact List.mem_map_of_mem ht
  · refine .inr ⟨t.subst τ, ?_, y, Term.mem_symbols_subst_of_mem hy, hS⟩
    rw [Atom.subst, Atom.args_map]
    exact List.mem_map_of_mem ht

/-! ## Sentences -/

namespace Sentence

/-- The sentences have the same shape and binders, and atoms in the same place are the same or that of
the second has a symbol among those given. -/
inductive Twin (S : Symbol → Prop) : Sentence → Sentence → Prop
  | atom {a b : Atom} (h : a.Twin S b) : Twin S (.atom a) (.atom b)
  | not {s t : Sentence} (h : Twin S s t) : Twin S (.not s) (.not t)
  | and {l l' r r' : Sentence} (hl : Twin S l l') (hr : Twin S r r') : Twin S (.and l r) (.and l' r')
  | or {l l' r r' : Sentence} (hl : Twin S l l') (hr : Twin S r r') : Twin S (.or l r) (.or l' r')
  | implies {l l' r r' : Sentence} (hl : Twin S l l') (hr : Twin S r r') :
      Twin S (.implies l r) (.implies l' r')
  | iff {l l' r r' : Sentence} (hl : Twin S l l') (hr : Twin S r r') : Twin S (.iff l r) (.iff l' r')
  | quant {q : Quantifier} {vs : List Var} {s t : Sentence} (h : Twin S s t) :
      Twin S (.quant q vs s) (.quant q vs t)

namespace Twin

variable {s t s' t' : Sentence}

theorem refl (s : Sentence) : Twin S s s := by
  induction s with
  | atom a => exact .atom (.inl rfl)
  | not s ih => exact .not ih
  | and l r ihl ihr => exact .and ihl ihr
  | or l r ihl ihr => exact .or ihl ihr
  | implies l r ihl ihr => exact .implies ihl ihr
  | iff l r ihl ihr => exact .iff ihl ihr
  | quant q vs s ih => exact .quant ih

theorem subst (h : Twin S s t) (hστ : σ.Twin S τ) : Twin S (s.subst σ) (t.subst τ) := by
  induction h with
  | atom h => exact .atom (h.subst hστ)
  | not _ ih => exact .not ih
  | and _ _ ihl ihr => exact .and ihl ihr
  | or _ _ ihl ihr => exact .or ihl ihr
  | implies _ _ ihl ihr => exact .implies ihl ihr
  | iff _ _ ihl ihr => exact .iff ihl ihr
  | quant _ ih =>
    rw [Sentence.subst, Sentence.subst, funext hστ.binder, quantify, quantify]
    split
    · exact ih
    · exact .quant ih

theorem dropUniversals (h : Twin S s t) (hs : s.dropUniversals = .ok s')
    (ht : t.dropUniversals = .ok t') : Twin S s' t' := by
  induction h generalizing s' t' with
  | atom | not =>
    cases hs
    cases ht
    constructor
    assumption
  | and _ _ ihl ihr | or _ _ ihl ihr =>
    obtain ⟨l, r, hl, hr, rfl⟩ := Except.bind₂_eq_ok.mp hs
    obtain ⟨l', r', hl', hr', rfl⟩ := Except.bind₂_eq_ok.mp ht
    constructor
    · exact ihl hl hl'
    · exact ihr hr hr'
  | implies | iff => cases hs
  | @quant q _ _ _ _ ih =>
    cases q with
    | all => exact ih hs ht
    | ex => cases hs

theorem orRight {l l' r r' : Sentence} (hl : Twin S l l') (hr : Twin S r r') :
    Twin S (orRight l r) (orRight l' r') := by
  induction hr with
  | and _ _ iha ihb => exact .and iha ihb
  | atom | not | or | implies | iff | quant => exact .or hl (by constructor <;> assumption)

theorem orBoth {l l' r r' : Sentence} (hl : Twin S l l') (hr : Twin S r r') :
    Twin S (orBoth l r) (orBoth l' r') := by
  induction hl with
  | and _ _ iha ihb => exact .and iha ihb
  | atom | not | or | implies | iff | quant => exact .orRight (by constructor <;> assumption) hr

theorem distribute (h : Twin S s t) (hs : s.distribute = .ok s') (ht : t.distribute = .ok t') :
    Twin S s' t' := by
  induction h generalizing s' t' with
  | atom | not =>
    cases hs
    cases ht
    constructor
    assumption
  | and _ _ ihl ihr =>
    obtain ⟨l, r, hl, hr, rfl⟩ := Except.bind₂_eq_ok.mp hs
    obtain ⟨l', r', hl', hr', rfl⟩ := Except.bind₂_eq_ok.mp ht
    exact .and (ihl hl hl') (ihr hr hr')
  | or _ _ ihl ihr =>
    obtain ⟨l, r, hl, hr, rfl⟩ := Except.bind₂_eq_ok.mp hs
    obtain ⟨l', r', hl', hr', rfl⟩ := Except.bind₂_eq_ok.mp ht
    exact .orBoth (ihl hl hl') (ihr hr hr')
  | implies | iff | quant => cases hs

theorem exists_conjunct (h : Twin S s t) {d : Sentence} (hd : d ∈ t.conjuncts) :
    ∃ c ∈ s.conjuncts, Twin S c d := by
  induction h with
  | and _ _ ihl ihr =>
    rcases List.mem_append.mp hd with hd | hd
    · obtain ⟨c, hc, hcd⟩ := ihl hd
      exact ⟨c, List.mem_append_left _ hc, hcd⟩
    · obtain ⟨c, hc, hcd⟩ := ihr hd
      exact ⟨c, List.mem_append_right _ hc, hcd⟩
  | atom | not | or | implies | iff | quant =>
    cases List.mem_singleton.mp hd
    exact ⟨_, List.mem_cons_self, by constructor <;> assumption⟩

/-- The literals are the same, or one of the second has a symbol among those given. -/
theorem disjuncts (h : Twin S s t) {ls ms : List Literal} (hs : s.disjuncts = .ok ls)
    (ht : t.disjuncts = .ok ms) : ls = ms ∨ ∃ m ∈ ms, m.atom.Meets S := by
  induction h generalizing ls ms with
  | atom h =>
    cases hs
    cases ht
    rcases h with rfl | hb
    · exact .inl rfl
    · exact .inr ⟨_, List.mem_cons_self, hb⟩
  | not h =>
    cases h with
    | atom h =>
      cases hs
      cases ht
      rcases h with rfl | hb
      · exact .inl rfl
      · exact .inr ⟨_, List.mem_cons_self, hb⟩
    | not | and | or | implies | iff | quant => cases hs
  | or _ _ ihl ihr =>
    obtain ⟨ls₁, ls₂, hl, hr, rfl⟩ := Except.bind₂_eq_ok.mp hs
    obtain ⟨ms₁, ms₂, hl', hr', rfl⟩ := Except.bind₂_eq_ok.mp ht
    rcases ihl hl hl' with rfl | ⟨m, hm, hS⟩
    · rcases ihr hr hr' with rfl | ⟨m, hm, hS⟩
      · exact .inl rfl
      · exact .inr ⟨m, List.mem_append_right _ hm, hS⟩
    · exact .inr ⟨m, List.mem_append_left _ hm, hS⟩
  | and | implies | iff | quant => cases hs

/-- A clause of the second sentence has a symbol among those given, or the first sentence has it too. -/
theorem extract (h : Twin S s t) {cs ds : List Clause} (hs : s.extract = .ok cs)
    (ht : t.extract = .ok ds) {d : Clause} (hd : d ∈ ds) :
    (∃ m ∈ d, m.atom.Meets S) ∨ ∃ c ∈ cs, c.same d = true := by
  obtain ⟨htaut, t₁, ht₁, ms, hms, rfl⟩ := exists_of_mem_extract ht hd
  obtain ⟨s₁, hs₁, htwin⟩ := h.exists_conjunct ht₁
  obtain ⟨ls, hls, hkept⟩ := exists_mem_extract hs hs₁
  rcases htwin.disjuncts hls hms with rfl | ⟨m, hm, hS⟩
  · exact .inr (hkept htaut)
  · exact .inl ⟨m, Clause.mem_ofList.mpr hm, hS⟩

end Twin

end Sentence

/-! ## Skolem forms -/

/-- A Skolem symbol with a number from `k` to below `k'`. -/
def Symbol.Drawn (k k' : Nat) (y : Symbol) : Prop := ∃ n, k ≤ n ∧ n < k' ∧ y.IsSkolem n

theorem exists_symbol_skolemTerm (us : List Var) (n : Nat) :
    ∃ y ∈ (skolemTerm us n).symbols, y.IsSkolem n := by
  unfold skolemTerm
  split
  · exact ⟨_, List.mem_cons_self, .inl rfl⟩
  · exact ⟨_, Term.mem_symbols_app.mpr (.inl rfl), .inr rfl⟩

/-- What becomes of a binder does not depend on the numbers of the Skolem terms. -/
theorem binder?_skolemBindings (us vs : List Var) (k : Nat) (x : Var) :
    (skolemBindings us vs k).binder? x = if x ∈ vs then none else some x := by
  unfold Substitution.binder?
  split
  · rename_i hx
    rw [if_neg (get?_skolemBindings_eq_none.mp hx)]
  · rename_i t hx
    have hmem : x ∈ vs := by
      by_contra hn
      rw [get?_skolemBindings_eq_none.mpr hn] at hx
      cases hx
    obtain ⟨n, -, -, rfl⟩ := mem_skolemPairs.mp (Substitution.mem_of_get?_ofList hx)
    rw [if_pos hmem]
    unfold skolemTerm
    split <;> rfl

theorem skolemBindings_twin (us vs : List Var) (k : Nat) {lo hi j : Nat} (hlo : lo ≤ j)
    (hhi : j + vs.length ≤ hi) :
    (skolemBindings us vs k).Twin (Symbol.Drawn lo hi) (skolemBindings us vs j) where
  image x := by
    cases hx : (skolemBindings us vs j).get? x with
    | none =>
      have hk : (skolemBindings us vs k).get? x = none :=
        get?_skolemBindings_eq_none.mpr (get?_skolemBindings_eq_none.mp hx)
      exact .inl (by rw [Substitution.image_of_unbound hk, Substitution.image_of_unbound hx])
    | some t =>
      obtain ⟨n, hle, hn, rfl⟩ := mem_skolemPairs.mp (Substitution.mem_of_get?_ofList hx)
      obtain ⟨hlt, -⟩ := List.getElem?_eq_some_iff.mp hn
      obtain ⟨y, hy, hskolem⟩ := exists_symbol_skolemTerm us n
      rw [Substitution.image_of_get? hx]
      exact .inr ⟨y, hy, n, by omega, by omega, hskolem⟩
  binder x := by rw [binder?_skolemBindings, binder?_skolemBindings]

/-- From different counters on, Skolem forms differ only where the second has a symbol that it has
drawn, and they draw the same number of them. -/
theorem Skolemizes.twin {us : List Var} {k k' j j' lo hi : Nat} {s s' t t' : Sentence}
    (h : Skolemizes us k s s' k') (h' : Skolemizes us j t t' j')
    (hst : Sentence.Twin (Symbol.Drawn lo hi) s t) (hlo : lo ≤ j) (hhi : j' ≤ hi) :
    Sentence.Twin (Symbol.Drawn lo hi) s' t' ∧ k' + j = k + j' := by
  induction h generalizing j j' t t' with
  | atom =>
    cases hst with
    | atom h =>
      cases h'
      exact ⟨.atom h, rfl⟩
  | not =>
    cases hst with
    | not h =>
      cases h'
      exact ⟨.not h, rfl⟩
  | and _ _ ihl ihr =>
    cases hst with
    | and hl hr =>
      cases h' with
      | and hl' hr' =>
        obtain ⟨htl, hkl⟩ := ihl hl' hl hlo (hr'.le.trans hhi)
        obtain ⟨htr, hkr⟩ := ihr hr' hr (hlo.trans hl'.le) hhi
        exact ⟨.and htl htr, by omega⟩
  | or _ _ ihl ihr =>
    cases hst with
    | or hl hr =>
      cases h' with
      | or hl' hr' =>
        obtain ⟨htl, hkl⟩ := ihl hl' hl hlo (hr'.le.trans hhi)
        obtain ⟨htr, hkr⟩ := ihr hr' hr (hlo.trans hl'.le) hhi
        exact ⟨.or htl htr, by omega⟩
  | all _ ih =>
    cases hst with
    | quant h =>
      cases h' with
      | all hs' =>
        obtain ⟨ht, hk⟩ := ih hs' h hlo hhi
        exact ⟨.quant ht, hk⟩
  | @ex us vs k k' s s' _ ih =>
    cases hst with
    | quant h =>
      cases h' with
      | ex hs' =>
        have hle := hs'.le
        obtain ⟨ht, hk⟩ := ih hs' (h.subst (skolemBindings_twin us vs k hlo (hle.trans hhi)))
          (by omega) hhi
        exact ⟨ht, by omega⟩

/-- A sentence that is converted twice gives the same clauses, but for those with a Skolem symbol that
the second conversion has drawn. It draws as many as the first. -/
theorem Converter.convert_twin {c c' e e' : Converter} {s : Sentence} {cs ds : List Clause}
    (h : c.convert s = .ok (cs, c')) (h' : e.convert s = .ok (ds, e')) :
    (∀ d ∈ ds, (∃ y ∈ d.symbols, y.Drawn e.issued e'.issued) ∨ ∃ c ∈ cs, c.same d = true) ∧
      c'.issued + e.issued = c.issued + e'.issued := by
  obtain ⟨s₁, s₂, s₃, hsk, hdrop, hdist, hext⟩ := convert_stages h
  obtain ⟨t₁, t₂, t₃, hsk', hdrop', hdist', hext'⟩ := convert_stages h'
  obtain ⟨htwin, hissued⟩ := hsk.twin hsk' (.refl _) (Nat.le_refl _) (Nat.le_refl _)
  refine ⟨fun d hd => ?_, hissued⟩
  have hclauses := ((htwin.dropUniversals hdrop hdrop').distribute hdist hdist').extract hext hext' hd
  refine hclauses.imp_left ?_
  rintro ⟨m, hm, t, ht, y, hy, hdrawn⟩
  exact ⟨y, List.mem_flatMap.mpr ⟨m, hm, Term.mem_symbolsList.mpr ⟨t, ht, hy⟩⟩, hdrawn⟩

/-! ## Telling again -/

/-- A sentence that was taken in changes nothing when it is taken in again. -/
theorem Signature.check_again {g g' : Signature} {s : Sentence} (h : g.check s = .ok g') :
    g'.check s = .ok g' := by
  refine (takes_check s).idle ((takes_check s).admitted h) g' ?_
  rw [(takes_check s).known g g' h]
  exact Set.subset_union_right

theorem Clause.same_trans {c d e : Clause} (h : c.same d = true) (h' : d.same e = true) :
    c.same e = true :=
  same_iff.mpr fun l => (same_iff.mp h l).trans (same_iff.mp h' l)

namespace KnowledgeBase

/-- Clauses that are stored are added at the end, but for those that are the same as one there. -/
theorem store_append (kb : KnowledgeBase) (cs : List Clause) :
    ∃ added, (kb.store cs).clauses = kb.clauses ++ added ∧
      (∀ c ∈ added, c ∈ cs ∧ ∀ x ∈ kb.clauses, x.same c = false) ∧
      ∀ c ∈ cs, ∃ x ∈ (kb.store cs).clauses, x.same c = true := by
  have hfold : ∀ (cs kept : List Clause), ∃ added,
      cs.foldl (fun kept c => if kept.any (·.same c) then kept else kept ++ [c]) kept = kept ++ added ∧
        (∀ c ∈ added, c ∈ cs ∧ ∀ x ∈ kept, x.same c = false) ∧
        ∀ c ∈ cs, ∃ x ∈ kept ++ added, x.same c = true := by
    intro cs
    induction cs with
    | nil => exact fun kept => ⟨[], by simp, nofun, nofun⟩
    | cons d cs ih =>
      intro kept
      rw [List.foldl_cons]
      split
      · rename_i hd
        obtain ⟨added, he, hnew, hall⟩ := ih kept
        obtain ⟨x, hx, hsame⟩ := List.any_eq_true.mp hd
        refine ⟨added, he, fun c hc => ⟨List.mem_cons_of_mem _ (hnew c hc).1, (hnew c hc).2⟩, ?_⟩
        exact List.forall_mem_cons.mpr ⟨⟨x, List.mem_append_left _ hx, hsame⟩, hall⟩
      · rename_i hd
        obtain ⟨added, he, hnew, hall⟩ := ih (kept ++ [d])
        rw [List.append_assoc] at he hall
        refine ⟨[d] ++ added, he, List.forall_mem_append.mpr ⟨?_, fun c hc => ?_⟩, ?_⟩
        · rw [List.forall_mem_singleton]
          refine ⟨List.mem_cons_self, fun x hx => Bool.eq_false_iff.mpr fun hsame => hd ?_⟩
          exact List.any_eq_true.mpr ⟨x, hx, hsame⟩
        · obtain ⟨hc, hx⟩ := hnew c hc
          exact ⟨List.mem_cons_of_mem _ hc, fun x hm => hx x (List.mem_append_left _ hm)⟩
        · refine List.forall_mem_cons.mpr ⟨⟨d, ?_, Clause.same_refl d⟩, hall⟩
          exact List.mem_append_right _ (List.mem_append_left _ (List.mem_singleton.mpr rfl))
  obtain ⟨added, he, hnew, hall⟩ := hfold cs kb.clauses
  have hstored : (kb.store cs).clauses = kb.clauses ++ added := he
  exact ⟨added, hstored, hnew, hstored ▸ hall⟩

/-- What an accepted sentence leaves behind. -/
theorem tell_eq (kb : KnowledgeBase) {s : Sentence} {g : Signature} {cs : List Clause} {c : Converter}
    (hg : kb.signature.check s = .ok g) (hcs : kb.converter.convert s = .ok (cs, c)) :
    kb.tell s = .ok ((kb.store cs).clauses.length - kb.clauses.length,
      { kb.store cs with signature := g, converter := c, sentences := kb.sentences ++ [s] }) := by
  rw [tell, hg, hcs]
  rfl

theorem exists_of_tell {kb kb₁ : KnowledgeBase} {s : Sentence} {n : Nat} (h : kb.tell s = .ok (n, kb₁)) :
    kb.signature.check s = .ok kb₁.signature ∧
      ∃ cs, kb.converter.convert s = .ok (cs, kb₁.converter) ∧ kb₁.clauses = (kb.store cs).clauses := by
  obtain ⟨g, hg, h⟩ := Except.bind_eq_ok.mp h
  obtain ⟨⟨cs, c₁⟩, hcs, h⟩ := Except.bind_eq_ok.mp h
  cases h
  exact ⟨Except.mapError_eq_ok.mp hg, cs, Except.mapError_eq_ok.mp hcs, rfl⟩

/-- A sentence that was told can be told again. All that is added are clauses with Skolem symbols that
are drawn for it then, so nothing is added if telling it the first time drew none. -/
theorem tell_again {kb kb₁ : KnowledgeBase} {s : Sentence} {n : Nat} (h : kb.tell s = .ok (n, kb₁)) :
    ∃ added kb₂, kb₁.tell s = .ok (added.length, kb₂) ∧ kb₂.clauses = kb₁.clauses ++ added ∧
      (∀ c ∈ added, ∃ y ∈ c.symbols, y.Drawn kb₁.converter.issued kb₂.converter.issued) ∧
      (kb₁.converter.issued = kb.converter.issued → added = []) := by
  obtain ⟨hg, cs, hcs, hclauses⟩ := exists_of_tell h
  obtain ⟨⟨ds, c₂⟩, hds⟩ := kb₁.converter.convert_total s
  obtain ⟨htwin, hissued⟩ := Converter.convert_twin hcs hds
  obtain ⟨-, -, -, hstored⟩ := kb.store_append cs
  obtain ⟨added, he, hnew, -⟩ := kb₁.store_append ds
  have htell := kb₁.tell_eq (Signature.check_again hg) hds
  rw [he, List.length_append, Nat.add_sub_cancel_left] at htell
  have hdrawn : ∀ c ∈ added, ∃ y ∈ c.symbols, y.Drawn kb₁.converter.issued c₂.issued := by
    intro c hc
    obtain ⟨hcds, hfresh⟩ := hnew c hc
    refine (htwin c hcds).resolve_right ?_
    rintro ⟨d, hd, hsame⟩
    obtain ⟨x, hx, hxd⟩ := hstored d hd
    rw [← hclauses] at hx
    exact Bool.false_ne_true ((hfresh x hx).symm.trans (Clause.same_trans hxd hsame))
  refine ⟨added, _, htell, he, hdrawn, fun hnone => ?_⟩
  -- No numbers are left for new symbols.
  refine List.eq_nil_iff_forall_not_mem.mpr fun c hc => ?_
  obtain ⟨y, -, m, hle, hlt, -⟩ := hdrawn c hc
  omega

/-- There is a `P`. -/
def someP : Sentence := .quant .ex [⟨"x"⟩] (.atom (.pred "P" [.var ⟨"x"⟩]))

/-- `P(A)`, and there is a `P`. -/
def namedAndSomeP : Sentence := .and (.atom (.pred "P" [.const "A"])) someP

/-- Told again, the sentence adds a clause for the `P` that it does not name, and no other. -/
theorem namedAndSomeP_tell_again : ∃ kb₁ added kb₂, empty.tell namedAndSomeP = .ok (2, kb₁) ∧
    kb₁.clauses.map Clause.text = ["P(A)", "P(SC0)"] ∧
    kb₁.tell namedAndSomeP = .ok (added.length, kb₂) ∧ kb₂.clauses = kb₁.clauses ++ added ∧
    kb₂.clauses.map Clause.text = ["P(A)", "P(SC0)", "P(SC1)"] ∧
    ∀ c ∈ added, ∃ y ∈ c.symbols, y.Drawn kb₁.converter.issued kb₂.converter.issued := by
  have hrun : (empty.tell namedAndSomeP).toOption.any (fun r => r.1 == 2 &&
      r.2.clauses.map Clause.text == ["P(A)", "P(SC0)"] &&
      (r.2.tell namedAndSomeP).toOption.any
        (·.2.clauses.map Clause.text == ["P(A)", "P(SC0)", "P(SC1)"])) = true := by cbv
  obtain ⟨⟨n, kb₁⟩, h₁, hrun⟩ := Except.exists_of_toOption_any hrun
  simp only [Bool.and_eq_true, beq_iff_eq] at hrun
  obtain ⟨⟨rfl, htext⟩, hrun⟩ := hrun
  obtain ⟨added, kb₂, h₂, hadded, hdrawn, -⟩ := tell_again h₁
  rw [h₂] at hrun
  exact ⟨kb₁, added, kb₂, h₁, htext, h₂, hadded, beq_iff_eq.mp hrun, hdrawn⟩

/-- Telling that there is a `P` adds a clause, and so does telling it again. -/
theorem someP_added_again : ∃ kb₁ kb₂, empty.tell someP = .ok (1, kb₁) ∧
    kb₁.tell someP = .ok (1, kb₂) ∧ kb₂.clauses.map Clause.text = ["P(SC0)", "P(SC1)"] := by
  have hrun : (empty.tell someP).toOption.any (fun r => r.1 == 1 &&
      (r.2.tell someP).toOption.any
        (fun r => r.1 == 1 && r.2.clauses.map Clause.text == ["P(SC0)", "P(SC1)"])) = true := by cbv
  obtain ⟨⟨n, kb₁⟩, h₁, hrun⟩ := Except.exists_of_toOption_any hrun
  simp only [Bool.and_eq_true, beq_iff_eq] at hrun
  obtain ⟨rfl, hrun⟩ := hrun
  obtain ⟨⟨n, kb₂⟩, h₂, hrun⟩ := Except.exists_of_toOption_any hrun
  simp only [Bool.and_eq_true, beq_iff_eq] at hrun
  obtain ⟨rfl, htext⟩ := hrun
  exact ⟨kb₁, kb₂, h₁, h₂, htext⟩

end KnowledgeBase

end Refutation
