import Mathlib.Data.List.Basic
import Refutation.Json.Decode

/-!
# Reading what was written

The reader takes from the text of a value that value and nothing more, so that no two values have the
same text. Numbers are left out: where a number ends depends on what follows it.

* `Json.escapeChar_cases`: the three ways in which a character is written.
* `Json.Lexeme`, `Json.lexeme_escape`, `Json.unescape?_escape`: a text as it stands between quotes ends
  at the closing quote, and decoding gives the text back.
* `Json.Legible`, `Json.Legible.reads`: values without numbers are read from their text.
* `Json.parse?_compact`, `Json.eq_of_compact_eq`: a whole text, and that it has one value.
* `Json.record_inj`, `Json.ofText_inj`: what equal records and strings say.
-/

namespace Refutation

namespace Json

/-! ## Strings -/

theorem hexValue?_hexDigit : ∀ n < 16, hexValue? (hexDigit n) = some n := by decide

theorem hexUnit?_hexDigit {n : Nat} (h : n < 0x20) :
    hexUnit? '0' '0' (hexDigit (n / 16)) (hexDigit (n % 16)) = some n := by
  have hzero : hexValue? '0' = some 0 := by decide
  have hhigh := hexValue?_hexDigit (n / 16) (by omega)
  have hlow := hexValue?_hexDigit (n % 16) (by omega)
  simp only [hexUnit?, hzero, hhigh, hlow, Option.bind_eq_bind, Option.bind_some]
  rw [Nat.zero_mul, Nat.zero_add, Nat.div_add_mod']

/-- The characters that have an escape of their own, with its letter. -/
def letterEscapes : List (Char × Char) :=
  [('"', '"'), ('\\', '\\'), ('\x08', 'b'), ('\x0c', 'f'), ('\n', 'n'), ('\r', 'r'), ('\t', 't')]

theorem letterEscapes_read : ∀ p ∈ letterEscapes, p.2 ≠ 'u' ∧ escapeChar p.1 = ['\\', p.2] ∧
    isSimpleEscape p.2 = true ∧ simpleEscape? p.2 = some p.1 := by decide

/-- A character is written as a backslash and a letter, by its number, or as itself. -/
theorem escapeChar_cases (c : Char) :
    (∃ e, e ≠ 'u' ∧ escapeChar c = ['\\', e] ∧ isSimpleEscape e = true ∧ simpleEscape? e = some c) ∨
    (c.toNat < 0x20 ∧
      escapeChar c = ['\\', 'u', '0', '0', hexDigit (c.toNat / 16), hexDigit (c.toNat % 16)]) ∨
    (c ≠ '"' ∧ c ≠ '\\' ∧ ¬c.toNat < 0x20 ∧ escapeChar c = [c]) := by
  by_cases hletter : c ∈ letterEscapes.map Prod.fst
  · obtain ⟨p, hp, rfl⟩ := List.mem_map.mp hletter
    exact .inl ⟨p.2, letterEscapes_read p hp⟩
  · right
    simp only [letterEscapes, List.map_cons, List.map_nil, List.mem_cons, List.not_mem_nil, not_or]
      at hletter
    by_cases hcontrol : c.toNat < 0x20
    · exact .inl ⟨hcontrol, by simp [escapeChar, hletter, hcontrol]⟩
    · exact .inr ⟨hletter.1, hletter.2.1, hcontrol, by simp [escapeChar, hletter, hcontrol]⟩

theorem stringRest?_escapeChar (c : Char) (cs : List Char) : stringRest? (escapeChar c ++ cs) =
    (stringRest? cs).map fun r => (escapeChar c ++ r.1, r.2) := by
  rcases escapeChar_cases c with ⟨e, hu, hc, he, -⟩ | ⟨hcontrol, hc⟩ | ⟨hquote, hslash, hcontrol, hc⟩
  · rw [hc, List.cons_append, List.cons_append, List.nil_append, stringRest?, if_pos he]
    · cases stringRest? cs <;> rfl
    · simp [hu]
  · have hdigits : ∀ n < 16, (hexValue? (hexDigit n)).isSome = true := fun n hn => by
      rw [hexValue?_hexDigit n hn, Option.isSome_some]
    have hzero : (hexValue? '0').isSome = true := by decide
    have hhigh := hdigits (c.toNat / 16) (by omega)
    have hlow := hdigits (c.toNat % 16) (by omega)
    simp only [hc, List.cons_append, List.nil_append, stringRest?]
    rw [if_pos (by simp [hzero, hhigh, hlow])]
    cases stringRest? cs <;> rfl
  · rw [hc, List.singleton_append, stringRest?, if_neg (by simp [hslash, hcontrol])]
    · cases stringRest? cs <;> rfl
    · exact hquote
    · simp [hslash]
    · simp [hslash]

theorem unescape?_escapeChar (c : Char) (cs : List Char) :
    unescape? (escapeChar c ++ cs) = (unescape? cs).map (c :: ·) := by
  rcases escapeChar_cases c with ⟨e, hu, hc, -, he⟩ | ⟨hcontrol, hc⟩ | ⟨-, hslash, -, hc⟩
  · rw [hc, List.cons_append, List.cons_append, List.nil_append, unescape?, he]
    · cases unescape? cs <;> rfl
    · simp [hu]
  · simp only [hc, List.cons_append, List.nil_append, unescape?]
    rw [hexUnit?_hexDigit hcontrol]
    simp only [Option.bind_eq_bind, Option.bind_some]
    -- Numbers of control characters are far below those of surrogates.
    rw [if_neg (by omega), if_neg (by omega), Char.ofNat_toNat]
    cases unescape? cs <;> rfl
  · rw [hc, List.singleton_append, unescape?]
    · cases unescape? cs <;> rfl
    · simp [hslash]
    · simp [hslash]

/-- A string as it is written, which ends at its closing quote. -/
def Lexeme (l : List Char) : Prop := ∀ rest, stringRest? (l ++ '"' :: rest) = some (l, rest)

theorem lexeme_escape (cs : List Char) : Lexeme (escape cs) := by
  induction cs with
  | nil => exact fun rest => by simp [escape, stringRest?]
  | cons c cs ih =>
    intro rest
    rw [escape, List.flatMap_cons, List.append_assoc, stringRest?_escapeChar, ← escape, ih rest]
    rfl

theorem unescape?_escape (cs : List Char) : unescape? (escape cs) = some cs := by
  induction cs with
  | nil => simp [escape, unescape?]
  | cons c cs ih =>
    rw [escape, List.flatMap_cons, unescape?_escapeChar, ← escape, ih]
    rfl

theorem escape_injective : Function.Injective escape := fun cs ds h =>
  Option.some.inj (by rw [← unescape?_escape cs, h, unescape?_escape])

/-! ## Values -/

/-- Values whose text tells where they end. -/
inductive Legible : Json → Prop
  | null : Legible .null
  | bool (b : Bool) : Legible (.bool b)
  | string {l : List Char} (h : Lexeme l) : Legible (.string l)
  | array {vs : List Json} (h : ∀ v ∈ vs, Legible v) : Legible (.array vs)
  | object {ms : List (List Char × Json)} (hnames : ∀ m ∈ ms, Lexeme m.1)
    (hvalues : ∀ m ∈ ms, Legible m.2) : Legible (.object ms)

/-- The value is read from its characters, whatever follows them. -/
def Reads (v : Json) : Prop := ∀ (fuel : Nat) (rest : List Char), 2 * v.chars.length ≤ fuel →
  value? fuel (v.chars ++ rest) = some (v, rest)

theorem skipBlank_cons {c : Char} (h : isBlank c = false) (cs : List Char) :
    skipBlank (c :: cs) = c :: cs := by
  rw [skipBlank, List.dropWhile_cons_of_neg (by simp [h])]

/-- No value starts with a blank, or as an array ends. -/
theorem Legible.exists_head {v : Json} (h : v.Legible) :
    ∃ c cs, v.chars = c :: cs ∧ isBlank c = false ∧ c ≠ ']' := by
  cases h with
  | null => exact ⟨_, _, rfl, by decide, by decide⟩
  | bool b => cases b <;> exact ⟨_, _, rfl, by decide, by decide⟩
  | string h => exact ⟨_, _, rfl, by decide, by decide⟩
  | @array vs h => cases vs <;> exact ⟨_, _, rfl, by decide, by decide⟩
  | @object ms hnames hvalues => cases ms <;> exact ⟨_, _, rfl, by decide, by decide⟩

theorem Legible.skipBlank_chars {v : Json} (h : v.Legible) (rest : List Char) :
    skipBlank (v.chars ++ rest) = v.chars ++ rest := by
  obtain ⟨c, cs, hv, hblank, -⟩ := h.exists_head
  rw [hv]
  exact skipBlank_cons hblank _

/-- A value has a character, so that there is fuel for its first step. -/
theorem Legible.reads_of_succ {v : Json} (h : v.Legible) (hsucc : ∀ fuel rest,
    2 * v.chars.length ≤ fuel + 1 → value? (fuel + 1) (v.chars ++ rest) = some (v, rest)) : v.Reads := by
  intro fuel rest hfuel
  obtain ⟨c, cs, hv, -, -⟩ := h.exists_head
  have hlength : v.chars.length = cs.length + 1 := by rw [hv, List.length_cons]
  obtain ⟨fuel, rfl⟩ : ∃ n, fuel = n + 1 := ⟨fuel - 1, by omega⟩
  exact hsucc fuel rest hfuel

theorem items?_chars {v : Json} {vs : List Json} (h : ∀ w ∈ v :: vs, w.Legible ∧ w.Reads) (fuel : Nat)
    (rest : List Char) (hfuel : 2 * (v.chars.length + (charsItems vs).length) ≤ fuel) :
    items? fuel (v.chars ++ (charsItems vs ++ rest)) = some (v :: vs, rest) := by
  induction vs generalizing v fuel with
  | nil =>
    obtain ⟨⟨-, hread⟩, -⟩ := List.forall_mem_cons.mp h
    simp only [charsItems, List.length_singleton] at hfuel ⊢
    obtain ⟨fuel, rfl⟩ : ∃ n, fuel = n + 1 := ⟨fuel - 1, by omega⟩
    rw [items?, hread fuel _ (by omega)]
    rfl
  | cons w vs ih =>
    obtain ⟨⟨-, hread⟩, htail⟩ := List.forall_mem_cons.mp h
    have hskip := (htail w List.mem_cons_self).1.skipBlank_chars (charsItems vs ++ rest)
    simp only [charsItems, List.length_cons, List.length_append, List.cons_append, List.append_assoc]
      at hfuel ⊢
    obtain ⟨fuel, rfl⟩ : ∃ n, fuel = n + 1 := ⟨fuel - 1, by omega⟩
    rw [items?, hread fuel _ (by omega)]
    simp only [Option.bind_eq_bind, Option.bind_some]
    rw [skipBlank_cons (by decide)]
    simp only [hskip]
    rw [ih htail fuel (by omega)]
    rfl

theorem charsMember_eq (m : List Char × Json) :
    charsMember m = '"' :: (m.1 ++ '"' :: ':' :: m.2.chars) := by
  obtain ⟨k, v⟩ := m
  simp [charsMember, quoted]

theorem skipBlank_charsMember (m : List Char × Json) (rest : List Char) :
    skipBlank (charsMember m ++ rest) = charsMember m ++ rest := by
  rw [charsMember_eq]
  exact skipBlank_cons (by decide) _

/-- One member: its name up to the closing quote, the colon, and its value. -/
theorem members?_charsMember {k : List Char} {v : Json} (hname : Lexeme k) (hlegible : v.Legible)
    (hread : v.Reads) {fuel : Nat} (hfuel : 2 * v.chars.length ≤ fuel) (rest : List Char) :
    members? (fuel + 1) (charsMember (k, v) ++ rest) =
      match skipBlank rest with
      | '}' :: rest => some ([(k, v)], rest)
      | ',' :: rest => do
        let (ms, rest) ← members? fuel (skipBlank rest)
        some ((k, v) :: ms, rest)
      | _ => none := by
  simp only [charsMember_eq, List.cons_append, List.append_assoc, members?, hname _, Option.bind_eq_bind,
    Option.bind_some]
  rw [skipBlank_cons (by decide)]
  simp only [hlegible.skipBlank_chars]
  rw [hread fuel _ hfuel]
  rfl

theorem members?_chars {m : List Char × Json} {ms : List (List Char × Json)}
    (h : ∀ k ∈ m :: ms, Lexeme k.1 ∧ k.2.Legible ∧ k.2.Reads) (fuel : Nat) (rest : List Char)
    (hfuel : 2 * ((charsMember m).length + (charsMembers ms).length) ≤ fuel) :
    members? fuel (charsMember m ++ (charsMembers ms ++ rest)) = some (m :: ms, rest) := by
  have hvalue : ∀ m : List Char × Json, m.2.chars.length < (charsMember m).length := by
    intro m
    simp only [charsMember_eq, List.length_append, List.length_cons]
    omega
  induction ms generalizing m fuel with
  | nil =>
    obtain ⟨⟨hname, hlegible, hread⟩, -⟩ := List.forall_mem_cons.mp h
    have hlength := hvalue m
    obtain ⟨fuel, rfl⟩ : ∃ n, fuel = n + 1 := ⟨fuel - 1, by omega⟩
    rw [members?_charsMember hname hlegible hread (by omega)]
    rfl
  | cons k ms ih =>
    obtain ⟨⟨hname, hlegible, hread⟩, htail⟩ := List.forall_mem_cons.mp h
    have hlength := hvalue m
    simp only [charsMembers, List.length_cons, List.length_append, List.cons_append, List.append_assoc]
      at hfuel ⊢
    obtain ⟨fuel, rfl⟩ : ∃ n, fuel = n + 1 := ⟨fuel - 1, by omega⟩
    rw [members?_charsMember hname hlegible hread (by omega), skipBlank_cons (by decide)]
    simp only [skipBlank_charsMember]
    rw [ih htail fuel (by omega)]
    rfl

theorem Legible.reads {v : Json} (h : v.Legible) : v.Reads := by
  induction h with
  | null => exact Legible.null.reads_of_succ fun fuel rest _ => rfl
  | bool b =>
    refine (Legible.bool b).reads_of_succ fun fuel rest _ => ?_
    cases b <;> rfl
  | @string l h =>
    refine (Legible.string h).reads_of_succ fun fuel rest _ => ?_
    simp only [chars, quoted, List.cons_append, List.append_assoc, List.nil_append, value?, h rest]
    rfl
  | @array vs h ih =>
    refine (Legible.array h).reads_of_succ fun fuel rest hfuel => ?_
    cases vs with
    | nil => rfl
    | cons v vs =>
      obtain ⟨c, cs, hv, -, hend⟩ := (h v List.mem_cons_self).exists_head
      have hskip := (h v List.mem_cons_self).skipBlank_chars (charsItems vs ++ rest)
      have hitems := items?_chars (fun w hw => ⟨h w hw, ih w hw⟩) fuel rest
        (by simp only [chars, List.length_cons, List.length_append] at hfuel; omega)
      simp only [chars, List.cons_append, List.append_assoc, value?, hskip]
      split
      · -- The first item is not taken for the end of the array.
        rename_i hclose
        rw [hv, List.cons_append] at hclose
        exact absurd (List.cons.inj hclose).1 hend
      · rw [hitems]
        rfl
  | @object ms hnames hvalues ih =>
    refine (Legible.object hnames hvalues).reads_of_succ fun fuel rest hfuel => ?_
    cases ms with
    | nil => rfl
    | cons m ms =>
      have hmembers := members?_chars (fun k hk => ⟨hnames k hk, hvalues k hk, ih k hk⟩) fuel rest
        (by simp only [chars, List.length_cons, List.length_append] at hfuel; omega)
      simp only [chars, List.cons_append, List.append_assoc, value?, skipBlank_charsMember]
      split
      · rename_i hclose
        rw [charsMember_eq, List.cons_append] at hclose
        cases (List.cons.inj hclose).1
      · rw [hmembers]
        rfl

/-! ## Texts -/

theorem parse?_compact {v : Json} (h : v.Legible) : parse? v.compact = some v := by
  have hread := h.reads (2 * v.chars.length + 2) [] (by omega)
  have hskip := h.skipBlank_chars []
  rw [List.append_nil] at hread hskip
  simp only [parse?, compact, String.toList_ofList, hskip, hread]
  rfl

theorem eq_of_compact_eq {v w : Json} (hv : v.Legible) (hw : w.Legible) (h : v.compact = w.compact) :
    v = w := Option.some.inj (by rw [← parse?_compact hv, h, parse?_compact hw])

@[simp]
theorem legible_ofText (s : String) : (ofText s).Legible := .string (lexeme_escape _)

theorem legible_record {fs : List (String × Json)} (h : ∀ f ∈ fs, f.2.Legible) :
    (record fs).Legible := by
  refine .object (fun m hm => ?_) fun m hm => ?_
  all_goals obtain ⟨f, hf, rfl⟩ := List.mem_map.mp hm
  · exact lexeme_escape _
  · exact h f hf

@[simp]
theorem ofText_inj {s t : String} : ofText s = ofText t ↔ s = t :=
  ⟨fun h => String.toList_inj.mp (escape_injective (string.inj h)), congrArg ofText⟩

/-- Equal records have the same fields in the same order. -/
@[simp]
theorem record_inj {fs gs : List (String × Json)} : record fs = record gs ↔ fs = gs := by
  refine ⟨fun h => List.map_injective_iff.mpr ?_ (object.inj h), congrArg record⟩
  rintro ⟨n, v⟩ ⟨m, w⟩ he
  obtain ⟨hname, rfl⟩ := Prod.mk.inj he
  rw [String.toList_inj.mp (escape_injective hname)]

end Json

end Refutation
