/-
JSON texts read back. The compact text of a value is read back by the reader, whatever stands behind it that may
follow a value (`Closes`); so are the items of an array and the members of an object, with their closing mark. Numbers
are the natural ones here (`Plain`).

The reader counts its steps. A text takes at most two steps for each of its characters, and each lemma says how many it
needs.

Main results: `string?_quote` for strings, `number?_toString` for numbers, `Plain.reads` for values and
`members?_memberChars` for the members of an object.
-/
import Mathlib.Tactic
import Respell.Format.Json

namespace Respell.Json

open Reading

theorem exists_succ {n fuel : Nat} (h : n < fuel) : ∃ less, fuel = less + 1 :=
  Nat.exists_eq_succ_of_ne_zero (Nat.ne_of_gt (Nat.zero_lt_of_lt h))

/-! ## Strings -/

theorem hexValue?_hexDigit : ∀ n < 16, hexValue? (hexDigit n) = some n := by decide

/-- a control character is read back from its hexadecimal escape -/
theorem unicode?_control {c : Char} (hc : c.toNat < 32) (loose : Bool) (rest : List Char) :
    unicode? loose ('0' :: '0' :: hexDigit (c.toNat / 16) :: hexDigit (c.toNat % 16) :: rest) = some (c, rest) := by
  have hzero : hexValue? '0' = some 0 := rfl
  have hhigh := hexValue?_hexDigit (c.toNat / 16) (by omega)
  have hlow := hexValue?_hexDigit (c.toNat % 16) (by omega)
  have hsum : c.toNat / 16 * 16 + c.toNat % 16 = c.toNat := Nat.div_add_mod' c.toNat 16
  have hnot : isHigh c.toNat = false ∧ isLow c.toNat = false := by
    simp only [isHigh, isLow, Bool.and_eq_false_iff, decide_eq_false_iff_not]
    omega
  simp [unicode?, hexNumber?, ofDigits, hzero, hhigh, hlow, hsum, hnot]

/-- a character is escaped, and read back from its escape, or it stands for itself -/
theorem escape_cases (c : Char) :
    (∃ more, escape c = '\\' :: more ∧ ∀ loose rest, escaped? loose (more ++ rest) = some (c, rest)) ∨
      (escape c = [c] ∧ c ≠ '"' ∧ c ≠ '\\' ∧ ¬ c.toNat < 32) := by
  unfold escape
  split_ifs with h1 h2 h3 h4 h5 h6 h7 h8
  · subst h1
    exact .inl ⟨_, rfl, fun _ _ => rfl⟩
  · subst h2
    exact .inl ⟨_, rfl, fun _ _ => rfl⟩
  · subst h3
    exact .inl ⟨_, rfl, fun _ _ => rfl⟩
  · subst h4
    exact .inl ⟨_, rfl, fun _ _ => rfl⟩
  · subst h5
    exact .inl ⟨_, rfl, fun _ _ => rfl⟩
  · subst h6
    exact .inl ⟨_, rfl, fun _ _ => rfl⟩
  · subst h7
    exact .inl ⟨_, rfl, fun _ _ => rfl⟩
  · exact .inl ⟨_, rfl, fun loose rest => unicode?_control h8 loose rest⟩
  · exact .inr ⟨rfl, h1, h2, h8⟩

/-- characters are read back from their escapes, in a step for each and one for the quote -/
theorem stringChars?_escape (loose : Bool) (cs rest : List Char) {fuel : Nat} (hfuel : cs.length < fuel) :
    stringChars? loose fuel (cs.flatMap escape ++ '"' :: rest) = some (cs, rest) := by
  induction cs generalizing fuel with
  | nil =>
    obtain ⟨fuel, rfl⟩ := exists_succ hfuel
    rfl
  | cons c cs ih =>
    -- an escape takes one step, however many characters it has
    obtain ⟨fuel, rfl⟩ := exists_succ hfuel
    have ih := ih (Nat.lt_of_succ_lt_succ hfuel)
    rw [List.flatMap_cons, List.append_assoc]
    rcases escape_cases c with ⟨more, hescape, hread⟩ | ⟨hescape, h1, h2, h3⟩
    · rw [hescape, List.cons_append, stringChars?, hread]
      simp [ih]
    · rw [hescape, List.cons_append, List.nil_append]
      simp [stringChars?, h3, ih]

theorem length_le_flatMap_escape (cs : List Char) : cs.length ≤ (cs.flatMap escape).length := by
  induction cs with
  | nil => exact Nat.le_refl 0
  | cons c cs ih =>
    have hpos : 1 ≤ (escape c).length := by
      rcases escape_cases c with ⟨more, hescape, -⟩ | ⟨hescape, -⟩
      · simp [hescape]
      · simp [hescape]
    rw [List.flatMap_cons, List.length_append, List.length_cons]
    omega

/-- **A string is read back** from its text. -/
theorem string?_quote (loose : Bool) (s : String) (rest : List Char) :
    string? loose (s.toList.flatMap escape ++ '"' :: rest) = some (s, rest) := by
  have hle := length_le_flatMap_escape s.toList
  rw [string?, stringChars?_escape]
  · simp
  · rw [List.length_append]
    omega

/-! ## Numbers -/

/-- what may follow a value in a compact text: nothing, a comma or a closing mark -/
def Closes (rest : List Char) : Prop := ∀ c ∈ rest.head?, c = ',' ∨ c = ']' ∨ c = '}'

theorem Closes.not_digit {rest : List Char} (h : Closes rest) : ∀ c ∈ rest.head?, c.isDigit = false := by
  intro c hc
  rcases h c hc with rfl | rfl | rfl <;> decide

/-- digits are read up to what follows them -/
theorem digits?_append {ds rest : List Char} (hne : ds ≠ []) (hds : ∀ c ∈ ds, c.isDigit = true) (h : Closes rest) :
    digits? (ds ++ rest) = some (ds, rest) := by
  have htake : rest.takeWhile Char.isDigit = [] ∧ rest.dropWhile Char.isDigit = rest := by
    cases rest with
    | nil => exact ⟨rfl, rfl⟩
    | cons c cs =>
      have hc := h.not_digit c rfl
      simp [hc]
  rw [digits?, List.takeWhile_append_of_pos hds, List.dropWhile_append_of_pos hds, htake.1, htake.2, List.append_nil]
  cases ds with
  | nil => exact absurd rfl hne
  | cons d ds => rfl

theorem head?_toDigits {n : Nat} (hn : n ≠ 0) : (Nat.toDigits 10 n).head? ≠ some '0' := by
  induction n using Nat.strong_induction_on with
  | _ n ih =>
    rw [Nat.toDigits_eq_if (by decide)]
    split_ifs with hlt
    · have hdigit : ∀ k < 10, k ≠ 0 → [k.digitChar].head? ≠ some '0' := by decide
      exact hdigit n hlt hn
    · rw [List.head?_append_of_ne_nil _ Nat.toDigits_ne_nil]
      exact ih (n / 10) (by omega) (by omega)

/-- the digits before the point are all digits of a natural number -/
theorem whole?_toDigits (n : Nat) {rest : List Char} (h : Closes rest) :
    whole? digits? (Nat.toDigits 10 n ++ rest) = some (Nat.toDigits 10 n, rest) := by
  have hdigits : ∀ c ∈ Nat.toDigits 10 n, c.isDigit = true :=
    fun c hc => Nat.isDigit_of_mem_toDigits (by decide) (by decide) hc
  by_cases hn : n = 0
  · subst hn
    rfl
  · have hhead := head?_toDigits hn
    have hread := digits?_append Nat.toDigits_ne_nil hdigits h
    cases hd : Nat.toDigits 10 n with
    | nil => exact absurd hd Nat.toDigits_ne_nil
    | cons d ds =>
      rw [hd] at hhead hread
      have hne : d ≠ '0' := by simpa using hhead
      rw [← hread, List.cons_append]
      simp [whole?, hne]

theorem Closes.fraction? {rest : List Char} (h : Closes rest) : fraction? rest = some ([], rest) := by
  cases rest with
  | nil => rfl
  | cons c cs => rcases h c rfl with rfl | rfl | rfl <;> rfl

theorem Closes.exponent? {rest : List Char} (h : Closes rest) : exponent? rest = some ([], rest) := by
  cases rest with
  | nil => rfl
  | cons c cs => rcases h c rfl with rfl | rfl | rfl <;> rfl

/-- a digit opens no other value -/
theorem isDigit_special {c : Char} (h : c.isDigit = true) : isSpace c = false ∧ c ≠ '"' ∧ c ≠ '[' ∧ c ≠ ']' ∧ c ≠ '{' ∧
    c ≠ 'n' ∧ c ≠ 't' ∧ c ≠ 'f' ∧ c ≠ '-' := by
  have hne : ∀ d : Char, d.isDigit = false → c ≠ d := by
    intro d hd heq
    rw [heq, hd] at h
    cases h
  refine ⟨?_, hne _ rfl, hne _ rfl, hne _ rfl, hne _ rfl, hne _ rfl, hne _ rfl, hne _ rfl, hne _ rfl⟩
  simp only [isSpace, Bool.or_eq_false_iff, beq_eq_false_iff_ne]
  exact ⟨⟨⟨hne _ rfl, hne _ rfl⟩, hne _ rfl⟩, hne _ rfl⟩

theorem hexValue?_of_isDigit {c : Char} (h : c.isDigit = true) : hexValue? c = some (c.toNat - '0'.toNat) := by
  simp only [Char.isDigit, ge_iff_le, Bool.and_eq_true, decide_eq_true_eq] at h
  exact if_pos h

theorem ofDigits_toDigits (n : Nat) : ofDigits 10 (Nat.toDigits 10 n) = n := by
  calc ofDigits 10 (Nat.toDigits 10 n)
      = Nat.ofDigitChars 10 (Nat.toDigits 10 n) 0 := by
        refine List.foldl_ext _ _ 0 fun m c hc => ?_
        rw [hexValue?_of_isDigit (Nat.isDigit_of_mem_toDigits (by decide) (by decide) hc), Option.getD_some,
          Nat.mul_comm]
    _ = n := Nat.ofDigitChars_toDigits (by decide) (by decide)

theorem exists_digits (n : Nat) : ∃ d ds, (toString n).toList = d :: ds ∧ d.isDigit = true := by
  rw [Nat.toString_eq_repr, Nat.toList_repr]
  cases hd : Nat.toDigits 10 n with
  | nil => exact absurd hd Nat.toDigits_ne_nil
  | cons d ds =>
    have hmem : d ∈ Nat.toDigits 10 n := hd ▸ List.mem_cons_self
    exact ⟨d, ds, rfl, Nat.isDigit_of_mem_toDigits (by decide) (by decide) hmem⟩

/-- **A natural number is read back** from its text. -/
theorem number?_toString (n : Nat) {rest : List Char} (h : Closes rest) :
    number? ((toString n).toList ++ rest) = some (toString n, rest) := by
  have hwhole := whole?_toDigits n h
  obtain ⟨d, ds, hd, hdigit⟩ := exists_digits n
  have hsign : d ≠ '-' := (isDigit_special hdigit).2.2.2.2.2.2.2.2
  have htext : String.ofList (d :: ds) = toString n := by rw [← hd, String.ofList_toList]
  rw [← Nat.toList_repr, ← Nat.toString_eq_repr, hd, List.cons_append] at hwhole
  rw [hd, List.cons_append]
  simp [number?, hsign, hwhole, h.fraction?, h.exponent?, htext]

/-! ## Values -/

/-- values whose numbers are natural -/
inductive Plain : Json → Prop
  | null : Plain .null
  | bool (b : Bool) : Plain (.bool b)
  | number (n : Nat) : Plain (.number (toString n))
  | string (s : String) : Plain (.string s)
  | array {items : List Json} (h : ∀ v ∈ items, Plain v) : Plain (.array items)
  | object {members : List (String × Json)} (h : ∀ m ∈ members, Plain m.2) : Plain (.object members)

/-- a value is read back from its text, in two steps for each character -/
def Reads (v : Json) : Prop :=
  ∀ loose fuel rest, 2 * (chars v).length ≤ fuel → Closes rest → value? loose fuel (chars v ++ rest) = some (v, rest)

/-- the text of a value is not empty, so there is a step to take -/
theorem reads_of_succ {v : Json} (hne : chars v ≠ [])
    (h : ∀ loose fuel rest, 2 * (chars v).length ≤ fuel + 1 → Closes rest →
      value? loose (fuel + 1) (chars v ++ rest) = some (v, rest)) : Reads v := by
  intro loose fuel rest hfuel hrest
  have hpos := List.length_pos_of_ne_nil hne
  obtain ⟨fuel, rfl⟩ := exists_succ (by omega : 0 < fuel)
  exact h loose fuel rest hfuel hrest

theorem skipSpace_cons {c : Char} (h : isSpace c = false) (cs : List Char) : skipSpace (c :: cs) = c :: cs := by
  simp [skipSpace, h]

theorem closes_cons {c : Char} (h : c = ',' ∨ c = ']' ∨ c = '}') (cs : List Char) : Closes (c :: cs) := by
  intro d hd
  obtain rfl : c = d := by simpa using hd
  exact h

theorem quote_append (s : String) (rest : List Char) :
    quote s ++ rest = '"' :: (s.toList.flatMap escape ++ '"' :: rest) := by
  simp [quote]

/-- the text of a value begins with neither whitespace nor a closing bracket -/
theorem Plain.opens {v : Json} (h : Plain v) : ∃ c cs, chars v = c :: cs ∧ isSpace c = false ∧ c ≠ ']' := by
  cases h with
  | null => exact ⟨'n', _, rfl, by decide⟩
  | bool b => cases b <;> exact ⟨_, _, rfl, by decide⟩
  | number n =>
    obtain ⟨d, ds, hd, hdigit⟩ := exists_digits n
    obtain ⟨hspace, -, -, hclose, -⟩ := isDigit_special hdigit
    exact ⟨d, ds, hd, hspace, hclose⟩
  | string s => exact ⟨'"', _, rfl, by decide⟩
  | array => exact ⟨'[', _, rfl, by decide⟩
  | object => exact ⟨'{', _, rfl, by decide⟩

theorem Plain.opens_items {v : Json} (h : Plain v) (items : List Json) :
    ∃ c cs, itemChars (v :: items) = c :: cs ∧ isSpace c = false ∧ c ≠ ']' := by
  obtain ⟨c, cs, hc, hspace, hclose⟩ := h.opens
  cases items with
  | nil => exact ⟨c, cs, hc, hspace, hclose⟩
  | cons w items => exact ⟨c, _, by rw [itemChars, hc, List.cons_append], hspace, hclose⟩

theorem memberChars_opens (m : String × Json) (members : List (String × Json)) :
    ∃ cs, memberChars (m :: members) = '"' :: cs := by
  obtain ⟨k, v⟩ := m
  cases members with
  | nil => exact ⟨_, rfl⟩
  | cons n members => exact ⟨_, rfl⟩

/-- **Items are read back** from their text, up to the closing bracket. -/
theorem items?_itemChars (loose : Bool) {v : Json} {items : List Json} (h : ∀ w ∈ v :: items, Reads w) {fuel : Nat}
    (hfuel : 2 * (itemChars (v :: items)).length < fuel) (rest : List Char) :
    items? loose fuel (itemChars (v :: items) ++ ']' :: rest) = some (v :: items, rest) := by
  induction items generalizing v fuel with
  | nil =>
    obtain ⟨fuel, rfl⟩ := exists_succ hfuel
    have hv := h v List.mem_cons_self loose fuel (']' :: rest) (Nat.le_of_lt_succ hfuel) (closes_cons (by simp) rest)
    have hend : skipSpace (']' :: rest) = ']' :: rest := skipSpace_cons (by decide) rest
    simp only [itemChars, items?, hv, Option.bind_eq_bind, Option.bind_some, hend, Option.pure_def]
  | cons w items ih =>
    obtain ⟨fuel, rfl⟩ := exists_succ hfuel
    simp only [itemChars, List.length_append, List.length_cons] at hfuel
    -- the step for the list itself is paid by the comma
    have hv := h v List.mem_cons_self loose fuel (',' :: (itemChars (w :: items) ++ ']' :: rest)) (by omega)
      (closes_cons (by simp) _)
    have hcomma := skipSpace_cons (by decide : isSpace ',' = false) (itemChars (w :: items) ++ ']' :: rest)
    have hrest : items? loose fuel (itemChars (w :: items) ++ ']' :: rest) = some (w :: items, rest) :=
      ih (fun u hu => h u (List.mem_cons_of_mem v hu)) (by omega)
    simp only [itemChars, List.append_assoc, List.cons_append, items?, hv, Option.bind_eq_bind, Option.bind_some,
      hcomma, hrest, Option.pure_def]

/-- **Members are read back** from their text, up to the closing brace. -/
theorem members?_memberChars (loose : Bool) (looseAt : String → Bool) {m : String × Json}
    {members : List (String × Json)} (h : ∀ n ∈ m :: members, Reads n.2) {fuel : Nat}
    (hfuel : 2 * (memberChars (m :: members)).length < fuel) (rest : List Char) :
    members? loose looseAt fuel (memberChars (m :: members) ++ '}' :: rest) = some (m :: members, rest) := by
  induction members generalizing m fuel with
  | nil =>
    obtain ⟨k, v⟩ := m
    obtain ⟨fuel, rfl⟩ := exists_succ hfuel
    simp only [memberChars, List.length_append, List.length_cons] at hfuel
    have hv := h (k, v) List.mem_cons_self (looseAt k) fuel ('}' :: rest) (by dsimp only; omega)
      (closes_cons (by simp) rest)
    have hquote := skipSpace_cons (by decide : isSpace '"' = false)
    have hcolon := skipSpace_cons (by decide : isSpace ':' = false)
    have hend := skipSpace_cons (by decide : isSpace '}' = false)
    simp only [memberChars, List.append_assoc, quote_append, List.cons_append, members?, hquote, string?_quote,
      Option.bind_eq_bind, Option.bind_some, hcolon, hv, hend, Option.pure_def]
  | cons n members ih =>
    obtain ⟨k, v⟩ := m
    obtain ⟨fuel, rfl⟩ := exists_succ hfuel
    simp only [memberChars, List.length_append, List.length_cons] at hfuel
    have hv := h (k, v) List.mem_cons_self (looseAt k) fuel (',' :: (memberChars (n :: members) ++ '}' :: rest))
      (by dsimp only; omega) (closes_cons (by simp) _)
    have hquote := skipSpace_cons (by decide : isSpace '"' = false)
    have hcolon := skipSpace_cons (by decide : isSpace ':' = false)
    have hcomma := skipSpace_cons (by decide : isSpace ',' = false)
    have hrest : members? loose looseAt fuel (memberChars (n :: members) ++ '}' :: rest) = some (n :: members, rest) :=
      ih (fun u hu => h u (List.mem_cons_of_mem _ hu)) (by omega)
    simp only [memberChars, List.append_assoc, quote_append, List.cons_append, members?, hquote, string?_quote,
      Option.bind_eq_bind, Option.bind_some, hcolon, hv, hcomma, hrest, Option.pure_def]

/-- **A value is read back** from its text. -/
theorem Plain.reads {v : Json} (h : Plain v) : Reads v := by
  induction h with
  | null => exact reads_of_succ (List.cons_ne_nil _ _) fun _ _ _ _ _ => rfl
  | bool b => cases b <;> exact reads_of_succ (List.cons_ne_nil _ _) fun _ _ _ _ _ => rfl
  | number n =>
    obtain ⟨d, ds, hd, hdigit⟩ := exists_digits n
    obtain ⟨hspace, h1, h2, -, h3, h4, h5, h6, -⟩ := isDigit_special hdigit
    have hchars : chars (.number (toString n)) = d :: ds := hd
    refine reads_of_succ (hchars ▸ List.cons_ne_nil d ds) fun loose fuel rest _ hrest => ?_
    have hnumber := number?_toString n hrest
    rw [hd, List.cons_append] at hnumber
    rw [hchars, List.cons_append, value?, skipSpace_cons hspace]
    -- the reader goes by the first character, and a digit is none of those that it asks for
    split
    · next heq => exact absurd (List.cons.inj heq).1 h1
    · next heq => exact absurd (List.cons.inj heq).1 h2
    · next heq => exact absurd (List.cons.inj heq).1 h3
    · next heq => exact absurd (List.cons.inj heq).1 h4
    · next heq => exact absurd (List.cons.inj heq).1 h5
    · next heq => exact absurd (List.cons.inj heq).1 h6
    · rw [hnumber, Option.map_some]
  | string s =>
    refine reads_of_succ (List.cons_ne_nil _ _) fun loose fuel rest _ _ => ?_
    have hquote := skipSpace_cons (by decide : isSpace '"' = false)
    simp only [chars, quote_append, value?, hquote, string?_quote, Option.map_some]
  | @array items hitems ih =>
    refine reads_of_succ (List.cons_ne_nil _ _) fun loose fuel rest hfuel _ => ?_
    cases items with
    | nil => rfl
    | cons v items =>
      simp only [chars, List.length_append, List.length_cons, List.length_nil] at hfuel
      have hread := items?_itemChars loose ih (by omega : 2 * (itemChars (v :: items)).length < fuel) rest
      obtain ⟨c, cs, hc, hspace, hclose⟩ := (hitems v List.mem_cons_self).opens_items items
      have hbracket := skipSpace_cons (by decide : isSpace '[' = false)
      simp only [chars, List.cons_append, List.append_assoc, List.nil_append, value?, hbracket, hread]
      rw [hc, List.cons_append, skipSpace_cons hspace]
      split
      · next heq => exact absurd (List.cons.inj heq).1 hclose
      · rfl
  | @object members _ ih =>
    refine reads_of_succ (List.cons_ne_nil _ _) fun loose fuel rest hfuel _ => ?_
    cases members with
    | nil => rfl
    | cons m members =>
      simp only [chars, List.length_append, List.length_cons, List.length_nil] at hfuel
      have hread := members?_memberChars loose (fun _ => loose) ih
        (by omega : 2 * (memberChars (m :: members)).length < fuel) rest
      obtain ⟨cs, hc⟩ := memberChars_opens m members
      have hbrace := skipSpace_cons (by decide : isSpace '{' = false)
      simp only [chars, List.cons_append, List.append_assoc, List.nil_append, value?, hbrace, hread]
      rw [hc, List.cons_append, skipSpace_cons (by decide)]
      split
      · next heq => exact absurd (List.cons.inj heq).1 (by decide)
      · rfl

/-! ## Records -/

theorem noneTwice_iff {members : List (String × Json)} : noneTwice members = true ↔ (members.map Prod.fst).Nodup := by
  induction members with
  | nil => simp [noneTwice]
  | cons m members ih =>
    obtain ⟨k, v⟩ := m
    rw [List.map_cons, List.nodup_cons, ← ih, noneTwice, Bool.and_eq_true, Bool.not_eq_true', ← Bool.not_eq_true,
      List.any_eq_true]
    simp only [beq_iff_eq, List.mem_map]

/-- **A record is read back** from the text of an object with fields of it, none twice. -/
theorem record?_render {fields : List String} {m : String × Json} {members : List (String × Json)}
    (hplain : ∀ n ∈ m :: members, Plain n.2) (hfields : ∀ n ∈ m :: members, n.1 ∈ fields)
    (hnodup : ((m :: members).map Prod.fst).Nodup) :
    record? fields (render (.object (m :: members))) = some (m :: members) := by
  have hread := members?_memberChars false (fun k => !fields.contains k) (fun n hn => (hplain n hn).reads)
    (by rw [fuelFor, List.length_append]; omega :
      2 * (memberChars (m :: members)).length < fuelFor (memberChars (m :: members) ++ ['}'])) []
  have hown : (m :: members).filter (fun n => fields.contains n.1) = m :: members :=
    List.filter_eq_self.2 fun n hn => List.contains_iff_mem.2 (hfields n hn)
  obtain ⟨cs, hc⟩ := memberChars_opens m members
  have hstart : skipSpace (memberChars (m :: members) ++ ['}']) = '"' :: (cs ++ ['}']) := by
    rw [hc, List.cons_append, skipSpace_cons (by decide)]
  have hobject : objectFields? fields (memberChars (m :: members) ++ ['}']) = some (m :: members, []) := by
    rw [objectFields?, hstart]
    split
    · next heq => exact absurd (List.cons.inj heq).1 (by decide)
    · simp only [hread, Option.bind_eq_bind, Option.bind_some, hown, noneTwice_iff.2 hnodup, guard, if_true,
        Option.pure_def]
  have htext : skipSpace (render (.object (m :: members))).toList = '{' :: (memberChars (m :: members) ++ ['}']) := by
    rw [render, String.toList_ofList, chars, List.cons_append]
    exact skipSpace_cons (by decide) _
  have hend : (skipSpace []).isEmpty = true := rfl
  simp only [record?, htext, hobject, Option.bind_eq_bind, Option.bind_some, hend, guard, if_true, Option.pure_def]

end Respell.Json
