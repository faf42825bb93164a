/-
Runs, words and gaps of a text, said without the functions that find them. `IsWord src i j`: the bytes from `i` up to
`j` are a run of word bytes that goes on neither before nor after. `Gap src i j`: nothing but whitespace lies between.

`endOfWord` and `skipSpace` find what these describe (`isWord_endOfWord`, `IsWord.endOfWord_eq`, `Gap.skipSpace_eq`),
and two words that share a byte are one (`IsWord.unique`).
-/
import Mathlib.Tactic
import Respell.Text.Bytes

namespace Respell

/-- a statement about all bytes is checked byte by byte -/
instance decidableForallByte (p : UInt8 → Prop) [DecidablePred p] : Decidable (∀ b, p b) :=
  decidable_of_iff (∀ n : Fin 256, p (UInt8.ofFin n)) ⟨fun h b => h b.toFin, fun h _ => h _⟩

/-! ## Ends of runs -/

/-- a run passes only bytes of its class -/
theorem skipWhile_passes {p : UInt8 → Bool} {src : Bytes} {i k : Nat} (h1 : i ≤ k) (h2 : k < skipWhile p src i) :
    src[k]?.any p = true := by
  fun_induction skipWhile p src i with
  | case1 i h hp ih =>
    rcases Nat.eq_or_lt_of_le h1 with rfl | h1
    · simp [h, hp]
    · exact ih h1 h2
  | case2 | case3 => omega

/-- a run stops at no byte of its class -/
theorem skipWhile_stops (p : UInt8 → Bool) (src : Bytes) (i : Nat) : src[skipWhile p src i]?.any p = false := by
  fun_induction skipWhile p src i with
  | case1 i h hp ih => exact ih
  | case2 i h hp => simp [h, hp]
  | case3 i h => simp [h]

/-- where a run stops, from what it passes and what it meets -/
theorem skipWhile_eq {p : UInt8 → Bool} {src : Bytes} {i n : Nat} (h1 : i ≤ n)
    (h2 : ∀ k, i ≤ k → k < n → src[k]?.any p = true) (h3 : src[n]?.any p = false) : skipWhile p src i = n := by
  have hle := le_skipWhile p src i
  rcases Nat.lt_trichotomy (skipWhile p src i) n with h | h | h
  · have := h2 _ hle h
    rw [skipWhile_stops] at this
    cases this
  · exact h
  · have := skipWhile_passes h1 h
    rw [h3] at this
    cases this

theorem lt_size_of_any {p : UInt8 → Bool} {src : Bytes} {k : Nat} (h : src[k]?.any p = true) : k < src.size := by
  by_contra hk
  simp [Array.getElem?_eq_none (Nat.le_of_not_lt hk)] at h

theorem any_eq_false_of_any {p q : UInt8 → Bool} (hpq : ∀ b, p b = true → q b = false) {o : Option UInt8}
    (h : o.any p = true) : o.any q = false := by
  cases o with
  | none => simp at h
  | some b => exact hpq b h

theorem any_of_any {p q : UInt8 → Bool} (hpq : ∀ b, p b = true → q b = true) {o : Option UInt8}
    (h : o.any p = true) : o.any q = true := by
  cases o with
  | none => simp at h
  | some b => exact hpq b h

theorem all_of_all {p q : UInt8 → Bool} (hpq : ∀ b, p b = true → q b = true) {o : Option UInt8}
    (h : o.all p = true) : o.all q = true := by
  cases o with
  | none => rfl
  | some b => exact hpq b h

theorem any_eq_false_of_all {p q : UInt8 → Bool} (hpq : ∀ b, p b = true → q b = false) {o : Option UInt8}
    (h : o.all p = true) : o.any q = false := by
  cases o with
  | none => rfl
  | some b => exact hpq b h

theorem all_of_any_eq_false {p q : UInt8 → Bool} (hpq : ∀ b, p b = false → q b = true) {o : Option UInt8}
    (h : o.any p = false) : o.all q = true := by
  cases o with
  | none => rfl
  | some b => exact hpq b h

theorem isBlank_cases {b : UInt8} (h : isBlank b = true) : b = 0x20 ∨ b = 0x09 := by simpa [isBlank] using h

theorem isLineEnd_cases {b : UInt8} (h : isLineEnd b = true) : b = 0x0A ∨ b = 0x0D := by simpa [isLineEnd] using h

theorem isSpace_cases {b : UInt8} (h : isSpace b = true) : b = 0x20 ∨ b = 0x09 ∨ b = 0x0A ∨ b = 0x0C ∨ b = 0x0D := by
  simpa [isSpace, or_assoc] using h

theorem inWord_of_isBlank : ∀ b, isBlank b = true → inWord b = false := by
  intro b hb
  rcases isBlank_cases hb with rfl | rfl <;> decide

theorem isBlank_of_inWord : ∀ b, inWord b = true → isBlank b = false := by
  intro b hb
  by_contra hblank
  rw [inWord_of_isBlank b (by simpa using hblank)] at hb
  cases hb

theorem inWord_of_isSpace : ∀ b, isSpace b = true → inWord b = false := by
  intro b hb
  rcases isSpace_cases hb with rfl | rfl | rfl | rfl | rfl <;> decide

theorem isSpace_of_inWord : ∀ b, inWord b = true → isSpace b = false := by
  intro b hb
  by_contra hspace
  rw [inWord_of_isSpace b (by simpa using hspace)] at hb
  cases hb

theorem inWord_of_opensWord {b : UInt8} (h : opensWord b = true) : inWord b = true := by simp [inWord, h]

/-! ## Parts of a text -/

theorem drop_add_of_drop {text part rest : List UInt8} {a : Nat} (h : text.drop a = part ++ rest) :
    text.drop (a + part.length) = rest := by
  rw [← List.drop_drop, h, List.drop_left]

theorem getElem?_add_of_drop {text rest : List UInt8} {a : Nat} (h : text.drop a = rest) (k : Nat) :
    text[a + k]? = rest[k]? := by
  rw [← h, List.getElem?_drop]

/-- what holds of each byte of a part holds where the part stands -/
theorem any_of_drop {p : UInt8 → Bool} {text part rest : List UInt8} {a k : Nat} (h : text.drop a = part ++ rest)
    (hp : ∀ b ∈ part, p b = true) (h1 : a ≤ k) (h2 : k < a + part.length) : text[k]?.any p = true := by
  obtain ⟨n, rfl⟩ := Nat.exists_eq_add_of_le h1
  have hn : n < part.length := Nat.lt_of_add_lt_add_left h2
  rw [getElem?_add_of_drop h, List.getElem?_append_left hn, List.getElem?_eq_getElem hn]
  exact hp _ (List.getElem_mem hn)

theorem getElem?_of_extract {src word : Bytes} {i j k : Nat} (h : src.extract i j = word) (hk : k < word.size) :
    src[i + k]? = word[k]? := by
  rw [← h, Array.size_extract] at hk
  rw [← h, Array.getElem?_extract, if_pos hk]

theorem extract_eq {src word : Bytes} {i : Nat} (h : ∀ k < word.size, src[i + k]? = word[k]?) :
    src.extract i (i + word.size) = word := by
  apply Array.ext_getElem?
  intro k
  rw [Array.getElem?_extract]
  split_ifs with hk
  · exact h k (by omega)
  · by_cases hkw : k < word.size
    · have hin := h k hkw
      rw [Array.getElem?_eq_getElem hkw] at hin
      obtain ⟨hlt, -⟩ := Array.getElem?_eq_some_iff.1 hin
      omega
    · rw [Array.getElem?_eq_none (by omega)]

/-! ## Words -/

/-- the word from `i` up to `j`: word bytes, with no word byte before and none after them -/
structure IsWord (src : Bytes) (i j : Nat) : Prop where
  lt : i < j
  inside : ∀ k, i ≤ k → k < j → src[k]?.any inWord = true
  before : ∀ k, k + 1 = i → src[k]?.any inWord = false
  after : src[j]?.any inWord = false

instance (src : Bytes) (i j : Nat) : Decidable (IsWord src i j) :=
  decidable_of_iff
    (i < j ∧ (∀ k < j, i ≤ k → src[k]?.any inWord = true) ∧ (∀ k < i, k + 1 = i → src[k]?.any inWord = false) ∧
      src[j]?.any inWord = false)
    ⟨fun ⟨h1, h2, h3, h4⟩ => ⟨h1, fun k hik hkj => h2 k hkj hik, fun k hk => h3 k (hk ▸ Nat.lt_succ_self k) hk, h4⟩,
      fun h => ⟨h.lt, fun k hkj hik => h.inside k hik hkj, fun k _ hk => h.before k hk, h.after⟩⟩

namespace IsWord

variable {src : Bytes} {i j : Nat}

theorem le_size (h : IsWord src i j) : j ≤ src.size := by
  have hl := h.lt
  have := lt_size_of_any (h.inside (j - 1) (by omega) (by omega))
  omega

theorem endOfWord_eq (h : IsWord src i j) : endOfWord src i = j := skipWhile_eq (Nat.le_of_lt h.lt) h.inside h.after

theorem first (h : IsWord src i j) : src[i]?.any inWord = true := h.inside i (Nat.le_refl i) h.lt

/-- a word begins no later than any other word that shares a byte with it -/
theorem start_le {i' j' k : Nat} (h : IsWord src i j) (h' : IsWord src i' j') (hk : i ≤ k) (hk' : k < j') : i ≤ i' := by
  by_contra hlt
  have hin := h'.inside (i - 1) (by omega) (by omega)
  rw [h.before (i - 1) (by omega)] at hin
  cases hin

/-- two words that share a byte are one -/
theorem unique {i' j' k : Nat} (h : IsWord src i j) (h' : IsWord src i' j') (h1 : i ≤ k) (h2 : k < j) (h3 : i' ≤ k)
    (h4 : k < j') : i = i' ∧ j = j' := by
  have hi : i = i' := Nat.le_antisymm (h.start_le h' h1 h4) (h'.start_le h h3 h2)
  subst hi
  exact ⟨rfl, h.endOfWord_eq.symm.trans h'.endOfWord_eq⟩

theorem stop_unique {j' : Nat} (h : IsWord src i j) (h' : IsWord src i j') : j = j' :=
  (h.unique h' (Nat.le_refl i) h.lt (Nat.le_refl i) h'.lt).2

theorem le_start {a b : Nat} (h : IsWord src i j) (h' : IsWord src a b) (hlt : i < a) : j ≤ a := by
  by_contra hge
  have := (h.unique h' (Nat.le_of_lt hlt) (by omega) (Nat.le_refl a) h'.lt).1
  omega

theorem getElem?_start {word : Bytes} (hw : IsWord src i j) (h : src.extract i j = word) : src[i]? = word[0]? := by
  have hlt := hw.lt
  have hle := hw.le_size
  exact getElem?_of_extract h (k := 0) (by rw [← h, Array.size_extract]; omega)

end IsWord

/-- a word byte with no word byte before it begins a word -/
theorem isWord_endOfWord {src : Bytes} {i : Nat} (h : src[i]?.any inWord = true)
    (hb : ∀ k, k + 1 = i → src[k]?.any inWord = false) : IsWord src i (endOfWord src i) where
  lt := by
    have hle := le_skipWhile inWord src i
    rcases Nat.eq_or_lt_of_le hle with heq | hlt
    · have := skipWhile_stops inWord src i
      rw [← heq, h] at this
      cases this
    · exact hlt
  inside _ h1 h2 := skipWhile_passes h1 h2
  before := hb
  after := skipWhile_stops inWord src i

/-! ## Gaps -/

/-- whitespace from `i` up to `j`, possibly none -/
structure Gap (src : Bytes) (i j : Nat) : Prop where
  le : i ≤ j
  spaces : ∀ k, i ≤ k → k < j → src[k]?.any isSpace = true

namespace Gap

variable {src : Bytes} {i j : Nat}

theorem refl (src : Bytes) (i : Nat) : Gap src i i := ⟨Nat.le_refl i, fun _ h1 h2 => absurd h1 (Nat.not_le_of_lt h2)⟩

theorem cons (hspace : src[i]?.any isSpace = true) (h : Gap src (i + 1) j) : Gap src i j := by
  refine ⟨Nat.le_of_succ_le h.le, ?_⟩
  intro k h1 h2
  rcases Nat.eq_or_lt_of_le h1 with rfl | h1
  · exact hspace
  · exact h.spaces k h1 h2

theorem concat (h : Gap src i j) (hspace : src[j]?.any isSpace = true) : Gap src i (j + 1) := by
  refine ⟨Nat.le_succ_of_le h.le, ?_⟩
  intro k h1 h2
  rcases Nat.lt_succ_iff_lt_or_eq.1 h2 with h2 | rfl
  · exact h.spaces k h1 h2
  · exact hspace

theorem skipSpace_eq (h : Gap src i j) (hj : src[j]?.any isSpace = false) : skipSpace src i = j :=
  skipWhile_eq h.le h.spaces hj

/-- a gap up to a word ends where whitespace does -/
theorem skipSpace_word {k : Nat} (h : Gap src i j) (hw : IsWord src j k) : skipSpace src i = j :=
  h.skipSpace_eq (any_eq_false_of_any isSpace_of_inWord hw.first)

/-- a word that begins after `i` begins no earlier than the gap from `i` ends -/
theorem le_word {k l : Nat} (h : Gap src i j) (hw : IsWord src k l) (hk : i ≤ k) : j ≤ k := by
  by_contra hlt
  have := any_eq_false_of_any isSpace_of_inWord hw.first
  rw [h.spaces k hk (by omega)] at this
  cases this

theorem before_end (h : Gap src i j) (hlt : i < j) (k : Nat) (hk : k + 1 = j) : src[k]?.any inWord = false :=
  any_eq_false_of_any inWord_of_isSpace (h.spaces k (by omega) (by omega))

end Gap

theorem gap_skipSpace (src : Bytes) (i : Nat) : Gap src i (skipSpace src i) where
  le := le_skipWhile isSpace src i
  spaces _ h1 h2 := skipWhile_passes h1 h2

end Respell
