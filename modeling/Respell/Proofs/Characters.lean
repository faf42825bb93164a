/-
Characters of a text, as bytes. An ASCII character is one byte and no other character has that byte
(`ascii_mem_encode`); any other character is a byte that begins characters and then continuation bytes
(`encode_cases`). So `endOfChar` finds the end of a character wherever no continuation byte follows it
(`endOfChar_encode`).
-/
import Respell.Proofs.Words

namespace Respell

/-- the UTF-8 bytes of a character -/
abbrev encode (c : Char) : List UInt8 := String.utf8EncodeChar c

theorem leading_byte : ∀ b : UInt8, 0xC0 ≤ (b &&& 0x1f ||| 0xc0) ∧ 0xC0 ≤ (b &&& 0x0f ||| 0xe0) ∧
    0xC0 ≤ (b &&& 0x07 ||| 0xf0) := by
  decide +kernel

theorem continuation_byte : ∀ b : UInt8, isContinuation (b &&& 0x3f ||| 0x80) = true := by decide +kernel

theorem isContinuation_lt : ∀ b, isContinuation b = true → 0x80 ≤ b ∧ b < 0xC0 := by decide +kernel

theorem utf8Size_eq_one_iff (c : Char) : c.utf8Size = 1 ↔ c.toNat < 128 := by
  rw [Char.utf8Size_eq_one_iff, UInt32.le_iff_toNat_le]
  exact Nat.lt_succ_iff.symm

/-- a character is an ASCII byte, or a leading byte and continuation bytes -/
theorem encode_cases (c : Char) :
    (c.toNat < 128 ∧ encode c = [ascii c]) ∨
      (128 ≤ c.toNat ∧ ∃ b bs, encode c = b :: bs ∧ 0xC0 ≤ b ∧ ∀ x ∈ bs, isContinuation x = true) := by
  by_cases hc : c.utf8Size = 1
  · exact .inl ⟨(utf8Size_eq_one_iff c).1 hc, String.utf8EncodeChar_eq_singleton hc⟩
  · have hge : 128 ≤ c.toNat := Nat.le_of_not_lt fun h => hc ((utf8Size_eq_one_iff c).2 h)
    refine .inr ⟨hge, ?_⟩
    rcases c.utf8Size_eq with h | h | h | h
    · exact absurd h hc
    · exact ⟨_, _, String.utf8EncodeChar_eq_cons_cons h, (leading_byte _).1, by simp [continuation_byte]⟩
    · exact ⟨_, _, String.utf8EncodeChar_eq_cons_cons_cons h, (leading_byte _).2.1, by simp [continuation_byte]⟩
    · exact ⟨_, _, String.utf8EncodeChar_eq_cons_cons_cons_cons h, (leading_byte _).2.2, by simp [continuation_byte]⟩

theorem toNat_ascii {c : Char} (h : c.toNat < 128) : (ascii c).toNat = c.toNat := by
  have hval : c.val.toNat = c.toNat := rfl
  simp only [ascii, Char.toUInt8, UInt32.toNat_toUInt8, hval]
  omega

/-- the byte of an ASCII character stands for that character only -/
theorem ascii_mem_encode {c d : Char} (hd : d.toNat < 128) (h : ascii d ∈ encode c) : c = d := by
  have hlt : (ascii d).toNat < 128 := by rw [toNat_ascii hd]; exact hd
  rcases encode_cases c with ⟨hc, heq⟩ | ⟨-, b, bs, heq, hb, hbs⟩
  · rw [heq, List.mem_singleton] at h
    have : c.toNat = d.toNat := by rw [← toNat_ascii hc, ← toNat_ascii hd, h]
    exact Char.toNat_inj.1 this
  · rw [heq] at h
    rcases List.mem_cons.1 h with rfl | h
    · have := UInt8.le_iff_toNat_le.1 hb
      simp at this
      omega
    · have := UInt8.le_iff_toNat_le.1 (isContinuation_lt _ (hbs _ h)).1
      simp at this
      omega

/-- a character begins with no continuation byte, and goes on with nothing else -/
theorem encode_eq_cons (c : Char) :
    ∃ b bs, encode c = b :: bs ∧ isContinuation b = false ∧ ∀ x ∈ bs, isContinuation x = true := by
  rcases encode_cases c with ⟨hc, heq⟩ | ⟨-, b, bs, heq, hb, hbs⟩
  · refine ⟨ascii c, [], heq, ?_, by simp⟩
    by_contra h
    have := UInt8.le_iff_toNat_le.1 (isContinuation_lt _ (by simpa using h)).1
    rw [toNat_ascii hc] at this
    simp at this
    omega
  · refine ⟨b, bs, heq, ?_, hbs⟩
    by_contra h
    have := (isContinuation_lt _ (by simpa using h)).2
    exact absurd hb (UInt8.not_le.2 this)

/-! ## Reading a text from an offset -/

variable {src : Bytes} {p : Nat} {b : UInt8} {xs rest : List UInt8}

theorem getElem?_of_drop (h : src.toList.drop p = b :: rest) : src[p]? = some b := by
  have : (src.toList.drop p)[0]? = some b := by rw [h]; rfl
  simpa using this

theorem drop_of_getElem? (h : src[p]? = some b) : src.toList.drop p = b :: src.toList.drop (p + 1) := by
  obtain ⟨hlt, rfl⟩ := Array.getElem?_eq_some_iff.1 h
  rw [List.drop_eq_getElem_cons (by simpa using hlt), Array.getElem_toList]

theorem drop_succ_of_drop (h : src.toList.drop p = b :: rest) : src.toList.drop (p + 1) = rest := by
  rw [← List.drop_drop, h]
  rfl

theorem extract_of_drop (h : src.toList.drop p = xs ++ rest) : (src.extract p (p + xs.length)).toList = xs := by
  rw [Array.toList_extract, List.extract_eq_take_drop, h, Nat.add_sub_cancel_left, List.take_left]

theorem getElem?_head? (h : src.toList.drop p = rest) : src[p]? = rest.head? := by
  rw [← h, List.head?_drop]
  simp

theorem getElem?_append_of_drop (h : src.toList.drop p = xs ++ rest) {k : Nat} (hk : k < xs.length) :
    src[p + k]? = xs[k]? := by
  have : (src.toList.drop p)[k]? = (xs ++ rest)[k]? := by rw [h]
  rw [List.getElem?_append_left hk, List.getElem?_drop] at this
  rw [← this, Array.getElem?_toList]

theorem skipWhile_of_drop {q : UInt8 → Bool} (h : src.toList.drop p = xs ++ rest) (hxs : ∀ x ∈ xs, q x = true)
    (hr : rest.head?.any q = false) : skipWhile q src p = p + xs.length := by
  refine skipWhile_eq (Nat.le_add_right _ _) (fun k h1 h2 => ?_) (by rw [getElem?_head? (drop_add_of_drop h)]; exact hr)
  obtain ⟨m, rfl⟩ := Nat.exists_eq_add_of_le h1
  have hlt : m < xs.length := by omega
  rw [getElem?_append_of_drop h hlt, List.getElem?_eq_getElem hlt]
  exact hxs _ (List.getElem_mem hlt)

theorem endOfChar_encode {c : Char} (h : src.toList.drop p = encode c ++ rest)
    (hr : rest.head?.any isContinuation = false) : endOfChar src p = p + (encode c).length := by
  obtain ⟨b, bs, heq, -, hbs⟩ := encode_eq_cons c
  rw [heq, List.cons_append] at h
  obtain ⟨hlt, -⟩ := Array.getElem?_eq_some_iff.1 (getElem?_of_drop h)
  rw [endOfChar, if_pos hlt, skipWhile_of_drop (drop_succ_of_drop h) hbs hr, heq, List.length_cons]
  omega

end Respell
