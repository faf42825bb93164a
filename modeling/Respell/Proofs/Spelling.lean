/-
The spelling of a word, as a relation. `Spelled src i j last host`: the word from `i` up to `j` is spelled `host`, and
the spelling replaces the text up to `last`. The four rules are stated one by one, each with the rules before it
excluded, and in terms of what stands after the word (`JoinsIf`, `NamesFunction`, `Called`) rather than of the
functions that look for it. `spelling?_eq_some_iff`: for whole words, `Keyword.spelling?` gives exactly this.
-/
import Respell.Rules.Keyword
import Respell.Proofs.Words

namespace Respell.Keyword

open Vocabulary

/-! ## Tables -/

/-- the table has an entry for the word -/
def Spells (table : Table) (word : Bytes) (host : String) : Prop := ∃ name, (name, host) ∈ table ∧ utf8 name = word

theorem find?_eq_some_iff {table : Table} (h : (table.map fun entry => utf8 entry.1).Nodup) {word : Bytes}
    {host : String} : table.find? word = some host ↔ Spells table word host := by
  induction table with
  | nil => simp [Table.find?, Spells]
  | cons entry rest ih =>
    obtain ⟨hnot, hrest⟩ := List.nodup_cons.1 h
    have ih := ih hrest
    unfold Table.find? Spells at *
    rw [List.find?_cons]
    by_cases hw : utf8 entry.1 = word
    · -- a later entry for the same word would be a double
      have hlater : ∀ name, (name, host) ∈ rest → utf8 name ≠ word := fun name hn he =>
        hnot (List.mem_map.2 ⟨(name, host), hn, he.trans hw.symm⟩)
      simp only [hw, beq_self_eq_true, Option.map_some, Option.some.injEq, List.mem_cons]
      constructor
      · rintro rfl
        exact ⟨entry.1, .inl rfl, hw⟩
      · rintro ⟨name, heq | hn, he⟩
        · rw [← heq]
        · exact absurd he (hlater name hn)
    · simp only [beq_eq_false_iff_ne.2 hw, ih, List.mem_cons]
      constructor
      · rintro ⟨name, hn, he⟩
        exact ⟨name, .inr hn, he⟩
      · rintro ⟨name, rfl | hn, he⟩
        · exact absurd he hw
        · exact ⟨name, hn, he⟩

theorem keywords_nodup : (keywords.map fun entry => utf8 entry.1).Nodup := by decide +kernel

theorem callees_nodup : (callees.map fun entry => utf8 entry.1).Nodup := by decide +kernel

/-! ## What stands after a word -/

def Called (src : Bytes) (j : Nat) : Prop := ∃ n, Gap src j n ∧ src[n]? = some (ascii '(')

/-- a word and then `(` follow offset `j` across whitespace -/
def NamesFunction (src : Bytes) (j : Nat) : Prop :=
  ∃ n m, Gap src j n ∧ IsWord src n m ∧ src[n]?.any opensWord = true ∧ Called src m

/-- the word `agar` follows offset `j` across whitespace and ends at `last` -/
def JoinsIf (src : Bytes) (j last : Nat) : Prop := ∃ n, Gap src j n ∧ IsWord src n last ∧ src.extract n last = ifWord

theorem isCalled_iff {src : Bytes} {j : Nat} : isCalled src j = true ↔ Called src j := by
  rw [isCalled, beq_iff_eq]
  constructor
  · intro h
    exact ⟨_, gap_skipSpace src j, h⟩
  · rintro ⟨n, hg, hn⟩
    rw [hg.skipSpace_eq (by rw [hn]; decide)]
    exact hn

/-- a word byte found across whitespace after a word begins a word -/
theorem isWord_after {src : Bytes} {j : Nat} (hj : src[j]?.any inWord = false)
    (hb : src[skipSpace src j]?.any inWord = true) :
    IsWord src (skipSpace src j) (endOfWord src (skipSpace src j)) := by
  refine isWord_endOfWord hb ?_
  intro k hk
  have hg := gap_skipSpace src j
  rcases Nat.eq_or_lt_of_le hg.le with heq | hlt
  · rw [← heq, hj] at hb
    cases hb
  · exact hg.before_end hlt k hk

theorem namesFunction_iff {src : Bytes} {j : Nat} (hj : src[j]?.any inWord = false) :
    namesFunction src j = true ↔ NamesFunction src j := by
  simp only [namesFunction, Bool.and_eq_true, isCalled_iff]
  constructor
  · rintro ⟨ho, hc⟩
    obtain ⟨b, hb, hob⟩ := (Option.any_eq_true _ _).1 ho
    have hw := isWord_after hj (by rw [hb]; exact inWord_of_opensWord hob)
    exact ⟨_, _, gap_skipSpace src j, hw, ho, hc⟩
  · rintro ⟨n, m, hg, hw, ho, hc⟩
    rw [hg.skipSpace_word hw, hw.endOfWord_eq]
    exact ⟨ho, hc⟩

theorem joinedIf?_eq_some_iff {src : Bytes} {j last : Nat} (hj : src[j]?.any inWord = false) :
    joinedIf? src j = some last ↔ JoinsIf src j last := by
  simp only [joinedIf?, Option.ite_none_right_eq_some, Option.some.injEq]
  constructor
  · rintro ⟨hif, rfl⟩
    -- the found text is not empty, so a word byte stands at its beginning
    have hlt : skipSpace src j < endOfWord src (skipSpace src j) := by
      by_contra hge
      rw [Array.extract_empty_of_stop_le_start (by omega)] at hif
      exact absurd hif (by decide)
    exact ⟨_, gap_skipSpace src j, isWord_after hj (skipWhile_passes (Nat.le_refl _) hlt), hif⟩
  · rintro ⟨n, hg, hw, hif⟩
    rw [hg.skipSpace_word hw, hw.endOfWord_eq]
    exact ⟨hif, rfl⟩

/-! ## The four rules -/

/-- the first rule applies: `warna` with `agar` after it -/
def IsElseIf (src : Bytes) (i j : Nat) : Prop := src.extract i j = elseWord ∧ ∃ last, JoinsIf src j last

/-- the third rule applies: a callee that is called and is no member -/
def IsCallee (src : Bytes) (i j : Nat) : Prop :=
  (∃ host, Spells callees (src.extract i j) host) ∧ afterMemberDot src i = false ∧ Called src j

/-- the word from `i` up to `j` is spelled `host`, by the first rule that applies, in place of the text up to `last` -/
inductive Spelled (src : Bytes) (i j : Nat) : Nat → String → Prop
  | elseIf {last : Nat} (h : src.extract i j = elseWord) (hl : JoinsIf src j last) : Spelled src i j last "else if"
  | asyncFunction (h1 : ¬ IsElseIf src i j) (h2 : src.extract i j = asyncWord) (hf : NamesFunction src j) :
    Spelled src i j j "async function"
  | async (h1 : ¬ IsElseIf src i j) (h2 : src.extract i j = asyncWord) (hf : ¬ NamesFunction src j) :
    Spelled src i j j "async"
  | callee {host : String} (h1 : ¬ IsElseIf src i j) (h2 : src.extract i j ≠ asyncWord) (h3 : IsCallee src i j)
    (h : Spells callees (src.extract i j) host) : Spelled src i j j host
  | keyword {host : String} (h1 : ¬ IsElseIf src i j) (h2 : src.extract i j ≠ asyncWord) (h3 : ¬ IsCallee src i j)
    (h : Spells keywords (src.extract i j) host) : Spelled src i j j host

/-- the first look-up of `spelling?` succeeds just when the first rule applies -/
theorem elseIf_lookup_iff {src : Bytes} {i j last : Nat} (hj : src[j]?.any inWord = false) :
    (if src.extract i j = elseWord then joinedIf? src j else none) = some last ↔
      src.extract i j = elseWord ∧ JoinsIf src j last := by
  rw [Option.ite_none_right_eq_some, joinedIf?_eq_some_iff hj]

theorem elseIf_lookup_none_iff {src : Bytes} {i j : Nat} (hj : src[j]?.any inWord = false) :
    (if src.extract i j = elseWord then joinedIf? src j else none) = none ↔ ¬ IsElseIf src i j := by
  rw [Option.eq_none_iff_forall_ne_some]
  simp only [ne_eq, elseIf_lookup_iff hj, IsElseIf, not_and, not_exists]
  exact ⟨fun h hw last hl => h last hw hl, fun h last hw hl => h hw last hl⟩

/-- the look-up of a callee succeeds just when the third rule applies -/
theorem callee_lookup_iff {src : Bytes} {i j : Nat} {host : String} :
    (if !afterMemberDot src i && isCalled src j then callees.find? (src.extract i j) else none) = some host ↔
      IsCallee src i j ∧ Spells callees (src.extract i j) host := by
  rw [Option.ite_none_right_eq_some, find?_eq_some_iff callees_nodup]
  simp only [Bool.and_eq_true, Bool.not_eq_true', isCalled_iff, IsCallee]
  exact ⟨fun ⟨⟨h1, h2⟩, h3⟩ => ⟨⟨⟨host, h3⟩, h1, h2⟩, h3⟩, fun ⟨⟨_, h1, h2⟩, h3⟩ => ⟨⟨h1, h2⟩, h3⟩⟩

theorem callee_lookup_none_iff {src : Bytes} {i j : Nat} :
    (if !afterMemberDot src i && isCalled src j then callees.find? (src.extract i j) else none) = none ↔
      ¬ IsCallee src i j := by
  rw [Option.eq_none_iff_forall_ne_some]
  simp only [ne_eq, callee_lookup_iff]
  constructor
  · intro h hc
    obtain ⟨host, hh⟩ := hc.1
    exact h host ⟨hc, hh⟩
  · intro h host hc
    exact h hc.1

/-- **The spelling of a word.** Where `j` ends a word, `spelling?` answers by the first rule that applies. -/
theorem spelling?_eq_some_iff {src : Bytes} {i j last : Nat} {host : String} (hj : src[j]?.any inWord = false) :
    spelling? src i j = some (last, host) ↔ Spelled src i j last host := by
  unfold spelling?
  -- the rules are tried in order, and each constructor excludes the rules tried before its own
  constructor
  · intro h
    cases h1 : (if src.extract i j = elseWord then joinedIf? src j else none) with
    | some joined =>
      obtain ⟨rfl, rfl⟩ : joined = last ∧ "else if" = host := by simpa [h1] using h
      obtain ⟨hw, hl⟩ := (elseIf_lookup_iff hj).1 h1
      exact .elseIf hw hl
    | none =>
      simp only [h1] at h
      have h1 := (elseIf_lookup_none_iff hj).1 h1
      by_cases h2 : src.extract i j = asyncWord
      · rw [if_pos h2] at h
        by_cases hf : namesFunction src j = true
        · obtain ⟨rfl, rfl⟩ : j = last ∧ "async function" = host := by simpa [hf] using h
          exact .asyncFunction h1 h2 ((namesFunction_iff hj).1 hf)
        · obtain ⟨rfl, rfl⟩ : j = last ∧ "async" = host := by simpa [hf] using h
          exact .async h1 h2 fun hn => hf ((namesFunction_iff hj).2 hn)
      · rw [if_neg h2] at h
        cases h3 : (if !afterMemberDot src i && isCalled src j then callees.find? (src.extract i j) else none) with
        | some callee =>
          simp only [h3] at h
          obtain ⟨rfl, rfl⟩ : j = last ∧ callee = host := by simpa using h
          obtain ⟨hc, hs⟩ := callee_lookup_iff.1 h3
          exact .callee h1 h2 hc hs
        | none =>
          simp only [h3] at h
          obtain ⟨_, hk, heq⟩ := Option.map_eq_some_iff.1 h
          cases heq
          exact .keyword h1 h2 (callee_lookup_none_iff.1 h3) ((find?_eq_some_iff keywords_nodup).1 hk)
  · intro h
    cases h with
    | elseIf hw hl => simp only [(elseIf_lookup_iff hj).2 ⟨hw, hl⟩]
    | asyncFunction h1 h2 hf =>
      simp only [(elseIf_lookup_none_iff hj).2 h1, if_pos h2, if_pos ((namesFunction_iff hj).2 hf)]
    | async h1 h2 hf =>
      have hf : ¬ namesFunction src j = true := fun hn => hf ((namesFunction_iff hj).1 hn)
      simp only [(elseIf_lookup_none_iff hj).2 h1, if_pos h2, if_neg hf]
    | callee h1 h2 h3 hs =>
      simp only [(elseIf_lookup_none_iff hj).2 h1, if_neg h2, callee_lookup_iff.2 ⟨h3, hs⟩]
    | keyword h1 h2 h3 hs =>
      simp only [(elseIf_lookup_none_iff hj).2 h1, if_neg h2, callee_lookup_none_iff.2 h3,
        (find?_eq_some_iff keywords_nodup).2 hs, Option.map_some]

theorem Spelled.unique {src : Bytes} {i j last last' : Nat} {host host' : String} (hj : src[j]?.any inWord = false)
    (h : Spelled src i j last host) (h' : Spelled src i j last' host') : last = last' ∧ host = host' := by
  have := ((spelling?_eq_some_iff hj).2 h).symm.trans ((spelling?_eq_some_iff hj).2 h')
  simpa using this

end Respell.Keyword
