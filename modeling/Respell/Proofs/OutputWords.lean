/-
The words of an output, respelled. What stands around a kept word is the same in the output as in the source, as far as
the rules look: a call that follows it (`called_of_seam`), and a lone dot before it (`afterMemberDot_of_seam`,
`Kept.isMemberDot`).

Main results, `keyword_edits_respelled` and `member_edits_respelled`: on an output neither the keyword rule nor the
member rule records an edit.
-/
import Respell.Proofs.Callees
import Respell.Proofs.HostWords
import Respell.Proofs.MemberEdits

namespace Respell

open Vocabulary

variable {src : Bytes} {p q : Nat} {rest : List Edit}

/-! ## What follows a word -/

theorem isQuote_of_isPassive : ∀ b, isPassive b = true → ImportLine.isQuote b = false := by
  intro b hb
  by_contra hq
  rcases ImportLine.isQuote_iff.1 (by simpa using hq) with rfl | rfl
  · exact absurd hb (by decide)
  · exact absurd hb (by decide)

/-- behind a word or whitespace, a byte with which no text that is put begins is kept -/
theorem Seam.kept_of_passive (h : Seam src p q rest) (hprev : ∃ k, k + 1 = p ∧ src[k]?.any isPassive = true)
    {b : UInt8} (hb : (respelled src)[q]? = some b) (hno : opensHost b = false) : Kept src p q := by
  obtain ⟨k, hk, hpass⟩ := hprev
  have hquote : ∀ k', k' + 1 = p → src[k']?.any ImportLine.isQuote = false := by
    intro k' hk'
    obtain rfl : k' = k := Nat.succ.inj (hk'.trans hk.symm)
    exact any_eq_false_of_any isQuote_of_isPassive hpass
  rcases h.ahead hquote with hkept | ⟨e, -, -, hopen⟩ | ⟨-, hend⟩
  · exact hkept
  · rw [hb, Option.any_some, hno] at hopen
    cases hopen
  · rw [hend] at hb
    simp at hb

/-- a call that follows in the output follows in the source, behind a word or whitespace -/
theorem called_of_seam {n : Nat} (h : Seam src p q rest) (hprev : ∃ k, k + 1 = p ∧ src[k]?.any isPassive = true)
    (hg : Gap (respelled src) q n) (hn : (respelled src)[n]? = some (ascii '(')) : Keyword.Called src p := by
  obtain ⟨d, rfl⟩ := Nat.exists_eq_add_of_le hg.le
  induction d generalizing p q rest with
  | zero =>
    have hkept := h.kept_of_passive hprev hn (by decide)
    exact ⟨p, .refl src p, hkept.get.symm.trans hn⟩
  | succ d ih =>
    obtain ⟨b, hb, hspace⟩ := (Option.any_eq_true _ _).1 (hg.spaces q (Nat.le_refl q) (by omega))
    have hno : ∀ b, isSpace b = true → opensHost b = false := by
      intro b hb
      rcases isSpace_cases hb with rfl | rfl | rfl | rfl | rfl <;> decide
    have hkept := h.kept_of_passive hprev hb (hno b hspace)
    have hget := hkept.get.symm.trans hb
    have hspace' : src[p]?.any isSpace = true := by rwa [hget]
    obtain ⟨rest', hs, hlt, hrest⟩ := hkept
    have hend : q + 1 + d = q + (d + 1) := Nat.succ_add_eq_add_succ q d
    have hg' : Gap (respelled src) (q + 1) (q + 1 + d) := by
      refine ⟨Nat.le_add_right _ _, ?_⟩
      intro k h1 h2
      exact hg.spaces k (Nat.le_of_succ_le h1) (hend ▸ h2)
    obtain ⟨m, hgap, hopen⟩ :=
      ih (hs.keep hlt hrest) ⟨p, rfl, isPassive_of_isSpace hspace'⟩ hg' (hend ▸ hn)
    exact ⟨m, hgap.cons hspace', hopen⟩

/-! ## What precedes a word -/

theorem isMemberDot_iff {i : Nat} : isMemberDot src i = true ↔
    src[i]? = some (ascii '.') ∧ (∀ k, k + 1 = i → src[k]? ≠ some (ascii '.')) ∧ src[i + 1]? ≠ some (ascii '.') := by
  simp only [isMemberDot, Bool.and_eq_true, beq_iff_eq, Bool.not_eq_true', Bool.and_eq_false_iff,
    decide_eq_false_iff_not, bne_iff_ne, and_assoc, beq_eq_false_iff_ne]
  refine and_congr_right fun _ => and_congr_left fun _ => ?_
  cases i with
  | zero => simp
  | succ i => simp

/-- an edit begins with a word, or where a statement may end -/
theorem Shape.at_start {e : Edit} (h : Shape src e) : src[e.start]?.any inWord = true ∨ EndsAt src e.start := by
  cases h with
  | word hw => exact .inl hw.first
  | joined hw => exact .inl hw.first
  | classMark hw => exact .inl hw.first
  | @drop n m h =>
    right
    have hblank := h.blank n (Nat.le_refl n) h.lt
    obtain ⟨b, hb, hbb⟩ := (Option.any_eq_true _ _).1 hblank
    simp only [EndsAt, hb, Option.all_some, hbb, Bool.true_or]
  | closeDropped h => exact .inr h.ends
  | close _ _ he => exact .inr he

theorem Shape.start_ne {e : Edit} (h : Shape src e) {b : UInt8} (hw : inWord b = false)
    (hb : (isBlank b || b == ascii ';' || b == ascii '/' || isLineEnd b) = false) : src[e.start]? ≠ some b := by
  intro heq
  rcases h.at_start with hin | hends
  · rw [heq, Option.any_some, hw] at hin
    cases hin
  · rw [EndsAt, heq, Option.all_some, hb] at hends
    cases hends

/-- before a kept dot, a dot stands in the output just when one stands in the source -/
theorem Kept.dot_before (h : Kept src p q) (hdot : src[p]? = some (ascii '.')) :
    (∀ k, k + 1 = q → (respelled src)[k]? ≠ some (ascii '.')) ↔ ∀ k, k + 1 = p → src[k]? ≠ some (ascii '.') := by
  obtain ⟨rest, hs, -⟩ := h
  rcases hs.behind with ⟨rfl, rfl⟩ | ⟨p', q', rfl, rfl, hkept⟩ | ⟨⟨k, rfl, hk⟩, ⟨k', rfl, hk'⟩ | hends⟩
  · simp
  · simp only [Nat.add_right_cancel_iff, forall_eq, hkept.get]
  · have h1 : src[k]? ≠ some (ascii '.') := fun heq => by rw [heq] at hk; cases hk
    have h2 : (respelled src)[k']? ≠ some (ascii '.') := fun heq => by rw [heq] at hk'; cases hk'
    simp [h1, h2]
  · rw [EndsAt, hdot] at hends
    cases hends

theorem Kept.dot_after (h : Kept src p q) (hdot : src[p]? = some (ascii '.')) :
    (respelled src)[q + 1]? = some (ascii '.') ↔ src[p + 1]? = some (ascii '.') := by
  obtain ⟨rest, hs, hlt, hrest⟩ := h
  have hquote : ∀ k, k + 1 = p + 1 → src[k]?.any ImportLine.isQuote = false := by
    intro k hk
    obtain rfl := Nat.succ.inj hk
    rw [hdot]
    decide
  rcases (hs.keep hlt hrest).ahead hquote with hkept | ⟨e, hput, he, hopen⟩ | ⟨h1, h2⟩
  · rw [hkept.get]
  · have h1 : src[p + 1]? ≠ some (ascii '.') := he ▸ hput.shape.start_ne (by decide) (by decide)
    have h2 : (respelled src)[q + 1]? ≠ some (ascii '.') := fun heq => by rw [heq] at hopen; cases hopen
    exact iff_of_false h2 h1
  · rw [h1, h2]
    simp

/-- a kept dot is lone in the output just when it is lone in the source -/
theorem Kept.isMemberDot (h : Kept src p q) : isMemberDot (respelled src) q = isMemberDot src p := by
  rw [Bool.eq_iff_iff, isMemberDot_iff, isMemberDot_iff, h.get]
  refine and_congr_right fun hdot => ?_
  rw [h.dot_before hdot, ne_eq, ne_eq, h.dot_after hdot]

/-- a lone dot before a word of the source stands before it in the output -/
theorem afterMemberDot_of_seam {k : Nat} (h : Seam src p q rest) (hg : Gap src (k + 1) p)
    (hdot : Respell.isMemberDot src k = true) : afterMemberDot (respelled src) q = true := by
  obtain ⟨d, hd⟩ := Nat.exists_eq_add_of_le hg.le
  induction d generalizing p q rest with
  | zero =>
    rcases h.behind with ⟨rfl, -⟩ | ⟨p', q', rfl, rfl, hkept⟩ | ⟨⟨k', rfl, hk'⟩, -⟩
    · cases hd
    · obtain rfl : p' = k := Nat.succ.inj hd
      rw [Keyword.afterMemberDot_iff]
      exact ⟨q', .refl _ _, hkept.isMemberDot.trans hdot⟩
    · obtain rfl : k' = k := Nat.succ.inj hd
      rw [(isMemberDot_iff.1 hdot).1] at hk'
      cases hk'
  | succ d ih =>
    have hspace : ∀ k', k' + 1 = p → src[k']?.any isSpace = true := by
      intro k' hk'
      exact hg.spaces k' (by omega) (by omega)
    rcases h.behind with ⟨rfl, -⟩ | ⟨p', q', rfl, rfl, hkept⟩ | ⟨⟨k', hk', hclose⟩, -⟩
    · cases hd
    · have hspace' := hspace p' rfl
      have hp' : p' = k + 1 + d := Nat.succ.inj hd
      have hg' : Gap src (k + 1) p' := by
        refine ⟨hp' ▸ Nat.le_add_right _ _, ?_⟩
        intro m h1 h2
        exact hg.spaces m h1 (Nat.lt_succ_of_lt h2)
      have hget := hkept.get
      obtain ⟨rest', hs, -⟩ := hkept
      rw [afterMemberDot, hget, if_pos hspace']
      exact ih hs hg' hp'
    · have hno : ∀ b, isSpace b = true → closesSource b = false := by
        intro b hb
        rcases isSpace_cases hb with rfl | rfl | rfl | rfl | rfl <;> decide
      rw [any_eq_false_of_any hno (hspace k' hk')] at hclose
      cases hclose

/-! ## The two rules -/

theorem seam_behind_word {i j : Nat} (hlt : i < j) (hkept : ∀ k < j - i, Kept src (p + k) (i + k)) :
    ∃ rest, Seam src (p + (j - i)) j rest := by
  obtain ⟨n, hn⟩ : ∃ n, j - i = n + 1 := ⟨j - i - 1, by omega⟩
  obtain ⟨rest, hs, hsize, hrest⟩ := hkept n (by omega)
  refine ⟨rest, ?_⟩
  rw [hn, show j = i + n + 1 by omega]
  exact hs.keep hsize hrest

/-- a lone dot in a text that is put is lone in the output -/
theorem PutAt.isMemberDot {e : Edit} {n : Nat} (h : PutAt src e q) (hn : 0 < n) (hsize : n + 1 < (utf8 e.text).size)
    (hdot : Respell.isMemberDot (utf8 e.text) n = true) : Respell.isMemberDot (respelled src) (q + n) = true := by
  rw [isMemberDot_iff] at hdot ⊢
  rw [Nat.add_assoc, h.get (Nat.lt_of_succ_lt hsize), h.get hsize]
  refine ⟨hdot.1, ?_, hdot.2.2⟩
  intro k hk
  obtain ⟨m, rfl⟩ : ∃ m, n = m + 1 := ⟨n - 1, (Nat.sub_add_cancel hn).symm⟩
  obtain rfl : k = q + m := Nat.succ.inj hk
  rw [h.get (by omega)]
  exact hdot.2.1 m rfl

/-- no word of an output is a callee that is called and is no member -/
theorem not_isCallee_respelled {i j : Nat} (hw : LiveWord (respelled src) i j) :
    ¬ Keyword.IsCallee (respelled src) i j := by
  intro h
  obtain ⟨⟨host, name, hmem, hname⟩, hdot, n, hgap, hopen⟩ := h
  rcases word_origin hw.toIsWord with ⟨p, hword, hkept, htext⟩ | ⟨e, q, m, hput, rfl, hword, htext⟩
  · obtain ⟨hlive, hno⟩ := liveWord_of_kept hw hword hkept
    obtain ⟨rest, hs⟩ := seam_behind_word hw.lt hkept
    obtain ⟨k, hk, hkw⟩ := hword.last
    have hcalled := called_of_seam hs ⟨k, hk, isPassive_of_inWord hkw⟩ hgap hopen
    have hsource : afterMemberDot src p = false := by
      by_contra hc
      obtain ⟨k, hg, hd⟩ := Keyword.afterMemberDot_iff.1 (Bool.eq_true_of_not_eq_false hc)
      obtain ⟨rest, hs, -⟩ := hkept 0 (Nat.sub_pos_of_lt hw.lt)
      rw [Nat.add_zero, Nat.add_zero] at hs
      rw [afterMemberDot_of_seam hs hg hd] at hdot
      cases hdot
    have hedit := (Keyword.callee_mem_edits_iff hlive ⟨name, hmem, hname.trans htext.symm⟩).2 ⟨hcalled, hsource⟩
    exact hno _ (mem_orderedEdits.2 (.inr (.inl hedit))) ⟨Nat.le_refl _, Nat.le_refl _⟩
  · obtain ⟨hm, hd⟩ := (hput.hostWord hword).callee _ hmem (hname.trans htext.symm)
    have hsize := hword.le_size
    have hlt := hw.lt
    have hlone := hput.isMemberDot (n := m - 1) (by omega) (by omega) hd
    have hafter : afterMemberDot (respelled src) (q + m) = true := by
      rw [Keyword.afterMemberDot_iff]
      refine ⟨q + (m - 1), ?_, hlone⟩
      rw [show q + (m - 1) + 1 = q + m by omega]
      exact .refl _ _
    rw [hafter] at hdot
    cases hdot

/-- **Keywords, again.** On an output the keyword rule records nothing. -/
theorem keyword_edits_respelled (src : Bytes) : Keyword.edits (respelled src) = [] := by
  rw [List.eq_nil_iff_forall_not_mem]
  intro e he
  obtain ⟨i, j, last, host, hw, -, -, hsp, rfl⟩ := Keyword.mem_edits_iff.1 he
  obtain ⟨hkeys, hasync⟩ := keywordless hw
  cases hsp with
  | elseIf helse => exact hkeys "else" ⟨"warna", by decide, helse.symm⟩
  | asyncFunction _ h => exact hasync h
  | async _ h => exact hasync h
  | callee _ _ h => exact not_isCallee_respelled hw h
  | keyword _ _ _ h => exact hkeys host h

/-- **Members, again.** On an output the member rule records nothing. -/
theorem member_edits_respelled (src : Bytes) : Member.edits (respelled src) = [] := by
  rw [List.eq_nil_iff_forall_not_mem]
  intro e he
  obtain ⟨i, j, host, hlive, hdot, hw, hs, rfl⟩ := Member.mem_edits_iff.1 he
  obtain ⟨name, hmem, hname⟩ := hs
  rcases word_origin hw with ⟨p, hword, hkept, htext⟩ | ⟨e, q, n, hput, -, hword, htext⟩
  · have hfirst : Kept src p (i + 1) := hkept 0 (Nat.sub_pos_of_lt hw.lt)
    obtain ⟨rest, hseam, -⟩ := id hfirst
    rcases hseam.behind with ⟨-, hzero⟩ | ⟨p', q', rfl, heq, hbefore⟩ | ⟨-, ⟨k, hk, hclose⟩ | hends⟩
    · cases hzero
    · obtain rfl : i = q' := Nat.succ.inj heq
      rw [live_iff, hbefore.live] at hlive
      rw [hbefore.isMemberDot] at hdot
      have hedit := Member.mem_edits_iff.2
        ⟨p', _, host, live_iff.2 hlive, hdot, hword, ⟨name, hmem, hname.trans htext.symm⟩, rfl⟩
      exact hfirst.not_covered (mem_orderedEdits.2 (.inr (.inr (.inr hedit)))) ⟨Nat.le_refl _, hword.lt⟩
    · obtain rfl := Nat.succ.inj hk
      rw [(isMemberDot_iff.1 hdot).1] at hclose
      cases hclose
    · have := hword.first
      rw [hends.not_inWord] at this
      cases this
  · exact (hput.hostWord hword).member _ hmem (hname.trans htext.symm)

end Respell
