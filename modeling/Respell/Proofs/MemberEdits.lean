/-
The edits of the member rule, exactly. The rule reads ahead over words only, so it stops at every live dot.

Main result, `mem_edits_iff`: it records one edit for each word of the table of members that stands directly behind a
live dot with no dot beside it.
-/
import Respell.Proofs.EditShapes

namespace Respell.Member

open Vocabulary

theorem opensWord_of_member : ∀ entry ∈ members, (utf8 entry.1)[0]?.any opensWord = true := by decide +kernel

theorem inWord_of_rule {src : Bytes} {r : Region} {i : Nat} {b : UInt8} {k : Nat} (h1 : i < k)
    (h2 : k < (rule src r i b).readTo) : src[k]?.any inWord = true := by
  unfold rule at h2
  split at h2
  · exact skipWhile_passes (Nat.le_of_lt h1) h2
  · split at h2
    · dsimp only at h2
      split at h2
      · exact skipWhile_passes h1 h2
      · exact skipWhile_passes h1 h2
    · exact absurd h1 (Nat.not_lt_of_lt h2)

/-- **The member rule, exactly.** -/
theorem mem_edits_iff {src : Bytes} {e : Edit} :
    e ∈ edits src ↔ ∃ i j host, Live src i ∧ isMemberDot src i = true ∧ IsWord src (i + 1) j ∧
      Keyword.Spells members (src.extract (i + 1) j) host ∧ e = ⟨.member, i + 1, j, host⟩ := by
  have hread : ∀ r i b, src[i]? = some b → ∀ k, i < k → k < (rule src r i b).readTo → src[k]?.any isPassive = true :=
    fun _ _ _ _ _ h1 h2 => isPassive_of_inWord (inWord_of_rule h1 h2)
  constructor
  · intro he
    obtain ⟨r, i, b, hlive, hb, he⟩ := mem_sweep_live hread (synced_start src) he
    obtain ⟨host, hdot, ho, hf, rfl, -⟩ := mem_member_rule he
    refine ⟨i, _, host, live_iff.2 (by simp [hlive]), hdot, (isWord_after_dot hdot ho).1, ?_, rfl⟩
    exact (Keyword.find?_eq_some_iff members_nodup).1 hf
  · intro h
    obtain ⟨i, j, host, hlive, hdot, hw, hs, rfl⟩ := h
    obtain ⟨r, hr⟩ := Option.ne_none_iff_exists'.1 (live_iff.1 hlive)
    have hb : src[i]? = some (ascii '.') := by
      simp only [isMemberDot, Bool.and_eq_true, beq_iff_eq] at hdot
      exact hdot.1.1
    refine mem_sweep_of_live hread hr hb ?_ (synced_start src) (Nat.zero_le i) ?_
    · intro r' i' b' _ hlt
      by_contra hgt
      have hin := inWord_of_rule hlt (Nat.lt_of_not_le hgt)
      rw [hb] at hin
      cases hin
    · obtain ⟨name, hmem, hname⟩ := id hs
      have hopen : src[i + 1]?.any opensWord = true := by
        rw [hw.getElem?_start hname.symm]
        exact opensWord_of_member _ hmem
      have hfind := (Keyword.find?_eq_some_iff members_nodup).2 hs
      have hdotWord : inWord (ascii '.') = false := by decide
      simp only [rule, hdotWord, hdot, hopen, hw.endOfWord_eq, hfind, Bool.false_eq_true, if_false, Bool.and_self,
        if_true, List.mem_singleton]

end Respell.Member
