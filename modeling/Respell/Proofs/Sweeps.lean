/-
Sweeps in general. Every edit of a sweep comes from a stop (`mem_sweep`), and stops go forward, each behind what was
read at the one before; so a relation that holds between the edits of one stop, and between those of an earlier and a
later one, holds between all of them in their order (`sweep_pairwise`). If a rule reads ahead over words and
whitespace only, its stops are live bytes (`mem_sweep_live`), and all those that it does not read past
(`mem_sweep_of_live`).
-/
import Mathlib.Tactic
import Respell.Proofs.Agreement
import Respell.Rules.Sweep

namespace Respell

variable {src : Bytes} {rule : Region → Nat → UInt8 → Finding}

theorem mem_sweep {s : Scanner} {e : Edit} (he : e ∈ sweep src rule s) :
    ∃ r i b, s.pos ≤ i ∧ src[i]? = some b ∧ e ∈ (rule r i b).edits := by
  fun_induction sweep src rule s with
  | case1 => cases he
  | case2 s i t hn found ih =>
    obtain ⟨h1, h2, h3⟩ := Scanner.nextLive_some hn
    rcases List.mem_append.1 he with he | he
    · exact ⟨t.region, i, src[i], h1, by simp [h2], by simpa [found, h2] using he⟩
    · obtain ⟨r, j, b, hj, hb⟩ := ih he
      have := Scanner.le_skipTo src t found.readTo
      exact ⟨r, j, b, by omega, hb⟩

theorem sweep_pairwise {R : Edit → Edit → Prop}
    (own : ∀ r i b, src[i]? = some b → (rule r i b).edits.Pairwise R)
    (cross : ∀ r i b r' i' b', src[i]? = some b → src[i']? = some b' → i < i' →
      min (rule r i b).readTo src.size ≤ i' → ∀ e ∈ (rule r i b).edits, ∀ e' ∈ (rule r' i' b').edits, R e e')
    (s : Scanner) : (sweep src rule s).Pairwise R := by
  fun_induction sweep src rule s with
  | case1 => exact .nil
  | case2 s i t hn found ih =>
    obtain ⟨h1, h2, h3⟩ := Scanner.nextLive_some hn
    have hb : src[i]? = some src[i] := by simp [h2]
    have hfound : found = rule t.region i src[i] := by simp [found, hb]
    refine List.pairwise_append.2 ⟨hfound ▸ own t.region i src[i] hb, ih, ?_⟩
    intro e he e' he'
    obtain ⟨r, j, b, hj, hbj, hej⟩ := mem_sweep he'
    simp only [Scanner.skipTo, hfound] at hj
    exact cross t.region i src[i] r j b hb hbj (by omega) (by omega) e (hfound ▸ he) e' hej

theorem mem_sweep_first {s t : Scanner} {i : Nat} {b : UInt8} (hn : s.nextLive src = (some i, t))
    (hb : src[i]? = some b) {e : Edit} (he : e ∈ (rule t.region i b).edits) : e ∈ sweep src rule s := by
  unfold sweep
  split
  · next hn' => simp [hn'] at hn
  · next i' t' hn' =>
    obtain ⟨rfl, rfl⟩ : i' = i ∧ t' = t := by simpa [hn'] using hn
    simp only [hb, Option.getD_some]
    exact List.mem_append_left _ he

/-- a skip over words and whitespace, or over nothing -/
theorem synced_skip {s : Scanner} {q : Nat} (h : Synced src s) (hc : s.region.isCode = true)
    (hp : ∀ k, s.pos ≤ k → k < q → src[k]?.any isPassive = true) : Synced src (s.skipTo src q) := by
  have hle := h.le
  have hskip : s.skipTo src q = s.skipTo src (max s.pos (min q src.size)) := by
    simp only [Scanner.skipTo, Scanner.mk.injEq, and_true]
    omega
  rw [hskip]
  refine (synced_skipTo h hc (Nat.le_max_left _ _) (by omega) ?_).1
  intro k h1 h2
  exact hp k h1 (by omega)

/-- **Stops are live.** The edits of a rule that reads ahead over words and whitespace only come from live bytes, and
the rule is told the region of each. -/
theorem mem_sweep_live
    (hread : ∀ r i b, src[i]? = some b → ∀ k, i < k → k < (rule r i b).readTo → src[k]?.any isPassive = true)
    {s : Scanner} (hs : Synced src s) {e : Edit} (he : e ∈ sweep src rule s) :
    ∃ r i b, liveAt src i = some r ∧ src[i]? = some b ∧ e ∈ (rule r i b).edits := by
  fun_induction sweep src rule s with
  | case1 => cases he
  | case2 s i t hn found ih =>
    obtain ⟨ht, hpos, hlive, -⟩ := synced_nextLive hs hn
    have hlt := (Scanner.nextLive_some hn).2.1
    have hb : src[i]? = some src[i] := by simp [hlt]
    have hfound : found = rule t.region i src[i] := by simp [found, hb]
    rcases List.mem_append.1 he with he | he
    · exact ⟨t.region, i, src[i], hlive, hb, hfound ▸ he⟩
    · refine ih (synced_skip ht (liveAt_some hlive).2.2 ?_) he
      intro k h1 h2
      exact hread t.region i src[i] hb k (by omega) (hfound ▸ h2)

/-- **Live bytes are stops.** A rule that reads ahead over words and whitespace only, and never past a certain live
byte, records what it makes of that byte. -/
theorem mem_sweep_of_live
    (hread : ∀ r i b, src[i]? = some b → ∀ k, i < k → k < (rule r i b).readTo → src[k]?.any isPassive = true)
    {r : Region} {i : Nat} {b : UInt8} (hlive : liveAt src i = some r) (hb : src[i]? = some b)
    (hpass : ∀ r' i' b', src[i']? = some b' → i' < i → (rule r' i' b').readTo ≤ i)
    {s : Scanner} (hs : Synced src s) (hle : s.pos ≤ i) {e : Edit} (he : e ∈ (rule r i b).edits) :
    e ∈ sweep src rule s := by
  fun_induction sweep src rule s with
  | case1 s t hn =>
    obtain ⟨-, -, hnone⟩ := synced_nextLive_none hs hn
    rw [hnone i hle] at hlive
    cases hlive
  | case2 s i' t hn found ih =>
    obtain ⟨ht, hpos, hlive', hnone⟩ := synced_nextLive hs hn
    have hlt := (Scanner.nextLive_some hn).2.1
    have hb' : src[i']? = some src[i'] := by simp [hlt]
    have hfound : found = rule t.region i' src[i'] := by simp [found, hb']
    rw [List.mem_append]
    -- the sweep stops at the offset: it skips nothing live, and no rule before it reads beyond
    rcases Nat.lt_trichotomy i i' with hlt' | rfl | hgt
    · rw [hnone i hle hlt'] at hlive
      cases hlive
    · left
      obtain rfl : r = t.region := Option.some.inj (hlive.symm.trans hlive')
      obtain rfl : b = src[i] := Option.some.inj (hb.symm.trans hb')
      rw [hfound]
      exact he
    · right
      have hskip := hpass t.region i' src[i'] hb' hgt
      rw [← hfound] at hskip
      refine ih (synced_skip ht (liveAt_some hlive').2.2 ?_) ?_
      · intro k h1 h2
        exact hread t.region i' src[i'] hb' k (by omega) (hfound ▸ h2)
      · simp only [Scanner.skipTo]
        omega

end Respell
