/-
The scanner agrees with the cursor. A scanner is `Synced` with a text if it stands where a walk from the beginning would
bring it. One step keeps this (`synced_step`), and so does a move to the next live byte (`synced_nextLive`) and a skip
over words and whitespace of live code (`synced_skipTo`). Hence a walk yields exactly the live bytes, in order, and ends
in the last cursor's region (`synced_walk`, `mem_walk`, `walk_end`).
-/
import Respell.Proofs.Cursor

namespace Respell

/-! ## A step is a byte fed, and what it leaves -/

/-- the scanner that has consumed what is left of the step at `i` -/
def Cursor.scanner (src : Bytes) (i : Nat) (c : Cursor) : Scanner := ⟨c.rest.stop src i, c.region, c.suspended⟩

theorem skipEscape_eq (src : Bytes) (s : Scanner) :
    s.skipEscape src = (Cursor.escape ⟨s.region, s.suspended, .nothing⟩ src[s.pos + 1]?).scanner src s.pos := by
  unfold Scanner.skipEscape Cursor.escape
  by_cases h : s.pos + 1 < src.size
  · simp [h, Cursor.scanner, Rest.stop]
  · simp [h, Cursor.scanner, Rest.stop, endOfChar]

theorem quotedStep_eq (src : Bytes) (s : Scanner) (quote b : UInt8) :
    s.quotedStep src quote b =
      (Cursor.inQuotes ⟨s.region, s.suspended, .nothing⟩ quote b src[s.pos + 1]?).scanner src s.pos := by
  unfold Scanner.quotedStep Cursor.inQuotes
  split
  · exact skipEscape_eq src s
  · split <;> rfl

theorem templateStep_eq (src : Bytes) (s : Scanner) (b : UInt8) :
    s.templateStep src b =
      (Cursor.inTemplate ⟨s.region, s.suspended, .nothing⟩ b src[s.pos + 1]?).scanner src s.pos := by
  unfold Scanner.templateStep Cursor.inTemplate
  split
  · exact skipEscape_eq src s
  · split
    · rfl
    · split <;> rfl

theorem holeStep_eq (src : Bytes) (s : Scanner) (depth : Nat) (b : UInt8) :
    s.holeStep depth b =
      ((Cursor.inHole ⟨s.region, s.suspended, .nothing⟩ depth b).1.scanner src s.pos,
        (Cursor.inHole ⟨s.region, s.suspended, .nothing⟩ depth b).2) := by
  unfold Scanner.holeStep Cursor.inHole
  split
  · rfl
  · split
    · split <;> rfl
    · rfl

/-- code opens the same regions for the scanner and for a cursor -/
theorem opening?_cases (src : Bytes) (i : Nat) (b : UInt8) :
    (Scanner.opening? src i b = none ∧ Cursor.opening? b src[i + 1]? = none) ∨
      ∃ r n rest, Scanner.opening? src i b = some (r, n) ∧ Cursor.opening? b src[i + 1]? = some (r, rest) ∧
        rest.stop src i = i + n := by
  unfold Scanner.opening? Cursor.opening?
  repeat' split
  · exact .inr ⟨_, _, _, rfl, rfl, rfl⟩
  · exact .inr ⟨_, _, _, rfl, rfl, rfl⟩
  · exact .inr ⟨_, _, _, rfl, rfl, rfl⟩
  · exact .inr ⟨_, _, _, rfl, rfl, rfl⟩
  · exact .inr ⟨_, _, _, rfl, rfl, rfl⟩
  · exact .inl ⟨rfl, rfl⟩

/-- a step of the scanner is one byte fed to the cursor, and then what that leaves to be consumed -/
theorem step_eq_feed (src : Bytes) (s : Scanner) (b : UInt8) :
    s.step src b =
      ((Cursor.feed ⟨s.region, s.suspended, .nothing⟩ b src[s.pos + 1]?).1.scanner src s.pos,
        (Cursor.feed ⟨s.region, s.suspended, .nothing⟩ b src[s.pos + 1]?).2) := by
  obtain ⟨pos, region, suspended⟩ := s
  cases region with
  | lineComment | blockComment =>
    simp only [Scanner.step, Cursor.feed]
    split <;> rfl
  | singleQuoted | doubleQuoted => simp only [Scanner.step, Cursor.feed, quotedStep_eq]
  | template => simp only [Scanner.step, Cursor.feed, templateStep_eq]
  | normal =>
    rcases opening?_cases src pos b with ⟨h1, h2⟩ | ⟨r, n, rest, h1, h2, h3⟩
    · simp only [Scanner.step, Cursor.feed, h1, h2]
      rfl
    · simp only [Scanner.step, Cursor.feed, h1, h2, Cursor.scanner, Cursor.enter, h3]
      rfl
  | hole depth =>
    rcases opening?_cases src pos b with ⟨h1, h2⟩ | ⟨r, n, rest, h1, h2, h3⟩
    · simp only [Scanner.step, Cursor.feed, h1, h2, holeStep_eq src]
    · simp only [Scanner.step, Cursor.feed, h1, h2, Cursor.scanner, Cursor.enter, h3]
      rfl

theorem step_pos_of_live {src : Bytes} {s : Scanner} {b : UInt8} (h : (s.step src b).2 = true) :
    (s.step src b).1.pos = s.pos + 1 := by
  rw [step_eq_feed] at h ⊢
  simp only [Cursor.scanner, (Cursor.feed_live h).2.2.1, Rest.stop]

/-! ## Scanners that agree with the cursor -/

/-- the scanner stands where a walk from the beginning of the text would bring it -/
structure Synced (src : Bytes) (s : Scanner) : Prop where
  le : s.pos ≤ src.size
  cursor : cursorAt src s.pos = ⟨s.region, s.suspended, .nothing⟩

theorem synced_start (src : Bytes) : Synced src .start := ⟨Nat.zero_le _, rfl⟩

/-- **One step.** A scanner that agrees with the cursor does so after a step; the step's first byte is live if the step
says so, and no other byte of it is. -/
theorem synced_step {src : Bytes} {s : Scanner} (h : Synced src s) (hlt : s.pos < src.size) :
    Synced src (s.step src src[s.pos]).1 ∧
      liveAt src s.pos = (if (s.step src src[s.pos]).2 then some (s.step src src[s.pos]).1.region else none) ∧
      ∀ k, s.pos < k → k < (s.step src src[s.pos]).1.pos → liveAt src k = none := by
  have hb : src[s.pos]? = some src[s.pos] := by simp [hlt]
  have hlive := liveAt_of_feed hb
  have hnext := cursorAt_succ hb
  obtain ⟨h1, h2, h3⟩ := cursorAt_stop hlt
  rw [h.cursor] at hlive hnext
  rw [hnext] at h1 h2 h3
  rw [step_eq_feed src s src[s.pos]]
  exact ⟨⟨h1, h2⟩, hlive, h3⟩

/-- **To the next live byte.** It is the first live byte at or after the scanner's position. -/
theorem synced_nextLive {src : Bytes} {s t : Scanner} {i : Nat} (h : Synced src s)
    (hn : s.nextLive src = (some i, t)) :
    Synced src t ∧ t.pos = i + 1 ∧ liveAt src i = some t.region ∧ ∀ k, s.pos ≤ k → k < i → liveAt src k = none := by
  fun_induction Scanner.nextLive src s with
  | case1 s hs r hr =>
    obtain ⟨rfl, rfl⟩ : s.pos = i ∧ r.1 = t := by simpa using hn
    obtain ⟨h1, h2, -⟩ := synced_step h hs
    exact ⟨h1, step_pos_of_live hr, h2.trans (if_pos hr), fun k hk1 hk2 => by omega⟩
  | case2 s hs r hr ih =>
    obtain ⟨h1, h2, h3⟩ := synced_step h hs
    obtain ⟨i1, i2, i3, i4⟩ := ih h1 hn
    refine ⟨i1, i2, i3, ?_⟩
    intro k hk1 hk2
    by_cases hk : k < r.1.pos
    · rcases Nat.eq_or_lt_of_le hk1 with rfl | hk1
      · exact h2.trans (if_neg hr)
      · exact h3 k hk1 hk
    · exact i4 k (by omega) hk2
  | case3 => simp at hn

theorem synced_nextLive_none {src : Bytes} {s t : Scanner} (h : Synced src s) (hn : s.nextLive src = (none, t)) :
    Synced src t ∧ t.pos = src.size ∧ ∀ k, s.pos ≤ k → liveAt src k = none := by
  fun_induction Scanner.nextLive src s with
  | case1 => simp at hn
  | case2 s hs r hr ih =>
    obtain ⟨h1, h2, h3⟩ := synced_step h hs
    obtain ⟨i1, i2, i3⟩ := ih h1 hn
    refine ⟨i1, i2, ?_⟩
    intro k hk1
    by_cases hk : k < r.1.pos
    · rcases Nat.eq_or_lt_of_le hk1 with rfl | hk1
      · exact h2.trans (if_neg hr)
      · exact h3 k hk1 hk
    · exact i3 k (by omega)
  | case3 s hs =>
    obtain rfl : s = t := by simpa using hn
    have hle := h.le
    exact ⟨h, by omega, fun k hk => liveAt_of_size_le (by omega)⟩

/-! ## Skips and walks -/

/-- **A skip over words and whitespace.** It brings a scanner in live code where single steps would. -/
theorem synced_skipTo {src : Bytes} {s : Scanner} {j : Nat} (h : Synced src s) (hc : s.region.isCode = true)
    (hj : s.pos ≤ j) (hle : j ≤ src.size) (hp : ∀ k, s.pos ≤ k → k < j → src[k]?.any isPassive = true) :
    Synced src (s.skipTo src j) ∧ (s.skipTo src j).pos = j := by
  have hpos : (s.skipTo src j).pos = j := by simp only [Scanner.skipTo]; omega
  refine ⟨⟨by rw [hpos]; exact hle, ?_⟩, hpos⟩
  have hcur := h.cursor
  rw [hpos, (cursorAt_passive (by rw [hcur]) (by rw [hcur]; exact hc) hj hp).1, hcur]
  rfl

/-- the live bytes from offset `i` on, each with the region after it -/
def liveFrom (src : Bytes) (i : Nat) : List (Nat × Region) :=
  (List.range' i (src.size - i)).filterMap fun k => (liveAt src k).map (k, ·)

theorem liveFrom_eq_nil {src : Bytes} {i : Nat} (h : ∀ k, i ≤ k → liveAt src k = none) : liveFrom src i = [] := by
  rw [liveFrom, List.filterMap_eq_nil_iff]
  intro k hk
  rw [h k (List.mem_range'_1.1 hk).1]
  rfl

theorem liveFrom_eq_cons {src : Bytes} {i j : Nat} {r : Region} (hij : i ≤ j) (hj : liveAt src j = some r)
    (h : ∀ k, i ≤ k → k < j → liveAt src k = none) : liveFrom src i = (j, r) :: liveFrom src (j + 1) := by
  have hlt : j < src.size := by
    by_contra hge
    rw [liveAt_of_size_le (by omega)] at hj
    cases hj
  have hsplit : List.range' i (src.size - i) =
      List.range' i (j - i) ++ j :: List.range' (j + 1) (src.size - (j + 1)) := by
    have h1 : src.size - i = (j - i) + (1 + (src.size - (j + 1))) := by omega
    rw [h1, ← List.range'_append_1, Nat.add_sub_cancel' hij, ← List.range'_append_1]
    rfl
  rw [liveFrom, hsplit, List.filterMap_append, List.filterMap_cons, hj, List.filterMap_eq_nil_iff.2]
  · rfl
  · intro k hk
    obtain ⟨h1, h2⟩ := List.mem_range'_1.1 hk
    rw [h k h1 (by omega)]
    rfl

/-- **The whole walk.** It yields the live bytes in order, and ends where the last cursor is. -/
theorem synced_walk {src : Bytes} {s : Scanner} (h : Synced src s) :
    (s.walk src).1 = liveFrom src s.pos ∧ Synced src (s.walk src).2 ∧ (s.walk src).2.pos = src.size := by
  fun_induction Scanner.walk src s with
  | case1 s t hn =>
    obtain ⟨h1, h2, h3⟩ := synced_nextLive_none h hn
    exact ⟨(liveFrom_eq_nil h3).symm, h1, h2⟩
  | case2 s i t hn rest ih =>
    obtain ⟨h1, h2, h3, h4⟩ := synced_nextLive h hn
    obtain ⟨i1, i2, i3⟩ := ih h1
    refine ⟨?_, i2, i3⟩
    rw [liveFrom_eq_cons (Scanner.nextLive_some hn).1 h3 h4, i1, h2]

theorem walk_start (src : Bytes) : (Scanner.walk src .start).1 = liveFrom src 0 := (synced_walk (synced_start src)).1

theorem walk_end (src : Bytes) : cursorAt src src.size =
    ⟨(Scanner.walk src .start).2.region, (Scanner.walk src .start).2.suspended, .nothing⟩ := by
  obtain ⟨-, h1, h2⟩ := synced_walk (synced_start src)
  exact h2 ▸ h1.cursor

/-- a walk yields byte `k` with region `r` just when the byte is live in that region -/
theorem mem_walk {src : Bytes} {k : Nat} {r : Region} :
    (k, r) ∈ (Scanner.walk src .start).1 ↔ liveAt src k = some r := by
  rw [walk_start, liveFrom, List.mem_filterMap]
  constructor
  · rintro ⟨m, -, hm⟩
    obtain ⟨q, hq, heq⟩ := Option.map_eq_some_iff.1 hm
    cases heq
    exact hq
  · intro h
    refine ⟨k, List.mem_range'_1.2 ⟨Nat.zero_le k, ?_⟩, by rw [h]; rfl⟩
    by_contra hge
    rw [liveAt_of_size_le (by omega)] at h
    cases h

/-! ## Live words -/

/-- a walk over the whole text yields byte `k` -/
def Live (src : Bytes) (k : Nat) : Prop := ∃ r, (k, r) ∈ (Scanner.walk src .start).1

theorem live_iff {src : Bytes} {k : Nat} : Live src k ↔ liveAt src k ≠ none := by
  simp only [Live, mem_walk, Option.ne_none_iff_exists']

/-- a word whose first byte is live -/
structure LiveWord (src : Bytes) (i j : Nat) : Prop extends IsWord src i j where
  live : Live src i

end Respell
