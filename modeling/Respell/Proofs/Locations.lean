/-
Locations and their order. The line of an offset begins at zero, or just after the last line feed before the offset
(`BeginsLine`). One byte further on lies the next column, or, behind a line feed, the beginning of the next line
(`locate_succ`). So the locations of a text increase with its offsets, line before column (`key_lt_succ` for one byte,
`strictMono_key` for all), and this goes on behind the end, where the last line has no last column.

`Strict.locate` searches a table by bounded operations. The table of a text is never searched outside its bounds,
since its first line begins at zero. `locate_exact` says all of this of every text and every offset.
-/
import Mathlib
import Respell.Proofs.Lines
import Respell.Proofs.StrictReading

namespace Respell

/-! ## The beginning of a line -/

/-- the line of `offset` begins at `start`: at zero if no line feed stands before `offset`, else just after the last
one -/
inductive BeginsLine (src : Bytes) (offset : Nat) : Nat → Prop
  | first (hnone : ∀ i < offset, src[i]? ≠ some (ascii '\n')) : BeginsLine src offset 0
  | after {i : Nat} (hlt : i < offset) (hfeed : src[i]? = some (ascii '\n'))
      (hlast : ∀ k, i < k → k < offset → src[k]? ≠ some (ascii '\n')) : BeginsLine src offset (i + 1)

/-- one byte further on, the line is the same or begins there -/
theorem BeginsLine.succ {src : Bytes} {k start : Nat} (h : BeginsLine src k start) :
    BeginsLine src (k + 1) (if src[k]? = some (ascii '\n') then k + 1 else start) := by
  by_cases hfeed : src[k]? = some (ascii '\n')
  · rw [if_pos hfeed]
    exact .after (Nat.lt_succ_self k) hfeed fun i h1 h2 => absurd h2 (Nat.not_lt.2 h1)
  · -- the byte at `k` is no line feed, so what holds below `k` holds below `k + 1`
    rw [if_neg hfeed]
    cases h with
    | first hnone =>
      refine .first fun i hi => ?_
      rcases Nat.lt_succ_iff_lt_or_eq.1 hi with hi | rfl
      · exact hnone i hi
      · exact hfeed
    | after hlt hlf hlast =>
      refine .after (Nat.lt_succ_of_lt hlt) hlf fun i h1 h2 => ?_
      rcases Nat.lt_succ_iff_lt_or_eq.1 h2 with h2 | rfl
      · exact hlast i h1 h2
      · exact hfeed

theorem beginsLine_lineStart (src : Bytes) (offset : Nat) : BeginsLine src offset (lineStart src offset) := by
  induction offset with
  | zero => exact .first fun i hi => absurd hi (Nat.not_lt_zero i)
  | succ k ih => exact ih.succ

theorem BeginsLine.le {src : Bytes} {offset start : Nat} (h : BeginsLine src offset start) : start ≤ offset := by
  cases h with
  | first hnone => exact Nat.zero_le _
  | after hlt hfeed hlast => exact hlt

/-! ## Searching within bounds -/

/-- the line and column of an offset: one is taken off a count above zero, the line is read inside the table, and the
column is the distance from a beginning that does not lie behind the offset -/
def Strict.locate (t : LineTable) (offset : Nat) : Option Location := do
  let line ← less (bisect (fun i => t.starts[i]?.any (· ≤ offset)) 0 t.starts.size)
  let start ← t.starts[line]?
  if start ≤ offset then some ⟨line, offset - start⟩ else none

theorem Strict.locate_eq (src : Bytes) (offset : Nat) :
    Strict.locate (LineTable.ofText src) offset = some ((LineTable.ofText src).locate offset) := by
  have hless : less (lineFeeds src offset + 1) = some (lineFeeds src offset) := if_pos (Nat.succ_pos _)
  unfold Strict.locate
  rw [bisect_ofText, hless, Option.bind_eq_bind, Option.bind_some, starts_lineFeeds, Option.bind_some,
    if_pos (beginsLine_lineStart src offset).le, locate_ofText]

/-! ## The order of locations -/

/-- locations are compared line before column -/
def Location.key (l : Location) : ℕ ×ₗ ℕ := toLex (l.line, l.column)

/-- **One byte further on.** -/
theorem locate_succ (src : Bytes) (offset : Nat) :
    (LineTable.ofText src).locate (offset + 1) =
      let here := (LineTable.ofText src).locate offset
      if src[offset]? = some (ascii '\n') then ⟨here.line + 1, 0⟩ else ⟨here.line, here.column + 1⟩ := by
  have hle := (beginsLine_lineStart src offset).le
  simp only [locate_ofText, lineFeeds_succ, lineStart]
  by_cases hfeed : src[offset]? = some (ascii '\n')
  · simp only [if_pos hfeed, Nat.sub_self]
  · simp only [if_neg hfeed, Nat.add_zero, Nat.sub_add_comm hle]

theorem key_lt_succ (src : Bytes) (offset : Nat) :
    ((LineTable.ofText src).locate offset).key < ((LineTable.ofText src).locate (offset + 1)).key := by
  rw [locate_succ, Location.key, Location.key, Prod.Lex.toLex_lt_toLex]
  by_cases hfeed : src[offset]? = some (ascii '\n')
  · simp only [if_pos hfeed]
    exact .inl (Nat.lt_succ_self _)
  · simp only [if_neg hfeed]
    exact .inr ⟨trivial, Nat.lt_succ_self _⟩

theorem strictMono_key (src : Bytes) : StrictMono fun offset => ((LineTable.ofText src).locate offset).key :=
  strictMono_nat_of_lt_succ (key_lt_succ src)

/-- **Locations.** In every text, every offset has a location, found within the bounds of the table: its line is the
number of line feeds before the offset, and its column the distance from the beginning of the line. No two offsets
have the same location, and of two offsets the greater has the greater location, line before column. -/
theorem locate_exact (src : Bytes) :
    (∀ offset, ∃ line column,
      (LineTable.ofText src).locate offset = ⟨line, column⟩ ∧
      Strict.locate (LineTable.ofText src) offset = some ⟨line, column⟩ ∧
      line = (src.toList.take offset).count (ascii '\n') ∧
      ∃ start, BeginsLine src offset start ∧ start + column = offset) ∧
    Function.Injective (LineTable.ofText src).locate ∧
    StrictMono fun offset => ((LineTable.ofText src).locate offset).key := by
  refine ⟨fun offset => ?_, ?_, strictMono_key src⟩
  · have hbegins := beginsLine_lineStart src offset
    have hwhere := locate_ofText src offset
    exact ⟨_, _, hwhere, (Strict.locate_eq src offset).trans (congrArg some hwhere), rfl, _, hbegins,
      Nat.add_sub_cancel' hbegins.le⟩
  · intro a b hab
    exact (strictMono_key src).injective (congrArg Location.key hab)

end Respell
