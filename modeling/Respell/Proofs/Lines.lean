/-
Bisection, and the lines of a text. A bisection over a list that falls into a front part, which passes the test, and a
back part, which fails it, ends where the front ends (`bisect_split`); all tables of the library are searched this
way.

`locate_ofText`: the line of an offset is the number of line feeds before it, and its column the distance from the
last of them, or from the beginning of the text.
-/
import Mathlib.Tactic
import Respell.Text.Lines

namespace Respell

/-! ## Bisection -/

/-- a bisection finds the number before which everything passes and from which on everything fails -/
theorem bisect_eq {p : Nat → Bool} {lo n hi : Nat} (h1 : lo ≤ n) (h2 : n ≤ hi) (hpass : ∀ i < n, p i = true)
    (hfail : ∀ i, n ≤ i → i < hi → p i = false) : bisect p lo hi = n := by
  fun_induction bisect p lo hi with
  | case1 lo hi hlt mid hp ih =>
    apply ih _ h2 hfail
    by_contra hge
    have hmid : n ≤ mid := by omega
    rw [hfail mid hmid (by omega)] at hp
    cases hp
  | case2 lo hi hlt mid hp ih =>
    apply ih h1
    · by_contra hge
      exact hp (hpass mid (by omega))
    · intro i hn hi
      exact hfail i hn (by omega)
  | case3 lo hi hge => omega

theorem bisect_split {α : Type} {xs : Array α} {p : α → Bool} {front back : List α} (h : xs.toList = front ++ back)
    (hpass : ∀ a ∈ front, p a = true) (hfail : ∀ a ∈ back, p a = false) :
    bisect (fun i => xs[i]?.any p) 0 xs.size = front.length := by
  have hsize : xs.size = front.length + back.length := by rw [← Array.length_toList, h, List.length_append]
  have hget : ∀ i, xs[i]? = (front ++ back)[i]? := fun i => by rw [← h, Array.getElem?_toList]
  refine bisect_eq (Nat.zero_le _) (by omega) ?_ ?_
  · intro i hi
    rw [hget, List.getElem?_append_left hi, List.getElem?_eq_getElem hi]
    exact hpass _ (List.getElem_mem hi)
  · intro i hn hi
    have hlt : i - front.length < back.length := by omega
    rw [hget, List.getElem?_append_right hn, List.getElem?_eq_getElem hlt]
    exact hfail _ (List.getElem_mem hlt)

/-! ## Lines -/

def lineFeeds (src : Bytes) (offset : Nat) : Nat := (src.toList.take offset).count (ascii '\n')

/-- the offset after the last line feed before `offset`; zero if there is none -/
def lineStart (src : Bytes) : Nat → Nat
  | 0 => 0
  | k + 1 => if src[k]? = some (ascii '\n') then k + 1 else lineStart src k

/-- the beginnings of lines up to `offset` -/
def startsTo (src : Bytes) (offset : Nat) : List Nat :=
  0 :: (List.range offset).filterMap fun i => if src[i]? = some (ascii '\n') then some (i + 1) else none

theorem lineFeeds_succ (src : Bytes) (k : Nat) :
    lineFeeds src (k + 1) = lineFeeds src k + if src[k]? = some (ascii '\n') then 1 else 0 := by
  unfold lineFeeds
  rw [List.take_add_one, List.count_append, Array.getElem?_toList]
  cases src[k]? with
  | none => rfl
  | some b => by_cases hb : b = ascii '\n' <;> simp [hb]

theorem startsTo_succ (src : Bytes) (k : Nat) :
    startsTo src (k + 1) = startsTo src k ++ if src[k]? = some (ascii '\n') then [k + 1] else [] := by
  unfold startsTo
  rw [List.range_succ, List.filterMap_append, List.cons_append]
  split <;> simp [*]

/-- one line begins for each line feed, after the first line, and the last of them begins at `lineStart` -/
theorem startsTo_eq (src : Bytes) (offset : Nat) :
    ∃ init, startsTo src offset = init ++ [lineStart src offset] ∧ init.length = lineFeeds src offset := by
  induction offset with
  | zero => exact ⟨[], rfl, rfl⟩
  | succ k ih =>
    obtain ⟨init, hstarts, hlen⟩ := ih
    rw [startsTo_succ, hstarts, lineFeeds_succ, lineStart]
    by_cases hb : src[k]? = some (ascii '\n')
    · refine ⟨init ++ [lineStart src k], by simp [hb], by simp [hb, hlen]⟩
    · refine ⟨init, by simp [hb], by simp [hb, hlen]⟩

theorem le_of_mem_startsTo {src : Bytes} {offset x : Nat} (h : x ∈ startsTo src offset) : x ≤ offset := by
  rcases List.mem_cons.1 h with rfl | h
  · exact Nat.zero_le _
  · obtain ⟨i, hi, hx⟩ := List.mem_filterMap.1 h
    split at hx
    · cases hx
      exact List.mem_range.1 hi
    · cases hx

/-- further on, only beginnings behind `offset` are added -/
theorem startsTo_append {src : Bytes} {offset n : Nat} (h : offset ≤ n) :
    ∃ back, startsTo src n = startsTo src offset ++ back ∧ ∀ x ∈ back, offset < x := by
  induction n, h using Nat.le_induction with
  | base => exact ⟨[], by simp, by simp⟩
  | succ k hk ih =>
    obtain ⟨back, hstarts, hback⟩ := ih
    refine ⟨back ++ if src[k]? = some (ascii '\n') then [k + 1] else [], ?_, ?_⟩
    · rw [startsTo_succ, hstarts, List.append_assoc]
    · intro x hx
      rcases List.mem_append.1 hx with hx | hx
      · exact hback x hx
      · split at hx
        · obtain rfl := List.mem_singleton.1 hx
          omega
        · cases hx

theorem startsTo_size {src : Bytes} {offset : Nat} (h : src.size ≤ offset) :
    startsTo src offset = startsTo src src.size := by
  induction offset, h using Nat.le_induction with
  | base => rfl
  | succ k hk ih => rw [startsTo_succ, ih, Array.getElem?_eq_none hk]; simp

/-- the table of a text: the beginnings up to an offset, and those behind it -/
theorem starts_ofText (src : Bytes) (offset : Nat) :
    ∃ back, (LineTable.ofText src).starts.toList = startsTo src offset ++ back ∧ ∀ x ∈ back, offset < x := by
  have htable : (LineTable.ofText src).starts.toList = startsTo src src.size := by
    simp [LineTable.ofText, startsTo]
  rw [htable]
  rcases Nat.le_total offset src.size with hle | hle
  · exact startsTo_append hle
  · exact ⟨[], by rw [startsTo_size hle, List.append_nil], by simp⟩

/-- the bisection passes the beginnings up to an offset: that of the first line, and one for each line feed -/
theorem bisect_ofText (src : Bytes) (offset : Nat) :
    bisect (fun i => (LineTable.ofText src).starts[i]?.any (· ≤ offset)) 0 (LineTable.ofText src).starts.size =
      lineFeeds src offset + 1 := by
  obtain ⟨back, htable, hback⟩ := starts_ofText src offset
  obtain ⟨init, hstarts, hlen⟩ := startsTo_eq src offset
  rw [bisect_split htable]
  · rw [hstarts, List.length_append, hlen]
    rfl
  · intro x hx
    exact decide_eq_true (le_of_mem_startsTo hx)
  · intro x hx
    exact decide_eq_false (Nat.not_le.2 (hback x hx))

theorem starts_lineFeeds (src : Bytes) (offset : Nat) :
    (LineTable.ofText src).starts[lineFeeds src offset]? = some (lineStart src offset) := by
  obtain ⟨back, htable, -⟩ := starts_ofText src offset
  obtain ⟨init, hstarts, hlen⟩ := startsTo_eq src offset
  rw [← Array.getElem?_toList, htable, hstarts, ← hlen]
  simp

/-- **Where an offset is.** -/
theorem locate_ofText (src : Bytes) (offset : Nat) :
    (LineTable.ofText src).locate offset = ⟨lineFeeds src offset, offset - lineStart src offset⟩ := by
  simp only [LineTable.locate]
  rw [bisect_ofText, Nat.add_sub_cancel, starts_lineFeeds]
  rfl

end Respell
