/-
Brace expressions on their own. The end of a brace expression is looked for by a scan of its own, which begins behind
the opening brace in normal code. So it depends on nothing before that brace, and on nothing behind the brace that it
ends at.

Let the same bytes stand in two texts (`Alike`). Two scanners that are at the same one of these bytes, in the same
region (`Beside`), are so again after a step, and the next live byte is the same. Only the last byte needs an argument:
a step may look at the byte ahead, but not at a closing brace (`Cursor.feed_brace`).

Main result, `endOfBraces_iff`: a brace expression is found to end at its last byte in the one text just when it is in
the other.
-/
import Respell.Proofs.Agreement
import Respell.Rules.Attribute

namespace Respell

/-! ## One scanner -/

theorem Cursor.feed_brace {c : Cursor} (hc : c.rest = .nothing) (ahead ahead' : Option UInt8) :
    c.feed (ascii '}') ahead = c.feed (ascii '}') ahead' := by
  have hopening : ∀ a, Cursor.opening? (ascii '}') a = none := fun a => by simp +decide [Cursor.opening?]
  simp only [Cursor.feed, hc, hopening]
  cases c.region with
  | blockComment => simp +decide
  | singleQuoted => simp +decide [Cursor.inQuotes]
  | doubleQuoted => simp +decide [Cursor.inQuotes]
  | template => simp +decide [Cursor.inTemplate]
  | _ => rfl

theorem Scanner.nextLive_of_getElem? {src : Bytes} {s : Scanner} {b : UInt8} (h : src[s.pos]? = some b) :
    s.nextLive src =
      if (s.step src b).2 then (some s.pos, (s.step src b).1) else (s.step src b).1.nextLive src := by
  obtain ⟨hlt, rfl⟩ := Array.getElem?_eq_some_iff.1 h
  rw [Scanner.nextLive, dif_pos hlt]

/-! ## Two scanners -/

/-- the same `n` bytes stand in `x` at `i` and in `y` at `j`, and the last of them is a closing brace -/
structure Alike (x y : Bytes) (i j n : Nat) : Prop where
  left : i + n ≤ x.size
  right : j + n ≤ y.size
  same : ∀ k < n, x[i + k]? = y[j + k]?
  last : ∀ k, k + 1 = n → x[i + k]? = some (ascii '}')

/-- two scanners at the same byte from `i` and from `j`, and in the same region -/
structure Beside (i j : Nat) (s t : Scanner) : Prop where
  le : i ≤ s.pos
  pos : j + s.pos = i + t.pos
  region : s.region = t.region
  suspended : s.suspended = t.suspended

namespace Alike

variable {x y : Bytes} {i j n : Nat} {s t : Scanner}

theorem symm (h : Alike x y i j n) : Alike y x j i n := by
  refine ⟨h.right, h.left, fun k hk => (h.same k hk).symm, fun k hk => ?_⟩
  rw [← h.same k (Nat.lt_of_succ_le (Nat.le_of_eq hk)), h.last k hk]

theorem getElem?_eq (h : Alike x y i j n) {p q : Nat} (hp : i ≤ p) (hpq : j + p = i + q) (hlt : p < i + n) :
    x[p]? = y[q]? := by
  obtain ⟨k, rfl⟩ := Nat.exists_eq_add_of_le hp
  obtain rfl : q = j + k := by omega
  exact h.same k (Nat.lt_of_add_lt_add_left hlt)

theorem ahead_eq (h : Alike x y i j n) (hst : Beside i j s t) (hlt : s.pos + 1 < i + n) :
    x[s.pos + 1]? = y[t.pos + 1]? :=
  h.getElem?_eq (Nat.le_succ_of_le hst.le) (congrArg Nat.succ hst.pos) hlt

theorem endOfChar_eq (h : Alike x y i j n) {p q : Nat} (hp : i ≤ p) (hpq : j + p = i + q)
    (hend : endOfChar x p < i + n) : j + endOfChar x p = i + endOfChar y q := by
  have hlt : p < i + n := Nat.lt_of_le_of_lt (le_endOfChar x p) hend
  have hleft := h.left
  have hright := h.right
  unfold endOfChar at hend ⊢
  rw [if_pos (by omega)] at hend ⊢
  rw [if_pos (by omega)]
  obtain ⟨d, hd⟩ := Nat.exists_eq_add_of_le (le_skipWhile isContinuation x (p + 1))
  have hskip : skipWhile isContinuation y (q + 1) = q + 1 + d := by
    refine skipWhile_eq (Nat.le_add_right _ _) ?_ ?_
    · intro k h1 h2
      obtain ⟨m, rfl⟩ := Nat.exists_eq_add_of_le h1
      rw [← h.getElem?_eq (show i ≤ p + 1 + m by omega) (by omega) (by omega)]
      exact skipWhile_passes (Nat.le_add_right _ _) (by omega)
    · rw [← h.getElem?_eq (show i ≤ p + 1 + d by omega) (by omega) (by omega), ← hd]
      exact skipWhile_stops _ _ _
  omega

/-- one step, where what is ahead makes no difference -/
theorem step_eq (h : Alike x y i j n) (hst : Beside i j s t) {b : UInt8}
    (hfeed : Cursor.feed ⟨s.region, s.suspended, .nothing⟩ b x[s.pos + 1]? =
      Cursor.feed ⟨s.region, s.suspended, .nothing⟩ b y[t.pos + 1]?)
    (hstop : (s.step x b).2 = false → (s.step x b).1.pos < i + n) :
    Beside i j (s.step x b).1 (t.step y b).1 ∧ (s.step x b).2 = (t.step y b).2 := by
  obtain ⟨hle, hpos, hregion, hsuspended⟩ := hst
  rw [step_eq_feed] at hstop
  rw [step_eq_feed, step_eq_feed, ← hregion, ← hsuspended, ← hfeed]
  have hlive := @Cursor.feed_live ⟨s.region, s.suspended, .nothing⟩ b x[s.pos + 1]?
  generalize Cursor.feed ⟨s.region, s.suspended, .nothing⟩ b x[s.pos + 1]? = next at hstop hlive ⊢
  simp only [Cursor.scanner, and_true] at hstop ⊢
  suffices hrest : i ≤ next.1.rest.stop x s.pos ∧ j + next.1.rest.stop x s.pos = i + next.1.rest.stop y t.pos from
    ⟨hrest.1, hrest.2, rfl, rfl⟩
  cases hrest : next.1.rest with
  | nothing => exact ⟨Nat.le_succ_of_le hle, congrArg (· + 1) hpos⟩
  | second => exact ⟨Nat.le_add_right_of_le hle, congrArg (· + 2) hpos⟩
  | character =>
    -- a byte that is live is the last one of its step
    have hdead : next.2 = false := by
      by_contra hnot
      have hnothing := (hlive (by simpa using hnot)).2.2.1
      rw [hrest] at hnothing
      cases hnothing
    rw [hrest] at hstop
    exact ⟨(Nat.le_succ_of_le hle).trans (le_endOfChar x _),
      h.endOfChar_eq (Nat.le_succ_of_le hle) (congrArg (· + 1) hpos) (hstop hdead)⟩

/-- **The next live byte** is the same. -/
theorem nextLive_eq (h : Alike x y i j n) (hst : Beside i j s t) {p : Nat} {s' : Scanner}
    (hn : s.nextLive x = (some p, s')) (hp : p < i + n) :
    ∃ q t', t.nextLive y = (some q, t') ∧ x[p]? = y[q]? ∧ j + p = i + q ∧ Beside i j s' t' := by
  revert t
  fun_induction Scanner.nextLive x s with
  | case1 s hs r hr =>
    intro t hst
    obtain ⟨rfl, rfl⟩ : s.pos = p ∧ r.1 = s' := by simpa using hn
    have hget := h.getElem?_eq hst.le hst.pos hp
    have hfeed : Cursor.feed ⟨s.region, s.suspended, .nothing⟩ x[s.pos] x[s.pos + 1]? =
        Cursor.feed ⟨s.region, s.suspended, .nothing⟩ x[s.pos] y[t.pos + 1]? := by
      by_cases hnext : s.pos + 1 < i + n
      · rw [h.ahead_eq hst hnext]
      · -- behind the closing brace the texts may part, but a brace is read without looking ahead
        obtain ⟨k, hk⟩ := Nat.exists_eq_add_of_le hst.le
        have hclose := h.last k (by omega)
        rw [← hk, Array.getElem?_eq_getElem hs, Option.some.injEq] at hclose
        rw [hclose]
        exact Cursor.feed_brace rfl _ _
    obtain ⟨hnext, hlive⟩ := h.step_eq hst hfeed fun hdead => absurd (hr.symm.trans hdead) (by decide)
    refine ⟨t.pos, _, ?_, hget, hst.pos, hnext⟩
    rw [Scanner.nextLive_of_getElem? (hget.symm.trans (Array.getElem?_eq_getElem hs)), if_pos (hlive ▸ hr)]
  | case2 s hs r hr ih =>
    intro t hst
    have hle := (Scanner.nextLive_some hn).1
    have hlt : s.pos < r.1.pos := Scanner.lt_step x s x[s.pos]
    have hget := h.getElem?_eq hst.le hst.pos (by omega)
    have hfeed : Cursor.feed ⟨s.region, s.suspended, .nothing⟩ x[s.pos] x[s.pos + 1]? =
        Cursor.feed ⟨s.region, s.suspended, .nothing⟩ x[s.pos] y[t.pos + 1]? := by
      rw [h.ahead_eq hst (by omega)]
    obtain ⟨hnext, hlive⟩ := h.step_eq hst hfeed fun _ => (show r.1.pos < i + n by omega)
    rw [Scanner.nextLive_of_getElem? (hget.symm.trans (Array.getElem?_eq_getElem hs)), if_neg (hlive ▸ hr)]
    exact ih hn hnext
  | case3 => simp at hn

/-- **The end** that is found in the one text is found in the other. -/
theorem closeBraces_eq (h : Alike x y i j n) (hst : Beside i j s t) (hn : i + n < x.size) {depth : Nat}
    (hend : Attribute.closeBraces x s depth = i + n) : Attribute.closeBraces y t depth = j + n := by
  have hnext : ∀ {s s' : Scanner} {depth p : Nat}, s.nextLive x = (some p, s') →
      Attribute.closeBraces x s' depth = i + n → p < i + n := by
    intro s s' depth p hlive hclose
    have hle := Attribute.le_closeBraces x s' depth
    have hlt := (Scanner.nextLive_some hlive).2.2
    omega
  fun_induction Attribute.closeBraces x s depth generalizing t with
  | case1 s depth s' hlive => exact absurd hend (Nat.ne_of_gt hn)
  | case2 s depth p s' hlive hb ih =>
    obtain ⟨q, t', hlive', hget, -, hst'⟩ := h.nextLive_eq hst hlive (hnext hlive hend)
    rw [hget, hst'.region] at hb
    rw [Attribute.closeBraces, hlive']
    simp only [if_pos hb]
    exact ih hst' hend
  | case3 s depth p s' hlive hnot hb hd =>
    obtain ⟨q, t', hlive', hget, hpq, hst'⟩ := h.nextLive_eq hst hlive (by omega)
    rw [hget, hst'.region] at hnot hb
    rw [Attribute.closeBraces, hlive']
    simp only [if_neg hnot, if_pos hb, if_pos hd]
    omega
  | case4 s depth p s' hlive hnot hb hd ih =>
    obtain ⟨q, t', hlive', hget, -, hst'⟩ := h.nextLive_eq hst hlive (hnext hlive hend)
    rw [hget, hst'.region] at hnot hb
    rw [Attribute.closeBraces, hlive']
    simp only [if_neg hnot, if_pos hb, if_neg hd]
    exact ih hst' hend
  | case5 s depth p s' hlive hnot hnot' ih =>
    obtain ⟨q, t', hlive', hget, -, hst'⟩ := h.nextLive_eq hst hlive (hnext hlive hend)
    rw [hget, hst'.region] at hnot hnot'
    rw [Attribute.closeBraces, hlive']
    simp only [if_neg hnot, if_neg hnot']
    exact ih hst' hend

theorem endOfBraces_eq (h : Alike x y i j n) (hpos : 0 < n) (hn : i + n < x.size)
    (hend : Attribute.endOfBraces x i = i + n) : Attribute.endOfBraces y j = j + n := by
  have hright := h.right
  refine h.closeBraces_eq ?_ hn hend
  simp only [Scanner.start, Scanner.skipTo]
  exact ⟨by simp only; omega, by simp only; omega, rfl, rfl⟩

/-- **A brace expression is one wherever it stands.** Its end does not depend on the text around it. -/
theorem endOfBraces_iff (h : Alike x y i j n) (hpos : 0 < n) (hx : i + n < x.size) (hy : j + n < y.size) :
    Attribute.endOfBraces x i = i + n ↔ Attribute.endOfBraces y j = j + n :=
  ⟨h.endOfBraces_eq hpos hx, h.symm.endOfBraces_eq hpos hy⟩

end Alike

end Respell
