/-
The regions that wait. The scanner keeps the regions that an inner one interrupts on a stack. They are nested
(`Nested`): normal code waits for nothing and is at the bottom, a comment, a string or a template stands on code, and
a hole stands on its template and has an open brace of its own, and `limit` of them at most.

One byte keeps the regions nested and adds one to the limit (`Nested.feed`). So before byte `k` no hole has more than
`k` open braces (`nested_cursorAt`), and neither has one of a scanner at its own position (`Scanner.WellNested`),
after a step, on the way to the next live byte and wherever it moves ahead to.
-/
import Respell.Proofs.Agreement

namespace Respell

/-- region `r` with those that wait under it, innermost first; no hole has more than `limit` open braces -/
inductive Nested (limit : Nat) : Region → List Region → Prop
  | normal : Nested limit .normal []
  | text {r c : Region} {below : List Region} (hr : r.isCode = false) (hc : c.isCode = true)
    (h : Nested limit c below) : Nested limit r (c :: below)
  | hole {d : Nat} {below : List Region} (h1 : 1 ≤ d) (h2 : d ≤ limit) (h : Nested limit .template below) :
    Nested limit (.hole d) (.template :: below)

theorem Region.ne_normal_of_isCode {r : Region} (h : r.isCode = false) : r ≠ .normal := by
  rintro rfl
  cases h

namespace Nested

variable {limit : Nat} {r : Region} {below : List Region}

theorem mono (h : Nested limit r below) {limit' : Nat} (hle : limit ≤ limit') : Nested limit' r below := by
  induction h with
  | normal => exact .normal
  | text hr hc _ ih => exact .text hr hc ih
  | hole h1 h2 _ ih => exact .hole h1 (Nat.le_trans h2 hle) ih

theorem normal_iff (h : Nested limit r below) : r = .normal ↔ below = [] := by
  cases h with
  | normal => simp
  | text hr => simpa using Region.ne_normal_of_isCode hr
  | hole => simp

theorem getLast?_eq (h : Nested limit r below) : (r :: below).getLast? = some .normal := by
  induction h with
  | normal => rfl
  | text _ _ _ ih => rw [List.getLast?_cons_cons, ih]
  | hole _ _ _ ih => rw [List.getLast?_cons_cons, ih]

theorem of_hole {d : Nat} (h : Nested limit (.hole d) below) :
    1 ≤ d ∧ d ≤ limit ∧ ∃ outer, below = .template :: outer := by
  cases h with
  | text hr => cases hr
  | hole h1 h2 => exact ⟨h1, h2, _, rfl⟩

theorem recount {d : Nat} (h : Nested limit (.hole d) below) {d' : Nat} (h1 : 1 ≤ d') (h2 : d' ≤ limit) :
    Nested limit (.hole d') below := by
  cases h with
  | text hr => cases hr
  | hole _ _ h => exact .hole h1 h2 h

/-- wherever a region is left, one waits: all but normal code stand on another region -/
theorem leave (h : Nested limit r below) (hn : r ≠ .normal) : Nested limit (below.headD .normal) below.tail := by
  cases h with
  | normal => exact absurd rfl hn
  | text _ _ h => exact h
  | hole _ _ h => exact h

theorem suffix (h : Nested limit r below) {inner outer : List Region} {q : Region}
    (heq : r :: below = inner ++ q :: outer) : Nested limit q outer := by
  induction inner generalizing r below with
  | nil =>
    obtain ⟨rfl, rfl⟩ := List.cons.inj heq
    exact h
  | cons x inner ih =>
    rw [List.cons_append] at heq
    obtain ⟨-, rfl⟩ := List.cons.inj heq
    have hne : inner ++ q :: outer ≠ [] := List.append_ne_nil_of_right_ne_nil _ (List.cons_ne_nil _ _)
    have hwait := h.leave fun hn => hne (h.normal_iff.1 hn)
    obtain ⟨p, rest, hsplit⟩ := List.exists_cons_of_ne_nil hne
    rw [hsplit] at hwait
    exact ih hwait hsplit.symm

/-- **One byte** keeps the regions nested. -/
theorem feed {c : Cursor} (h : Nested limit c.region c.suspended) (b : UInt8) (ahead : Option UInt8) :
    Nested (limit + 1) (c.feed b ahead).1.region (c.feed b ahead).1.suspended := by
  have hmore := h.mono (Nat.le_succ limit)
  cases hr : c.rest with
  | second =>
    simp only [Cursor.feed, hr]
    exact hmore
  | character =>
    simp only [Cursor.feed, hr]
    split <;> exact hmore
  | nothing =>
    have hf := fed_feed hr b ahead
    generalize c.feed b ahead = f at hf
    cases hf with
    | text | escape | code => exact hmore
    | close hc => exact hmore.leave (Region.ne_normal_of_isCode hc)
    | closeComment hc => exact hmore.leave (by simp [hc])
    | openHole hc =>
      simp only [Cursor.enter, hc]
      exact .hole (Nat.le_refl 1) (Nat.le_add_left 1 limit) (hc ▸ hmore)
    | openComment q hc hq | openText q hc hq => exact .text hq hc hmore
    | deepen d hc =>
      rw [hc] at h hmore
      exact hmore.recount (Nat.le_add_left 1 d) (Nat.succ_le_succ h.of_hole.2.1)
    | rise d hc hd =>
      rw [hc] at hmore
      have hle := hmore.of_hole.2.1
      exact hmore.recount (by omega) (by omega)
    | closeHole d hc => exact hmore.leave (by simp [hc])

end Nested

/-- **All bytes** do: before byte `k` no hole has more than `k` open braces. -/
theorem nested_cursorAt (src : Bytes) (k : Nat) : Nested k (cursorAt src k).region (cursorAt src k).suspended := by
  induction k with
  | zero => exact .normal
  | succ k ih =>
    unfold cursorAt
    split
    · exact ih.mono (Nat.le_succ k)
    · exact ih.feed _ _

/-! ## Scanners -/

/-- the regions are nested, and no hole has more open braces than bytes have been read -/
def Scanner.WellNested (s : Scanner) : Prop := Nested s.pos s.region s.suspended

theorem wellNested_start : Scanner.start.WellNested := .normal

theorem wellNested_step {s : Scanner} (h : s.WellNested) (src : Bytes) (b : UInt8) : (s.step src b).1.WellNested := by
  have hfed := Nested.feed (c := ⟨s.region, s.suspended, .nothing⟩) h b src[s.pos + 1]?
  have hlt := Scanner.lt_step src s b
  unfold Scanner.WellNested
  rw [step_eq_feed] at hlt ⊢
  exact hfed.mono hlt

theorem wellNested_of_nextLive {src : Bytes} {s t : Scanner} {i : Option Nat} (h : s.WellNested)
    (hn : s.nextLive src = (i, t)) : t.WellNested := by
  fun_induction Scanner.nextLive src s with
  | case1 s hs r hr => exact (Prod.mk.inj hn).2 ▸ wellNested_step h src _
  | case2 s hs r hr ih => exact ih (wellNested_step h src _) hn
  | case3 s hs => exact (Prod.mk.inj hn).2 ▸ h

/-- a move ahead does not touch the regions, wherever it ends -/
theorem wellNested_skipTo {s : Scanner} (h : s.WellNested) (src : Bytes) (p : Nat) : (s.skipTo src p).WellNested :=
  h.mono (Nat.le_max_left _ _)

end Respell
