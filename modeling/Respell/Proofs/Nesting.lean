/-
Steps and calls. What a step does to the stack of regions is decided by the region it is in, not by the stack
(`exists_move`), and there are eight kinds of steps (`Moves`). All that calls go through is nested
(`Reached.invariant`), so a region that is closed always finds another one waiting (`Nested.stack_moved`), and a line
feed leaves no region open that ends with its line (`Nested.line_closed`).

Main result, `calls_nested`: over every text, any calls end, find live bytes in increasing order, and keep the regions
nested; and a line feed, unless it is escaped, leaves no line comment and no quoted string open.
-/
import Mathlib
import Respell.Proofs.StrictReading

namespace Respell

/-! ## Steps -/

/-- comments and quoted strings: no region opens inside them -/
def Region.isFlat : Region → Bool
  | .lineComment | .blockComment | .singleQuoted | .doubleQuoted => true
  | _ => false

/-- the regions in which a backslash escapes what follows it -/
def Region.hasEscapes : Region → Bool
  | .singleQuoted | .doubleQuoted | .template => true
  | _ => false

/-- what a step does to the regions -/
inductive Turn where
  | stay
  /-- another number of braces is open -/
  | become (r : Region)
  | enter (r : Region)
  | leave
deriving DecidableEq, Repr

/-- a step: what it does to the regions, where it ends, and whether its byte is live -/
structure Move where
  turn : Turn
  stop : Nat
  live : Bool
deriving DecidableEq, Repr

def Scanner.moved (s : Scanner) (m : Move) : Scanner :=
  match m.turn with
  | .stay => ⟨m.stop, s.region, s.suspended⟩
  | .become r => ⟨m.stop, r, s.suspended⟩
  | .enter r => ⟨m.stop, r, s.region :: s.suspended⟩
  | .leave => ⟨m.stop, s.suspended.headD .normal, s.suspended.tail⟩

theorem Scanner.moved_pos (s : Scanner) (m : Move) : (s.moved m).pos = m.stop := by
  unfold moved
  split <;> rfl

/-- all steps that there are at byte `b` of offset `i` in region `r` -/
inductive Moves (src : Bytes) (i : Nat) (b : UInt8) (r : Region) : Move → Prop
  | pass (hline : b = ascii '\n' → r.endsWithLine = false) : Moves src i b r ⟨.stay, i + 1, r.isCode⟩
  | escape (hr : r.hasEscapes = true) (hb : b = ascii '\\') : Moves src i b r ⟨.stay, endOfChar src (i + 1), false⟩
  | openText (q : Region) (n : Nat) (hr : r.isCode = true) (hq : q.isCode = false) (hn : i + n ≤ src.size)
    (hline : ∀ k, i ≤ k → k < i + n → src[k]? ≠ some (ascii '\n')) : Moves src i b r ⟨.enter q, i + n, false⟩
  | openHole (hr : r = .template) (hn : i + 2 ≤ src.size) : Moves src i b r ⟨.enter (.hole 1), i + 2, false⟩
  | closeText (n : Nat) (hr : r.isCode = false) (hn : i + n ≤ src.size) : Moves src i b r ⟨.leave, i + n, false⟩
  | deepen (d : Nat) (hr : r = .hole d) (hb : b = ascii '{') : Moves src i b r ⟨.become (.hole (d + 1)), i + 1, true⟩
  | rise (d : Nat) (hr : r = .hole d) (hd : 1 < d) (hb : b = ascii '}') :
    Moves src i b r ⟨.become (.hole (d - 1)), i + 1, true⟩
  | closeHole (d : Nat) (hr : r = .hole d) (hd : d ≤ 1) (hb : b = ascii '}') : Moves src i b r ⟨.leave, i + 1, false⟩

/-- the step at an offset is the same move for all scanners there in one region, whatever waits below it -/
def StepsBy (src : Bytes) (i : Nat) (b : UInt8) (r : Region) (m : Move) : Prop :=
  ∀ below, (Scanner.mk i r below).step src b = ((Scanner.mk i r below).moved m, m.live)

section steps

variable {src : Bytes} {i : Nat} {b : UInt8} (hb : src[i]? = some b)
include hb

theorem succ_le_size : i + 1 ≤ src.size := (Array.getElem?_eq_some_iff.1 hb).1

theorem no_line_feed_one (h : b ≠ ascii '\n') : ∀ k, i ≤ k → k < i + 1 → src[k]? ≠ some (ascii '\n') := by
  intro k h1 h2 hk
  obtain rfl : k = i := by omega
  exact h (Option.some.inj (hb.symm.trans hk))

theorem no_line_feed_two {a : UInt8} (ha : src[i + 1]? = some a) (h : b ≠ ascii '\n') (h' : a ≠ ascii '\n') :
    ∀ k, i ≤ k → k < i + 2 → src[k]? ≠ some (ascii '\n') := by
  intro k h1 h2
  by_cases hk : k < i + 1
  · exact no_line_feed_one hb h k h1 hk
  · exact no_line_feed_one ha h' k (by omega) (by omega)

/-- what opens a region opens a text, and holds no line feed -/
theorem moves_opening {r q : Region} {n : Nat} (hr : r.isCode = true) (h : Scanner.opening? src i b = some (q, n)) :
    Moves src i b r ⟨.enter q, i + n, false⟩ := by
  have hsize := succ_le_size hb
  unfold Scanner.opening? at h
  split_ifs at h with h1 h2 h3 h4 h5 <;> cases h
  · exact .openText _ 2 hr rfl (succ_le_size h1.2) (no_line_feed_two hb h1.2 (h1.1 ▸ by decide) (by decide))
  · exact .openText _ 2 hr rfl (succ_le_size h2.2) (no_line_feed_two hb h2.2 (h2.1 ▸ by decide) (by decide))
  · exact .openText _ 1 hr rfl hsize (no_line_feed_one hb (h3 ▸ by decide))
  · exact .openText _ 1 hr rfl hsize (no_line_feed_one hb (h4 ▸ by decide))
  · exact .openText _ 1 hr rfl hsize (no_line_feed_one hb (h5 ▸ by decide))

theorem exists_quotedMove {r : Region} {quote : UInt8} (hr : r.isCode = false) (hesc : r.hasEscapes = true)
    (hstep : ∀ below, (Scanner.mk i r below).step src b = ((Scanner.mk i r below).quotedStep src quote b, false)) :
    ∃ m, Moves src i b r m ∧ StepsBy src i b r m := by
  by_cases hslash : b = ascii '\\'
  · refine ⟨_, .escape hesc hslash, fun below => ?_⟩
    rw [hstep, Scanner.quotedStep, if_pos hslash]
    rfl
  · by_cases hclose : b = quote ∨ b = ascii '\n'
    · refine ⟨_, .closeText 1 hr (succ_le_size hb), fun below => ?_⟩
      rw [hstep, Scanner.quotedStep, if_neg hslash, if_pos hclose]
      rfl
    · refine ⟨_, .pass fun hline => absurd (.inr hline) hclose, fun below => ?_⟩
      rw [hstep, Scanner.quotedStep, if_neg hslash, if_neg hclose, hr]
      rfl

theorem exists_templateMove : ∃ m, Moves src i b .template m ∧ StepsBy src i b .template m := by
  by_cases hslash : b = ascii '\\'
  · refine ⟨_, .escape rfl hslash, fun below => ?_⟩
    simp only [Scanner.step, Scanner.templateStep, if_pos hslash]
    rfl
  · by_cases hclose : b = 0x60
    · refine ⟨_, .closeText 1 rfl (succ_le_size hb), fun below => ?_⟩
      simp only [Scanner.step, Scanner.templateStep, if_neg hslash, if_pos hclose]
      rfl
    · by_cases hhole : b = ascii '$' ∧ src[i + 1]? = some (ascii '{')
      · refine ⟨_, .openHole rfl (succ_le_size hhole.2), fun below => ?_⟩
        simp only [Scanner.step, Scanner.templateStep, if_neg hslash, if_neg hclose, if_pos hhole]
        rfl
      · refine ⟨_, .pass fun _ => rfl, fun below => ?_⟩
        simp only [Scanner.step, Scanner.templateStep, if_neg hslash, if_neg hclose, if_neg hhole]
        rfl

theorem exists_holeMove (d : Nat) : ∃ m, Moves src i b (.hole d) m ∧ StepsBy src i b (.hole d) m := by
  cases hopen : Scanner.opening? src i b with
  | some opened =>
    refine ⟨_, moves_opening hb rfl hopen, fun below => ?_⟩
    simp only [Scanner.step, hopen]
    rfl
  | none =>
    by_cases hdeep : b = ascii '{'
    · refine ⟨_, .deepen d rfl hdeep, fun below => ?_⟩
      simp only [Scanner.step, hopen, Scanner.holeStep, if_pos hdeep]
      rfl
    · by_cases hclose : b = ascii '}'
      · by_cases hd : d ≤ 1
        · refine ⟨_, .closeHole d rfl hd hclose, fun below => ?_⟩
          simp only [Scanner.step, hopen, Scanner.holeStep, if_neg hdeep, if_pos hclose, if_pos hd]
          rfl
        · refine ⟨_, .rise d rfl (Nat.lt_of_not_le hd) hclose, fun below => ?_⟩
          simp only [Scanner.step, hopen, Scanner.holeStep, if_neg hdeep, if_pos hclose, if_neg hd]
          rfl
      · refine ⟨_, .pass fun _ => rfl, fun below => ?_⟩
        simp only [Scanner.step, hopen, Scanner.holeStep, if_neg hdeep, if_neg hclose]
        rfl

/-- **Every step is a move**, and which one is decided by the region alone. -/
theorem exists_move (r : Region) : ∃ m, Moves src i b r m ∧ StepsBy src i b r m := by
  cases r with
  | lineComment =>
    by_cases hline : b = ascii '\n'
    · refine ⟨_, .closeText 1 rfl (succ_le_size hb), fun below => ?_⟩
      simp only [Scanner.step, if_pos hline]
      rfl
    · refine ⟨_, .pass fun h => absurd h hline, fun below => ?_⟩
      simp only [Scanner.step, if_neg hline]
      rfl
  | blockComment =>
    by_cases hclose : b = ascii '*' ∧ src[i + 1]? = some (ascii '/')
    · refine ⟨_, .closeText 2 rfl (succ_le_size hclose.2), fun below => ?_⟩
      simp only [Scanner.step, if_pos hclose]
      rfl
    · refine ⟨_, .pass fun _ => rfl, fun below => ?_⟩
      simp only [Scanner.step, if_neg hclose]
      rfl
  | singleQuoted => exact exists_quotedMove hb rfl rfl fun below => rfl
  | doubleQuoted => exact exists_quotedMove hb rfl rfl fun below => rfl
  | template => exact exists_templateMove hb
  | normal =>
    cases hopen : Scanner.opening? src i b with
    | some opened =>
      refine ⟨_, moves_opening hb rfl hopen, fun below => ?_⟩
      simp only [Scanner.step, hopen]
      rfl
    | none =>
      refine ⟨_, .pass fun _ => rfl, fun below => ?_⟩
      simp only [Scanner.step, hopen]
      rfl
  | hole d => exact exists_holeMove hb d

end steps

theorem Scanner.exists_step {src : Bytes} {s : Scanner} {b : UInt8} (hb : src[s.pos]? = some b) :
    ∃ m, Moves src s.pos b s.region m ∧ s.step src b = (s.moved m, m.live) := by
  obtain ⟨m, hm, hstep⟩ := exists_move hb s.region
  exact ⟨m, hm, hstep s.suspended⟩

theorem endOfChar_le {src : Bytes} {i : Nat} (h : i ≤ src.size) : endOfChar src i ≤ src.size := by
  unfold endOfChar
  split_ifs with hlt
  · exact skipWhile_le _ _ _ hlt
  · exact h

theorem Moves.stop_le {src : Bytes} {i : Nat} {b : UInt8} {r : Region} {m : Move} (hb : src[i]? = some b)
    (h : Moves src i b r m) : m.stop ≤ src.size := by
  have hsize := succ_le_size hb
  cases h with
  | escape => exact endOfChar_le hsize
  | openText q n hr hq hn => exact hn
  | openHole hr hn => exact hn
  | closeText n hr hn => exact hn
  | pass | deepen | rise | closeHole => exact hsize

/-! ## Nested regions -/

namespace Nested

variable {src : Bytes} {limit : Nat} {r : Region} {below : List Region}

/-- only code and templates wait -/
theorem waiting (h : Nested limit r below) : ∀ q ∈ below, q.isFlat = false := by
  induction h with
  | normal => simp
  | @text _ c _ _ hc _ ih =>
    refine List.forall_mem_cons.2 ⟨?_, ih⟩
    cases c <;> simp_all [Region.isCode, Region.isFlat]
  | hole _ _ _ ih => exact List.forall_mem_cons.2 ⟨rfl, ih⟩

/-- **What a step does to the stack.** It leaves the stack as it is, suspends the region, or takes up again the region
that waits on top: one does. -/
theorem stack_moved {s : Scanner} {b : UInt8} {m : Move} (h : Nested limit s.region s.suspended)
    (hm : Moves src s.pos b s.region m) :
    (s.moved m).suspended = s.suspended ∧
        ((s.moved m).region = s.region ∨ ∃ d d', s.region = .hole d ∧ (s.moved m).region = .hole d') ∨
      (s.moved m).suspended = s.region :: s.suspended ∨
      s.suspended = (s.moved m).region :: (s.moved m).suspended := by
  have htop : s.region ≠ .normal → s.suspended = s.suspended.headD .normal :: s.suspended.tail := by
    intro hn
    obtain ⟨q, outer, hs⟩ := List.exists_cons_of_ne_nil fun hs => hn (h.normal_iff.2 hs)
    rw [hs]
    rfl
  cases hm with
  | pass | escape => exact .inl ⟨rfl, .inl rfl⟩
  | openText | openHole => exact .inr (.inl rfl)
  | closeText n hr => exact .inr (.inr (htop (Region.ne_normal_of_isCode hr)))
  | deepen d hr => exact .inl ⟨rfl, .inr ⟨d, d + 1, hr, rfl⟩⟩
  | rise d hr => exact .inl ⟨rfl, .inr ⟨d, d - 1, hr, rfl⟩⟩
  | closeHole d hr => exact .inr (.inr (htop (by simp [hr])))

/-- **A line feed closes its line.** Unless it is escaped, no region is open behind it that ends with its line. -/
theorem line_closed {s : Scanner} {b : UInt8} {m : Move} (hb : src[s.pos]? = some b)
    (h : Nested limit s.region s.suspended) (hm : Moves src s.pos b s.region m)
    (hesc : ¬ (b = ascii '\\' ∧ s.region.hasEscapes = true)) {k : Nat} (hk : s.pos ≤ k) (hstop : k < m.stop)
    (hline : src[k]? = some (ascii '\n')) : (s.moved m).region.endsWithLine = false := by
  have hclosed : (s.suspended.headD .normal).endsWithLine = false := by
    cases hs : s.suspended with
    | nil => rfl
    | cons q outer =>
      have hq := h.waiting q (hs ▸ List.mem_cons_self)
      cases q <;> simp_all [Region.isFlat, Region.endsWithLine]
  cases hm with
  | pass hpass =>
    obtain rfl : k = s.pos := by simp only at hstop; omega
    exact hpass (Option.some.inj (hb.symm.trans hline))
  | escape hr hb => exact absurd ⟨hb, hr⟩ hesc
  | openText q n hr hq hn hmark => exact absurd hline (hmark k hk hstop)
  | openHole | deepen | rise => rfl
  | closeText | closeHole => exact hclosed

end Nested

/-! ## Calls -/

/-- a call: for the next live byte, or to move ahead, to any offset from the position on -/
inductive Call where
  | next
  | ahead (distance : Nat)
deriving DecidableEq, Repr

/-- a call: the live byte that it finds, if any, and the scanner after it -/
def Call.run (src : Bytes) (s : Scanner) : Call → Option Nat × Scanner
  | .next => s.nextLive src
  | .ahead distance => (none, s.skipTo src (s.pos + distance))

/-- calls, one after another: the live bytes that they find, and the scanner after them -/
def runCalls (src : Bytes) (s : Scanner) : List Call → List Nat × Scanner
  | [] => ([], s)
  | call :: calls =>
    let first := call.run src s
    let rest := runCalls src first.2 calls
    (first.1.toList ++ rest.1, rest.2)

/-- the scanners that calls go through: at the beginning, after a step of a call, and after a move ahead -/
inductive Reached (src : Bytes) : Scanner → Prop
  | start : Reached src .start
  | step {s : Scanner} {b : UInt8} (h : Reached src s) (hb : src[s.pos]? = some b) : Reached src (s.step src b).1
  | ahead {s : Scanner} (h : Reached src s) (p : Nat) (hp : s.pos ≤ p) : Reached src (s.skipTo src p)

namespace Reached

variable {src : Bytes} {s : Scanner}

theorem invariant (h : Reached src s) : s.pos ≤ src.size ∧ s.WellNested := by
  induction h with
  | start => exact ⟨Nat.zero_le _, wellNested_start⟩
  | @step s b _ hb ih =>
    have hnested := wellNested_step ih.2 src b
    obtain ⟨m, hm, hstep⟩ := Scanner.exists_step hb
    rw [hstep] at hnested ⊢
    exact ⟨s.moved_pos m ▸ hm.stop_le hb, hnested⟩
  | @ahead s _ p hp ih =>
    exact ⟨Nat.max_le.2 ⟨ih.1, Nat.min_le_right _ _⟩, wellNested_skipTo ih.2 src p⟩

/-- a call for the next live byte goes from step to step -/
theorem after_nextLive (h : Reached src s) : Reached src (s.nextLive src).2 ∧ s.pos ≤ (s.nextLive src).2.pos := by
  fun_induction Scanner.nextLive src s with
  | case1 s hs r hr => exact ⟨h.step (Array.getElem?_eq_getElem hs), Nat.le_of_lt (Scanner.lt_step src s _)⟩
  | case2 s hs r hr ih =>
    obtain ⟨hreach, hle⟩ := ih (h.step (Array.getElem?_eq_getElem hs))
    exact ⟨hreach, Nat.le_trans (Nat.le_of_lt (Scanner.lt_step src s _)) hle⟩
  | case3 s hs => exact ⟨h, Nat.le_refl _⟩

/-- **A run of calls.** What it goes through is reached, and the live bytes that it finds increase. -/
theorem after_calls (h : Reached src s) (calls : List Call) :
    Reached src (runCalls src s calls).2 ∧ (runCalls src s calls).1.Pairwise (· < ·) ∧
      ∀ i ∈ (runCalls src s calls).1, s.pos ≤ i := by
  induction calls generalizing s with
  | nil => exact ⟨h, .nil, by simp [runCalls]⟩
  | cons call calls ih =>
    cases call with
    | ahead distance =>
      obtain ⟨hreach, hlt, hpos⟩ := ih (h.ahead (s.pos + distance) (Nat.le_add_right _ _))
      exact ⟨hreach, hlt, fun i hi => Nat.le_trans (Scanner.le_skipTo src s _) (hpos i hi)⟩
    | next =>
      obtain ⟨hnext, hle⟩ := h.after_nextLive
      obtain ⟨hreach, hlt, hpos⟩ := ih hnext
      have hpos' : ∀ i ∈ (runCalls src (s.nextLive src).2 calls).1, s.pos ≤ i := fun i hi =>
        Nat.le_trans hle (hpos i hi)
      refine ⟨hreach, ?_⟩
      simp only [runCalls, Call.run]
      cases hfound : (s.nextLive src).1 with
      | none => exact ⟨hlt, hpos'⟩
      | some j =>
        obtain ⟨hj, -, hjt⟩ := Scanner.nextLive_some (Prod.ext hfound rfl)
        have hrest : ∀ i ∈ (runCalls src (s.nextLive src).2 calls).1, j < i := fun i hi =>
          Nat.lt_of_lt_of_le hjt (hpos i hi)
        exact ⟨List.pairwise_cons.2 ⟨hrest, hlt⟩, List.forall_mem_cons.2 ⟨hj, hpos'⟩⟩

end Reached

/-- **Calls keep the regions nested.** Take any text of less than 2^32 bytes and any calls, for the next live byte or to
move ahead, to any offset from the position on: past the end, or into the middle of a string, a comment or a character.
The live bytes that they find increase. In every scanner that they go through each further call has a result, within the
bounds of the text and of a count in 32 bits; the position lies in the text; normal code is where nothing waits, and
otherwise at the bottom; each hole stands on a template and has an open brace, and not more of them than bytes have been
read; comments and quoted strings never wait. A step leaves the stack as it is, suspends the region, or takes up the
region on top, and one is there. If it consumes a line feed and is no escape, no line comment and no quoted string is
open behind it. -/
theorem calls_nested (source : String) (hsize : (utf8 source).size < UInt32.size) :
    (∀ calls, (runCalls (utf8 source) .start calls).1.Pairwise (· < ·) ∧
      Reached (utf8 source) (runCalls (utf8 source) .start calls).2) ∧
    ∀ s, Reached (utf8 source) s →
      (Strict.nextLive (utf8 source) s = some (s.nextLive (utf8 source)) ∧
        ∀ p, s.pos ≤ p → Strict.seek (utf8 source) s p = some (s.skipTo (utf8 source) p)) ∧
      s.pos ≤ (utf8 source).size ∧
      (s.region = .normal ↔ s.suspended = []) ∧
      (s.suspended ≠ [] → s.suspended.getLast? = some .normal) ∧
      (∀ inner d outer, s.region :: s.suspended = inner ++ .hole d :: outer →
        outer.head? = some .template ∧ 1 ≤ d ∧ d ≤ s.pos) ∧
      (∀ r ∈ s.suspended, r.isFlat = false) ∧
      ∀ b t live, (utf8 source)[s.pos]? = some b → s.step (utf8 source) b = (t, live) →
        (t.suspended = s.suspended ∧ (t.region = s.region ∨ ∃ d d', s.region = .hole d ∧ t.region = .hole d') ∨
          t.suspended = s.region :: s.suspended ∨ s.suspended = t.region :: t.suspended) ∧
        (¬ (b = ascii '\\' ∧ s.region.hasEscapes = true) →
          ∀ k, s.pos ≤ k → k < t.pos → (utf8 source)[k]? = some (ascii '\n') → t.region.endsWithLine = false) := by
  refine ⟨?_, ?_⟩
  · intro calls
    obtain ⟨hreach, hlt, -⟩ := Reached.start.after_calls calls
    exact ⟨hlt, hreach⟩
  · intro s h
    obtain ⟨hpos, hnested⟩ := h.invariant
    refine ⟨⟨Strict.nextLive_eq (utf8_toList source) hsize hnested, fun p hp => Strict.seek_eq hpos hp⟩, hpos,
      hnested.normal_iff, ?_, ?_, hnested.waiting, ?_⟩
    · intro hne
      obtain ⟨r, below, hs⟩ := List.exists_cons_of_ne_nil hne
      have hlast := hnested.getLast?_eq
      rwa [hs, List.getLast?_cons_cons, ← hs] at hlast
    · intro inner d outer hsplit
      obtain ⟨h1, h2, outer', rfl⟩ := (hnested.suffix hsplit).of_hole
      exact ⟨rfl, h1, h2⟩
    · intro b t live hb hstep
      obtain ⟨m, hm, hmoved⟩ := Scanner.exists_step hb
      obtain ⟨rfl, rfl⟩ := Prod.mk.inj (hstep.symm.trans hmoved)
      refine ⟨hnested.stack_moved hm, ?_⟩
      intro hesc k hk hstop hline
      rw [Scanner.moved_pos] at hstop
      exact hnested.line_closed hb hm hesc hk hstop hline

/-- a move ahead from a hole into the middle of a string further in, which leaves the regions as they are; and a line
feed in a string in a hole, behind which the hole goes on -/
theorem calls_nested_midway :
    (runCalls (utf8 "`$\x7b\x7bx: `y$\x7b'\x7d'") .start [.next, .next, .ahead 7, .next, .next] =
        ([3, 4, 12], ⟨14, .singleQuoted, [.hole 1, .template, .normal]⟩) ∧ [3, 4, 12].Pairwise (· < ·)) ∧
    Reached (utf8 "`$\x7b'\n") ⟨4, .singleQuoted, [.hole 1, .template, .normal]⟩ ∧
    Scanner.step (utf8 "`$\x7b'\n") ⟨4, .singleQuoted, [.hole 1, .template, .normal]⟩ (ascii '\n') =
      (⟨5, .hole 1, [.template, .normal]⟩, false) ∧
    (Region.hole 1).endsWithLine = false := by
  have hrun : runCalls (utf8 "`$\x7b\x7bx: `y$\x7b'\x7d'") .start [.next, .next, .ahead 7, .next, .next] =
      ([3, 4, 12], ⟨14, .singleQuoted, [.hole 1, .template, .normal]⟩) := by
    cbv
  have hlt := ((calls_nested "`$\x7b\x7bx: `y$\x7b'\x7d'" (by decide)).1 [.next, .next, .ahead 7, .next, .next]).1
  rw [hrun] at hlt
  have hsrc : utf8 "`$\x7b'\n" = #[0x60, ascii '$', ascii '{', ascii '\'', ascii '\n'] := by decide
  have hreach : Reached (utf8 "`$\x7b'\n") ⟨4, .singleQuoted, [.hole 1, .template, .normal]⟩ := by
    rw [hsrc]
    exact ((Reached.start.step (b := 0x60) rfl).step (b := ascii '$') rfl).step (b := ascii '\'') rfl
  have hstep : Scanner.step (utf8 "`$\x7b'\n") ⟨4, .singleQuoted, [.hole 1, .template, .normal]⟩ (ascii '\n') =
      (⟨5, .hole 1, [.template, .normal]⟩, false) := by
    decide
  have hline : (utf8 "`$\x7b'\n")[4]? = some (ascii '\n') := by rw [hsrc]; rfl
  obtain ⟨-, -, -, -, -, -, hfeed⟩ := (calls_nested "`$\x7b'\n" (by decide)).2 _ hreach
  exact ⟨⟨hrun, hlt⟩, hreach, hstep,
    (hfeed _ _ _ hline hstep).2 (by decide) 4 (Nat.le_refl 4) (by decide) hline⟩

end Respell
