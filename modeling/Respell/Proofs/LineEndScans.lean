/-
Scans over both line ends. A carriage return and a line feed after it move a cursor, or the reader of the attribute
rule, as the line feed alone does (`Cursor.feed_crlf`), unless the carriage return is taken for the escaped character:
then the line feed closes a quoted string that it would not have closed alone. `Unbroken` rules this out: a line feed
is escaped in templates only. Under it the cursor and the reader are the same in both texts, at lifted offsets
(`cursorAt_lift`, `readerAt_lift`), and so is what is live.
-/
import Respell.Proofs.CarriageReturns
import Respell.Proofs.OutputTags

namespace Respell

open Attribute

/-! ## One line end -/

namespace Cursor

/-- which of the line ends comes next does not matter -/
theorem feed_front (c : Cursor) (b : UInt8) (ahead : Option UInt8) : c.feed b (ahead.map front) = c.feed b ahead := by
  obtain rfl | ⟨a, rfl⟩ : ahead = none ∨ ∃ a, ahead = some a := by cases ahead <;> simp
  · rfl
  · by_cases ha : a = ascii '\n'
    · subst ha
      have hopen : opening? b (some (ascii '\r')) = opening? b (some (ascii '\n')) := by simp +decide [opening?]
      cases hr : c.rest with
      | second => simp [feed, hr]
      | character => simp +decide [feed, hr]
      | nothing =>
        cases hc : c.region with
        | normal | hole => simp [feed, hr, hc, front, hopen]
        | _ => simp +decide [feed, hr, hc, inQuotes, inTemplate, escape]
    · rw [Option.map_some, front_of_ne ha]

theorem feed_lineFeed_congr {c : Cursor} (h : c.rest = .nothing) (ahead ahead' : Option UInt8) :
    c.feed (ascii '\n') ahead = c.feed (ascii '\n') ahead' := by
  cases hc : c.region with
  | normal | hole => simp +decide [feed, h, hc, opening?]
  | _ => simp +decide [feed, h, hc, inQuotes, inTemplate]

/-- **One line end.** A carriage return and a line feed do what the line feed does, if it is not escaped or escaped in a
template. -/
theorem feed_crlf {c : Cursor} (h : c.rest ≠ .second) (hescape : c.rest = .character → c.region = .template)
    {ahead ahead' : Option UInt8} (ha : ahead.any isContinuation = false) :
    ((c.feed (ascii '\r') (some (ascii '\n'))).1.feed (ascii '\n') ahead').1 = (c.feed (ascii '\n') ahead).1 := by
  cases hr : c.rest with
  | second => exact absurd hr h
  | character =>
    have hc := hescape hr
    simp +decide [feed, hr, ha, hc, inTemplate]
  | nothing =>
    rw [feed_inert hr (by decide), feed_lineFeed_congr hr]

end Cursor

/-! ## The reader -/

namespace Attribute

theorem Reader.mapScan_mapScan (f g : Cursor → Cursor) (r : Reader) :
    (r.mapScan f).mapScan g = r.mapScan fun c => g (f c) := by
  obtain ⟨outer, reading⟩ := r
  cases reading <;> rfl

/-- one line end, for the reader of the attribute rule -/
theorem Reader.feed_crlf {r : Reader} (hquoted : r.Quoted) (h : ∀ c, r.scan = some c → c.rest ≠ .second)
    (hescape : ∀ c, r.scan = some c → c.rest = .character → c.region = .template) {ahead ahead' : Option UInt8}
    (ha : ahead.any isContinuation = false) :
    (r.feed (ascii '\r') (some (ascii '\n'))).feed (ascii '\n') ahead' = r.feed (ascii '\n') ahead := by
  have hreturn : isLevel (ascii '\r') = true := by decide
  have hfeed : isLevel (ascii '\n') = true := by decide
  rw [Reader.feed_level (quoted_feed hquoted _ _) hfeed, Reader.feed_level hquoted hreturn,
    Reader.feed_level hquoted hfeed, Reader.mapScan_mapScan]
  refine Reader.mapScan_congr ?_
  intro c hc
  exact Cursor.feed_crlf (h c hc) (hescape c hc) ha

/-- a scan that waits for the second byte of a mark has it before it, and rests in no mark while a tag is read -/
structure Reader.Foresees (r : Reader) (ahead : Option UInt8) : Prop where
  second : ∀ c, r.scan = some c → c.rest = .second →
    ahead = some (ascii '/') ∨ ahead = some (ascii '*') ∨ ahead = some (ascii '{')
  rested : r.reading ≠ .code → r.outer.rest = .nothing

theorem foresees_feed {r : Reader} {b : UInt8} (h : r.Foresees (some b)) (ahead : Option UInt8) :
    (r.feed b ahead).Foresees ahead := by
  obtain ⟨outer, reading⟩ := r
  cases reading with
  | code =>
    simp only [Reader.feed]
    split_ifs with htag
    · -- the byte that opens a tag is live
      have hlive := (Bool.and_eq_true _ _ ▸ htag).1
      exact ⟨by rintro c ⟨⟩, fun _ => (Cursor.feed_live hlive).2.2.1⟩
    · refine ⟨?_, fun h => absurd rfl h⟩
      rintro c ⟨⟩ hc
      exact Cursor.ahead_of_second hc
  | tag value =>
    have hrest : outer.rest = .nothing := h.rested (by simp)
    have hkeeps : ∀ next : Reading, (∀ c depth, next = .braces c depth → c.rest = .nothing) →
        Reader.Foresees ⟨outer, next⟩ ahead := by
      intro next hinner
      refine ⟨?_, fun _ => hrest⟩
      intro c hc hsecond
      cases next with
      | code => cases hc; rw [hrest] at hsecond; cases hsecond
      | tag => cases hc
      | braces inner depth => cases hc; rw [hinner _ _ rfl] at hsecond; cases hsecond
    cases value with
    | none =>
      refine hkeeps (inTag b) ?_
      intro c depth heq
      simp only [inTag] at heq
      split_ifs at heq
      cases heq
      rfl
    | some quote => exact hkeeps _ (by rintro c depth ⟨⟩)
  | braces inner depth =>
    refine ⟨?_, fun _ => h.rested (by simp)⟩
    intro c hc hsecond
    simp only [Reader.feed, inBraces] at hc
    split_ifs at hc <;> cases hc <;> exact Cursor.ahead_of_second hsecond

theorem foresees_readerAt (src : Bytes) (k : Nat) : (readerAt src k).Foresees src[k]? := by
  induction k with
  | zero => exact ⟨by rintro c ⟨⟩ ⟨⟩, fun h => absurd rfl h⟩
  | succ k ih =>
    cases hb : src[k]? with
    | none =>
      have hnext : src[k + 1]? = none := by
        rw [Array.getElem?_eq_none_iff] at hb ⊢
        exact Nat.le_succ_of_le hb
      rw [hb] at ih
      rw [readerAt, hb, hnext]
      exact ih
    | some b =>
      rw [hb] at ih
      rw [readerAt_succ hb]
      exact foresees_feed ih _

end Attribute

/-! ## Both texts -/

/-- no quoted string goes on behind an escaped line feed, be it a string of the walk or of the attribute rule's own
scan: a line feed is escaped in templates only -/
structure Unbroken (src : Bytes) : Prop where
  walk : ∀ k, src[k]? = some (ascii '\n') → (cursorAt src k).rest = .character → (cursorAt src k).region = .template
  tags : ∀ k, src[k]? = some (ascii '\n') →
    ∀ c, (readerAt src k).scan = some c → c.rest = .character → c.region = .template

instance (src : Bytes) : Decidable (Unbroken src) :=
  decidable_of_iff
    (∀ k < src.size, src[k]? = some (ascii '\n') →
      ((cursorAt src k).rest = .character → (cursorAt src k).region = .template) ∧
        ∀ c ∈ (readerAt src k).scan, c.rest = .character → c.region = .template)
    ⟨fun h => ⟨fun k hb => (h k (Array.getElem?_eq_some_iff.1 hb).1 hb).1,
        fun k hb => (h k (Array.getElem?_eq_some_iff.1 hb).1 hb).2⟩,
      fun h k _ hb => ⟨h.walk k hb, h.tags k hb⟩⟩

section lifted

variable {src : Bytes} {cs : List Char} (hsrc : src.toList = cs.flatMap encode) (h : Unbroken src)
include hsrc h

/-- **The walk**, with carriage returns and without. -/
theorem cursorAt_lift (k : Nat) : cursorAt (crlf src) (lift src k) = cursorAt src k := by
  induction k with
  | zero => rfl
  | succ k ih =>
    have hget := getElem?_lift src k
    cases hb : src[k]? with
    | none =>
      rw [hb] at hget
      rw [lift_add_one, hb, if_neg (by simp), cursorAt, hget, cursorAt, hb]
      exact ih
    | some b =>
      rw [hb] at hget
      by_cases hne : b = ascii '\n'
      · subst hne
        have hsecond : (cursorAt src k).rest ≠ .second := by
          intro hr
          have hmark := cursorAt_of_second hr
          rw [hb] at hmark
          revert hmark
          decide
        rw [lift_lineFeed hb, cursorAt_succ (getElem?_lineFeed hb), cursorAt_succ hget, ih, getElem?_lineFeed hb,
          cursorAt_succ hb]
        exact Cursor.feed_crlf hsecond (h.walk k hb) (boundary_after_ascii hsrc hb (by decide)).2
      · rw [Option.map_some, front_of_ne hne] at hget
        rw [lift_succ hb hne, cursorAt_succ hget, ih, getElem?_lift_succ hb hne, Cursor.feed_front, cursorAt_succ hb]

theorem liveAt_lift {k : Nat} {b : UInt8} (hb : src[k]? = some b) (hne : b ≠ ascii '\n') :
    liveAt (crlf src) (lift src k) = liveAt src k := by
  have hget := getElem?_lift src k
  rw [hb, Option.map_some, front_of_ne hne] at hget
  rw [liveAt_of_feed hget, liveAt_of_feed hb, cursorAt_lift hsrc h, getElem?_lift_succ hb hne, Cursor.feed_front]

/-- **The reader of the attribute rule**, with carriage returns and without. -/
theorem readerAt_lift (k : Nat) : readerAt (crlf src) (lift src k) = readerAt src k := by
  induction k with
  | zero => rfl
  | succ k ih =>
    have hget := getElem?_lift src k
    cases hb : src[k]? with
    | none =>
      rw [hb] at hget
      rw [lift_add_one, hb, if_neg (by simp), readerAt, hget, readerAt, hb]
      exact ih
    | some b =>
      rw [hb] at hget
      by_cases hne : b = ascii '\n'
      · subst hne
        have hsecond : ∀ c, (readerAt src k).scan = some c → c.rest ≠ .second := by
          intro c hc hr
          have hmark := (foresees_readerAt src k).second c hc hr
          rw [hb] at hmark
          revert hmark
          decide
        rw [lift_lineFeed hb, readerAt_succ (getElem?_lineFeed hb), readerAt_succ hget, ih, getElem?_lineFeed hb,
          readerAt_succ hb]
        exact Reader.feed_crlf (quoted_readerAt src k) hsecond (h.tags k hb)
          (boundary_after_ascii hsrc hb (by decide)).2
      · rw [Option.map_some, front_of_ne hne] at hget
        rw [lift_succ hb hne, readerAt_succ hget, ih, getElem?_lift_succ hb hne, readerAt_succ hb]
        refine Reader.feed_congr (fun c => c.feed_front b _) ?_
        rw [beginsTag, any_front (by decide), beginsTag]

end lifted

end Respell
