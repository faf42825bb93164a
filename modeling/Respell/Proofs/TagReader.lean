/-
The attribute rule, byte by byte. The rule jumps: from one live byte to the next, from a tag's `<` to its end, over a
brace expression and over `class=`. A `Reader` is the rule's state between any two bytes: the scan of its sweep, which
rests while a tag is read, and where in a tag the rule is, if it is in one (`Reading`). `Reader.feed` takes one byte and
looks at the next; `readerAt src k` is the state before byte `k`.

- `nextLive_carried`: a reader that carries a scan moves it over what is not live as `nextLive` does. This serves the
  sweep and the search for the end of a brace expression alike (`bracesRead_closeBraces`).
- `tagRead_tag`: over one tag, the attributes found are those where the reader stands between attributes.

Main result, `mem_edits_iff`: the rule records an edit just where the reader stands in a tag, outside values and brace
expressions, and `class=` stands there as a whole name.
-/
import Respell.Proofs.EditShapes

namespace Respell

def Scanner.cursor (s : Scanner) : Cursor := ⟨s.region, s.suspended, .nothing⟩

namespace Attribute

open Vocabulary

/-! ## The reader -/

/-- where the rule is in a text -/
inductive Reading where
  /-- outside every tag -/
  | code
  /-- in a tag, and in the value that `quote` opened, if one is open -/
  | tag (quote : Option UInt8)
  /-- in a brace expression of a tag: the scan that looks for its end, and the number of open braces -/
  | braces (inner : Cursor) (depth : Nat)
deriving DecidableEq, Repr

/-- the rule's state between two bytes: the sweep's scan, which rests while a tag is read, and the reading -/
structure Reader where
  outer : Cursor
  reading : Reading
deriving DecidableEq, Repr

def beginsTag (b : UInt8) (ahead : Option UInt8) : Bool :=
  b == ascii '<' && ahead.any fun c => isLetter c || c == ascii '_'

/-- a tag after byte `b`, outside values and brace expressions -/
def inTag (b : UInt8) : Reading :=
  if b = ascii '>' then .code
  else if b = ascii '{' then .braces .start 1
  else if b = ascii '"' ∨ b = ascii '\'' then .tag (some b)
  else .tag none

/-- a brace expression after byte `b`, of which its scan says `next`; a closing brace may end it -/
def inBraces (depth : Nat) (b : UInt8) (next : Cursor × Bool) : Reading :=
  if next.2 ∧ next.1.region = .normal ∧ b = ascii '{' then .braces next.1 (depth + 1)
  else if next.2 ∧ next.1.region = .normal ∧ b = ascii '}' then
    if depth ≤ 1 then .tag none else .braces next.1 (depth - 1)
  else .braces next.1 depth

/-- consume byte `b`, with `ahead` the byte after it -/
def Reader.feed (r : Reader) (b : UInt8) (ahead : Option UInt8) : Reader :=
  match r.reading with
  | .code =>
    let next := r.outer.feed b ahead
    ⟨next.1, if next.2 && beginsTag b ahead then .tag none else .code⟩
  | .tag none => { r with reading := inTag b }
  | .tag (some q) => { r with reading := .tag (if b = q then none else some q) }
  | .braces inner depth => { r with reading := inBraces depth b (inner.feed b ahead) }

def readerAt (src : Bytes) : Nat → Reader
  | 0 => ⟨.start, .code⟩
  | k + 1 =>
    match src[k]? with
    | none => readerAt src k
    | some b => (readerAt src k).feed b src[k + 1]?

theorem readerAt_succ {src : Bytes} {k : Nat} {b : UInt8} (h : src[k]? = some b) :
    readerAt src (k + 1) = (readerAt src k).feed b src[k + 1]? := by
  simp [readerAt, h]

/-! ## Readers that carry a scan -/

/-- a reader into which `mk` puts a scan moves it over what is not live -/
def Carries (mk : Cursor → Reader) : Prop :=
  ∀ c b ahead, (c.feed b ahead).2 = false → (mk c).feed b ahead = mk (c.feed b ahead).1

theorem carries_code : Carries fun c => ⟨c, .code⟩ := by
  intro c b ahead hdead
  simp [Reader.feed, hdead]

theorem carries_braces (outer : Cursor) (depth : Nat) : Carries fun c => ⟨outer, .braces c depth⟩ := by
  intro c b ahead hdead
  simp [Reader.feed, inBraces, hdead]

section carried

variable {src : Bytes} {mk : Cursor → Reader} (hmk : Carries mk)
include hmk

theorem carried_succ {k : Nat} {c : Cursor} {b : UInt8} (h : readerAt src k = mk c) (hb : src[k]? = some b)
    (hdead : (c.feed b src[k + 1]?).2 = false) : readerAt src (k + 1) = mk (c.feed b src[k + 1]?).1 := by
  rw [readerAt_succ hb, h]
  exact hmk c b src[k + 1]? hdead

theorem carried_character {k : Nat} {c : Cursor} (h : readerAt src k = mk c) (hc : c.rest = .character)
    (hk : k < src.size) :
    endOfChar src k ≤ src.size ∧ readerAt src (endOfChar src k) = mk { c with rest := .nothing } ∧
      ∀ m, k ≤ m → m < endOfChar src k → readerAt src m = mk c := by
  have hb : src[k]? = some src[k] := by simp [hk]
  have hnext : readerAt src (k + 1) =
      mk (if src[k + 1]?.any isContinuation then c else { c with rest := .nothing }) := by
    have hfeed : c.feed src[k] src[k + 1]? =
        (if src[k + 1]?.any isContinuation then c else { c with rest := .nothing }, false) := by
      simp [Cursor.feed, hc]
    rw [carried_succ hmk h hb (by rw [hfeed]), hfeed]
  rw [endOfChar, if_pos hk]
  generalize hn : k + 1 = n at *
  fun_induction skipWhile isContinuation src n generalizing k with
  | case1 n hlt hcont ih =>
    subst hn
    have hsame : readerAt src (k + 1) = mk c := by simpa [hlt, hcont] using hnext
    have hb' : src[k + 1]? = some src[k + 1] := by simp [hlt]
    have hfeed : c.feed src[k + 1] src[k + 1 + 1]? =
        (if src[k + 1 + 1]?.any isContinuation then c else { c with rest := .nothing }, false) := by
      simp [Cursor.feed, hc]
    have hnext' := carried_succ hmk hsame hb' (by rw [hfeed])
    rw [hfeed] at hnext'
    obtain ⟨h1, h2, h3⟩ := ih hsame hlt hb' rfl hnext'
    refine ⟨h1, h2, ?_⟩
    intro m hm1 hm2
    rcases Nat.eq_or_lt_of_le hm1 with rfl | hm1
    · exact h
    · exact h3 m hm1 hm2
  | case2 n hlt hcont =>
    subst hn
    refine ⟨hk, by simpa [hlt, hcont] using hnext, ?_⟩
    intro m hm1 hm2
    rw [Nat.le_antisymm (Nat.le_of_lt_succ hm2) hm1]
    exact h
  | case3 n hlt =>
    subst hn
    refine ⟨hk, by simpa [hlt] using hnext, ?_⟩
    intro m hm1 hm2
    rw [Nat.le_antisymm (Nat.le_of_lt_succ hm2) hm1]
    exact h

/-- **One step** that is not live: the scan is carried to where the step ends. -/
theorem carried_step {s : Scanner} (h : readerAt src s.pos = mk s.cursor) (hlt : s.pos < src.size)
    (hdead : (s.step src src[s.pos]).2 = false) :
    readerAt src (s.step src src[s.pos]).1.pos = mk (s.step src src[s.pos]).1.cursor ∧
      (s.step src src[s.pos]).1.pos ≤ src.size ∧
      ∀ m, s.pos ≤ m → m < (s.step src src[s.pos]).1.pos → ∃ c, readerAt src m = mk c := by
  have hb : src[s.pos]? = some src[s.pos] := by simp [hlt]
  rw [step_eq_feed] at hdead ⊢
  have hnext : readerAt src (s.pos + 1) = mk (s.cursor.feed src[s.pos] src[s.pos + 1]?).1 :=
    carried_succ hmk h hb hdead
  have hsecond := @Cursor.ahead_of_second s.cursor src[s.pos] src[s.pos + 1]?
  have hchar := @Cursor.text_of_character s.cursor src[s.pos] src[s.pos + 1]? (fun hr => by cases hr)
  generalize hc : (s.cursor.feed src[s.pos] src[s.pos + 1]?).1 = c at hnext hsecond hchar
  have hgoal : (Cursor.feed ⟨s.region, s.suspended, .nothing⟩ src[s.pos] src[s.pos + 1]?).1 = c := hc
  rw [hgoal]
  simp only [Cursor.scanner, Scanner.cursor]
  -- one step of the scanner is one byte of the cursor and those the cursor then sits out
  cases hr : c.rest with
  | nothing =>
    have hself : { c with rest := .nothing } = c := Cursor.ext rfl rfl hr.symm
    refine ⟨by rw [hself]; exact hnext, hlt, ?_⟩
    intro m hm1 hm2
    rw [Nat.le_antisymm (Nat.le_of_lt_succ hm2) hm1]
    exact ⟨_, h⟩
  | second =>
    have hlt' : s.pos + 1 < src.size := by
      by_contra hge
      have := hsecond hr
      simp [Array.getElem?_eq_none (Nat.le_of_not_lt hge)] at this
    have hb' : src[s.pos + 1]? = some src[s.pos + 1] := by simp [hlt']
    have hfeed : c.feed src[s.pos + 1] src[s.pos + 1 + 1]? = ({ c with rest := .nothing }, false) := by
      simp [Cursor.feed, hr]
    have hlast := carried_succ hmk hnext hb' (by rw [hfeed])
    rw [hfeed] at hlast
    refine ⟨hlast, hlt', ?_⟩
    intro m hm1 hm2
    rcases Nat.eq_or_lt_of_le hm1 with rfl | hm1
    · exact ⟨_, h⟩
    · rw [Nat.le_antisymm (Nat.le_of_lt_succ hm2) hm1]
      exact ⟨_, hnext⟩
  | character =>
    have hlt' : s.pos + 1 < src.size := by simpa using (hchar hr).2
    obtain ⟨h1, h2, h3⟩ := carried_character hmk hnext hr hlt'
    refine ⟨h2, h1, ?_⟩
    intro m hm1 hm2
    rcases Nat.eq_or_lt_of_le hm1 with rfl | hm1
    · exact ⟨_, h⟩
    · exact ⟨_, h3 m hm1 hm2⟩

/-- **To the next live byte.** The scan is carried to it, and its step over the byte is that of the scanner. -/
theorem nextLive_carried {s t : Scanner} {i : Nat} (h : readerAt src s.pos = mk s.cursor)
    (hn : s.nextLive src = (some i, t)) :
    ∃ c b, src[i]? = some b ∧ readerAt src i = mk c ∧ c.feed b src[i + 1]? = (t.cursor, true) ∧ t.pos = i + 1 ∧
      ∀ m, s.pos ≤ m → m ≤ i → ∃ c, readerAt src m = mk c := by
  fun_induction Scanner.nextLive src s with
  | case1 s hs r hr =>
    obtain ⟨rfl, rfl⟩ : s.pos = i ∧ r.1 = t := by simpa using hn
    have hb : src[s.pos]? = some src[s.pos] := by simp [hs]
    have hpos : r.1.pos = s.pos + 1 := step_pos_of_live hr
    have hstep := step_eq_feed src s src[s.pos]
    refine ⟨s.cursor, src[s.pos], hb, h, ?_, hpos, ?_⟩
    · have hlive : (s.cursor.feed src[s.pos] src[s.pos + 1]?).2 = true := by
        have : r.2 = _ := congrArg Prod.snd hstep
        rw [← hr, this]
        rfl
      have hrest := (Cursor.feed_live hlive).2.2.1
      have hr1 : r.1 = (s.cursor.feed src[s.pos] src[s.pos + 1]?).1.scanner src s.pos := congrArg Prod.fst hstep
      refine Prod.ext ?_ hlive
      rw [hr1]
      exact Cursor.ext rfl rfl hrest
    · intro m hm1 hm2
      rw [Nat.le_antisymm hm2 hm1]
      exact ⟨_, h⟩
  | case2 s hs r hr ih =>
    obtain ⟨h1, -, h3⟩ := carried_step hmk h hs (by simpa using hr)
    obtain ⟨c, b, hb, hc, hfeed, hpos, hall⟩ := ih h1 hn
    refine ⟨c, b, hb, hc, hfeed, hpos, ?_⟩
    intro m hm1 hm2
    by_cases hm : m < r.1.pos
    · exact h3 m hm1 hm
    · exact hall m (Nat.le_of_not_lt hm) hm2
  | case3 => simp at hn

theorem nextLive_none_carried {s t : Scanner} (h : readerAt src s.pos = mk s.cursor) (hn : s.nextLive src = (none, t)) :
    ∀ m, s.pos ≤ m → m < src.size → ∃ c, readerAt src m = mk c := by
  fun_induction Scanner.nextLive src s with
  | case1 => simp at hn
  | case2 s hs r hr ih =>
    obtain ⟨h1, -, h3⟩ := carried_step hmk h hs (by simpa using hr)
    intro m hm1 hm2
    by_cases hm : m < r.1.pos
    · exact h3 m hm1 hm
    · exact ih h1 hn m (Nat.le_of_not_lt hm) hm2
  | case3 s hs =>
    intro m hm1 hm2
    exact absurd (Nat.lt_of_le_of_lt hm1 hm2) hs

end carried

/-! ## Brace expressions -/

variable {src : Bytes} {outer : Cursor}

/-- in a brace expression, the live bytes are what its scan stops at -/
theorem braces_nextLive {s t : Scanner} {depth i : Nat} (h : readerAt src s.pos = ⟨outer, .braces s.cursor depth⟩)
    (hn : s.nextLive src = (some i, t)) :
    t.pos = i + 1 ∧ t.pos ≤ src.size ∧
      (∃ b, src[i]? = some b ∧ readerAt src t.pos = ⟨outer, inBraces depth b (t.cursor, true)⟩) ∧
      ∀ k, s.pos ≤ k → k < t.pos → ∃ c d, readerAt src k = ⟨outer, .braces c d⟩ := by
  obtain ⟨c, b, hb, hc, hfeed, hpos, hall⟩ := nextLive_carried (carries_braces outer depth) h hn
  obtain ⟨hlt, -⟩ := Array.getElem?_eq_some_iff.1 hb
  rw [hpos]
  refine ⟨rfl, hlt, ⟨b, hb, ?_⟩, ?_⟩
  · rw [readerAt_succ hb, hc]
    simp only [Reader.feed, hfeed]
  · intro k hk1 hk2
    obtain ⟨c, hc⟩ := hall k hk1 (Nat.le_of_lt_succ hk2)
    exact ⟨c, depth, hc⟩

/-- from `j` the reader is in brace expressions up to `stop`, and leaves them there -/
structure BracesRead (src : Bytes) (outer : Cursor) (j stop : Nat) : Prop where
  le : stop ≤ src.size
  inside : ∀ k, j ≤ k → k < stop → ∃ c d, readerAt src k = ⟨outer, .braces c d⟩
  next : stop < src.size → readerAt src stop = ⟨outer, .tag none⟩

theorem BracesRead.trans {j j' stop : Nat} (h : BracesRead src outer j' stop)
    (hin : ∀ k, j ≤ k → k < j' → ∃ c d, readerAt src k = ⟨outer, .braces c d⟩) : BracesRead src outer j stop where
  le := h.le
  inside k hk1 hk2 := by
    by_cases hk : k < j'
    · exact hin k hk1 hk
    · exact h.inside k (Nat.le_of_not_lt hk) hk2
  next := h.next

theorem bracesRead_closeBraces {s : Scanner} {depth : Nat}
    (h : readerAt src s.pos = ⟨outer, .braces s.cursor depth⟩) :
    BracesRead src outer s.pos (closeBraces src s depth) := by
  fun_induction closeBraces src s depth with
  | case1 s depth t hn =>
    refine ⟨Nat.le_refl _, ?_, fun hlt => absurd hlt (Nat.lt_irrefl _)⟩
    intro k hk1 hk2
    obtain ⟨c, hc⟩ := nextLive_none_carried (carries_braces outer depth) h hn k hk1 hk2
    exact ⟨c, depth, hc⟩
  | case2 s depth i t hn hb ih =>
    obtain ⟨-, -, ⟨b, hb', hnext⟩, hin⟩ := braces_nextLive h hn
    obtain rfl : b = ascii '{' := Option.some.inj (hb'.symm.trans hb.2)
    exact (ih (hnext.trans (by simp [inBraces, Scanner.cursor, hb.1]))).trans hin
  | case3 s depth i t hn _ hb hd =>
    obtain ⟨hpos, hle, ⟨b, hb', hnext⟩, hin⟩ := braces_nextLive h hn
    obtain rfl : b = ascii '}' := Option.some.inj (hb'.symm.trans hb.2)
    have hone : (ascii '}' = ascii '{') = False := by decide
    rw [← hpos]
    exact ⟨hle, hin, fun _ => hnext.trans (by simp [inBraces, Scanner.cursor, hb.1, hd, hone])⟩
  | case4 s depth i t hn _ hb hd ih =>
    obtain ⟨-, -, ⟨b, hb', hnext⟩, hin⟩ := braces_nextLive h hn
    obtain rfl : b = ascii '}' := Option.some.inj (hb'.symm.trans hb.2)
    have hone : (ascii '}' = ascii '{') = False := by decide
    exact (ih (hnext.trans (by simp [inBraces, Scanner.cursor, hb.1, hd, hone]))).trans hin
  | case5 s depth i t hn h1 h2 ih =>
    obtain ⟨-, -, ⟨b, hb', hnext⟩, hin⟩ := braces_nextLive h hn
    have h1' : ¬ (t.region = .normal ∧ b = ascii '{') := by simpa [hb'] using h1
    have h2' : ¬ (t.region = .normal ∧ b = ascii '}') := by simpa [hb'] using h2
    refine (ih (hnext.trans ?_)).trans hin
    simp only [inBraces, Scanner.cursor, true_and, if_neg h1', if_neg h2']

/-! ## Tags -/

theorem getElem?_of_isClassMark {j n : Nat} (h : isClassMark src j = true) (hn : n < 6) :
    src[j + n]? = classMark[n]? := by
  simp only [isClassMark, Bool.and_eq_true, beq_iff_eq] at h
  exact getElem?_of_extract h.1 hn

theorem isClassMark_of_ne {j : Nat} {b : UInt8} (hb : src[j]? = some b) (hne : b ≠ ascii 'c') :
    isClassMark src j = false := by
  by_contra h
  have hc : src[j]? = some (ascii 'c') :=
    getElem?_of_isClassMark (Bool.eq_true_of_not_eq_false h) (by decide : 0 < 6)
  exact hne (Option.some.inj (hb.symm.trans hc))

/-- `class=` is read as part of the tag, and holds no second one -/
theorem readerAt_classMark {j : Nat} (h : isClassMark src j = true) (hj : readerAt src j = ⟨outer, .tag none⟩) {n : Nat}
    (hn : n ≤ 6) : readerAt src (j + n) = ⟨outer, .tag none⟩ := by
  induction n with
  | zero => exact hj
  | succ n ih =>
    have hplain : ∀ n < 6, ∃ b, classMark[n]? = some b ∧ inTag b = .tag none := by decide
    obtain ⟨b, hb, hin⟩ := hplain n hn
    rw [← Nat.add_assoc, readerAt_succ ((getElem?_of_isClassMark h hn).trans hb), ih (Nat.le_of_lt hn)]
    simp only [Reader.feed, hin]

theorem not_isClassMark_inside {j n : Nat} (h : isClassMark src j = true) (h1 : 0 < n) (h2 : n < 6) :
    isClassMark src (j + n) = false := by
  have hother : ∀ n < 6, 0 < n → ∃ b, classMark[n]? = some b ∧ b ≠ ascii 'c' := by decide
  obtain ⟨b, hb, hne⟩ := hother n h2 h1
  exact isClassMark_of_ne ((getElem?_of_isClassMark h h2).trans hb) hne

/-- what the rule finds in a tag from `j` on is what the reader sees there, and after the tag the reader is in code -/
structure TagRead (src : Bytes) (outer : Cursor) (j : Nat) (found : List Nat × Nat) : Prop where
  le : found.2 ≤ src.size
  mem : ∀ x, x ∈ found.1 ↔
    j ≤ x ∧ x < found.2 ∧ (readerAt src x).reading = .tag none ∧ isClassMark src x = true
  next : found.2 < src.size → readerAt src found.2 = ⟨outer, .code⟩

/-- bytes at which no attribute begins may be read first -/
theorem TagRead.trans {j j' : Nat} {found : List Nat × Nat} (h : TagRead src outer j' found) (hle : j ≤ j')
    (hnone : ∀ k, j ≤ k → k < j' → (readerAt src k).reading = .tag none → isClassMark src k = false) :
    TagRead src outer j found where
  le := h.le
  mem x := by
    rw [h.mem]
    constructor
    · intro hx
      exact ⟨Nat.le_trans hle hx.1, hx.2⟩
    · intro hx
      refine ⟨?_, hx.2⟩
      by_contra hlt
      have := hnone x hx.1 (Nat.lt_of_not_le hlt) hx.2.2.1
      simp [hx.2.2.2] at this
  next := h.next

theorem TagRead.step {j : Nat} {found : List Nat × Nat} (h : TagRead src outer (j + 1) found)
    (hnone : (readerAt src j).reading = .tag none → isClassMark src j = false) : TagRead src outer j found := by
  refine h.trans (Nat.le_succ j) ?_
  intro k hk1 hk2
  rw [Nat.le_antisymm (Nat.le_of_lt_succ hk2) hk1]
  exact hnone

/-- **One tag.** The attributes found are where the reader stands between attributes and `class=` stands. -/
theorem tagRead_tag {quote : Option UInt8} {j : Nat} (h : j < src.size → readerAt src j = ⟨outer, .tag quote⟩) :
    TagRead src outer j (tag src quote j) := by
  fun_induction tag src quote j with
  | case1 j hlt b q ih =>
    have hb : src[j]? = some b := by simp [b, hlt]
    have hnext := readerAt_succ hb
    rw [h hlt] at hnext
    exact (ih fun _ => hnext).step fun hq => by simp [h hlt] at hq
  | case2 j hlt b hgt =>
    have hb : src[j]? = some b := by simp [b, hlt]
    have hnone := isClassMark_of_ne hb (by rw [hgt]; decide)
    refine ⟨hlt, ?_, ?_⟩
    · intro x
      constructor
      · intro hx
        cases hx
      · intro hx
        rw [Nat.le_antisymm (Nat.le_of_lt_succ hx.2.1) hx.1, hnone] at hx
        cases hx.2.2.2
    · intro _
      rw [readerAt_succ hb, h hlt]
      simp only [Reader.feed, inTag, if_pos hgt]
  | case3 j hlt b hgt hbrace ih =>
    have hb : src[j]? = some b := by simp [b, hlt]
    have hnone := isClassMark_of_ne hb (by rw [hbrace]; decide)
    -- the reader runs a scan of its own over the braces, from where `endOfBraces` starts one
    have hopen : readerAt src (j + 1) = ⟨outer, .braces .start 1⟩ := by
      rw [readerAt_succ hb, h hlt]
      simp only [Reader.feed, inTag, if_neg hgt, if_pos hbrace]
    have hstart : (Scanner.start.skipTo src (j + 1)) = ⟨j + 1, .normal, []⟩ := by
      simp only [Scanner.start, Scanner.skipTo, Scanner.mk.injEq, and_true]
      omega
    have hread : BracesRead src outer (j + 1) (endOfBraces src j) := by
      unfold endOfBraces
      rw [hstart]
      exact bracesRead_closeBraces (s := ⟨j + 1, .normal, []⟩) hopen
    refine (ih hread.next).trans (Nat.le_of_lt (lt_endOfBraces src j hlt)) ?_
    intro k hk1 hk2 hk
    rcases Nat.eq_or_lt_of_le hk1 with rfl | hk1
    · exact hnone
    · obtain ⟨c, d, hcd⟩ := hread.inside k hk1 hk2
      simp [hcd] at hk
  | case4 j hlt b hgt hbrace hquote ih =>
    have hb : src[j]? = some b := by simp [b, hlt]
    have hnone := isClassMark_of_ne hb (by rcases hquote with hq | hq <;> rw [hq] <;> decide)
    have hnext : readerAt src (j + 1) = ⟨outer, .tag (some b)⟩ := by
      rw [readerAt_succ hb, h hlt]
      simp only [Reader.feed, inTag, if_neg hgt, if_neg hbrace, if_pos hquote]
    exact (ih fun _ => hnext).step fun _ => hnone
  | case5 j hlt b hgt hbrace hquote hm rest ih =>
    have hread := ih fun _ => readerAt_classMark hm (h hlt) (Nat.le_refl 6)
    have hsize : j + classMark.size ≤ src.size := by
      obtain ⟨h5, -⟩ := Array.getElem?_eq_some_iff.1 (isWord_of_classMark hm).2.2
      exact h5
    have hle : j + classMark.size ≤ rest.2 := by
      have := (tagMarks_tag src none (j + classMark.size)).le
      rwa [Nat.min_eq_left hsize] at this
    refine ⟨hread.le, ?_, hread.next⟩
    intro x
    rw [List.mem_cons, hread.mem]
    constructor
    · intro hx
      rcases hx with rfl | hx
      · exact ⟨Nat.le_refl x, Nat.lt_of_lt_of_le (Nat.lt_add_of_pos_right classMark_pos) hle, by rw [h hlt], hm⟩
      · exact ⟨Nat.le_trans (Nat.le_add_right j _) hx.1, hx.2⟩
    · intro hx
      -- the reader takes the mark byte by byte, but no mark begins inside another
      by_cases hin : j + classMark.size ≤ x
      · exact .inr ⟨hin, hx.2⟩
      · obtain ⟨n, rfl⟩ := Nat.exists_eq_add_of_le hx.1
        rcases Nat.eq_zero_or_pos n with rfl | hpos
        · exact .inl rfl
        · have hn : n < 6 := Nat.lt_of_add_lt_add_left (Nat.lt_of_not_le hin)
          have := not_isClassMark_inside hm hpos hn
          simp [hx.2.2.2] at this
  | case6 j hlt b hgt hbrace hquote hm ih =>
    have hb : src[j]? = some b := by simp [b, hlt]
    have hnext : readerAt src (j + 1) = ⟨outer, .tag none⟩ := by
      rw [readerAt_succ hb, h hlt]
      simp only [Reader.feed, inTag, if_neg hgt, if_neg hbrace, if_neg hquote]
    exact (ih fun _ => hnext).step fun _ => by simpa using hm
  | case7 j quote hge =>
    refine ⟨Nat.le_refl _, ?_, fun hlt => absurd hlt (Nat.lt_irrefl _)⟩
    intro x
    constructor
    · intro hx
      cases hx
    · intro hx
      exact absurd (Nat.lt_of_le_of_lt hx.1 hx.2.1) hge

/-! ## The sweep -/

/-- where the rule records an edit: in a tag, outside values and brace expressions, at a whole `class=` -/
def Marked (src : Bytes) (x : Nat) : Prop := (readerAt src x).reading = .tag none ∧ isClassMark src x = true

theorem Marked.lt_size {x : Nat} (h : Marked src x) : x < src.size := by
  have hc := getElem?_of_isClassMark h.2 (by decide : 0 < 6)
  exact (Array.getElem?_eq_some_iff.1 hc).1

/-- **From one live byte on.** A byte that opens a tag records what the tag holds, and the sweep goes on behind it. -/
theorem mem_rule_sweep {s : Scanner} (h : s.pos < src.size → readerAt src s.pos = ⟨s.cursor, .code⟩) (e : Edit) :
    e ∈ sweep src (rule src) s ↔
      ∃ x, s.pos ≤ x ∧ Marked src x ∧ e = ⟨.attribute, x, x + classMark.size, hostClassMark⟩ := by
  fun_induction sweep src (rule src) s with
  | case1 s t hn =>
    simp only [List.not_mem_nil, false_iff, not_exists]
    intro x hx
    have hlt := Nat.lt_of_le_of_lt hx.1 hx.2.1.lt_size
    obtain ⟨c, hc⟩ := nextLive_none_carried carries_code (h hlt) hn x hx.1 hx.2.1.lt_size
    have := hx.2.1.1
    simp [hc] at this
  | case2 s i t hn found ih =>
    obtain ⟨hsi, hlt, -⟩ := Scanner.nextLive_some hn
    obtain ⟨c, b, hb, hc, hfeed, hpos, hall⟩ := nextLive_carried carries_code (h (Nat.lt_of_le_of_lt hsi hlt)) hn
    have hnext : readerAt src (i + 1) = ⟨t.cursor, if beginsTag b src[i + 1]? then .tag none else .code⟩ := by
      rw [readerAt_succ hb, hc]
      simp only [Reader.feed, hfeed, Bool.true_and]
    -- up to the live byte the reader is in code, where nothing is marked
    have hbefore : ∀ x, s.pos ≤ x → Marked src x → i + 1 ≤ x := by
      intro x hx hm
      by_contra hle
      obtain ⟨c, hc⟩ := hall x hx (Nat.le_of_lt_succ (Nat.lt_of_not_le hle))
      have := hm.1
      simp [hc] at this
    have hfound : found = rule src t.region i b := by simp [found, hb]
    rw [List.mem_append, hfound]
    rw [hfound] at ih
    by_cases hopen : opensTag src i b = true
    · rw [if_pos (show beginsTag b src[i + 1]? = true from hopen)] at hnext
      have hread : TagRead src t.cursor (i + 1) (tag src none (i + 1)) := tagRead_tag fun _ => hnext
      have hle : i + 1 ≤ (tag src none (i + 1)).2 := by
        have := (tagMarks_tag src none (i + 1)).le
        rwa [Nat.min_eq_left hlt] at this
      simp only [rule, if_pos hopen] at ih ⊢
      have hskip : (t.skipTo src (tag src none (i + 1)).2).pos = (tag src none (i + 1)).2 := by
        simp only [Scanner.skipTo, hpos, Nat.min_eq_left hread.le, Nat.max_eq_right hle]
      rw [hskip] at ih
      rw [ih hread.next]
      simp only [List.mem_map, hread.mem]
      constructor
      · intro he
        rcases he with ⟨x, hx, rfl⟩ | ⟨x, hx, hm, rfl⟩
        · exact ⟨x, Nat.le_trans hsi (Nat.le_of_lt hx.1), hx.2.2, rfl⟩
        · exact ⟨x, Nat.le_trans hsi (Nat.le_trans (Nat.le_of_lt hle) hx), hm, rfl⟩
      · intro he
        obtain ⟨x, hx, hm, rfl⟩ := he
        by_cases hin : x < (tag src none (i + 1)).2
        · exact .inl ⟨x, ⟨hbefore x hx hm, hin, hm⟩, rfl⟩
        · exact .inr ⟨x, Nat.le_of_not_lt hin, hm, rfl⟩
    · rw [if_neg (show ¬ beginsTag b src[i + 1]? = true from hopen)] at hnext
      simp only [rule, if_neg hopen] at ih ⊢
      have hskip : (t.skipTo src i).pos = i + 1 := by
        simp only [Scanner.skipTo, hpos, Nat.min_eq_left (Nat.le_of_lt hlt), Nat.max_eq_left (Nat.le_succ i)]
      rw [hskip] at ih
      rw [ih fun _ => hnext]
      simp only [List.not_mem_nil, false_or]
      constructor
      · intro he
        obtain ⟨x, hx, hm, rfl⟩ := he
        exact ⟨x, Nat.le_trans hsi (Nat.le_of_lt hx), hm, rfl⟩
      · intro he
        obtain ⟨x, hx, hm, rfl⟩ := he
        exact ⟨x, hbefore x hx hm, hm, rfl⟩

/-- **Attribute edits.** The rule records one edit for each place where the reader stands in a tag, outside values and
brace expressions, and `class=` stands as a whole attribute name. -/
theorem mem_edits_iff {src : Bytes} {e : Edit} :
    e ∈ edits src ↔ ∃ x, Marked src x ∧ e = ⟨.attribute, x, x + classMark.size, hostClassMark⟩ := by
  unfold edits
  rw [mem_rule_sweep fun _ => rfl]
  simp [Scanner.start]

end Attribute

end Respell
