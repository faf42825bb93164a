/-
The scanner, byte by byte. `Scanner.step` takes one byte, a two-byte mark or a whole escape at a time, so its
positions skip bytes. A `Cursor` is the scanner's state between any two bytes: besides the region and the suspended
ones it holds what is still to be consumed of a mark or an escape. `feed` takes one byte and looks at the next;
`cursorAt src k` is the state before byte `k`, and `liveAt src k` is the region after byte `k` if that byte is live.

- `fed_feed`: all that one byte can do, case by case; the lemmas after it are read off from the cases.
- `cursorAt_stop`: whatever a byte leaves to be consumed is consumed, and none of it is live.
- `cursorAt_passive`, `live_before`: a word is live as a whole or not at all, since none of its bytes opens or closes a
  region.
- `cursorAt_inert`, `cursorAt_harmless`: bytes that no region minds leave the cursor as it is.

That the scanner itself goes through these states is in `Agreement`.
-/
import Respell.Scanner
import Respell.Proofs.Words

namespace Respell

def Region.isCode : Region → Bool
  | .normal | .hole _ => true
  | _ => false

/-- a line end closes the region -/
def Region.endsWithLine : Region → Bool
  | .lineComment | .singleQuoted | .doubleQuoted => true
  | _ => false

/-- what is still to be consumed of a mark or an escape -/
inductive Rest where
  | nothing
  /-- the second byte of a two-byte mark -/
  | second
  /-- the bytes of an escaped character -/
  | character
deriving DecidableEq, Repr

/-- the state of the scanner between two bytes -/
@[ext]
structure Cursor where
  region : Region
  suspended : List Region
  rest : Rest
deriving DecidableEq, Repr

namespace Cursor

def start : Cursor := ⟨.normal, [], .nothing⟩

def enter (c : Cursor) (r : Region) (rest : Rest) : Cursor := ⟨r, c.region :: c.suspended, rest⟩

def leave (c : Cursor) (rest : Rest) : Cursor := ⟨c.suspended.headD .normal, c.suspended.tail, rest⟩

/-- a backslash; at the end of the text it escapes nothing -/
def escape (c : Cursor) (ahead : Option UInt8) : Cursor :=
  if ahead.isSome then { c with rest := .character } else c

/-- the region that byte `b` of live code opens, with what is left of its mark -/
def opening? (b : UInt8) (ahead : Option UInt8) : Option (Region × Rest) :=
  if b = ascii '/' ∧ ahead = some (ascii '/') then some (.lineComment, .second)
  else if b = ascii '/' ∧ ahead = some (ascii '*') then some (.blockComment, .second)
  else if b = ascii '\'' then some (.singleQuoted, .nothing)
  else if b = ascii '"' then some (.doubleQuoted, .nothing)
  else if b = 0x60 then some (.template, .nothing)
  else none

def inQuotes (c : Cursor) (quote b : UInt8) (ahead : Option UInt8) : Cursor :=
  if b = ascii '\\' then c.escape ahead
  else if b = quote ∨ b = ascii '\n' then c.leave .nothing
  else c

def inTemplate (c : Cursor) (b : UInt8) (ahead : Option UInt8) : Cursor :=
  if b = ascii '\\' then c.escape ahead
  else if b = 0x60 then c.leave .nothing
  else if b = ascii '$' ∧ ahead = some (ascii '{') then c.enter (.hole 1) .second
  else c

def inHole (c : Cursor) (depth : Nat) (b : UInt8) : Cursor × Bool :=
  if b = ascii '{' then ({ c with region := .hole (depth + 1) }, true)
  else if b = ascii '}' then
    if depth ≤ 1 then (c.leave .nothing, false) else ({ c with region := .hole (depth - 1) }, true)
  else (c, true)

/-- consume byte `b`, with `ahead` the byte after it, and tell whether it is live -/
def feed (c : Cursor) (b : UInt8) (ahead : Option UInt8) : Cursor × Bool :=
  match c.rest with
  | .second => ({ c with rest := .nothing }, false)
  | .character => (if ahead.any isContinuation then c else { c with rest := .nothing }, false)
  | .nothing =>
    match c.region with
    | .lineComment => (if b = ascii '\n' then c.leave .nothing else c, false)
    | .blockComment => (if b = ascii '*' ∧ ahead = some (ascii '/') then c.leave .second else c, false)
    | .singleQuoted => (c.inQuotes (ascii '\'') b ahead, false)
    | .doubleQuoted => (c.inQuotes (ascii '"') b ahead, false)
    | .template => (c.inTemplate b ahead, false)
    | .normal =>
      match opening? b ahead with
      | some (r, rest) => (c.enter r rest, false)
      | none => (c, true)
    | .hole depth =>
      match opening? b ahead with
      | some (r, rest) => (c.enter r rest, false)
      | none => c.inHole depth b

end Cursor

/-- the state before byte `k` -/
def cursorAt (src : Bytes) : Nat → Cursor
  | 0 => .start
  | k + 1 =>
    match src[k]? with
    | none => cursorAt src k
    | some b => ((cursorAt src k).feed b src[k + 1]?).1

/-- the region after byte `k`, if that byte is live -/
def liveAt (src : Bytes) (k : Nat) : Option Region :=
  match src[k]? with
  | none => none
  | some b => if ((cursorAt src k).feed b src[k + 1]?).2 then some (cursorAt src (k + 1)).region else none

theorem cursorAt_succ {src : Bytes} {k : Nat} {b : UInt8} (h : src[k]? = some b) :
    cursorAt src (k + 1) = ((cursorAt src k).feed b src[k + 1]?).1 := by
  simp [cursorAt, h]

theorem liveAt_of_feed {src : Bytes} {k : Nat} {b : UInt8} (h : src[k]? = some b) :
    liveAt src k =
      if ((cursorAt src k).feed b src[k + 1]?).2 then some ((cursorAt src k).feed b src[k + 1]?).1.region
      else none := by
  simp [liveAt, h, cursorAt_succ h]

/-! ## What one byte can do -/

/-- all that byte `b` can do to a cursor that waits for nothing: the cursor after it, and whether it is live -/
inductive Fed (c : Cursor) (b : UInt8) (ahead : Option UInt8) : Cursor × Bool → Prop
  | text (hc : c.region.isCode = false) : Fed c b ahead (c, false)
  | escape (hc : c.region.isCode = false) (hb : b = ascii '\\') (ha : ahead.isSome = true) :
    Fed c b ahead ({ c with rest := .character }, false)
  | close (hc : c.region.isCode = false) (hb : b = ascii '\n' ∨ b = ascii '\'' ∨ b = ascii '"' ∨ b = 0x60) :
    Fed c b ahead (c.leave .nothing, false)
  | closeComment (hc : c.region = .blockComment) (hb : b = ascii '*') (ha : ahead = some (ascii '/')) :
    Fed c b ahead (c.leave .second, false)
  | openHole (hc : c.region = .template) (hb : b = ascii '$') (ha : ahead = some (ascii '{')) :
    Fed c b ahead (c.enter (.hole 1) .second, false)
  | openComment (r : Region) (hc : c.region.isCode = true) (hr : r.isCode = false) (hb : b = ascii '/')
    (ha : ahead = some (ascii '/') ∨ ahead = some (ascii '*')) : Fed c b ahead (c.enter r .second, false)
  | openText (r : Region) (hc : c.region.isCode = true) (hr : r.isCode = false)
    (hb : b = ascii '\'' ∨ b = ascii '"' ∨ b = 0x60) : Fed c b ahead (c.enter r .nothing, false)
  | code (hc : c.region.isCode = true) : Fed c b ahead (c, true)
  | deepen (d : Nat) (hc : c.region = .hole d) (hb : b = ascii '{') :
    Fed c b ahead ({ c with region := .hole (d + 1) }, true)
  | rise (d : Nat) (hc : c.region = .hole d) (hd : 1 < d) (hb : b = ascii '}') :
    Fed c b ahead ({ c with region := .hole (d - 1) }, true)
  | closeHole (d : Nat) (hc : c.region = .hole d) (hd : d ≤ 1) (hb : b = ascii '}') :
    Fed c b ahead (c.leave .nothing, false)

theorem fed_inQuotes {c : Cursor} {quote b : UInt8} {ahead : Option UInt8} (hc : c.region.isCode = false)
    (hq : quote = ascii '\'' ∨ quote = ascii '"') : Fed c b ahead (c.inQuotes quote b ahead, false) := by
  unfold Cursor.inQuotes Cursor.escape
  split
  · next hb =>
    split
    · next ha => exact .escape hc hb ha
    · exact .text hc
  · split
    · next hb =>
      refine .close hc ?_
      rcases hb with rfl | hb
      · rcases hq with rfl | rfl <;> simp
      · exact .inl hb
    · exact .text hc

theorem fed_inTemplate {c : Cursor} {b : UInt8} {ahead : Option UInt8} (hc : c.region = .template) :
    Fed c b ahead (c.inTemplate b ahead, false) := by
  have ht : c.region.isCode = false := by simp [hc, Region.isCode]
  unfold Cursor.inTemplate Cursor.escape
  split
  · next hb =>
    split
    · next ha => exact .escape ht hb ha
    · exact .text ht
  · split
    · next hb => exact .close ht (by simp [hb])
    · split
      · next hb => exact .openHole hc hb.1 hb.2
      · exact .text ht

theorem fed_inHole {c : Cursor} {b : UInt8} {ahead : Option UInt8} {depth : Nat} (hc : c.region = .hole depth) :
    Fed c b ahead (c.inHole depth b) := by
  unfold Cursor.inHole
  split
  · next hb => exact .deepen depth hc hb
  · split
    · next hb =>
      split
      · next hd => exact .closeHole depth hc hd hb
      · next hd => exact .rise depth hc (Nat.lt_of_not_le hd) hb
    · exact .code (by simp [hc, Region.isCode])

theorem fed_opening {c : Cursor} {b : UInt8} {ahead : Option UInt8} {r : Region} {rest : Rest}
    (hc : c.region.isCode = true) (h : Cursor.opening? b ahead = some (r, rest)) :
    Fed c b ahead (c.enter r rest, false) := by
  unfold Cursor.opening? at h
  split_ifs at h with h1 h2 h3 h4 h5 <;> cases h
  · exact .openComment _ hc rfl h1.1 (.inl h1.2)
  · exact .openComment _ hc rfl h2.1 (.inr h2.2)
  · exact .openText _ hc rfl (.inl h3)
  · exact .openText _ hc rfl (.inr (.inl h4))
  · exact .openText _ hc rfl (.inr (.inr h5))

theorem fed_feed {c : Cursor} (h : c.rest = .nothing) (b : UInt8) (ahead : Option UInt8) :
    Fed c b ahead (c.feed b ahead) := by
  cases hr : c.region with
  | lineComment =>
    simp only [Cursor.feed, h, hr]
    split
    · next hb => exact .close (by simp [hr, Region.isCode]) (.inl hb)
    · exact .text (by simp [hr, Region.isCode])
  | blockComment =>
    simp only [Cursor.feed, h, hr]
    split
    · next hb => exact .closeComment hr hb.1 hb.2
    · exact .text (by simp [hr, Region.isCode])
  | singleQuoted =>
    simp only [Cursor.feed, h, hr]
    exact fed_inQuotes (by simp [hr, Region.isCode]) (.inl rfl)
  | doubleQuoted =>
    simp only [Cursor.feed, h, hr]
    exact fed_inQuotes (by simp [hr, Region.isCode]) (.inr rfl)
  | template =>
    simp only [Cursor.feed, h, hr]
    exact fed_inTemplate hr
  | normal =>
    simp only [Cursor.feed, h, hr]
    split
    · next ho => exact fed_opening (by simp [hr, Region.isCode]) ho
    · exact .code (by simp [hr, Region.isCode])
  | hole depth =>
    simp only [Cursor.feed, h, hr]
    split
    · next ho => exact fed_opening (by simp [hr, Region.isCode]) ho
    · exact fed_inHole hr

/-! ## What a cursor waits for -/

/-- a live byte is in code, stays in code, and leaves nothing to be consumed -/
theorem Cursor.feed_live {c : Cursor} {b : UInt8} {ahead : Option UInt8} (h : (c.feed b ahead).2 = true) :
    c.rest = .nothing ∧ c.region.isCode = true ∧ (c.feed b ahead).1.rest = .nothing ∧
      (c.feed b ahead).1.region.isCode = true := by
  cases hr : c.rest with
  | second => simp [feed, hr] at h
  | character => simp [feed, hr] at h
  | nothing =>
    have hf := fed_feed hr b ahead
    generalize c.feed b ahead = f at hf h
    cases hf with
    | code hc => exact ⟨rfl, hc, hr, hc⟩
    | deepen _ hc | rise _ hc => exact ⟨rfl, by simp [hc, Region.isCode], hr, rfl⟩
    | _ => cases h

theorem Cursor.ahead_of_second {c : Cursor} {b : UInt8} {ahead : Option UInt8} (h : (c.feed b ahead).1.rest = .second) :
    ahead = some (ascii '/') ∨ ahead = some (ascii '*') ∨ ahead = some (ascii '{') := by
  cases hr : c.rest with
  | second => simp [feed, hr] at h
  | character =>
    simp only [feed, hr] at h
    split at h <;> simp_all
  | nothing =>
    have hf := fed_feed hr b ahead
    generalize c.feed b ahead = f at hf h
    cases hf <;> simp_all [leave, enter]
    tauto

/-- only quoted strings and templates wait for an escaped character, and only while there is one -/
theorem Cursor.text_of_character {c : Cursor} {b : UInt8} {ahead : Option UInt8}
    (hc : c.rest = .character → c.region.isCode = false) (h : (c.feed b ahead).1.rest = .character) :
    (c.feed b ahead).1.region.isCode = false ∧ ahead.isSome = true := by
  cases hr : c.rest with
  | second => simp [feed, hr] at h
  | character =>
    simp only [feed, hr] at h ⊢
    split at h
    · next ha => exact ⟨by simpa [ha] using hc hr, by cases ahead <;> simp_all⟩
    · simp at h
  | nothing =>
    have hf := fed_feed hr b ahead
    generalize c.feed b ahead = f at hf h
    cases hf <;> simp_all [leave, enter]

theorem cursorAt_of_second {src : Bytes} {k : Nat} (h : (cursorAt src k).rest = .second) :
    src[k]? = some (ascii '/') ∨ src[k]? = some (ascii '*') ∨ src[k]? = some (ascii '{') := by
  induction k with
  | zero => cases h
  | succ k ih =>
    cases hb : src[k]? with
    | none => rw [cursorAt, hb] at h; simp [hb] at ih; exact absurd h ih
    | some b => rw [cursorAt_succ hb] at h; exact Cursor.ahead_of_second h

theorem cursorAt_of_character {src : Bytes} {k : Nat} (h : (cursorAt src k).rest = .character) :
    (cursorAt src k).region.isCode = false ∧ src[k]?.isSome = true := by
  induction k with
  | zero => cases h
  | succ k ih =>
    cases hb : src[k]? with
    | none => rw [cursorAt, hb] at h; simp [hb] at ih; exact absurd h ih
    | some b =>
      rw [cursorAt_succ hb] at h ⊢
      exact Cursor.text_of_character (fun hr => (ih hr).1) h

theorem liveAt_of_size_le {src : Bytes} {k : Nat} (h : src.size ≤ k) : liveAt src k = none := by
  simp [liveAt, h]

theorem liveAt_of_rest {src : Bytes} {k : Nat} (h : (cursorAt src k).rest ≠ .nothing) : liveAt src k = none := by
  cases hb : src[k]? with
  | none => simp [liveAt, hb]
  | some b =>
    rw [liveAt_of_feed hb]
    cases hr : (cursorAt src k).rest with
    | nothing => exact absurd hr h
    | second => simp [Cursor.feed, hr]
    | character => simp [Cursor.feed, hr]

/-! ## Consuming the rest -/

/-- where a step at `i` ends that leaves this to be consumed -/
def Rest.stop (src : Bytes) (i : Nat) : Rest → Nat
  | .nothing => i + 1
  | .second => i + 2
  | .character => endOfChar src (i + 1)

/-- an escaped character is consumed to its end, and none of its bytes is live -/
theorem cursorAt_skip_character {src : Bytes} {k : Nat} (h : (cursorAt src k).rest = .character) :
    endOfChar src k ≤ src.size ∧ cursorAt src (endOfChar src k) = { cursorAt src k with rest := .nothing } ∧
      ∀ m, k ≤ m → m < endOfChar src k → liveAt src m = none := by
  have hk : k < src.size := by
    have := (cursorAt_of_character h).2
    simpa using this
  have hb : src[k]? = some src[k] := by simp [hk]
  have hnext : cursorAt src (k + 1) =
      if src[k + 1]?.any isContinuation then cursorAt src k else { cursorAt src k with rest := .nothing } := by
    rw [cursorAt_succ hb]
    simp [Cursor.feed, h]
  rw [endOfChar, if_pos hk]
  -- induction over the continuation bytes, none of which moves the cursor
  generalize hn : k + 1 = n at *
  fun_induction skipWhile isContinuation src n generalizing k with
  | case1 n hn' hc ih =>
    subst hn
    have heq : cursorAt src (k + 1) = cursorAt src k := by simpa [hn', hc] using hnext
    have hb' : src[k + 1]? = some src[k + 1] := by simp [hn']
    have hr : (cursorAt src (k + 1)).rest = .character := heq ▸ h
    have := ih hr hn' hb' rfl (by rw [cursorAt_succ hb']; simp [Cursor.feed, hr])
    refine ⟨this.1, this.2.1.trans (by rw [heq]), ?_⟩
    intro m h1 h2
    rcases Nat.eq_or_lt_of_le h1 with rfl | h1
    · exact liveAt_of_rest (by simp [h])
    · exact this.2.2 m h1 h2
  | case2 n hn' hc =>
    subst hn
    refine ⟨hk, by simpa [hn', hc] using hnext, ?_⟩
    intro m h1 h2
    obtain rfl : m = k := by omega
    exact liveAt_of_rest (by simp [h])
  | case3 n hn' =>
    subst hn
    refine ⟨hk, by simpa [hn'] using hnext, ?_⟩
    intro m h1 h2
    obtain rfl : m = k := by omega
    exact liveAt_of_rest (by simp [h])

theorem cursorAt_skip_second {src : Bytes} {k : Nat} (h : (cursorAt src k).rest = .second) :
    k + 1 ≤ src.size ∧ cursorAt src (k + 1) = { cursorAt src k with rest := .nothing } := by
  have hk : k < src.size := by
    by_contra hge
    have := cursorAt_of_second h
    simp [Array.getElem?_eq_none (Nat.le_of_not_lt hge)] at this
  refine ⟨hk, ?_⟩
  rw [cursorAt_succ (b := src[k]) (by simp [hk])]
  simp [Cursor.feed, h]

/-- what byte `i` leaves to be consumed is consumed, and no byte of it is live -/
theorem cursorAt_stop {src : Bytes} {i : Nat} (hi : i < src.size) :
    (cursorAt src (i + 1)).rest.stop src i ≤ src.size ∧
      cursorAt src ((cursorAt src (i + 1)).rest.stop src i) = { cursorAt src (i + 1) with rest := .nothing } ∧
      ∀ k, i < k → k < (cursorAt src (i + 1)).rest.stop src i → liveAt src k = none := by
  cases hr : (cursorAt src (i + 1)).rest with
  | nothing => exact ⟨hi, by simp only [Rest.stop, ← hr], fun k h1 h2 => by simp only [Rest.stop] at h2; omega⟩
  | second =>
    obtain ⟨h1, h2⟩ := cursorAt_skip_second hr
    refine ⟨h1, h2, ?_⟩
    intro k hk1 hk2
    obtain rfl : k = i + 1 := by simp only [Rest.stop] at hk2; omega
    exact liveAt_of_rest (by simp [hr])
  | character => exact cursorAt_skip_character hr

/-! ## Words are live as a whole -/

/-- bytes that live code passes over without a change: those of words, and whitespace -/
def isPassive (b : UInt8) : Bool := inWord b || isSpace b

theorem isPassive_of_inWord {o : Option UInt8} (h : o.any inWord = true) : o.any isPassive = true :=
  any_of_any (by simp +contextual [isPassive]) h

theorem isPassive_of_isSpace {o : Option UInt8} (h : o.any isSpace = true) : o.any isPassive = true :=
  any_of_any (by simp +contextual [isPassive]) h

theorem isPassive_special : ∀ b, isPassive b = true →
    b ≠ ascii '/' ∧ b ≠ ascii '\'' ∧ b ≠ ascii '"' ∧ b ≠ 0x60 ∧ b ≠ ascii '{' ∧ b ≠ ascii '}' := by
  decide +kernel

theorem Cursor.feed_passive {c : Cursor} (h : c.rest = .nothing) (hc : c.region.isCode = true) {b : UInt8}
    (hb : isPassive b = true) (ahead : Option UInt8) : c.feed b ahead = (c, true) := by
  obtain ⟨h1, h2, h3, h4, h5, h6⟩ := isPassive_special b hb
  have ho : opening? b ahead = none := by simp [opening?, h1, h2, h3, h4]
  cases hr : c.region with
  | normal => simp [feed, h, hr, ho]
  | hole depth => simp [feed, h, hr, ho, inHole, h5, h6]
  | _ => simp [hr, Region.isCode] at hc

theorem liveAt_some {src : Bytes} {k : Nat} {r : Region} (h : liveAt src k = some r) :
    (cursorAt src k).rest = .nothing ∧ (cursorAt src k).region.isCode = true ∧ r.isCode = true := by
  cases hb : src[k]? with
  | none => simp [liveAt, hb] at h
  | some b =>
    rw [liveAt_of_feed hb] at h
    split at h
    · next hf =>
      obtain ⟨h1, h2, -, h4⟩ := Cursor.feed_live hf
      cases h
      exact ⟨h1, h2, h4⟩
    · cases h

/-- live code passes over words and whitespace: the cursor stays, and every byte is live -/
theorem cursorAt_passive {src : Bytes} {i j : Nat} (h : (cursorAt src i).rest = .nothing)
    (hc : (cursorAt src i).region.isCode = true) (hij : i ≤ j)
    (hp : ∀ k, i ≤ k → k < j → src[k]?.any isPassive = true) :
    cursorAt src j = cursorAt src i ∧ ∀ k, i ≤ k → k < j → liveAt src k = some (cursorAt src i).region := by
  induction j, hij using Nat.le_induction with
  | base => exact ⟨rfl, fun k h1 h2 => by omega⟩
  | succ j hij ih =>
    obtain ⟨ih1, ih2⟩ := ih fun k h1 h2 => hp k h1 (by omega)
    obtain ⟨b, hb, hpb⟩ := (Option.any_eq_true _ _).1 (hp j hij (Nat.lt_succ_self j))
    have hf := (cursorAt src i).feed_passive h hc hpb src[j + 1]?
    refine ⟨by rw [cursorAt_succ hb, ih1, hf], ?_⟩
    intro k h1 h2
    rcases Nat.lt_succ_iff_lt_or_eq.1 h2 with h2 | rfl
    · exact ih2 k h1 h2
    · rw [liveAt_of_feed hb, ih1, hf]
      rfl

theorem inWord_special : ∀ b, inWord b = true →
    b ≠ ascii '/' ∧ b ≠ ascii '*' ∧ b ≠ ascii '{' ∧ b ≠ ascii '}' ∧ b ≠ ascii '\n' ∧ b ≠ ascii '\'' ∧ b ≠ ascii '"' ∧
      b ≠ 0x60 := by
  decide +kernel

/-- no region opens or closes between two bytes of a word: before a live byte, a word byte is live -/
theorem live_before {src : Bytes} {k : Nat} (h : liveAt src (k + 1) ≠ none) (hw : src[k]?.any inWord = true) :
    liveAt src k ≠ none := by
  obtain ⟨r, hr⟩ := Option.ne_none_iff_exists'.1 h
  obtain ⟨hrest, hcode, -⟩ := liveAt_some hr
  obtain ⟨b, hb, hbw⟩ := (Option.any_eq_true _ _).1 hw
  obtain ⟨n1, n2, n3, n4, n5, n6, n7, n8⟩ := inWord_special b hbw
  rw [cursorAt_succ hb] at hrest hcode
  rw [liveAt_of_feed hb]
  cases hc : (cursorAt src k).rest with
  | second =>
    have := cursorAt_of_second hc
    simp_all
  | character =>
    have := (cursorAt_of_character hc).1
    simp only [Cursor.feed, hc] at hcode
    split at hcode <;> simp_all
  | nothing =>
    have hf := fed_feed hc b src[k + 1]?
    generalize (cursorAt src k).feed b src[k + 1]? = f at *
    cases hf <;> simp_all [Cursor.enter]

/-! ## Bytes that no region minds -/

/-- bytes that neither open nor close anything in any region, nor belong to the character before them -/
def isInert (b : UInt8) : Bool :=
  !isContinuation b && b != ascii '/' && b != ascii '*' && b != ascii '\'' && b != ascii '"' && b != 0x60 &&
    b != ascii '\\' && b != ascii '$' && b != ascii '{' && b != ascii '}' && b != ascii '\n'

theorem isInert_special : ∀ b, isInert b = true → isContinuation b = false ∧ b ≠ ascii '/' ∧ b ≠ ascii '*' ∧
    b ≠ ascii '\'' ∧ b ≠ ascii '"' ∧ b ≠ 0x60 ∧ b ≠ ascii '\\' ∧ b ≠ ascii '$' ∧ b ≠ ascii '{' ∧ b ≠ ascii '}' ∧
    b ≠ ascii '\n' := by
  decide +kernel

theorem Cursor.feed_inert {c : Cursor} (h : c.rest = .nothing) {b : UInt8} (hb : isInert b = true)
    (ahead : Option UInt8) : c.feed b ahead = (c, c.region.isCode) := by
  obtain ⟨-, h1, h2, h3, h4, h5, h6, h7, h8, h9, h10⟩ := isInert_special b hb
  have ho : opening? b ahead = none := by simp [opening?, h1, h3, h4, h5]
  cases hr : c.region with
  | lineComment => simp [feed, h, hr, h10, Region.isCode]
  | blockComment => simp [feed, h, hr, h2, Region.isCode]
  | singleQuoted => simp [feed, h, hr, inQuotes, h3, h6, h10, Region.isCode]
  | doubleQuoted => simp [feed, h, hr, inQuotes, h4, h6, h10, Region.isCode]
  | template => simp [feed, h, hr, inTemplate, h5, h6, h7, Region.isCode]
  | normal => simp [feed, h, hr, ho, Region.isCode]
  | hole depth => simp [feed, h, hr, ho, inHole, h8, h9, Region.isCode]

theorem Cursor.feed_ahead_inert {c : Cursor} {b a a' : UInt8} (ha : isInert a = true) (ha' : isInert a' = true) :
    c.feed b (some a) = c.feed b (some a') := by
  obtain ⟨h1, h2, h3, -, -, -, -, -, h4, -, -⟩ := isInert_special a ha
  obtain ⟨h1', h2', h3', -, -, -, -, -, h4', -, -⟩ := isInert_special a' ha'
  have ho : opening? b (some a) = opening? b (some a') := by simp [opening?, h2, h3, h2', h3']
  cases hr : c.rest with
  | second => simp [feed, hr]
  | character => simp [feed, hr, h1, h1']
  | nothing => cases hc : c.region <;> simp [feed, hr, hc, ho, inQuotes, inTemplate, escape, h2, h4, h2', h4']

/-- a quote does the same whatever is ahead, and leaves nothing, unless a character goes on behind it -/
theorem Cursor.feed_quote {c : Cursor} {b : UInt8} (hb : b = ascii '\'' ∨ b = ascii '"') {ahead : Option UInt8}
    (ha : ahead.any isContinuation = false) :
    c.feed b ahead = c.feed b none ∧ (c.feed b ahead).1.rest = .nothing := by
  cases hr : c.rest with
  | second => simp [feed, hr]
  | character => simp [feed, hr, ha]
  | nothing =>
    rcases hb with rfl | rfl <;> cases hc : c.region <;>
      simp +decide [feed, hr, hc, opening?, inQuotes, inTemplate, leave, enter]

/-- inert bytes leave a cursor that waits for nothing as it is -/
theorem cursorAt_inert {src : Bytes} {i j : Nat} (h : (cursorAt src i).rest = .nothing) (hij : i ≤ j)
    (hp : ∀ k, i ≤ k → k < j → src[k]?.any isInert = true) : cursorAt src j = cursorAt src i := by
  induction j, hij using Nat.le_induction with
  | base => rfl
  | succ j hij ih =>
    have ih := ih fun k h1 h2 => hp k h1 (by omega)
    obtain ⟨b, hb, hbi⟩ := (Option.any_eq_true _ _).1 (hp j hij (Nat.lt_succ_self j))
    rw [cursorAt_succ hb, ih, Cursor.feed_inert h hbi]

/-- two inert bytes or more consume what a cursor waits for, and do nothing else -/
theorem cursorAt_harmless {src : Bytes} {i j : Nat} (hij : i + 2 ≤ j)
    (hp : ∀ k, i ≤ k → k < j → src[k]?.any isInert = true) :
    cursorAt src j = { cursorAt src i with rest := .nothing } := by
  obtain ⟨b, hb, hbi⟩ := (Option.any_eq_true _ _).1 (hp i (Nat.le_refl i) (by omega))
  obtain ⟨a, ha, hai⟩ := (Option.any_eq_true _ _).1 (hp (i + 1) (by omega) (by omega))
  have hnext : cursorAt src (i + 1) = { cursorAt src i with rest := .nothing } := by
    rw [cursorAt_succ hb, ha]
    cases hr : (cursorAt src i).rest with
    | second => simp [Cursor.feed, hr]
    | character => simp [Cursor.feed, hr, (isInert_special a hai).1]
    | nothing => rw [Cursor.feed_inert hr hbi, ← hr]
  rw [cursorAt_inert (by rw [hnext]) (Nat.le_of_succ_le hij) fun k h1 h2 => hp k (by omega) h2, hnext]

end Respell
