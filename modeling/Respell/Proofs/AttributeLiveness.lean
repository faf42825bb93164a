/-
Attributes and what is live. A tag is read by rules of its own: in it there are no comments and no templates, a value
ends at the next quote like the one that opened it, and a closing brace that closes nothing is skipped. Where the text
of a tag holds none of what these rules read otherwise than a walk does, the two go in step (`Tracks`), also through
brace expressions, in which the rule scans anew and a walk goes on in the hole it is in (`Over`).

Main result, `attribute_live_iff`: the rule records an edit just where its reader stands between the attributes of a tag
and `class=` stands; the edit takes out live bytes only just when it begins in live code, and it does so wherever the
tags before it are plain. `attribute_in_template` has two texts in which it does not: `class=` is spelled anew inside a
template and inside a comment.
-/
import Respell.Proofs.ImportLiveness
import Respell.Proofs.TagReader

namespace Respell

open Vocabulary

/-! ## A scan on top of another -/

/-- `c` is the scan `inner` on top of region `base` and the regions `below` it -/
inductive Over (base : Region) (below : List Region) : Cursor → Cursor → Prop
  | ground (rest : Rest) : Over base below ⟨.normal, [], rest⟩ ⟨base, below, rest⟩
  | inside {r : Region} (front : List Region) (rest : Rest) (hr : r ≠ .normal) (hf : .normal ∉ front) :
    Over base below ⟨r, front ++ [.normal], rest⟩ ⟨r, front ++ base :: below, rest⟩

theorem Cursor.opening?_ne_normal {b : UInt8} {ahead : Option UInt8} {r : Region} {rest : Rest}
    (h : Cursor.opening? b ahead = some (r, rest)) : r ≠ .normal := by
  unfold Cursor.opening? at h
  split_ifs at h <;> cases h <;> simp

section stacked

variable {base : Region} {below : List Region} {inner c : Cursor}

theorem Over.with_rest (h : Over base below inner c) (rest : Rest) :
    Over base below { inner with rest := rest } { c with rest := rest } := by
  cases h with
  | ground => exact .ground rest
  | inside front _ hr hf => exact .inside front rest hr hf

theorem Over.escape (h : Over base below inner c) (ahead : Option UInt8) :
    Over base below (inner.escape ahead) (c.escape ahead) := by
  unfold Cursor.escape
  split
  · exact h.with_rest .character
  · exact h

theorem Over.enter (h : Over base below inner c) {r : Region} (hr : r ≠ .normal) (rest : Rest) :
    Over base below (inner.enter r rest) (c.enter r rest) := by
  cases h with
  | ground => exact .inside [] rest hr (by simp)
  | @inside r' front _ hr' hf =>
    refine .inside (r' :: front) rest hr ?_
    rw [List.mem_cons, not_or]
    exact ⟨hr'.symm, hf⟩

theorem Over.leave (h : Over base below inner c) (hn : inner.region ≠ .normal) (rest : Rest) :
    Over base below (inner.leave rest) (c.leave rest) := by
  cases h with
  | ground => exact absurd rfl hn
  | @inside r front _ hr hf =>
    cases front with
    | nil => exact .ground rest
    | cons r' front =>
      rw [List.mem_cons, not_or] at hf
      exact .inside front rest (Ne.symm hf.1) hf.2

theorem Over.replace (h : Over base below inner c) (hn : inner.region ≠ .normal) {r : Region} (hr : r ≠ .normal) :
    Over base below { inner with region := r } { c with region := r } := by
  cases h with
  | ground => exact absurd rfl hn
  | inside front _ _ hf => exact .inside front _ hr hf

theorem Over.rest_eq (h : Over base below inner c) : c.rest = inner.rest := by
  cases h <;> rfl

/-- inside, the two scans are in the same region; on the ground, both are in code -/
theorem Over.region (h : Over base below inner c) :
    (inner.region = .normal ∧ c.region = base) ∨ (inner.region ≠ .normal ∧ c.region = inner.region) := by
  cases h with
  | ground => exact .inl ⟨rfl, rfl⟩
  | inside _ _ hr _ => exact .inr ⟨hr, rfl⟩

/-- **One byte**, unless it is a brace on the ground: both scans take it alike. -/
theorem Over.feed (h : Over base below inner c) {b : UInt8} {ahead : Option UInt8} (hbase : base.isCode = true)
    (hbrace : (inner.feed b ahead).2 = true → inner.region = .normal → b ≠ ascii '{' ∧ b ≠ ascii '}') :
    Over base below (inner.feed b ahead).1 (c.feed b ahead).1 := by
  have hrest := h.rest_eq
  cases hr : inner.rest with
  | second =>
    rw [hr] at hrest
    simp only [Cursor.feed, hr, hrest]
    exact h.with_rest .nothing
  | character =>
    rw [hr] at hrest
    simp only [Cursor.feed, hr, hrest]
    split
    · exact h
    · exact h.with_rest .nothing
  | nothing =>
    rw [hr] at hrest
    -- at the bottom the regions are `normal` and `base`, which differ only in what a brace does;
    -- above it both cursors are in the same region
    rcases h.region with ⟨hi, hc⟩ | ⟨hn, hc⟩
    · cases ho : Cursor.opening? b ahead with
      | some found =>
        have hne := Cursor.opening?_ne_normal (r := found.1) ho
        cases base with
        | normal | hole =>
          simp only [Cursor.feed, hr, hrest, hi, hc, ho]
          exact h.enter hne _
        | _ => cases hbase
      | none =>
        have hb := hbrace (by simp [Cursor.feed, hr, hi, ho]) hi
        cases base with
        | normal | hole =>
          simp only [Cursor.feed, hr, hrest, hi, hc, ho, Cursor.inHole, if_neg hb.1, if_neg hb.2]
          exact h
        | _ => cases hbase
    · cases hreg : inner.region with
      | normal => exact absurd hreg hn
      | lineComment =>
        simp only [Cursor.feed, hr, hrest, hc, hreg]
        split
        · exact h.leave hn _
        · exact h
      | blockComment =>
        simp only [Cursor.feed, hr, hrest, hc, hreg]
        split
        · exact h.leave hn _
        · exact h
      | singleQuoted | doubleQuoted =>
        simp only [Cursor.feed, hr, hrest, hc, hreg, Cursor.inQuotes]
        split_ifs
        · exact h.escape ahead
        · exact h.leave hn _
        · exact h
      | template =>
        simp only [Cursor.feed, hr, hrest, hc, hreg, Cursor.inTemplate]
        split_ifs
        · exact h.escape ahead
        · exact h.leave hn _
        · exact h.enter (by simp) _
        · exact h
      | hole depth =>
        simp only [Cursor.feed, hr, hrest, hc, hreg]
        cases ho : Cursor.opening? b ahead with
        | some found => exact h.enter (Cursor.opening?_ne_normal (r := found.1) ho) _
        | none =>
          simp only [Cursor.inHole]
          split_ifs
          · exact h.replace hn (by simp)
          · exact h.leave hn _
          · exact h.replace hn (by simp)
          · exact h

end stacked

theorem Cursor.feed_normal {c : Cursor} {b : UInt8} {ahead : Option UInt8} (h : (c.feed b ahead).2 = true)
    (hn : c.region = .normal) : c.feed b ahead = (c, true) := by
  have hr := (Cursor.feed_live h).1
  cases ho : Cursor.opening? b ahead with
  | some found => simp [Cursor.feed, hr, hn, ho] at h
  | none => simp [Cursor.feed, hr, hn, ho]

theorem Cursor.normal_of_feed {c : Cursor} {b : UInt8} {ahead : Option UInt8} (h : (c.feed b ahead).2 = true)
    (hn : (c.feed b ahead).1.region = .normal) : c.region = .normal := by
  obtain ⟨hr, hcode, -⟩ := Cursor.feed_live h
  cases hc : c.region with
  | normal => rfl
  | hole depth =>
    exfalso
    cases ho : Cursor.opening? b ahead with
    | some found => simp [Cursor.feed, hr, hc, ho] at h
    | none =>
      simp only [Cursor.feed, hr, hc, ho, Cursor.inHole] at h hn
      split_ifs at h hn
      · simp [hc] at hn
  | _ => simp [hc, Region.isCode] at hcode

/-! ## Tags and the walk in step -/

namespace Attribute

/-- the region inside `depth` braces of region `r` -/
def nested (r : Region) (depth : Nat) : Region :=
  match r with
  | .hole n => .hole (n + depth)
  | r => r

theorem nested_isCode {r : Region} (h : r.isCode = true) (depth : Nat) : (nested r depth).isCode = true := by
  cases r with
  | hole => rfl
  | _ => exact h

theorem nested_zero (r : Region) : nested r 0 = r := by
  cases r <;> rfl

theorem nested_nested (r : Region) (m n : Nat) : nested (nested r m) n = nested r (m + n) := by
  cases r <;> simp [nested, Nat.add_assoc]

/-- a scan that may come to a tag: in live code, and in no mark -/
structure Ready (c : Cursor) : Prop where
  rest : c.rest = .nothing
  code : c.region.isCode = true
  deep : c.region ≠ .hole 0

/-- the reader has read as the walk has, whose state is `c` -/
inductive Tracks : Reader → Cursor → Prop
  | code (c : Cursor) : Tracks ⟨c, .code⟩ c
  | tag {c : Cursor} (h : Ready c) : Tracks ⟨c, .tag none⟩ c
  | value {c : Cursor} (h : Ready c) {q : UInt8} {r : Region}
    (hq : (q = ascii '\'' ∧ r = .singleQuoted) ∨ (q = ascii '"' ∧ r = .doubleQuoted)) :
    Tracks ⟨c, .tag (some q)⟩ (c.enter r .nothing)
  | braces {outer inner c : Cursor} (h : Ready outer) {depth : Nat} (hd : 0 < depth)
    (ho : Over (nested outer.region depth) outer.suspended inner c) : Tracks ⟨outer, .braces inner depth⟩ c

/-- byte `b` of a tag, with `ahead` the byte after it, is nothing that the tag reads otherwise than a walk does -/
def isPlain (r : Reader) (b : UInt8) (ahead : Option UInt8) : Bool :=
  match r.reading with
  | .tag none =>
    b != 0x60 && (b != ascii '}' || r.outer.region == .normal) &&
      !(b == ascii '/' && (ahead == some (ascii '/') || ahead == some (ascii '*')))
  | .tag (some _) => b != ascii '\\' && b != ascii '\n'
  | _ => true

/-- live code that no mark and no brace interrupts goes on -/
theorem Ready.feed_code {c : Cursor} (h : Ready c) {b : UInt8} {ahead : Option UInt8}
    (ho : Cursor.opening? b ahead = none) (h1 : b ≠ ascii '{') (h2 : b = ascii '}' → c.region = .normal) :
    c.feed b ahead = (c, true) := by
  cases hc : c.region with
  | normal => simp [Cursor.feed, h.rest, hc, ho]
  | hole depth =>
    have h2' : b ≠ ascii '}' := by
      intro hb
      simp [hc] at h2
      exact h2 hb
    simp [Cursor.feed, h.rest, hc, ho, Cursor.inHole, h1, h2']
  | _ => simpa [hc, Region.isCode] using h.code

theorem Ready.feed_open {c : Cursor} (h : Ready c) (ahead : Option UInt8) :
    (c.feed (ascii '{') ahead).1 = ⟨nested c.region 1, c.suspended, .nothing⟩ := by
  have ho : Cursor.opening? (ascii '{') ahead = none := by simp +decide [Cursor.opening?]
  cases hc : c.region with
  | normal => simp [Cursor.feed, h.rest, hc, ho, nested, Cursor.ext_iff]
  | hole depth => simp [Cursor.feed, h.rest, hc, ho, Cursor.inHole, nested]
  | _ => simpa [hc, Region.isCode] using h.code

theorem Ready.nested {c : Cursor} (h : Ready c) (depth : Nat) :
    Ready ⟨nested c.region depth, c.suspended, .nothing⟩ where
  rest := rfl
  code := nested_isCode h.code depth
  deep := by
    have := h.deep
    cases hc : c.region <;> simp_all [Attribute.nested]

theorem Ready.feed_close {c : Cursor} (h : Ready c) {depth : Nat} (hd : 0 < depth) (ahead : Option UInt8) :
    (Cursor.feed ⟨Attribute.nested c.region depth, c.suspended, .nothing⟩ (ascii '}') ahead).1 =
      ⟨Attribute.nested c.region (depth - 1), c.suspended, .nothing⟩ := by
  have ho : Cursor.opening? (ascii '}') ahead = none := by simp +decide [Cursor.opening?]
  have hne : ascii '}' ≠ ascii '{' := by decide
  cases hc : c.region with
  | normal => simp [Cursor.feed, ho, Attribute.nested]
  | hole n =>
    have hn : n ≠ 0 := by
      have := h.deep
      simpa [hc] using this
    have hmany : ¬ n + depth ≤ 1 := by omega
    simp only [Cursor.feed, ho, Attribute.nested, Cursor.inHole, if_neg hne, if_true, if_neg hmany]
    rw [Nat.add_sub_assoc hd]
  | _ => simpa [hc, Region.isCode] using h.code

theorem Ready.feed_quote {c : Cursor} (h : Ready c) {b : UInt8} {ahead : Option UInt8} {r : Region}
    (ho : Cursor.opening? b ahead = some (r, .nothing)) : (c.feed b ahead).1 = c.enter r .nothing := by
  cases hc : c.region with
  | normal | hole => simp [Cursor.feed, h.rest, hc, ho]
  | _ => simpa [hc, Region.isCode] using h.code

theorem tracks_inTag {c : Cursor} (h : Ready c) {b : UInt8} {ahead : Option UInt8}
    (hp : isPlain ⟨c, .tag none⟩ b ahead = true) : Tracks ⟨c, inTag b⟩ (c.feed b ahead).1 := by
  simp only [isPlain, Bool.and_eq_true, bne_iff_ne, Bool.or_eq_true, beq_iff_eq, Bool.not_eq_true',
    Bool.and_eq_false_iff, Bool.or_eq_false_iff, beq_eq_false_iff_ne] at hp
  obtain ⟨⟨hback, hclose⟩, hmark⟩ := hp
  have hnormal : b = ascii '}' → c.region = .normal := fun hb => hclose.resolve_left (not_not_intro hb)
  unfold inTag
  split_ifs with h1 h2 h3
  · have ho : Cursor.opening? b ahead = none := by rw [h1]; simp +decide [Cursor.opening?]
    rw [h.feed_code ho (by rw [h1]; decide) hnormal]
    exact .code c
  · rw [h2, h.feed_open ahead]
    exact .braces h Nat.one_pos (.ground .nothing)
  · rcases h3 with rfl | rfl
    · rw [h.feed_quote (r := .doubleQuoted) (by simp +decide [Cursor.opening?])]
      exact .value h (.inr ⟨rfl, rfl⟩)
    · rw [h.feed_quote (r := .singleQuoted) (by simp +decide [Cursor.opening?])]
      exact .value h (.inl ⟨rfl, rfl⟩)
  · rw [not_or] at h3
    have hslash : b = ascii '/' → ahead ≠ some (ascii '/') ∧ ahead ≠ some (ascii '*') := fun hb =>
      hmark.resolve_left (not_not_intro hb)
    have ho : Cursor.opening? b ahead = none := by
      unfold Cursor.opening?
      rw [if_neg fun hb => (hslash hb.1).1 hb.2, if_neg fun hb => (hslash hb.1).2 hb.2, if_neg h3.2, if_neg h3.1,
        if_neg hback]
    rw [h.feed_code ho h2 hnormal]
    exact .tag h

theorem tracks_value {c : Cursor} (h : Ready c) {q : UInt8} {r : Region}
    (hq : (q = ascii '\'' ∧ r = .singleQuoted) ∨ (q = ascii '"' ∧ r = .doubleQuoted)) {b : UInt8} {ahead : Option UInt8}
    (hp : isPlain ⟨c, .tag (some q)⟩ b ahead = true) :
    Tracks ⟨c, .tag (if b = q then none else some q)⟩ ((c.enter r .nothing).feed b ahead).1 := by
  simp only [isPlain, Bool.and_eq_true, bne_iff_ne] at hp
  have hfeed : ((c.enter r .nothing).feed b ahead).1 = if b = q then c else c.enter r .nothing := by
    have hback : (c.enter r .nothing).leave .nothing = c := Cursor.ext rfl rfl h.rest.symm
    rcases hq with ⟨rfl, rfl⟩ | ⟨rfl, rfl⟩ <;>
      simp only [Cursor.feed, Cursor.enter, Cursor.inQuotes, if_neg hp.1, or_iff_left hp.2] <;> split
    · exact hback
    · rfl
    · exact hback
    · rfl
  rw [hfeed]
  split
  · exact .tag h
  · exact .value h hq

theorem tracks_inBraces {outer inner c : Cursor} (h : Ready outer) {depth : Nat} (hd : 0 < depth)
    (ho : Over (nested outer.region depth) outer.suspended inner c) (b : UInt8) (ahead : Option UInt8) :
    Tracks ⟨outer, inBraces depth b (inner.feed b ahead)⟩ (c.feed b ahead).1 := by
  have hcode := nested_isCode h.code depth
  by_cases hground : (inner.feed b ahead).2 = true ∧ inner.region = .normal ∧ (b = ascii '{' ∨ b = ascii '}')
  · obtain ⟨hlive, hn, hb⟩ := hground
    have hfeed := Cursor.feed_normal hlive hn
    have hrest := (Cursor.feed_live hlive).1
    cases ho with
    | inside _ _ hr _ => exact absurd hn hr
    | ground rest =>
      subst hrest
      rw [hfeed]
      rcases hb with rfl | rfl
      · rw [(h.nested depth).feed_open ahead, nested_nested]
        exact .braces h (Nat.succ_pos depth) (.ground .nothing)
      · rw [h.feed_close hd ahead]
        have hne : (ascii '}' = ascii '{') = False := by decide
        simp only [inBraces, hne, and_false, if_false, and_self, if_true]
        split_ifs with hlast
        · have hzero : depth - 1 = 0 := Nat.sub_eq_zero_of_le hlast
          have hback : ⟨nested outer.region (depth - 1), outer.suspended, .nothing⟩ = outer :=
            Cursor.ext (by rw [hzero, nested_zero]) rfl h.rest.symm
          rw [hback]
          exact .tag h
        · exact .braces h (Nat.sub_pos_of_lt (Nat.lt_of_not_le hlast)) (.ground .nothing)
  · have hsame : inBraces depth b (inner.feed b ahead) = .braces (inner.feed b ahead).1 depth := by
      unfold inBraces
      rw [if_neg, if_neg]
      · intro hb
        exact hground ⟨hb.1, Cursor.normal_of_feed hb.1 hb.2.1, .inr hb.2.2⟩
      · intro hb
        exact hground ⟨hb.1, Cursor.normal_of_feed hb.1 hb.2.1, .inl hb.2.2⟩
    rw [hsame]
    refine .braces h hd (ho.feed hcode ?_)
    intro hlive hn
    exact not_or.1 fun hb => hground ⟨hlive, hn, hb⟩

/-- **One byte.** A reader that has read as the walk has does so on a plain byte. -/
theorem Tracks.feed {r : Reader} {c : Cursor} (h : Tracks r c) {limit : Nat}
    (hnested : Nested limit c.region c.suspended) {b : UInt8} {ahead : Option UInt8}
    (hp : isPlain r b ahead = true) : Tracks (r.feed b ahead) (c.feed b ahead).1 := by
  cases h with
  | code c =>
    simp only [Reader.feed]
    split_ifs with hopen
    · rw [Bool.and_eq_true] at hopen
      obtain ⟨-, -, hrest, hcode⟩ := Cursor.feed_live hopen.1
      refine .tag ⟨hrest, hcode, ?_⟩
      intro hzero
      have hnext := hnested.feed b ahead
      rw [hzero] at hnext
      exact absurd hnext.of_hole.1 (Nat.not_succ_le_zero 0)
    · exact .code _
  | tag h => exact tracks_inTag h hp
  | value h hq => exact tracks_value h hq hp
  | braces h hd ho => exact tracks_inBraces h hd ho b ahead

/-- the tags before offset `n` are plain -/
def PlainTags (src : Bytes) (n : Nat) : Prop :=
  ∀ k < n, src[k]?.all (fun b => isPlain (readerAt src k) b src[k + 1]?) = true

/-- **All bytes**, while the tags are plain. -/
theorem tracks_readerAt {src : Bytes} {n : Nat} (h : PlainTags src n) : Tracks (readerAt src n) (cursorAt src n) := by
  induction n with
  | zero => exact .code .start
  | succ n ih =>
    have ih := ih fun k hk => h k (Nat.lt_succ_of_lt hk)
    cases hb : src[n]? with
    | none => simpa only [readerAt, cursorAt, hb] using ih
    | some b =>
      have hplain := h n (Nat.lt_succ_self n)
      rw [hb, Option.all_some] at hplain
      rw [readerAt_succ hb, cursorAt_succ hb]
      exact ih.feed (nested_cursorAt src n) hplain

/-- between the attributes of a tag, with plain tags before it, the walk is in live code -/
theorem Marked.inCode {src : Bytes} {x : Nat} (h : Marked src x) (hp : PlainTags src x) : InCode src x := by
  have ht := tracks_readerAt hp
  have hread := h.1
  unfold InCode
  generalize readerAt src x = r, cursorAt src x = c at ht hread
  cases ht with
  | tag hready => exact ⟨hready.code, hready.rest⟩
  | _ => cases hread

end Attribute

/-- where live code is, bytes that no region minds are live -/
theorem live_of_inert {src : Bytes} {i j : Nat} (h : InCode src i)
    (hp : ∀ k, i ≤ k → k < j → src[k]?.any isInert = true) {k : Nat} (h1 : i ≤ k) (h2 : k < j) : Live src k := by
  obtain ⟨b, hb, hbi⟩ := (Option.any_eq_true _ _).1 (hp k h1 h2)
  have hcur := cursorAt_inert h.2 h1 fun m hm1 hm2 => hp m hm1 (Nat.lt_trans hm2 h2)
  rw [live_iff, liveAt_of_feed hb, hcur, Cursor.feed_inert h.2 hbi, h.1]
  simp

theorem inCode_of_live {src : Bytes} {k : Nat} (h : Live src k) : InCode src k := by
  obtain ⟨r, hr⟩ := Option.ne_none_iff_exists'.1 (live_iff.1 h)
  obtain ⟨hrest, hcode, -⟩ := liveAt_some hr
  exact ⟨hcode, hrest⟩

/-- **Attributes and what is live.** The rule records an edit just where its reader stands between the attributes of a
tag and `class=` stands as a whole name. The edit takes out live bytes only just when it begins in live code. It does,
if the tags before it are plain: no backquote and no comment in them, no brace that closes the hole they stand in, and
no backslash and no line end in a value. -/
theorem attribute_live_iff (src : Bytes) (e : Edit) :
    (e ∈ Attribute.edits src ↔
      ∃ x, Attribute.Marked src x ∧ e = ⟨.attribute, x, x + classMark.size, hostClassMark⟩) ∧
    (e ∈ Attribute.edits src →
      ((∀ k, e.start ≤ k → k < e.stop → Live src k) ↔ InCode src e.start) ∧
      (Attribute.PlainTags src e.start → ∀ k, e.start ≤ k → k < e.stop → Live src k)) := by
  refine ⟨Attribute.mem_edits_iff, ?_⟩
  intro he
  obtain ⟨x, hx, rfl⟩ := Attribute.mem_edits_iff.1 he
  have hinert : ∀ k, x ≤ k → k < x + classMark.size → src[k]?.any isInert = true := by
    intro k h1 h2
    have hall : ∀ n < 6, classMark[n]?.any isInert = true := by decide
    obtain ⟨n, rfl⟩ := Nat.exists_eq_add_of_le h1
    have hn : n < 6 := Nat.lt_of_add_lt_add_left h2
    rw [Attribute.getElem?_of_isClassMark hx.2 hn]
    exact hall n hn
  have hlive : InCode src x → ∀ k, x ≤ k → k < x + classMark.size → Live src k := by
    intro hcode k h1 h2
    exact live_of_inert hcode hinert h1 h2
  refine ⟨⟨?_, hlive⟩, fun hp => hlive (hx.inCode hp)⟩
  intro h
  exact inCode_of_live (h x (Nat.le_refl x) (Nat.lt_add_of_pos_right Attribute.classMark_pos))

/-- a tag in a template hole, with a brace expression and a value that holds `>` before the attribute -/
theorem attribute_live_iff_plain :
    ⟨.attribute, 18, 24, hostClassMark⟩ ∈ Attribute.edits (utf8 "`$\x7b<b s=\x7b1\x7d v='>' class=c>\x7d`") ∧
      ∀ k, 18 ≤ k → k < 24 → Live (utf8 "`$\x7b<b s=\x7b1\x7d v='>' class=c>\x7d`") k := by
  have hmarked : Attribute.Marked (utf8 "`$\x7b<b s=\x7b1\x7d v='>' class=c>\x7d`") 18 := by
    constructor <;> decide +kernel
  have hplain : Attribute.PlainTags (utf8 "`$\x7b<b s=\x7b1\x7d v='>' class=c>\x7d`") 18 := by
    unfold Attribute.PlainTags
    decide +kernel
  obtain ⟨hmem, hlive⟩ :=
    attribute_live_iff (utf8 "`$\x7b<b s=\x7b1\x7d v='>' class=c>\x7d`") ⟨.attribute, 18, 24, hostClassMark⟩
  have he := hmem.2 ⟨18, hmarked, rfl⟩
  exact ⟨he, (hlive he).2 hplain⟩

/-- `class=` in a template and in a comment, after what is read as a tag: both are spelled anew, and neither is live -/
theorem attribute_in_template :
    (⟨.attribute, 8, 14, hostClassMark⟩ ∈ Attribute.edits (utf8 "a <b ? `class=` : c") ∧
      ¬ Live (utf8 "a <b ? `class=` : c") 8) ∧
    (⟨.attribute, 6, 12, hostClassMark⟩ ∈ Attribute.edits (utf8 "<b /* class= */>") ∧
      ¬ Live (utf8 "<b /* class= */>") 6) := by
  simp only [Attribute.mem_edits_iff, live_iff]
  refine ⟨⟨⟨8, ?_, rfl⟩, by decide +kernel⟩, ⟨6, ?_, rfl⟩, by decide +kernel⟩
  · constructor <;> decide +kernel
  · constructor <;> decide +kernel

end Respell
