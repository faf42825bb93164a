/-
The tags of an output. The attribute rule reads an output as it reads the source (`Seam.reader`): what an edit takes out
and what it puts in both leave the reader where it is, but for what its scan waits for. There is one exception. Between
`warna` and `agar` line ends may go away, and the scan of a reader may be in a comment or a string that they close,
although the walk itself is in live code there. `ScansKept` rules this out.

Main result, `attribute_edits_respelled_iff`: the rule finds something to do on an output just where `varg` stands in a
tag of the source as an attribute name. It is spelled `class` first, and then anew.
-/
import Respell.Proofs.OutputWords
import Respell.Proofs.AttributeLiveness

namespace Respell

open Vocabulary

/-! ## Bytes that no reader minds -/

namespace Attribute

/-- the scan that moves while the rule reads; in a tag there is none -/
def Reader.scan (r : Reader) : Option Cursor :=
  match r.reading with
  | .code => some r.outer
  | .tag _ => none
  | .braces inner _ => some inner

def Reader.mapScan (f : Cursor → Cursor) (r : Reader) : Reader :=
  match r.reading with
  | .code => { r with outer := f r.outer }
  | .tag _ => r
  | .braces inner depth => { r with reading := .braces (f inner) depth }

theorem Reader.mapScan_eq_self {f : Cursor → Cursor} {r : Reader} (h : ∀ c, r.scan = some c → f c = c) :
    r.mapScan f = r := by
  obtain ⟨outer, reading⟩ := r
  cases reading with
  | code => simp [mapScan, h outer rfl]
  | tag => rfl
  | braces inner depth => simp [mapScan, h inner rfl]

theorem Reader.mapScan_congr {f g : Cursor → Cursor} {r : Reader} (h : ∀ c, r.scan = some c → f c = g c) :
    r.mapScan f = r.mapScan g := by
  obtain ⟨outer, reading⟩ := r
  cases reading with
  | code => simp [mapScan, h outer rfl]
  | tag => rfl
  | braces inner depth => simp [mapScan, h inner rfl]

theorem Reader.scan_mapScan (f : Cursor → Cursor) (r : Reader) : (r.mapScan f).scan = r.scan.map f := by
  obtain ⟨outer, reading⟩ := r
  cases reading <;> rfl

/-- values are in quotes -/
def Reader.Quoted (r : Reader) : Prop := ∀ quote, r.reading = .tag (some quote) → ImportLine.isQuote quote = true

theorem quoted_feed {r : Reader} (h : r.Quoted) (b : UInt8) (ahead : Option UInt8) : (r.feed b ahead).Quoted := by
  obtain ⟨outer, reading⟩ := r
  intro quote hq
  cases reading with
  | code =>
    simp only [Reader.feed] at hq
    split at hq <;> cases hq
  | tag value =>
    cases value with
    | none =>
      simp only [Reader.feed, inTag] at hq
      split_ifs at hq with h1 h2 h3
      · cases hq
        exact ImportLine.isQuote_iff.2 h3.symm
      · cases hq
    | some quote' =>
      simp only [Reader.feed] at hq
      split at hq
      · cases hq
      · cases hq
        exact h quote rfl
  | braces inner depth =>
    simp only [Reader.feed, inBraces] at hq
    split_ifs at hq
    cases hq

theorem quoted_readerAt (src : Bytes) (k : Nat) : (readerAt src k).Quoted := by
  induction k with
  | zero =>
    intro quote hq
    cases hq
  | succ k ih =>
    unfold readerAt
    split
    · exact ih
    · exact quoted_feed ih _ _

/-- a byte that opens and closes nothing in a tag moves the scan, and does nothing else -/
theorem Reader.feed_level {r : Reader} (hr : r.Quoted) {b : UInt8} (hb : isLevel b = true) (ahead : Option UInt8) :
    r.feed b ahead = r.mapScan fun c => (c.feed b ahead).1 := by
  simp only [isLevel, Bool.and_eq_true, bne_iff_ne, Bool.not_eq_true', ImportLine.isQuote, Bool.or_eq_false_iff,
    beq_eq_false_iff_ne] at hb
  obtain ⟨⟨⟨⟨h1, h2⟩, h3⟩, h4⟩, h5, h6⟩ := hb
  obtain ⟨outer, reading⟩ := r
  cases reading with
  | code => simp [feed, mapScan, beginsTag, h1]
  | tag value =>
    cases value with
    | none => simp [feed, mapScan, inTag, h2, h3, h5, h6]
    | some quote =>
      have hne : b ≠ quote := by
        rintro rfl
        have := hr b rfl
        simp [ImportLine.isQuote, h5, h6] at this
      simp [feed, mapScan, hne]
  | braces inner depth => simp [feed, mapScan, inBraces, h3, h4]

/-- the scan waits for nothing -/
def Reader.Settled (r : Reader) : Prop := ∀ c, r.scan = some c → c.rest = .nothing

/-- what a scan waits for is consumed -/
def settle (c : Cursor) : Cursor := { c with rest := .nothing }

theorem settled_settle (r : Reader) : (r.mapScan settle).Settled := by
  intro c hc
  rw [Reader.scan_mapScan] at hc
  obtain ⟨c', -, rfl⟩ := Option.map_eq_some_iff.1 hc
  rfl

theorem mapScan_settle {r : Reader} (h : r.Settled) : r.mapScan settle = r := by
  refine Reader.mapScan_eq_self ?_
  intro c hc
  exact Cursor.ext rfl rfl (h c hc).symm

section quiet

variable {src : Bytes} {i j : Nat}

/-- quiet bytes leave a reader that waits for nothing as it is -/
theorem readerAt_settled (h : (readerAt src i).Settled) (hij : i ≤ j)
    (hq : ∀ k, i ≤ k → k < j → src[k]?.any isQuiet = true) : readerAt src j = readerAt src i := by
  induction j, hij using Nat.le_induction with
  | base => rfl
  | succ j hij ih =>
    have ih := ih fun k h1 h2 => hq k h1 (Nat.lt_succ_of_lt h2)
    obtain ⟨b, hb, hquiet⟩ := (Option.any_eq_true _ _).1 (hq j hij (Nat.lt_succ_self j))
    obtain ⟨hinert, hlevel⟩ := Bool.and_eq_true _ _ ▸ hquiet
    rw [readerAt_succ hb, Reader.feed_level (quoted_readerAt src j) hlevel, ih]
    refine Reader.mapScan_eq_self ?_
    intro c hc
    rw [Cursor.feed_inert (h c hc) hinert]

/-- two quiet bytes or more consume what the scan waits for, and do nothing else -/
theorem readerAt_quiet (hij : i + 2 ≤ j) (hq : ∀ k, i ≤ k → k < j → src[k]?.any isQuiet = true) :
    readerAt src j = (readerAt src i).mapScan settle := by
  obtain ⟨b, hb, hquiet⟩ := (Option.any_eq_true _ _).1 (hq i (Nat.le_refl i) (by omega))
  obtain ⟨a, ha, hquiet'⟩ := (Option.any_eq_true _ _).1 (hq (i + 1) (by omega) (by omega))
  obtain ⟨hinert, hlevel⟩ := Bool.and_eq_true _ _ ▸ hquiet
  have hcont := (isInert_special a (Bool.and_eq_true _ _ ▸ hquiet').1).1
  have hnext : readerAt src (i + 1) = (readerAt src i).mapScan settle := by
    rw [readerAt_succ hb, Reader.feed_level (quoted_readerAt src i) hlevel, ha]
    refine Reader.mapScan_congr ?_
    intro c _
    cases hr : c.rest with
    | second => simp [Cursor.feed, hr, settle]
    | character => simp [Cursor.feed, hr, hcont, settle]
    | nothing =>
      rw [Cursor.feed_inert hr hinert]
      exact Cursor.ext rfl rfl hr
  rw [readerAt_settled (hnext ▸ settled_settle _) (Nat.le_of_succ_le hij) fun k h1 h2 => hq k (Nat.le_of_succ_le h1) h2,
    hnext]

/-- behind a quote that no character goes on, the scan waits for nothing -/
theorem settled_of_quote {k : Nat} (hq : src[k]?.any ImportLine.isQuote = true)
    (ha : src[k + 1]?.any isContinuation = false) : (readerAt src (k + 1)).Settled := by
  obtain ⟨b, hb, hbq⟩ := (Option.any_eq_true _ _).1 hq
  have hfeed := fun c => (Cursor.feed_quote (c := c) (ImportLine.isQuote_iff.1 hbq) ha).2
  have hspecial : b ≠ ascii '<' ∧ b ≠ ascii '{' ∧ b ≠ ascii '}' ∧ b ≠ ascii '>' := by
    rcases ImportLine.isQuote_iff.1 hbq with rfl | rfl <;> decide
  obtain ⟨h1, h2, h3, h4⟩ := hspecial
  rw [readerAt_succ hb]
  generalize readerAt src k = r
  obtain ⟨outer, reading⟩ := r
  intro c hc
  cases reading with
  | code =>
    simp [Reader.feed, beginsTag, h1, Reader.scan] at hc
    exact hc ▸ hfeed outer
  | tag value =>
    cases value with
    | none =>
      have hor : b = ascii '"' ∨ b = ascii '\'' := (ImportLine.isQuote_iff.1 hbq).symm
      simp [Reader.feed, inTag, h2, h4, hor, Reader.scan] at hc
    | some quote => simp [Reader.feed, Reader.scan] at hc
  | braces inner depth =>
    simp [Reader.feed, inBraces, h2, h3, Reader.scan] at hc
    exact hc ▸ hfeed inner

end quiet

end Attribute

/-! ## The reader at an edit -/

theorem Cursor.feed_lineFeed {c : Cursor} (h : c.rest = .nothing) (hc : c.region.endsWithLine = false)
    (ahead : Option UInt8) : (c.feed (ascii '\n') ahead).1 = c := by
  have ho : Cursor.opening? (ascii '\n') ahead = none := by simp +decide [Cursor.opening?]
  cases hr : c.region with
  | normal => simp [feed, h, hr, ho]
  | hole depth => simp +decide [feed, h, hr, ho, inHole]
  | blockComment => simp +decide [feed, h, hr]
  | template => simp +decide [feed, h, hr, inTemplate]
  | lineComment | singleQuoted | doubleQuoted => simp [hr, Region.endsWithLine] at hc

/-- `warna` and the `agar` behind it, which are spelled as one -/
structure Fused (src : Bytes) (a b n m : Nat) : Prop where
  word : LiveWord src a b
  text : src.extract a b = elseWord
  gap : Gap src b n
  next : IsWord src n m
  nextText : src.extract n m = ifWord

/-- between `warna` and `agar` no line end closes a comment or a string of the attribute rule's own scan -/
def ScansKept (src : Bytes) : Prop :=
  ∀ a b n m, Fused src a b n m → ∀ k, b ≤ k → k < n → src[k]? = some (ascii '\n') →
    ∀ c, (Attribute.readerAt src k).scan = some c → c.region.endsWithLine = false

namespace Attribute

variable {src : Bytes}

theorem isQuiet_of_isSpace : ∀ b, isSpace b = true → b = ascii '\n' ∨ isQuiet b = true := by
  intro b hb
  rcases isSpace_cases hb with rfl | rfl | rfl | rfl | rfl <;> decide

/-- whitespace leaves a reader that waits for nothing as it is, unless a line end closes what its scan is in -/
theorem readerAt_gap {i j : Nat} (h : (readerAt src i).Settled) (hg : Gap src i j)
    (hline : ∀ k, i ≤ k → k < j → src[k]? = some (ascii '\n') →
      ∀ c, (readerAt src k).scan = some c → c.region.endsWithLine = false) : readerAt src j = readerAt src i := by
  obtain ⟨hij, hspaces⟩ := hg
  induction j, hij using Nat.le_induction with
  | base => rfl
  | succ j hij ih =>
    have ih := ih (fun k h1 h2 => hline k h1 (Nat.lt_succ_of_lt h2)) fun k h1 h2 => hspaces k h1 (Nat.lt_succ_of_lt h2)
    obtain ⟨b, hb, hspace⟩ := (Option.any_eq_true _ _).1 (hspaces j hij (Nat.lt_succ_self j))
    rcases isQuiet_of_isSpace b hspace with rfl | hquiet
    · rw [readerAt_succ hb, Reader.feed_level (quoted_readerAt src j) (by decide)]
      rw [← ih]
      refine Reader.mapScan_eq_self ?_
      intro c hc
      exact Cursor.feed_lineFeed (h c (ih ▸ hc)) (hline j hij (Nat.lt_succ_self j) hb c hc) _
    · rw [← ih]
      refine readerAt_settled (ih ▸ h) (Nat.le_succ j) ?_
      intro k h1 h2
      rw [Nat.le_antisymm (Nat.le_of_lt_succ h2) h1, hb]
      exact hquiet

theorem isQuiet_of_inWord : ∀ b, inWord b = true → isInert b = true → isQuiet b = true := by decide +kernel

/-- the bytes of a word that no region minds are quiet -/
theorem quiet_of_harmless {i j : Nat} (hw : IsWord src i j) (hs : Harmless (src.extract i j)) :
    i + 2 ≤ j ∧ ∀ k, i ≤ k → k < j → src[k]?.any isQuiet = true := by
  obtain ⟨hsize, hinert⟩ := hs.inert hw.le_size
  refine ⟨hsize, ?_⟩
  intro k h1 h2
  obtain ⟨b, hb, hbw⟩ := (Option.any_eq_true _ _).1 (hw.inside k h1 h2)
  have hbi := hinert k h1 h2
  rw [hb] at hbi ⊢
  exact isQuiet_of_inWord b hbw hbi

theorem fixed_harmless : ∀ word ∈ [fromWord, elseWord, ifWord, className], Harmless word := by decide +kernel

theorem quiet_of_dropped {n m : Nat} (h : Dropped src n m) :
    n + 2 ≤ m + 2 ∧ ∀ k, n ≤ k → k < m + 2 → src[k]?.any isQuiet = true := by
  have hlt := h.lt
  refine ⟨by omega, ?_⟩
  intro k h1 h2
  by_cases hk : k < m
  · have hquiet : ∀ b, isBlank b = true → isQuiet b = true := by
      intro b hb
      rcases isBlank_cases hb with rfl | rfl <;> decide
    exact any_of_any hquiet (h.blank k h1 hk)
  · have hfrom : Harmless fromWord := fixed_harmless fromWord (by simp)
    exact (quiet_of_harmless h.word (h.text.symm ▸ hfrom)).2 k (Nat.le_of_not_lt hk) h2

/-- what an edit takes out consumes what the reader's scan waits for, and does nothing else -/
theorem readerAt_stop {e : Edit} (hn : ScansKept src) (h : Shape src e) :
    readerAt src e.stop = (readerAt src e.start).mapScan settle := by
  cases h with
  | word hw _ hs =>
    obtain ⟨hsize, hquiet⟩ := quiet_of_harmless hw hs
    exact readerAt_quiet hsize hquiet
  | @joined a b n m hw helse hg hnext hif =>
    have helse' : Harmless elseWord := fixed_harmless elseWord (by simp)
    have hif' : Harmless ifWord := fixed_harmless ifWord (by simp)
    obtain ⟨hsize, hquiet⟩ := quiet_of_harmless hw.toIsWord (helse.symm ▸ helse')
    have hword := readerAt_quiet hsize hquiet
    have hset : (readerAt src b).Settled := hword ▸ settled_settle _
    have hgap := readerAt_gap hset hg (hn a b n m ⟨hw, helse, hg, hnext, hif⟩)
    have hlast := readerAt_settled (hgap ▸ hset) (Nat.le_of_lt hnext.lt) (quiet_of_harmless hnext (hif.symm ▸ hif')).2
    calc readerAt src m
        = readerAt src n := hlast
      _ = readerAt src b := hgap
      _ = (readerAt src a).mapScan settle := hword
  | @classMark i hw hs he =>
    have hname : Harmless className := fixed_harmless className (by simp)
    obtain ⟨hsize, hquiet⟩ := quiet_of_harmless hw (hs.symm ▸ hname)
    refine readerAt_quiet (Nat.le_succ_of_le hsize) ?_
    intro k h1 h2
    rcases Nat.lt_succ_iff_lt_or_eq.1 h2 with h2 | rfl
    · exact hquiet k h1 h2
    · rw [he]
      decide
  | drop h =>
    obtain ⟨hsize, hquiet⟩ := quiet_of_dropped h
    exact readerAt_quiet hsize hquiet
  | closeDropped h =>
    obtain ⟨hsize, hquiet⟩ := quiet_of_dropped h
    -- an insertion reads nothing, and what stands before it has settled the scan
    have hset := readerAt_quiet hsize hquiet
    exact (mapScan_settle (hset ▸ settled_settle _)).symm
  | @close p hp hq he =>
    obtain ⟨k, rfl⟩ : ∃ k, p = k + 1 := ⟨p - 1, (Nat.sub_add_cancel hp).symm⟩
    exact (mapScan_settle (settled_of_quote hq he.not_continuation)).symm

/-- an edit that puts two bytes or more, or before which the scan waits for nothing -/
theorem two_le_or_settled {e : Edit} (h : Shape src e) : 2 ≤ (utf8 e.text).size ∨ (readerAt src e.start).Settled := by
  cases h with
  | word _ _ _ hh => exact .inl hh.1
  | joined => exact .inl (by rw [size_elseIf]; decide)
  | classMark => exact .inl (by rw [size_hostClassMark]; decide)
  | @drop n m h =>
    obtain ⟨k, rfl⟩ : ∃ k, n = k + 1 := ⟨n - 1, (Nat.sub_add_cancel h.pos).symm⟩
    exact .inr (settled_of_quote h.quote h.not_continuation)
  | closeDropped h =>
    obtain ⟨hsize, hquiet⟩ := quiet_of_dropped h
    exact .inr (readerAt_quiet hsize hquiet ▸ settled_settle _)
  | @close p hp hq he =>
    obtain ⟨k, rfl⟩ : ∃ k, p = k + 1 := ⟨p - 1, (Nat.sub_add_cancel hp).symm⟩
    exact .inr (settled_of_quote hq he.not_continuation)

theorem readerAt_put {e : Edit} {q : Nat} (h : PutAt src e q)
    (hr : readerAt (respelled src) q = readerAt src e.start) :
    readerAt (respelled src) (q + (utf8 e.text).size) = (readerAt src e.start).mapScan settle := by
  have hquiet : ∀ k, q ≤ k → k < q + (utf8 e.text).size → (respelled src)[k]?.any isQuiet = true := by
    intro k h1 h2
    obtain ⟨n, rfl⟩ := Nat.exists_eq_add_of_le h1
    have hn := Nat.lt_of_add_lt_add_left h2
    rw [h.get hn]
    exact any_of_all h.hostText.quiet hn
  rw [← hr]
  rcases two_le_or_settled h.shape with hsize | hset
  · exact readerAt_quiet (Nat.add_le_add_left hsize q) hquiet
  · rw [← hr] at hset
    rw [readerAt_settled hset (Nat.le_add_right q _) hquiet, mapScan_settle hset]

end Attribute

/-! ## First letters -/

section letters

variable {src : Bytes} {e : Edit}

theorem names_letter : ∀ table ∈ [keywords, callees, members], ∀ entry ∈ table,
    (utf8 entry.1)[0]?.any isLetter = true := by
  decide +kernel

theorem letter_of_spells {table : Table} (ht : table ∈ [keywords, callees, members]) {i j : Nat}
    {host : String} (hw : IsWord src i j) (hs : Keyword.Spells table (src.extract i j) host) :
    src[i]?.any isLetter = true := by
  obtain ⟨name, hmem, hname⟩ := hs
  rw [hw.getElem?_start hname.symm]
  exact names_letter table ht _ hmem

theorem letter_of_keyword (h : e ∈ Keyword.edits src) : src[e.start]?.any isLetter = true := by
  obtain ⟨i, j, last, host, hw, -, -, hsp, rfl⟩ := Keyword.mem_edits_iff.1 h
  cases hsp with
  | elseIf hx =>
    rw [hw.getElem?_start hx]
    decide
  | asyncFunction _ hx =>
    rw [hw.getElem?_start hx]
    decide
  | async _ hx =>
    rw [hw.getElem?_start hx]
    decide
  | callee _ _ _ hs => exact letter_of_spells (by simp) hw.toIsWord hs
  | keyword _ _ _ hs => exact letter_of_spells (by simp) hw.toIsWord hs

theorem letter_of_member (h : e ∈ Member.edits src) : src[e.start]?.any isLetter = true := by
  obtain ⟨i, j, host, -, -, hw, hs, rfl⟩ := Member.mem_edits_iff.1 h
  exact letter_of_spells (by simp) hw hs

theorem letter_of_attribute (h : e ∈ Attribute.edits src) : src[e.start]?.any isLetter = true := by
  obtain ⟨x, hx, rfl⟩ := Attribute.mem_edits_iff.1 h
  have hget : src[x]? = some (ascii 'c') := Attribute.getElem?_of_isClassMark hx.2 (by decide : 0 < 6)
  simp only [hget]
  decide

/-- an edit that puts one byte or none stands behind a quote or a word -/
theorem Shape.behind_of_size (h : Shape src e) (hsize : ¬ 2 ≤ (utf8 e.text).size) :
    ∃ k, k + 1 = e.start ∧ src[k]?.any closesSource = true := by
  cases h with
  | word _ _ _ hh => exact absurd hh.1 hsize
  | joined => exact absurd (by rw [size_elseIf]; decide) hsize
  | classMark => exact absurd (by rw [size_hostClassMark]; decide) hsize
  | @drop n m hd =>
    refine ⟨n - 1, Nat.sub_add_cancel hd.pos, ?_⟩
    exact any_of_any (by simp +contextual [closesSource]) hd.quote
  | closeDropped hd => exact (Shape.closeDropped hd).before_stop
  | close hp hq he => exact (Shape.close hp hq he).before_stop

/-- an import edit begins with a letter, or behind a quote or a word -/
theorem letter_of_import (h : e ∈ ImportLine.edits src) :
    src[e.start]?.any isLetter = true ∨ ∃ k, k + 1 = e.start ∧ src[k]?.any closesSource = true := by
  obtain ⟨hs, hrule⟩ := shape_of_import h
  cases hs with
  | @word rule i j host hw hr =>
    left
    simp only at hrule
    subst hrule
    have hword : src.extract i j = importWord ∨ src.extract i j = fromWord := by
      unfold ruleOf at hr
      split_ifs at hr
      assumption
    rcases hword with hx | hx
    · rw [hw.getElem?_start hx]
      decide
    · rw [hw.getElem?_start hx]
      decide
  | joined => cases hrule
  | classMark => cases hrule
  | drop hd => exact .inr (Shape.behind_of_size (.drop hd) (by rw [utf8_empty]; decide))
  | closeDropped hd => exact .inr (Shape.closeDropped hd).before_stop
  | close hp hq he => exact .inr (Shape.close hp hq he).before_stop

theorem letter_of_mem (h : e ∈ orderedEdits src) :
    src[e.start]?.any isLetter = true ∨ ∃ k, k + 1 = e.start ∧ src[k]?.any closesSource = true := by
  rcases mem_orderedEdits.1 h with h | h | h | h
  · exact letter_of_import h
  · exact .inl (letter_of_keyword h)
  · exact .inl (letter_of_attribute h)
  · exact .inl (letter_of_member h)

/-- the text of an edit begins with a letter, or the edit stands behind a quote or a word -/
theorem PutAt.letter {q : Nat} (h : PutAt src e q) :
    (utf8 e.text)[0]?.any isLetter = true ∨ ∃ k, k + 1 = e.start ∧ src[k]?.any closesSource = true := by
  by_cases hsize : 2 ≤ (utf8 e.text).size
  · exact .inl (any_of_any (by simp +contextual [startsHost]) (h.hostText.starts hsize))
  · exact .inr (h.shape.behind_of_size hsize)

/-- behind a kept `<` stands the same byte in both texts, or a letter in both -/
theorem Kept.behind_open {p q : Nat} (h : Kept src p q) (hb : src[p]? = some (ascii '<')) :
    (respelled src)[q + 1]? = src[p + 1]? ∨
      ((respelled src)[q + 1]?.any isLetter = true ∧ src[p + 1]?.any isLetter = true) := by
  obtain ⟨rest, hs, hsize, hrest⟩ := h
  have hbehind : ¬ ∃ k, k + 1 = p + 1 ∧ src[k]?.any closesSource = true := by
    rintro ⟨k, hk, hclose⟩
    obtain rfl := Nat.succ.inj hk
    rw [hb] at hclose
    cases hclose
  have hquote : ∀ k, k + 1 = p + 1 → src[k]?.any ImportLine.isQuote = false := by
    intro k hk
    obtain rfl := Nat.succ.inj hk
    rw [hb]
    decide
  rcases (hs.keep hsize hrest).ahead hquote with hkept | ⟨e, hput, he, -⟩ | ⟨h1, h2⟩
  · exact .inl hkept.get
  · have hsource := (letter_of_mem hput.mem).resolve_right (he ▸ hbehind)
    have htext := hput.letter.resolve_right (he ▸ hbehind)
    have hget : (respelled src)[q + 1]? = (utf8 e.text)[0]? := hput.get (lt_size_of_any htext)
    exact .inr ⟨hget ▸ htext, he ▸ hsource⟩
  · left
    rw [h1, h2]
    simp

end letters

/-! ## The reader along the output -/

namespace Attribute

variable {src : Bytes} {p q : Nat} {rest : List Edit}

theorem Reader.feed_congr {r : Reader} {b : UInt8} {ahead ahead' : Option UInt8}
    (hc : ∀ c : Cursor, c.feed b ahead = c.feed b ahead') (ht : beginsTag b ahead = beginsTag b ahead') :
    r.feed b ahead = r.feed b ahead' := by
  obtain ⟨outer, reading⟩ := r
  cases reading with
  | code => simp only [feed, hc, ht]
  | tag value => cases value <;> rfl
  | braces inner depth => simp only [feed, hc]

/-- a kept byte opens a tag in the output just when it opens one in the source -/
theorem beginsTag_kept (h : Kept src p q) {b : UInt8} (hb : src[p]? = some b) :
    beginsTag b (respelled src)[q + 1]? = beginsTag b src[p + 1]? := by
  by_cases hlt : b = ascii '<'
  · subst hlt
    have hopens : ∀ {o : Option UInt8}, o.any isLetter = true → beginsTag (ascii '<') o = true := by
      intro o ho
      obtain ⟨a, rfl, ha⟩ := (Option.any_eq_true _ _).1 ho
      simp [beginsTag, ha]
    rcases h.behind_open hb with hsame | ⟨htext, hsource⟩
    · rw [hsame]
    · rw [hopens htext, hopens hsource]
  · simp [beginsTag, beq_eq_false_iff_ne.2 hlt]

/-- **Along the output** the attribute rule reads as it does along the source. -/
theorem readerAt_seam (hn : ScansKept src) (h : Seam src p q rest) : readerAt (respelled src) q = readerAt src p := by
  induction h with
  | start => rfl
  | @keep p q rest h hlt hrest ih =>
    have hkept : Kept src p q := ⟨rest, h, hlt, hrest⟩
    have hb : src[p]? = some src[p] := by simp [hlt]
    rw [readerAt_succ hb, readerAt_succ (hkept.get.trans hb), ih]
    refine Reader.feed_congr ?_ (beginsTag_kept hkept hb)
    intro c
    exact (h.along.feed_kept hlt hrest c).2
  | @put q e rest h ih =>
    have hput : PutAt src e q := ⟨rest, h⟩
    rw [readerAt_put hput ih, readerAt_stop hn hput.shape]

/-! ## Attributes of the output -/

/-- bytes that keep `class=` behind them from being an attribute name -/
def joinsName (b : UInt8) : Bool := inWord b || b == ascii '-' || b == ascii ':'

theorem isClassMark_iff {i : Nat} : isClassMark src i = true ↔
    (∀ k < 6, src[i + k]? = classMark[k]?) ∧ ∃ k, k + 1 = i ∧ src[k]?.any joinsName = false := by
  constructor
  · intro h
    refine ⟨fun k hk => getElem?_of_isClassMark h hk, ?_⟩
    have hfirst : src[i]? = some (ascii 'c') := getElem?_of_isClassMark h (by decide : 0 < 6)
    simp only [isClassMark, Bool.and_eq_true, Bool.not_eq_true'] at h
    cases i with
    | zero =>
      rw [Nat.zero_sub, hfirst] at h
      cases h.2
    | succ k => exact ⟨k, rfl, h.2⟩
  · rintro ⟨hget, k, rfl, hprev⟩
    simp only [isClassMark, Bool.and_eq_true, beq_iff_eq, Bool.not_eq_true', Nat.add_sub_cancel]
    exact ⟨extract_eq hget, hprev⟩

/-- `varg` as an attribute name: a live word in a tag, with `=` behind it -/
structure ClassWord (src : Bytes) (i : Nat) : Prop where
  reading : (readerAt src i).reading = .tag none
  word : LiveWord src i (i + 4)
  text : src.extract i (i + 4) = utf8 "varg"
  after : src[i + 4]? = some (ascii '=')
  before : ∀ k, k + 1 = i → src[k]?.any joinsName = false

theorem vargs : ∀ entry ∈ keywords, entry.2 = "class" → entry.1 = "varg" := by decide

theorem not_callee_class : ∀ entry ∈ callees, entry.2 ≠ "class" ∧ entry.1 ≠ "varg" := by decide

theorem not_member_class : ∀ entry ∈ members, entry.2 ≠ "class" := by decide

/-- `class` is put for `varg` only -/
theorem live_of_class {e : Edit} (he : e ∈ orderedEdits src) (ht : e.text = "class") :
    LiveWord src e.start e.stop ∧ src.extract e.start e.stop = utf8 "varg" := by
  rcases mem_orderedEdits.1 he with h | h | h | h
  · have := text_of_import h
    rw [ht] at this
    simp at this
  · obtain ⟨i, j, last, host, hw, -, -, hsp, rfl⟩ := Keyword.mem_edits_iff.1 h
    cases hsp with
    | elseIf => simp at ht
    | asyncFunction => simp at ht
    | async => simp at ht
    | callee _ _ _ hs =>
      obtain ⟨name, hmem, -⟩ := hs
      exact absurd ht (not_callee_class _ hmem).1
    | keyword _ _ _ hs =>
      obtain ⟨name, hmem, hname⟩ := hs
      exact ⟨hw, hname.symm.trans (congrArg utf8 (vargs _ hmem ht))⟩
  · obtain ⟨x, -, rfl⟩ := mem_edits_iff.1 h
    simp [hostClassMark] at ht
  · obtain ⟨i, j, host, -, -, -, ⟨name, hmem, -⟩, rfl⟩ := Member.mem_edits_iff.1 h
    exact absurd ht (not_member_class _ hmem)

theorem class_of_live {i : Nat} (hw : LiveWord src i (i + 4)) (hx : src.extract i (i + 4) = utf8 "varg") :
    ⟨.keyword, i, i + 4, "class"⟩ ∈ orderedEdits src := by
  have ho : src[i]?.any opensWord = true := by
    rw [hw.getElem?_start hx]
    decide
  refine mem_orderedEdits.2 (.inr (.inl (Keyword.mem_edits_iff.2 ⟨i, i + 4, i + 4, "class", hw, ho, ?_, ?_, rfl⟩)))
  · intro hs
    exact absurd (hx.symm.trans hs.1) (by decide)
  · refine .keyword ?_ ?_ ?_ ⟨"varg", by decide, hx.symm⟩
    · intro he
      exact absurd (hx.symm.trans he.1) (by decide)
    · rw [hx]
      decide
    · rintro ⟨⟨host, name, hmem, hname⟩, -⟩
      exact (not_callee_class _ hmem).2 (utf8_inj (hname.trans hx))

theorem joinsName_of_closes : ∀ b, inWord b = false →
    (closesSource b = true → joinsName b = false) ∧ (closesHost b = true → joinsName b = false) := by
  decide +kernel

/-- before a word of the source, a byte joins names in the output just when one does in the source -/
theorem joinsName_seam (h : Seam src p q rest) (hw : src[p]?.any inWord = true) (hq : 0 < q) :
    (∃ k, k + 1 = q ∧ (respelled src)[k]?.any joinsName = false) ↔ ∀ k, k + 1 = p → src[k]?.any joinsName = false := by
  rcases h.prev with ⟨-, rfl⟩ | ⟨p', q', rfl, rfl, hkept⟩ | ⟨e, q', hput, rfl, rfl⟩
  · exact absurd hq (Nat.lt_irrefl 0)
  · simp only [Nat.add_right_cancel_iff, exists_eq_left, forall_eq, hkept.get]
  · -- an edit before a word ends with `=` in either text
    rcases hput.shape.right with hno | ⟨hbefore, n, b, hsize, hb, hbw⟩
    · rw [hno] at hw
      cases hw
    · have hn : n < (utf8 e.text).size := by rw [hsize]; exact Nat.lt_succ_self n
      have hclose := hput.hostText.closes
      rw [hsize, Nat.add_sub_cancel, hb] at hclose
      refine iff_of_true ⟨q' + n, by rw [hsize]; rfl, ?_⟩ ?_
      · rw [hput.get hn, hb]
        exact (joinsName_of_closes b hbw).2 hclose
      · intro k hk
        obtain ⟨k', hk', hclose'⟩ := hput.shape.before_stop
        obtain rfl : k = k' := Nat.succ.inj (hk.trans hk'.symm)
        obtain ⟨b', hb', hcb'⟩ := (Option.any_eq_true _ _).1 hclose'
        have hnot := hbefore k hk
        rw [hb'] at hnot ⊢
        exact (joinsName_of_closes b' hnot).1 hcb'

theorem reading_zero : (readerAt src 0).reading ≠ .tag none := by
  intro h
  cases h

theorem classMark_bytes : (∀ k < 5, classMark[k]? = className[k]?) ∧ classMark[5]? = some (ascii '=') := by decide

/-- an attribute that the rule finds in the output comes from `varg` -/
theorem classWord_of_marked (hn : ScansKept src) {x : Nat} (h : Marked (respelled src) x) : ∃ i, ClassWord src i := by
  obtain ⟨hw, hx, heq⟩ := isWord_of_classMark h.2
  obtain ⟨-, hbefore⟩ := isClassMark_iff.1 h.2
  have hpos : 0 < x := by
    obtain ⟨k, rfl, -⟩ := hbefore
    exact Nat.succ_pos k
  have hlen : x + 5 - x = 5 := Nat.add_sub_cancel_left x 5
  rcases word_origin hw with ⟨p, hword, hkept, htext⟩ | ⟨e, q, n, hput, rfl, hword, htext⟩
  · -- a kept `class=` would have been spelled anew
    exfalso
    obtain ⟨rest, hs⟩ := seam_behind_word hw.lt hkept
    obtain ⟨k, hk, hkw⟩ := hword.last
    have hlast := hs.kept_of_passive ⟨k, hk, isPassive_of_inWord hkw⟩ heq (by decide)
    have hfirst : Kept src p x := hkept 0 (by omega)
    obtain ⟨rest', hs', -⟩ := id hfirst
    rw [hlen] at hword hkept hlast
    have hmark : Marked src p := by
      refine ⟨by rw [← readerAt_seam hn hs']; exact h.1, isClassMark_iff.2 ⟨?_, ?_⟩⟩
      · intro k hk
        rw [← getElem?_of_isClassMark h.2 hk]
        rcases Nat.lt_succ_iff_lt_or_eq.1 hk with hk | rfl
        · exact (hkept k hk).get.symm
        · exact hlast.get.symm
      · have hjoin := (joinsName_seam hs' hword.first hpos).1 hbefore
        rcases hs'.prev with ⟨-, rfl⟩ | ⟨p', q', rfl, -, -⟩ | ⟨e, q', he, rfl, -⟩
        · exact absurd hpos (Nat.lt_irrefl 0)
        · exact ⟨p', rfl, hjoin p' rfl⟩
        · obtain ⟨k, hk, -⟩ := he.shape.before_stop
          exact ⟨k, hk, hjoin k hk⟩
    have hedit := mem_edits_iff.2 ⟨p, hmark, rfl⟩
    exact hfirst.not_covered (mem_orderedEdits.2 (.inr (.inr (.inl hedit))))
      ⟨Nat.le_refl p, Nat.lt_add_of_pos_right classMark_pos⟩
  · -- written by an edit: the one that spells the live word `varg`
    rw [hlen] at hword htext
    have hclass : utf8 e.text = className := (hput.hostWord hword).mark (htext.trans hx)
    have hsize : (utf8 e.text).size = 5 := by
      rw [hclass]
      decide
    have hzero : n = 0 := by
      have := hword.le_size
      omega
    subst hzero
    obtain ⟨hlive, hvarg⟩ := live_of_class hput.mem (utf8_inj hclass)
    have hstop : e.stop = e.start + 4 := by
      have hsz := congrArg Array.size hvarg
      have hfour : (utf8 "varg").size = 4 := by decide
      rw [Array.size_extract, Nat.min_eq_left hlive.le_size, hfour] at hsz
      have := hlive.lt
      omega
    obtain ⟨rest, hs⟩ := id hput
    obtain ⟨k, hk, hkw⟩ := hlive.last
    rw [Nat.add_zero] at h heq hbefore hpos
    have hafter := hs.put.kept_of_passive ⟨k, hk, isPassive_of_inWord hkw⟩ (hsize ▸ heq) (by decide)
    rw [hsize] at hafter
    rw [hstop] at hlive hvarg hafter
    refine ⟨e.start, by rw [← readerAt_seam hn hs]; exact h.1, hlive, hvarg, hafter.get.symm.trans heq, ?_⟩
    exact (joinsName_seam hs hlive.first hpos).1 hbefore

theorem marked_of_classWord (hn : ScansKept src) {i : Nat} (h : ClassWord src i) : ∃ x, Marked (respelled src) x := by
  obtain ⟨q, hput⟩ := exists_putAt (class_of_live h.word h.text) h.word.lt
  obtain ⟨rest, hs⟩ := id hput
  have hreader := readerAt_seam hn hs
  have hsize : (utf8 "class").size = 5 := by decide
  have hpos : 0 < q := by
    rcases Nat.eq_zero_or_pos q with rfl | hpos
    · exact absurd (hreader ▸ h.reading) reading_zero
    · exact hpos
  have hafter : (respelled src)[q + 5]? = some (ascii '=') := by
    have hnext := hs.put
    rw [hsize] at hnext
    rcases hnext.next with hkept | ⟨e, rest', rfl, he⟩ | ⟨-, hend, -⟩
    · exact hkept.get.trans h.after
    · have hne := (hnext.along.shape e List.mem_cons_self).start_ne (b := ascii '=') (by decide) (by decide)
      rw [he] at hne
      exact absurd h.after hne
    · have hat := h.after
      rw [show i + 4 = src.size from hend] at hat
      simp at hat
  refine ⟨q, by rw [hreader]; exact h.reading, isClassMark_iff.2 ⟨?_, ?_⟩⟩
  · intro k hk
    rcases Nat.lt_succ_iff_lt_or_eq.1 hk with hk | rfl
    · rw [classMark_bytes.1 k hk]
      exact hput.get (hsize.symm ▸ hk)
    · rw [classMark_bytes.2]
      exact hafter
  · exact (joinsName_seam hs h.word.first hpos).2 h.before

/-- **Attributes, again.** On an output the attribute rule records something just where `varg` is an attribute name. -/
theorem attribute_edits_respelled_iff (hn : ScansKept src) :
    edits (respelled src) = [] ↔ ∀ i, ¬ ClassWord src i := by
  constructor
  · intro hnil i h
    obtain ⟨x, hx⟩ := marked_of_classWord hn h
    have hmem := mem_edits_iff.2 ⟨x, hx, rfl⟩
    rw [hnil] at hmem
    cases hmem
  · intro hno
    rw [List.eq_nil_iff_forall_not_mem]
    intro e he
    obtain ⟨x, hx, -⟩ := mem_edits_iff.1 he
    obtain ⟨i, hi⟩ := classWord_of_marked hn hx
    exact hno i hi

end Attribute

end Respell
