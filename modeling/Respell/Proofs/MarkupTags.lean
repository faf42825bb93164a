/-
Tags with their attributes, and how the attribute rule reads them. The parts of a tag carry the proofs that they are
well formed, so that every `Tag` is. A brace expression is one whose end the rule's own scan finds at its last brace;
it does not matter in which text (`endOfBraces_remains_iff`).

`TagPart` says what reading a tag does over some bytes, and what the edits for the marks that it finds write in the
place of these bytes. Such statements are put together part by part, so that the proofs follow the tag. What has to be
shown of each part is where `class=` stands in it: nowhere in quotes and braces, since these are passed over; nowhere
in a name that is not `class` or that has no value (`name_of_isClassMark`); and at the beginning of an attribute
`class` that has one.

Main result, `tagPart_inside`: a tag is read to its last byte, and what is found renames the attributes `class` with a
value.
-/
import Respell.Proofs.BraceScans
import Respell.Proofs.Documents
import Respell.Proofs.OutputTags

namespace Respell.Markup

open Vocabulary Attribute

/-! ## Tags -/

/-- bytes of tag names: those of attribute names (`joinsName`), which are the bytes of words, `-` and `:`, and `.` -/
def inTagName (b : UInt8) : Bool := joinsName b || b == ascii '.'

/-- a brace expression, which is found to end at its last brace. One more byte stands behind it here, since a scan that
finds no end runs to the end of the text. -/
structure Braces where
  code : List UInt8
  closes : endOfBraces (ascii '{' :: (code ++ [ascii '}', ascii '>'])).toArray 0 = code.length + 2

/-- the value of an attribute; a quoted text does not hold its own quote -/
inductive Value where
  | quoted (quote : Document.Quote) (text : List UInt8) (free : ascii quote.char ∉ text)
  | braces (e : Braces)

/-- what parts an attribute from what stands before it -/
structure Gap where
  bytes : List UInt8
  spaces : ∀ b ∈ bytes, isSpace b = true
  ne_nil : bytes ≠ []

structure AttrName where
  bytes : List UInt8
  joins : ∀ b ∈ bytes, joinsName b = true
  ne_nil : bytes ≠ []
deriving DecidableEq

inductive Attr where
  | named (gap : Gap) (name : AttrName) (value : Option Value)
  | braces (gap : Gap) (e : Braces)

structure TagName where
  first : UInt8
  rest : List UInt8
  opens : isLetter first = true ∨ first = ascii '_'
  continues : ∀ b ∈ rest, inTagName b = true

/-- an opening or self-closing tag; whitespace may stand before its end -/
structure Tag where
  name : TagName
  attrs : List Attr
  trail : List UInt8
  spaces : ∀ b ∈ trail, isSpace b = true
  selfClosing : Bool

/-! ## Rendering -/

def Braces.render (e : Braces) : List UInt8 := ascii '{' :: (e.code ++ [ascii '}'])

def Value.render : Value → List UInt8
  | .quoted quote text _ => ascii quote.char :: (text ++ [ascii quote.char])
  | .braces e => e.render

def Attr.render : Attr → List UInt8
  | .named gap name none => gap.bytes ++ name.bytes
  | .named gap name (some value) => gap.bytes ++ name.bytes ++ ascii '=' :: value.render
  | .braces gap e => gap.bytes ++ e.render

def TagName.render (name : TagName) : List UInt8 := name.first :: name.rest

/-- what stands between the attributes of a tag and its last byte -/
def Tag.ending (t : Tag) : List UInt8 := t.trail ++ if t.selfClosing then [ascii '/'] else []

def Tag.inside (t : Tag) : List UInt8 := t.name.render ++ (t.attrs.flatMap Attr.render ++ t.ending)

def Tag.render (t : Tag) : List UInt8 := ascii '<' :: (t.inside ++ [ascii '>'])

/-! ## Renaming -/

def classAttr : AttrName := ⟨(utf8 "class").toList, List.all_eq_true.1 (by decide), by decide⟩

def hostClassAttr : AttrName := ⟨(utf8 "className").toList, List.all_eq_true.1 (by decide), by decide⟩

/-- an attribute `class` with a value is called `className` -/
def Attr.renamed : Attr → Attr
  | .named gap name (some value) => .named gap (if name = classAttr then hostClassAttr else name) (some value)
  | .named gap name none => .named gap name none
  | .braces gap e => .braces gap e

def Tag.renamed (t : Tag) : Tag := { t with attrs := t.attrs.map Attr.renamed }

/-! ## What is left of a text -/

structure Remains (src : Bytes) (p : Nat) (rest : List UInt8) : Prop where
  le : p ≤ src.size
  drop : src.toList.drop p = rest

variable {src : Bytes} {p j : Nat} {b : UInt8} {xs rest : List UInt8}

theorem Remains.start (xs : List UInt8) : Remains xs.toArray 0 xs := ⟨Nat.zero_le _, rfl⟩

theorem Remains.append (h : Remains src p (xs ++ rest)) : Remains src (p + xs.length) rest := by
  refine ⟨?_, drop_add_of_drop h.drop⟩
  have hle := h.le
  have hlength := congrArg List.length h.drop
  rw [List.length_drop, Array.length_toList, List.length_append] at hlength
  omega

theorem Remains.cons (h : Remains src p (b :: rest)) : Remains src (p + 1) rest :=
  (show Remains src p ([b] ++ rest) from h).append

theorem Remains.head (h : Remains src p (b :: rest)) : src[p]? = some b := getElem?_of_drop h.drop

/-! ## What edits write -/

/-- where `xs` stands at `p`, the edits write `ys`, whatever edits follow behind it -/
structure Writes (src : Bytes) (p : Nat) (xs : List UInt8) (edits : List Edit) (ys : List UInt8) : Prop where
  starts : ∀ e ∈ edits, p ≤ e.start
  eq : ∀ later : List Edit, (∀ e ∈ later, p + xs.length ≤ e.start) →
    written src (pieces src p (edits ++ later)) = ys ++ written src (pieces src (p + xs.length) later)

theorem Writes.kept (h : Remains src p (xs ++ rest)) : Writes src p xs [] xs := by
  refine ⟨by simp, fun later hlater => ?_⟩
  rw [List.nil_append, written_pieces_keep (Nat.le_add_right p xs.length) h.append.le hlater, extract_of_drop h.drop]

theorem Writes.put (rule : Rule) (text : String) :
    Writes src p xs [⟨rule, p, p + xs.length, text⟩] (utf8 text).toList := by
  refine ⟨by simp, fun later _ => ?_⟩
  simp [written_pieces_cons]

theorem Writes.append {xs' ys ys' : List UInt8} {edits edits' : List Edit} (h : Writes src p xs edits ys)
    (h' : Writes src (p + xs.length) xs' edits' ys') : Writes src p (xs ++ xs') (edits ++ edits') (ys ++ ys') := by
  constructor
  · intro e he
    rcases List.mem_append.1 he with he | he
    · exact h.starts e he
    · exact Nat.le_trans (Nat.le_add_right _ _) (h'.starts e he)
  · intro later hlater
    rw [List.length_append, ← Nat.add_assoc] at hlater ⊢
    have hnext : ∀ e ∈ edits' ++ later, p + xs.length ≤ e.start := by
      intro e he
      rcases List.mem_append.1 he with he | he
      · exact h'.starts e he
      · exact Nat.le_trans (Nat.le_add_right _ _) (hlater e he)
    rw [List.append_assoc, h.eq _ hnext, h'.eq later hlater, List.append_assoc]

/-! ## Reading a tag -/

/-- how the rule replaces a `class=` -/
def markEdit (x : Nat) : Edit := ⟨.attribute, x, x + classMark.size, hostClassMark⟩

/-- a tag that is read at `j`, outside quotes, is read on behind `xs` in the same way; what is found in between makes
`ys` of `xs` -/
structure TagPart (src : Bytes) (j : Nat) (xs : List UInt8) (marks : List Nat) (ys : List UInt8) : Prop where
  found : tag src none j = (marks ++ (tag src none (j + xs.length)).1, (tag src none (j + xs.length)).2)
  writes : Writes src j xs (marks.map markEdit) ys

theorem TagPart.append {xs' ys ys' : List UInt8} {marks marks' : List Nat} (h : TagPart src j xs marks ys)
    (h' : TagPart src (j + xs.length) xs' marks' ys') : TagPart src j (xs ++ xs') (marks ++ marks') (ys ++ ys') := by
  constructor
  · rw [h.found, h'.found, List.length_append, List.append_assoc, Nat.add_assoc]
  · rw [List.map_append]
    exact h.writes.append h'.writes

theorem TagPart.kept (h : Remains src j (xs ++ rest)) (htag : tag src none j = tag src none (j + xs.length)) :
    TagPart src j xs [] xs := ⟨htag, Writes.kept h⟩

theorem tag_of_plain (hb : src[j]? = some b) (hplain : inTag b = .tag none) (hmark : isClassMark src j = false) :
    tag src none j = tag src none (j + 1) := by
  obtain ⟨hlt, rfl⟩ := Array.getElem?_eq_some_iff.1 hb
  unfold inTag at hplain
  rw [tag, dif_pos hlt]
  split_ifs at hplain with h1 h2 h3
  · cases hplain
  · simp only [if_neg h1, if_neg h2, if_neg h3, hmark]
    rfl

theorem tagPart_byte (h : Remains src j (b :: rest)) (hplain : inTag b = .tag none) (hne : b ≠ ascii 'c') :
    TagPart src j [b] [] [b] :=
  .kept h (tag_of_plain h.head hplain (isClassMark_of_ne h.head hne))

theorem tagPart_plain (h : Remains src j (xs ++ rest)) (hplain : ∀ b ∈ xs, inTag b = .tag none)
    (hmark : ∀ k < xs.length, isClassMark src (j + k) = false) : TagPart src j xs [] xs := by
  induction xs generalizing j with
  | nil => exact .kept h rfl
  | cons b xs ih =>
    have hfirst : TagPart src j [b] [] [b] :=
      .kept h (tag_of_plain h.head (hplain b List.mem_cons_self) (hmark 0 (Nat.succ_pos _)))
    refine hfirst.append (ih h.cons (fun x hx => hplain x (List.mem_cons_of_mem b hx)) fun k hk => ?_)
    rw [List.length_singleton, Nat.add_assoc, Nat.add_comm 1]
    exact hmark (k + 1) (Nat.succ_lt_succ hk)

theorem tag_of_quoted {quote : UInt8} (h : Remains src j (xs ++ quote :: rest)) (hfree : quote ∉ xs) :
    tag src (some quote) j = tag src none (j + xs.length + 1) := by
  induction xs generalizing j with
  | nil =>
    obtain ⟨hlt, hb⟩ := Array.getElem?_eq_some_iff.1 h.head
    rw [tag, dif_pos hlt]
    simp [hb]
  | cons b xs ih =>
    obtain ⟨hlt, hb⟩ := Array.getElem?_eq_some_iff.1 h.head
    rw [List.mem_cons, not_or] at hfree
    rw [tag, dif_pos hlt]
    simp only [hb, if_neg (Ne.symm hfree.1)]
    rw [ih h.cons hfree.2, List.length_cons, Nat.add_assoc j 1, Nat.add_comm 1]

theorem tagPart_quoted {quote : Document.Quote} {text : List UInt8} (free : ascii quote.char ∉ text)
    (h : Remains src j ((Value.quoted quote text free).render ++ rest)) :
    TagPart src j (Value.quoted quote text free).render [] (Value.quoted quote text free).render := by
  refine .kept h ?_
  obtain ⟨hlt, hb⟩ := Array.getElem?_eq_some_iff.1 h.head
  have hopen : tag src none j = tag src (some (ascii quote.char)) (j + 1) := by
    rw [tag, dif_pos hlt]
    cases quote <;> simp +decide [hb, Document.Quote.char]
  have hnext : Remains src (j + 1) (text ++ ascii quote.char :: rest) := by simpa using h.cons
  have hlength : j + (Value.quoted quote text free).render.length = j + 1 + text.length + 1 := by
    simp only [Value.render, List.length_cons, List.length_append, List.length_nil]
    omega
  rw [hopen, tag_of_quoted hnext free, hlength]

/-- **A brace expression is one wherever it stands:** it is found to end at its last brace in a text, with some byte
behind it, just when it can be made a `Braces`. -/
theorem endOfBraces_remains_iff {code : List UInt8} {c : UInt8}
    (h : Remains src j (ascii '{' :: (code ++ ascii '}' :: c :: rest))) :
    endOfBraces src j = j + (code.length + 2) ↔
      endOfBraces (ascii '{' :: (code ++ [ascii '}', ascii '>'])).toArray 0 = code.length + 2 := by
  have hwhole : Remains src j (ascii '{' :: (code ++ [ascii '}']) ++ c :: rest) := by simpa using h
  have hlength : (ascii '{' :: (code ++ [ascii '}'])).length = code.length + 2 := by simp
  have halone : ascii '{' :: (code ++ [ascii '}', ascii '>']) = ascii '{' :: (code ++ [ascii '}']) ++ [ascii '>'] := by
    simp
  have hend : j + (code.length + 2) < src.size := by
    have hbehind := hwhole.append.cons.le
    rwa [hlength] at hbehind
  have halike : Alike src (ascii '{' :: (code ++ [ascii '}', ascii '>'])).toArray j 0 (code.length + 2) := by
    refine ⟨Nat.le_of_lt hend, by simp, fun k hk => ?_, fun k hk => ?_⟩
    · rw [← hlength] at hk
      rw [getElem?_append_of_drop hwhole.drop hk, halone, Nat.zero_add, List.getElem?_toArray,
        List.getElem?_append_left hk]
    · obtain rfl : k = code.length + 1 := Nat.succ_inj.1 hk
      rw [getElem?_append_of_drop hwhole.drop (by simp)]
      simp
  simpa using halike.endOfBraces_iff (Nat.succ_pos _) hend (by simp)

-- a tag inside the expression, and a brace inside quotes
example : endOfBraces (utf8 "\x7b<i class='\x7d'/>\x7d>") 0 = 16 := by decide +kernel

theorem tagPart_braces (e : Braces) {c : UInt8} (h : Remains src j (e.render ++ c :: rest)) :
    TagPart src j e.render [] e.render := by
  have hlength : e.render.length = e.code.length + 2 := by simp [Braces.render]
  have hend : endOfBraces src j = j + e.render.length := by
    rw [hlength]
    exact (endOfBraces_remains_iff (by simpa [Braces.render] using h)).2 e.closes
  refine .kept h ?_
  rw [← hend]
  obtain ⟨hlt, hb⟩ := Array.getElem?_eq_some_iff.1 h.head
  rw [tag, dif_pos hlt]
  simp +decide only [hb, if_true, if_false]

theorem tagPart_value (value : Value) {c : UInt8} (h : Remains src j (value.render ++ c :: rest)) :
    TagPart src j value.render [] value.render := by
  cases value with
  | quoted quote text free => exact tagPart_quoted free h
  | braces e => exact tagPart_braces e h

/-! ## Names in a tag -/

theorem inTag_of_isSpace {b : UInt8} (h : isSpace b = true) : inTag b = .tag none := by
  rcases isSpace_cases h with rfl | rfl | rfl | rfl | rfl <;> decide

theorem inTag_of_inTagName {b : UInt8} (h : inTagName b = true) : inTag b = .tag none := by
  have hne : ∀ {c : UInt8}, inTagName c = false → b ≠ c := by
    intro c hc heq
    rw [heq, hc] at h
    cases h
  have hquote : ¬ (b = ascii '"' ∨ b = ascii '\'') := not_or.2 ⟨hne (by decide), hne (by decide)⟩
  rw [inTag, if_neg (hne (by decide)), if_neg (hne (by decide)), if_neg hquote]

theorem inTagName_of_joinsName (h : joinsName b = true) : inTagName b = true := by simp [inTagName, h]

/-- where a name begins, `class=` stands if the name is `class` and has a value -/
theorem name_of_isClassMark {name : List UInt8} {c : UInt8} (h : Remains src j (name ++ c :: rest))
    (hname : ∀ b ∈ name, inTagName b = true) (hc : inTagName c = false) (hmark : isClassMark src j = true) :
    name = classAttr.bytes ∧ c = ascii '=' := by
  have hextract : src.extract j (j + 6) = classMark := by
    simp only [isClassMark, Bool.and_eq_true, beq_iff_eq] at hmark
    exact hmark.1
  have hbegins : (src.toList.drop j).take 6 = classAttr.bytes ++ [ascii '='] := by
    have := congrArg Array.toList hextract
    rw [Array.toList_extract, List.extract_eq_take_drop, Nat.add_sub_cancel_left] at this
    exact this
  have heq : name ++ c :: rest = classAttr.bytes ++ ascii '=' :: (src.toList.drop j).drop 6 :=
    calc name ++ c :: rest = (src.toList.drop j).take 6 ++ (src.toList.drop j).drop 6 := by
          rw [List.take_append_drop, h.drop]
      _ = classAttr.bytes ++ ascii '=' :: (src.toList.drop j).drop 6 := by rw [hbegins, List.append_assoc]; rfl
  -- both sides are names up to the first byte that is no name byte
  have hnames := congrArg (List.takeWhile inTagName) heq
  rw [List.takeWhile_append_of_pos hname, List.takeWhile_cons_of_neg (by simp [hc]), List.append_nil,
    List.takeWhile_append_of_pos fun b hb => inTagName_of_joinsName (classAttr.joins b hb),
    List.takeWhile_cons_of_neg (by decide), List.append_nil] at hnames
  rw [hnames] at heq
  exact ⟨hnames, (List.cons.inj (List.append_cancel_left heq)).1⟩

/-- no `class=` begins behind a byte of an attribute name -/
theorem not_isClassMark_of_joins (hb : src[j]? = some b) (hjoins : joinsName b = true) :
    isClassMark src (j + 1) = false := by
  have hbool : (inWord b || b == ascii '-' || b == ascii ':') = true := hjoins
  simp only [isClassMark, Nat.add_sub_cancel, hb, Option.any_some, hbool, Bool.not_true, Bool.and_false]

theorem tagPart_spaces (h : Remains src j (xs ++ rest)) (hspaces : ∀ b ∈ xs, isSpace b = true) :
    TagPart src j xs [] xs := by
  refine tagPart_plain h (fun b hb => inTag_of_isSpace (hspaces b hb)) fun k hk => ?_
  have hget : src[j + k]? = some xs[k] := by rw [getElem?_append_of_drop h.drop hk, List.getElem?_eq_getElem hk]
  refine isClassMark_of_ne hget fun heq => ?_
  have hspace := hspaces _ (List.getElem_mem hk)
  rw [heq] at hspace
  exact absurd hspace (by decide)

theorem tagPart_name (name : AttrName) (h : Remains src j (name.bytes ++ rest)) (hmark : isClassMark src j = false) :
    TagPart src j name.bytes [] name.bytes := by
  refine tagPart_plain h (fun b hb => inTag_of_inTagName (inTagName_of_joinsName (name.joins b hb))) fun k hk => ?_
  cases k with
  | zero => exact hmark
  | succ k =>
    have hk' := Nat.lt_of_succ_lt hk
    have hget : src[j + k]? = some name.bytes[k] := by
      rw [getElem?_append_of_drop h.drop hk', List.getElem?_eq_getElem hk']
    exact not_isClassMark_of_joins hget (name.joins _ (List.getElem_mem hk'))

/-- what may stand behind a name without a value -/
def EndsName (rest : List UInt8) : Prop := ∃ c more, rest = c :: more ∧ inTagName c = false ∧ c ≠ ascii '='

theorem endsName_of_isSpace {b : UInt8} (h : isSpace b = true) (rest : List UInt8) : EndsName (b :: rest) := by
  refine ⟨b, rest, rfl, ?_⟩
  rcases isSpace_cases h with rfl | rfl | rfl | rfl | rfl <;> decide

theorem not_isClassMark_of_ends {name : List UInt8} (h : Remains src j (name ++ rest))
    (hname : ∀ b ∈ name, inTagName b = true) (hends : EndsName rest) : isClassMark src j = false := by
  obtain ⟨c, more, rfl, hc, hvalue⟩ := hends
  by_contra hmark
  exact hvalue (name_of_isClassMark h hname hc (Bool.eq_true_of_not_eq_false hmark)).2

theorem TagName.inTagName_of_mem (name : TagName) {b : UInt8} (hb : b ∈ name.render) : inTagName b = true := by
  rcases List.mem_cons.1 hb with rfl | hb
  · rcases name.opens with hletter | heq
    · simp [inTagName, joinsName, inWord, opensWord, hletter]
    · rw [heq]
      decide
  · exact name.continues b hb

theorem tagPart_tagName (name : TagName) (h : Remains src j (name.render ++ rest)) (hends : EndsName rest) :
    TagPart src j name.render [] name.render := by
  refine tagPart_plain h (fun b hb => inTag_of_inTagName (name.inTagName_of_mem hb)) fun k hk => ?_
  -- what is left of the name at `k` is no `class` with a value either
  rw [← List.take_append_drop k name.render, List.append_assoc] at h
  have hrest := h.append
  rw [List.length_take, Nat.min_eq_left (Nat.le_of_lt hk)] at hrest
  exact not_isClassMark_of_ends hrest (fun b hb => name.inTagName_of_mem (List.mem_of_mem_drop hb)) hends

/-! ## Attributes -/

theorem joinsName_of_isSpace {b : UInt8} (h : isSpace b = true) : joinsName b = false := by
  rcases isSpace_cases h with rfl | rfl | rfl | rfl | rfl <;> decide

theorem isClassMark_of_gap (gap : Gap) (h : Remains src j (gap.bytes ++ (classAttr.bytes ++ ascii '=' :: rest))) :
    isClassMark src (j + gap.bytes.length) = true := by
  refine isClassMark_iff.2 ⟨fun k hk => ?_, ?_⟩
  · have hnext : src.toList.drop (j + gap.bytes.length) = classMark.toList ++ rest := h.append.drop
    rw [getElem?_append_of_drop hnext hk, Array.getElem?_toList]
  · have hpos := List.length_pos_iff.2 gap.ne_nil
    have hlast : gap.bytes.length - 1 < gap.bytes.length := Nat.sub_lt hpos Nat.one_pos
    refine ⟨j + (gap.bytes.length - 1), by omega, ?_⟩
    rw [getElem?_append_of_drop h.drop hlast, List.getElem?_eq_getElem hlast, Option.any_some]
    exact joinsName_of_isSpace (gap.spaces _ (List.getElem_mem hlast))

/-- an attribute name that begins with `class=` is replaced -/
theorem tagPart_class (h : Remains src j (classAttr.bytes ++ ascii '=' :: rest)) (hmark : isClassMark src j = true) :
    TagPart src j (classAttr.bytes ++ [ascii '=']) [j] (hostClassAttr.bytes ++ [ascii '=']) := by
  constructor
  · obtain ⟨hlt, hb⟩ := Array.getElem?_eq_some_iff.1 h.head
    rw [tag, dif_pos hlt]
    simp +decide only [hb, hmark, if_true, if_false]
    rfl
  · exact Writes.put .attribute hostClassMark

theorem tagPart_valued (name : AttrName) (h : Remains src j (name.bytes ++ ascii '=' :: rest))
    (hne : name ≠ classAttr) : TagPart src j (name.bytes ++ [ascii '=']) [] (name.bytes ++ [ascii '=']) := by
  have hmark : isClassMark src j = false := by
    by_contra hmark
    have hnames := fun b hb => inTagName_of_joinsName (name.joins b hb)
    have heq := (name_of_isClassMark h hnames (by decide) (Bool.eq_true_of_not_eq_false hmark)).1
    exact hne (by cases name; simpa [classAttr] using heq)
  exact (tagPart_name name h hmark).append (tagPart_byte h.append (by decide) (by decide))

/-- **One attribute** is read whole, and renamed if it is `class` with a value. -/
theorem tagPart_attr (a : Attr) (h : Remains src j (a.render ++ rest)) (hends : EndsName rest) :
    ∃ marks, TagPart src j a.render marks a.renamed.render := by
  have hbehind := hends
  obtain ⟨c, more, rfl, -⟩ := hbehind
  match a with
  | .braces gap e =>
    rw [Attr.render, List.append_assoc] at h
    exact ⟨_, (tagPart_spaces h gap.spaces).append (tagPart_braces e h.append)⟩
  | .named gap name none =>
    rw [Attr.render, List.append_assoc] at h
    have hnames := fun b hb => inTagName_of_joinsName (name.joins b hb)
    have hmark := not_isClassMark_of_ends h.append hnames hends
    exact ⟨_, (tagPart_spaces h gap.spaces).append (tagPart_name name h.append hmark)⟩
  | .named gap name (some value) =>
    have hgap : Remains src j (gap.bytes ++ (name.bytes ++ ascii '=' :: (value.render ++ c :: more))) := by
      simpa [Attr.render] using h
    have hvalue :
        Remains src (j + gap.bytes.length + (name.bytes ++ [ascii '=']).length) (value.render ++ c :: more) := by
      have := hgap.append
      rw [← List.singleton_append, ← List.append_assoc] at this
      exact this.append
    have hname : ∃ marks, TagPart src (j + gap.bytes.length) (name.bytes ++ [ascii '=']) marks
        ((if name = classAttr then hostClassAttr else name).bytes ++ [ascii '=']) := by
      by_cases heq : name = classAttr
      · subst heq
        rw [if_pos rfl]
        exact ⟨_, tagPart_class hgap.append (isClassMark_of_gap gap hgap)⟩
      · rw [if_neg heq]
        exact ⟨_, tagPart_valued name hgap.append heq⟩
    obtain ⟨marks, hmarks⟩ := hname
    have hpart := (tagPart_spaces hgap gap.spaces).append (hmarks.append (tagPart_value value hvalue))
    exact ⟨_, by simpa [Attr.render, Attr.renamed] using hpart⟩

theorem Attr.endsName (a : Attr) (rest : List UInt8) : EndsName (a.render ++ rest) := by
  have hgap : ∀ (gap : Gap) (more : List UInt8), EndsName (gap.bytes ++ more) := by
    intro gap more
    obtain ⟨b, bs, hgap⟩ := List.exists_cons_of_ne_nil gap.ne_nil
    rw [hgap]
    exact endsName_of_isSpace (gap.spaces b (hgap ▸ List.mem_cons_self)) _
  match a with
  | .braces gap e => simpa [Attr.render] using hgap gap _
  | .named gap name none => simpa [Attr.render] using hgap gap _
  | .named gap name (some value) => simpa [Attr.render] using hgap gap _

theorem endsName_attrs (attrs : List Attr) (h : EndsName rest) : EndsName (attrs.flatMap Attr.render ++ rest) := by
  cases attrs with
  | nil => exact h
  | cons a attrs =>
    rw [List.flatMap_cons, List.append_assoc]
    exact a.endsName _

theorem tagPart_attrs (attrs : List Attr) (h : Remains src j (attrs.flatMap Attr.render ++ rest))
    (hends : EndsName rest) :
    ∃ marks, TagPart src j (attrs.flatMap Attr.render) marks ((attrs.map Attr.renamed).flatMap Attr.render) := by
  induction attrs generalizing j with
  | nil => exact ⟨[], .kept h rfl⟩
  | cons a attrs ih =>
    rw [List.flatMap_cons, List.append_assoc] at h
    obtain ⟨marks, hmarks⟩ := tagPart_attr a h (endsName_attrs attrs hends)
    obtain ⟨marks', hmarks'⟩ := ih h.append
    exact ⟨_, hmarks.append hmarks'⟩

/-! ## Whole tags -/

theorem Tag.endsName (t : Tag) (rest : List UInt8) : EndsName (t.ending ++ ascii '>' :: rest) := by
  rw [Tag.ending]
  cases htrail : t.trail with
  | nil =>
    cases t.selfClosing
    · exact ⟨ascii '>', rest, rfl, by decide, by decide⟩
    · exact ⟨ascii '/', ascii '>' :: rest, rfl, by decide, by decide⟩
  | cons b bs => exact endsName_of_isSpace (t.spaces b (htrail ▸ List.mem_cons_self)) _

theorem tagPart_ending (t : Tag) (h : Remains src j (t.ending ++ rest)) : TagPart src j t.ending [] t.ending := by
  rw [Tag.ending, List.append_assoc] at h
  have hslash : TagPart src (j + t.trail.length) (if t.selfClosing then [ascii '/'] else []) []
      (if t.selfClosing then [ascii '/'] else []) := by
    cases hself : t.selfClosing with
    | false => exact .kept h.append rfl
    | true =>
      have hnext : Remains src (j + t.trail.length) (ascii '/' :: rest) := by simpa [hself] using h.append
      exact tagPart_byte hnext (by decide) (by decide)
  exact (tagPart_spaces h t.spaces).append hslash

/-- **A tag** is read to its last byte, and its attributes are renamed. -/
theorem tagPart_inside (t : Tag) (h : Remains src j (t.inside ++ ascii '>' :: rest)) :
    ∃ marks, TagPart src j t.inside marks t.renamed.inside := by
  rw [Tag.inside, List.append_assoc, List.append_assoc] at h
  have hname := tagPart_tagName t.name h (endsName_attrs t.attrs (t.endsName rest))
  obtain ⟨marks, hattrs⟩ := tagPart_attrs t.attrs h.append (t.endsName rest)
  exact ⟨_, hname.append (hattrs.append (tagPart_ending t h.append.append))⟩

theorem tag_of_close (h : src[j]? = some (ascii '>')) : tag src none j = ([], j + 1) := by
  obtain ⟨hlt, hb⟩ := Array.getElem?_eq_some_iff.1 h
  rw [tag, dif_pos hlt]
  simp only [hb, if_true]

end Respell.Markup
