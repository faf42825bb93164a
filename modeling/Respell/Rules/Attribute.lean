/-
The attribute rule: `class=` becomes `className=` inside a tag. A live `<` with a letter or `_` after it opens a tag,
which runs to the next `>` outside quotes and braces. Nothing checks that the code around it is markup: a comparison
such as `a <b` opens a tag as well.

Inside a tag a quote runs to the same quote, without escapes, and a brace expression is code, whose end the scanner
finds (`endOfBraces`). `class=` counts only as a whole attribute name: not after a word byte, `-` or `:`.
-/
import Respell.Rules.Sweep
import Respell.Vocabulary

namespace Respell.Attribute

open Vocabulary

/-- the offset after the brace that closes the `depth` open ones, read from the scanner's position; the end of the
text if there is none. Braces inside template holes belong to the hole. -/
def closeBraces (src : Bytes) (s : Scanner) (depth : Nat) : Nat :=
  match _h : s.nextLive src with
  | (none, _) => src.size
  | (some i, t) =>
    if t.region = .normal ∧ src[i]? = some (ascii '{') then closeBraces src t (depth + 1)
    else if t.region = .normal ∧ src[i]? = some (ascii '}') then
      if depth ≤ 1 then i + 1 else closeBraces src t (depth - 1)
    else closeBraces src t depth
termination_by src.size - s.pos
decreasing_by all_goals have := Scanner.nextLive_some _h; omega

/-- the offset after the brace that matches the one at `i` -/
def endOfBraces (src : Bytes) (i : Nat) : Nat := closeBraces src (Scanner.start.skipTo src (i + 1)) 1

def isClassMark (src : Bytes) (i : Nat) : Bool :=
  src.extract i (i + classMark.size) == classMark &&
    !(src[i - 1]?.any fun b => inWord b || b == ascii '-' || b == ascii ':')

theorem le_closeBraces (src : Bytes) (s : Scanner) (depth : Nat) : min s.pos src.size ≤ closeBraces src s depth := by
  fun_induction closeBraces src s depth with
  | case1 => exact Nat.min_le_right _ _
  | case2 s depth i t h hb ih => have := Scanner.nextLive_some h; omega
  | case3 s depth i t h hb hc hd => have := Scanner.nextLive_some h; omega
  | case4 s depth i t h hb hc hd ih => have := Scanner.nextLive_some h; omega
  | case5 s depth i t h hb hc ih => have := Scanner.nextLive_some h; omega

/-- a brace expression is not empty -/
theorem lt_endOfBraces (src : Bytes) (i : Nat) (h : i < src.size) : i < endOfBraces src i := by
  have := le_closeBraces src (Scanner.start.skipTo src (i + 1)) 1
  simp only [Scanner.start, Scanner.skipTo] at this
  unfold endOfBraces
  simp only [Scanner.start, Scanner.skipTo]
  omega

theorem classMark_pos : 0 < classMark.size := by decide

/-- the offsets of the `class=` attributes in a tag that goes on at `j`, inside `quote` if one is open, and the offset
after the tag -/
def tag (src : Bytes) (quote : Option UInt8) (j : Nat) : List Nat × Nat :=
  if h : j < src.size then
    let b := src[j]
    match quote with
    | some q => tag src (if b = q then none else some q) (j + 1)
    | none =>
      if b = ascii '>' then ([], j + 1)
      else if b = ascii '{' then tag src none (endOfBraces src j)
      else if b = ascii '"' ∨ b = ascii '\'' then tag src (some b) (j + 1)
      else if isClassMark src j then
        let rest := tag src none (j + classMark.size)
        (j :: rest.1, rest.2)
      else tag src none (j + 1)
  else ([], src.size)
termination_by src.size - j
decreasing_by
  · omega
  · have := lt_endOfBraces src j h; omega
  · omega
  · have := classMark_pos; omega
  · omega

/-- whether the byte at `i`, which is `b`, opens a tag -/
def opensTag (src : Bytes) (i : Nat) (b : UInt8) : Bool :=
  b == ascii '<' && src[i + 1]?.any fun c => isLetter c || c == ascii '_'

def rule (src : Bytes) (_ : Region) (i : Nat) (b : UInt8) : Finding :=
  if opensTag src i b then
    let found := tag src none (i + 1)
    ⟨found.1.map fun j => ⟨.attribute, j, j + classMark.size, hostClassMark⟩, found.2⟩
  else ⟨[], i⟩

def edits (src : Bytes) : List Edit := sweep src (rule src) .start

end Respell.Attribute
