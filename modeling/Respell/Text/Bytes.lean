/-
Texts as bytes. A text is the array of its UTF-8 bytes, and every offset counts bytes from zero; an offset may lie past
the end. This module classifies bytes (word bytes, spaces, blanks) and holds the readers that all later modules share:
the end of a run (`skipWhile` and its instances), the end of a character, and the two look-behinds, `isMemberDot` with
`afterMemberDot` and `opensLine`.

A byte of a multi-byte character counts as a word byte, so a run of word bytes never ends inside a character.
-/
namespace Respell

/-- a text as its bytes -/
abbrev Bytes := Array UInt8

def utf8 (s : String) : Bytes := s.toUTF8.data

/-- the string that a text spells, if it is UTF-8 -/
def Bytes.string? (src : Bytes) : Option String := String.fromUTF8? ⟨src⟩

abbrev ascii (c : Char) : UInt8 := c.toUInt8

/-! ## Classes of bytes -/

def isLetter (b : UInt8) : Bool := (ascii 'a' ≤ b && b ≤ ascii 'z') || (ascii 'A' ≤ b && b ≤ ascii 'Z')

def isDigit (b : UInt8) : Bool := ascii '0' ≤ b && b ≤ ascii '9'

/-- bytes that may begin a word: letters, `_`, `$`, and every byte of a multi-byte character -/
def opensWord (b : UInt8) : Bool := isLetter b || b == ascii '_' || b == ascii '$' || 0x80 ≤ b

def inWord (b : UInt8) : Bool := opensWord b || isDigit b

/-- ASCII whitespace: space, tab, line feed, form feed, carriage return (not the vertical tab) -/
def isSpace (b : UInt8) : Bool := b == 0x20 || b == 0x09 || b == 0x0A || b == 0x0C || b == 0x0D

/-- whitespace that stays on its line -/
def isBlank (b : UInt8) : Bool := b == 0x20 || b == 0x09

def isLineEnd (b : UInt8) : Bool := b == 0x0A || b == 0x0D

/-- the second and later bytes of a multi-byte character -/
def isContinuation (b : UInt8) : Bool := 0x80 ≤ b && b < 0xC0

/-! ## Runs -/

/-- the first offset at or after `i` whose byte fails `p`, or the end; an offset past the end stays -/
def skipWhile (p : UInt8 → Bool) (src : Bytes) (i : Nat) : Nat :=
  if h : i < src.size then
    if p src[i] then skipWhile p src (i + 1) else i
  else i
termination_by src.size - i

def endOfWord (src : Bytes) (i : Nat) : Nat := skipWhile inWord src i

def skipSpace (src : Bytes) (i : Nat) : Nat := skipWhile isSpace src i

def endOfChar (src : Bytes) (i : Nat) : Nat := if i < src.size then skipWhile isContinuation src (i + 1) else i

theorem le_skipWhile (p : UInt8 → Bool) (src : Bytes) (i : Nat) : i ≤ skipWhile p src i := by
  fun_induction skipWhile p src i with
  | case1 i h hp ih => omega
  | case2 | case3 => exact Nat.le_refl _

theorem skipWhile_le (p : UInt8 → Bool) (src : Bytes) (i : Nat) (hi : i ≤ src.size) :
    skipWhile p src i ≤ src.size := by
  fun_induction skipWhile p src i with
  | case1 i h hp ih => exact ih h
  | case2 | case3 => exact hi

theorem le_endOfChar (src : Bytes) (i : Nat) : i ≤ endOfChar src i := by
  unfold endOfChar
  split
  · exact Nat.le_trans (Nat.le_succ i) (le_skipWhile _ _ _)
  · exact Nat.le_refl _

/-! ## Looking behind -/

/-- whether the byte at `i` is a dot with no dot on either side: a member access and not a spread -/
def isMemberDot (src : Bytes) (i : Nat) : Bool :=
  src[i]? == some (ascii '.') && !(0 < i && src[i - 1]? == some (ascii '.')) && src[i + 1]? != some (ascii '.')

/-- whether the nearest byte before `i` that is no whitespace is a member dot -/
def afterMemberDot (src : Bytes) : Nat → Bool
  | 0 => false
  | i + 1 => if src[i]?.any isSpace then afterMemberDot src i else isMemberDot src i

/-- whether only blanks stand between `i` and the beginning of its line -/
def opensLine (src : Bytes) : Nat → Bool
  | 0 => true
  | i + 1 =>
    match src[i]? with
    | none => true
    | some b => isLineEnd b || (isBlank b && opensLine src i)

/-- `afterMemberDot`, asked only of offsets inside the text or at its end -/
def afterMemberDot? (src : Bytes) (i : Nat) : Option Bool :=
  if i ≤ src.size then some (afterMemberDot src i) else none

/-- `opensLine`, asked only of offsets inside the text or at its end -/
def opensLine? (src : Bytes) (i : Nat) : Option Bool := if i ≤ src.size then some (opensLine src i) else none

end Respell
