/-
The keyword rule. Each word of live code is looked up whole, and the first of these that applies is recorded:

- `warna`, whitespace, `agar`: one edit over both words, `else if`;
- `async_kaam`: `async function` where a word and then `(` follow, across whitespace, and `async` elsewhere;
- a callee that is called (`(` follows, across whitespace) and is no member access;
- a keyword.

A run that begins with a digit is a number and is passed over whole, so `0xde` holds no `de`.
-/
import Respell.Rules.Sweep
import Respell.Vocabulary

namespace Respell.Keyword

open Vocabulary

/-- the end of the word `agar` that follows offset `i` across whitespace -/
def joinedIf? (src : Bytes) (i : Nat) : Option Nat :=
  let start := skipSpace src i
  let stop := endOfWord src start
  if src.extract start stop = ifWord then some stop else none

def isCalled (src : Bytes) (i : Nat) : Bool := src[skipSpace src i]? == some (ascii '(')

def namesFunction (src : Bytes) (i : Nat) : Bool :=
  let start := skipSpace src i
  src[start]?.any opensWord && isCalled src (endOfWord src start)

/-- the host spelling of the word from `start` up to `stop`, with the end of the range that it replaces -/
def spelling? (src : Bytes) (start stop : Nat) : Option (Nat × String) :=
  let word := src.extract start stop
  match (if word = elseWord then joinedIf? src stop else none) with
  | some joined => some (joined, "else if")
  | none =>
    if word = asyncWord then some (stop, if namesFunction src stop then "async function" else "async")
    else
      match (if !afterMemberDot src start && isCalled src stop then callees.find? word else none) with
      | some host => some (stop, host)
      | none => (keywords.find? word).map fun host => (stop, host)

def rule (src : Bytes) (_ : Region) (i : Nat) (b : UInt8) : Finding :=
  if inWord b then
    let stop := endOfWord src i
    match (if opensWord b then spelling? src i stop else none) with
    | some (last, host) => ⟨[⟨.keyword, i, last, host⟩], last⟩
    | none => ⟨[], stop⟩
  else ⟨[], i⟩

def edits (src : Bytes) : List Edit := sweep src (rule src) .start

end Respell.Keyword
