/-
The member rule. A word directly after a live member dot is looked up in the table of members, whether it is called or
only read. The dot stays; the word is replaced.
-/
import Respell.Rules.Sweep
import Respell.Vocabulary

namespace Respell.Member

def rule (src : Bytes) (_ : Region) (i : Nat) (b : UInt8) : Finding :=
  if inWord b then ⟨[], endOfWord src i⟩
  else if isMemberDot src i && src[i + 1]?.any opensWord then
    let stop := endOfWord src (i + 1)
    match Vocabulary.members.find? (src.extract (i + 1) stop) with
    | some host => ⟨[⟨.member, i + 1, stop, host⟩], stop⟩
    | none => ⟨[], stop⟩
  else ⟨[], i⟩

def edits (src : Bytes) : List Edit := sweep src (rule src) .start

end Respell.Member
