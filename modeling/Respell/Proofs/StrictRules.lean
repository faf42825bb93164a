/-
The keyword rule, the member rule and the attribute rule, strictly read. Each is written with bounded operations and
does at every stop of its sweep what the rule does there (`keywordRule_follows`, `memberRule_follows`,
`attributeRule_follows`): words are cut between characters, since a word of a text that spells characters begins and
ends between them; and each move is a move ahead, since a word ends behind its first byte and a tag behind its `<`.
-/
import Respell.Proofs.StrictReading
import Respell.Proofs.KeywordEdits
import Respell.Proofs.EditShapes

namespace Respell.Strict

open Vocabulary

/-! ## The rules -/

def isMemberDot (src : Bytes) (i : Nat) : Option Bool :=
  if src[i]? = some (ascii '.') then
    if 0 < i then do
      let before ← byteBefore src i
      return !(before == ascii '.') && src[i + 1]? != some (ascii '.')
    else some (src[i + 1]? != some (ascii '.'))
  else some false

def afterMemberDot (src : Bytes) (i : Nat) : Option Bool :=
  if 0 < i then do
    let before ← byteBefore src i
    if isSpace before then afterMemberDot src (i - 1) else isMemberDot src (i - 1)
  else some false
termination_by i

def joinedIf? (src : Bytes) (i : Nat) : Option (Option Nat) := do
  let start ← skipWhile isSpace src i
  if src[start]?.any opensWord then do
    let stop ← skipWhile inWord src start
    let word ← range src start stop
    return if word = ifWord then some stop else none
  else return none

def isCalled (src : Bytes) (i : Nat) : Option Bool := do
  let next ← skipWhile isSpace src i
  return src[next]? == some (ascii '(')

def namesFunction (src : Bytes) (i : Nat) : Option Bool := do
  let start ← skipWhile isSpace src i
  if src[start]?.any opensWord then do
    let stop ← skipWhile inWord src start
    isCalled src stop
  else return false

def lookUp (src : Bytes) (start stop : Nat) (word : Bytes) : Option (Option (Nat × String)) :=
  match callees.find? word with
  | none => some ((keywords.find? word).map fun host => (stop, host))
  | some host => do
    let member ← afterMemberDot src start
    let called ← isCalled src stop
    return if !member && called then some (stop, host) else (keywords.find? word).map fun host => (stop, host)

def spelling? (src : Bytes) (start stop : Nat) : Option (Option (Nat × String)) := do
  let word ← text src start stop
  let joined ← (if word = elseWord then joinedIf? src stop else some none)
  match joined with
  | some last => return some (last, "else if")
  | none =>
    if word = asyncWord then do
      let names ← namesFunction src stop
      return some (stop, if names then "async function" else "async")
    else lookUp src start stop word

def keywordRule (src : Bytes) (_ : Region) (i : Nat) : Option (List Edit × List Nat) := do
  let b ← byte src i
  if inWord b then do
    let stop ← skipWhile inWord src i
    if opensWord b then do
      match ← spelling? src i stop with
      | some (last, host) => return ([⟨.keyword, i, last, host⟩], [stop, last])
      | none => return ([], [stop])
    else return ([], [stop])
  else return ([], [])

def memberRule (src : Bytes) (_ : Region) (i : Nat) : Option (List Edit × List Nat) := do
  let b ← byte src i
  if inWord b then do
    let stop ← skipWhile inWord src i
    return ([], [stop])
  else do
    let dot ← isMemberDot src i
    if dot && src[i + 1]?.any opensWord then do
      let stop ← skipWhile inWord src (i + 1)
      let word ← text src (i + 1) stop
      match members.find? word with
      | some host => return ([⟨.member, i + 1, stop, host⟩], [stop])
      | none => return ([], [stop])
    else return ([], [])

def closeBraces (src : Bytes) (s : Scanner) (depth : Nat) : Option Nat := do
  match ← nextLive src s with
  | (none, _) => return src.size
  | (some i, t) =>
    if s.pos < t.pos ∧ t.pos ≤ src.size then
      if t.region = .normal then do
        let b ← byte src i
        if b = ascii '{' then do
          let deeper ← more depth
          closeBraces src t deeper
        else if b = ascii '}' then do
          let higher ← less depth
          if higher = 0 then return i + 1 else closeBraces src t higher
        else closeBraces src t depth
      else closeBraces src t depth
    else none
termination_by src.size - s.pos

def endOfBraces (src : Bytes) (i : Nat) : Option Nat := do
  let s ← seek src .start (i + 1)
  closeBraces src s 1

def isClassMark (src : Bytes) (i : Nat) : Option Bool := do
  let mark ← startsWith src i classMark
  if mark then do
    let before ← byteBefore src i
    return !(inWord before || before == ascii '-' || before == ascii ':')
  else return false

def tag (src : Bytes) (quote : Option UInt8) (j : Nat) : Option (List Nat × Nat) :=
  if j < src.size then do
    let b ← byte src j
    match quote with
    | some q => tag src (if b = q then none else some q) (j + 1)
    | none =>
      if b = ascii '>' then return ([], j + 1)
      else if b = ascii '{' then do
        let stop ← endOfBraces src j
        if j < stop then tag src none stop else none
      else if b = ascii '"' ∨ b = ascii '\'' then tag src (some b) (j + 1)
      else do
        let mark ← isClassMark src j
        if mark then do
          let rest ← tag src none (j + classMark.size)
          return (j :: rest.1, rest.2)
        else tag src none (j + 1)
  else some ([], src.size)
termination_by src.size - j
decreasing_by
  all_goals have := Attribute.classMark_pos
  all_goals omega

def attributeRule (src : Bytes) (_ : Region) (i : Nat) : Option (List Edit × List Nat) := do
  let b ← byte src i
  if Attribute.opensTag src i b then do
    let found ← tag src none (i + 1)
    return (found.1.map fun j => ⟨.attribute, j, j + classMark.size, hostClassMark⟩, [found.2])
  else return ([], [])

/-! ## Looking behind and ahead -/

theorem byteBefore_succ (src : Bytes) (i : Nat) : byteBefore src (i + 1) = src[i]? := rfl

theorem isMemberDot_eq (src : Bytes) (i : Nat) : isMemberDot src i = some (Respell.isMemberDot src i) := by
  unfold isMemberDot Respell.isMemberDot
  by_cases hdot : src[i]? = some (ascii '.')
  · obtain ⟨hlt, -⟩ := Array.getElem?_eq_some_iff.1 hdot
    cases i with
    | zero => simp [hdot]
    | succ i =>
      have hbefore : src[i]? = some src[i] := Array.getElem?_eq_getElem (Nat.lt_of_succ_lt hlt)
      simp [hdot, byteBefore_succ, hbefore]
  · simp [hdot]

theorem afterMemberDot_eq {src : Bytes} {i : Nat} (hi : i ≤ src.size) :
    afterMemberDot src i = some (Respell.afterMemberDot src i) := by
  induction i with
  | zero =>
    rw [afterMemberDot]
    rfl
  | succ i ih =>
    have hb : src[i]? = some src[i] := Array.getElem?_eq_getElem hi
    rw [afterMemberDot, if_pos (Nat.succ_pos i), byteBefore_succ, hb, Option.bind_eq_bind, Option.bind_some,
      Nat.add_sub_cancel, ih (Nat.le_of_succ_le hi), isMemberDot_eq, Respell.afterMemberDot, hb, Option.any_some]
    split_ifs <;> rfl

theorem skipSpace_eq (src : Bytes) (i : Nat) : skipWhile isSpace src i = some (skipSpace src i) :=
  skipWhile_eq isSpace src i

theorem endOfWord_eq (src : Bytes) (i : Nat) : skipWhile inWord src i = some (endOfWord src i) :=
  skipWhile_eq inWord src i

theorem isCalled_eq (src : Bytes) (i : Nat) : isCalled src i = some (Keyword.isCalled src i) := by
  unfold isCalled
  rw [skipSpace_eq, Option.bind_eq_bind, Option.bind_some]
  rfl

theorem joinedIf?_eq {src : Bytes} {i : Nat} (hi : i ≤ src.size) :
    joinedIf? src i = some (Keyword.joinedIf? src i) := by
  have hstart : skipSpace src i ≤ src.size := skipWhile_le _ _ _ hi
  have hle : skipSpace src i ≤ endOfWord src (skipSpace src i) := le_skipWhile _ _ _
  have hstop : endOfWord src (skipSpace src i) ≤ src.size := skipWhile_le _ _ _ hstart
  unfold joinedIf? Keyword.joinedIf?
  simp only [skipSpace_eq, endOfWord_eq, Option.bind_eq_bind, Option.bind_some, range_eq hle hstop]
  by_cases hopens : src[skipSpace src i]?.any opensWord = true
  · rw [if_pos hopens]
    rfl
  · -- `agar` begins as a word does
    have hne : src.extract (skipSpace src i) (endOfWord src (skipSpace src i)) ≠ ifWord := by
      intro heq
      have hfirst := getElem?_of_extract heq (k := 0) (by decide)
      rw [Nat.add_zero] at hfirst
      rw [hfirst] at hopens
      exact hopens (by decide)
    rw [if_neg hopens, if_neg hne]
    rfl

theorem namesFunction_eq (src : Bytes) (i : Nat) : namesFunction src i = some (Keyword.namesFunction src i) := by
  unfold namesFunction Keyword.namesFunction
  simp only [skipSpace_eq, endOfWord_eq, Option.bind_eq_bind, Option.bind_some, isCalled_eq]
  by_cases hopens : src[skipSpace src i]?.any opensWord = true
  · simp only [hopens, if_true, Bool.true_and]
  · simp only [hopens]
    rfl

/-! ## The keyword rule -/

theorem lookUp_eq {src : Bytes} {start : Nat} (hstart : start ≤ src.size) (stop : Nat) (word : Bytes) :
    lookUp src start stop word =
      some (match (if !Respell.afterMemberDot src start && Keyword.isCalled src stop then
        callees.find? word else none) with
        | some host => some (stop, host)
        | none => (keywords.find? word).map fun host => (stop, host)) := by
  unfold lookUp
  simp only [afterMemberDot_eq hstart, isCalled_eq, Option.bind_eq_bind, Option.bind_some]
  cases hcallee : callees.find? word with
  | none => simp only [ite_self]
  | some host =>
    by_cases hcalled : (!Respell.afterMemberDot src start && Keyword.isCalled src stop) = true
    · simp only [hcalled, if_true]
      rfl
    · simp only [hcalled]
      rfl

theorem spelling?_eq {src : Bytes} {i j : Nat} (hij : i ≤ j) (hi : Boundary src i) (hj : Boundary src j) :
    spelling? src i j = some (Keyword.spelling? src i j) := by
  have hjoined : (if src.extract i j = elseWord then joinedIf? src j else some none) =
      some (if src.extract i j = elseWord then Keyword.joinedIf? src j else none) := by
    split_ifs
    · exact joinedIf?_eq hj.1
    · rfl
  unfold spelling? Keyword.spelling?
  simp only [text_eq hij hi hj, Option.bind_eq_bind, Option.bind_some, hjoined]
  cases (if src.extract i j = elseWord then Keyword.joinedIf? src j else none) with
  | some last => rfl
  | none =>
    by_cases hasync : src.extract i j = asyncWord
    · simp only [hasync, if_true, namesFunction_eq, Option.bind_some]
      rfl
    · exact (if_neg hasync).trans ((lookUp_eq hi.1 _ _).trans (congrArg some (if_neg hasync).symm))

theorem boundary_start {src : Bytes} {cs : List Char} (hsrc : src.toList = cs.flatMap encode) {i j : Nat}
    (hw : IsWord src i j) : Boundary src i := by
  cases i with
  | zero => exact boundary_zero hsrc
  | succ k =>
    have hlt : k < src.size := Nat.lt_of_lt_of_le (Nat.lt_of_succ_lt hw.lt) hw.le_size
    have hk : src[k]? = some src[k] := Array.getElem?_eq_getElem hlt
    have hbefore := hw.before k rfl
    rw [hk, Option.any_some] at hbefore
    refine boundary_after_ascii hsrc hk ?_
    -- every byte from `0x80` on is in a word
    by_contra hge
    have hopens : opensWord src[k] = true := by simp [opensWord, UInt8.not_lt.1 hge]
    rw [inWord_of_opensWord hopens] at hbefore
    cases hbefore

/-- what the keyword rule relies on: its scanner stands at no inner byte of a word -/
def KeywordReady (src : Bytes) (s : Scanner) : Prop := Keyword.Ready src s ∧ s.WellNested

theorem keywordRule_follows {src : Bytes} {cs : List Char} (hsrc : src.toList = cs.flatMap encode)
    {s t : Scanner} {i : Nat} {b : UInt8} (h : KeywordReady src s) (hn : s.nextLive src = (some i, t))
    (hb : src[i]? = some b) :
    Follows src t (Keyword.rule src t.region i b) (keywordRule src t.region i) ∧
      KeywordReady src (t.skipTo src (Keyword.rule src t.region i b).readTo) := by
  obtain ⟨-, hlt, -⟩ := Scanner.nextLive_some hn
  have hpos := pos_of_nextLive hn
  obtain ⟨-, -, -, hready, -⟩ := Keyword.ready_rule h.1 hn hb
  refine ⟨?_, hready, wellNested_skipTo (wellNested_of_nextLive h.2 hn) src _⟩
  unfold keywordRule Keyword.rule
  rw [byte, hb, Option.bind_eq_bind, Option.bind_some]
  by_cases hin : inWord b = true
  · have hw := h.1.liveWord hn (by rw [hb]; exact hin)
    have hstop : t.pos ≤ endOfWord src i := by
      have := hw.lt
      omega
    have hsize : t.pos ≤ src.size := by omega
    simp only [hin, if_true, endOfWord_eq, Option.bind_eq_bind, Option.bind_some]
    by_cases hopens : opensWord b = true
    · have hbounds := boundary_start hsrc hw.toIsWord
      simp only [hopens, if_true, spelling?_eq (Nat.le_of_lt hw.lt) hbounds hw.boundary_stop, Option.bind_some]
      cases hsp : Keyword.spelling? src i (endOfWord src i) with
      | none => exact follows_move hsize hstop
      | some found =>
        obtain ⟨last, host⟩ := found
        have hspelled := (Keyword.spelling?_eq_some_iff hw.after).1 hsp
        exact follows_moves hsize hstop (hspelled.passive hw.toIsWord).1
    · simp only [hopens]
      exact follows_move hsize hstop
  · simp only [hin]
    exact follows_stay (by omega)

/-! ## The member rule -/

theorem lt_endOfWord {src : Bytes} {i : Nat} {b : UInt8} (hb : src[i]? = some b) (hin : inWord b = true) :
    i < endOfWord src i := by
  have hne : i ≠ endOfWord src i := by
    intro heq
    have hstops := skipWhile_stops inWord src i
    rw [show Respell.skipWhile inWord src i = i from heq.symm, hb, Option.any_some, hin] at hstops
    cases hstops
  exact Nat.lt_of_le_of_ne (le_skipWhile _ _ _) hne

theorem memberRule_follows {src : Bytes} {cs : List Char} (hsrc : src.toList = cs.flatMap encode)
    {s t : Scanner} {i : Nat} {b : UInt8} (hn : s.nextLive src = (some i, t)) (hb : src[i]? = some b) :
    Follows src t (Member.rule src t.region i b) (memberRule src t.region i) := by
  obtain ⟨-, hlt, -⟩ := Scanner.nextLive_some hn
  have hpos := pos_of_nextLive hn
  have hsize : t.pos ≤ src.size := hpos ▸ hlt
  have hstay : i ≤ t.pos := by rw [hpos]; exact Nat.le_succ i
  unfold memberRule Member.rule
  simp only [byte, hb, endOfWord_eq, isMemberDot_eq, Option.bind_eq_bind, Option.bind_some]
  by_cases hin : inWord b = true
  · simp only [hin, if_true]
    exact follows_move hsize (hpos ▸ lt_endOfWord hb hin)
  · simp only [hin]
    by_cases hdot : (Respell.isMemberDot src i && src[i + 1]?.any opensWord) = true
    · obtain ⟨hd, ho⟩ := Bool.and_eq_true_iff.1 hdot
      obtain ⟨hw, -⟩ := isWord_after_dot hd ho
      have hstop : t.pos ≤ endOfWord src (i + 1) := hpos ▸ le_skipWhile _ _ _
      simp only [hdot, text_eq (Nat.le_of_lt hw.lt) (boundary_start hsrc hw) hw.boundary_stop, Option.bind_some]
      cases members.find? (src.extract (i + 1) (endOfWord src (i + 1))) with
      | none => exact follows_move hsize hstop
      | some host => exact follows_move hsize hstop
    · simp only [hdot]
      exact follows_stay hstay

/-! ## The attribute rule -/

theorem isClassMark_eq {src : Bytes} {i : Nat} (h1 : 0 < i) (h2 : i < src.size) :
    isClassMark src i = some (Attribute.isClassMark src i) := by
  obtain ⟨k, rfl⟩ := Nat.exists_eq_succ_of_ne_zero (Nat.ne_of_gt h1)
  have hbefore : src[k]? = some src[k] := Array.getElem?_eq_getElem (Nat.lt_of_succ_lt h2)
  unfold isClassMark Attribute.isClassMark
  simp only [Nat.succ_eq_add_one, startsWith_eq (Nat.le_of_lt h2), byteBefore_succ, hbefore, Nat.add_sub_cancel,
    Option.bind_eq_bind, Option.bind_some, Option.any_some]
  cases src.extract (k + 1) (k + 1 + classMark.size) == classMark <;> rfl

section chars

variable {src : Bytes} {cs : List Char} (hsrc : src.toList = cs.flatMap encode) (hsize : src.size < UInt32.size)
include hsrc hsize

/-- the open braces are no more than the bytes that have been read -/
theorem closeBraces_eq {s : Scanner} {depth : Nat} (h : s.WellNested) (h1 : 1 ≤ depth) (h2 : depth ≤ s.pos) :
    closeBraces src s depth = some (Attribute.closeBraces src s depth) := by
  fun_induction Attribute.closeBraces src s depth with
  | case1 s depth t hn =>
    rw [closeBraces, nextLive_eq hsrc hsize h, hn]
    rfl
  | case2 s depth i t hn hb ih =>
    obtain ⟨hle, hlt, -⟩ := Scanner.nextLive_some hn
    -- each level was opened by a byte behind us, so the count stays below the size of the text
    have hmore : more depth = some (depth + 1) := if_pos (by omega)
    rw [closeBraces, nextLive_eq hsrc hsize h, hn]
    simp only [Option.bind_eq_bind, Option.bind_some, if_pos (ahead_of_nextLive hn), hb.1, if_true, byte, hb.2, hmore]
    exact ih (wellNested_of_nextLive h hn) (Nat.le_add_left _ _) (by rw [pos_of_nextLive hn]; omega)
  | case3 s depth i t hn hb hc hd =>
    have hless : less depth = some (depth - 1) := if_pos h1
    have hb' : ascii '}' ≠ ascii '{' := by decide
    rw [closeBraces, nextLive_eq hsrc hsize h, hn]
    simp only [Option.bind_eq_bind, Option.bind_some, if_pos (ahead_of_nextLive hn), hc.1, if_true, byte, hc.2,
      hb', if_false, hless]
    rw [if_pos (by omega)]
    rfl
  | case4 s depth i t hn hb hc hd ih =>
    obtain ⟨hle, hlt, -⟩ := Scanner.nextLive_some hn
    have hless : less depth = some (depth - 1) := if_pos h1
    have hb' : ascii '}' ≠ ascii '{' := by decide
    rw [closeBraces, nextLive_eq hsrc hsize h, hn]
    simp only [Option.bind_eq_bind, Option.bind_some, if_pos (ahead_of_nextLive hn), hc.1, if_true, byte, hc.2,
      hb', if_false, hless]
    rw [if_neg (by omega)]
    exact ih (wellNested_of_nextLive h hn) (by omega) (by rw [pos_of_nextLive hn]; omega)
  | case5 s depth i t hn hb hc ih =>
    obtain ⟨hle, hlt, -⟩ := Scanner.nextLive_some hn
    have hbyte : src[i]? = some src[i] := Array.getElem?_eq_getElem hlt
    have hrest := ih (wellNested_of_nextLive h hn) h1 (by rw [pos_of_nextLive hn]; omega)
    rw [closeBraces, nextLive_eq hsrc hsize h, hn]
    simp only [Option.bind_eq_bind, Option.bind_some, if_pos (ahead_of_nextLive hn), byte, hbyte]
    by_cases hnormal : t.region = .normal
    · have hopen : src[i] ≠ ascii '{' := fun heq => hb ⟨hnormal, heq ▸ hbyte⟩
      have hclose : src[i] ≠ ascii '}' := fun heq => hc ⟨hnormal, heq ▸ hbyte⟩
      rw [if_pos hnormal, if_neg hopen, if_neg hclose, hrest]
    · rw [if_neg hnormal, hrest]

theorem endOfBraces_eq {i : Nat} (hi : i < src.size) : endOfBraces src i = some (Attribute.endOfBraces src i) := by
  unfold endOfBraces Attribute.endOfBraces
  rw [seek_eq (Nat.zero_le _) (Nat.zero_le _), Option.bind_eq_bind, Option.bind_some]
  have hpos : (Scanner.start.skipTo src (i + 1)).pos = i + 1 := by
    simp only [Scanner.skipTo, Scanner.start]
    omega
  exact closeBraces_eq hsrc hsize (wellNested_skipTo wellNested_start src _) (Nat.le_refl 1) (by omega)

theorem tag_eq {quote : Option UInt8} {j : Nat} (hj : 0 < j) : tag src quote j = some (Attribute.tag src quote j) := by
  fun_induction Attribute.tag src quote j with
  | case1 j h b q ih =>
    have hb : src[j]? = some b := Array.getElem?_eq_getElem h
    rw [tag, if_pos h, byte, hb]
    simp only [Option.bind_eq_bind, Option.bind_some]
    exact ih (Nat.succ_pos j)
  | case2 j h b hclose =>
    have hb : src[j]? = some b := Array.getElem?_eq_getElem h
    rw [tag, if_pos h, byte, hb]
    simp only [Option.bind_eq_bind, Option.bind_some, if_pos hclose]
    rfl
  | case3 j h b hclose hopen ih =>
    have hb : src[j]? = some b := Array.getElem?_eq_getElem h
    rw [tag, if_pos h, byte, hb]
    have hlt := Attribute.lt_endOfBraces src j h
    simp only [Option.bind_eq_bind, Option.bind_some, if_neg hclose, if_pos hopen,
      endOfBraces_eq hsrc hsize h, if_pos hlt]
    exact ih (Nat.lt_trans hj hlt)
  | case4 j h b hclose hopen hquote ih =>
    have hb : src[j]? = some b := Array.getElem?_eq_getElem h
    rw [tag, if_pos h, byte, hb]
    simp only [Option.bind_eq_bind, Option.bind_some, if_neg hclose, if_neg hopen, if_pos hquote]
    exact ih (Nat.succ_pos j)
  | case5 j h b hclose hopen hquote hmark rest ih =>
    have hb : src[j]? = some b := Array.getElem?_eq_getElem h
    rw [tag, if_pos h, byte, hb]
    simp only [Option.bind_eq_bind, Option.bind_some, if_neg hclose, if_neg hopen, if_neg hquote, isClassMark_eq hj h,
      hmark, if_true, ih (Nat.lt_add_right _ hj)]
    rfl
  | case6 j h b hclose hopen hquote hmark ih =>
    have hb : src[j]? = some b := Array.getElem?_eq_getElem h
    rw [tag, if_pos h, byte, hb]
    simp only [Option.bind_eq_bind, Option.bind_some, if_neg hclose, if_neg hopen, if_neg hquote, isClassMark_eq hj h,
      hmark]
    exact ih (Nat.succ_pos j)
  | case7 j quote h => rw [tag, if_neg h]

theorem attributeRule_follows {s t : Scanner} {i : Nat} {b : UInt8} (hn : s.nextLive src = (some i, t))
    (hb : src[i]? = some b) : Follows src t (Attribute.rule src t.region i b) (attributeRule src t.region i) := by
  obtain ⟨-, hlt, -⟩ := Scanner.nextLive_some hn
  have hpos := pos_of_nextLive hn
  have hinside : t.pos ≤ src.size := hpos ▸ hlt
  unfold attributeRule Attribute.rule
  simp only [byte, hb, tag_eq hsrc hsize (Nat.succ_pos i), Option.bind_eq_bind, Option.bind_some]
  by_cases hopens : Attribute.opensTag src i b = true
  · simp only [hopens, if_true]
    refine follows_move hinside ?_
    have hle := (tagMarks_tag src none (i + 1)).le
    omega
  · simp only [hopens]
    exact follows_stay (by omega)

end chars

end Respell.Strict
