/-
The import rule, strictly read. The form of a line is found by offsets into the front of the text, up to the end of
the line, with bounded operations: a run of blanks, a module name, the word `se` and a tail are each read at an
offset, and the bindings are tried at one offset after another. Each reader at an offset gives what the reader of
lists gives for the rest of the line (`blanks_eq`, `moduleName?_eq`, `wordAt_eq`, `tail?_eq`), and so do the two forms
and the search; so the rule does at every stop of its sweep what the import rule does there (`importRule_follows`).
-/
import Respell.Proofs.StrictRules
import Respell.Proofs.ImportGrammar

namespace Respell.Strict

open Vocabulary

/-! ## The rule -/

def lineEnd (src : Bytes) (i : Nat) : Option Nat := do
  let rest ← range src i src.size
  let width ← skipWhile (fun b => !isLineEnd b) rest 0
  return i + width

def opensLine (src : Bytes) (i : Nat) : Option Bool := do
  let before ← range src 0 i
  return (before.toList.reverse.takeWhile fun b => !isLineEnd b).all isBlank

/-- the quote that closes a module name -/
def closing (front : Bytes) (quote : UInt8) (j : Nat) : Option (Option Nat) :=
  if j < front.size then do
    let b ← byte front j
    if b = quote then return some j
    else if ImportLine.isQuote b then return none
    else closing front quote (j + 1)
  else some none
termination_by front.size - j

def moduleName? (front : Bytes) (i : Nat) : Option (Option Nat) :=
  match front[i]? with
  | none => some none
  | some quote =>
    if ImportLine.isQuote quote then do
      let closed ← closing front quote (i + 1)
      return closed.bind fun j => if j = i + 1 then none else some (j + 1)
    else some none

/-- whether a word stands at an offset and does not go on, nor is the end of another -/
def wordAt (front : Bytes) (i : Nat) (word : Bytes) : Option Bool := do
  let mark ← startsWith front i word
  if mark && !front[i + word.size]?.any inWord then
    if 0 < i then do
      let before ← byteBefore front i
      return !opensWord before
    else return true
  else return false

def tail? (front : Bytes) (i : Nat) : Option (Option Bool) := do
  let j ← skipWhile isBlank front i
  return match front[j]? with
    | none => some false
    | some b =>
      if b = ascii ';' then some true
      else if b = ascii '/' ∧ (front[j + 1]? = some (ascii '/') ∨ front[j + 1]? = some (ascii '*')) then some false
      else none

def sideEffect? (front : Bytes) (i : Nat) : Option (Option ImportLine.Form) := do
  match ← moduleName? front i with
  | none => return none
  | some name =>
    let mark ← skipWhile isBlank front name
    if name < mark then do
      let found ← wordAt front mark fromWord
      if found then do
        let closed ← tail? front (mark + fromWord.size)
        return closed.map fun closed => .sideEffect name (mark + fromWord.size) closed
      else return none
    else return none

def bindingsAt? (front : Bytes) (k : Nat) : Option (Option ImportLine.Form) := do
  let b ← byte front k
  if isBlank b then do
    let mark ← skipWhile isBlank front k
    let found ← wordAt front mark fromWord
    if found then do
      let start ← skipWhile isBlank front (mark + fromWord.size)
      if start = mark + fromWord.size then return none
      else do
        match ← moduleName? front start with
        | none => return none
        | some name =>
          let closed ← tail? front name
          return closed.map fun closed => .bindings mark name closed
    else return none
  else return none

/-- the first bindings from an offset on -/
def bindingsFrom (front : Bytes) (k : Nat) : Option (Option ImportLine.Form) :=
  if k < front.size then do
    match ← bindingsAt? front k with
    | some form => return some form
    | none => bindingsFrom front (k + 1)
  else some none
termination_by front.size - k

/-- the form of the line whose word `le` stands at an offset, its parts by their offsets in the text -/
def form? (src : Bytes) (i : Nat) : Option (Option ImportLine.Form) := do
  let stop ← lineEnd src i
  let front ← range src 0 stop
  let start ← skipWhile isBlank front (i + importWord.size)
  if start = i + importWord.size then return none
  else do
    match ← sideEffect? front start with
    | some form => return some form
    | none => bindingsFrom front (start + 1)

def importRule (src : Bytes) (region : Region) (i : Nat) : Option (List Edit × List Nat) := do
  let b ← byte src i
  if inWord b then do
    let stop ← skipWhile inWord src i
    let word ← range src i stop
    let opens ← opensLine src i
    if region = .normal ∧ word = importWord ∧ opens = true then do
      match ← form? src i with
      | some form => return (form.edits i 0, [stop])
      | none => return ([], [stop])
    else return ([], [stop])
  else return ([], [])

/-! ## Parts of a line -/

theorem drop_eq_nil {front : Bytes} {j : Nat} (h : ¬ j < front.size) : front.toList.drop j = [] :=
  List.drop_eq_nil_of_le (by simpa using Nat.le_of_not_lt h)

theorem blanks_eq (front : Bytes) (x : Nat) :
    skipWhile isBlank front x = some (x + ImportLine.blanks (front.toList.drop x)) := by
  obtain ⟨hblanks, hstop⟩ := ImportLine.blanksAt_blanks front.toList x
  rw [skipWhile_eq]
  refine congrArg some (Respell.skipWhile_eq hblanks.le ?_ ?_)
  · intro k h1 h2
    rw [← Array.getElem?_toList]
    exact hblanks.blank k h1 h2
  · rw [← Array.getElem?_toList]
    exact hstop

theorem add_blanks_le {front : Bytes} {x : Nat} (hx : x ≤ front.size) :
    x + ImportLine.blanks (front.toList.drop x) ≤ front.size := by
  have hle : ImportLine.blanks (front.toList.drop x) ≤ (front.toList.drop x).length :=
    (List.takeWhile_sublist _).length_le
  rw [List.length_drop, Array.length_toList] at hle
  omega

theorem closing_eq {front : Bytes} {quote : UInt8} (hquote : ImportLine.isQuote quote = true) (j : Nat) :
    closing front quote j =
      let n := ((front.toList.drop j).takeWhile fun b => !ImportLine.isQuote b).length
      some (if front[j + n]? = some quote then some (j + n) else none) := by
  generalize hm : front.size - j = m
  induction m generalizing j with
  | zero =>
    have hj : ¬ j < front.size := by omega
    rw [closing, if_neg hj, drop_eq_nil hj]
    simp [Nat.le_of_not_lt hj]
  | succ m ih =>
    have hj : j < front.size := by omega
    have hb : front[j]? = some front[j] := Array.getElem?_eq_getElem hj
    rw [closing, if_pos hj, byte, hb, Option.bind_eq_bind, Option.bind_some,
      drop_of_getElem? (Array.getElem?_eq_getElem hj)]
    generalize front[j] = b at hb
    by_cases heq : b = quote
    · simp [heq, hquote, hb]
    · rw [if_neg heq]
      by_cases hother : ImportLine.isQuote b = true
      · simp [hother, hb, heq]
      · rw [if_neg hother, ih (j + 1) (by omega), List.takeWhile_cons_of_pos (by simpa using hother)]
        simp only [List.length_cons, Nat.add_assoc, Nat.add_comm 1]

theorem moduleName?_eq (front : Bytes) (x : Nat) :
    moduleName? front x = some ((ImportLine.moduleName? (front.toList.drop x)).map (x + ·)) := by
  unfold moduleName?
  by_cases hx : x < front.size
  · rw [drop_of_getElem? (Array.getElem?_eq_getElem hx), Array.getElem?_eq_getElem hx]
    generalize front[x] = quote
    simp only [ImportLine.moduleName?]
    by_cases hquote : ImportLine.isQuote quote = true
    · have hget : ∀ n, (front.toList.drop (x + 1))[n]? = front[x + 1 + n]? := fun n => by
        rw [List.getElem?_drop, Array.getElem?_toList]
      rw [if_pos hquote, closing_eq hquote, hget]
      generalize (front.toList.drop (x + 1)).takeWhile (fun b => !ImportLine.isQuote b) = name
      by_cases hend : front[x + 1 + name.length]? = some quote
      · cases name with
        | nil => simp
        | cons b name =>
          simp only [List.length_cons] at hend
          simp [hend, hquote]
          omega
      · simp [hend]
    · simp [hquote]
  · rw [drop_eq_nil hx, Array.getElem?_eq_none (Nat.le_of_not_lt hx)]
    rfl

theorem add_moduleName_le {front : Bytes} {x n : Nat} (h : ImportLine.moduleName? (front.toList.drop x) = some n) :
    x + n ≤ front.size := by
  obtain ⟨name, rest, hdrop, hquoted, rfl⟩ := ImportLine.exists_quoted h
  have hlength := congrArg List.length hdrop
  rw [List.length_drop, Array.length_toList, List.length_append] at hlength
  have hpos := hquoted.length_pos
  omega

theorem wordAt_eq {front : Bytes} {m : Nat} (hm : m + 1 ≤ front.size) (hblank : front[m]?.any isBlank = true) :
    wordAt front (m + 1) fromWord = some (ImportLine.beginsFrom (front.toList.drop (m + 1))) := by
  have hprefix : fromWord.toList.isPrefixOf (front.toList.drop (m + 1)) =
      (front.extract (m + 1) (m + 1 + fromWord.size) == fromWord) := by
    rw [Bool.eq_iff_iff, List.isPrefixOf_iff_prefix, List.prefix_iff_eq_take, beq_iff_eq, ← Array.toList_inj,
      Array.toList_extract, List.extract_eq_take_drop, Nat.add_sub_cancel_left, Array.length_toList]
    exact eq_comm
  have hafter : ((front.toList.drop (m + 1)).drop fromWord.size).head? = front[m + 1 + fromWord.size]? := by
    rw [List.drop_drop, List.head?_drop, Array.getElem?_toList]
  obtain ⟨b, hb, hisBlank⟩ := (Option.any_eq_true _ _).1 hblank
  have hopens : opensWord b = false := by
    have hno := inWord_of_isBlank b hisBlank
    by_contra h
    rw [inWord_of_opensWord (by simpa using h)] at hno
    cases hno
  unfold wordAt
  rw [startsWith_eq hm, Option.bind_eq_bind, Option.bind_some, ImportLine.beginsFrom, hprefix, hafter]
  generalize ((front.extract (m + 1) (m + 1 + fromWord.size) == fromWord) &&
    !front[m + 1 + fromWord.size]?.any inWord) = found
  cases found with
  | false => rfl
  | true => simp [byteBefore, byte, hb, hopens]

theorem tail?_eq (front : Bytes) (x : Nat) : tail? front x = some (ImportLine.tail? (front.toList.drop x)) := by
  unfold tail? ImportLine.tail?
  rw [blanks_eq, Option.bind_eq_bind, Option.bind_some, List.drop_drop]
  generalize x + ImportLine.blanks (front.toList.drop x) = j
  by_cases hj : j < front.size
  · rw [drop_of_getElem? (Array.getElem?_eq_getElem hj), Array.getElem?_eq_getElem hj, ← Array.getElem?_toList,
      ← List.head?_drop]
    rfl
  · rw [drop_eq_nil hj, Array.getElem?_eq_none (Nat.le_of_not_lt hj)]
    rfl

/-! ## The two forms -/

/-- a form by its offsets in the text, from its offsets in the rest of the line -/
def shift (n : Nat) : ImportLine.Form → ImportLine.Form
  | .sideEffect name mark closed => .sideEffect (n + name) (n + mark) closed
  | .bindings mark name closed => .bindings (n + mark) (n + name) closed

theorem edits_shift (form : ImportLine.Form) (i n : Nat) : (shift n form).edits i 0 = form.edits i n := by
  cases form with
  | sideEffect name mark closed => simp [shift, ImportLine.Form.edits]
  | bindings mark name closed => simp [shift, ImportLine.Form.edits]

theorem wordAt_blanks {front : Bytes} {x : Nat} (hx : x ≤ front.size)
    (hpos : 0 < ImportLine.blanks (front.toList.drop x)) :
    wordAt front (x + ImportLine.blanks (front.toList.drop x)) fromWord =
      some (ImportLine.beginsFrom (front.toList.drop (x + ImportLine.blanks (front.toList.drop x)))) := by
  have hle := add_blanks_le hx
  obtain ⟨hblanks, -⟩ := ImportLine.blanksAt_blanks front.toList x
  obtain ⟨gap, hgap⟩ := Nat.exists_eq_succ_of_ne_zero (Nat.ne_of_gt hpos)
  rw [hgap] at hle hblanks ⊢
  refine wordAt_eq hle ?_
  rw [← Array.getElem?_toList]
  exact hblanks.blank _ (Nat.le_add_right x gap) (Nat.lt_succ_self _)

theorem sideEffect?_eq (front : Bytes) (x : Nat) :
    sideEffect? front x = some ((ImportLine.sideEffect? (front.toList.drop x)).map (shift x)) := by
  unfold sideEffect? ImportLine.sideEffect?
  rw [moduleName?_eq]
  cases hname : ImportLine.moduleName? (front.toList.drop x) with
  | none => rfl
  | some name =>
    have hle := add_moduleName_le hname
    simp only [Option.map_some, Option.bind_eq_bind, Option.bind_some, blanks_eq, List.drop_drop]
    by_cases hgap : 0 < ImportLine.blanks (front.toList.drop (x + name))
    · rw [if_pos (Nat.lt_add_of_pos_right hgap), wordAt_blanks hle hgap, Option.bind_some, tail?_eq]
      generalize ImportLine.blanks (front.toList.drop (x + name)) = gap at *
      cases hfrom : ImportLine.beginsFrom (front.toList.drop (x + name + gap)) with
      | false => simp [hgap]
      | true =>
        simp only [hgap, decide_true, Bool.and_self, guard_true, if_true, Nat.add_assoc]
        cases ImportLine.tail? (front.toList.drop (x + (name + (gap + fromWord.size)))) with
        | none => rfl
        | some closed => rfl
    · rw [if_neg (by omega)]
      simp [hgap]

theorem bindingsAt?_eq {front : Bytes} {x n : Nat} (hlt : x + n < front.size) :
    bindingsAt? front (x + n) = some ((ImportLine.bindingsAt? (front.toList.drop x) n).map (shift x)) := by
  unfold bindingsAt? ImportLine.bindingsAt?
  simp only [byte, Array.getElem?_eq_getElem hlt, Option.bind_eq_bind, Option.bind_some, List.drop_drop,
    ← Nat.add_assoc, blanks_eq]
  by_cases hblank : isBlank front[x + n] = true
  · have hgap : 0 < ImportLine.blanks (front.toList.drop (x + n)) := by
      rw [drop_of_getElem? (Array.getElem?_eq_getElem hlt), ImportLine.blanks, List.takeWhile_cons_of_pos hblank,
        List.length_cons]
      exact Nat.succ_pos _
    rw [if_pos hblank, wordAt_blanks (Nat.le_of_lt hlt) hgap, Option.bind_some]
    generalize ImportLine.blanks (front.toList.drop (x + n)) = gap at *
    cases hfrom : ImportLine.beginsFrom (front.toList.drop (x + n + gap)) with
    | false => simp [hgap]
    | true =>
      simp only [hgap, decide_true, Bool.and_self, guard_true, if_true, moduleName?_eq, tail?_eq]
      generalize hspace : ImportLine.blanks (front.toList.drop (x + n + gap + fromWord.size)) = space
      by_cases h0 : space = 0
      · simp [h0]
      · rw [if_neg (by omega)]
        simp only [Nat.pos_of_ne_zero h0, guard_true]
        cases ImportLine.moduleName? (front.toList.drop (x + n + gap + fromWord.size + space)) with
        | none => rfl
        | some name =>
          simp only [Option.map_some, Option.bind_some]
          cases ImportLine.tail? (front.toList.drop (x + n + gap + fromWord.size + space + name)) with
          | none => rfl
          | some closed => simp [shift, Nat.add_assoc]
  · have hgap : ImportLine.blanks (front.toList.drop (x + n)) = 0 := by
      rw [drop_of_getElem? (Array.getElem?_eq_getElem hlt), ImportLine.blanks, List.takeWhile_cons_of_neg hblank,
        List.length_nil]
    rw [if_neg hblank, hgap]
    rfl

/-- the bindings are tried at one offset after another, as the search of a list does -/
theorem bindingsFrom_eq {front : Bytes} {x n m : Nat} (hn : 0 < n) (hm : front.size - (x + n) = m) :
    bindingsFrom front (x + n) = some (((List.range' n m).findSome? fun k =>
      if k = 0 then none else ImportLine.bindingsAt? (front.toList.drop x) k).map (shift x)) := by
  induction m generalizing n with
  | zero =>
    rw [bindingsFrom, if_neg (by omega)]
    rfl
  | succ m ih =>
    have hlt : x + n < front.size := by omega
    rw [bindingsFrom, if_pos hlt, bindingsAt?_eq hlt, Option.bind_eq_bind, Option.bind_some, List.range'_succ,
      List.findSome?_cons, if_neg (Nat.ne_of_gt hn)]
    cases ImportLine.bindingsAt? (front.toList.drop x) n with
    | some form => rfl
    | none => exact ih (Nat.succ_pos n) (by omega)

theorem body?_eq (front : Bytes) (x : Nat) :
    (do match ← sideEffect? front x with
        | some form => return some form
        | none => bindingsFrom front (x + 1)) =
      some ((ImportLine.body? (front.toList.drop x)).map (shift x)) := by
  unfold ImportLine.body?
  rw [sideEffect?_eq, Option.bind_eq_bind, Option.bind_some]
  cases ImportLine.sideEffect? (front.toList.drop x) with
  | some form => rfl
  | none =>
    simp only [Option.map_none]
    rw [bindingsFrom_eq Nat.one_pos rfl, List.range_eq_range', List.length_drop, Array.length_toList]
    cases hm : front.size - x with
    | zero =>
      rw [show front.size - (x + 1) = 0 by omega]
      rfl
    | succ m =>
      rw [show front.size - (x + 1) = m by omega, List.range'_succ]
      rfl

/-! ## Lines -/

theorem lineEnd_eq {src : Bytes} {i : Nat} (hi : i ≤ src.size) :
    lineEnd src i = some (Respell.skipWhile (fun b => !isLineEnd b) src i) := by
  unfold lineEnd
  simp only [range_eq hi (Nat.le_refl _), skipWhile_eq, Option.bind_eq_bind, Option.bind_some]
  exact congrArg some (add_skipWhile _ hi 0)

theorem opensLine_eq {src : Bytes} {i : Nat} (hi : i ≤ src.size) :
    opensLine src i = some (Respell.opensLine src i) := by
  unfold opensLine
  rw [range_eq (Nat.zero_le i) hi, Option.bind_eq_bind, Option.bind_some]
  refine congrArg some ?_
  induction i with
  | zero => simp [Respell.opensLine]
  | succ i ih =>
    have hlt : i < src.size := hi
    have hcut : (src.extract 0 (i + 1)).toList.reverse = src[i] :: (src.extract 0 i).toList.reverse := by
      have hpush : (src.extract 0 i).push src[i] = src.extract 0 (i + 1) := by
        rw [Array.push_extract_getElem hlt, Nat.zero_min]
      rw [← hpush, Array.toList_push, List.reverse_append]
      rfl
    rw [hcut, Respell.opensLine, Array.getElem?_eq_getElem hlt]
    cases hend : isLineEnd src[i] with
    | true => simp [hend]
    | false =>
      rw [List.takeWhile_cons_of_pos (by simp [hend]), List.all_cons, ih (Nat.le_of_succ_le hi)]
      simp [hend]

/-- a line is read on from behind its word `le` -/
theorem lineEnd_word {src : Bytes} {i : Nat} (hx : src.extract i (i + 2) = importWord) :
    Respell.skipWhile (fun b => !isLineEnd b) src i = Respell.skipWhile (fun b => !isLineEnd b) src (i + 2) := by
  refine Respell.skipWhile_eq ?_ ?_ (skipWhile_stops _ src (i + 2))
  · exact Nat.le_trans (Nat.le_add_right i 2) (le_skipWhile _ src (i + 2))
  · intro k h1 h2
    by_cases hk : i + 2 ≤ k
    · exact skipWhile_passes hk h2
    · have hget :=
        getElem?_of_extract hx (show k - i < importWord.size from Nat.sub_lt_left_of_lt_add h1 (Nat.lt_of_not_le hk))
      rw [Nat.add_sub_cancel' h1] at hget
      rw [hget]
      have hword : ∀ n < importWord.size, importWord[n]?.any (fun b => !isLineEnd b) = true := by decide
      exact hword _ (Nat.sub_lt_left_of_lt_add h1 (Nat.lt_of_not_le hk))

/-- **The form of an import line**, read strictly, has the edits of the line. -/
theorem form?_eq {src : Bytes} {i : Nat} (hi : i + 2 ≤ src.size) (hx : src.extract i (i + 2) = importWord) :
    ∃ form, form? src i = some form ∧ (form.map fun form => form.edits i 0).getD [] = ImportLine.lineEdits src i := by
  have hsize : importWord.size = 2 := by decide
  have hcut : (src.extract 0 (Respell.skipWhile (fun b => !isLineEnd b) src (i + 2))).toList.drop (i + 2) =
      (src.extract (i + 2) (Respell.skipWhile (fun b => !isLineEnd b) src (i + 2))).toList := by
    rw [Array.toList_extract, Array.toList_extract, List.extract_eq_take_drop, List.extract_eq_take_drop,
      List.drop_take]
    rfl
  unfold form? ImportLine.lineEdits
  simp only [hsize, lineEnd_eq (show i ≤ src.size by omega), lineEnd_word hx, Option.bind_eq_bind, Option.bind_some,
    range_eq (Nat.zero_le _) (skipWhile_le _ src _ hi), blanks_eq, hcut]
  by_cases h0 :
      ImportLine.blanks (src.extract (i + 2) (Respell.skipWhile (fun b => !isLineEnd b) src (i + 2))).toList = 0
  · rw [if_pos (by omega), if_pos h0]
    exact ⟨none, rfl, rfl⟩
  · rw [if_neg (by omega), if_neg h0]
    refine ⟨_, body?_eq _ _, ?_⟩
    rw [← List.drop_drop, hcut]
    cases ImportLine.body? _ with
    | none => rfl
    | some form => exact edits_shift form i _

/-! ## The rule does what the import rule does -/

theorem importRule_follows {src : Bytes} {s t : Scanner} {i : Nat} {b : UInt8} (hn : s.nextLive src = (some i, t))
    (hb : src[i]? = some b) : Follows src t (ImportLine.rule src t.region i b) (importRule src t.region i) := by
  obtain ⟨-, hlt, -⟩ := Scanner.nextLive_some hn
  have hpos := pos_of_nextLive hn
  have hsize : t.pos ≤ src.size := hpos ▸ hlt
  unfold importRule ImportLine.rule
  simp only [byte, hb, opensLine_eq (Nat.le_of_lt hlt), endOfWord_eq, Option.bind_eq_bind, Option.bind_some]
  by_cases hin : inWord b = true
  · have hstop : i < endOfWord src i := lt_endOfWord hb hin
    have hle : endOfWord src i ≤ src.size := skipWhile_le _ _ _ (Nat.le_of_lt hlt)
    simp only [hin, if_true, range_eq (Nat.le_of_lt hstop) hle, Option.bind_some]
    by_cases hmark : t.region = .normal ∧ src.extract i (endOfWord src i) = importWord ∧ Respell.opensLine src i = true
    · have hwidth : endOfWord src i = i + 2 := by
        have hlen := congrArg Array.size hmark.2.1
        rw [Array.size_extract, Nat.min_eq_left hle, show importWord.size = 2 by decide] at hlen
        omega
      rw [if_pos hmark, if_pos hmark]
      rw [hwidth] at hmark hstop hle ⊢
      obtain ⟨form, hform, hedits⟩ := form?_eq hle hmark.2.1
      rw [hform, Option.bind_some, ← hedits]
      cases form with
      | none => exact follows_move hsize (hpos ▸ hstop)
      | some form => exact follows_move hsize (hpos ▸ hstop)
    · rw [if_neg hmark, if_neg hmark]
      exact follows_move hsize (hpos ▸ hstop)
  · simp only [hin]
    exact follows_stay (by omega)

end Respell.Strict
