/-
Texts whose lines end in a carriage return and a line feed. `crlf src` has a carriage return in front of each line
feed, and `lift src k` is the offset at which what stands for byte `k` begins. A byte keeps its value, but for a line
feed, whose place a carriage return takes (`getElem?_lift`); every offset is a lifted one, or the line feed behind one
(`exists_lift`).

All that is read from single bytes is the same in both texts, at lifted offsets: runs of bytes that do not tell the
two line ends apart (`skipWhile_lift`), words (`isWord_lift`, `exists_word`), the two look-behinds, and the rest of a
line (`lineFrom_lift`).
-/
import Respell.Proofs.Lines
import Respell.Proofs.Boundaries
import Respell.Proofs.ImportGrammar

namespace Respell

/-! ## The text and its offsets -/

/-- a line feed with a carriage return in front of it, or the byte alone -/
def returned (b : UInt8) : List UInt8 := if b = ascii '\n' then [ascii '\r', ascii '\n'] else [b]

/-- the first of these bytes -/
def front (b : UInt8) : UInt8 := if b = ascii '\n' then ascii '\r' else b

/-- a text with a carriage return in front of each line feed -/
def crlf (src : Bytes) : Bytes := (src.toList.flatMap returned).toArray

/-- where in that text byte `k` stands: a byte further for each line feed before it -/
def lift (src : Bytes) (k : Nat) : Nat := k + lineFeeds src k

theorem returned_of_ne {b : UInt8} (h : b ≠ ascii '\n') : returned b = [b] := if_neg h

theorem front_of_ne {b : UInt8} (h : b ≠ ascii '\n') : front b = b := if_neg h

theorem length_returned (bs : List UInt8) : (bs.flatMap returned).length = bs.length + bs.count (ascii '\n') := by
  induction bs with
  | nil => rfl
  | cons b bs ih =>
    rw [List.flatMap_cons, List.length_append, ih, List.length_cons, List.count_cons]
    by_cases hb : b = ascii '\n'
    · simp [returned, hb]
      omega
    · simp [returned, hb]
      omega

theorem returned_self {bs : List UInt8} (h : ∀ b ∈ bs, b ≠ ascii '\n') : bs.flatMap returned = bs := by
  induction bs with
  | nil => rfl
  | cons b bs ih =>
    rw [List.flatMap_cons, returned_of_ne (h b List.mem_cons_self), ih fun x hx => h x (List.mem_cons_of_mem b hx)]
    rfl

section offsets

variable {src : Bytes} {k : Nat}

theorem lift_zero (src : Bytes) : lift src 0 = 0 := rfl

theorem lift_add_one (src : Bytes) (k : Nat) :
    lift src (k + 1) = lift src k + if src[k]? = some (ascii '\n') then 2 else 1 := by
  rw [lift, lift, lineFeeds_succ]
  split_ifs <;> omega

theorem lift_succ {b : UInt8} (hb : src[k]? = some b) (hne : b ≠ ascii '\n') : lift src (k + 1) = lift src k + 1 := by
  rw [lift_add_one, hb, if_neg (by simpa using hne)]

theorem lift_lineFeed (hb : src[k]? = some (ascii '\n')) : lift src (k + 1) = lift src k + 2 := by
  rw [lift_add_one, if_pos hb]

theorem lift_lt_succ (src : Bytes) (k : Nat) : lift src k < lift src (k + 1) := by
  rw [lift_add_one]
  split_ifs <;> omega

theorem lift_strictMono (src : Bytes) : StrictMono (lift src) := strictMono_nat_of_lt_succ (lift_lt_succ src)

theorem lift_inj {i j : Nat} : lift src i = lift src j ↔ i = j := (lift_strictMono src).injective.eq_iff

/-- what is left from a lifted offset on -/
theorem drop_lift (src : Bytes) (k : Nat) :
    (crlf src).toList.drop (lift src k) = (src.toList.drop k).flatMap returned := by
  have hsplit : (crlf src).toList = (src.toList.take k).flatMap returned ++ (src.toList.drop k).flatMap returned := by
    rw [← List.flatMap_append, List.take_append_drop, crlf]
  rcases Nat.lt_or_ge src.size k with hk | hk
  · have hpast : src.toList.length ≤ k := by simpa using Nat.le_of_lt hk
    rw [List.drop_eq_nil_of_le hpast, List.flatMap_nil]
    refine List.drop_eq_nil_of_le ?_
    rw [crlf, length_returned, lift, lineFeeds, List.take_of_length_le hpast]
    exact Nat.add_le_add_right hpast _
  · rw [hsplit]
    refine List.drop_left' ?_
    rw [length_returned, List.length_take, Array.length_toList, Nat.min_eq_left hk]
    rfl

theorem size_crlf (src : Bytes) : (crlf src).size = lift src src.size := by
  rw [lift, lineFeeds, List.take_of_length_le (by simp), ← Array.length_toList, crlf, length_returned,
    Array.length_toList]

/-- **Bytes of the text** with carriage returns, at lifted offsets. -/
theorem getElem?_lift (src : Bytes) (k : Nat) : (crlf src)[lift src k]? = src[k]?.map front := by
  rw [← Array.getElem?_toList, ← List.head?_drop, drop_lift]
  cases hb : src[k]? with
  | none =>
    rw [List.drop_eq_nil_of_le (by simpa using hb)]
    rfl
  | some b =>
    rw [drop_of_getElem? hb, List.flatMap_cons, Option.map_some]
    by_cases hne : b = ascii '\n'
    · simp [returned, front, hne]
    · simp [returned, front, hne]

theorem getElem?_lift_succ {b : UInt8} (hb : src[k]? = some b) (hne : b ≠ ascii '\n') :
    (crlf src)[lift src k + 1]? = src[k + 1]?.map front := by
  rw [← lift_succ hb hne, getElem?_lift]

theorem getElem?_lineFeed (hb : src[k]? = some (ascii '\n')) : (crlf src)[lift src k + 1]? = some (ascii '\n') := by
  have hdrop := drop_lift src k
  rw [drop_of_getElem? hb] at hdrop
  rw [← Array.getElem?_toList, ← List.getElem?_drop, hdrop]
  rfl

theorem getElem?_before {b : UInt8} (hb : src[k]? = some b) :
    ∃ q, lift src (k + 1) = q + 1 ∧ (crlf src)[q]? = some b := by
  by_cases hne : b = ascii '\n'
  · subst hne
    exact ⟨lift src k + 1, lift_lineFeed hb, getElem?_lineFeed hb⟩
  · refine ⟨lift src k, lift_succ hb hne, ?_⟩
    rw [getElem?_lift, hb, Option.map_some, front_of_ne hne]

/-- every offset inside the text is a lifted one, or that of a line feed behind one -/
theorem exists_lift {q : Nat} (hq : q < (crlf src).size) :
    ∃ k < src.size, q = lift src k ∨ q = lift src k + 1 ∧ src[k]? = some (ascii '\n') := by
  rw [size_crlf] at hq
  generalize src.size = n at hq
  induction n with
  | zero => cases hq
  | succ n ih =>
    rcases Nat.lt_or_ge q (lift src n) with hlt | hge
    · obtain ⟨k, hk, h⟩ := ih hlt
      exact ⟨k, Nat.lt_succ_of_lt hk, h⟩
    · refine ⟨n, Nat.lt_succ_self n, ?_⟩
      rw [lift_add_one] at hq
      split_ifs at hq with hb
      · rcases Nat.eq_or_lt_of_le hge with heq | hlt
        · exact .inl heq.symm
        · exact .inr ⟨Nat.le_antisymm (Nat.le_of_lt_succ hq) hlt, hb⟩
      · exact .inl (Nat.le_antisymm (Nat.le_of_lt_succ hq) hge)

/-- a byte that ends no line stands at a lifted offset, and in the first text as well -/
theorem exists_of_get {q : Nat} {b : UInt8} (hq : (crlf src)[q]? = some b) (hb : isLineEnd b = false) :
    ∃ k, q = lift src k ∧ src[k]? = some b := by
  obtain ⟨hlt, -⟩ := Array.getElem?_eq_some_iff.1 hq
  obtain ⟨k, hk, rfl | ⟨rfl, hfeed⟩⟩ := exists_lift hlt
  · refine ⟨k, rfl, ?_⟩
    rw [getElem?_lift, Array.getElem?_eq_getElem hk, Option.map_some, Option.some.injEq, front] at hq
    split_ifs at hq with h
    · subst hq
      cases hb
    · rw [Array.getElem?_eq_getElem hk, hq]
  · rw [getElem?_lineFeed hfeed, Option.some.injEq] at hq
    subst hq
    cases hb

end offsets

/-- a class of bytes that does not tell line feeds and carriage returns apart -/
theorem any_front {p : UInt8 → Bool} (hp : p (ascii '\r') = p (ascii '\n')) (o : Option UInt8) :
    (o.map front).any p = o.any p := by
  cases o with
  | none => rfl
  | some b =>
    by_cases hb : b = ascii '\n'
    · simp [front, hb, hp]
    · simp [front, hb]

theorem map_front_eq_some {c : UInt8} (hc : isLineEnd c = false) {o : Option UInt8} :
    o.map front = some c ↔ o = some c := by
  have hfront : (o.map front).any (· == c) = o.any (· == c) := by
    refine any_front ?_ o
    have h1 : ascii '\r' ≠ c := by
      rintro rfl
      cases hc
    have h2 : ascii '\n' ≠ c := by
      rintro rfl
      cases hc
    simp [h1, h2]
  cases o with
  | none => simp
  | some b => simpa using hfront

/-- on one line, offsets are lifted by the same distance -/
theorem lift_add {src : Bytes} {i n : Nat} (h : ∀ k < n, src[i + k]? ≠ some (ascii '\n')) :
    lift src (i + n) = lift src i + n := by
  induction n with
  | zero => rfl
  | succ n ih =>
    rw [← Nat.add_assoc, lift_add_one, if_neg (h n (Nat.lt_succ_self n)), ih fun k hk => h k (Nat.lt_succ_of_lt hk)]
    rfl

/-! ## Runs and words -/

section runs

variable {src : Bytes} {i j : Nat}

theorem skipWhile_succ {p : UInt8 → Bool} (h : src[i]?.any p = true) : skipWhile p src i = skipWhile p src (i + 1) := by
  obtain ⟨b, hb, hp⟩ := (Option.any_eq_true _ _).1 h
  obtain ⟨hlt, rfl⟩ := Array.getElem?_eq_some_iff.1 hb
  rw [skipWhile, dif_pos hlt, if_pos hp]

/-- **Runs.** A run of bytes of a class that does not tell the line ends apart -/
theorem skipWhile_lift {p : UInt8 → Bool} (hp : p (ascii '\r') = p (ascii '\n')) (src : Bytes) (i : Nat) :
    skipWhile p (crlf src) (lift src i) = lift src (skipWhile p src i) := by
  have hstop : ∀ i, src[i]?.any p = false → skipWhile p (crlf src) (lift src i) = lift src i := by
    intro i h
    refine skipWhile_eq (Nat.le_refl _) (fun k h1 h2 => absurd h1 (Nat.not_le_of_lt h2)) ?_
    rw [getElem?_lift, any_front hp, h]
  fun_induction skipWhile p src i with
  | case1 i hlt hpass ih =>
    have hb : src[i]? = some src[i] := Array.getElem?_eq_getElem hlt
    have hfirst : (crlf src)[lift src i]?.any p = true := by rw [getElem?_lift, any_front hp, hb]; exact hpass
    rw [← ih, skipWhile_succ hfirst]
    by_cases hne : src[i] = ascii '\n'
    · rw [hne] at hb hpass
      rw [lift_lineFeed hb, skipWhile_succ (by rw [getElem?_lineFeed hb]; exact hpass)]
    · rw [lift_succ hb hne]
  | case2 i hlt hpass => exact hstop i (by rw [Array.getElem?_eq_getElem hlt]; simpa using hpass)
  | case3 i hlt => exact hstop i (by rw [Array.getElem?_eq_none (Nat.le_of_not_lt hlt)]; rfl)

theorem endOfWord_lift (src : Bytes) (i : Nat) : endOfWord (crlf src) (lift src i) = lift src (endOfWord src i) :=
  skipWhile_lift (by decide) src i

theorem skipSpace_lift (src : Bytes) (i : Nat) : skipSpace (crlf src) (lift src i) = lift src (skipSpace src i) :=
  skipWhile_lift (by decide) src i

theorem extract_lift (hj : j ≤ src.size) :
    ((crlf src).extract (lift src i) (lift src j)).toList = (src.extract i j).toList.flatMap returned := by
  rcases Nat.lt_or_ge j i with hlt | hle
  · rw [Array.extract_empty_of_stop_le_start (Nat.le_of_lt hlt),
      Array.extract_empty_of_stop_le_start (Nat.le_of_lt (lift_strictMono src hlt))]
    rfl
  · have hback : (src.toList.drop i).flatMap returned =
        (src.extract i j).toList.flatMap returned ++ (src.toList.drop j).flatMap returned := by
      rw [← List.flatMap_append, Array.toList_extract, List.extract_eq_take_drop]
      conv_lhs => rw [← List.take_append_drop (j - i) (src.toList.drop i), List.drop_drop, Nat.add_sub_cancel' hle]
    have hlen : ((src.extract i j).toList.flatMap returned).length = lift src j - lift src i := by
      have hwhole := congrArg List.length hback
      rw [List.length_append, ← drop_lift, ← drop_lift, List.length_drop, List.length_drop,
        Array.length_toList] at hwhole
      have hsize : lift src j ≤ (crlf src).size := by
        rw [size_crlf]
        exact (lift_strictMono src).monotone hj
      omega
    rw [Array.toList_extract, List.extract_eq_take_drop, drop_lift, hback, ← hlen, List.take_left]

theorem extract_lift_same (hj : j ≤ src.size) (h : ∀ k, i ≤ k → k < j → src[k]? ≠ some (ascii '\n')) :
    (crlf src).extract (lift src i) (lift src j) = src.extract i j := by
  apply Array.toList_inj.1
  rw [extract_lift hj, returned_self]
  intro b hb
  obtain ⟨n, hn, rfl⟩ := List.getElem_of_mem hb
  rw [Array.length_toList, Array.size_extract] at hn
  intro heq
  refine h (i + n) (Nat.le_add_right i n) (by omega) ?_
  rw [← heq, Array.getElem_toList, Array.getElem_extract, Array.getElem?_eq_getElem]

theorem ne_lineFeed_of_inWord {o : Option UInt8} (h : o.any inWord = true) : o ≠ some (ascii '\n') := by
  rintro rfl
  cases h

theorem extract_run (src : Bytes) {i : Nat} (hi : i ≤ src.size) :
    (crlf src).extract (lift src i) (lift src (endOfWord src i)) = src.extract i (endOfWord src i) :=
  extract_lift_same (skipWhile_le inWord src i hi) fun _ h1 h2 => ne_lineFeed_of_inWord (skipWhile_passes h1 h2)

theorem isWord_lift (h : IsWord src i j) : IsWord (crlf src) (lift src i) (lift src j) := by
  rw [← h.endOfWord_eq, ← endOfWord_lift]
  refine isWord_endOfWord ?_ ?_
  · rw [getElem?_lift, any_front (by decide)]
    exact h.first
  · intro k hk
    cases i with
    | zero => cases hk
    | succ i =>
      have hlt : i < src.size := Nat.lt_of_succ_le (Nat.le_of_lt (Nat.lt_of_lt_of_le h.lt h.le_size))
      obtain ⟨q, hq, hget⟩ := getElem?_before (Array.getElem?_eq_getElem hlt)
      obtain rfl : k = q := Nat.succ_inj.1 (hk.trans hq)
      rw [hget, ← Array.getElem?_eq_getElem hlt]
      exact h.before i rfl

/-- **Words.** The words of the text with carriage returns are the words of the text. -/
theorem exists_word {a b : Nat} (h : IsWord (crlf src) a b) :
    ∃ i j, a = lift src i ∧ b = lift src j ∧ IsWord src i j := by
  obtain ⟨c, hc, hin⟩ := (Option.any_eq_true _ _).1 h.first
  obtain ⟨i, rfl, hi⟩ := exists_of_get hc (isLineEnd_of_inWord c hin)
  refine ⟨i, endOfWord src i, rfl, ?_, isWord_endOfWord (by rw [hi]; exact hin) ?_⟩
  · rw [← endOfWord_lift, h.endOfWord_eq]
  · rintro k rfl
    cases hk : src[k]? with
    | none => rfl
    | some d =>
      obtain ⟨q, hq, hget⟩ := getElem?_before hk
      have hbefore := h.before q hq.symm
      rwa [hget] at hbefore

theorem IsWord.extract_lift (h : IsWord src i j) : (crlf src).extract (lift src i) (lift src j) = src.extract i j :=
  extract_lift_same h.le_size fun k h1 h2 => ne_lineFeed_of_inWord (h.inside k h1 h2)

theorem gap_lift_iff {b : Nat} (h : IsWord src i j) : Gap (crlf src) (lift src b) (lift src i) ↔ Gap src b i := by
  refine ⟨?_, ?_⟩
  · intro hg
    have heq := hg.skipSpace_word (isWord_lift h)
    rw [skipSpace_lift, lift_inj] at heq
    exact heq ▸ gap_skipSpace src b
  · intro hg
    rw [← hg.skipSpace_word h, ← skipSpace_lift]
    exact gap_skipSpace _ _

end runs

/-! ## Looking behind, marks and lines -/

section behind

variable {src : Bytes} {i : Nat}

theorem isMemberDot_lift (src : Bytes) (i : Nat) : isMemberDot (crlf src) (lift src i) = isMemberDot src i := by
  unfold isMemberDot
  by_cases hdot : src[i]? = some (ascii '.')
  · have hlt := (Array.getElem?_eq_some_iff.1 hdot).1
    have hnext : (crlf src)[lift src i + 1]? = some (ascii '.') ↔ src[i + 1]? = some (ascii '.') := by
      rw [getElem?_lift_succ hdot (by decide), map_front_eq_some (by decide)]
    have hfirst : (crlf src)[lift src i]? = some (ascii '.') := by
      rw [getElem?_lift, hdot]
      rfl
    have hprev : (0 < lift src i ∧ (crlf src)[lift src i - 1]? = some (ascii '.')) ↔
        (0 < i ∧ src[i - 1]? = some (ascii '.')) := by
      cases i with
      | zero => simp [lift_zero]
      | succ k =>
        obtain ⟨q, hq, hget⟩ := getElem?_before (Array.getElem?_eq_getElem (Nat.lt_of_succ_lt hlt))
        rw [hq, Nat.add_sub_cancel, hget, Nat.add_sub_cancel, Array.getElem?_eq_getElem (Nat.lt_of_succ_lt hlt)]
        simp
    rw [Bool.eq_iff_iff]
    simp only [Bool.and_eq_true, Bool.not_eq_true', Bool.and_eq_false_imp, decide_eq_true_eq, beq_iff_eq,
      bne_iff_ne, ne_eq, beq_eq_false_iff_ne, hdot, hfirst, hnext, true_and]
    rw [← not_and, ← not_and, hprev]
  · have hno : ¬ (crlf src)[lift src i]? = some (ascii '.') := by
      rwa [getElem?_lift, map_front_eq_some (by decide)]
    rw [beq_eq_false_iff_ne.2 hdot, beq_eq_false_iff_ne.2 hno]
    rfl

theorem afterMemberDot_lift (hi : i ≤ src.size) : afterMemberDot (crlf src) (lift src i) = afterMemberDot src i := by
  induction i with
  | zero => rfl
  | succ i ih =>
    have ih := ih (Nat.le_of_succ_le hi)
    have hb : src[i]? = some src[i] := Array.getElem?_eq_getElem hi
    by_cases hne : src[i] = ascii '\n'
    · -- a line feed and its carriage return are whitespace
      rw [hne] at hb
      have hfirst : (crlf src)[lift src i]? = some (ascii '\r') := by
        rw [getElem?_lift, hb]
        rfl
      rw [lift_lineFeed hb, afterMemberDot, getElem?_lineFeed hb, if_pos (by decide), afterMemberDot, hfirst,
        if_pos (by decide), ih, afterMemberDot, hb, if_pos (by decide)]
    · have hspace : (crlf src)[lift src i]?.any isSpace = src[i]?.any isSpace := by
        rw [getElem?_lift, any_front (by decide)]
      rw [lift_succ hb hne, afterMemberDot, afterMemberDot, hspace, ih, isMemberDot_lift]

theorem opensLine_lift (hi : i ≤ src.size) : opensLine (crlf src) (lift src i) = opensLine src i := by
  induction i with
  | zero => rfl
  | succ i ih =>
    have hb : src[i]? = some src[i] := Array.getElem?_eq_getElem hi
    obtain ⟨q, hq, hget⟩ := getElem?_before hb
    by_cases hne : src[i] = ascii '\n'
    · simp only [hq, opensLine, hget, hb, hne]
      rfl
    · obtain rfl : lift src i = q := Nat.succ_inj.1 ((lift_succ hb hne).symm.trans hq)
      simp only [hq, opensLine, hget, hb, ih (Nat.le_of_succ_le hi)]

theorem extract_mark_iff {mark : Bytes} (hmark : ∀ k < mark.size, mark[k]?.any isLineEnd = false) :
    (crlf src).extract (lift src i) (lift src i + mark.size) = mark ↔ src.extract i (i + mark.size) = mark := by
  have hends : ∀ k (hk : k < mark.size), isLineEnd mark[k] = false := by
    intro k hk
    have hend := hmark k hk
    rwa [Array.getElem?_eq_getElem hk] at hend
  -- a mark that is there up to `n` has no line feed up to there
  have hlift : ∀ n ≤ mark.size, (∀ k < n, src[i + k]? = mark[k]?) → lift src (i + n) = lift src i + n := by
    intro n hn h
    refine lift_add ?_
    intro k hk heq
    have hk' : k < mark.size := Nat.lt_of_lt_of_le hk hn
    rw [h k hk, Array.getElem?_eq_getElem hk', Option.some.injEq] at heq
    have hend := hends k hk'
    rw [heq] at hend
    cases hend
  refine ⟨?_, ?_⟩
  · intro h
    have hbytes : ∀ n ≤ mark.size, ∀ k < n, src[i + k]? = mark[k]? := by
      intro n
      induction n with
      | zero => intro _ k hk; cases hk
      | succ n ih =>
        intro hn k hk
        have ih := ih (Nat.le_of_succ_le hn)
        rcases Nat.lt_succ_iff_lt_or_eq.1 hk with hk | rfl
        · exact ih k hk
        · have hget := getElem?_of_extract h hn
          rw [← hlift k (Nat.le_of_succ_le hn) ih, getElem?_lift, Array.getElem?_eq_getElem hn,
            map_front_eq_some (hends k hn)] at hget
          rw [hget, Array.getElem?_eq_getElem hn]
    exact extract_eq (hbytes mark.size (Nat.le_refl _))
  · intro h
    refine extract_eq ?_
    intro k hk
    have hbytes : ∀ k < mark.size, src[i + k]? = mark[k]? := fun k hk => getElem?_of_extract h hk
    rw [← hlift k (Nat.le_of_lt hk) fun n hn => hbytes n (Nat.lt_trans hn hk), getElem?_lift, hbytes k hk,
      Array.getElem?_eq_getElem hk, map_front_eq_some (hends k hk)]

/-- the rest of a line ends at the line feed, or at its carriage return -/
theorem lineFrom_lift (hi : i ≤ src.size) :
    ImportLine.lineFrom (crlf src) (lift src i) = ImportLine.lineFrom src i := by
  unfold ImportLine.lineFrom
  rw [skipWhile_lift (by decide), extract_lift_same (skipWhile_le _ src i hi)]
  intro k h1 h2 heq
  have hpass := skipWhile_passes h1 h2
  rw [heq] at hpass
  cases hpass

end behind

/-! ## Characters -/

def crlfText (text : String) : String :=
  String.ofList (text.toList.flatMap fun c => if c = '\n' then ['\r', '\n'] else [c])

theorem utf8_crlfText (text : String) : utf8 (crlfText text) = crlf (utf8 text) := by
  have hchar : ∀ c : Char, (encode c).flatMap returned = (if c = '\n' then ['\r', '\n'] else [c]).flatMap encode := by
    intro c
    by_cases hc : c = '\n'
    · subst hc
      decide
    · rw [if_neg hc, List.flatMap_cons, List.flatMap_nil, List.append_nil, returned_self]
      rintro b hb rfl
      exact hc (ascii_mem_encode (by decide) hb)
  rw [crlfText, utf8_ofList, crlf, utf8_toList, List.flatMap_assoc, List.flatMap_assoc]
  simp only [hchar]

end Respell
