/-
Places of a text, character by character. `placeFrom` says the line and column of an offset by walking over the
characters before it: a line ends at a line feed, and at a carriage return that no line feed follows; a column counts
UTF-16 units, of which a character has one, or two if its code point needs more than sixteen bits (`units`).

Main result, `locate?_ofText`: the table of line beginnings, searched by bisection, gives the place that the walk
does, for every offset between two characters. The end of a text is one of them only if the text ends no line there,
since an empty last line is not in the table.
-/
import Respell.SourceMap.Mark
import Respell.Proofs.Boundaries
import Respell.Proofs.Lines

namespace Respell

/-! ## Units -/

/-- how many UTF-16 units a character takes -/
def units (c : Char) : Nat := if c.toNat < 0x10000 then 1 else 2

theorem utf16Size_eq (src : Bytes) : utf16Size src = (src.toList.map utf16Width).sum := by
  have hfold : ∀ (xs : List UInt8) (n : Nat),
      xs.foldl (fun n b => n + utf16Width b) n = n + (xs.map utf16Width).sum := by
    intro xs
    induction xs with
    | nil => simp
    | cons b xs ih =>
      intro n
      rw [List.foldl_cons, ih, List.map_cons, List.sum_cons, Nat.add_assoc]
  rw [utf16Size, ← Array.foldl_toList, hfold, Nat.zero_add]

theorem utf16Width_leading : ∀ b : UInt8, utf16Width (b &&& 0x1f ||| 0xc0) = 1 ∧ utf16Width (b &&& 0x0f ||| 0xe0) = 1 ∧
    utf16Width (b &&& 0x07 ||| 0xf0) = 2 ∧ utf16Width (b &&& 0x3f ||| 0x80) = 0 := by
  decide +kernel

theorem utf16Width_ascii : ∀ b : UInt8, b < 0x80 → utf16Width b = 1 := by decide +kernel

theorem units_of_utf8Size {c : Char} (h : c.utf8Size ≠ 4) : units c = 1 := by
  rw [Ne, Char.utf8Size_eq_four_iff, UInt32.not_lt, UInt32.le_iff_toNat_le] at h
  exact if_pos (Nat.lt_succ_of_le h)

/-- the units of a character are read off from its first byte -/
theorem utf16Width_encode (c : Char) : ((encode c).map utf16Width).sum = units c := by
  rcases c.utf8Size_eq with h | h | h | h
  · have hlt : c.val.toUInt8 < 0x80 := by
      have hc := (utf8Size_eq_one_iff c).1 h
      rw [UInt8.lt_iff_toNat_lt]
      exact (toNat_ascii hc).symm ▸ hc
    rw [encode, String.utf8EncodeChar_eq_singleton h, units_of_utf8Size (by omega), List.map_singleton,
      List.sum_singleton]
    exact utf16Width_ascii _ hlt
  · rw [encode, String.utf8EncodeChar_eq_cons_cons h, units_of_utf8Size (by omega)]
    simp [utf16Width_leading]
  · rw [encode, String.utf8EncodeChar_eq_cons_cons_cons h, units_of_utf8Size (by omega)]
    simp [utf16Width_leading]
  · have hge : ¬ c.toNat < 0x10000 := by
      rw [Char.utf8Size_eq_four_iff, UInt32.lt_iff_toNat_lt] at h
      exact Nat.not_lt.2 h
    rw [encode, String.utf8EncodeChar_eq_cons_cons_cons_cons h, units, if_neg hge]
    simp [utf16Width_leading]

theorem utf16Size_extract_encode {src : Bytes} {s o : Nat} {c : Char} {rest : List UInt8} (hs : s ≤ o)
    (h : src.toList.drop o = encode c ++ rest) :
    utf16Size (src.extract s (o + (encode c).length)) = utf16Size (src.extract s o) + units c := by
  have hdrop : (src.toList.drop s).drop (o - s) = encode c ++ rest := by
    rw [List.drop_drop, Nat.add_sub_cancel' hs, h]
  have htext : (src.extract s (o + (encode c).length)).toList = (src.extract s o).toList ++ encode c := by
    rw [Array.toList_extract, Array.toList_extract, List.extract_eq_take_drop, List.extract_eq_take_drop,
      Nat.sub_add_comm hs, List.take_add, hdrop, List.take_left]
  rw [utf16Size_eq, utf16Size_eq, htext, List.map_append, List.sum_append, utf16Width_encode]

theorem utf16Size_extract_self (src : Bytes) (o : Nat) : utf16Size (src.extract o o) = 0 := by
  rw [utf16Size_eq, Array.extract_eq_empty_of_le (Nat.min_le_left _ _)]
  rfl

/-! ## Places -/

/-- whether a line ends after the character `c`, with `ahead` the character after it -/
def endsLine (c : Char) (ahead : Option Char) : Bool := c == '\n' || (c == '\r' && ahead != some '\n')

/-- the place of the character at byte offset `n` of characters that stand at `place` -/
def placeFrom (place : Location) (n : Nat) : List Char → Location
  | [] => place
  | c :: rest =>
    if n < c.utf8Size then place
    else
      let next := if endsLine c rest.head? then ⟨place.line + 1, 0⟩ else { place with column := place.column + units c }
      placeFrom next (n - c.utf8Size) rest

namespace Places

theorem breaks_of_ne {offset : Nat} {b : UInt8} (rest : List UInt8) (hb : b ≠ ascii '\r') :
    breaks offset (b :: rest) =
      if b = ascii '\n' then (offset + 1) :: breaks (offset + 1) rest else breaks (offset + 1) rest := by
  cases rest <;> simp only [breaks, if_neg hb]

/-- one byte of the search for line ends: in front of a line feed, a carriage return ends nothing -/
theorem breaks_cons (offset : Nat) (b : UInt8) (rest : List UInt8) :
    breaks offset (b :: rest) =
      if b = ascii '\n' ∨ (b = ascii '\r' ∧ rest.head? ≠ some (ascii '\n')) then
        (offset + 1) :: breaks (offset + 1) rest
      else breaks (offset + 1) rest := by
  have hne : ascii '\n' ≠ ascii '\r' := by decide
  by_cases hr : b = ascii '\r'
  · subst hr
    cases rest with
    | nil => simp [breaks]
    | cons c more =>
      by_cases hc : c = ascii '\n'
      · subst hc
        simp [breaks_of_ne more hne, breaks, hne.symm]
      · simp [breaks, hc]
  · rw [breaks_of_ne rest hr]
    simp [hr]

/-- a line begins behind the byte that ends the one before -/
theorem mem_breaks {offset k : Nat} {xs : List UInt8} (h : k ∈ breaks offset xs) :
    offset < k ∧ k ≤ offset + xs.length ∧ xs[k - (offset + 1)]?.any isLineEnd = true := by
  induction xs generalizing offset with
  | nil => cases h
  | cons b rest ih =>
    have hrest : k ∈ breaks (offset + 1) rest →
        offset < k ∧ k ≤ offset + (b :: rest).length ∧ (b :: rest)[k - (offset + 1)]?.any isLineEnd = true := by
      intro hk
      obtain ⟨h1, h2, h3⟩ := ih hk
      rw [List.length_cons, show k - (offset + 1) = k - (offset + 1 + 1) + 1 by omega, List.getElem?_cons_succ]
      exact ⟨by omega, by omega, h3⟩
    rw [breaks_cons] at h
    split at h
    · next hb =>
      rcases List.mem_cons.1 h with rfl | h
      · refine ⟨Nat.lt_succ_self _, Nat.add_le_add_left (Nat.le_add_left 1 _) _, ?_⟩
        rw [Nat.sub_self]
        rcases hb with rfl | ⟨rfl, -⟩ <;> rfl
      · exact hrest h
    · exact hrest h

theorem breaks_pairwise (offset : Nat) (xs : List UInt8) : (breaks offset xs).Pairwise (· < ·) := by
  induction xs generalizing offset with
  | nil => exact .nil
  | cons b rest ih =>
    rw [breaks_cons]
    split
    · exact List.pairwise_cons.2 ⟨fun k hk => (mem_breaks hk).1, ih _⟩
    · exact ih _

theorem breaks_append {offset : Nat} {xs ys : List UInt8} (h : ∀ b ∈ xs, b ≠ ascii '\n' ∧ b ≠ ascii '\r') :
    breaks offset (xs ++ ys) = breaks (offset + xs.length) ys := by
  induction xs generalizing offset with
  | nil => rfl
  | cons b xs ih =>
    obtain ⟨h1, h2⟩ := h b List.mem_cons_self
    rw [List.cons_append, breaks_cons, if_neg (by simp [h1, h2]), ih fun x hx => h x (List.mem_cons_of_mem b hx),
      List.length_cons, Nat.add_assoc, Nat.add_comm 1]

/-- a text begins with the byte of a line feed just when its characters do -/
theorem head?_lineFeed (cs : List Char) :
    (cs.flatMap encode).head? = some (ascii '\n') ↔ cs.head? = some '\n' := by
  cases cs with
  | nil => simp
  | cons c cs =>
    obtain ⟨b, bs, heq, -⟩ := encode_eq_cons c
    rw [List.flatMap_cons, heq, List.cons_append, List.head?_cons, List.head?_cons, Option.some.injEq,
      Option.some.injEq]
    constructor
    · rintro rfl
      exact ascii_mem_encode (by decide) (heq ▸ List.mem_cons_self)
    · rintro rfl
      exact (List.cons.inj heq).1.symm

theorem breaks_encode (offset : Nat) (c : Char) (rest : List Char) :
    breaks offset (encode c ++ rest.flatMap encode) =
      if endsLine c rest.head? then (offset + 1) :: breaks (offset + 1) (rest.flatMap encode)
      else breaks (offset + (encode c).length) (rest.flatMap encode) := by
  by_cases hn : c = '\n'
  · subst hn
    exact breaks_cons offset (ascii '\n') _
  by_cases hr : c = '\r'
  · subst hr
    refine (breaks_cons offset (ascii '\r') (rest.flatMap encode)).trans ?_
    have hne : ascii '\r' ≠ ascii '\n' := by decide
    by_cases hhead : rest.head? = some '\n'
    · rw [if_neg (by simp [(head?_lineFeed rest).2 hhead, hne]), hhead]
      rfl
    · rw [if_pos (.inr ⟨rfl, fun h => hhead ((head?_lineFeed rest).1 h)⟩), if_pos (by simp [endsLine, hhead])]
  · have hplain : ∀ b ∈ encode c, b ≠ ascii '\n' ∧ b ≠ ascii '\r' := by
      intro b hb
      constructor
      · rintro rfl
        exact hn (ascii_mem_encode (by decide) hb)
      · rintro rfl
        exact hr (ascii_mem_encode (by decide) hb)
    rw [breaks_append hplain, endsLine]
    simp [hn, hr]

/-! ## The walk and the table -/

/-- the beginnings of lines up to offset `p`, behind the first one -/
def seen (offset p : Nat) (xs : List UInt8) : List Nat := (breaks offset xs).takeWhile (· ≤ p)

theorem seen_self (p : Nat) (xs : List UInt8) : seen p p xs = [] := by
  rw [seen, List.takeWhile_eq_nil_iff]
  intro hl
  have hlt := (mem_breaks (List.getElem_mem hl)).1
  simpa using hlt

theorem seen_encode {offset p : Nat} {c : Char} (rest : List Char) (hp : offset + 1 ≤ p) :
    seen offset p (encode c ++ rest.flatMap encode) =
      if endsLine c rest.head? then (offset + 1) :: seen (offset + 1) p (rest.flatMap encode)
      else seen (offset + (encode c).length) p (rest.flatMap encode) := by
  rw [seen, breaks_encode]
  split
  · rw [List.takeWhile_cons_of_pos (by simpa using hp)]
    rfl
  · rfl

theorem placeFrom_zero (place : Location) (cs : List Char) : placeFrom place 0 cs = place := by
  cases cs with
  | nil => rfl
  | cons c cs => rw [placeFrom, if_pos c.utf8Size_pos]

theorem length_of_endsLine {c : Char} {ahead : Option Char} (h : endsLine c ahead = true) : (encode c).length = 1 := by
  simp only [endsLine, Bool.or_eq_true, beq_iff_eq, Bool.and_eq_true] at h
  rcases h with rfl | ⟨rfl, -⟩ <;> rfl

/-- **The walk.** From the place of offset `o`, with `s` the beginning of its line, the walk over `front` ends on the
last line that has begun by then. -/
theorem placeFrom_eq {src : Bytes} {front back : List Char} {o s n : Nat} (hs : s ≤ o)
    (h : src.toList.drop o = (front ++ back).flatMap encode) {p : Nat} (hp : o + (front.flatMap encode).length = p) :
    placeFrom ⟨n, utf16Size (src.extract s o)⟩ (p - o) (front ++ back) =
      ⟨n + (seen o p ((front ++ back).flatMap encode)).length,
        utf16Size (src.extract ((seen o p ((front ++ back).flatMap encode)).getLastD s) p)⟩ := by
  induction front generalizing o s n with
  | nil =>
    obtain rfl : o = p := hp
    rw [Nat.sub_self, placeFrom_zero, seen_self]
    rfl
  | cons c front ih =>
    rw [List.flatMap_cons, List.length_append, ← Nat.add_assoc] at hp
    rw [List.cons_append, List.flatMap_cons] at h
    have hrest := drop_add_of_drop h
    have hsize : c.utf8Size = (encode c).length := (String.length_utf8EncodeChar c).symm
    have hpos := c.utf8Size_pos
    rw [List.cons_append, List.flatMap_cons, seen_encode _ (by omega), placeFrom, if_neg (by omega), hsize,
      Nat.sub_sub]
    by_cases he : endsLine c (front ++ back).head? = true
    · have hlen := length_of_endsLine he
      rw [hlen] at hp hrest
      rw [if_pos he, if_pos he, hlen, ← utf16Size_extract_self src (o + 1), ih (Nat.le_refl _) hrest hp,
        List.length_cons, List.getLastD_cons, Nat.add_assoc, Nat.add_comm 1]
    · rw [if_neg he, if_neg he]
      simp only
      rw [← utf16Size_extract_encode hs h]
      exact ih (Nat.le_trans hs (Nat.le_add_right _ _)) hrest hp

/-- in an increasing list, what is left behind the numbers up to `p` is greater -/
theorem lt_of_mem_dropWhile {l : List Nat} (hl : l.Pairwise (· < ·)) {p k : Nat} (h : k ∈ l.dropWhile (· ≤ p)) :
    p < k := by
  induction l with
  | nil => cases h
  | cons a l ih =>
    rw [List.dropWhile_cons] at h
    split at h
    · exact ih hl.of_cons h
    · next ha =>
      have hlt : p < a := by simpa using ha
      rcases List.mem_cons.1 h with rfl | h
      · exact hlt
      · exact Nat.lt_trans hlt (List.rel_of_pairwise_cons hl h)

section table

variable {src : Bytes} {p : Nat} (hsize : 0 < src.size) (hp : ∀ k ∈ breaks 0 src.toList, k ≤ p → k < src.size)
include hsize hp

theorem starts_split :
    (ofText src).starts.toList = (0 :: seen 0 p src.toList) ++
      ((breaks 0 src.toList).dropWhile (· ≤ p)).filter (· < src.size) := by
  have hseen : (seen 0 p src.toList).filter (· < src.size) = seen 0 p src.toList := by
    rw [List.filter_eq_self]
    intro k hk
    have hle : k ≤ p := by simpa using List.mem_takeWhile_imp hk
    exact decide_eq_true (hp k ((List.takeWhile_sublist _).subset hk) hle)
  have hcut : breaks 0 src.toList = seen 0 p src.toList ++ (breaks 0 src.toList).dropWhile (· ≤ p) :=
    List.takeWhile_append_dropWhile.symm
  rw [ofText, List.filter_cons_of_pos (by simpa using hsize)]
  conv_lhs => rw [hcut]
  rw [List.filter_append, hseen]
  rfl

theorem bisect_starts :
    bisect (fun i => (ofText src).starts[i]?.any (· ≤ p)) 0 (ofText src).starts.size =
      (seen 0 p src.toList).length + 1 := by
  refine bisect_split (starts_split hsize hp) ?_ ?_
  · intro k hk
    rcases List.mem_cons.1 hk with rfl | hk
    · exact decide_eq_true (Nat.zero_le p)
    · have hle : k ≤ p := by simpa using List.mem_takeWhile_imp hk
      exact decide_eq_true hle
  · intro k hk
    have hlt := lt_of_mem_dropWhile (breaks_pairwise 0 _) (List.mem_of_mem_filter hk)
    exact decide_eq_false (Nat.not_le.2 hlt)

theorem starts_last :
    (ofText src).starts[(seen 0 p src.toList).length]? = some ((seen 0 p src.toList).getLastD 0) := by
  rw [← Array.getElem?_toList, starts_split hsize hp, List.getElem?_append_left (by simp), List.getLastD_eq_getLast?,
    ← List.getLast?_cons, List.getLast?_eq_getElem?]
  rfl

theorem locate?_eq :
    (ofText src).locate? p = some ⟨(seen 0 p src.toList).length,
      utf16Size (src.extract ((seen 0 p src.toList).getLastD 0) p) + (p - src.size)⟩ := by
  rw [locate?, bisect_starts hsize hp]
  simp only [starts_last hsize hp]
  rfl

end table

/-- a line begins at the end of the text only if the text ends a line there -/
theorem lt_size_of_mem_breaks {src : Bytes} {p k : Nat} (hend : p < src.size ∨ src[src.size - 1]?.any isLineEnd = false)
    (hk : k ∈ breaks 0 src.toList) (hkp : k ≤ p) : k < src.size := by
  obtain ⟨-, hle, hline⟩ := mem_breaks hk
  rw [Nat.zero_add, Array.length_toList] at hle
  rw [Array.getElem?_toList] at hline
  rcases hend with hlt | hend
  · exact Nat.lt_of_le_of_lt hkp hlt
  · refine Nat.lt_of_le_of_ne hle ?_
    rintro rfl
    rw [Nat.zero_add, hend] at hline
    cases hline

/-- **The table gives the place that the walk does**, for every offset between two characters; for the end only if the
text ends no line there. -/
theorem locate?_ofText {src : Bytes} {cs : List Char} (hsrc : src.toList = cs.flatMap encode) {p : Nat}
    (hp : Boundary src p) (hsize : 0 < src.size) (hend : p < src.size ∨ src[src.size - 1]?.any isLineEnd = false) :
    (ofText src).locate? p = some (placeFrom ⟨0, 0⟩ p cs) := by
  obtain ⟨front, back, rfl, hlen⟩ := hp.split hsrc
  have hwalk := placeFrom_eq (o := 0) (s := 0) (n := 0) (Nat.le_refl 0) hsrc (p := p) (by rw [Nat.zero_add, hlen])
  rw [Nat.sub_zero, ← hsrc, Nat.zero_add, utf16Size_extract_self] at hwalk
  rw [locate?_eq hsize fun k hk hkp => lt_size_of_mem_breaks hend hk hkp, hwalk, Nat.sub_eq_zero_of_le hp.1,
    Nat.add_zero]

end Places

end Respell
