/-
The output and the source, byte by byte. The two are read along together: at a `Seam` the output has come to `q` where
the source has come to `p`, and from there either a byte is kept or an edit's text is put. Up to a seam both are read
alike (`Seam.along`), so a kept byte is live in the output just when it is in the source (`Kept.live`).

- `origin`: each byte of the output is a kept byte or one of an edit's text.
- `Kept.not_covered`, `kept_or_covered`: each byte of the source is kept or taken out by an edit, and never both.
- `Kept.lt_iff`: what is kept stays in order.
- `Shape.left`, `Shape.right`: no edit makes or breaks a word at its ends.

Main result, `word_origin`: a word of the output is a word of the source, kept as a whole, or a word of the text that an
edit puts.
-/
import Respell.Proofs.LexicalStructure

namespace Respell

open Vocabulary

/-! ## Keeping one byte -/

/-- what a respelled text is -/
def respelled (src : Bytes) : Bytes := (render src (orderedEdits src)).code

theorem toList_extract_succ {src : Bytes} {p s : Nat} (hp : p < s) {b : UInt8}
    (hb : src[p]? = some b) : (src.extract p s).toList = b :: (src.extract (p + 1) s).toList := by
  obtain ⟨hlt, rfl⟩ := Array.getElem?_eq_some_iff.1 hb
  simp only [Array.toList_extract, List.extract_eq_take_drop]
  rw [List.drop_eq_getElem_cons (by simpa using hlt), show s - p = (s - (p + 1)) + 1 by omega, List.take_succ_cons]
  simp

/-- before the next edit, a byte of the source is written as it is -/
theorem written_pieces_kept {src : Bytes} {p : Nat} {rest : List Edit} (hlt : p < src.size)
    (hrest : ∀ e ∈ rest, p < e.start) :
    written src (pieces src p rest) = src[p] :: written src (pieces src (p + 1) rest) := by
  have hb : src[p]? = some src[p] := by simp [hlt]
  cases rest with
  | nil =>
    rw [written_pieces_nil, written_pieces_nil]
    exact toList_extract_succ hlt hb
  | cons e rest =>
    rw [written_pieces_cons, written_pieces_cons, toList_extract_succ (hrest e List.mem_cons_self) hb]
    rfl

namespace Along

variable {src code : Bytes} {p q : Nat} {rest : List Edit}

theorem start_le (h : Along src code p q rest) : ∀ e ∈ rest, e.start ≤ src.size := by
  intro e he
  exact Nat.le_trans (h.shape e he).le (h.shape e he).stop_le

/-- the byte before an edit or a kept byte does the same with what is ahead in either text -/
theorem feed_kept (h : Along src code p q rest) (hlt : p < src.size) (hrest : ∀ e ∈ rest, p < e.start) (c : Cursor) :
    code.toList.drop q = src[p] :: written src (pieces src (p + 1) rest) ∧
      c.feed src[p] code[q + 1]? = c.feed src[p] src[p + 1]? := by
  have hb : src[p]? = some src[p] := by simp [hlt]
  have hdrop : code.toList.drop q = src[p] :: written src (pieces src (p + 1) rest) := by
    rw [h.text]
    exact written_pieces_kept hlt hrest
  refine ⟨hdrop, ?_⟩
  have hahead := getElem?_head? (drop_succ_of_drop hdrop)
  cases rest with
  | nil =>
    have hsame : code[q + 1]? = src[p + 1]? := by
      rw [hahead, written_pieces_nil, ← List.append_nil (src.extract _ _).toList, head?_extract_append]
      split
      · rfl
      · next hge => rw [Array.getElem?_eq_none (by simpa using hge)]; rfl
    rw [hsame]
  | cons e rest =>
    have he := h.shape e List.mem_cons_self
    rw [written_pieces_cons, head?_extract_append] at hahead
    rcases Nat.eq_or_lt_of_le (hrest e List.mem_cons_self) with hcut | hin
    · rw [if_neg (by rw [← hcut]; omega)] at hahead
      refine he.feed_cut hcut hb (by rw [hahead]; exact head?_written h.shape) ?_ c
      intro a ha
      obtain ⟨hpos, -⟩ := Array.getElem?_eq_some_iff.1 ha
      rw [hahead, head?_text_append (Nat.ne_of_gt hpos), ha]
    · rw [if_pos (Nat.lt_min.2 ⟨hin, Nat.lt_of_lt_of_le hin (h.start_le e List.mem_cons_self)⟩)] at hahead
      rw [hahead]

/-- **One byte.** A byte of the source before the next edit is kept: it is the next byte of the output, is live in both
texts or in neither, and both are read alike behind it. -/
theorem keep (h : Along src code p q rest) (hlt : p < src.size) (hrest : ∀ e ∈ rest, p < e.start) :
    Along src code (p + 1) (q + 1) rest ∧ code[q]? = src[p]? ∧ liveAt code q = liveAt src p := by
  obtain ⟨hdrop, hfeed⟩ := h.feed_kept hlt hrest (cursorAt src p)
  have hb : src[p]? = some src[p] := by simp [hlt]
  have hb' : code[q]? = some src[p] := getElem?_of_drop hdrop
  refine ⟨⟨h.shape, h.order, hrest, hlt, ?_, drop_succ_of_drop hdrop, ?_⟩, hb'.trans hb.symm, ?_⟩
  · exact (Array.getElem?_eq_some_iff.1 hb').1
  · rw [cursorAt_succ hb', cursorAt_succ hb, h.cursor, hfeed]
  · rw [liveAt_of_feed hb', liveAt_of_feed hb, h.cursor, hfeed]

theorem put {e : Edit} (h : Along src code e.start q (e :: rest)) {k : Nat} (hk : k < (utf8 e.text).size) :
    code[q + k]? = (utf8 e.text)[k]? := by
  have htext := h.text
  rw [written_pieces_cons, Array.extract_eq_empty_of_le (by omega), Array.toList_empty, List.nil_append] at htext
  exact (getElem?_append_of_drop htext hk).trans Array.getElem?_toList

end Along

/-! ## Seams -/

/-- the output has come to `q` where the source has come to `p`, and `rest` are the edits ahead -/
inductive Seam (src : Bytes) : Nat → Nat → List Edit → Prop
  | start : Seam src 0 0 (orderedEdits src)
  | keep {p q : Nat} {rest : List Edit} (h : Seam src p q rest) (hlt : p < src.size)
    (hrest : ∀ e ∈ rest, p < e.start) : Seam src (p + 1) (q + 1) rest
  | put {q : Nat} {e : Edit} {rest : List Edit} (h : Seam src e.start q (e :: rest)) :
    Seam src e.stop (q + (utf8 e.text).size) rest

/-- byte `p` of the source is byte `q` of the output -/
def Kept (src : Bytes) (p q : Nat) : Prop := ∃ rest, Seam src p q rest ∧ p < src.size ∧ ∀ e ∈ rest, p < e.start

/-- the text of the edit begins at byte `q` of the output -/
def PutAt (src : Bytes) (e : Edit) (q : Nat) : Prop := ∃ rest, Seam src e.start q (e :: rest)

variable {src : Bytes} {p q : Nat} {e : Edit} {rest : List Edit}

/-- what comes before a seam: nothing, a kept byte, or an edit -/
theorem Seam.prev (h : Seam src p q rest) :
    (p = 0 ∧ q = 0) ∨ (∃ p' q', p = p' + 1 ∧ q = q' + 1 ∧ Kept src p' q') ∨
      ∃ e q', PutAt src e q' ∧ p = e.stop ∧ q = q' + (utf8 e.text).size := by
  cases h with
  | start => exact .inl ⟨rfl, rfl⟩
  | keep h hlt hrest => exact .inr (.inl ⟨_, _, rfl, rfl, _, h, hlt, hrest⟩)
  | put h => exact .inr (.inr ⟨_, _, ⟨_, h⟩, rfl, rfl⟩)

theorem Seam.along (h : Seam src p q rest) : Along src (respelled src) p q rest := by
  induction h with
  | start => exact along_start src
  | keep h hlt hrest ih => exact (ih.keep hlt hrest).1
  | @put q e rest h ih =>
    have hnext := (along_put ih).1
    rwa [Nat.sub_self, Nat.add_zero] at hnext

theorem Kept.get (h : Kept src p q) : (respelled src)[q]? = src[p]? := by
  obtain ⟨rest, hs, hlt, hrest⟩ := h
  exact (hs.along.keep hlt hrest).2.1

theorem Kept.lt_size (h : Kept src p q) : p < src.size := by
  obtain ⟨rest, -, hlt, -⟩ := h
  exact hlt

theorem Kept.live (h : Kept src p q) : liveAt (respelled src) q = liveAt src p := by
  obtain ⟨rest, hs, hlt, hrest⟩ := h
  exact (hs.along.keep hlt hrest).2.2

theorem PutAt.get (h : PutAt src e q) {k : Nat} (hk : k < (utf8 e.text).size) :
    (respelled src)[q + k]? = (utf8 e.text)[k]? := by
  obtain ⟨rest, hs⟩ := h
  exact hs.along.put hk

/-- what comes next at a seam: a kept byte, an edit, or the end of both texts -/
theorem Seam.next (h : Seam src p q rest) :
    Kept src p q ∨ (∃ e rest', rest = e :: rest' ∧ e.start = p) ∨
      (rest = [] ∧ p = src.size ∧ q = (respelled src).size) := by
  have ha := h.along
  cases rest with
  | nil =>
    rcases Nat.lt_or_eq_of_le ha.le with hlt | heq
    · exact .inl ⟨[], h, hlt, by simp⟩
    · refine .inr (.inr ⟨rfl, heq, ?_⟩)
      have htext := congrArg List.length ha.text
      rw [heq, written_pieces_nil, List.length_drop, Array.length_toList, Array.length_toList, Array.size_extract,
        Nat.min_self, Nat.sub_self] at htext
      exact Nat.le_antisymm ha.within (Nat.sub_eq_zero_iff_le.1 htext)
  | cons e rest' =>
    rcases Nat.eq_or_lt_of_le (ha.start e List.mem_cons_self) with heq | hlt
    · exact .inr (.inl ⟨e, rest', rfl, heq.symm⟩)
    · refine .inl ⟨e :: rest', h, Nat.lt_of_lt_of_le hlt (ha.start_le e List.mem_cons_self), ?_⟩
      intro x hx
      rcases List.mem_cons.1 hx with rfl | hx
      · exact hlt
      · have hle := List.rel_of_pairwise_cons ha.order hx
        exact Nat.lt_of_lt_of_le hlt (Nat.le_trans (ha.shape e List.mem_cons_self).le hle)

/-- the edits ahead are edits of the text, and all others end behind -/
theorem Seam.mem (h : Seam src p q rest) : (∀ e ∈ rest, e ∈ orderedEdits src) ∧
    ∀ e ∈ orderedEdits src, e ∈ rest ∨ e.stop ≤ p := by
  induction h with
  | start => exact ⟨fun _ he => he, fun _ he => .inl he⟩
  | keep _ _ _ ih => exact ⟨ih.1, fun e he => (ih.2 e he).imp_right Nat.le_succ_of_le⟩
  | @put q e rest h ih =>
    refine ⟨fun x hx => ih.1 x (List.mem_cons_of_mem e hx), ?_⟩
    intro x hx
    rcases ih.2 x hx with hmem | hle
    · rcases List.mem_cons.1 hmem with rfl | hmem
      · exact .inr (Nat.le_refl _)
      · exact .inl hmem
    · exact .inr (Nat.le_trans hle (h.along.shape e List.mem_cons_self).le)

theorem PutAt.mem (h : PutAt src e q) : e ∈ orderedEdits src := by
  obtain ⟨rest, hs⟩ := h
  exact hs.mem.1 e List.mem_cons_self

theorem PutAt.shape (h : PutAt src e q) : Shape src e := shape_of_ordered h.mem

theorem Kept.not_covered (h : Kept src p q) (he : e ∈ orderedEdits src) : ¬ (e.start ≤ p ∧ p < e.stop) := by
  obtain ⟨rest, hs, -, hrest⟩ := h
  intro hin
  rcases hs.mem.2 e he with hmem | hle
  · exact absurd hin.1 (Nat.not_le_of_lt (hrest e hmem))
  · exact absurd hin.2 (Nat.not_lt_of_le hle)

/-- from a seam inside the output, the next byte is kept, or the first of an edit's text -/
theorem Seam.origin (h : Seam src p q rest) (hq : q < (respelled src).size) :
    (∃ p', Kept src p' q) ∨ ∃ e, PutAt src e q ∧ 0 < (utf8 e.text).size := by
  induction rest generalizing p with
  | nil =>
    rcases h.next with hk | ⟨e, rest', heq, -⟩ | ⟨-, -, hend⟩
    · exact .inl ⟨p, hk⟩
    · cases heq
    · exact absurd hend (Nat.ne_of_lt hq)
  | cons e rest ih =>
    rcases h.next with hk | ⟨e', rest', heq, rfl⟩ | ⟨hnil, -⟩
    · exact .inl ⟨p, hk⟩
    · obtain ⟨rfl, rfl⟩ := List.cons.inj heq
      rcases Nat.eq_zero_or_pos (utf8 e.text).size with hzero | hpos
      · have hnext := h.put
        rw [hzero, Nat.add_zero] at hnext
        exact ih hnext
      · exact .inr ⟨e, ⟨rest, h⟩, hpos⟩
    · cases hnil

/-- byte `q` of the output belongs to the text of the edit -/
def InPut (src : Bytes) (e : Edit) (q : Nat) : Prop := ∃ q', PutAt src e q' ∧ q' ≤ q ∧ q < q' + (utf8 e.text).size

/-- **Every byte of the output** is a kept one or belongs to the text of an edit. -/
theorem origin (hq : q < (respelled src).size) : (∃ p, Kept src p q) ∨ ∃ e, InPut src e q := by
  have hfirst : ∀ {p q : Nat} {rest : List Edit}, Seam src p q rest → q < (respelled src).size →
      (∃ p, Kept src p q) ∨ ∃ e, InPut src e q := by
    intro p q rest h hq
    rcases h.origin hq with hk | ⟨e, hput, hpos⟩
    · exact .inl hk
    · exact .inr ⟨e, q, hput, Nat.le_refl q, Nat.lt_add_of_pos_right hpos⟩
  induction q with
  | zero => exact hfirst .start hq
  | succ q ih =>
    rcases ih (Nat.lt_of_succ_lt hq) with ⟨p, rest, hs, hlt, hrest⟩ | ⟨e, q', hput, hle, hlt⟩
    · exact hfirst (hs.keep hlt hrest) hq
    · rcases Nat.eq_or_lt_of_le (Nat.succ_le_of_lt hlt) with heq | hlt
      · obtain ⟨rest, hs⟩ := hput
        have hnext := hs.put
        rw [← heq] at hnext
        exact hfirst hnext hq
      · exact .inr ⟨e, q', hput, Nat.le_succ_of_le hle, hlt⟩

/-- from a seam inside the source, the next byte is kept, or the first that an edit takes out -/
theorem Seam.image (h : Seam src p q rest) (hp : p < src.size) :
    (∃ q', Kept src p q') ∨ ∃ e q', PutAt src e q' ∧ e.start ≤ p ∧ p < e.stop := by
  induction rest generalizing q with
  | nil =>
    rcases h.next with hk | ⟨e, rest', heq, -⟩ | ⟨-, hend, -⟩
    · exact .inl ⟨q, hk⟩
    · cases heq
    · exact absurd hend (Nat.ne_of_lt hp)
  | cons e rest ih =>
    rcases h.next with hk | ⟨e', rest', heq, rfl⟩ | ⟨hnil, -⟩
    · exact .inl ⟨q, hk⟩
    · obtain ⟨rfl, rfl⟩ := List.cons.inj heq
      rcases Nat.eq_or_lt_of_le (h.along.shape e List.mem_cons_self).le with hzero | hpos
      · have hnext := h.put
        rw [← hzero] at hnext
        exact ih hnext
      · exact .inr ⟨e, q, ⟨rest, h⟩, Nat.le_refl _, hpos⟩
    · cases hnil

/-- **Every byte of the source** is kept or taken out by an edit. -/
theorem kept_or_covered (hp : p < src.size) :
    (∃ q, Kept src p q) ∨ ∃ e q, PutAt src e q ∧ e.start ≤ p ∧ p < e.stop := by
  induction p with
  | zero => exact Seam.start.image hp
  | succ p ih =>
    rcases ih (Nat.lt_of_succ_lt hp) with ⟨q, rest, hs, hlt, hrest⟩ | ⟨e, q, hput, hle, hlt⟩
    · exact (hs.keep hlt hrest).image hp
    · rcases Nat.eq_or_lt_of_le (Nat.succ_le_of_lt hlt) with heq | hlt
      · obtain ⟨rest, hs⟩ := hput
        have hnext := hs.put
        rw [← heq] at hnext
        exact hnext.image hp
      · exact .inr ⟨e, q, hput, Nat.le_succ_of_le hle, hlt⟩

theorem eq_of_covered {e' : Edit} (he : e ∈ orderedEdits src) (he' : e' ∈ orderedEdits src) (h1 : e.start ≤ p)
    (h2 : p < e.stop) (h1' : e'.start ≤ p) (h2' : p < e'.stop) : e = e' := by
  by_contra hne
  have hperm := Edit.inOrder_perm (allEdits src)
  have hapart := (allEdits_apart src).forall (hperm.mem_iff.1 he) (hperm.mem_iff.1 he') hne
  exact hapart.1 ⟨Nat.lt_of_le_of_lt h1 h2', Nat.lt_of_le_of_lt h1' h2⟩

theorem exists_putAt (he : e ∈ orderedEdits src) (hlt : e.start < e.stop) : ∃ q, PutAt src e q := by
  have hsize : e.start < src.size := Nat.lt_of_lt_of_le hlt (shape_of_ordered he).stop_le
  rcases kept_or_covered hsize with ⟨q, hkept⟩ | ⟨e', q, hput, h1, h2⟩
  · exact absurd ⟨Nat.le_refl _, hlt⟩ (hkept.not_covered he)
  · obtain rfl := eq_of_covered he hput.mem (Nat.le_refl _) hlt h1 h2
    exact ⟨q, hput⟩

/-! ## Seams in order -/

/-- a place in the source, the place in the output, and the edits ahead -/
structure Place where
  source : Nat
  output : Nat
  ahead : List Edit

def Place.next (s : Place) : Place :=
  match s.ahead with
  | [] => ⟨s.source + 1, s.output + 1, []⟩
  | e :: rest =>
    if e.start = s.source then ⟨e.stop, s.output + (utf8 e.text).size, rest⟩
    else ⟨s.source + 1, s.output + 1, e :: rest⟩

def place (src : Bytes) : Nat → Place
  | 0 => ⟨0, 0, orderedEdits src⟩
  | n + 1 => (place src n).next

theorem place_kept {n : Nat} (h : place src n = ⟨p, q, rest⟩) (hrest : ∀ e ∈ rest, p < e.start) :
    place src (n + 1) = ⟨p + 1, q + 1, rest⟩ := by
  rw [place, h, Place.next]
  cases rest with
  | nil => rfl
  | cons e rest => simp only [if_neg (Nat.ne_of_gt (hrest e List.mem_cons_self))]

theorem place_put {n : Nat} (h : place src n = ⟨e.start, q, e :: rest⟩) :
    place src (n + 1) = ⟨e.stop, q + (utf8 e.text).size, rest⟩ := by
  simp only [place, h, Place.next, if_true]

theorem Seam.exists_place (h : Seam src p q rest) : ∃ n, place src n = ⟨p, q, rest⟩ := by
  induction h with
  | start => exact ⟨0, rfl⟩
  | keep _ _ hrest ih =>
    obtain ⟨n, hn⟩ := ih
    exact ⟨n + 1, place_kept hn hrest⟩
  | put _ ih =>
    obtain ⟨n, hn⟩ := ih
    exact ⟨n + 1, place_put hn⟩

/-- **One step** goes back in neither text. -/
theorem place_le_succ (src : Bytes) (n : Nat) :
    (∀ e ∈ (place src n).ahead, e ∈ orderedEdits src) →
      (∀ e ∈ (place src (n + 1)).ahead, e ∈ orderedEdits src) ∧
        (place src n).source ≤ (place src (n + 1)).source ∧ (place src n).output ≤ (place src (n + 1)).output := by
  intro h
  rw [place]
  generalize place src n = s at h
  obtain ⟨p, q, rest⟩ := s
  cases rest with
  | nil => exact ⟨h, Nat.le_succ p, Nat.le_succ q⟩
  | cons e rest =>
    simp only [Place.next]
    split
    · next heq =>
      refine ⟨fun x hx => h x (List.mem_cons_of_mem e hx), ?_, Nat.le_add_right _ _⟩
      rw [← heq]
      exact (shape_of_ordered (h e List.mem_cons_self)).le
    · exact ⟨h, Nat.le_succ p, Nat.le_succ q⟩

/-- **Many steps** do not. -/
theorem place_mono (src : Bytes) {m n : Nat} (hmn : m ≤ n) :
    (place src m).source ≤ (place src n).source ∧ (place src m).output ≤ (place src n).output := by
  have hall : ∀ n, ∀ e ∈ (place src n).ahead, e ∈ orderedEdits src := by
    intro n
    induction n with
    | zero => exact fun _ he => he
    | succ n ih => exact (place_le_succ src n ih).1
  induction n, hmn using Nat.le_induction with
  | base => exact ⟨Nat.le_refl _, Nat.le_refl _⟩
  | succ n _ ih =>
    obtain ⟨-, h1, h2⟩ := place_le_succ src n (hall n)
    exact ⟨Nat.le_trans ih.1 h1, Nat.le_trans ih.2 h2⟩

/-- a kept byte lies before a seam in both texts or in neither -/
theorem Kept.lt_iff {p' q' : Nat} (h : Kept src p q) (h' : Seam src p' q' rest) : p < p' ↔ q < q' := by
  obtain ⟨ahead, hs, -, hrest⟩ := h
  obtain ⟨m, hm⟩ := hs.exists_place
  obtain ⟨n, hn⟩ := h'.exists_place
  have hnext := place_kept hm hrest
  rcases Nat.lt_or_ge m n with hlt | hge
  · have hle := place_mono src (Nat.succ_le_of_lt hlt)
    rw [hnext, hn] at hle
    exact iff_of_true hle.1 hle.2
  · have hle := place_mono src hge
    rw [hm, hn] at hle
    exact iff_of_false (Nat.not_lt_of_le hle.1) (Nat.not_lt_of_le hle.2)

theorem PutAt.stop_le {p' q' : Nat} (h : PutAt src e q) (h' : Seam src p' q' rest) (hlt : q < q') : e.stop ≤ p' := by
  obtain ⟨ahead, hs⟩ := h
  obtain ⟨m, hm⟩ := hs.exists_place
  obtain ⟨n, hn⟩ := h'.exists_place
  rcases Nat.lt_or_ge m n with hmn | hge
  · have hle := place_mono src (Nat.succ_le_of_lt hmn)
    rw [place_put hm, hn] at hle
    exact hle.1
  · have hle := place_mono src hge
    rw [hm, hn] at hle
    exact absurd hlt (Nat.not_lt_of_le hle.2)

/-! ## Words at the ends of an edit -/

theorem EndsAt.not_inWord {k : Nat} (h : EndsAt src k) : src[k]?.any inWord = false :=
  any_eq_false_of_all (by decide +kernel) h

theorem inWord_of_isQuote : ∀ b, ImportLine.isQuote b = true → inWord b = false := by
  intro b hb
  rcases ImportLine.isQuote_iff.1 hb with rfl | rfl <;> decide

theorem utf8_inj {s t : String} (h : utf8 s = utf8 t) : s = t := String.toByteArray_inj.1 (ByteArray.ext h)

theorem utf8_empty : utf8 "" = #[] := by decide

theorem utf8_semicolon : utf8 ";" = #[ascii ';'] := by decide

theorem size_elseIf : (utf8 "else if").size = 7 := by decide

theorem size_hostClassMark : (utf8 hostClassMark).size = 10 := by decide

theorem last_hostClassMark : (utf8 hostClassMark)[9]? = some (ascii '=') := by decide

/-- at its beginning an edit does not part the bytes of a word, nor does its text go on a word -/
theorem Shape.left (h : Shape src e) :
    (∀ k, k + 1 = e.start → src[k]?.any inWord = false) ∨
      (src[e.start]?.any inWord = false ∧ ∃ b, (utf8 e.text)[0]? = some b ∧ inWord b = false) := by
  have hmark : (utf8 ";")[0]? = some (ascii ';') := by rw [utf8_semicolon]; rfl
  cases h with
  | word hw => exact .inl hw.before
  | joined hw => exact .inl hw.before
  | classMark hw => exact .inl hw.before
  | @drop n m h =>
    left
    intro k hk
    have hq := h.quote
    rw [show n - 1 = k from Nat.sub_eq_of_eq_add hk.symm] at hq
    exact any_eq_false_of_any inWord_of_isQuote hq
  | closeDropped h => exact .inr ⟨h.ends.not_inWord, ascii ';', hmark, by decide⟩
  | close _ _ he => exact .inr ⟨he.not_inWord, ascii ';', hmark, by decide⟩

/-- at its end an edit does not part the bytes of a word, nor is its text gone on by a word -/
theorem Shape.right (h : Shape src e) :
    src[e.stop]?.any inWord = false ∨
      ((∀ k, k + 1 = e.stop → src[k]?.any inWord = false) ∧
        ∃ n b, (utf8 e.text).size = n + 1 ∧ (utf8 e.text)[n]? = some b ∧ inWord b = false) := by
  cases h with
  | word hw => exact .inl hw.after
  | joined _ _ _ hn => exact .inl hn.after
  | @classMark i _ _ he =>
    refine .inr ⟨?_, 9, ascii '=', size_hostClassMark, last_hostClassMark, by decide⟩
    intro k hk
    obtain rfl : k = i + 5 := Nat.succ.inj hk
    rw [he]
    decide
  | drop h => exact .inl h.ends.not_inWord
  | closeDropped h => exact .inl h.ends.not_inWord
  | close _ _ he => exact .inl he.not_inWord

theorem IsWord.last {i j : Nat} (hw : IsWord src i j) : ∃ k, k + 1 = j ∧ src[k]?.any inWord = true := by
  have hlt := hw.lt
  exact ⟨j - 1, by omega, hw.inside (j - 1) (by omega) (by omega)⟩

/-- a text that ends with a word stands for text that ends with one -/
theorem Shape.right_of_inWord (h : Shape src e) {n : Nat} (hsize : (utf8 e.text).size = n + 1)
    (hb : (utf8 e.text)[n]?.any inWord = true) :
    src[e.stop]?.any inWord = false ∧ ∃ k, k + 1 = e.stop ∧ src[k]?.any inWord = true := by
  cases h with
  | word hw => exact ⟨hw.after, hw.last⟩
  | joined _ _ _ hn => exact ⟨hn.after, hn.last⟩
  | classMark =>
    obtain rfl : n = 9 := Nat.succ.inj (hsize.symm.trans size_hostClassMark)
    rw [last_hostClassMark] at hb
    cases hb
  | drop => simp [utf8_empty] at hsize
  | closeDropped | close =>
    rw [utf8_semicolon] at hsize hb
    obtain rfl : n = 0 := Nat.succ.inj hsize.symm
    cases hb

/-! ## Words of the output -/

/-- behind the end of a word of the source, the output goes on with no word byte -/
theorem Seam.not_inWord (h : Seam src p q rest) (hp : src[p]?.any inWord = false) {k : Nat} (hk : k + 1 = p)
    (hkw : src[k]?.any inWord = true) : (respelled src)[q]?.any inWord = false := by
  rcases h.next with hkept | ⟨e, rest', rfl, rfl⟩ | ⟨-, -, rfl⟩
  · rw [hkept.get]
    exact hp
  · rcases (h.along.shape e List.mem_cons_self).left with hbefore | ⟨-, b, hb, hbw⟩
    · rw [hbefore k hk] at hkw
      cases hkw
    · obtain ⟨hpos, -⟩ := Array.getElem?_eq_some_iff.1 hb
      have hget := PutAt.get ⟨rest', h⟩ hpos
      rw [Nat.add_zero] at hget
      rw [hget, hb]
      exact hbw
  · simp

theorem Kept.succ (h : Kept src p q) (hw : (respelled src)[q]?.any inWord = true)
    (hw' : (respelled src)[q + 1]?.any inWord = true) : Kept src (p + 1) (q + 1) := by
  rw [h.get] at hw
  obtain ⟨rest, hs, hlt, hrest⟩ := h
  have hnext := hs.keep hlt hrest
  rcases hnext.next with hkept | ⟨e, rest', rfl, he⟩ | ⟨-, -, hend⟩
  · exact hkept
  · exfalso
    have hin : src[p + 1]?.any inWord = true := by
      by_contra hno
      rw [hnext.not_inWord (by simpa using hno) rfl hw] at hw'
      cases hw'
    rcases (hnext.along.shape e List.mem_cons_self).left with hbefore | ⟨hat, -⟩
    · rw [hbefore p he.symm] at hw
      cases hw
    · rw [he, hin] at hat
      cases hat
  · rw [hend] at hw'
    simp at hw'

theorem Kept.pred_source (h : Kept src (p + 1) q) (hw : src[p + 1]?.any inWord = true)
    (hw' : src[p]?.any inWord = true) : ∃ q', q = q' + 1 ∧ Kept src p q' := by
  obtain ⟨rest, hs, -⟩ := h
  rcases hs.prev with ⟨hzero, -⟩ | ⟨p', q', heq, rfl, hkept⟩ | ⟨e, q', hput, heq, -⟩
  · cases hzero
  · obtain rfl := Nat.succ.inj heq
    exact ⟨q', rfl, hkept⟩
  · exfalso
    rcases hput.shape.right with hno | ⟨hbefore, -⟩
    · rw [heq, hno] at hw
      cases hw
    · rw [hbefore p heq] at hw'
      cases hw'

theorem Kept.run (h : Kept src p q) {n : Nat}
    (hw : ∀ k, q ≤ k → k < q + n + 1 → (respelled src)[k]?.any inWord = true) : Kept src (p + n) (q + n) := by
  induction n with
  | zero => exact h
  | succ n ih =>
    have hkept := ih fun k h1 h2 => hw k h1 (Nat.lt_succ_of_lt h2)
    exact hkept.succ (hw (q + n) (Nat.le_add_right q n) (by omega)) (hw (q + n + 1) (by omega) (by omega))

/-- a word of the output whose first byte is kept is a word of the source -/
theorem Kept.isWord {j : Nat} (h : Kept src p q) (hw : IsWord (respelled src) q j) :
    IsWord src p (p + (j - q)) ∧ (∀ k < j - q, Kept src (p + k) (q + k)) ∧
      src.extract p (p + (j - q)) = (respelled src).extract q j := by
  have hlt := hw.lt
  have hkept : ∀ k < j - q, Kept src (p + k) (q + k) := by
    intro k hk
    exact h.run fun m h1 h2 => hw.inside m h1 (by omega)
  have hin : ∀ k < j - q, src[p + k]?.any inWord = true := by
    intro k hk
    rw [← (hkept k hk).get]
    exact hw.inside (q + k) (Nat.le_add_right q k) (by omega)
  refine ⟨⟨by omega, ?_, ?_, ?_⟩, hkept, ?_⟩
  · intro k h1 h2
    obtain ⟨m, rfl⟩ := Nat.exists_eq_add_of_le h1
    exact hin m (by omega)
  · intro k hk
    subst hk
    by_contra hc
    obtain ⟨q', rfl, hprev⟩ := h.pred_source (hin 0 (by omega)) (by simpa using hc)
    have hbefore := hw.before q' rfl
    rw [hprev.get] at hbefore
    exact hc hbefore
  · -- the byte behind the last one is kept as well, or an edit stands there
    obtain ⟨n, hn⟩ : ∃ n, j - q = n + 1 := ⟨j - q - 1, by omega⟩
    have hlast := hkept n (by omega)
    have hlastw := hin n (by omega)
    obtain ⟨rest, hs, hsize, hrest⟩ := hlast
    have hnext := hs.keep hsize hrest
    rw [hn]
    by_contra hc
    have hafter := hw.after
    rcases hnext.next with hk | ⟨e, rest', rfl, he⟩ | ⟨-, hend, -⟩
    · have hget := hk.get
      rw [show q + n + 1 = j by omega] at hget
      rw [hget] at hafter
      exact hc hafter
    · rcases (hnext.along.shape e List.mem_cons_self).left with hbefore | ⟨hat, -⟩
      · rw [hbefore (p + n) he.symm] at hlastw
        cases hlastw
      · rw [he] at hat
        exact hc hat
    · rw [show p + (n + 1) = src.size from hend] at hc
      simp at hc
  · have hsize : ((respelled src).extract q j).size = j - q := by
      rw [Array.size_extract, Nat.min_eq_left hw.le_size]
    rw [← hsize]
    apply extract_eq
    intro k hk
    rw [← (hkept k (hsize ▸ hk)).get]
    exact getElem?_of_extract rfl hk

/-- a word of the output does not go on behind the text of an edit -/
theorem PutAt.word_stop_le {i j : Nat} (h : PutAt src e q) (hi : q ≤ i) (hi' : i < q + (utf8 e.text).size)
    (hw : IsWord (respelled src) i j) : j ≤ q + (utf8 e.text).size := by
  by_contra hgt
  obtain ⟨n, hn⟩ : ∃ n, (utf8 e.text).size = n + 1 := ⟨(utf8 e.text).size - 1, by omega⟩
  have hlast : (utf8 e.text)[n]?.any inWord = true := by
    rw [← h.get (k := n) (by omega)]
    exact hw.inside (q + n) (by omega) (by omega)
  obtain ⟨hstop, k, hk, hkw⟩ := h.shape.right_of_inWord hn hlast
  obtain ⟨rest, hs⟩ := h
  have hno := hs.put.not_inWord hstop hk hkw
  rw [hw.inside (q + (utf8 e.text).size) (by omega) (by omega)] at hno
  cases hno

/-- a word of the output whose first byte belongs to the text of an edit is a word of that text -/
theorem InPut.isWord {i j : Nat} (h : InPut src e i) (hw : IsWord (respelled src) i j) :
    ∃ q n, PutAt src e q ∧ i = q + n ∧ IsWord (utf8 e.text) n (n + (j - i)) ∧
      (utf8 e.text).extract n (n + (j - i)) = (respelled src).extract i j := by
  obtain ⟨q, hput, hle, hlt⟩ := h
  have hstop := PutAt.word_stop_le hput hle hlt hw
  have hij := hw.lt
  obtain ⟨n, rfl⟩ := Nat.exists_eq_add_of_le hle
  have hget : ∀ k < j - (q + n), (utf8 e.text)[n + k]? = (respelled src)[q + n + k]? := by
    intro k hk
    rw [Nat.add_assoc q]
    exact (hput.get (k := n + k) (by omega)).symm
  refine ⟨q, n, hput, rfl, ⟨by omega, ?_, ?_, ?_⟩, ?_⟩
  · intro k h1 h2
    obtain ⟨m, rfl⟩ := Nat.exists_eq_add_of_le h1
    rw [hget m (by omega)]
    exact hw.inside (q + n + m) (Nat.le_add_right _ _) (by omega)
  · intro k hk
    rw [← hput.get (k := k) (by omega)]
    exact hw.before (q + k) (by omega)
  · by_cases hend : n + (j - (q + n)) < (utf8 e.text).size
    · rw [← hput.get hend, show q + (n + (j - (q + n))) = j by omega]
      exact hw.after
    · rw [Array.getElem?_eq_none (Nat.le_of_not_lt hend)]
      rfl
  · have hsize : ((respelled src).extract (q + n) j).size = j - (q + n) := by
      rw [Array.size_extract, Nat.min_eq_left hw.le_size]
    rw [← hsize]
    apply extract_eq
    intro k hk
    rw [hget k (by omega)]
    exact getElem?_of_extract rfl hk

/-- **Words of the output.** A word of the output is a word of the source, kept as a whole, or a word of the text that
an edit puts. -/
theorem word_origin {i j : Nat} (hw : IsWord (respelled src) i j) :
    (∃ p, IsWord src p (p + (j - i)) ∧ (∀ k < j - i, Kept src (p + k) (i + k)) ∧
      src.extract p (p + (j - i)) = (respelled src).extract i j) ∨
    ∃ e q n, PutAt src e q ∧ i = q + n ∧ IsWord (utf8 e.text) n (n + (j - i)) ∧
      (utf8 e.text).extract n (n + (j - i)) = (respelled src).extract i j := by
  rcases origin (Nat.lt_of_lt_of_le hw.lt hw.le_size) with ⟨p, hkept⟩ | ⟨e, hput⟩
  · exact .inl ⟨p, hkept.isWord hw⟩
  · exact .inr ⟨e, hput.isWord hw⟩

/-- a live word of the output that is kept is a live word of the source, and no edit takes it out -/
theorem liveWord_of_kept {i j : Nat} (hw : LiveWord (respelled src) i j) (hword : IsWord src p (p + (j - i)))
    (hkept : ∀ k < j - i, Kept src (p + k) (i + k)) :
    LiveWord src p (p + (j - i)) ∧ ∀ e ∈ orderedEdits src, ¬ (e.start ≤ p ∧ p + (j - i) ≤ e.stop) := by
  have hpos : 0 < j - i := Nat.sub_pos_of_lt hw.lt
  have hfirst : Kept src p i := hkept 0 hpos
  refine ⟨⟨hword, live_iff.2 ?_⟩, ?_⟩
  · rw [← hfirst.live]
    exact live_iff.1 hw.live
  · intro e he hin
    exact hfirst.not_covered he ⟨hin.1, Nat.lt_of_lt_of_le (Nat.lt_add_of_pos_right hpos) hin.2⟩

end Respell
