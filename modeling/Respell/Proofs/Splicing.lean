/-
Edits as splices. An edit alone is a splice: its text in place of its range (`Edit.splice`). Edits that stand in line
may be spliced in one at a time, the last one first, since a splice moves nothing that lies before it
(`take_spliceAll`); what one sweep over the source writes is the same text (`written_eq_spliceAll`).

The order is the stable one by ranges (`StableOrder`), of which there is only one (`stableOrder_iff`).

Main result, `applyEdits_splices`: edits between characters are carried out unless two of them conflict; the output is
that of splicing, and no character is cut; and where they are not carried out, two edits that do conflict are named,
with their lines and columns.
-/
import Mathlib
import Respell.Proofs.EditOrder
import Respell.Proofs.Lines
import Respell.Proofs.StrictReading

namespace Respell

/-! ## Splices -/

/-- the text with the edit's own text in place of its range -/
def Edit.splice (e : Edit) (text : Bytes) : Bytes :=
  text.extract 0 e.start ++ utf8 e.text ++ text.extract e.stop text.size

/-- splice in edits one at a time, the last one first -/
def spliceAll (edits : List Edit) (text : Bytes) : Bytes := edits.foldr Edit.splice text

theorem toList_splice (e : Edit) (text : Bytes) :
    (e.splice text).toList = text.toList.take e.start ++ ((utf8 e.text).toList ++ text.toList.drop e.stop) := by
  simp [Edit.splice, List.extract_eq_take_drop]

/-- splices behind an offset move nothing before it -/
theorem take_spliceAll {edits : List Edit} {text : Bytes} {q : Nat} (hq : q ≤ text.size)
    (h : ∀ e ∈ edits, q ≤ e.start) : (spliceAll edits text).toList.take q = text.toList.take q := by
  induction edits with
  | nil => rfl
  | cons e rest ih =>
    have hrest := ih fun x hx => h x (List.mem_cons_of_mem e hx)
    have hlen : q ≤ (spliceAll rest text).toList.length := by
      have := congrArg List.length hrest
      rw [List.length_take, List.length_take] at this
      have := @Array.length_toList _ text
      omega
    have hstart := h e List.mem_cons_self
    calc (e.splice (spliceAll rest text)).toList.take q
        = ((spliceAll rest text).toList.take e.start).take q := by
          rw [toList_splice, List.take_append_of_le_length]
          rw [List.length_take]
          omega
      _ = (spliceAll rest text).toList.take q := by rw [List.take_take, Nat.min_eq_left hstart]
      _ = text.toList.take q := hrest

/-- **One sweep writes what splices write.** -/
theorem written_eq_spliceAll {src : Bytes} {p : Nat} {edits : List Edit} (hstart : ∀ e ∈ edits, p ≤ e.start)
    (hr : ∀ e ∈ edits, e.InRange src) (horder : edits.Pairwise fun a b => a.stop ≤ b.start) :
    written src (pieces src p edits) = (spliceAll edits src).toList.drop p := by
  induction edits generalizing p with
  | nil => simp [written_pieces_nil, spliceAll, List.extract_eq_take_drop]
  | cons e rest ih =>
    obtain ⟨h1, h2⟩ := hr e List.mem_cons_self
    have hnext : ∀ x ∈ rest, e.stop ≤ x.start := fun x hx => List.rel_of_pairwise_cons horder hx
    have hrest := ih hnext (fun x hx => hr x (List.mem_cons_of_mem e hx)) horder.of_cons
    have hkeep : (spliceAll rest src).toList.take e.start = src.toList.take e.start :=
      take_spliceAll (by omega) fun x hx => Nat.le_trans h1 (hnext x hx)
    have hp := hstart e List.mem_cons_self
    calc written src (pieces src p (e :: rest))
        = (src.toList.take e.start).drop p ++ ((utf8 e.text).toList ++ (spliceAll rest src).toList.drop e.stop) := by
          rw [written_pieces_cons, hrest, Array.toList_extract, List.extract_eq_take_drop, List.drop_take]
      _ = (e.splice (spliceAll rest src)).toList.drop p := by
          rw [toList_splice, hkeep, List.drop_append_of_le_length]
          rw [List.length_take, Array.length_toList]
          omega

/-! ## The stable order -/

def withRange (start stop : Nat) (edits : List Edit) : List Edit :=
  edits.filter fun e => e.start = start ∧ e.stop = stop

/-- the edits, sorted by beginning and then by end, with edits of one range in the order of `edits` -/
structure StableOrder (edits ordered : List Edit) : Prop where
  perm : ordered.Perm edits
  sorted : ordered.Pairwise fun a b => a.start < b.start ∨ (a.start = b.start ∧ a.stop ≤ b.stop)
  stable : ∀ start stop, withRange start stop ordered = withRange start stop edits

theorem stableOrder_inOrder (edits : List Edit) : StableOrder edits (Edit.inOrder edits) where
  perm := Edit.inOrder_perm edits
  sorted := (Edit.inOrder_sorted edits).imp fun h => Edit.precedes_iff.1 h
  stable start stop := by
    -- edits of one range are in order as they stand, so a stable sort keeps them as they stand
    have hsorted : (withRange start stop edits).Pairwise fun a b => a.precedes b = true := by
      refine List.pairwise_of_forall_mem_list ?_
      intro a ha b hb
      have ha := of_decide_eq_true (List.mem_filter.1 ha).2
      have hb := of_decide_eq_true (List.mem_filter.1 hb).2
      rw [Edit.precedes_iff]
      omega
    have hsub : (withRange start stop edits).Sublist (Edit.inOrder edits) :=
      List.sublist_mergeSort Edit.precedes_trans Edit.precedes_total hsorted List.filter_sublist
    have hsub := hsub.filter fun e => decide (e.start = start ∧ e.stop = stop)
    rw [withRange, List.filter_filter] at hsub
    simp only [Bool.and_self] at hsub
    exact (hsub.eq_of_length ((Edit.inOrder_perm edits).filter _).length_eq.symm).symm

section sameRanges

variable {l l' : List Edit}

theorem mem_of_withRange (h : ∀ start stop, withRange start stop l = withRange start stop l') {e : Edit} (he : e ∈ l) :
    e ∈ l' := by
  have hmem : e ∈ withRange e.start e.stop l := List.mem_filter.2 ⟨he, by simp⟩
  rw [h] at hmem
  exact List.mem_of_mem_filter hmem

theorem withRange_of_cons {a : Edit}
    (h : ∀ start stop, withRange start stop (a :: l) = withRange start stop (a :: l')) (start stop : Nat) :
    withRange start stop l = withRange start stop l' := by
  have hcons := h start stop
  simp only [withRange, List.filter_cons] at hcons ⊢
  split at hcons
  · exact (List.cons.inj hcons).2
  · exact hcons

/-- a sorted list is known from its edits of each range -/
theorem eq_of_withRange (hs : l.Pairwise fun a b => a.start < b.start ∨ (a.start = b.start ∧ a.stop ≤ b.stop))
    (hs' : l'.Pairwise fun a b => a.start < b.start ∨ (a.start = b.start ∧ a.stop ≤ b.stop))
    (h : ∀ start stop, withRange start stop l = withRange start stop l') : l = l' := by
  induction l generalizing l' with
  | nil =>
    cases l' with
    | nil => rfl
    | cons b l' => cases mem_of_withRange (fun start stop => (h start stop).symm) (List.mem_cons_self (a := b))
  | cons a l ih =>
    cases l' with
    | nil => cases mem_of_withRange h List.mem_cons_self
    | cons b l' =>
      have ha : a ∈ b :: l' := mem_of_withRange h List.mem_cons_self
      have hb : b ∈ a :: l := mem_of_withRange (fun start stop => (h start stop).symm) List.mem_cons_self
      -- each of the two first edits is the least of both lists
      have hrange : a.start = b.start ∧ a.stop = b.stop := by
        rcases List.mem_cons.1 ha with rfl | ha
        · exact ⟨rfl, rfl⟩
        · rcases List.mem_cons.1 hb with rfl | hb
          · exact ⟨rfl, rfl⟩
          · have h1 := List.rel_of_pairwise_cons hs hb
            have h2 := List.rel_of_pairwise_cons hs' ha
            omega
      have hab : a = b := by
        have hfirst := h a.start a.stop
        simp only [withRange, List.filter_cons, hrange, and_self, decide_true, if_true, List.cons.injEq] at hfirst
        exact hfirst.1
      subst hab
      rw [ih hs.of_cons hs'.of_cons (withRange_of_cons h)]

end sameRanges

theorem stableOrder_iff {edits l : List Edit} : StableOrder edits l ↔ l = Edit.inOrder edits := by
  have hin := stableOrder_inOrder edits
  constructor
  · intro h
    refine eq_of_withRange h.sorted hin.sorted ?_
    intro start stop
    rw [h.stable, hin.stable]
  · rintro rfl
    exact hin

/-! ## Insertions at one offset -/

/-- the texts inserted at `p`, in the order of `edits` -/
def insertedAt (p : Nat) (edits : List Edit) : List UInt8 := (withRange p p edits).flatMap fun e => (utf8 e.text).toList

theorem insertedAt_append (p : Nat) (front back : List Edit) :
    insertedAt p (front ++ back) = insertedAt p front ++ insertedAt p back := by
  simp [insertedAt, withRange]

theorem insertedAt_eq_nil {p : Nat} {edits : List Edit} (h : ∀ e ∈ edits, e.start = p → e.stop ≠ p) :
    insertedAt p edits = [] := by
  have hnone : withRange p p edits = [] := by
    refine List.filter_eq_nil_iff.2 ?_
    intro e he
    simpa using h e he
  rw [insertedAt, hnone]
  rfl

theorem split_at {l : List Edit} (h : l.Pairwise fun a b => a.start ≤ b.start) (p : Nat) :
    ∃ front back, l = front ++ back ∧ (∀ e ∈ front, e.start < p) ∧ ∀ e ∈ back, p ≤ e.start := by
  induction l with
  | nil => exact ⟨[], [], rfl, by simp, by simp⟩
  | cons a l ih =>
    by_cases ha : a.start < p
    · obtain ⟨front, back, hsplit, hfront, hback⟩ := ih h.of_cons
      exact ⟨a :: front, back, by rw [hsplit]; rfl, List.forall_mem_cons.2 ⟨ha, hfront⟩, hback⟩
    · refine ⟨[], a :: l, rfl, by simp, List.forall_mem_cons.2 ⟨Nat.le_of_not_lt ha, ?_⟩⟩
      intro e he
      exact Nat.le_trans (Nat.le_of_not_lt ha) (List.rel_of_pairwise_cons h he)

/-- splices before an offset leave what lies behind it, and as much before it as they leave alone -/
theorem spliceAll_before {edits : List Edit} {text : Bytes} {p : Nat} (hp : p ≤ text.size)
    (hstop : ∀ e ∈ edits, e.start ≤ e.stop ∧ e.stop ≤ p) (horder : edits.Pairwise fun a b => a.stop ≤ b.start) :
    ∃ before, (spliceAll edits text).toList = before ++ text.toList.drop p ∧
      ∀ q ≤ p, (∀ e ∈ edits, q ≤ e.start) → q ≤ before.length := by
  induction edits with
  | nil =>
    refine ⟨text.toList.take p, (List.take_append_drop p _).symm, ?_⟩
    intro q hq _
    rw [List.length_take, Array.length_toList]
    omega
  | cons e rest ih =>
    obtain ⟨h1, h2⟩ := hstop e List.mem_cons_self
    obtain ⟨before, htext, hlen⟩ := ih (fun x hx => hstop x (List.mem_cons_of_mem e hx)) horder.of_cons
    have hlen := hlen e.stop h2 fun x hx => List.rel_of_pairwise_cons horder hx
    refine ⟨before.take e.start ++ ((utf8 e.text).toList ++ before.drop e.stop), ?_, ?_⟩
    · change (e.splice (spliceAll rest text)).toList = _
      rw [toList_splice, htext, List.take_append_of_le_length (by omega), List.drop_append_of_le_length hlen]
      simp only [List.append_assoc]
    · intro q _ hstart
      have := hstart e List.mem_cons_self
      rw [List.length_append, List.length_take]
      omega

/-- from the beginning of the first splice on stands its text, and then what lies behind its end -/
theorem drop_spliceAll_cons {e : Edit} {rest : List Edit} {text : Bytes} (he : e.start ≤ text.size)
    (hrest : ∀ x ∈ rest, e.start ≤ x.start) :
    (spliceAll (e :: rest) text).toList.drop e.start =
      (utf8 e.text).toList ++ (spliceAll rest text).toList.drop e.stop := by
  change (e.splice (spliceAll rest text)).toList.drop e.start = _
  rw [toList_splice, take_spliceAll he hrest, List.drop_left' (by rw [List.length_take, Array.length_toList]; omega)]

/-- at an offset before which nothing is spliced in stand the insertions there, and then the replacement there -/
theorem spliceAll_from {edits : List Edit} {text : Bytes} {p : Nat} (hp : p ≤ text.size)
    (hstart : ∀ e ∈ edits, p ≤ e.start ∧ e.start ≤ e.stop) (horder : edits.Pairwise fun a b => a.stop ≤ b.start) :
    ∃ after, (spliceAll edits text).toList.drop p = insertedAt p edits ++ after ∧
      ∀ e ∈ edits, e.start = p → p < e.stop → (utf8 e.text).toList <+: after := by
  induction edits with
  | nil => exact ⟨text.toList.drop p, rfl, by simp⟩
  | cons e rest ih =>
    obtain ⟨h1, h2⟩ := hstart e List.mem_cons_self
    have hrest : ∀ x ∈ rest, p ≤ x.start := fun x hx => (hstart x (List.mem_cons_of_mem e hx)).1
    have hnext : ∀ x ∈ rest, e.stop ≤ x.start := fun x hx => List.rel_of_pairwise_cons horder hx
    by_cases he : e.stop = p
    · -- an insertion at the offset
      obtain rfl : e.start = p := by omega
      obtain ⟨after, hafter, hprefix⟩ := ih (fun x hx => hstart x (List.mem_cons_of_mem e hx)) horder.of_cons
      refine ⟨after, ?_, ?_⟩
      · rw [drop_spliceAll_cons hp hrest, he, hafter]
        simp [insertedAt, withRange, he]
      · intro x hx hxs hxe
        rcases List.mem_cons.1 hx with rfl | hx
        · omega
        · exact hprefix x hx hxs hxe
    · -- anything else: what follows begins behind the offset
      have hnone : insertedAt p (e :: rest) = [] := by
        apply insertedAt_eq_nil
        intro x hx hxs
        rcases List.mem_cons.1 hx with rfl | hx
        · exact he
        · have := hnext x hx
          omega
      refine ⟨_, by rw [hnone]; rfl, ?_⟩
      intro x hx hxs hxe
      rcases List.mem_cons.1 hx with rfl | hx
      · subst hxs
        rw [drop_spliceAll_cons hp hrest]
        exact List.prefix_append _ _
      · have := hnext x hx
        omega

theorem le_size_spliceAll {edits : List Edit} {text : Bytes} {p : Nat} (hp : p ≤ text.size)
    (hstart : ∀ e ∈ edits, p ≤ e.start) : p ≤ (spliceAll edits text).size := by
  have hkeep := congrArg List.length (take_spliceAll hp hstart)
  rw [List.length_take, List.length_take, Array.length_toList, Array.length_toList] at hkeep
  omega

/-- where an edit begins stand the insertions there, and then its own text if it takes something out -/
theorem spliceAll_at {src : Bytes} {edits : List Edit} (hr : ∀ e ∈ edits, e.InRange src)
    (horder : edits.Pairwise fun a b => a.stop ≤ b.start) {e : Edit} (he : e ∈ edits) :
    ∃ before after, (spliceAll edits src).toList = before ++ insertedAt e.start edits ++ after ∧
      (e.start < e.stop → (utf8 e.text).toList <+: after) := by
  have hstarts : edits.Pairwise fun a b => a.start ≤ b.start :=
    horder.imp_of_mem fun ha _ hab => Nat.le_trans (hr _ ha).1 hab
  obtain ⟨front, back, rfl, hfront, hback⟩ := split_at hstarts e.start
  obtain ⟨hof, hob, hcross⟩ := List.pairwise_append.1 horder
  have heb : e ∈ back := by
    rcases List.mem_append.1 he with he | he
    · exact absurd (hfront e he) (Nat.lt_irrefl _)
    · exact he
  have hp : e.start ≤ src.size := Nat.le_trans (hr e he).1 (hr e he).2
  have hback' : ∀ x ∈ back, e.start ≤ x.start ∧ x.start ≤ x.stop := fun x hx =>
    ⟨hback x hx, (hr x (List.mem_append_right front hx)).1⟩
  have hfront' : ∀ x ∈ front, x.start ≤ x.stop ∧ x.stop ≤ e.start := fun x hx =>
    ⟨(hr x (List.mem_append_left back hx)).1, hcross x hx e heb⟩
  obtain ⟨after, hafter, htext⟩ := spliceAll_from hp hback' hob
  obtain ⟨before, hbefore, -⟩ := spliceAll_before (le_size_spliceAll hp hback) hfront' hof
  have hnone : insertedAt e.start front = [] :=
    insertedAt_eq_nil fun x hx hxs => absurd hxs (Nat.ne_of_lt (hfront x hx))
  refine ⟨before, after, ?_, htext e heb rfl⟩
  calc (spliceAll (front ++ back) src).toList
      = (spliceAll front (spliceAll back src)).toList := by rw [spliceAll, List.foldr_append]; rfl
    _ = before ++ insertedAt e.start (front ++ back) ++ after := by
        rw [hbefore, hafter, insertedAt_append, hnone, List.nil_append, List.append_assoc]

/-! ## Conflicts -/

def Edit.Covers (e : Edit) (k : Nat) : Prop := e.start ≤ k ∧ k < e.stop

/-- an insertion strictly inside what another edit takes out -/
def Edit.StrictlyInside (a b : Edit) : Prop := a.start = a.stop ∧ b.start < a.start ∧ a.start < b.stop

/-- two edits take out a common byte, or one is an insertion strictly inside the other -/
def Edit.Conflicts (a b : Edit) : Prop :=
  (∃ k, a.Covers k ∧ b.Covers k) ∨ a.StrictlyInside b ∨ b.StrictlyInside a

theorem Edit.conflicts_iff {a b : Edit} (ha : a.start ≤ a.stop) (hb : b.start ≤ b.stop) :
    a.Conflicts b ↔ a.Overlaps b := by
  unfold Conflicts Covers StrictlyInside Overlaps
  constructor
  · rintro (⟨k, h1, h2⟩ | h | h) <;> omega
  · intro h
    by_cases hai : a.start = a.stop
    · exact .inr (.inl (by omega))
    · by_cases hbi : b.start = b.stop
      · exact .inr (.inr (by omega))
      · exact .inl ⟨max a.start b.start, by omega, by omega⟩

def siteOf (src : Bytes) (e : Edit) : Site := ⟨e, ⟨lineFeeds src e.start, e.start - lineStart src e.start⟩⟩

/-- an edit in words: its rule, its range, and the line and byte column of its beginning, counted from one -/
def siteText (src : Bytes) (e : Edit) : String :=
  e.rule.label ++ " pass " ++ toString e.start ++ ".." ++ toString e.stop ++
    " (" ++ toString (lineFeeds src e.start + 1) ++ ":" ++ toString (e.start - lineStart src e.start + 1) ++ ")"

/-- neighbours that clash are two recorded edits, and they overlap -/
theorem overlaps_of_clash? {src : Bytes} {edits : List Edit} (hr : ∀ e ∈ edits, e.InRange src) {a b : Edit}
    (h : Edit.clash? (Edit.inOrder edits) = some (a, b)) :
    [a, b].Subperm edits ∧ a.Overlaps b := by
  obtain ⟨⟨front, back, hsplit⟩, hlt⟩ := Edit.neighbours_of_clash? h
  have hsub : [a, b].Sublist (Edit.inOrder edits) := by
    rw [hsplit]
    exact List.sublist_append_of_sublist_right ((List.nil_sublist back).cons_cons b |>.cons_cons a)
  have hsubperm : [a, b].Subperm edits := hsub.subperm.trans (Edit.inOrder_perm edits).subperm
  refine ⟨hsubperm, ?_⟩
  have hb := hr b (hsubperm.subset (by simp))
  have hab : a.precedes b = true := by
    have := Edit.inOrder_sorted edits
    rw [hsplit, List.pairwise_append] at this
    exact List.rel_of_pairwise_cons this.2.1 List.mem_cons_self
  by_contra hno
  have := (Edit.stop_le_iff hb.1 hab).2 hno
  omega

/-! ## Carrying edits out -/

section carryingOut

variable {src : Bytes} {edits : List Edit} (hr : ∀ e ∈ edits, e.InRange src)
include hr

/-- edits are carried out just when no two of them conflict -/
theorem exists_ok_iff : (∃ out, applyEdits src edits = .ok out) ↔ edits.Pairwise fun a b => ¬ a.Conflicts b := by
  have hconf : (edits.Pairwise fun a b => ¬ a.Conflicts b) ↔ edits.Pairwise fun a b => ¬ a.Overlaps b := by
    refine ⟨fun h => h.imp_of_mem ?_, fun h => h.imp_of_mem ?_⟩ <;> intro a b ha hb hab
    · rwa [Edit.conflicts_iff (hr a ha).1 (hr b hb).1] at hab
    · rwa [Edit.conflicts_iff (hr a ha).1 (hr b hb).1]
  rw [hconf, ← Edit.inOrder_stop_le_iff fun e he => (hr e he).1]
  constructor
  · rintro ⟨out, hout⟩
    exact (applyEdits_ok hr hout).2.2
  · intro hline
    rcases applyEdits_cases src edits with ⟨-, hok⟩ | ⟨a, b, hclash, -⟩
    · exact ⟨_, hok⟩
    · rw [Edit.clash?_eq_none hline] at hclash
      cases hclash

theorem code_eq_spliceAll {out : Rendered} (h : applyEdits src edits = .ok out) :
    out.code = spliceAll (Edit.inOrder edits) src := by
  obtain ⟨rfl, hr', horder⟩ := applyEdits_ok hr h
  apply Array.toList_inj.1
  rw [render_code, written_eq_spliceAll (fun _ _ => Nat.zero_le _) hr' horder, List.drop_zero]

theorem code_at {out : Rendered} (h : applyEdits src edits = .ok out) {e : Edit} (he : e ∈ edits) :
    ∃ before after, out.code.toList = before ++ insertedAt e.start edits ++ after ∧
      (e.start < e.stop → (utf8 e.text).toList <+: after) := by
  obtain ⟨-, hr', horder⟩ := applyEdits_ok hr h
  obtain ⟨before, after, hsplit, htext⟩ := spliceAll_at hr' horder ((Edit.inOrder_perm edits).mem_iff.2 he)
  refine ⟨before, after, ?_, htext⟩
  rw [code_eq_spliceAll hr h, hsplit, insertedAt, insertedAt, (stableOrder_inOrder edits).stable]

end carryingOut

/-- **Carrying edits out is splicing.** Edits that begin and end between characters of a source and were recorded in
any order are carried out just when no two of them conflict. Then no character is cut, and the output is that of
splicing the edits in one at a time, from last to first in the stable order by ranges; at each edit stand the
insertions at its beginning, in the order in which they were recorded, and then its own text if it takes something
out. If the edits are not carried out, two recorded edits that conflict are named, each with the line and byte column
of its beginning. -/
theorem applyEdits_splices (source : String) (edits : List Edit)
    (hr : ∀ e ∈ edits, e.start ≤ e.stop ∧ Boundary (utf8 source) e.start ∧ Boundary (utf8 source) e.stop) :
    ((∃ out, applyEdits (utf8 source) edits = .ok out) ↔ edits.Pairwise fun a b => ¬ a.Conflicts b) ∧
    (∀ out, applyEdits (utf8 source) edits = .ok out →
      (∃ ordered, (∀ l, StableOrder edits l ↔ l = ordered) ∧ out.code = spliceAll ordered (utf8 source) ∧
        Strict.render (utf8 source) 0 ordered = some out.code) ∧
      ∀ e ∈ edits, ∃ before after, out.code.toList = before ++ insertedAt e.start edits ++ after ∧
        (e.start < e.stop → (utf8 e.text).toList <+: after)) ∧
    ∀ o, applyEdits (utf8 source) edits = .error o →
      ∃ a b, [a, b].Subperm edits ∧ a.Conflicts b ∧ o = ⟨siteOf (utf8 source) a, siteOf (utf8 source) b⟩ ∧
        o.message = "overlapping edits: " ++ siteText (utf8 source) a ++ " and " ++ siteText (utf8 source) b := by
  have hin : ∀ e ∈ edits, e.InRange (utf8 source) := fun e he => ⟨(hr e he).1, (hr e he).2.2.1⟩
  refine ⟨exists_ok_iff hin, ?_, ?_⟩
  · intro out hout
    have hwritten := Strict.render_eq (Strict.boundary_zero (utf8_toList source)) fun e he =>
      (hr e ((Edit.inOrder_perm edits).mem_iff.1 he)).2
    rw [← render_code, ← (applyEdits_ok hin hout).1] at hwritten
    exact ⟨⟨Edit.inOrder edits, fun l => stableOrder_iff, code_eq_spliceAll hin hout, hwritten⟩,
      fun e he => code_at hin hout he⟩
  · intro o ho
    rcases applyEdits_cases (utf8 source) edits with ⟨-, hok⟩ | ⟨a, b, hclash, herr⟩
    · rw [hok] at ho
      cases ho
    · obtain ⟨hsub, hover⟩ := overlaps_of_clash? hin hclash
      have ha := hr a (hsub.subset (by simp))
      have hb := hr b (hsub.subset (by simp))
      rw [herr, locate_ofText, locate_ofText] at ho
      cases ho
      exact ⟨a, b, hsub, (Edit.conflicts_iff ha.1 hb.1).2 hover, rfl, rfl⟩

/-- insertions at both edges of a replacement of a character of two bytes, recorded after it -/
theorem applyEdits_splices_edges :
    (∀ e ∈ [⟨.keyword, 0, 2, "X"⟩, ⟨.importLine, 0, 0, "<"⟩, ⟨.member, 2, 2, ">"⟩, (⟨.attribute, 2, 2, "!"⟩ : Edit)],
      e.start ≤ e.stop ∧ Boundary (utf8 "éb") e.start ∧ Boundary (utf8 "éb") e.stop) ∧
    ∃ out, applyEdits (utf8 "éb")
        [⟨.keyword, 0, 2, "X"⟩, ⟨.importLine, 0, 0, "<"⟩, ⟨.member, 2, 2, ">"⟩, ⟨.attribute, 2, 2, "!"⟩] = .ok out ∧
      out.code = utf8 "<X>!b" ∧
      ∃ ordered, (∀ l, StableOrder
          [⟨.keyword, 0, 2, "X"⟩, ⟨.importLine, 0, 0, "<"⟩, ⟨.member, 2, 2, ">"⟩, ⟨.attribute, 2, 2, "!"⟩] l ↔
          l = ordered) ∧
        out.code = spliceAll ordered (utf8 "éb") ∧ Strict.render (utf8 "éb") 0 ordered = some out.code := by
  have hr : ∀ e ∈ [⟨.keyword, 0, 2, "X"⟩, ⟨.importLine, 0, 0, "<"⟩, ⟨.member, 2, 2, ">"⟩,
      (⟨.attribute, 2, 2, "!"⟩ : Edit)],
      e.start ≤ e.stop ∧ Boundary (utf8 "éb") e.start ∧ Boundary (utf8 "éb") e.stop := by
    decide +kernel
  have hok : applyEdits (utf8 "éb")
      [⟨.keyword, 0, 2, "X"⟩, ⟨.importLine, 0, 0, "<"⟩, ⟨.member, 2, 2, ">"⟩, ⟨.attribute, 2, 2, "!"⟩] =
    .ok ⟨utf8 "<X>!b", #[⟨⟨0, 1⟩, ⟨0, 0⟩, false⟩, ⟨⟨1, 2⟩, ⟨0, 2⟩, false⟩, ⟨⟨2, 3⟩, ⟨2, 2⟩, false⟩,
      ⟨⟨3, 4⟩, ⟨2, 2⟩, false⟩, ⟨⟨4, 5⟩, ⟨2, 3⟩, true⟩], 5, 3, ⟨#[0]⟩⟩ := by
    cbv
  exact ⟨hr, _, hok, rfl, ((applyEdits_splices _ _ hr).2.1 _ hok).1⟩

end Respell
