/-
The order of recording. Rules record edits one after another, and several of them may have the same range. Only for
insertions does it matter which one came first: two replacements of one range overlap, and then nothing is carried out.

Two recordings of the same edits (`Rerecorded`) have the same ranges once in order (`spans_inOrder`), and whether
edits clash is a matter of their ranges (`clash?_spans`). So both fail, at the same two ranges, or neither does; and
if neither does, a range that is not empty has one edit at most (`withRange_length_le_one`), so that the two
recordings come to the same order (`inOrder_eq_of_rerecorded`).

Main result, `applyEdits_rerecorded`: what edits come to does not depend on the order in which they were recorded, as
long as the insertions at each offset keep theirs.
-/
import Respell.Proofs.Splicing

namespace Respell

/-- the same edits in another order, in which the insertions at one offset keep theirs -/
structure Rerecorded (edits edits' : List Edit) : Prop where
  perm : edits.Perm edits'
  insertions : ∀ p, withRange p p edits = withRange p p edits'

namespace Edit

/-! ## Ranges -/

def span (e : Edit) : Span := ⟨e.start, e.stop⟩

/-- permuted edits have the same ranges, once in order -/
theorem spans_inOrder {edits edits' : List Edit} (h : edits.Perm edits') :
    (inOrder edits).map span = (inOrder edits').map span := by
  have hsorted : ∀ l : List Edit, ((inOrder l).map span).Pairwise fun a b =>
      a.start < b.start ∨ (a.start = b.start ∧ a.stop ≤ b.stop) := by
    intro l
    exact List.pairwise_map.2 ((inOrder_sorted l).imp fun hab => precedes_iff.1 hab)
  have hperm : ((inOrder edits).map span).Perm ((inOrder edits').map span) :=
    ((inOrder_perm edits).trans (h.trans (inOrder_perm edits').symm)).map span
  refine hperm.eq_of_pairwise ?_ (hsorted edits) (hsorted edits')
  rintro ⟨s, t⟩ ⟨s', t'⟩ _ _ hab hba
  simp only [Span.mk.injEq] at hab hba ⊢
  omega

/-- a clash is one of ranges: edits with the same ranges clash at the same two, or not at all -/
theorem clash?_spans {l l' : List Edit} (h : l.map span = l'.map span) :
    (clash? l).map (Prod.map span span) = (clash? l').map (Prod.map span span) := by
  fun_induction clash? l generalizing l' with
  | case1 a b rest hlt =>
    obtain ⟨a', _, rfl, ha, h⟩ := List.map_eq_cons_iff.1 h.symm
    obtain ⟨b', rest', rfl, hb, -⟩ := List.map_eq_cons_iff.1 h
    have hstop := congrArg Span.stop ha
    have hstart := congrArg Span.start hb
    simp only [span] at hstop hstart
    rw [clash?, if_pos (by omega)]
    simp only [Option.map_some, Prod.map, ha, hb]
  | case2 a b rest hlt ih =>
    obtain ⟨a', _, rfl, ha, h⟩ := List.map_eq_cons_iff.1 h.symm
    obtain ⟨b', rest', rfl, hb, hrest⟩ := List.map_eq_cons_iff.1 h
    have hstop := congrArg Span.stop ha
    have hstart := congrArg Span.start hb
    simp only [span] at hstop hstart
    rw [clash?, if_neg (by omega)]
    exact ih (by rw [List.map_cons, List.map_cons, hb, hrest])
  | case3 l hshort =>
    -- one edit at most, here and there
    cases l with
    | nil =>
      obtain rfl := List.map_eq_nil_iff.1 h.symm
      rfl
    | cons a rest =>
      cases rest with
      | nil =>
        obtain ⟨a', rfl, -⟩ := List.map_eq_singleton_iff.1 h.symm
        rfl
      | cons b rest => exact absurd rfl (hshort a b rest)

end Edit

/-! ## One order -/

/-- of edits that do not overlap, one at most has a given range, unless that is empty -/
theorem withRange_length_le_one {edits : List Edit} (h : edits.Pairwise fun a b => ¬ a.Overlaps b) {start stop : Nat}
    (hlt : start < stop) : (withRange start stop edits).length ≤ 1 := by
  have hfilter : (withRange start stop edits).Pairwise fun a b => ¬ a.Overlaps b := h.filter _
  have hrange : ∀ e ∈ withRange start stop edits, e.start = start ∧ e.stop = stop := fun e he =>
    of_decide_eq_true (List.mem_filter.1 he).2
  cases hl : withRange start stop edits with
  | nil => exact Nat.zero_le 1
  | cons a rest =>
    cases rest with
    | nil => exact Nat.le_refl 1
    | cons b rest =>
      rw [hl] at hfilter hrange
      obtain ⟨ha1, ha2⟩ := hrange a List.mem_cons_self
      obtain ⟨hb1, hb2⟩ := hrange b (List.mem_cons_of_mem a List.mem_cons_self)
      refine absurd ?_ (List.rel_of_pairwise_cons hfilter List.mem_cons_self)
      exact ⟨by omega, by omega⟩

/-- recordings of edits that do not overlap have the same edits of each range, in the same order -/
theorem Rerecorded.withRange_eq {edits edits' : List Edit} (h : Rerecorded edits edits')
    (hle : ∀ e ∈ edits, e.start ≤ e.stop) (hover : edits.Pairwise fun a b => ¬ a.Overlaps b) (start stop : Nat) :
    withRange start stop edits = withRange start stop edits' := by
  have hperm : (withRange start stop edits).Perm (withRange start stop edits') := h.perm.filter _
  rcases Nat.lt_trichotomy start stop with hlt | rfl | hgt
  · -- a single edit is in order
    have hone := withRange_length_le_one hover hlt
    cases hl : withRange start stop edits with
    | nil =>
      rw [hl] at hperm
      exact hperm.nil_eq
    | cons a rest =>
      rw [hl] at hperm hone
      obtain rfl : rest = [] := List.length_eq_zero_iff.1 (by simpa using hone)
      exact List.singleton_perm.1 hperm
  · exact h.insertions start
  · -- no edit ends before it begins
    have hnone : withRange start stop edits = [] := by
      refine List.filter_eq_nil_iff.2 ?_
      intro e he hrange
      have := hle e he
      have := of_decide_eq_true hrange
      omega
    rw [hnone] at hperm ⊢
    exact hperm.nil_eq

/-- recordings of edits that do not overlap come to the same order -/
theorem inOrder_eq_of_rerecorded {edits edits' : List Edit} (h : Rerecorded edits edits')
    (hle : ∀ e ∈ edits, e.start ≤ e.stop) (hover : edits.Pairwise fun a b => ¬ a.Overlaps b) :
    Edit.inOrder edits = Edit.inOrder edits' := by
  have hin := stableOrder_inOrder edits
  have hin' := stableOrder_inOrder edits'
  refine eq_of_withRange hin.sorted hin'.sorted ?_
  intro start stop
  calc withRange start stop (Edit.inOrder edits)
      = withRange start stop edits := hin.stable start stop
    _ = withRange start stop edits' := h.withRange_eq hle hover start stop
    _ = withRange start stop (Edit.inOrder edits') := (hin'.stable start stop).symm

/-! ## Carrying edits out -/

/-- **The order of recording does not matter.** Let two recordings of the same edits, all within the source, differ only
in order, and let the insertions at each offset stand in the same order in both. Either both are carried out, with the
same output and the same segments, or both fail, and the two edits named have the same ranges and locations. -/
theorem applyEdits_rerecorded (src : Bytes) (edits edits' : List Edit)
    (hr : ∀ e ∈ edits, e.start ≤ e.stop ∧ e.stop ≤ src.size) (h : Rerecorded edits edits') :
    (∃ out, applyEdits src edits = .ok out ∧ applyEdits src edits' = .ok out) ∨
      ∃ o o', applyEdits src edits = .error o ∧ applyEdits src edits' = .error o' ∧
        (o.first.edit.span, o.first.location) = (o'.first.edit.span, o'.first.location) ∧
        (o.second.edit.span, o.second.location) = (o'.second.edit.span, o'.second.location) := by
  have hspans := Edit.clash?_spans (Edit.spans_inOrder h.perm)
  rcases applyEdits_cases src edits with ⟨hnone, hok⟩ | ⟨a, b, hclash, herr⟩
  · left
    have hline := (applyEdits_ok hr hok).2.2
    have hle : ∀ e ∈ edits, e.start ≤ e.stop := fun e he => (hr e he).1
    have hsame := inOrder_eq_of_rerecorded h hle ((Edit.inOrder_stop_le_iff hle).1 hline)
    refine ⟨_, hok, ?_⟩
    simp only [applyEdits, ← hsame, hnone]
  · right
    rcases applyEdits_cases src edits' with ⟨hnone', -⟩ | ⟨a', b', hclash', herr'⟩
    · rw [hclash, hnone'] at hspans
      cases hspans
    · rw [hclash, hclash'] at hspans
      simp only [Option.map_some, Prod.map, Option.some.injEq, Prod.mk.injEq] at hspans
      obtain ⟨ha, hb⟩ := hspans
      refine ⟨_, _, herr, herr', ?_, ?_⟩
      · rw [ha, show a.start = a'.start from congrArg Span.start ha]
      · rw [hb, show b.start = b'.start from congrArg Span.start hb]

/-- insertions at both edges of a replacement, recorded around it and behind it -/
theorem applyEdits_rerecorded_edges :
    Rerecorded [⟨.member, 1, 1, ">"⟩, ⟨.keyword, 0, 1, "X"⟩, ⟨.importLine, 0, 0, "<"⟩, ⟨.attribute, 1, 1, "!"⟩]
      [⟨.keyword, 0, 1, "X"⟩, ⟨.member, 1, 1, ">"⟩, ⟨.attribute, 1, 1, "!"⟩, ⟨.importLine, 0, 0, "<"⟩] ∧
    ∃ out, applyEdits (utf8 "ab")
        [⟨.member, 1, 1, ">"⟩, ⟨.keyword, 0, 1, "X"⟩, ⟨.importLine, 0, 0, "<"⟩, ⟨.attribute, 1, 1, "!"⟩] = .ok out ∧
      applyEdits (utf8 "ab")
        [⟨.keyword, 0, 1, "X"⟩, ⟨.member, 1, 1, ">"⟩, ⟨.attribute, 1, 1, "!"⟩, ⟨.importLine, 0, 0, "<"⟩] = .ok out ∧
      out.code = utf8 "<X>!b" := by
  have hr : ∀ e ∈ [⟨.member, 1, 1, ">"⟩, ⟨.keyword, 0, 1, "X"⟩, ⟨.importLine, 0, 0, "<"⟩,
      (⟨.attribute, 1, 1, "!"⟩ : Edit)], e.start ≤ e.stop ∧ e.stop ≤ (utf8 "ab").size := by
    decide
  have hsame : Rerecorded
      [⟨.member, 1, 1, ">"⟩, ⟨.keyword, 0, 1, "X"⟩, ⟨.importLine, 0, 0, "<"⟩, ⟨.attribute, 1, 1, "!"⟩]
      [⟨.keyword, 0, 1, "X"⟩, ⟨.member, 1, 1, ">"⟩, ⟨.attribute, 1, 1, "!"⟩, ⟨.importLine, 0, 0, "<"⟩] := by
    refine ⟨by decide, ?_⟩
    intro p
    by_cases h0 : 0 = p
    · subst h0
      rfl
    · by_cases h1 : 1 = p
      · subst h1
        rfl
      · simp [withRange, h0, h1]
  have hok : applyEdits (utf8 "ab")
      [⟨.member, 1, 1, ">"⟩, ⟨.keyword, 0, 1, "X"⟩, ⟨.importLine, 0, 0, "<"⟩, ⟨.attribute, 1, 1, "!"⟩] =
    .ok ⟨utf8 "<X>!b", #[⟨⟨0, 1⟩, ⟨0, 0⟩, false⟩, ⟨⟨1, 2⟩, ⟨0, 1⟩, false⟩, ⟨⟨2, 3⟩, ⟨1, 1⟩, false⟩,
      ⟨⟨3, 4⟩, ⟨1, 1⟩, false⟩, ⟨⟨4, 5⟩, ⟨1, 2⟩, true⟩], 5, 2, ⟨#[0]⟩⟩ := by
    cbv
  refine ⟨hsame, ?_⟩
  rcases applyEdits_rerecorded (utf8 "ab") _ _ hr hsame with ⟨out, hout, hout'⟩ | ⟨o, o', ho, -⟩
  · refine ⟨out, hout, hout', ?_⟩
    rw [hok] at hout
    cases hout
    rfl
  · rw [hok] at ho
    cases ho

end Respell
