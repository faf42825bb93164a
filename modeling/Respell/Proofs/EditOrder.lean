/-
Edits in order. `inOrder` sorts edits by their ranges, and `clash?` looks at neighbours only. For edits that are in
order, this is enough: if no two neighbours clash, each edit ends before any later one begins
(`stop_le_of_clash?_eq_none`), and edits in order stand in line like that just when no two of them overlap
(`inOrder_stop_le_iff`).
-/
import Mathlib.Tactic
import Respell.Edit

namespace Respell

namespace Edit

/-- the edits share a byte, or one is an insertion strictly inside the other -/
def Overlaps (a b : Edit) : Prop := a.start < b.stop ∧ b.start < a.stop

theorem precedes_iff {a b : Edit} :
    a.precedes b = true ↔ a.start < b.start ∨ (a.start = b.start ∧ a.stop ≤ b.stop) := by
  simp [precedes]

theorem precedes_trans (a b c : Edit) (hab : a.precedes b = true) (hbc : b.precedes c = true) :
    a.precedes c = true := by
  rw [precedes_iff] at *
  omega

theorem precedes_total (a b : Edit) : (a.precedes b || b.precedes a) = true := by
  rw [Bool.or_eq_true, precedes_iff, precedes_iff]
  omega

theorem inOrder_sorted (edits : List Edit) : (inOrder edits).Pairwise fun a b => a.precedes b = true :=
  List.pairwise_mergeSort precedes_trans precedes_total edits

theorem inOrder_perm (edits : List Edit) : (inOrder edits).Perm edits := List.mergeSort_perm edits precedes

theorem clash?_eq_none {edits : List Edit} (h : edits.Pairwise fun a b => a.stop ≤ b.start) : clash? edits = none := by
  fun_induction clash? edits with
  | case1 a b rest hlt =>
    have := List.rel_of_pairwise_cons h List.mem_cons_self
    omega
  | case2 a b rest _ ih => exact ih h.of_cons
  | case3 => rfl

/-- neighbours that do not clash are in line with all others -/
theorem stop_le_of_clash?_eq_none {edits : List Edit} (hle : ∀ e ∈ edits, e.start ≤ e.stop) (h : clash? edits = none) :
    edits.Pairwise fun a b => a.stop ≤ b.start := by
  fun_induction clash? edits with
  | case1 => cases h
  | case2 a b rest hlt ih =>
    have hrest := ih (fun e he => hle e (List.mem_cons_of_mem a he)) h
    refine List.pairwise_cons.2 ⟨?_, hrest⟩
    intro c hc
    have hab : a.stop ≤ b.start := Nat.le_of_not_lt hlt
    rcases List.mem_cons.1 hc with rfl | hc
    · exact hab
    · have hb := hle b (List.mem_cons_of_mem a List.mem_cons_self)
      exact Nat.le_trans hab (Nat.le_trans hb (List.rel_of_pairwise_cons hrest hc))
  | case3 edits hne =>
    match edits with
    | [] => exact .nil
    | [a] => exact List.pairwise_singleton _ a
    | a :: b :: rest => exact absurd rfl (hne a b rest)

theorem neighbours_of_clash? {edits : List Edit} {a b : Edit} (h : clash? edits = some (a, b)) :
    (∃ front back, edits = front ++ a :: b :: back) ∧ b.start < a.stop := by
  fun_induction clash? edits with
  | case1 x y rest hlt =>
    cases h
    exact ⟨⟨[], rest, rfl⟩, hlt⟩
  | case2 x y rest hlt ih =>
    obtain ⟨⟨front, back, heq⟩, hab⟩ := ih h
    exact ⟨⟨x :: front, back, by rw [heq]; rfl⟩, hab⟩
  | case3 => cases h

theorem stop_le_iff {a b : Edit} (hb : b.start ≤ b.stop) (h : a.precedes b = true) :
    a.stop ≤ b.start ↔ ¬ a.Overlaps b := by
  rw [precedes_iff] at h
  unfold Overlaps
  omega

/-- edits stand in line, once in order, just when no two of them overlap -/
theorem inOrder_stop_le_iff {edits : List Edit} (hle : ∀ e ∈ edits, e.start ≤ e.stop) :
    ((inOrder edits).Pairwise fun a b => a.stop ≤ b.start) ↔ edits.Pairwise fun a b => ¬ a.Overlaps b := by
  have hle' : ∀ e ∈ inOrder edits, e.start ≤ e.stop := fun e he => hle e ((inOrder_perm edits).mem_iff.1 he)
  have hsymm : ∀ {a b : Edit}, ¬ a.Overlaps b → ¬ b.Overlaps a := fun h ho => h ⟨ho.2, ho.1⟩
  rw [← (inOrder_perm edits).pairwise_iff hsymm]
  constructor
  · intro h
    refine ((inOrder_sorted edits).and h).imp_of_mem ?_
    intro a b _ hb hab
    exact (stop_le_iff (hle' b hb) hab.1).1 hab.2
  · intro h
    refine ((inOrder_sorted edits).and h).imp_of_mem ?_
    intro a b _ hb hab
    exact (stop_le_iff (hle' b hb) hab.1).2 hab.2

end Edit

/-- what carrying edits out can come to: the output of the edits in order, or a clash of two neighbours -/
theorem applyEdits_cases (src : Bytes) (edits : List Edit) :
    (Edit.clash? (Edit.inOrder edits) = none ∧ applyEdits src edits = .ok (render src (Edit.inOrder edits))) ∨
      ∃ a b, Edit.clash? (Edit.inOrder edits) = some (a, b) ∧ applyEdits src edits =
        .error ⟨⟨a, (LineTable.ofText src).locate a.start⟩, ⟨b, (LineTable.ofText src).locate b.start⟩⟩ := by
  cases h : Edit.clash? (Edit.inOrder edits) with
  | none => exact .inl ⟨rfl, by simp only [applyEdits, h]⟩
  | some pair => exact .inr ⟨pair.1, pair.2, rfl, by simp only [applyEdits, h]⟩

def Edit.InRange (src : Bytes) (e : Edit) : Prop := e.start ≤ e.stop ∧ e.stop ≤ src.size

/-- edits that were carried out stand in line, and made this output -/
theorem applyEdits_ok {src : Bytes} {edits : List Edit} (hr : ∀ e ∈ edits, e.InRange src) {out : Rendered}
    (h : applyEdits src edits = .ok out) :
    out = render src (Edit.inOrder edits) ∧ (∀ e ∈ Edit.inOrder edits, e.InRange src) ∧
      (Edit.inOrder edits).Pairwise fun a b => a.stop ≤ b.start := by
  have hr' : ∀ e ∈ Edit.inOrder edits, e.InRange src := fun e he => hr e ((Edit.inOrder_perm edits).mem_iff.1 he)
  rcases applyEdits_cases src edits with ⟨hnone, hok⟩ | ⟨a, b, -, herr⟩
  · rw [hok] at h
    cases h
    exact ⟨rfl, hr', Edit.stop_le_of_clash?_eq_none (fun e he => (hr' e he).1) hnone⟩
  · rw [herr] at h
    cases h

end Respell
