/-
What pieces write. The output of edits is the bytes of its pieces, one after the other (`render_code`); an edit in
front of others writes what is kept before it, its own text, and what the others write from its end on
(`written_pieces_cons`).
-/
import Mathlib.Tactic
import Respell.Edit

namespace Respell

def written (src : Bytes) (parts : List Piece) : List UInt8 := parts.flatMap fun p => (p.bytes src).toList

theorem render_code (src : Bytes) (edits : List Edit) :
    (render src edits).code.toList = written src (pieces src 0 edits) := by
  have hfold : ∀ (parts : List Piece) (out : Bytes),
      (parts.foldl (fun out p => out ++ p.bytes src) out).toList = out.toList ++ written src parts := by
    intro parts
    induction parts with
    | nil => simp [written]
    | cons p parts ih => intro out; simp [ih, written]
  simpa [render] using hfold (pieces src 0 edits) #[]

theorem written_keeping (src : Bytes) (p s : Nat) (parts : List Piece) :
    written src (Piece.keeping p s ++ parts) = (src.extract p s).toList ++ written src parts := by
  unfold Piece.keeping
  split
  · simp [written, Piece.bytes]
  · next h => simp [written, show s - p = 0 by omega]

theorem written_pieces_nil (src : Bytes) (p : Nat) :
    written src (pieces src p []) = (src.extract p src.size).toList := by
  have := written_keeping src p src.size []
  rw [List.append_nil] at this
  rw [pieces, this]
  simp [written]

theorem written_pieces_cons (src : Bytes) (p : Nat) (e : Edit) (rest : List Edit) :
    written src (pieces src p (e :: rest)) =
      (src.extract p e.start).toList ++ ((utf8 e.text).toList ++ written src (pieces src e.stop rest)) := by
  rw [pieces, written_keeping]
  rfl

/-- what is kept before the next edit may be cut off -/
theorem written_pieces_keep {src : Bytes} {p q : Nat} {edits : List Edit} (hpq : p ≤ q) (hq : q ≤ src.size)
    (h : ∀ e ∈ edits, q ≤ e.start) :
    written src (pieces src p edits) = (src.extract p q).toList ++ written src (pieces src q edits) := by
  have hcut : ∀ {s}, q ≤ s → src.extract p s = src.extract p q ++ src.extract q s := by
    intro s hs
    rw [Array.extract_append_extract, Nat.min_eq_left hpq, Nat.max_eq_right hs]
  cases edits with
  | nil => rw [written_pieces_nil, written_pieces_nil, hcut hq, Array.toList_append]
  | cons e edits =>
    rw [written_pieces_cons, written_pieces_cons, hcut (h e List.mem_cons_self), Array.toList_append, List.append_assoc]

end Respell
