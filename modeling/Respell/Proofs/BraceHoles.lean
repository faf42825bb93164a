/-
A brace expression is a hole. The end of a brace expression is found from outside: a scanner that begins in normal code
walks over live bytes, and braces are counted at those after which it is in normal code. Template holes have the scanner
count for itself, in its region, above the regions that wait. Both counts are the same.

Let one scanner begin behind a brace in normal code, and another one there in a hole on any regions (`floor`). They go
in step (`InStep`): where the first is in normal code, the second is in the hole, with as many braces open as are
counted; above that, both are in the same regions. What a step does there is decided by the region alone
(`exists_move`), so both do the same (`InStep.step_above`); at the bottom a brace is live for both, but for the one
that closes the hole.

Main result, `endOfBraces_hole`: a brace expression ends where a hole in its place would be left. It is never empty,
so the reading of a tag comes to an end.
-/
import Respell.Proofs.BraceScans
import Respell.Proofs.Nesting
import Respell.Proofs.StrictRules

namespace Respell

/-! ## Leaving a hole -/

def Region.isHole : Region → Bool
  | .hole _ => true
  | _ => false

/-- whether a hole that stands on `floor` is among some regions -/
def holdsHole (floor : List Region) : List Region → Bool
  | [] => false
  | r :: below => (r.isHole && below == floor) || holdsHole floor below

/-- whether the hole on `floor` is open: the scanner is in it, or it waits -/
def Scanner.inHole (s : Scanner) (floor : List Region) : Bool := holdsHole floor (s.region :: s.suspended)

/-- the offset behind the step by which the scanner leaves the hole on `floor`; `none` if it never does -/
def holeEnd? (src : Bytes) (floor : List Region) (s : Scanner) : Option Nat :=
  if h : s.pos < src.size then
    let t := (s.step src src[s.pos]).1
    if t.inHole floor then holeEnd? src floor t else some t.pos
  else none
termination_by src.size - s.pos
decreasing_by
  have := Scanner.lt_step src s src[s.pos]
  omega

theorem holdsHole_append (floor top : List Region) (d : Nat) : holdsHole floor (top ++ .hole d :: floor) = true := by
  induction top with
  | nil => simp [holdsHole, Region.isHole]
  | cons r top ih => rw [List.cons_append, holdsHole, ih, Bool.or_true]

theorem holdsHole_of_length_le {floor regions : List Region} (h : regions.length ≤ floor.length) :
    holdsHole floor regions = false := by
  induction regions with
  | nil => rfl
  | cons r below ih =>
    rw [List.length_cons] at h
    have hne : below ≠ floor := fun heq => by rw [heq] at h; omega
    rw [holdsHole, ih (by omega), Bool.or_false, beq_eq_false_iff_ne.2 hne, Bool.and_false]

theorem inHole_leave (floor : List Region) (p d n : Nat) :
    ((Scanner.mk p (.hole d) floor).leave n).inHole floor = false := by
  cases floor with
  | nil => rfl
  | cons r below => exact holdsHole_of_length_le (Nat.le_refl _)

theorem holeEnd?_of_getElem? {src : Bytes} {floor : List Region} {s : Scanner} {b : UInt8} (hb : src[s.pos]? = some b) :
    holeEnd? src floor s =
      if (s.step src b).1.inHole floor then holeEnd? src floor (s.step src b).1 else some (s.step src b).1.pos := by
  obtain ⟨hlt, rfl⟩ := Array.getElem?_eq_some_iff.1 hb
  rw [holeEnd?, dif_pos hlt]

/-! ## The count, step by step -/

namespace Attribute

variable {src : Bytes} {s : Scanner} {b : UInt8}

theorem closeBraces_of_end (h : src[s.pos]? = none) (depth : Nat) : closeBraces src s depth = src.size := by
  have hend : s.nextLive src = (none, s) := by
    rw [Scanner.nextLive, dif_neg (by simpa using h)]
  rw [closeBraces, hend]

theorem closeBraces_of_dead (hb : src[s.pos]? = some b) (h : (s.step src b).2 = false) (depth : Nat) :
    closeBraces src s depth = closeBraces src (s.step src b).1 depth := by
  have hnext : s.nextLive src = (s.step src b).1.nextLive src := by
    rw [Scanner.nextLive_of_getElem? hb, h]
    rfl
  rw [closeBraces, hnext, closeBraces.eq_def src (s.step src b).1]

/-- a live byte counts if it is a brace and the scanner is in normal code behind it -/
theorem closeBraces_of_live (hb : src[s.pos]? = some b) (h : (s.step src b).2 = true) (depth : Nat) :
    closeBraces src s depth =
      if (s.step src b).1.region = .normal ∧ b = ascii '{' then closeBraces src (s.step src b).1 (depth + 1)
      else if (s.step src b).1.region = .normal ∧ b = ascii '}' then
        if depth ≤ 1 then s.pos + 1 else closeBraces src (s.step src b).1 (depth - 1)
      else closeBraces src (s.step src b).1 depth := by
  have hnext : s.nextLive src = (some s.pos, (s.step src b).1) := by
    rw [Scanner.nextLive_of_getElem? hb, if_pos h]
  rw [closeBraces, hnext]
  simp only [hb, Option.some.injEq]

end Attribute

/-! ## Two scanners in step -/

/-- two scanners at offset `p`. Where the first is in normal code, the second is in the hole on `floor`, with `depth`
braces open; above that, both are in the same regions, none of them normal code. -/
inductive InStep (floor : List Region) (depth p : Nat) : Scanner → Scanner → Prop
  | bottom : InStep floor depth p ⟨p, .normal, []⟩ ⟨p, .hole depth, floor⟩
  | above (r : Region) (top : List Region) (hr : r ≠ .normal) (htop : .normal ∉ top) :
    InStep floor depth p ⟨p, r, top ++ [.normal]⟩ ⟨p, r, top ++ .hole depth :: floor⟩

namespace InStep

variable {src : Bytes} {floor : List Region} {depth p : Nat} {s t : Scanner} {b : UInt8}

theorem inHole (h : InStep floor depth p s t) : t.inHole floor = true := by
  cases h with
  | bottom => exact holdsHole_append floor [] depth
  | above r top => exact holdsHole_append floor (r :: top) depth

theorem pos_eq (h : InStep floor depth p s t) : s.pos = p ∧ t.pos = p := by
  cases h <;> exact ⟨rfl, rfl⟩

/-- both matchers go on with scanners that are in step again -/
def GoOn (src : Bytes) (floor : List Region) (depth p : Nat) (s t : Scanner) : Prop :=
  ∃ depth' p' s' t', 1 ≤ depth' ∧ p < p' ∧ InStep floor depth' p' s' t' ∧
    Attribute.closeBraces src s depth = Attribute.closeBraces src s' depth' ∧
      holeEnd? src floor t = holeEnd? src floor t'

/-- **Above the hole** both scanners make the same move, and what is live there is not counted: the first scanner is
not in normal code behind it. -/
theorem step_above (hb : src[p]? = some b) (hd : 1 ≤ depth) {r : Region} {top : List Region} (hr : r ≠ .normal)
    (htop : .normal ∉ top) :
    GoOn src floor depth p ⟨p, r, top ++ [.normal]⟩ ⟨p, r, top ++ .hole depth :: floor⟩ := by
  obtain ⟨m, hm, hstep⟩ := exists_move hb r
  generalize hs : Scanner.mk p r (top ++ [.normal]) = s
  generalize ht : Scanner.mk p r (top ++ .hole depth :: floor) = t
  have hsteps : s.step src b = (s.moved m, m.live) := hs ▸ hstep _
  have hstept : t.step src b = (t.moved m, m.live) := ht ▸ hstep _
  have hpair : InStep floor depth m.stop (s.moved m) (t.moved m) ∧ (m.live = true → (s.moved m).region ≠ .normal) := by
    subst hs ht
    have hrtop : .normal ∉ r :: top := List.not_mem_cons_of_ne_of_not_mem hr.symm htop
    -- no move reads below the open region, so the two floors show only on leaving it
    have hleave : ∀ n, InStep floor depth (p + n) ((Scanner.mk p r (top ++ [.normal])).leave n)
        ((Scanner.mk p r (top ++ .hole depth :: floor)).leave n) := by
      intro n
      cases top with
      | nil => exact .bottom
      | cons q top =>
        obtain ⟨hq, hrest⟩ := List.ne_and_not_mem_of_not_mem_cons htop
        exact .above q top hq.symm hrest
    cases hm with
    | pass => exact ⟨.above r top hr htop, fun _ => hr⟩
    | escape => exact ⟨.above r top hr htop, fun _ => hr⟩
    | openText q n _ hq => exact ⟨.above q (r :: top) (Region.ne_normal_of_isCode hq) hrtop, nofun⟩
    | openHole => exact ⟨.above (.hole 1) (r :: top) nofun hrtop, nofun⟩
    | closeText => exact ⟨hleave _, nofun⟩
    | deepen d => exact ⟨.above (.hole (d + 1)) top nofun htop, fun _ => nofun⟩
    | rise d => exact ⟨.above (.hole (d - 1)) top nofun htop, fun _ => nofun⟩
    | closeHole => exact ⟨hleave _, nofun⟩
  obtain ⟨hpair, hlive⟩ := hpair
  have hbs : src[s.pos]? = some b := hs ▸ hb
  have hbt : src[t.pos]? = some b := ht ▸ hb
  refine ⟨depth, m.stop, s.moved m, t.moved m, hd, ?_, hpair, ?_, ?_⟩
  · have hlt := Scanner.lt_step src s b
    rw [hsteps, Scanner.moved_pos, ← hs] at hlt
    exact hlt
  · cases hl : m.live with
    | false => rw [Attribute.closeBraces_of_dead hbs (by rw [hsteps, hl]), hsteps]
    | true =>
      have hne := hlive hl
      rw [Attribute.closeBraces_of_live hbs (by rw [hsteps, hl]), hsteps, if_neg fun hc => hne hc.1,
        if_neg fun hc => hne hc.1]
  · rw [holeEnd?_of_getElem? hbt, hstept, hpair.inHole, if_pos rfl]

theorem isCode_of_opening {q : Region} {n : Nat} (h : Scanner.opening? src p b = some (q, n)) : q.isCode = false := by
  unfold Scanner.opening? at h
  split_ifs at h <;> cases h <;> rfl

/-- **In the hole** both scanners count the same braces, and the last one ends both. -/
theorem step_bottom (hb : src[p]? = some b) (hd : 1 ≤ depth) :
    GoOn src floor depth p ⟨p, .normal, []⟩ ⟨p, .hole depth, floor⟩ ∨
      b = ascii '}' ∧ Attribute.closeBraces src ⟨p, .normal, []⟩ depth = p + 1 ∧
        holeEnd? src floor ⟨p, .hole depth, floor⟩ = some (p + 1) := by
  generalize hs : Scanner.mk p .normal [] = s
  generalize ht : Scanner.mk p (.hole depth) floor = t
  have hbs : src[s.pos]? = some b := hs ▸ hb
  have hbt : src[t.pos]? = some b := ht ▸ hb
  cases hopen : Scanner.opening? src p b with
  | some opened =>
    -- both enter what the byte opens
    obtain ⟨q, n⟩ := opened
    have hsteps : s.step src b = (⟨p + n, q, [.normal]⟩, false) := by
      simp only [← hs, Scanner.step, hopen]
      rfl
    have hstept : t.step src b = (⟨p + n, q, .hole depth :: floor⟩, false) := by
      simp only [← ht, Scanner.step, hopen]
      rfl
    have hpair : InStep floor depth (p + n) ⟨p + n, q, [.normal]⟩ ⟨p + n, q, .hole depth :: floor⟩ :=
      .above q [] (Region.ne_normal_of_isCode (isCode_of_opening hopen)) List.not_mem_nil
    left
    refine ⟨depth, p + n, _, _, hd, Nat.lt_add_of_pos_right (Scanner.opening?_width hopen), hpair, ?_, ?_⟩
    · rw [Attribute.closeBraces_of_dead hbs (by rw [hsteps]), hsteps]
    · rw [holeEnd?_of_getElem? hbt, hstept, hpair.inHole, if_pos rfl]
  | none =>
    -- the byte is live in normal code
    have hsteps : s.step src b = (⟨p + 1, .normal, []⟩, true) := by
      simp only [← hs, Scanner.step, hopen]
      rfl
    have hcount := Attribute.closeBraces_of_live hbs (by rw [hsteps]) depth
    simp only [hsteps, true_and] at hcount
    have hstept : t.step src b = t.holeStep depth b := by
      simp only [← ht, Scanner.step, hopen]
    have hgo : ∀ depth', 1 ≤ depth' → t.step src b = (⟨p + 1, .hole depth', floor⟩, true) →
        Attribute.closeBraces src s depth = Attribute.closeBraces src ⟨p + 1, .normal, []⟩ depth' →
        GoOn src floor depth p s t := by
      intro depth' hd' hstep hclose
      have hpair : InStep floor depth' (p + 1) ⟨p + 1, .normal, []⟩ ⟨p + 1, .hole depth', floor⟩ := .bottom
      refine ⟨depth', p + 1, _, _, hd', Nat.lt_succ_self p, hpair, hclose, ?_⟩
      rw [holeEnd?_of_getElem? hbt, hstep, hpair.inHole, if_pos rfl]
    by_cases hdeep : b = ascii '{'
    · rw [if_pos hdeep] at hcount
      refine .inl (hgo (depth + 1) (Nat.le_add_left 1 depth) ?_ hcount)
      rw [hstept, Scanner.holeStep, if_pos hdeep, ← ht]
      rfl
    · rw [if_neg hdeep] at hcount
      by_cases hclose : b = ascii '}'
      · rw [if_pos hclose] at hcount
        by_cases hlast : depth ≤ 1
        · have hleft : t.step src b = (t.leave 1, false) := by
            rw [hstept, Scanner.holeStep, if_neg hdeep, if_pos hclose, if_pos hlast]
          refine .inr ⟨hclose, by rw [hcount, if_pos hlast, ← hs], ?_⟩
          rw [holeEnd?_of_getElem? hbt, hleft, ← ht, inHole_leave]
          rfl
        · rw [if_neg hlast] at hcount
          refine .inl (hgo (depth - 1) (by omega) ?_ hcount)
          rw [hstept, Scanner.holeStep, if_neg hdeep, if_pos hclose, if_neg hlast, ← ht]
          rfl
      · rw [if_neg hclose] at hcount
        refine .inl (hgo depth hd ?_ hcount)
        rw [hstept, Scanner.holeStep, if_neg hdeep, if_neg hclose, ← ht]
        rfl

/-- **One step.** Both matchers go on with scanners in step, or both end behind the brace at `p`. -/
theorem step (h : InStep floor depth p s t) (hb : src[p]? = some b) (hd : 1 ≤ depth) :
    GoOn src floor depth p s t ∨ b = ascii '}' ∧ Attribute.closeBraces src s depth = p + 1 ∧
      holeEnd? src floor t = some (p + 1) := by
  cases h with
  | bottom => exact step_bottom hb hd
  | above r top hr htop => exact .inl (step_above hb hd hr htop)

/-- **The whole run.** The end of the braces is the end of the hole, behind a brace, or the end of the text. -/
theorem closeBraces_eq (h : InStep floor depth p s t) (hd : 1 ≤ depth) :
    Attribute.closeBraces src s depth = (holeEnd? src floor t).getD src.size ∧
      ∀ stop, holeEnd? src floor t = some stop → src[stop - 1]? = some (ascii '}') := by
  -- a step ends behind `p`, so the induction is on what is left of the text
  induction hn : src.size - p using Nat.strong_induction_on generalizing depth p s t with
  | _ n ih =>
    obtain ⟨hs, ht⟩ := h.pos_eq
    cases hb : src[p]? with
    | none =>
      have hend : holeEnd? src floor t = none := by
        rw [holeEnd?, dif_neg (by rw [ht]; simpa using hb)]
      rw [Attribute.closeBraces_of_end (hs ▸ hb), hend]
      exact ⟨rfl, nofun⟩
    | some b =>
      rcases h.step hb hd with ⟨depth', p', s', t', hd', hp, hpair, hcount, hend⟩ | ⟨rfl, hcount, hend⟩
      · have hlt := succ_le_size hb
        rw [hcount, hend]
        exact ih (src.size - p') (by omega) hpair hd' rfl
      · rw [hcount, hend]
        refine ⟨rfl, ?_⟩
        rintro stop ⟨⟩
        exact hb

end InStep

/-! ## Brace expressions -/

theorem endOfBraces_eq_holeEnd? {src : Bytes} {i : Nat} (hi : i < src.size) (floor : List Region) :
    Attribute.endOfBraces src i = (holeEnd? src floor ⟨i + 1, .hole 1, floor⟩).getD src.size ∧
      ∀ stop, holeEnd? src floor ⟨i + 1, .hole 1, floor⟩ = some stop → src[stop - 1]? = some (ascii '}') := by
  have hstart : Scanner.start.skipTo src (i + 1) = ⟨i + 1, .normal, []⟩ := by
    simp only [Scanner.skipTo, Scanner.start, Scanner.mk.injEq, and_true]
    omega
  unfold Attribute.endOfBraces
  rw [hstart]
  exact InStep.bottom.closeBraces_eq (Nat.le_refl 1)

/-- **A brace expression is a hole.** Let a brace stand at offset `i` of a text, and let a scanner be put behind it,
in a hole with one open brace, whatever waits below. The brace expression ends where that scanner leaves the hole,
which is behind a closing brace, and at the end of the text if it never does. Its end lies behind `i`. In a text of
less than 2^32 bytes no count on the way to it leaves 32 bits, and neither does one in the reading of any tag, which
has a result. -/
theorem endOfBraces_hole (source : String) (i : Nat) (hi : (utf8 source)[i]? = some (ascii '{')) (floor : List Region) :
    Attribute.endOfBraces (utf8 source) i =
        (holeEnd? (utf8 source) floor ⟨i + 1, .hole 1, floor⟩).getD (utf8 source).size ∧
      (∀ stop, holeEnd? (utf8 source) floor ⟨i + 1, .hole 1, floor⟩ = some stop →
        (utf8 source)[stop - 1]? = some (ascii '}')) ∧
      i < Attribute.endOfBraces (utf8 source) i ∧
      ((utf8 source).size < UInt32.size →
        Strict.endOfBraces (utf8 source) i = some (Attribute.endOfBraces (utf8 source) i) ∧
        ∀ quote j, 0 < j → Strict.tag (utf8 source) quote j = some (Attribute.tag (utf8 source) quote j)) := by
  have hlt := succ_le_size hi
  obtain ⟨hend, hbrace⟩ := endOfBraces_eq_holeEnd? hlt floor
  refine ⟨hend, hbrace, Attribute.lt_endOfBraces _ i hlt, ?_⟩
  intro hsize
  exact ⟨Strict.endOfBraces_eq (utf8_toList source) hsize hlt,
    fun quote j hj => Strict.tag_eq (utf8_toList source) hsize hj⟩

/-- a template with a hole and a string, a comment and a pair of braces, all with closing braces of their own -/
theorem endOfBraces_hole_crowded :
    (utf8 "\x7b`$\x7b'\x7d'\x7d`/*\x7d*/\x7b\x7d\x7dx")[0]? = some (ascii '{') ∧
    holeEnd? (utf8 "\x7b`$\x7b'\x7d'\x7d`/*\x7d*/\x7b\x7d\x7dx") [.template, .normal]
      ⟨1, .hole 1, [.template, .normal]⟩ = some 17 ∧
    Attribute.endOfBraces (utf8 "\x7b`$\x7b'\x7d'\x7d`/*\x7d*/\x7b\x7d\x7dx") 0 = 17 := by
  have hopen : (utf8 "\x7b`$\x7b'\x7d'\x7d`/*\x7d*/\x7b\x7d\x7dx")[0]? = some (ascii '{') := by decide
  have hleft : holeEnd? (utf8 "\x7b`$\x7b'\x7d'\x7d`/*\x7d*/\x7b\x7d\x7dx") [.template, .normal]
      ⟨1, .hole 1, [.template, .normal]⟩ = some 17 := by
    cbv
  have hend := (endOfBraces_hole "\x7b`$\x7b'\x7d'\x7d`/*\x7d*/\x7b\x7d\x7dx" 0 hopen [.template, .normal]).1
  rw [hleft] at hend
  exact ⟨hopen, hleft, hend⟩

end Respell
