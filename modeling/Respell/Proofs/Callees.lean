/-
Callees. Whether a callee is spelled anew depends on what stands around it: `(` has to follow, and it must not be the
member of an access. The rule looks for the dot of the access on the bytes before the word, across whitespace, and does
not ask whether they are live. A dot that ends a comment counts, then, and a dot in front of a comment does not.

- `callee_mem_edits_iff`: the edit of a callee, in terms of the two look-arounds.
- `afterMemberDot_iff`: what the look-behind finds.
- `live_of_dot`: of the dots right before live code, those outside comments and cut off strings are live.

Main result, `callee_edit_iff`: the rule goes by the nearest byte that is no whitespace, and this is the rule that goes
by live code (`MemberAccess`) unless that byte belongs to a comment or to a string that the end of its line cut off.
`comment_decides` has a text for either way in which a comment makes a difference.
-/
import Respell.Proofs.KeywordEdits

namespace Respell

def Region.isComment : Region → Bool
  | .lineComment | .blockComment => true
  | _ => false

def Region.isQuoted : Region → Bool
  | .singleQuoted | .doubleQuoted => true
  | _ => false

namespace Keyword

open Vocabulary

/-! ## The edit of a callee -/

/-- callees are told from the words of the other rules, and begin like words -/
theorem callees_apart : ∀ entry ∈ callees,
    utf8 entry.1 ≠ elseWord ∧ utf8 entry.1 ≠ asyncWord ∧ utf8 entry.1 ≠ ifWord ∧
      (utf8 entry.1)[0]?.any opensWord = true ∧ ∀ other ∈ keywords, utf8 other.1 ≠ utf8 entry.1 := by
  decide +kernel

/-- a callee is spelled anew just where it is called and no member dot stands before it -/
theorem callee_mem_edits_iff {src : Bytes} {i j : Nat} {host : String} (hw : LiveWord src i j)
    (hs : Spells callees (src.extract i j) host) :
    ⟨.keyword, i, j, host⟩ ∈ edits src ↔ Called src j ∧ afterMemberDot src i = false := by
  obtain ⟨name, hmem, hname⟩ := hs
  obtain ⟨hne1, hne2, hne3, hopen, hkeys⟩ := callees_apart _ hmem
  rw [hname] at hne1 hne2 hne3 hopen
  rw [mem_edits_iff]
  constructor
  · rintro ⟨i', j', last, host', hw', -, -, hsp, heq⟩
    obtain ⟨-, rfl, rfl, rfl⟩ := Edit.mk.inj heq
    obtain rfl := hw.stop_unique hw'.toIsWord
    cases hsp with
    | elseIf h => exact absurd h hne1
    | asyncFunction _ h => exact absurd h hne2
    | async _ h => exact absurd h hne2
    | callee _ _ h => exact ⟨h.2.2, h.2.1⟩
    | keyword _ _ _ h =>
      obtain ⟨other, hother, heq⟩ := h
      exact absurd (heq.trans hname.symm) (hkeys _ hother)
  · intro h
    have hfirst : src[i]?.any opensWord = true := by rwa [hw.getElem?_start rfl]
    refine ⟨i, j, j, host, hw, hfirst, fun hsw => hne3 hsw.1, ?_, rfl⟩
    exact .callee (fun he => hne1 he.1) hne2 ⟨⟨host, name, hmem, hname⟩, h.2, h.1⟩ ⟨name, hmem, hname⟩

/-! ## Looking behind -/

theorem isMemberDot_dot {src : Bytes} {k : Nat} (h : isMemberDot src k = true) : src[k]? = some (ascii '.') := by
  simp only [isMemberDot, Bool.and_eq_true, beq_iff_eq] at h
  exact h.1.1

theorem isMemberDot_not_space {src : Bytes} {k : Nat} (h : isMemberDot src k = true) :
    ¬ src[k]?.any isSpace = true := by
  rw [isMemberDot_dot h]
  decide

/-- before `i` there is a nearest byte that is no whitespace, if there is any -/
theorem exists_nearest {src : Bytes} {m i : Nat} (hlt : m < i) (hm : src[m]?.any isSpace = false) :
    ∃ k, m ≤ k ∧ Gap src (k + 1) i ∧ src[k]?.any isSpace = false := by
  induction i with
  | zero => cases hlt
  | succ i ih =>
    by_cases hspace : src[i]?.any isSpace = true
    · have hne : m ≠ i := by
        rintro rfl
        rw [hm] at hspace
        cases hspace
      obtain ⟨k, hle, hg, hk⟩ := ih (Nat.lt_of_le_of_ne (Nat.le_of_lt_succ hlt) hne)
      exact ⟨k, hle, hg.concat hspace, hk⟩
    · exact ⟨i, Nat.le_of_lt_succ hlt, .refl src (i + 1), by simpa using hspace⟩

/-- the look-behind finds the nearest byte that is no whitespace -/
theorem afterMemberDot_iff {src : Bytes} {i : Nat} :
    afterMemberDot src i = true ↔ ∃ k, Gap src (k + 1) i ∧ isMemberDot src k = true := by
  induction i with
  | zero =>
    constructor
    · intro h
      cases h
    · rintro ⟨k, hg, -⟩
      exact absurd hg.le (Nat.not_succ_le_zero k)
  | succ i ih =>
    unfold afterMemberDot
    split
    · next hspace =>
      rw [ih]
      constructor
      · rintro ⟨k, hg, hdot⟩
        exact ⟨k, hg.concat hspace, hdot⟩
      · rintro ⟨k, hg, hdot⟩
        have hne : k ≠ i := by
          rintro rfl
          exact isMemberDot_not_space hdot hspace
        refine ⟨k, ⟨Nat.lt_of_le_of_ne (Nat.le_of_succ_le_succ hg.le) hne, ?_⟩, hdot⟩
        intro m h1 h2
        exact hg.spaces m h1 (Nat.lt_succ_of_lt h2)
    · next hspace =>
      constructor
      · intro hdot
        exact ⟨i, .refl src (i + 1), hdot⟩
      · rintro ⟨k, hg, hdot⟩
        rcases Nat.lt_or_ge k i with hlt | hge
        · exact absurd (hg.spaces i hlt (Nat.lt_succ_self i)) hspace
        · rwa [Nat.le_antisymm (Nat.le_of_succ_le_succ hg.le) hge] at hdot

/-! ## The bytes right before live code -/

/-- the byte at `k` belongs to a comment, its marks included -/
def InComment (src : Bytes) (k : Nat) : Prop :=
  (cursorAt src k).region.isComment = true ∨ (cursorAt src (k + 1)).region.isComment = true ∨
    ((cursorAt src k).rest = .second ∧ src[k]? = some (ascii '/'))

/-- a quoted string is open after the byte at `k`; before live code only the end of a line closes it -/
def InQuotes (src : Bytes) (k : Nat) : Prop := (cursorAt src (k + 1)).region.isQuoted = true

/-- the nearest byte before `i` that is neither whitespace nor part of a comment is a live dot with no dot beside it -/
def MemberAccess (src : Bytes) (i : Nat) : Prop :=
  ∃ k < i, (∀ m < i, k < m → src[m]?.any isSpace = true ∨ InComment src m) ∧ ¬ InComment src k ∧ Live src k ∧
    isMemberDot src k = true

theorem isSpace_special : ∀ b, isSpace b = true → b ≠ ascii '\\' ∧ b ≠ 0x60 ∧ b ≠ ascii '$' := by decide +kernel

theorem template_of_gap {src : Bytes} {i j : Nat} (hg : Gap src i j) (h : (cursorAt src i).region = .template) :
    (cursorAt src j).region = .template := by
  obtain ⟨hle, hspaces⟩ := hg
  induction j, hle using Nat.le_induction with
  | base => exact h
  | succ j hij ih =>
    have ih := ih fun k h1 h2 => hspaces k h1 (Nat.lt_succ_of_lt h2)
    obtain ⟨b, hb, hspace⟩ := (Option.any_eq_true _ _).1 (hspaces j hij (Nat.lt_succ_self j))
    obtain ⟨h1, h2, h3⟩ := isSpace_special b hspace
    rw [cursorAt_succ hb]
    cases hr : (cursorAt src j).rest with
    | second => simpa only [Cursor.feed, hr] using ih
    | character =>
      simp only [Cursor.feed, hr]
      split <;> exact ih
    | nothing => simp [Cursor.feed, hr, ih, Cursor.inTemplate, h1, h2, h3]

theorem region_of_dot {src : Bytes} {k : Nat} (h : src[k]? = some (ascii '.')) :
    (cursorAt src (k + 1)).region = (cursorAt src k).region := by
  rw [cursorAt_succ h]
  cases hr : (cursorAt src k).rest with
  | second => simp only [Cursor.feed, hr]
  | character =>
    simp only [Cursor.feed, hr]
    split <;> rfl
  | nothing => rw [Cursor.feed_inert hr (by decide)]

/-- of the dots right before live code, those outside comments and quoted strings are live -/
theorem live_of_dot {src : Bytes} {k i : Nat} (hdot : src[k]? = some (ascii '.')) (hg : Gap src (k + 1) i)
    (hi : Live src i) (hc : ¬ InComment src k) (hq : ¬ InQuotes src k) : Live src k := by
  have hregion := region_of_dot hdot
  have hcode : (cursorAt src k).region.isCode = true := by
    cases hr : (cursorAt src k).region with
    | normal | hole => rfl
    | lineComment | blockComment => exact absurd (.inl (by rw [hr]; rfl)) hc
    | singleQuoted | doubleQuoted => exact absurd (by rw [InQuotes, hregion, hr]; rfl) hq
    | template =>
      -- the template would still be open at the live byte
      have htext := template_of_gap hg (hregion.trans hr)
      obtain ⟨r, hlive⟩ := Option.ne_none_iff_exists'.1 (live_iff.1 hi)
      have := (liveAt_some hlive).2.1
      rw [htext] at this
      cases this
  cases hr : (cursorAt src k).rest with
  | second =>
    have := cursorAt_of_second hr
    rw [hdot] at this
    exact absurd this (by decide)
  | character =>
    rw [(cursorAt_of_character hr).1] at hcode
    cases hcode
  | nothing =>
    rw [live_iff, liveAt_of_feed hdot, Cursor.feed_inert hr (by decide), hcode]
    simp

/-- going by live code is going by the nearest byte that is no whitespace, if that byte is in no comment and no quoted
string -/
theorem memberAccess_iff {src : Bytes} {i : Nat} (hi : Live src i)
    (h : ∀ k, Gap src (k + 1) i → src[k]?.any isSpace = false → ¬ InComment src k ∧ ¬ InQuotes src k) :
    MemberAccess src i ↔ afterMemberDot src i = true := by
  rw [afterMemberDot_iff]
  constructor
  · intro haccess
    obtain ⟨k, hki, hbetween, -, -, hdot⟩ := haccess
    refine ⟨k, ⟨hki, ?_⟩, hdot⟩
    intro m h1 h2
    by_contra hspace
    -- then a nearest byte that is no whitespace lies behind `k`, and so in a comment
    obtain ⟨last, hle, hg, hlast⟩ := exists_nearest h2 (by simpa using hspace)
    rcases hbetween last hg.le (Nat.lt_of_lt_of_le h1 hle) with hl | hl
    · rw [hlast] at hl
      cases hl
    · exact (h last hg hlast).1 hl
  · intro hmember
    obtain ⟨k, hg, hdot⟩ := hmember
    have hspace : src[k]?.any isSpace = false := by simpa using isMemberDot_not_space hdot
    obtain ⟨hc, hq⟩ := h k hg hspace
    refine ⟨k, hg.le, ?_, hc, live_of_dot (isMemberDot_dot hdot) hg hi hc hq, hdot⟩
    intro m h1 h2
    exact .inl (hg.spaces m h2 h1)

end Keyword

open Keyword Vocabulary

/-- **Callees.** A live callee is spelled anew just when `(` follows it across whitespace and the nearest byte before
it that is no whitespace is no dot standing alone. Unless that byte belongs to a comment, or to a quoted string that
the end of its line cut off, this is to say: when it is called, and is no member access in live code. -/
theorem callee_edit_iff {src : Bytes} {i j : Nat} {host : String} (hw : LiveWord src i j)
    (hs : Spells callees (src.extract i j) host) :
    (⟨.keyword, i, j, host⟩ ∈ Keyword.edits src ↔
      Called src j ∧ ¬ ∃ k, Gap src (k + 1) i ∧ isMemberDot src k = true) ∧
    ((∀ k, Gap src (k + 1) i → src[k]?.any isSpace = false → ¬ InComment src k ∧ ¬ InQuotes src k) →
      (⟨.keyword, i, j, host⟩ ∈ Keyword.edits src ↔ Called src j ∧ ¬ MemberAccess src i)) := by
  have hedit := callee_mem_edits_iff hw hs
  rw [← Bool.not_eq_true] at hedit
  constructor
  · rw [hedit, afterMemberDot_iff]
  · intro h
    rw [hedit, memberAccess_iff hw.live h]

/-- a callee behind a spread is no member -/
theorem callee_edit_iff_spread :
    ⟨.keyword, 6, 10, "Object.keys"⟩ ∈ Keyword.edits (utf8 "f(... keys(o))") := by
  have hw : LiveWord (utf8 "f(... keys(o))") 6 10 := ⟨by decide +kernel, live_iff.2 (by decide +kernel)⟩
  have hs : Spells callees ((utf8 "f(... keys(o))").extract 6 10) "Object.keys" :=
    ⟨"keys", by decide, by decide +kernel⟩
  have hcalled : Called (utf8 "f(... keys(o))") 10 := ⟨10, .refl _ 10, by decide +kernel⟩
  have hcode : ∀ k < 6, ¬ InComment (utf8 "f(... keys(o))") k ∧ ¬ InQuotes (utf8 "f(... keys(o))") k := by
    unfold InComment InQuotes
    decide +kernel
  have hnone : ¬ MemberAccess (utf8 "f(... keys(o))") 6 := by
    simp only [MemberAccess, InComment, live_iff]
    decide +kernel
  exact ((callee_edit_iff hw hs).2 fun k hg _ => hcode k hg.le).2 ⟨hcalled, hnone⟩

/-- a dot at the end of a comment keeps a call from being spelled anew, and a comment behind the dot of an access has
the member spelled anew -/
theorem comment_decides :
    (LiveWord (utf8 "// a.\ndikha(b)") 6 11 ∧ Called (utf8 "// a.\ndikha(b)") 11 ∧
      ¬ MemberAccess (utf8 "// a.\ndikha(b)") 6 ∧
      ⟨.keyword, 6, 11, "console.log"⟩ ∉ Keyword.edits (utf8 "// a.\ndikha(b)")) ∧
    (LiveWord (utf8 "a. /* c */ dikha(b)") 11 16 ∧ MemberAccess (utf8 "a. /* c */ dikha(b)") 11 ∧
      ⟨.keyword, 11, 16, "console.log"⟩ ∈ Keyword.edits (utf8 "a. /* c */ dikha(b)")) := by
  have hw : LiveWord (utf8 "// a.\ndikha(b)") 6 11 := ⟨by decide +kernel, live_iff.2 (by decide +kernel)⟩
  have hs : Spells callees ((utf8 "// a.\ndikha(b)").extract 6 11) "console.log" :=
    ⟨"dikha", by decide, by decide +kernel⟩
  have hw' : LiveWord (utf8 "a. /* c */ dikha(b)") 11 16 := ⟨by decide +kernel, live_iff.2 (by decide +kernel)⟩
  have hs' : Spells callees ((utf8 "a. /* c */ dikha(b)").extract 11 16) "console.log" :=
    ⟨"dikha", by decide, by decide +kernel⟩
  refine ⟨⟨hw, ⟨11, .refl _ 11, by decide +kernel⟩, ?_, ?_⟩, hw', ?_, ?_⟩
  · simp only [MemberAccess, InComment, live_iff]
    decide +kernel
  · rw [callee_mem_edits_iff hw hs]
    intro h
    exact absurd h.2 (by decide +kernel)
  · simp only [MemberAccess, InComment, live_iff]
    decide +kernel
  · rw [callee_mem_edits_iff hw' hs']
    exact ⟨⟨16, .refl _ 16, by decide +kernel⟩, by decide +kernel⟩

end Respell
