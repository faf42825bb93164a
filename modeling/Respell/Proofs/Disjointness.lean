/-
No two edits overlap. Within one rule the edits come in order (`import_order`, `attribute_order`, `member_order`, and
`Keyword.edits_apart`). Between rules, every byte that an edit covers, and the byte before an insertion, belongs to one
rule only (`Owned`): a byte of a word to the rule of the word, a space to the rule of the word after it, an equals sign
to the attribute rule and a quote to the import rule.

Main result, `edits_disjoint`: over every text, the edits of all rules are apart and have different ranges; so carrying
them out never fails, and the order in which the rules are run makes no difference.
-/
import Respell.Proofs.EditOrder
import Respell.Proofs.EditShapes

namespace Respell

open Vocabulary

/-! ## Order -/

theorem import_order (src : Bytes) : (ImportLine.edits src).Pairwise Edit.Before := by
  refine sweep_pairwise ?_ ?_ _
  · intro r i b hb
    cases hnil : (ImportLine.rule src r i b).edits with
    | nil => exact .nil
    | cons e rest =>
      obtain ⟨hw, hx, -, -, heq⟩ := mem_import_rule hb (e := e) (by rw [hnil]; exact List.mem_cons_self)
      rw [← hnil, heq]
      exact (lineEdits_line hw hx).order
  · intro r i b r' i' b' hb hb' hlt _ e he e' he'
    obtain ⟨hw, hx, -, -, heq⟩ := mem_import_rule hb he
    obtain ⟨hw', hx', hopen, -, heq'⟩ := mem_import_rule hb' he'
    have hline := lineEdits_line hw hx
    have hstop := (hline.range e (heq ▸ he)).2
    have hstart := ((lineEdits_line hw' hx').range e' (heq' ▸ he')).1
    have hwithin := (hline.shape e (heq ▸ he)).1.le
    have hsize := hw'.le_size
    have hend := lineEnd_lt hw hopen (by omega) hlt
    exact ⟨by omega, by omega⟩

theorem attribute_order (src : Bytes) : (Attribute.edits src).Pairwise Edit.Before := by
  refine sweep_pairwise ?_ ?_ _
  · intro r i b hb
    simp only [Attribute.rule]
    split
    · refine List.pairwise_map.2 ((tagMarks_tag src none (i + 1)).apart.imp ?_)
      intro x y hxy
      exact ⟨by simp only; omega, hxy⟩
    · exact .nil
  · intro r i b r' i' b' hb hb' hlt hread e he e' he'
    obtain ⟨x, hx, rfl, hto⟩ := mem_attribute_rule he
    obtain ⟨x', hx', rfl, -⟩ := mem_attribute_rule he'
    obtain ⟨-, hm, hle⟩ := (tagMarks_tag src none (i + 1)).mark x hx
    have hle' := ((tagMarks_tag src none (i' + 1)).mark x' hx').1
    have hsize : x + 6 ≤ src.size := by
      obtain ⟨hlt, -⟩ := Array.getElem?_eq_some_iff.1 (isWord_of_classMark hm).2.2
      omega
    rw [hto] at hread
    exact ⟨by simp only; omega, by simp only; omega⟩

theorem member_order (src : Bytes) : (Member.edits src).Pairwise Edit.Before := by
  refine sweep_pairwise ?_ ?_ _
  · intro r i b hb
    simp only [Member.rule]
    split
    · exact .nil
    · split
      · split <;> simp
      · exact .nil
  · intro r i b r' i' b' hb hb' hlt hread e he e' he'
    obtain ⟨host, hd, ho, -, rfl, hto⟩ := mem_member_rule he
    obtain ⟨host', -, -, -, rfl, -⟩ := mem_member_rule he'
    have hw := (isWord_after_dot hd ho).1
    have hsize := hw.le_size
    have hpos := hw.lt
    rw [hto] at hread
    exact ⟨by simp only; omega, by simp only; omega⟩

/-! ## What belongs to a rule -/

/-- the word that byte `k` lies in, or that follows it across whitespace -/
structure NearWord (src : Bytes) (k i j : Nat) : Prop where
  word : IsWord src i j
  lt : k < j
  gap : ∀ m, k ≤ m → m < i → src[m]?.any isSpace = true

/-- a nearest word begins no later than any other, or than `k` -/
theorem NearWord.start_le {src : Bytes} {k i j i' j' : Nat} (h : NearWord src k i j) (h' : NearWord src k i' j') :
    max k i' ≤ max k i := by
  by_contra hlt
  have hin := h.word.inside (max k i) (by omega) (by have := h.lt; have := h.word.lt; omega)
  have hspace := any_eq_false_of_any inWord_of_isSpace (h'.gap (max k i) (by omega) (by omega))
  rw [hin] at hspace
  cases hspace

theorem NearWord.unique {src : Bytes} {k i j i' j' : Nat} (h : NearWord src k i j) (h' : NearWord src k i' j') :
    i = i' ∧ j = j' := by
  have heq : max k i = max k i' := Nat.le_antisymm (h'.start_le h) (h.start_le h')
  have h1 := h.lt
  have h2 := h.word.lt
  have h3 := h'.lt
  have h4 := h'.word.lt
  exact h.word.unique h'.word (k := max k i) (by omega) (by omega) (by omega) (by omega)

/-- quotes belong to the import rule, equals signs to the attribute rule -/
def isOwnedMark (b : UInt8) : Bool := ImportLine.isQuote b || b == ascii '='

/-- the rule to which byte `k` belongs -/
inductive Owned (src : Bytes) (k : Nat) : Rule → Prop
  | near {i j : Nat} (h : NearWord src k i j) : Owned src k (ruleOf src i (src.extract i j))
  | mark {b : UInt8} (hb : src[k]? = some b) (hm : isOwnedMark b = true) :
    Owned src k (if b = ascii '=' then .attribute else .importLine)

theorem isOwnedMark_exclusive : ∀ b, isOwnedMark b = true → inWord b = false ∧ isSpace b = false := by decide +kernel

theorem NearWord.not_mark {src : Bytes} {k i j : Nat} (h : NearWord src k i j) {b : UInt8} (hb : src[k]? = some b) :
    isOwnedMark b = false := by
  by_contra hm
  obtain ⟨h1, h2⟩ := isOwnedMark_exclusive b (by simpa using hm)
  by_cases hk : i ≤ k
  · have := h.word.inside k hk h.lt
    simp [hb, h1] at this
  · have := h.gap k (Nat.le_refl k) (by omega)
    simp [hb, h2] at this

theorem Owned.unique {src : Bytes} {k : Nat} {r r' : Rule} (h : Owned src k r) (h' : Owned src k r') : r = r' := by
  cases h with
  | near hn =>
    cases h' with
    | near hn' =>
      obtain ⟨rfl, rfl⟩ := hn.unique hn'
      rfl
    | mark hb hm =>
      rw [hn.not_mark hb] at hm
      cases hm
  | mark hb hm =>
    cases h' with
    | near hn' =>
      rw [hn'.not_mark hb] at hm
      cases hm
    | mark hb' hm' =>
      obtain rfl := Option.some.inj (hb.symm.trans hb')
      rfl

/-- the bytes an edit covers, and for an insertion the byte before it -/
def Edit.Touches (e : Edit) (k : Nat) : Prop := (e.start ≤ k ∧ k < e.stop) ∨ (e.start = e.stop ∧ k + 1 = e.start)

theorem Edit.Touches.covered {e : Edit} {k : Nat} (h : e.Touches k) (hlt : e.start < e.stop) :
    e.start ≤ k ∧ k < e.stop := by
  rcases h with h | h
  · exact h
  · omega

theorem Edit.Touches.before {e : Edit} {k : Nat} (h : e.Touches k) (heq : e.start = e.stop) : k + 1 = e.start := by
  rcases h with h | h
  · omega
  · exact h.2

theorem owned_of_isWord {src : Bytes} {i j k : Nat} {r : Rule} (hw : IsWord src i j)
    (hr : ruleOf src i (src.extract i j) = r) (hk : k < j)
    (hg : ∀ m, k ≤ m → m < i → src[m]?.any isSpace = true) : Owned src k r :=
  hr ▸ .near ⟨hw, hk, hg⟩

theorem isSpace_of_isBlank {o : Option UInt8} (h : o.any isBlank = true) : o.any isSpace = true :=
  any_of_any (by decide +kernel) h

theorem Dropped.owned {src : Bytes} {n m k : Nat} (h : Dropped src n m) (h1 : n ≤ k) (h2 : k < m + 2) :
    Owned src k .importLine :=
  owned_of_isWord h.word (by simp [ruleOf, h.text]) h2 fun x hx1 hx2 =>
    isSpace_of_isBlank (h.blank x (by omega) hx2)

/-- whatever an edit touches belongs to its rule -/
theorem owned_of_shape {src : Bytes} {e : Edit} (h : Shape src e) {k : Nat} (hk : e.Touches k) :
    Owned src k e.rule := by
  cases h with
  | word hw hr =>
    obtain ⟨h1, h2⟩ := hk.covered hw.lt
    exact owned_of_isWord hw hr h2 fun m hm1 hm2 => absurd (Nat.le_trans h1 hm1) (Nat.not_le.2 hm2)
  | @joined i j n last hw helse hg hn hif =>
    obtain ⟨h1, h2⟩ := hk.covered (Nat.lt_of_lt_of_le hw.lt (Nat.le_trans hg.le (Nat.le_of_lt hn.lt)))
    simp only at h1 h2
    -- the gap between the two words belongs to the one behind it
    by_cases hkj : k < j
    · refine owned_of_isWord hw.toIsWord ?_ hkj fun m hm1 hm2 => by omega
      rw [helse]
      exact ruleOf_eq_keyword (by decide) (by decide) (by decide) (.inr (by decide))
    · refine owned_of_isWord hn ?_ h2 fun m hm1 hm2 => hg.spaces m (by omega) hm2
      rw [hif]
      exact ruleOf_eq_keyword (by decide) (by decide) (by decide) (.inr (by decide))
  | @classMark i hw hs he =>
    obtain ⟨h1, h2⟩ := hk.covered (by simp only; omega)
    simp only at h1 h2
    by_cases hk5 : k < i + 5
    · refine owned_of_isWord hw ?_ hk5 fun m hm1 hm2 => by omega
      rw [hs]
      simp +decide [ruleOf]
    · obtain rfl : k = i + 5 := by omega
      exact Owned.mark he (by decide)
  | @drop n m h =>
    obtain ⟨h1, h2⟩ := hk.covered (Nat.lt_of_lt_of_le h.lt (Nat.le_add_right m 2))
    exact h.owned h1 h2
  | @closeDropped n m h =>
    have hlt := h.lt
    have hkm : k + 1 = m + 2 := hk.before rfl
    exact h.owned (by omega) (by omega)
  | @close p hp hq he =>
    have hkp : k + 1 = p := hk.before rfl
    obtain rfl : k = p - 1 := by omega
    obtain ⟨b, hb, hbq⟩ := (Option.any_eq_true _ _).1 hq
    have hne : b ≠ ascii '=' := by
      rintro rfl
      exact absurd hbq (by decide)
    have := Owned.mark hb (by simp [isOwnedMark, hbq])
    rwa [if_neg hne] at this

/-! ## Edits apart -/

namespace Edit

/-- the edits do not overlap, and their ranges differ -/
def Apart (a b : Edit) : Prop := ¬ a.Overlaps b ∧ (a.start, a.stop) ≠ (b.start, b.stop)

theorem Apart.symm {a b : Edit} (h : a.Apart b) : b.Apart a := ⟨fun ho => h.1 ⟨ho.2, ho.1⟩, h.2.symm⟩

instance : Std.Symm Apart := ⟨fun _ _ h => h.symm⟩

theorem Before.apart {a b : Edit} (h : a.Before b) : a.Apart b := by
  obtain ⟨h1, h2⟩ := h
  constructor
  · intro ho
    exact absurd ho.2 (by omega)
  · intro he
    have := (Prod.ext_iff.1 he).1
    simp only at this
    omega

end Edit

theorem Shape.start_pos {src : Bytes} {e : Edit} (h : Shape src e) (he : e.start = e.stop) : 0 < e.start := by
  cases h with
  | word hw => have := hw.lt; simp only at he; omega
  | joined hw _ hg hn => have := hw.lt; have := hg.le; have := hn.lt; simp only at he; omega
  | classMark => simp only at he; omega
  | drop h => have := h.lt; simp only at he; omega
  | closeDropped h => have := h.lt; simp only; omega
  | close hp => exact hp

/-- two edits that are not apart touch a common byte -/
theorem exists_touches {src : Bytes} {a b : Edit} (ha : Shape src a) (hb : Shape src b) (h : ¬ a.Apart b) :
    ∃ k, a.Touches k ∧ b.Touches k := by
  have ha1 := ha.le
  have ha2 := ha.start_pos
  have hb1 := hb.le
  have hb2 := hb.start_pos
  have hor : a.Overlaps b ∨ (a.start = b.start ∧ a.stop = b.stop) := by
    by_contra hne
    exact h ⟨fun ho => hne (.inl ho), fun he => hne (.inr (Prod.ext_iff.1 he))⟩
  simp only [Edit.Overlaps] at hor
  -- an insertion touches the byte before it only, a replacement its first byte
  by_cases hai : a.start = a.stop
  · exact ⟨a.start - 1, .inr ⟨hai, by omega⟩, by unfold Edit.Touches; omega⟩
  · by_cases hbi : b.start = b.stop
    · exact ⟨b.start - 1, by unfold Edit.Touches; omega, .inr ⟨hbi, by omega⟩⟩
    · exact ⟨max a.start b.start, .inl (by omega), .inl (by omega)⟩

theorem apart_of_rule_ne {src : Bytes} {a b : Edit} (ha : Shape src a) (hb : Shape src b) (hne : a.rule ≠ b.rule) :
    a.Apart b := by
  by_contra h
  obtain ⟨k, hk, hk'⟩ := exists_touches ha hb h
  exact hne ((owned_of_shape ha hk).unique (owned_of_shape hb hk'))

def Rule.edits (src : Bytes) : Rule → List Edit
  | .importLine => ImportLine.edits src
  | .keyword => Keyword.edits src
  | .attribute => Attribute.edits src
  | .member => Member.edits src

theorem Rule.shape_of_mem_edits {src : Bytes} {rule : Rule} {e : Edit} (h : e ∈ rule.edits src) :
    Shape src e ∧ e.rule = rule := by
  cases rule with
  | importLine => exact shape_of_import h
  | keyword => exact shape_of_keyword h
  | «attribute» => exact shape_of_attribute h
  | member => exact shape_of_member h

theorem Rule.edits_order (src : Bytes) (rule : Rule) : (rule.edits src).Pairwise Edit.Before := by
  cases rule with
  | importLine => exact import_order src
  | keyword => exact Keyword.edits_apart src
  | «attribute» => exact attribute_order src
  | member => exact member_order src

/-- the edits of different rules, run one after the other, are apart -/
theorem pairwise_apart (src : Bytes) {order : List Rule} (h : order.Nodup) :
    (order.flatMap (Rule.edits src)).Pairwise Edit.Apart := by
  refine List.pairwise_flatMap.2 ⟨fun rule _ => (rule.edits_order src).imp Edit.Before.apart, ?_⟩
  refine List.Pairwise.imp (fun {rule rule'} hne e he e' he' => ?_) h
  obtain ⟨hs, rfl⟩ := Rule.shape_of_mem_edits he
  obtain ⟨hs', rfl⟩ := Rule.shape_of_mem_edits he'
  exact apart_of_rule_ne hs hs' hne

theorem allEdits_eq (src : Bytes) :
    allEdits src = [Rule.importLine, .keyword, .attribute, .member].flatMap (Rule.edits src) := by
  simp [allEdits, Rule.edits]

theorem allEdits_apart (src : Bytes) : (allEdits src).Pairwise Edit.Apart :=
  allEdits_eq src ▸ pairwise_apart src (by decide)

/-! ## Carrying edits out -/

namespace Edit

/-- edits that are apart, once in order, end where the next one begins or before -/
theorem inOrder_stop_le {edits : List Edit} (h : edits.Pairwise Apart) (hle : ∀ e ∈ edits, e.start ≤ e.stop) :
    (inOrder edits).Pairwise fun a b => a.stop ≤ b.start :=
  (inOrder_stop_le_iff hle).2 (h.imp fun hab => hab.1)

theorem inOrder_eq_of_perm {edits edits' : List Edit} (h : edits.Pairwise Apart) (hp : edits'.Perm edits) :
    inOrder edits' = inOrder edits := by
  refine List.Perm.eq_of_pairwise ?_ (inOrder_sorted edits') (inOrder_sorted edits)
    ((inOrder_perm edits').trans (hp.trans (inOrder_perm edits).symm))
  intro a b ha hb hab hba
  have ha := hp.mem_iff.1 ((inOrder_perm edits').mem_iff.1 ha)
  have hb := (inOrder_perm edits).mem_iff.1 hb
  by_contra hne
  refine (h.forall ha hb hne).2 ?_
  rw [precedes_iff] at hab hba
  exact Prod.ext (by simp only; omega) (by simp only; omega)

end Edit

/-- edits that were recorded in order are carried out as they are -/
theorem applyEdits_of_before (src : Bytes) {edits : List Edit} (h : edits.Pairwise Edit.Before) :
    applyEdits src edits = .ok (render src edits) := by
  have hsorted : Edit.inOrder edits = edits := by
    refine List.mergeSort_of_pairwise (h.imp fun hab => ?_)
    exact Edit.precedes_iff.2 (.inl hab.1)
  have hclash := Edit.clash?_eq_none (h.imp fun hab => hab.2)
  simp only [applyEdits, hsorted, hclash]

def orderedEdits (src : Bytes) : List Edit := Edit.inOrder (allEdits src)

theorem orderedEdits_stop_le (src : Bytes) : (orderedEdits src).Pairwise fun a b => a.stop ≤ b.start :=
  Edit.inOrder_stop_le (allEdits_apart src) fun _ he => (shape_of_mem he).le

theorem applyEdits_allEdits (src : Bytes) : applyEdits src (allEdits src) = .ok (render src (orderedEdits src)) := by
  have h := Edit.clash?_eq_none (orderedEdits_stop_le src)
  simp only [applyEdits]
  rw [← orderedEdits, h]

/-- **Edits never clash.** Over every text, well formed or not, the edits of the four rules do not overlap and have
different ranges. So a text is always respelled, and the rules may be run in any order: the output and its segments are
the same. -/
theorem edits_disjoint (source : String) :
    ((allEdits (utf8 source)).Pairwise fun a b =>
      ¬ a.Overlaps b ∧ (a.start, a.stop) ≠ (b.start, b.stop)) ∧
    (∀ options, ∃ out, respell source options = .ok out) ∧
    ∀ order : List Rule, order.Perm [.importLine, .keyword, .attribute, .member] →
      applyEdits (utf8 source) (order.flatMap (Rule.edits (utf8 source))) =
        applyEdits (utf8 source) (allEdits (utf8 source)) := by
  refine ⟨allEdits_apart _, ?_, ?_⟩
  · intro options
    simp only [respell, applyEdits_allEdits]
    exact ⟨_, rfl⟩
  · intro order horder
    have hperm : (order.flatMap (Rule.edits (utf8 source))).Perm (allEdits (utf8 source)) :=
      allEdits_eq _ ▸ horder.flatMap_right _
    simp only [applyEdits, Edit.inOrder_eq_of_perm (allEdits_apart _) hperm]

theorem edits_disjoint_backwards :
    [Rule.member, .attribute, .keyword, .importLine].Perm [.importLine, .keyword, .attribute, .member] ∧
    applyEdits (utf8 "le 'm' se\nwarna agar (a.query(b)) <b class='c'>")
        ([Rule.member, .attribute, .keyword, .importLine].flatMap
          (Rule.edits (utf8 "le 'm' se\nwarna agar (a.query(b)) <b class='c'>"))) =
      applyEdits (utf8 "le 'm' se\nwarna agar (a.query(b)) <b class='c'>")
        (allEdits (utf8 "le 'm' se\nwarna agar (a.query(b)) <b class='c'>")) :=
  ⟨by decide, (edits_disjoint _).2.2 _ (by decide)⟩

end Respell
