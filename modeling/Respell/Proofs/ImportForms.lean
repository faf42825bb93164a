/-
The forms of an import line, part by part. `SideEffect line` and `Bindings line` are the ways to cut what follows the
word `le` into its parts. They are compared with the matcher here, once: it finds the parts of a side effect if there
are some, and else those of the bindings whose `se` comes first (`body?_matched`).

Whatever else is known of the forms follows from the parts: which bytes stand at the offsets that a form names
(`parts_of_body?`), the grammar by positions (`ImportGrammar`), and what a line becomes (`ImportLines`).
-/
import Mathlib.Data.List.TakeWhile
import Respell.Rules.ImportLine
import Respell.Proofs.Words

namespace Respell.ImportLine

open Vocabulary

/-! ## Parts of a line -/

/-- spaces and tabs, one or more -/
structure Gap (text : List UInt8) : Prop where
  ne_nil : text ≠ []
  blank : ∀ b ∈ text, isBlank b = true

/-- a quote, one or more bytes that are no quotes, and the same quote -/
def Quoted (text : List UInt8) : Prop :=
  ∃ q name, isQuote q = true ∧ name ≠ [] ∧ (∀ b ∈ name, isQuote b = false) ∧ text = q :: (name ++ [q])

/-- blanks, if any, and then the end of the line, a semicolon with anything behind it, or a comment; closed by the
semicolon -/
inductive Tail : Bool → List UInt8 → Prop
  | done {blanks : List UInt8} (h : ∀ b ∈ blanks, isBlank b = true) : Tail false blanks
  | semicolon {blanks rest : List UInt8} (h : ∀ b ∈ blanks, isBlank b = true) : Tail true (blanks ++ ascii ';' :: rest)
  | comment {blanks rest : List UInt8} {mark : UInt8} (h : ∀ b ∈ blanks, isBlank b = true)
    (hmark : mark = ascii '/' ∨ mark = ascii '*') : Tail false (blanks ++ ascii '/' :: mark :: rest)

/-- what follows `le` on the line of a side effect, cut into its parts -/
structure SideEffect (line : List UInt8) where
  gap : List UInt8
  name : List UInt8
  space : List UInt8
  tail : List UInt8
  closed : Bool
  isGap : Gap gap
  isQuoted : Quoted name
  isSpace : Gap space
  isTail : Tail closed tail
  line_eq : line = gap ++ (name ++ (space ++ (fromWord.toList ++ tail)))

/-- what follows `le` on a line with bindings, cut into its parts -/
structure Bindings (line : List UInt8) where
  gap : List UInt8
  bound : List UInt8
  before : List UInt8
  after : List UInt8
  name : List UInt8
  tail : List UInt8
  closed : Bool
  isGap : Gap gap
  isBound : bound.head?.any (fun b => !isBlank b) = true
  isBefore : Gap before
  isAfter : Gap after
  isQuoted : Quoted name
  isTail : Tail closed tail
  line_eq : line = gap ++ (bound ++ (before ++ (fromWord.toList ++ (after ++ (name ++ tail)))))

/-- how the matcher writes down the parts of a side effect -/
def SideEffect.form {line : List UInt8} (p : SideEffect line) : Form :=
  .sideEffect p.name.length (p.name.length + p.space.length + 2) p.closed

namespace Bindings

variable {line : List UInt8}

/-- where `se` stands on the line -/
def mark (p : Bindings line) : Nat := p.gap.length + p.bound.length + p.before.length

def form (p : Bindings line) : Form :=
  .bindings (p.bound.length + p.before.length)
    (p.bound.length + p.before.length + 2 + p.after.length + p.name.length) p.closed

end Bindings

/-! ## Reading the parts -/

theorem isQuote_iff {b : UInt8} : isQuote b = true ↔ b = ascii '\'' ∨ b = ascii '"' := by
  simp [isQuote, or_comm]

theorem blanks_append {gap rest : List UInt8} (hgap : ∀ b ∈ gap, isBlank b = true)
    (hrest : rest.head?.any isBlank = false) : blanks (gap ++ rest) = gap.length := by
  rw [blanks, List.takeWhile_append_of_pos hgap]
  cases rest with
  | nil => simp
  | cons b rest => rw [List.takeWhile_cons_of_neg (by simpa using hrest), List.append_nil]

/-- a line, cut where its blanks end -/
theorem exists_blanks (line : List UInt8) : ∃ gap rest, line = gap ++ rest ∧ (∀ b ∈ gap, isBlank b = true) ∧
    rest.head?.any isBlank = false ∧ blanks line = gap.length ∧ line.drop (blanks line) = rest := by
  have hgap : ∀ b ∈ line.takeWhile isBlank, isBlank b = true := fun b hb => List.mem_takeWhile_imp hb
  have hline : line.takeWhile isBlank ++ line.dropWhile isBlank = line := List.takeWhile_append_dropWhile
  refine ⟨line.takeWhile isBlank, line.dropWhile isBlank, hline.symm, hgap, ?_, rfl, ?_⟩
  · have hhead := List.head?_dropWhile_not isBlank line
    cases hd : (line.dropWhile isBlank).head? with
    | none => rfl
    | some b =>
      rw [hd] at hhead
      simpa using hhead
  · exact (congrArg (List.drop (line.takeWhile isBlank).length) hline.symm).trans List.drop_left

theorem Quoted.not_blank {name : List UInt8} (h : Quoted name) (rest : List UInt8) :
    (name ++ rest).head?.any isBlank = false := by
  obtain ⟨q, name, hq, -, -, rfl⟩ := h
  rcases isQuote_iff.1 hq with rfl | rfl <;> rfl

theorem fromWord_not_blank (rest : List UInt8) : (fromWord.toList ++ rest).head?.any isBlank = false := rfl

theorem moduleName?_append {name : List UInt8} (h : Quoted name) (rest : List UInt8) :
    moduleName? (name ++ rest) = some name.length := by
  obtain ⟨q, name, hq, hne, hname, rfl⟩ := h
  have htake : (name ++ q :: rest).takeWhile (fun b => !isQuote b) = name := by
    rw [List.takeWhile_append_of_pos (by simpa using hname), List.takeWhile_cons_of_neg (by simp [hq]), List.append_nil]
  have hline : q :: (name ++ [q]) ++ rest = q :: (name ++ q :: rest) := by simp
  rw [hline]
  simp only [moduleName?, htake]
  rw [if_pos ⟨hq, hne, by simp⟩]
  simp

theorem exists_quoted {line : List UInt8} {n : Nat} (h : moduleName? line = some n) :
    ∃ name rest, line = name ++ rest ∧ Quoted name ∧ n = name.length := by
  cases line with
  | nil => cases h
  | cons q rest =>
    simp only [moduleName?] at h
    split_ifs at h with hc
    obtain ⟨hq, hne, hclose⟩ := hc
    have hsplit := List.takeWhile_append_dropWhile (p := fun b => !isQuote b) (l := rest)
    have hinside : ∀ b ∈ rest.takeWhile (fun b => !isQuote b), isQuote b = false := fun b hb => by
      simpa using List.mem_takeWhile_imp hb
    generalize rest.takeWhile (fun b => !isQuote b) = name at *
    generalize rest.dropWhile (fun b => !isQuote b) = behind at hsplit
    subst hsplit
    rw [List.getElem?_append_right (Nat.le_refl _), Nat.sub_self] at hclose
    cases behind with
    | nil => cases hclose
    | cons b behind =>
      obtain rfl : b = q := Option.some.inj hclose
      refine ⟨b :: (name ++ [b]), behind, by simp, ⟨b, name, hq, hne, hinside, rfl⟩, ?_⟩
      rw [← Option.some.inj h]
      simp

theorem tail?_eq_some_iff {line : List UInt8} {closed : Bool} : tail? line = some closed ↔ Tail closed line := by
  constructor
  · intro h
    obtain ⟨gap, rest, hline, hgap, -, -, hdrop⟩ := exists_blanks line
    rw [tail?, hdrop] at h
    rw [hline]
    cases rest with
    | nil =>
      obtain rfl := Option.some.inj h
      rw [List.append_nil]
      exact .done hgap
    | cons b rest =>
      simp only at h
      split_ifs at h with hsemi hcomment
      · obtain rfl := Option.some.inj h
        rw [hsemi]
        exact .semicolon hgap
      · obtain rfl := Option.some.inj h
        obtain ⟨rfl, hmark⟩ := hcomment
        cases rest with
        | nil => rcases hmark with hmark | hmark <;> cases hmark
        | cons mark rest => exact .comment hgap (hmark.imp Option.some.inj Option.some.inj)
  · intro h
    cases h with
    | @done gap hgap =>
      have hblanks := @blanks_append line [] hgap rfl
      rw [List.append_nil] at hblanks
      rw [tail?, hblanks, List.drop_length]
    | semicolon hgap =>
      rw [tail?, blanks_append hgap rfl, List.drop_left]
      rfl
    | comment hgap hmark =>
      rw [tail?, blanks_append hgap rfl, List.drop_left]
      rcases hmark with rfl | rfl <;> rfl

theorem Tail.head? {closed : Bool} {line : List UInt8} (h : Tail closed line) :
    line.head?.all (fun b => isBlank b || b == ascii ';' || b == ascii '/') = true := by
  have hblank : ∀ {gap rest : List UInt8}, (∀ b ∈ gap, isBlank b = true) →
      rest.head?.all (fun b => isBlank b || b == ascii ';' || b == ascii '/') = true →
      (gap ++ rest).head?.all (fun b => isBlank b || b == ascii ';' || b == ascii '/') = true := by
    intro gap rest hgap hrest
    cases gap with
    | nil => exact hrest
    | cons b gap => simp [hgap b List.mem_cons_self]
  cases h with
  | @done gap hgap => exact List.append_nil line ▸ hblank hgap rfl
  | semicolon hgap => exact hblank hgap rfl
  | comment hgap _ => exact hblank hgap rfl

theorem Tail.not_inWord {closed : Bool} {line : List UInt8} (h : Tail closed line) : line.head?.any inWord = false := by
  refine any_eq_false_of_all ?_ h.head?
  intro b hb
  simp only [Bool.or_eq_true, beq_iff_eq] at hb
  rcases hb with (hb | rfl) | rfl
  · exact inWord_of_isBlank b hb
  · decide
  · decide

theorem Gap.not_inWord {gap : List UInt8} (h : Gap gap) (rest : List UInt8) :
    (gap ++ rest).head?.any inWord = false := by
  obtain ⟨hne, hblank⟩ := h
  cases gap with
  | nil => exact absurd rfl hne
  | cons b gap => exact inWord_of_isBlank b (hblank b List.mem_cons_self)

theorem Gap.length_pos {gap : List UInt8} (h : Gap gap) : 0 < gap.length := List.length_pos_of_ne_nil h.ne_nil

theorem gap_of_pos {gap : List UInt8} (hpos : 0 < gap.length) (hblank : ∀ b ∈ gap, isBlank b = true) : Gap gap :=
  ⟨List.ne_nil_of_length_pos hpos, hblank⟩

theorem beginsFrom_iff {line : List UInt8} :
    beginsFrom line = true ↔ ∃ rest, line = fromWord.toList ++ rest ∧ rest.head?.any inWord = false := by
  have hsize : fromWord.size = fromWord.toList.length := rfl
  simp only [beginsFrom, Bool.and_eq_true, List.isPrefixOf_iff_prefix, Bool.not_eq_true']
  constructor
  · rintro ⟨⟨rest, hrest⟩, hafter⟩
    rw [← hrest, hsize, List.drop_left] at hafter
    exact ⟨rest, hrest.symm, hafter⟩
  · rintro ⟨rest, hline, hafter⟩
    rw [hline, hsize, List.drop_left]
    exact ⟨List.prefix_append _ _, hafter⟩

/-! ## Side effects -/

theorem SideEffect.blanks_eq {line : List UInt8} (p : SideEffect line) : blanks line = p.gap.length := by
  conv_lhs => rw [p.line_eq]
  exact blanks_append p.isGap.blank (p.isQuoted.not_blank _)

theorem SideEffect.drop_blanks {line : List UInt8} (p : SideEffect line) :
    line.drop (blanks line) = p.name ++ (p.space ++ (fromWord.toList ++ p.tail)) := by
  rw [p.blanks_eq]
  exact (congrArg (List.drop p.gap.length) p.line_eq).trans List.drop_left

/-- what is left behind the name, the blanks and the `se` -/
theorem SideEffect.rests {line : List UInt8} (p : SideEffect line) :
    (line.drop (blanks line)).drop p.name.length = p.space ++ (fromWord.toList ++ p.tail) ∧
      (line.drop (blanks line)).drop (p.name.length + p.space.length) = fromWord.toList ++ p.tail ∧
      (line.drop (blanks line)).drop (p.name.length + p.space.length + fromWord.size) = p.tail := by
  have hspace : (line.drop (blanks line)).drop p.name.length = p.space ++ (fromWord.toList ++ p.tail) := by
    rw [p.drop_blanks, List.drop_left]
  have hfrom := drop_add_of_drop hspace
  exact ⟨hspace, hfrom, drop_add_of_drop hfrom⟩

/-- **The parts of a side effect are found.** -/
theorem SideEffect.read {line : List UInt8} (p : SideEffect line) :
    sideEffect? (line.drop (blanks line)) = some p.form := by
  obtain ⟨hspace, -, hrest⟩ := p.rests
  have hname : moduleName? (line.drop (blanks line)) = some p.name.length :=
    p.drop_blanks ▸ moduleName?_append p.isQuoted _
  have hgap := blanks_append p.isSpace.blank (fromWord_not_blank p.tail)
  have hbegins := beginsFrom_iff.2 ⟨p.tail, rfl, p.isTail.not_inWord⟩
  have htail := tail?_eq_some_iff.2 p.isTail
  simp only [sideEffect?, hname, hspace, hgap, List.drop_left, hbegins, hrest, htail, p.isSpace.length_pos,
    Option.bind_eq_bind, Option.bind_some, decide_true, Bool.and_self, guard_true]
  rfl

/-- **What is read as a side effect has its parts.** -/
theorem exists_sideEffect {line : List UInt8} {form : Form} (hpos : 0 < blanks line)
    (h : sideEffect? (line.drop (blanks line)) = some form) : Nonempty (SideEffect line) := by
  obtain ⟨gap, rest, hline, hgap, -, hlength, hdrop⟩ := exists_blanks line
  rw [hdrop] at h
  simp only [sideEffect?, Option.bind_eq_bind, Option.bind_eq_some_iff, Option.guard_eq_some', Option.pure_def,
    Bool.and_eq_true, decide_eq_true_eq] at h
  obtain ⟨n, hname, -, ⟨hspace, hfrom⟩, closed, htail, -⟩ := h
  obtain ⟨name, rest, rfl, hquoted, rfl⟩ := exists_quoted hname
  rw [List.drop_left] at hspace hfrom htail
  obtain ⟨space, rest, rfl, hblank, -, hlen, hdrop'⟩ := exists_blanks rest
  rw [hdrop'] at hfrom
  obtain ⟨tail, rfl, -⟩ := beginsFrom_iff.1 hfrom
  have hmark : (name ++ (space ++ (fromWord.toList ++ tail))).drop
      (name.length + space.length + fromWord.size) = tail :=
    drop_add_of_drop (drop_add_of_drop List.drop_left)
  rw [hlen] at hspace htail
  rw [hmark] at htail
  exact ⟨⟨gap, name, space, tail, closed, gap_of_pos (hlength ▸ hpos) hgap, hquoted, gap_of_pos hspace hblank,
    tail?_eq_some_iff.1 htail, hline⟩⟩

/-! ## Bindings -/

namespace Bindings

variable {line : List UInt8}

theorem exists_bound (p : Bindings line) : ∃ b rest, p.bound = b :: rest ∧ isBlank b = false := by
  have hbound := p.isBound
  cases hb : p.bound with
  | nil =>
    rw [hb] at hbound
    cases hbound
  | cons b rest =>
    rw [hb] at hbound
    exact ⟨b, rest, rfl, by simpa using hbound⟩

theorem length_bound_ne_zero (p : Bindings line) : p.bound.length ≠ 0 := by
  obtain ⟨b, rest, hb, -⟩ := p.exists_bound
  rw [hb]
  exact Nat.succ_ne_zero _

theorem blanks_eq (p : Bindings line) : blanks line = p.gap.length := by
  conv_lhs => rw [p.line_eq]
  refine blanks_append p.isGap.blank ?_
  obtain ⟨b, rest, hb, hblank⟩ := p.exists_bound
  rw [hb]
  exact hblank

theorem drop_blanks (p : Bindings line) : line.drop (blanks line) =
    p.bound ++ (p.before ++ (fromWord.toList ++ (p.after ++ (p.name ++ p.tail)))) := by
  rw [p.blanks_eq]
  exact (congrArg (List.drop p.gap.length) p.line_eq).trans List.drop_left

/-- what is left behind what is bound, the blanks, the `se`, the blanks and the name -/
theorem rests (p : Bindings line) :
    (line.drop (blanks line)).drop p.bound.length =
        p.before ++ (fromWord.toList ++ (p.after ++ (p.name ++ p.tail))) ∧
      (line.drop (blanks line)).drop (p.bound.length + p.before.length) =
        fromWord.toList ++ (p.after ++ (p.name ++ p.tail)) ∧
      (line.drop (blanks line)).drop (p.bound.length + p.before.length + fromWord.size) =
        p.after ++ (p.name ++ p.tail) ∧
      (line.drop (blanks line)).drop (p.bound.length + p.before.length + fromWord.size + p.after.length) =
        p.name ++ p.tail ∧
      (line.drop (blanks line)).drop
        (p.bound.length + p.before.length + fromWord.size + p.after.length + p.name.length) = p.tail := by
  have hbefore : (line.drop (blanks line)).drop p.bound.length =
      p.before ++ (fromWord.toList ++ (p.after ++ (p.name ++ p.tail))) := by rw [p.drop_blanks, List.drop_left]
  have hfrom := drop_add_of_drop hbefore
  have hafter := drop_add_of_drop hfrom
  have hname := drop_add_of_drop hafter
  exact ⟨hbefore, hfrom, hafter, hname, drop_add_of_drop hname⟩

/-- **The parts of a line with bindings are found** at the first blank before `se`. -/
theorem read (p : Bindings line) : bindingsAt? (line.drop (blanks line)) p.bound.length = some p.form := by
  obtain ⟨hbefore, hfrom, hafter, -, hrest⟩ := p.rests
  have hgap := blanks_append p.isBefore.blank (fromWord_not_blank (p.after ++ (p.name ++ p.tail)))
  have hspace := blanks_append p.isAfter.blank (p.isQuoted.not_blank p.tail)
  have hbegins := beginsFrom_iff.2 ⟨p.after ++ (p.name ++ p.tail), rfl, p.isAfter.not_inWord _⟩
  have hname := moduleName?_append p.isQuoted p.tail
  have htail := tail?_eq_some_iff.2 p.isTail
  simp only [bindingsAt?, hbefore, hgap, hfrom, hbegins, hafter, hspace, List.drop_left, hname, hrest, htail,
    p.isBefore.length_pos, p.isAfter.length_pos, Option.bind_eq_bind, Option.bind_some, decide_true, Bool.and_self,
    guard_true]
  rfl

/-- the same line, with all blanks before `se` but the last one among what is bound -/
def tight (p : Bindings line) : Bindings line where
  gap := p.gap
  bound := p.bound ++ p.before.dropLast
  before := [p.before.getLast p.isBefore.ne_nil]
  after := p.after
  name := p.name
  tail := p.tail
  closed := p.closed
  isGap := p.isGap
  isBound := by
    obtain ⟨b, rest, hb, hblank⟩ := p.exists_bound
    rw [hb]
    simp [hblank]
  isBefore := by
    refine ⟨List.cons_ne_nil _ _, fun b hb => ?_⟩
    rw [List.mem_singleton.1 hb]
    exact p.isBefore.blank _ (List.getLast_mem _)
  isAfter := p.isAfter
  isQuoted := p.isQuoted
  isTail := p.isTail
  line_eq := by
    conv_lhs => rw [p.line_eq]
    rw [List.append_assoc, ← List.append_assoc p.before.dropLast, List.dropLast_append_getLast]

theorem tight_mark (p : Bindings line) : p.gap.length + p.tight.bound.length + 1 = p.mark := by
  have hpos := p.isBefore.length_pos
  simp only [tight, mark, List.length_append, List.length_dropLast]
  omega

/-- **What is read as bindings has its parts.** -/
theorem exists_of_read {form : Form} {k : Nat} (hpos : 0 < blanks line) (hk : 0 < k)
    (h : bindingsAt? (line.drop (blanks line)) k = some form) : ∃ p : Bindings line, p.bound.length = k := by
  obtain ⟨gap, rest, hline, hgap, hhead, hlength, hdrop⟩ := exists_blanks line
  rw [hdrop] at h
  simp only [bindingsAt?, Option.bind_eq_bind, Option.bind_eq_some_iff, Option.guard_eq_some', Option.pure_def,
    Bool.and_eq_true, decide_eq_true_eq] at h
  obtain ⟨-, ⟨hbefore, hfrom⟩, -, hafter, n, hname, closed, htail, -⟩ := h
  obtain ⟨before, behind, hbehind, hblank, -, hlen, -⟩ := exists_blanks (rest.drop k)
  rw [hlen] at hbefore hfrom hafter hname htail
  rw [drop_add_of_drop hbehind] at hfrom
  obtain ⟨behind, rfl, -⟩ := beginsFrom_iff.1 hfrom
  have hmark : rest.drop (k + before.length + fromWord.size) = behind := drop_add_of_drop (drop_add_of_drop hbehind)
  rw [hmark] at hafter hname htail
  obtain ⟨after, behind, rfl, hblank', -, hlen', hdrop'⟩ := exists_blanks behind
  rw [hdrop'] at hname
  obtain ⟨name, tail, rfl, hquoted, rfl⟩ := exists_quoted hname
  rw [hlen'] at hafter htail
  rw [drop_add_of_drop (drop_add_of_drop hmark)] at htail
  have hlt : k < rest.length := by
    have hlength := congrArg List.length hbehind
    rw [List.length_drop, List.length_append] at hlength
    omega
  have hbound : (rest.take k).head?.any (fun b => !isBlank b) = true := by
    cases rest with
    | nil => cases hlt
    | cons b rest =>
      rw [List.head?_take, if_neg (Nat.ne_of_gt hk)]
      simpa using hhead
  refine ⟨⟨gap, rest.take k, before, after, name, tail, closed, gap_of_pos (hlength ▸ hpos) hgap, hbound,
    gap_of_pos hbefore hblank, gap_of_pos hafter hblank', hquoted, tail?_eq_some_iff.1 htail, ?_⟩, ?_⟩
  · rw [hline, ← hbehind, List.take_append_drop]
  · exact List.length_take_of_le (Nat.le_of_lt hlt)

/-- a search through numbers finds the first one that fits -/
theorem first_of_findSome?_range {f : Nat → Option Form} {n : Nat} {form : Form}
    (h : (List.range n).findSome? f = some form) : ∃ k, f k = some form ∧ ∀ j < k, f j = none := by
  induction n with
  | zero => cases h
  | succ n ih =>
    rw [List.range_succ, List.findSome?_append] at h
    cases hn : (List.range n).findSome? f with
    | some found =>
      rw [hn] at h ih
      exact ih h
    | none =>
      rw [hn] at h
      rw [List.findSome?_eq_none_iff] at hn
      exact ⟨n, by simpa using h, fun j hj => hn j (List.mem_range.2 hj)⟩

theorem exists_search (p : Bindings line) :
    ∃ form, ((List.range (line.drop (blanks line)).length).findSome? fun k =>
      if k = 0 then none else bindingsAt? (line.drop (blanks line)) k) = some form := by
  refine Option.isSome_iff_exists.1 (List.findSome?_isSome_iff.2 ⟨p.bound.length, ?_, ?_⟩)
  · rw [List.mem_range, p.drop_blanks, List.length_append, List.length_append]
    have hbefore := p.isBefore.length_pos
    omega
  · rw [if_neg p.length_bound_ne_zero, p.read]
    rfl

/-- **The search finds the first `se` that fits.** -/
theorem exists_first {form : Form} (hpos : 0 < blanks line)
    (h : ((List.range (line.drop (blanks line)).length).findSome? fun k =>
      if k = 0 then none else bindingsAt? (line.drop (blanks line)) k) = some form) :
    ∃ p : Bindings line, form = p.form ∧ ∀ p' : Bindings line, p.mark ≤ p'.mark := by
  obtain ⟨k, hk, hbefore⟩ := first_of_findSome?_range h
  split_ifs at hk with h0
  obtain ⟨p, rfl⟩ := exists_of_read hpos (Nat.pos_of_ne_zero h0) hk
  refine ⟨p, Option.some.inj (hk.symm.trans p.read), fun p' => ?_⟩
  have hgap : p.gap.length = p'.gap.length := p.blanks_eq.symm.trans p'.blanks_eq
  have htight := p'.tight_mark
  have hle : p.bound.length ≤ p'.tight.bound.length := by
    by_contra hlt
    have hnone := hbefore _ (Nat.lt_of_not_le hlt)
    rw [if_neg p'.tight.length_bound_ne_zero, p'.tight.read] at hnone
    cases hnone
  -- only blanks stand between what is bound and `se`, so no other `se` is there
  by_contra hlt
  unfold mark at hlt htight
  obtain ⟨hblanks, -⟩ := p.rests
  obtain ⟨-, hfrom, -⟩ := p'.rests
  have hblank := any_of_drop hblanks p.isBefore.blank (k := p'.bound.length + p'.before.length) (by omega) (by omega)
  have hs : (line.drop (blanks line))[p'.bound.length + p'.before.length]? = some (ascii 's') :=
    getElem?_add_of_drop hfrom 0
  rw [hs] at hblank
  exact absurd hblank (by decide)

end Bindings

/-! ## What the matcher finds -/

/-- a side effect if the line is one, or else the bindings whose `se` comes first, or else nothing -/
inductive Matched (line : List UInt8) : Option Form → Prop
  | sideEffect (p : SideEffect line) : Matched line (some p.form)
  | bindings (hside : IsEmpty (SideEffect line)) (p : Bindings line) (hfirst : ∀ p' : Bindings line, p.mark ≤ p'.mark) :
    Matched line (some p.form)
  | other (hside : IsEmpty (SideEffect line)) (hbindings : IsEmpty (Bindings line)) : Matched line none

theorem SideEffect.body?_eq {line : List UInt8} (p : SideEffect line) :
    body? (line.drop (blanks line)) = some p.form := by
  rw [body?, p.read]

/-- **The matcher finds the parts of a line.** -/
theorem body?_matched {line : List UInt8} (hpos : 0 < blanks line) :
    Matched line (body? (line.drop (blanks line))) := by
  by_cases hside : Nonempty (SideEffect line)
  · obtain ⟨p⟩ := hside
    rw [p.body?_eq]
    exact .sideEffect p
  · have hnone : sideEffect? (line.drop (blanks line)) = none :=
      Option.eq_none_iff_forall_ne_some.2 fun form hform => hside (exists_sideEffect hpos hform)
    rw [not_nonempty_iff] at hside
    rw [body?, hnone]
    cases hsearch : (List.range (line.drop (blanks line)).length).findSome? fun k =>
        if k = 0 then none else bindingsAt? (line.drop (blanks line)) k with
    | some form =>
      obtain ⟨p, rfl, hfirst⟩ := Bindings.exists_first hpos hsearch
      exact .bindings hside p hfirst
    | none =>
      refine .other hside ⟨fun p => ?_⟩
      obtain ⟨form, hform⟩ := p.exists_search
      rw [hsearch] at hform
      cases hform

/-! ## The offsets of a form -/

/-- the byte at `k`, if there is one, is a blank, a semicolon, or the beginning of a comment -/
def TailAt (text : List UInt8) (k : Nat) : Prop :=
  text[k]?.all (fun b => isBlank b || b == ascii ';' || b == ascii '/') = true

def FromAt (text : List UInt8) (k : Nat) : Prop := text[k]? = some (ascii 's') ∧ text[k + 1]? = some (ascii 'e')

/-- what stands at the offsets of a form -/
inductive Form.Parts (text : List UInt8) : Form → Prop
  | sideEffect {name gap : Nat} {closed : Bool} (hname : 0 < name) (hquote : text[name - 1]?.any isQuote = true)
    (hgap : 0 < gap) (hblank : ∀ k, name ≤ k → k < name + gap → text[k]?.any isBlank = true)
    (hfrom : FromAt text (name + gap)) (hafter : text[name + gap + 2]?.any inWord = false)
    (htail : TailAt text (name + gap + 2)) : Form.Parts text (.sideEffect name (name + gap + 2) closed)
  | bindings {mark name : Nat} {closed : Bool} (hmark : 0 < mark) (hbefore : text[mark - 1]?.any isBlank = true)
    (hfrom : FromAt text mark) (hafter : text[mark + 2]?.any isBlank = true) (hlt : mark + 2 < name)
    (hquote : text[name - 1]?.any isQuote = true) (htail : TailAt text name) :
    Form.Parts text (.bindings mark name closed)

section

variable {text rest : List UInt8} {a : Nat}

theorem fromAt_of_drop (h : text.drop a = fromWord.toList ++ rest) : FromAt text a :=
  ⟨getElem?_add_of_drop h 0, getElem?_add_of_drop h 1⟩

theorem Tail.tailAt {closed : Bool} (h : Tail closed rest) (hdrop : text.drop a = rest) : TailAt text a := by
  rw [TailAt, ← List.head?_drop, hdrop]
  exact h.head?

theorem Quoted.last {name : List UInt8} (h : Quoted name) (hdrop : text.drop a = name ++ rest) :
    text[a + name.length - 1]?.any isQuote = true := by
  obtain ⟨q, name, hq, -, -, rfl⟩ := h
  have hlast : a + (q :: (name ++ [q])).length - 1 = a + (name.length + 1) := by simp
  rw [hlast, getElem?_add_of_drop hdrop]
  simp [hq]

theorem Quoted.length_pos {name : List UInt8} (h : Quoted name) : 0 < name.length := by
  obtain ⟨q, name, -, -, -, rfl⟩ := h
  exact Nat.succ_pos _

end

theorem SideEffect.parts {line : List UInt8} (p : SideEffect line) : p.form.Parts (line.drop (blanks line)) := by
  have hname := p.drop_blanks
  obtain ⟨hspace, hfrom, htail⟩ := p.rests
  rw [show fromWord.size = 2 from rfl] at htail
  generalize line.drop (blanks line) = text at *
  refine .sideEffect p.isQuoted.length_pos ?_ p.isSpace.length_pos ?_ (fromAt_of_drop hfrom) ?_ (p.isTail.tailAt htail)
  · have hlast := p.isQuoted.last (show text.drop 0 = _ from hname)
    rwa [Nat.zero_add] at hlast
  · exact fun k h1 h2 => any_of_drop hspace p.isSpace.blank h1 h2
  · rw [← List.head?_drop, htail]
    exact p.isTail.not_inWord

theorem Bindings.parts {line : List UInt8} (p : Bindings line) : p.form.Parts (line.drop (blanks line)) := by
  obtain ⟨hbefore, hfrom, hafter, hname, htail⟩ := p.rests
  rw [show fromWord.size = 2 from rfl] at hafter hname htail
  have hpos := p.isBefore.length_pos
  have hpos' := p.isAfter.length_pos
  have hpos'' := p.isQuoted.length_pos
  exact .bindings (by omega) (any_of_drop hbefore p.isBefore.blank (by omega) (by omega)) (fromAt_of_drop hfrom)
    (any_of_drop hafter p.isAfter.blank (Nat.le_refl _) (by omega)) (by omega) (p.isQuoted.last hname)
    (p.isTail.tailAt htail)

/-- whatever form a line is read as, its parts are there -/
theorem parts_of_body? {line : List UInt8} {form : Form} (hpos : 0 < blanks line)
    (h : body? (line.drop (blanks line)) = some form) : form.Parts (line.drop (blanks line)) := by
  have hmatched := body?_matched hpos
  rw [h] at hmatched
  cases hmatched with
  | sideEffect p => exact p.parts
  | bindings _ p _ => exact p.parts

end Respell.ImportLine
