/-
Mappings read back. A reader of the `mappings` text of a source map, version 3: segments are divided by commas, lines
by semicolons, and a segment holds one, four or five numbers in base64 digits of five bits each, which are differences
to the numbers before them; the output column is counted anew on each line. The reader refuses what is no such text.

Main result, `decode?_mappings`: the entries whose output lines do not go back are read back from their text, in order
and with nothing between them.
-/
import Mathlib.Tactic
import Respell.SourceMap.Mappings

namespace Respell

/-! ## Numbers -/

namespace Vlq

def digitValue? (c : Char) : Option Nat :=
  if 'A' ≤ c ∧ c ≤ 'Z' then some (c.toNat - 'A'.toNat)
  else if 'a' ≤ c ∧ c ≤ 'z' then some (c.toNat - 'a'.toNat + 26)
  else if '0' ≤ c ∧ c ≤ '9' then some (c.toNat - '0'.toNat + 52)
  else if c = '+' then some 62
  else if c = '/' then some 63
  else none

/-- the numbers that digits spell, lowest five bits first; the last digit of a number is below 32 -/
def naturals? : List Char → Option (List Nat)
  | [] => some []
  | c :: rest =>
    match digitValue? c, naturals? rest with
    | some d, some ns =>
      if d < 32 then some (d :: ns)
      else
        match ns with
        | [] => none
        | n :: ns => some ((d - 32 + 32 * n) :: ns)
    | _, _ => none

/-- the number whose lowest bit is the sign -/
def value (n : Nat) : Int := if n % 2 = 1 then -((n / 2 : Nat) : Int) else ((n / 2 : Nat) : Int)

def numbers? (digits : List Char) : Option (List Int) := (naturals? digits).map fun ns => ns.map value

theorem digitValue?_digit : ∀ n < 64, digitValue? (Base64.digit n) = some n := by decide +kernel

theorem value_signed (n : Int) : value (signed n) = n := by
  unfold value signed
  split <;> split <;> omega

/-- a number is read back from its digits, whatever follows -/
theorem naturals?_groups (n : Nat) {rest : List Char} {ns : List Nat} (h : naturals? rest = some ns) :
    naturals? (groups n ++ rest) = some (n :: ns) := by
  fun_induction groups n with
  | case1 n hn =>
    have hd := digitValue?_digit n (by omega)
    simp [naturals?, hd, h, hn]
  | case2 n hn ih =>
    have hd := digitValue?_digit (n % 32 + 32) (by omega)
    have hsum : n % 32 + 32 * (n / 32) = n := Nat.mod_add_div n 32
    simp [naturals?, hd, ih, hsum]

theorem numbers?_encode (n : Int) {rest : List Char} {ns : List Int} (h : numbers? rest = some ns) :
    numbers? (encode n ++ rest) = some (n :: ns) := by
  obtain ⟨ks, hks, rfl⟩ := Option.map_eq_some_iff.1 h
  rw [numbers?, encode, naturals?_groups _ hks, Option.map_some, List.map_cons, value_signed]

theorem ne_separator_of_mem_groups {n : Nat} {c : Char} (h : c ∈ groups n) : c ≠ ',' ∧ c ≠ ';' := by
  have hdigit : ∀ k < 64, Base64.digit k ≠ ',' ∧ Base64.digit k ≠ ';' := by decide +kernel
  fun_induction groups n with
  | case1 n hn =>
    rw [List.mem_singleton.1 h]
    exact hdigit n (by omega)
  | case2 n hn ih =>
    rcases List.mem_cons.1 h with rfl | h
    · exact hdigit _ (by omega)
    · exact ih h

end Vlq

/-! ## The reader -/

/-- where a segment says that its place in the output comes from -/
structure Origin where
  source : Int
  line : Int
  column : Int
  name : Option Int
deriving DecidableEq, Repr

/-- a segment that was read: a place in the output, and its origin if it has one -/
structure Mapping where
  line : Nat
  column : Int
  origin : Option Origin
deriving DecidableEq, Repr

namespace Mapping

/-- the numbers to which the next differences are added -/
structure Running where
  line : Nat
  column : Int
  source : Int
  originLine : Int
  originColumn : Int
  name : Int
deriving DecidableEq, Repr

def Running.start : Running := ⟨0, 0, 0, 0, 0, 0⟩

def Running.nextLine (r : Running) : Running := { r with line := r.line + 1, column := 0 }

/-- what the numbers of a segment say -/
def Running.read? (r : Running) : List Int → Option (Running × Mapping)
  | [column] =>
    let r := { r with column := r.column + column }
    some (r, ⟨r.line, r.column, none⟩)
  | [column, source, line, originColumn] =>
    let r := { r with
      column := r.column + column
      source := r.source + source
      originLine := r.originLine + line
      originColumn := r.originColumn + originColumn }
    some (r, ⟨r.line, r.column, some ⟨r.source, r.originLine, r.originColumn, none⟩⟩)
  | [column, source, line, originColumn, name] =>
    let r : Running := ⟨r.line, r.column + column, r.source + source, r.originLine + line,
      r.originColumn + originColumn, r.name + name⟩
    some (r, ⟨r.line, r.column, some ⟨r.source, r.originLine, r.originColumn, some r.name⟩⟩)
  | _ => none

/-- a segment's end; a segment without digits says nothing -/
def Running.close? (r : Running) (segment : List Char) : Option (Running × List Mapping) :=
  if segment = [] then some (r, [])
  else ((Vlq.numbers? segment).bind r.read?).map fun found => (found.1, [found.2])

/-- what a text says, after the digits `segment` -/
def decodeFrom? (r : Running) (segment : List Char) : List Char → Option (List Mapping)
  | [] => (r.close? segment).map (·.2)
  | c :: rest =>
    if c = ',' ∨ c = ';' then
      match r.close? segment with
      | none => none
      | some (r, found) => (decodeFrom? (if c = ';' then r.nextLine else r) [] rest).map (found ++ ·)
    else decodeFrom? r (segment ++ [c]) rest

def decode? (text : String) : Option (List Mapping) := decodeFrom? .start [] text.toList

theorem decodeFrom?_digits {r : Running} {segment xs rest : List Char} (h : ∀ c ∈ xs, c ≠ ',' ∧ c ≠ ';') :
    decodeFrom? r segment (xs ++ rest) = decodeFrom? r (segment ++ xs) rest := by
  induction xs generalizing segment with
  | nil => rw [List.nil_append, List.append_nil]
  | cons c xs ih =>
    obtain ⟨h1, h2⟩ := h c List.mem_cons_self
    rw [List.cons_append, decodeFrom?, if_neg (by simp [h1, h2]), ih fun x hx => h x (List.mem_cons_of_mem c hx),
      List.append_assoc]
    rfl

theorem decodeFrom?_semicolons (r : Running) (n : Nat) (rest : List Char) :
    decodeFrom? r [] (List.replicate n ';' ++ rest) =
      decodeFrom? { r with line := r.line + n, column := if n = 0 then r.column else 0 } [] rest := by
  induction n generalizing r with
  | zero => rfl
  | succ n ih =>
    rw [List.replicate_succ, List.cons_append, decodeFrom?, if_pos (.inr rfl)]
    simp only [Running.close?, if_true, List.nil_append, Option.map_id', ih, Running.nextLine, ite_self]
    rw [if_neg (Nat.succ_ne_zero n), Nat.add_assoc, Nat.add_comm 1 n]

end Mapping

/-! ## Entries -/

namespace Entry

def mapping (e : Entry) : Mapping := ⟨e.output.line, e.output.column, some ⟨0, e.source.line, e.source.column, none⟩⟩

def running (e : Entry) : Mapping.Running := ⟨e.output.line, e.output.column, 0, e.source.line, e.source.column, 0⟩

/-- the running numbers before the digits of `next`, which follows `last` -/
def runningTo (last next : Entry) : Mapping.Running :=
  { last.running with
    line := next.output.line
    column := if last.output.line = next.output.line then last.output.column else 0 }

theorem numbers?_fields (last next : Entry) :
    Vlq.numbers? (fields last next) =
      some [(next.output.column : Int) -
          (if last.output.line = next.output.line then last.output.column else 0 : Nat), 0,
        (next.source.line : Int) - last.source.line, (next.source.column : Int) - last.source.column] := by
  have hlast := @Vlq.numbers?_encode ((next.source.column : Int) - last.source.column) [] [] rfl
  rw [List.append_nil] at hlast
  unfold fields
  simp only [List.append_assoc]
  exact Vlq.numbers?_encode _ (Vlq.numbers?_encode _ (Vlq.numbers?_encode _ hlast))

theorem ne_separator_of_mem_fields {last next : Entry} {c : Char} (h : c ∈ fields last next) : c ≠ ',' ∧ c ≠ ';' := by
  simp only [fields, List.mem_append] at h
  rcases h with ((h | h) | h) | h <;> exact Vlq.ne_separator_of_mem_groups h

theorem close?_fields (last next : Entry) :
    (runningTo last next).close? (fields last next) = some (next.running, [next.mapping]) := by
  have hne : fields last next ≠ [] := by
    intro h
    have := numbers?_fields last next
    rw [h] at this
    cases this
  rw [Mapping.Running.close?, if_neg hne, numbers?_fields]
  by_cases hline : last.output.line = next.output.line <;>
    simp [Mapping.Running.read?, runningTo, running, mapping, hline]

/-- the separator between two entries ends the digits before it, and brings the running numbers to the next entry -/
theorem decodeFrom?_separator {last next : Entry} (h : last.output.line ≤ next.output.line) {r : Mapping.Running}
    {segment : List Char} {found : List Mapping} (hclose : r.close? segment = some (last.running, found))
    (rest : List Char) :
    Mapping.decodeFrom? r segment (separator last next ++ rest) =
      (Mapping.decodeFrom? (runningTo last next) [] rest).map (found ++ ·) := by
  by_cases hline : last.output.line = next.output.line
  · have hrun : runningTo last next = last.running := by simp [runningTo, running, hline]
    rw [separator, if_pos hline, List.cons_append, List.nil_append, Mapping.decodeFrom?, if_pos (.inl rfl), hclose,
      hrun]
    rfl
  · obtain ⟨n, hn⟩ : ∃ n, next.output.line = last.output.line + (n + 1) := Nat.exists_eq_add_of_lt
      (Nat.lt_of_le_of_ne h hline)
    have hrun : runningTo last next =
        { last.running.nextLine with
          line := last.running.nextLine.line + n
          column := if n = 0 then last.running.nextLine.column else 0 } := by
      simp only [runningTo, running, Mapping.Running.nextLine, if_neg hline, ite_self, Mapping.Running.mk.injEq,
        and_true]
      omega
    rw [separator, if_neg hline, hn, Nat.add_sub_cancel_left, List.replicate_succ, List.cons_append,
      Mapping.decodeFrom?, if_pos (.inr rfl), hclose, hrun, ← Mapping.decodeFrom?_semicolons]
    rfl

/-- **One entry after another.** The digits of an entry and all that follows them are read back. -/
theorem decodeFrom?_charsAfter {last e : Entry} {rest : List Entry}
    (h : (e :: rest).Pairwise fun a b => a.output.line ≤ b.output.line) :
    Mapping.decodeFrom? (runningTo last e) [] (fields last e ++ charsAfter e rest) =
      some ((e :: rest).map mapping) := by
  induction rest generalizing last e with
  | nil =>
    rw [Mapping.decodeFrom?_digits fun c hc => ne_separator_of_mem_fields hc, charsAfter, Mapping.decodeFrom?,
      List.nil_append, close?_fields]
    rfl
  | cons e' rest ih =>
    have hle := List.rel_of_pairwise_cons h List.mem_cons_self
    rw [Mapping.decodeFrom?_digits fun c hc => ne_separator_of_mem_fields hc, List.nil_append, charsAfter,
      List.append_assoc, decodeFrom?_separator hle (close?_fields last e), ih h.of_cons]
    rfl

/-- **Mappings are read back**, if the output lines of entries do not go back. -/
theorem decode?_mappings {entries : List Entry} (h : entries.Pairwise fun a b => a.output.line ≤ b.output.line) :
    Mapping.decode? (mappings entries) = some (entries.map mapping) := by
  cases entries with
  | nil => rfl
  | cons e rest =>
    have hrun : runningTo ⟨⟨0, 0⟩, ⟨0, 0⟩⟩ e =
        { Mapping.Running.start with
          line := Mapping.Running.start.line + e.output.line
          column := if e.output.line = 0 then Mapping.Running.start.column else 0 } := by
      simp [runningTo, running, Mapping.Running.start]
    rw [Mapping.decode?, mappings, String.toList_ofList, List.append_assoc, Mapping.decodeFrom?_semicolons, ← hrun]
    exact decodeFrom?_charsAfter h

example : Mapping.decode? "AAAA,IAAC;;gBACD" = some [⟨0, 0, some ⟨0, 0, 0, none⟩⟩, ⟨0, 4, some ⟨0, 0, 1, none⟩⟩,
    ⟨2, 16, some ⟨0, 1, 0, none⟩⟩] := by
  decide +kernel

end Entry

end Respell
