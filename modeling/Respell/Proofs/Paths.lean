/-
Where a path leads. The text of a path gives its place by itself: each piece stays, goes up, or goes on to a name
(`Path.move`, `Path.place`). Where a tree has anything for a path to mean, it is at that place (`find_place`), and
what a path says is to be made is made there (`target_entry`); so two texts of one place mean the same, however they
are written.

The pieces of a joined path are those of its two parts (`pieces_join`), and a change of characters behind the last
slash does not touch the pieces before it (`split_last`). Hence a path made from the output directory and names leads
below it, also with another extension.
-/
import Respell.Proofs.Trees
import Mathlib.Data.List.TakeDrop
import Mathlib.Data.List.TakeWhile

namespace Respell

open Node

namespace Path

/-! ## Cutting at slashes -/

theorem split_ne_nil (t : List Char) : split t ≠ [] := by
  cases t with
  | nil => simp [split]
  | cons c rest =>
    unfold split
    split_ifs
    · simp
    · cases split rest <;> simp

theorem split_append_slash (a b : List Char) : split (a ++ '/' :: b) = split a ++ split b := by
  induction a with
  | nil => simp [split]
  | cons c a ih =>
    simp only [List.cons_append, split, ih]
    split_ifs
    · rfl
    · cases h : split a with
      | nil => exact absurd h (split_ne_nil a)
      | cons piece more => rfl

theorem split_of_no_slash {t : List Char} (h : '/' ∉ t) : split t = [t] := by
  induction t with
  | nil => rfl
  | cons c rest ih =>
    obtain ⟨hc, hrest⟩ := not_or.1 (mt List.mem_cons.2 h)
    simp only [split, if_neg (Ne.symm hc), ih hrest]

theorem eq_of_split {t l : List Char} (h : split t = [l]) : t = l := by
  induction t generalizing l with
  | nil => exact List.singleton_inj.1 h
  | cons c rest ih =>
    unfold split at h
    split_ifs at h
    · exact absurd (List.cons.inj h).2 (split_ne_nil rest)
    · cases hs : split rest with
      | nil => exact absurd hs (split_ne_nil rest)
      | cons piece more =>
        rw [hs] at h
        obtain ⟨rfl, rfl⟩ := List.cons.inj h
        rw [ih hs]

theorem no_slash_of_mem_split {t piece : List Char} (h : piece ∈ split t) : '/' ∉ piece := by
  induction t generalizing piece with
  | nil => simp [List.mem_singleton.1 h]
  | cons c rest ih =>
    unfold split at h
    split_ifs at h with hc
    · rcases List.mem_cons.1 h with rfl | h
      · exact List.not_mem_nil
      · exact ih h
    · cases hs : split rest with
      | nil => exact absurd hs (split_ne_nil rest)
      | cons first more =>
        rw [hs] at h ih
        rcases List.mem_cons.1 h with rfl | h
        · rw [List.mem_cons, not_or]
          exact ⟨Ne.symm hc, ih List.mem_cons_self⟩
        · exact ih (List.mem_cons_of_mem _ h)

/-- what stands behind the last slash may be replaced -/
theorem split_last {t l : List Char} (ps : List (List Char)) (h : split t = ps ++ [l]) :
    ∃ front, t = front ++ l ∧ ∀ l', '/' ∉ l' → split (front ++ l') = ps ++ [l'] := by
  induction t generalizing ps with
  | nil =>
    obtain ⟨rfl, hl⟩ := List.append_eq_singleton_iff.1 h.symm |>.resolve_right (by simp)
    obtain rfl := List.singleton_inj.1 hl
    exact ⟨[], rfl, fun l' hl' => split_of_no_slash hl'⟩
  | cons c rest ih =>
    unfold split at h
    split_ifs at h with hc
    · cases ps with
      | nil => exact absurd (List.cons.inj h).2 (split_ne_nil rest)
      | cons first ps =>
        obtain ⟨rfl, hrest⟩ := List.cons.inj h
        obtain ⟨front, rfl, hput⟩ := ih ps hrest
        refine ⟨c :: front, rfl, ?_⟩
        intro l' hl'
        rw [List.cons_append, split, if_pos hc, hput l' hl']
        rfl
    · cases hs : split rest with
      | nil => exact absurd hs (split_ne_nil rest)
      -- the character joins the first piece, which may be the last one too
      | cons piece more =>
        rw [hs] at h
        cases ps with
        | nil =>
          obtain ⟨rfl, rfl⟩ := List.cons.inj h
          exact ⟨[], by rw [eq_of_split hs]; rfl, fun l' hl' => split_of_no_slash hl'⟩
        | cons first ps =>
          obtain ⟨rfl, rfl⟩ := List.cons.inj h
          obtain ⟨front, rfl, hput⟩ := ih (piece :: ps) hs
          refine ⟨c :: front, rfl, ?_⟩
          intro l' hl'
          rw [List.cons_append, split, if_neg hc, hput l' hl']
          rfl

/-! ## Places -/

/-- where a piece leads from a place -/
def move (place : List String) (piece : String) : List String :=
  if piece = "" ∨ piece = "." then place else if piece = ".." then place.dropLast else place ++ [piece]

/-- where a path leads -/
def place (path : String) : List String := (pieces path).foldl move []

/-- where all but the last piece of a path lead -/
def above (path : String) : List String := (pieces path).dropLast.foldl move []

theorem no_slash_of_mem_pieces {path piece : String} (h : piece ∈ pieces path) : '/' ∉ piece.toList := by
  obtain ⟨chars, hchars, rfl⟩ := List.mem_map.1 h
  rw [String.toList_ofList]
  exact no_slash_of_mem_split hchars

theorem isName_of_piece {path piece : String} (h : piece ∈ pieces path) (h1 : piece ≠ "") (h2 : piece ≠ ".")
    (h3 : piece ≠ "..") : IsName piece :=
  ⟨h1, h2, h3, no_slash_of_mem_pieces h⟩

@[simp] theorem move_empty (p : List String) : move p "" = p := rfl

theorem move_name {name : String} (h : IsName name) (p : List String) : move p name = p ++ [name] := by
  unfold move
  rw [if_neg (not_or.2 ⟨h.ne_empty, h.ne_here⟩), if_neg h.ne_up]

theorem foldl_move_names {names : List String} (h : ∀ name ∈ names, IsName name) (p : List String) :
    names.foldl move p = p ++ names := by
  induction names generalizing p with
  | nil => exact (List.append_nil p).symm
  | cons name names ih =>
    rw [List.foldl_cons, move_name (h name List.mem_cons_self), ih fun n hn => h n (List.mem_cons_of_mem _ hn),
      List.append_assoc]
    rfl

theorem isName_of_mem_foldl (path : String) {ps : List String} (hps : ∀ piece ∈ ps, piece ∈ pieces path)
    {p : List String} (hp : ∀ name ∈ p, IsName name) : ∀ name ∈ ps.foldl move p, IsName name := by
  induction ps generalizing p with
  | nil => exact hp
  | cons piece ps ih =>
    refine ih (fun x hx => hps x (List.mem_cons_of_mem _ hx)) ?_
    intro name hname
    unfold move at hname
    split_ifs at hname with h1 h2
    · exact hp name hname
    · exact hp name (List.dropLast_subset p hname)
    · rcases List.mem_append.1 hname with h | h
      · exact hp name h
      · rw [List.mem_singleton.1 h]
        obtain ⟨hempty, hhere⟩ := not_or.1 h1
        exact isName_of_piece (hps piece List.mem_cons_self) hempty hhere h2

theorem isName_of_mem_place {path name : String} (h : name ∈ place path) : IsName name :=
  isName_of_mem_foldl path (fun _ hx => hx) (fun _ hx => (List.not_mem_nil hx).elim) name h

/-! ## Joining -/

/-- the pieces of a joined path: those of the first part, without the empty one behind a last slash, and those of the
second -/
theorem exists_joined (base : String) :
    ∃ ps, (base = "" ∧ ps = [] ∨ ps ≠ [] ∧ (pieces base = ps ∨ pieces base = ps ++ [""])) ∧
    ∀ path, isAbsolute path = false → pieces (join base path) = ps ++ pieces path := by
  have hjoin : ∀ path, isAbsolute path = false →
      join base path = if base = "" ∨ endsInSlash base then base ++ path else base ++ "/" ++ path := by
    intro path h
    rw [join, if_neg (by simp [h])]
  by_cases hbase : base = "" ∨ endsInSlash base = true
  · by_cases hempty : base = ""
    · refine ⟨[], .inl ⟨hempty, rfl⟩, fun path h => ?_⟩
      rw [hjoin path h, if_pos hbase, hempty, String.empty_append, List.nil_append]
    · have hslash := hbase.resolve_left hempty
      obtain ⟨a, ha⟩ := List.getLast?_eq_some_iff.1 (beq_iff_eq.1 hslash)
      refine ⟨(split a).map String.ofList, .inr ⟨by simp [split_ne_nil], .inr ?_⟩, fun path h => ?_⟩
      · rw [pieces, ha, split_append_slash, List.map_append]
        rfl
      · rw [hjoin path h, if_pos hbase, pieces, String.toList_append, ha, List.append_assoc, List.singleton_append,
          split_append_slash, List.map_append]
        rfl
  · refine ⟨pieces base, .inr ⟨by simp [pieces, split_ne_nil], .inl rfl⟩, fun path h => ?_⟩
    rw [hjoin path h, if_neg hbase, pieces, String.toList_append, String.toList_append,
      show "/".toList = ['/'] from rfl,
      List.append_assoc, List.singleton_append, split_append_slash, List.map_append]
    rfl

theorem pieces_join (base : String) {path : String} (h : isAbsolute path = false) :
    ∃ ps, pieces (join base path) = ps ++ pieces path ∧
      (base = "" ∧ ps = [] ∨ ps ≠ [] ∧ (pieces base = ps ∨ pieces base = ps ++ [""])) := by
  obtain ⟨ps, hbase, hps⟩ := exists_joined base
  exact ⟨ps, hps path h, hbase⟩

theorem place_of_join {base : String} {ps : List String}
    (h : base = "" ∧ ps = [] ∨ ps ≠ [] ∧ (pieces base = ps ∨ pieces base = ps ++ [""])) :
    ps.foldl move [] = place base := by
  rcases h with ⟨rfl, rfl⟩ | ⟨-, heq | heq⟩
  · rfl
  · rw [place, heq]
  · rw [place, heq, List.foldl_append]
    rfl

theorem place_join (base : String) {path : String} (h : isAbsolute path = false) :
    place (join base path) = (pieces path).foldl move (place base) := by
  obtain ⟨ps, hps, hbase⟩ := pieces_join base h
  rw [place, hps, List.foldl_append, place_of_join hbase]

/-! ## Joining names -/

theorem intercalate_cons_cons (name next : String) (names : List String) :
    ("/".intercalate (name :: next :: names)).toList =
      name.toList ++ '/' :: ("/".intercalate (next :: names)).toList := by
  rw [String.toList_intercalate, String.toList_intercalate]
  rfl

theorem pieces_intercalate {names : List String} (hne : names ≠ []) (h : ∀ name ∈ names, IsName name) :
    pieces ("/".intercalate names) = names := by
  induction names with
  | nil => exact absurd rfl hne
  | cons name names ih =>
    have hname := split_of_no_slash (h name List.mem_cons_self).no_slash
    cases names with
    | nil =>
      rw [pieces, show "/".intercalate [name] = name from rfl, hname, List.map_singleton, String.ofList_toList]
    | cons next names =>
      have hrest := ih (List.cons_ne_nil _ _) fun n hn => h n (List.mem_cons_of_mem _ hn)
      rw [pieces, intercalate_cons_cons, split_append_slash, hname, List.map_append, List.map_singleton,
        String.ofList_toList]
      exact congrArg (name :: ·) hrest

theorem isAbsolute_intercalate {names : List String} (h : ∀ name ∈ names, IsName name) :
    isAbsolute ("/".intercalate names) = false := by
  have hhead : ∀ name : String, IsName name → ∀ rest, (name.toList ++ rest).head? ≠ some '/' := by
    intro name hname rest hslash
    cases hchars : name.toList with
    | nil => exact hname.ne_empty (String.toList_eq_nil_iff.1 hchars)
    | cons c chars =>
      rw [hchars] at hslash
      have hmem : '/' ∈ name.toList := by
        rw [hchars, ← Option.some.inj hslash]
        exact List.mem_cons_self
      exact hname.no_slash hmem
  refine beq_eq_false_iff_ne.2 ?_
  cases names with
  | nil => simp [String.intercalate]
  | cons name names =>
    have hname := h name List.mem_cons_self
    cases names with
    | nil =>
      have h1 := hhead name hname []
      rw [List.append_nil] at h1
      exact h1
    | cons next names =>
      rw [intercalate_cons_cons]
      exact hhead name hname _

theorem pieces_join_names (base : String) {names : List String} (hne : names ≠ []) (h : ∀ name ∈ names, IsName name) :
    ∃ ps, pieces (join base ("/".intercalate names)) = ps ++ names ∧ ps.foldl move [] = place base := by
  obtain ⟨ps, hps, hbase⟩ := pieces_join base (isAbsolute_intercalate h)
  rw [pieces_intercalate hne h] at hps
  exact ⟨ps, hps, place_of_join hbase⟩

theorem place_join_name (base : String) {name : String} (h : IsName name) :
    place (join base name) = place base ++ [name] := by
  obtain ⟨ps, hps, hplace⟩ := pieces_join_names base (List.cons_ne_nil name [])
    fun n hn => List.mem_singleton.1 hn ▸ h
  rw [show "/".intercalate [name] = name from rfl] at hps
  rw [place, hps, List.foldl_append, hplace, List.foldl_cons, List.foldl_nil, move_name h]

theorem above_join_names (base : String) {names : List String} (hne : names ≠ []) (h : ∀ name ∈ names, IsName name) :
    above (join base ("/".intercalate names)) = place base ++ names.dropLast := by
  obtain ⟨ps, hps, hplace⟩ := pieces_join_names base hne h
  rw [above, hps, List.dropLast_append_of_ne_nil hne, List.foldl_append, hplace,
    foldl_move_names fun n hn => h n (List.dropLast_subset _ hn)]

/-! ## Changes behind the last slash -/

theorem above_replace {path : String} {ps : List String} {l : String} (h : pieces path = ps ++ [l]) :
    ∃ front, path.toList = front ++ l.toList ∧
      ∀ last, '/' ∉ last → pieces (String.ofList (front ++ last)) = ps ++ [String.ofList last] := by
  obtain ⟨qs, q, hq⟩ : ∃ qs q, split path.toList = qs ++ [q] :=
    ⟨_, _, (List.dropLast_append_getLast (split_ne_nil path.toList)).symm⟩
  rw [pieces, hq, List.map_append, List.map_singleton] at h
  obtain ⟨rfl, hl⟩ := List.append_inj' h rfl
  obtain rfl := List.singleton_inj.1 hl
  obtain ⟨front, hfront, hput⟩ := split_last qs hq
  refine ⟨front, by rw [String.toList_ofList, hfront], ?_⟩
  intro last hlast
  rw [pieces, String.toList_ofList, hput last hlast, List.map_append, List.map_singleton]

theorem exists_pieces (path : String) : ∃ ps l, pieces path = ps ++ [l] := by
  have hne : pieces path ≠ [] := by simp [pieces, split_ne_nil]
  exact ⟨_, _, (List.dropLast_append_getLast hne).symm⟩

/-- text without a slash added at the end stays behind the last slash -/
theorem above_append (path : String) {text : String} (h : '/' ∉ text.toList) : above (path ++ text) = above path := by
  obtain ⟨ps, l, hpieces⟩ := exists_pieces path
  obtain ⟨front, hfront, hput⟩ := above_replace hpieces
  have hmem : l ∈ pieces path := by rw [hpieces]; exact List.mem_append_right _ List.mem_cons_self
  have hl := no_slash_of_mem_pieces hmem
  have hlast := hput (l.toList ++ text.toList) (by simp [hl, h])
  rw [← List.append_assoc, ← hfront, ← String.toList_append, String.ofList_toList] at hlast
  rw [above, above, hlast, hpieces, List.dropLast_concat, List.dropLast_concat]

theorem above_take {path : String} {ps : List String} {l : String} (h : pieces path = ps ++ [l]) {n : Nat}
    (hn : n ≤ l.toList.length) : above (String.ofList (path.toList.take (path.length - n))) = above path := by
  obtain ⟨front, hfront, hput⟩ := above_replace h
  have hmem : l ∈ pieces path := by rw [h]; exact List.mem_append_right _ List.mem_cons_self
  have hl := no_slash_of_mem_pieces hmem
  have htake : path.toList.take (path.length - n) = front ++ l.toList.take (l.toList.length - n) := by
    rw [← String.length_toList, hfront, List.length_append, Nat.add_sub_assoc hn, List.take_append,
      List.take_of_length_le (Nat.le_add_right _ _), Nat.add_sub_cancel_left]
  rw [htake, above, above, hput _ fun hmem => hl (List.mem_of_mem_take hmem), h, List.dropLast_concat,
    List.dropLast_concat]

/-! ## Extensions -/

theorem fileName?_of_pieces {path : String} {ps : List String} {name : String} (h : pieces path = ps ++ [name])
    (hname : IsName name) : fileName? path = some name := by
  have hnamed : (pieces path).filter (fun p => p ≠ "" && p ≠ ".") =
      ps.filter (fun p => p ≠ "" && p ≠ ".") ++ [name] := by
    rw [h, List.filter_append]
    simp [hname.ne_empty, hname.ne_here]
  have hlast : (components path).getLast? = some name := by
    unfold components
    simp only [hnamed]
    split_ifs
    · rw [← List.cons_append, List.getLast?_concat]
    · rw [← List.cons_append, List.getLast?_concat]
    · rw [List.getLast?_concat]
  have hslash : name ≠ "/" := by
    rintro rfl
    exact hname.no_slash (by decide)
  simp [fileName?, hlast, hname.ne_here, hname.ne_up, hslash]

theorem length_le_of_nameExtension {name ext : String} (h : nameExtension? name = some ext) :
    ext.length ≤ name.toList.length := by
  unfold nameExtension? at h
  rw [List.span_eq_takeWhile_dropWhile] at h
  cases hdrop : name.toList.reverse.dropWhile (· ≠ '.') with
  | nil =>
    rw [hdrop] at h
    cases h
  | cons dot stem =>
    rw [hdrop] at h
    simp only [Option.ite_none_left_eq_some] at h
    obtain ⟨-, heq⟩ := h
    obtain rfl := Option.some.inj heq
    rw [← String.length_toList, String.toList_ofList, List.length_reverse]
    have hle := (List.takeWhile_sublist (· ≠ '.') : List.Sublist _ name.toList.reverse).length_le
    rwa [List.length_reverse] at hle

theorem above_withExtension {path old new : String} {ps : List String} {l : String} (h : pieces path = ps ++ [l])
    (hold : old.length ≤ l.toList.length) (hnew : '/' ∉ new.toList) :
    above (withExtension path old new) = above path := by
  have htake := above_take h hold
  simp only [withExtension]
  split_ifs
  · rw [above_append _ hnew, htake]
  · exact htake

/-! ## The last piece -/

theorem foldl_move_empty {ps : List String} (h : ∀ p ∈ ps, p = "") (place : List String) :
    ps.foldl move place = place := by
  induction ps generalizing place with
  | nil => rfl
  | cons p ps ih =>
    rw [List.foldl_cons, h p List.mem_cons_self, move_empty]
    exact ih (fun q hq => h q (List.mem_cons_of_mem _ hq)) place

theorem exists_body (ps : List String) : ∃ empties,
    ps = (ps.reverse.dropWhile fun x => decide (x = "")).reverse ++ empties ∧ (∀ p ∈ empties, p = "") ∧
      ∀ name, (ps.reverse.dropWhile fun x => decide (x = "")).reverse.getLast? = some name → name ≠ "" := by
  refine ⟨(ps.reverse.takeWhile fun x => decide (x = "")).reverse, ?_, ?_, ?_⟩
  · rw [← List.reverse_append, List.takeWhile_append_dropWhile, List.reverse_reverse]
  · intro p hp
    have hp' := List.mem_takeWhile_imp (List.mem_reverse.1 hp)
    exact of_decide_eq_true hp'
  · intro name hname
    rw [List.getLast?_reverse] at hname
    have hhead := List.head?_dropWhile_not (fun x => decide (x = "")) ps.reverse
    rw [hname] at hhead
    simpa using hhead

theorem last_ne_empty {path : String} {ps : List String} {l : String} (h : endsInSlash path = false)
    (hp : pieces path = ps ++ [l]) (hps : ps ≠ []) : l ≠ "" := by
  rintro rfl
  obtain ⟨front, hfront, hput⟩ := above_replace hp
  have hchars : path.toList = front := by simpa using hfront
  rcases List.eq_nil_or_concat front with rfl | ⟨a, c, rfl⟩
  · rw [String.toList_eq_nil_iff.1 hchars] at hp
    cases ps with
    | nil => exact hps rfl
    | cons p ps => simp [pieces, split] at hp
  · have hc : c ≠ '/' := by
      rintro rfl
      rw [endsInSlash, hchars] at h
      simp at h
    obtain ⟨qs, q, hq⟩ : ∃ qs q, split a = qs ++ [q] :=
      ⟨_, _, (List.dropLast_append_getLast (split_ne_nil a)).symm⟩
    obtain ⟨start, rfl, hput'⟩ := split_last qs hq
    have hslash : '/' ∉ q ++ [c] := by
      have := no_slash_of_mem_split (hq ▸ List.mem_append_right _ List.mem_cons_self : q ∈ split (start ++ q))
      simp [this, Ne.symm hc]
    have hsplit := hput' _ hslash
    rw [pieces, hchars, List.concat_eq_append, List.append_assoc, hsplit, List.map_append] at hp
    have hl := List.singleton_inj.1 (List.append_inj' hp rfl).2
    have := congrArg String.toList hl
    simp at this

/-! ## Plain paths -/

/-- a path that begins where it is taken from and never goes up -/
structure Plain (path : String) : Prop where
  relative : isAbsolute path = false
  no_up : ".." ∉ pieces path

/-- the pieces that count -/
def named (path : String) : List String := (pieces path).filter fun p => p ≠ "" && p ≠ "."

theorem foldl_move_plain {ps : List String} (h : ".." ∉ ps) (p : List String) :
    ps.foldl move p = p ++ ps.filter fun p => p ≠ "" && p ≠ "." := by
  induction ps generalizing p with
  | nil => exact (List.append_nil p).symm
  | cons piece ps ih =>
    obtain ⟨hpiece, hps⟩ := not_or.1 (mt List.mem_cons.2 h)
    rw [List.foldl_cons, ih hps]
    unfold move
    split_ifs with h1 h2
    · rw [List.filter_cons_of_neg (by rcases h1 with rfl | rfl <;> decide)]
    · exact absurd h2.symm hpiece
    · obtain ⟨hempty, hhere⟩ := not_or.1 h1
      rw [List.filter_cons_of_pos (by simp [hempty, hhere]), List.append_assoc]
      rfl

theorem Plain.place_join {path : String} (h : Plain path) (base : String) :
    place (join base path) = place base ++ named path := by
  rw [Path.place_join base h.relative]
  exact foldl_move_plain h.no_up _

/-- what the components of a path begin with, before its pieces that count -/
def lead (path : String) : List String :=
  if isAbsolute path then ["/"] else if (pieces path).head? = some "." then ["."] else []

theorem components_eq (path : String) : components path = lead path ++ named path := by
  unfold components lead named
  split_ifs <;> rfl

theorem lead_join {base path : String} (hbase : base ≠ "") (h : isAbsolute path = false) :
    lead (join base path) = lead base := by
  have habsolute : isAbsolute (join base path) = isAbsolute base := by
    have hne : base.toList ≠ [] := mt String.toList_eq_nil_iff.1 hbase
    have hhead : ∀ rest : List Char, (base.toList ++ rest).head? = base.toList.head? := by
      intro rest
      rw [List.head?_append_of_ne_nil _ hne]
    simp only [join, h, Bool.false_eq_true, if_false]
    split_ifs
    · rw [isAbsolute, String.toList_append, hhead, isAbsolute]
    · rw [isAbsolute, String.toList_append, String.toList_append, List.append_assoc, hhead, isAbsolute]
  have hhead : (pieces (join base path)).head? = (pieces base).head? := by
    obtain ⟨ps, hps, hcases⟩ := pieces_join base h
    obtain ⟨hne, heq⟩ := hcases.resolve_left fun hnil => hbase hnil.1
    rw [hps, List.head?_append_of_ne_nil _ hne]
    rcases heq with heq | heq
    · rw [heq]
    · rw [heq, List.head?_append_of_ne_nil _ hne]
  unfold lead
  rw [habsolute, hhead]

theorem named_join (base : String) {path : String} (h : isAbsolute path = false) :
    named (join base path) = named base ++ named path := by
  obtain ⟨ps, hps, hcases⟩ := pieces_join base h
  unfold named
  rw [hps, List.filter_append]
  congr 1
  rcases hcases with ⟨rfl, rfl⟩ | ⟨-, heq | heq⟩
  · decide
  · rw [heq]
  · rw [heq, List.filter_append]
    simp

/-- **Plain paths.** Two plain paths taken from one base are compared by their components as by their places, if the
base is not empty or both begin with `.` or neither does. -/
theorem isBelow_join_iff (base : String) {path top : String} (hpath : Plain path) (htop : Plain top)
    (hbase : base = "" → ((pieces path).head? = some "." ↔ (pieces top).head? = some ".")) :
    isBelow (join base path) (join base top) = true ↔ place (join base top) <+: place (join base path) := by
  have hlead : lead (join base top) = lead (join base path) := by
    by_cases hempty : base = ""
    · have hiff := hbase hempty
      have hjoin : ∀ x, isAbsolute x = false → join base x = x := by
        intro x hx
        simp [join, hx, hempty]
      rw [hjoin _ hpath.relative, hjoin _ htop.relative]
      simp only [lead, hpath.relative, htop.relative, hiff]
    · rw [lead_join hempty htop.relative, lead_join hempty hpath.relative]
  rw [isBelow, List.isPrefixOf_iff_prefix, components_eq, components_eq, hlead, named_join base htop.relative,
    named_join base hpath.relative, List.prefix_append_right_inj, List.prefix_append_right_inj, htop.place_join,
    hpath.place_join, List.prefix_append_right_inj]

end Path

/-! ## What a path means -/

namespace Node

/-- each entry of a way stands in the node before it -/
def Way.Sound (top : Node) : Way → Prop
  | [] => True
  | (name, node) :: rest => (Way.here top rest).get? [name] = some node ∧ Way.Sound top rest

theorem Way.names_cons (name : String) (node : Node) (way : Way) :
    Way.names ((name, node) :: way) = Way.names way ++ [name] := by
  simp [Way.names]

theorem Way.Sound.get? {top : Node} {way : Way} (h : Way.Sound top way) :
    top.get? way.names = some (Way.here top way) := by
  induction way with
  | nil => exact get?_nil top
  | cons e rest ih =>
    obtain ⟨name, node⟩ := e
    rw [Way.names_cons, get?_append, ih h.2]
    exact h.1

theorem get?_singleton (t : Node) (name : String) : t.get? [name] = t.entries.lookup name := by
  cases t with
  | file content => rfl
  | dir es => simp [entries]

/-- **Following a path.** The names passed on the way are the place that the pieces give. -/
theorem follow_place {top : Node} {ps : List String} {way way' : Way} (hway : Way.Sound top way)
    (h : follow top ps way = .ok way') : Way.Sound top way' ∧ way'.names = ps.foldl Path.move way.names := by
  induction ps generalizing way with
  | nil =>
    obtain rfl := Except.ok.inj h
    exact ⟨hway, rfl⟩
  | cons piece rest ih =>
    rw [List.foldl_cons]
    unfold follow at h
    cases hhere : Way.here top way with
    | file content =>
      rw [hhere] at h
      cases h
    | dir es =>
      simp only [hhere] at h
      unfold Path.move
      split_ifs at h ⊢ with h1 h2 h3
      · exact ih hway h
      · cases way with
        | nil => exact ih hway h
        | cons e way =>
          obtain ⟨name, node⟩ := e
          rw [Way.names_cons, List.dropLast_concat]
          exact ih hway.2 h
      · cases hchild : es.lookup piece with
        | none =>
          rw [hchild] at h
          cases h
        | some child =>
          rw [hchild] at h
          rw [← Way.names_cons piece child]
          refine ih ⟨?_, hway⟩ h
          rw [hhere, get?_singleton]
          exact hchild

theorem legalPieces_eq {path : String} {ps : List String} (h : legalPieces path = .ok ps) : ps = Path.pieces path := by
  unfold legalPieces at h
  split_ifs at h
  exact (Except.ok.inj h).symm

theorem locate_place {top : Node} {path : String} {way : Way} (h : locate top path = .ok way) :
    way.names = Path.place path ∧ top.get? (Path.place path) = some (Way.here top way) := by
  unfold locate at h
  cases hlegal : legalPieces path with
  | error fault =>
    rw [hlegal] at h
    cases h
  | ok ps =>
    rw [hlegal] at h
    have hnil : Way.Sound top [] := trivial
    obtain ⟨hsound, hnames⟩ := follow_place hnil h
    rw [legalPieces_eq hlegal] at hnames
    have hplace : way.names = Path.place path := hnames
    exact ⟨hplace, hplace ▸ hsound.get?⟩

theorem find_place {top node : Node} {path : String} (h : find top path = .ok node) :
    top.get? (Path.place path) = some node := by
  unfold find at h
  cases hlocate : locate top path with
  | error fault =>
    rw [hlocate] at h
    cases h
  | ok way =>
    rw [hlocate] at h
    rw [(locate_place hlocate).2]
    exact congrArg some (Except.ok.inj h)

/-- what is to be made is made at the place of its path; without a slash at the end of the path, in the directory that
all but the last piece lead to -/
theorem target_entry {top : Node} {path : String} {dir : List String} {name : String} {there : Option Node}
    {slashed : Bool} (h : target top path = .ok (.entry dir name there slashed)) :
    dir ++ [name] = Path.place path ∧ there = top.get? (Path.place path) ∧
      (slashed = false → dir = Path.above path) := by
  unfold target at h
  cases hlegal : legalPieces path with
  | error fault =>
    rw [hlegal] at h
    cases h
  | ok ps =>
    obtain rfl := legalPieces_eq hlegal
    simp only [hlegal] at h
    -- closing slashes leave empty pieces behind the name, and an empty piece moves nowhere
    obtain ⟨empties, hps, hempties, hlast⟩ := Path.exists_body (Path.pieces path)
    generalize ((Path.pieces path).reverse.dropWhile fun x => decide (x = "")).reverse = body at h hps hlast
    cases hname : body.getLast? with
    | none =>
      simp only [hname] at h
      cases h
    | some last =>
      simp only [hname] at h
      obtain ⟨init, rfl⟩ := List.getLast?_eq_some_iff.1 hname
      rw [List.dropLast_concat] at h
      cases hfollow : follow top (init ++ ["."]) [] with
      | error fault =>
        simp only [hfollow] at h
        cases h
      | ok way =>
        simp only [hfollow] at h
        split_ifs at h with hdots
        · cases h
        obtain ⟨hdir, rfl, hthere, hslashed⟩ := Target.entry.inj (Except.ok.inj h)
        have hnil : Way.Sound top [] := trivial
        obtain ⟨hsound, hnames⟩ := follow_place hnil hfollow
        rw [List.foldl_append] at hnames
        have hinit : dir = init.foldl Path.move [] := hdir.symm.trans hnames
        obtain ⟨hhere, hup⟩ := not_or.1 hdots
        have hmem : last ∈ Path.pieces path := by
          rw [hps]
          exact List.mem_append_left _ (List.mem_append_right _ List.mem_cons_self)
        have hlastName := Path.isName_of_piece hmem (hlast last hname) hhere hup
        have hplace : dir ++ [last] = Path.place path := by
          rw [Path.place, hps, List.foldl_append, List.foldl_append, List.foldl_cons, List.foldl_nil,
            Path.move_name hlastName, Path.foldl_move_empty hempties, hinit]
        refine ⟨hplace, ?_, ?_⟩
        · rw [← hplace, get?_append, ← hdir, hsound.get?, ← hthere, Option.bind_some, get?_singleton]
        · intro hfalse
          have hnone : empties = [] := by
            rcases List.eq_nil_or_concat empties with hnone | ⟨front, l, rfl⟩
            · exact hnone
            · rw [List.concat_eq_append, ← List.append_assoc] at hps
              have hl := Path.last_ne_empty (hslashed.trans hfalse) hps
                (fun h => by simp at h)
              exact absurd (hempties l (by simp)) hl
          rw [hnone, List.append_nil] at hps
          rw [Path.above, hps, List.dropLast_concat, hinit]

end Node

end Respell
