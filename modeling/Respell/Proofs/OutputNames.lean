/-
Where the outputs of a file go. A file carries its names, from the directory of sources down, over to the output
directory (`place_join_names`); a source `stem.neha` becomes `stem.ts` or `stem.tsx` there (`pieces_withExtension`),
and its map stands beside it (`pieces_append`). The one name that cannot be changed so is `..neha`: what is left of it
leads up, and nothing can be written there.

The components of a walked path are those of where the walk began and the names passed since
(`components_join_names`), so a walk knows a directory again by its components only where it is written in the same
way.
-/
import Respell.Project.Build
import Respell.Proofs.TreeFiles

namespace Respell

open Node

/-! ## Names of sources -/

/-- what follows the last dot of a name, and what comes before it -/
theorem Path.nameExtension?_eq_some_iff {name ext : String} (hext : '.' ∉ ext.toList) :
    Path.nameExtension? name = some ext ↔ ∃ stem, stem ≠ "" ∧ name = stem ++ ("." ++ ext) := by
  unfold Path.nameExtension?
  rw [List.span_eq_takeWhile_dropWhile]
  constructor
  · intro h
    have happ := List.takeWhile_append_dropWhile (p := fun c => decide (c ≠ '.')) (l := name.toList.reverse)
    have hhead := List.head?_dropWhile_not (fun c => decide (c ≠ '.')) name.toList.reverse
    generalize name.toList.reverse.takeWhile (fun c => decide (c ≠ '.')) = last at h happ
    generalize name.toList.reverse.dropWhile (fun c => decide (c ≠ '.')) = front at h happ hhead
    cases front with
    | nil => cases h
    | cons dot stem =>
      simp only [Option.ite_none_left_eq_some] at h
      obtain ⟨hne, heq⟩ := h
      obtain rfl : dot = '.' := by simpa using hhead
      refine ⟨String.ofList stem.reverse, by simpa using hne, ?_⟩
      have hchars : name.toList = stem.reverse ++ ('.' :: last.reverse) := by
        rw [← List.reverse_reverse name.toList, ← happ]
        simp
      rw [← String.toList_inj, hchars, ← Option.some.inj heq]
      simp
  · rintro ⟨stem, hne, rfl⟩
    have hrev : (stem ++ ("." ++ ext)).toList.reverse = ext.toList.reverse ++ '.' :: stem.toList.reverse := by
      simp
    have hpass : ∀ c ∈ ext.toList.reverse, decide (c ≠ '.') = true := by
      intro c hc
      refine decide_eq_true ?_
      rintro rfl
      exact hext (List.mem_reverse.1 hc)
    rw [hrev, List.takeWhile_append_of_pos hpass, List.dropWhile_append_of_pos hpass]
    simp [hne]

theorem nameExtension?_source_iff {name : String} :
    Path.nameExtension? name = some sourceExtension ↔ ∃ stem, stem ≠ "" ∧ name = stem ++ ".neha" :=
  Path.nameExtension?_eq_some_iff (by decide)

/-- the path of names ends in the name of a source -/
def namesSource (names : List String) : Bool :=
  (names.getLast?.bind Path.nameExtension?) == some sourceExtension

theorem namesSource_iff {names : List String} :
    namesSource names = true ↔ ∃ dir stem, stem ≠ "" ∧ names = dir ++ [stem ++ ".neha"] := by
  rw [namesSource, beq_iff_eq]
  constructor
  · intro h
    obtain ⟨name, hlast, hext⟩ := Option.bind_eq_some_iff.1 h
    obtain ⟨dir, rfl⟩ := List.getLast?_eq_some_iff.1 hlast
    obtain ⟨stem, hne, rfl⟩ := nameExtension?_source_iff.1 hext
    exact ⟨dir, stem, hne, rfl⟩
  · rintro ⟨dir, stem, hne, rfl⟩
    rw [List.getLast?_concat]
    exact nameExtension?_source_iff.2 ⟨stem, hne, rfl⟩

theorem isSource_join {dir name : String} (hname : IsName name) (names : List String) :
    isSource (Path.join dir name) = namesSource (names ++ [name]) := by
  obtain ⟨ps, hps, -⟩ := Path.pieces_join_names dir (List.cons_ne_nil name []) fun n hn =>
    List.mem_singleton.1 hn ▸ hname
  rw [show "/".intercalate [name] = name from rfl] at hps
  rw [isSource, Path.extension?, Path.fileName?_of_pieces hps hname, namesSource, List.getLast?_concat]

namespace Path

/-! ## Places of outputs -/

theorem place_join_names (base : String) {names : List String} (hne : names ≠ []) (h : ∀ name ∈ names, IsName name) :
    place (join base ("/".intercalate names)) = place base ++ names := by
  obtain ⟨ps, hps, hplace⟩ := pieces_join_names base hne h
  rw [place, hps, List.foldl_append, hplace, foldl_move_names h]

/-- text without a slash at the end of a path belongs to its last piece -/
theorem pieces_append {path text : String} {ps : List String} {l : String} (h : pieces path = ps ++ [l])
    (ht : '/' ∉ text.toList) : pieces (path ++ text) = ps ++ [l ++ text] := by
  obtain ⟨front, hfront, hput⟩ := above_replace h
  have hmem : l ∈ pieces path := by
    rw [h]
    exact List.mem_append_right _ List.mem_cons_self
  have hlast := hput (l.toList ++ text.toList) (by simp [no_slash_of_mem_pieces hmem, ht])
  rw [← List.append_assoc, ← hfront, ← String.toList_append, String.ofList_toList, ← String.toList_append,
    String.ofList_toList] at hlast
  exact hlast

/-- a path without the extension at its end, up to the dot -/
theorem pieces_cut {path stem ext : String} {ps : List String} (h : pieces path = ps ++ [stem ++ ext]) :
    pieces (String.ofList (path.toList.take (path.length - ext.length))) = ps ++ [stem] := by
  obtain ⟨front, hfront, hput⟩ := above_replace h
  have hmem : stem ++ ext ∈ pieces path := by
    rw [h]
    exact List.mem_append_right _ List.mem_cons_self
  have hslash : '/' ∉ stem.toList := by
    have hno := no_slash_of_mem_pieces hmem
    rw [String.toList_append] at hno
    exact fun hin => hno (List.mem_append_left _ hin)
  have htake : path.toList.take (path.length - ext.length) = front ++ stem.toList := by
    have hlen : path.length - ext.length = (front ++ stem.toList).length := by
      rw [← String.length_toList, ← String.length_toList, hfront, String.toList_append]
      simp
      omega
    rw [hlen, hfront, String.toList_append, ← List.append_assoc, List.take_left]
  rw [htake, hput _ hslash, String.ofList_toList]

/-- **A source under another extension.** What is left of `..neha` leads up. -/
theorem pieces_withExtension {path stem new : String} {ps : List String} (h : pieces path = ps ++ [stem ++ ".neha"])
    (hstem : stem ≠ "") (hnew : '/' ∉ new.toList) :
    (stem = "." ∧ pieces (withExtension path sourceExtension new) = ps ++ [".."]) ∨
      (stem ≠ "." ∧ pieces (withExtension path sourceExtension new) = ps ++ [stem ++ ("." ++ new)]) := by
  have hpath : pieces path = ps ++ [(stem ++ ".") ++ sourceExtension] := by
    rw [h, String.append_assoc]
    rfl
  have hcut := pieces_cut hpath
  have hmem : stem ++ ".neha" ∈ pieces path := by
    rw [h]
    exact List.mem_append_right _ List.mem_cons_self
  have hslash := no_slash_of_mem_pieces hmem
  rw [String.toList_append] at hslash
  simp only [withExtension]
  -- cut short, `..neha` is `..`, which is no file name and so takes no new extension
  by_cases hdot : stem = "."
  · subst hdot
    have hnone : fileName? (String.ofList (path.toList.take (path.length - sourceExtension.length))) = none := by
      have hnamed : ((ps ++ [".."]).filter fun p => p ≠ "" && p ≠ ".") =
          (ps.filter fun p => p ≠ "" && p ≠ ".") ++ [".."] := by
        rw [List.filter_append]
        rfl
      have hlast : (components (String.ofList (path.toList.take (path.length - sourceExtension.length)))).getLast? =
          some ".." := by
        unfold components
        rw [hcut, show "." ++ "." = ".." from rfl]
        simp only [hnamed]
        split_ifs
        · rw [← List.cons_append, List.getLast?_concat]
        · rw [← List.cons_append, List.getLast?_concat]
        · rw [List.getLast?_concat]
      simp [fileName?, hlast]
    rw [hnone]
    exact .inl ⟨rfl, hcut⟩
  · have hname : IsName (stem ++ ".") := by
      refine ⟨?_, ?_, ?_, ?_⟩
      · simp
      · intro heq
        exact hstem (String.append_left_inj "." |>.1 (heq.trans (String.empty_append).symm))
      · intro heq
        exact hdot (String.append_left_inj "." |>.1 (heq.trans (show ".." = "." ++ "." from rfl)))
      · rw [String.toList_append]
        simp only [List.mem_append, not_or] at hslash ⊢
        exact ⟨hslash.1, by decide⟩
    rw [fileName?_of_pieces hcut hname]
    refine .inr ⟨hdot, ?_⟩
    rw [Option.isSome_some, if_pos rfl, pieces_append hcut hnew, String.append_assoc]

/-! ## Walked paths -/

theorem join_ne_empty {base name : String} (hname : IsName name) : join base name ≠ "" := by
  intro h
  have hplace := place_join_name base hname
  rw [h] at hplace
  simp [place, pieces, split] at hplace

theorem components_join_names {base : String} (hbase : base ≠ "") {names : List String} (hne : names ≠ [])
    (h : ∀ name ∈ names, IsName name) : components (join base ("/".intercalate names)) = components base ++ names := by
  have hrelative := isAbsolute_intercalate h
  have hnamed : named ("/".intercalate names) = names := by
    rw [named, pieces_intercalate hne h, List.filter_eq_self]
    intro name hname
    simp [(h name hname).ne_empty, (h name hname).ne_here]
  rw [components_eq, lead_join hbase hrelative, named_join base hrelative, hnamed, ← List.append_assoc, ← components_eq]

theorem components_join_name {base name : String} (hbase : base ≠ "") (hname : IsName name) :
    components (join base name) = components base ++ [name] := by
  have h := components_join_names hbase (List.cons_ne_nil name []) fun n hn => List.mem_singleton.1 hn ▸ hname
  rwa [show "/".intercalate [name] = name from rfl] at h

theorem place_eq_foldl_named (path : String) : place path = (named path).foldl move [] := by
  unfold place named
  generalize ([] : List String) = p
  induction pieces path generalizing p with
  | nil => rfl
  | cons piece ps ih =>
    rw [List.foldl_cons, ih]
    by_cases hskip : piece = "" ∨ piece = "."
    · rw [List.filter_cons_of_neg (by rcases hskip with rfl | rfl <;> decide), move, if_pos hskip]
    · obtain ⟨hempty, hhere⟩ := not_or.1 hskip
      rw [List.filter_cons_of_pos (by simp [hempty, hhere]), List.foldl_cons]

theorem named_eq_filter (path : String) : named path = (components path).filter fun p => p ≠ "/" && p ≠ "." := by
  have hkeep : (named path).filter (fun p => p ≠ "/" && p ≠ ".") = named path := by
    rw [List.filter_eq_self]
    intro piece hpiece
    obtain ⟨hmem, hnamed⟩ := List.mem_filter.1 hpiece
    have hslash : piece ≠ "/" := by
      rintro rfl
      exact no_slash_of_mem_pieces hmem (by decide)
    simp only [Bool.and_eq_true, decide_eq_true_eq] at hnamed ⊢
    exact ⟨hslash, hnamed.2⟩
  rw [components_eq, List.filter_append, hkeep]
  unfold lead
  split_ifs <;> rfl

theorem place_eq_of_components {a b : String} (h : components a = components b) : place a = place b := by
  rw [place_eq_foldl_named, place_eq_foldl_named, named_eq_filter, named_eq_filter, h]

end Path

end Respell
