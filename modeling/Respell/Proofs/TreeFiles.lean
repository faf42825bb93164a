/-
A tree as the files in it. `bytesAt t p` is the content of the file at place `p`, if there is a file; what an
operation does to a tree is said by what it does to this view. Making directories changes no file (`Grows.bytesAt`),
writing puts one file (`write_puts`), copying puts the bytes of another one (`copy_puts`), and removing a directory
takes away what is at its place and below, and nothing else (`removeTree_clears`).

A walk meets everything below a node (`mem_contents_iff`). The listing of files that it meets is the view in order: it
holds the places of all files (`mem_files_iff`), and they increase (`files_pairwise`). So two trees with the same
files below a node are listed alike (`files_filter_congr`).
-/
import Respell.Proofs.DiskFrames
import Mathlib.Data.List.Sort

namespace Respell

namespace Node

/-! ## The view -/

def bytesAt (t : Node) (p : List String) : Option Bytes := (t.get? p).bind content?

theorem bytesAt_eq_some_iff {t : Node} {p : List String} {content : Bytes} :
    t.bytesAt p = some content ↔ t.get? p = some (.file content) := by
  unfold bytesAt
  cases t.get? p with
  | none => simp
  | some node => cases node <;> simp [content?]

theorem bytesAt_append {t node : Node} {p : List String} (h : t.get? p = some node) (q : List String) :
    t.bytesAt (p ++ q) = node.bytesAt q := by
  rw [bytesAt, get?_append, h, Option.bind_some]
  rfl

/-- nothing is below a file, and nothing below what is not there -/
theorem bytesAt_below {t : Node} {p : List String} (h : ∀ es, t.get? p ≠ some (.dir es)) {q : List String}
    (hq : q ≠ []) : t.bytesAt (p ++ q) = none := by
  rw [bytesAt, get?_append]
  cases hp : t.get? p with
  | none => rfl
  | some node =>
    cases node with
    | dir es => exact absurd hp (h es)
    | file content =>
      cases q with
      | nil => exact absurd rfl hq
      | cons name q => rfl

theorem bytesAt_congr {t u : Node} {p q : List String}
    (h : ∀ content, t.get? p = some (.file content) ↔ u.get? q = some (.file content)) : t.bytesAt p = u.bytesAt q := by
  apply Option.ext
  intro content
  rw [bytesAt_eq_some_iff, bytesAt_eq_some_iff]
  exact h content

/-! ## Putting and removing -/

/-- a node that is put changes no file that is not below its place -/
theorem bytesAt_put_of_not_prefix (t : Node) {q p : List String} (new : Node) (h : ¬ q <+: p) :
    (t.put q new).bytesAt p = t.bytesAt p := by
  induction q generalizing t p with
  | nil => exact absurd List.nil_prefix h
  | cons name q ih =>
    cases t with
    | file content => rfl
    | dir es =>
      cases p with
      | nil => rfl
      | cons first p =>
        unfold bytesAt
        rw [Node.put, get?_dir, get?_dir, lookup_insertEntry]
        by_cases heq : first = name
        · subst heq
          have hin : ¬ q <+: p := fun hq => h (List.cons_prefix_cons.2 ⟨rfl, hq⟩)
          rw [if_pos rfl, Option.bind_some]
          refine (ih ((es.lookup first).getD .empty) hin).trans ?_
          cases hc : es.lookup first with
          | some child => rfl
          | none =>
            cases p with
            | nil => rfl
            | cons next p => rfl
        · rw [if_neg heq]

theorem get?_put {t : Node} {dir : List String} {es : List (String × Node)} (h : t.get? dir = some (.dir es))
    (name : String) (new : Node) : (t.put (dir ++ [name]) new).get? (dir ++ [name]) = some new := by
  induction dir generalizing t with
  | nil =>
    obtain rfl := Option.some.inj ((get?_nil t).symm.trans h)
    have hput : ∀ t : Node, t.put [] new = new := by
      intro t
      cases t <;> rfl
    rw [List.nil_append, Node.put, get?_dir, lookup_insertEntry, if_pos rfl, Option.bind_some, hput, get?_nil]
  | cons first dir ih =>
    cases t with
    | file content => cases h
    | dir entries =>
      obtain ⟨child, hchild, hdir⟩ := Option.bind_eq_some_iff.1 (get?_dir entries first dir ▸ h)
      rw [List.cons_append, Node.put, get?_dir, lookup_insertEntry, if_pos rfl, Option.bind_some, hchild]
      exact ih hdir

theorem bytesAt_erase_of_not_prefix (t : Node) {q p : List String} (h : ¬ q <+: p) :
    (t.erase q).bytesAt p = t.bytesAt p :=
  bytesAt_congr fun content => ⟨get?_erase, kept_erase t q p content h⟩

theorem Bare.bytesAt {zone : List String} {t : Node} (h : Bare zone t) {p : List String} (hp : zone <+: p) :
    t.bytesAt p = none := by
  refine Option.eq_none_iff_forall_ne_some.2 fun content hc => ?_
  exact h p content hp (bytesAt_eq_some_iff.1 hc)

/-! ## Ways -/

theorem follow_append (top : Node) (ps qs : List String) (way : Way) :
    follow top (ps ++ qs) way = (follow top ps way).bind (follow top qs) := by
  induction ps generalizing way with
  | nil => rfl
  | cons piece ps ih =>
    rw [List.cons_append, follow, follow]
    cases Way.here top way with
    | file content => rfl
    | dir es =>
      simp only
      split_ifs
      · exact ih way
      · exact ih way.tail
      · rfl
      · cases es.lookup piece with
        | none => rfl
        | some child => exact ih _

theorem target_dir {top : Node} {path : String} {dir : List String} {name : String} {there : Option Node}
    {slashed : Bool} (h : target top path = .ok (.entry dir name there slashed)) :
    ∃ es, top.get? dir = some (.dir es) := by
  unfold target at h
  cases hlegal : legalPieces path with
  | error fault =>
    rw [hlegal] at h
    cases h
  | ok ps =>
    simp only [hlegal] at h
    generalize (ps.reverse.dropWhile fun x => decide (x = "")).reverse = body at h
    cases hname : body.getLast? with
    | none =>
      simp only [hname] at h
      cases h
    | some last =>
      simp only [hname] at h
      cases hfollow : follow top (body.dropLast ++ ["."]) [] with
      | error fault =>
        simp only [hfollow] at h
        cases h
      | ok way =>
        simp only [hfollow] at h
        split_ifs at h with hdots
        · cases h
        obtain ⟨rfl, -, -, -⟩ := Target.entry.inj (Except.ok.inj h)
        have hnil : Way.Sound top [] := trivial
        have hplace := (follow_place hnil hfollow).1.get?
        rw [follow_append] at hfollow
        cases hinit : follow top body.dropLast [] with
        | error fault =>
          rw [hinit] at hfollow
          cases hfollow
        | ok way' =>
          -- the last piece is `.`, which stays where it is and needs a directory
          rw [hinit] at hfollow
          change follow top ["."] way' = .ok way at hfollow
          unfold follow at hfollow
          cases hhere : Way.here top way' with
          | file content =>
            rw [hhere] at hfollow
            cases hfollow
          | dir es =>
            simp only [hhere] at hfollow
            obtain rfl : way' = way := Except.ok.inj hfollow
            exact ⟨es, hhere ▸ hplace⟩

/-- nothing is made at a path that ends in `..` -/
theorem target_up {top : Node} {path : String} {ps : List String} (hp : Path.pieces path = ps ++ [".."])
    {dir : List String} {name : String} {there : Option Node} {slashed : Bool} :
    target top path ≠ .ok (.entry dir name there slashed) := by
  intro h
  unfold target at h
  cases hlegal : legalPieces path with
  | error fault =>
    rw [hlegal] at h
    cases h
  | ok qs =>
    obtain rfl := legalPieces_eq hlegal
    have hbody : ((Path.pieces path).reverse.dropWhile fun x => decide (x = "")).reverse = ps ++ [".."] := by
      rw [hp, List.reverse_append]
      simp
    simp only [hlegal, hbody, List.getLast?_concat, List.dropLast_concat] at h
    cases hfollow : follow top (ps ++ ["."]) [] with
    | error fault =>
      simp only [hfollow] at h
      cases h
    | ok way =>
      simp [hfollow] at h

end Node

open Node

namespace Disk

/-! ## Operations -/

/-- the files of `after` are those of `before`, with one at `p` -/
def Puts (p : List String) (content : Bytes) (before after : Node) : Prop :=
  ∀ q, after.bytesAt q = if q = p then some content else before.bytesAt q

theorem Grows.bytesAt {before after : Node} (h : Grows before after) (p : List String) :
    after.bytesAt p = before.bytesAt p := by
  induction h with
  | refl => rfl
  | tail _ hstep ih =>
    obtain ⟨q, -, hnone, rfl⟩ := hstep
    rw [← ih]
    by_cases hq : q <+: p
    · rw [(bare_put_empty _ q).bytesAt hq]
      obtain ⟨rest, rfl⟩ := hq
      rw [Node.bytesAt, get?_append, hnone]
      rfl
    · exact bytesAt_put_of_not_prefix _ _ hq

theorem makeDir_there {top after : Node} {path : String} (h : makeDir top path = .ok after) :
    after.get? (Path.place path) = some .empty := by
  unfold makeDir at h
  cases htarget : top.target path with
  | error fault =>
    rw [htarget] at h
    cases h
  | ok target =>
    cases target with
    | directory =>
      rw [htarget] at h
      cases h
    | entry dir name there slashed =>
      simp only [htarget] at h
      obtain ⟨es, hdir⟩ := target_dir htarget
      split_ifs at h with hsome hfits
      obtain rfl := Except.ok.inj h
      rw [← (target_entry htarget).1]
      exact get?_put hdir name .empty

theorem isDir_there {top : Node} {path : String} (h : isDir top path = true) :
    ∃ es, top.get? (Path.place path) = some (.dir es) := by
  unfold isDir at h
  cases hfind : top.find path with
  | error fault =>
    rw [hfind] at h
    cases h
  | ok node =>
    cases node with
    | file content =>
      rw [hfind] at h
      cases h
    | dir es => exact ⟨es, find_place hfind⟩

theorem ensureDir_there {top : Node} {path : String} (h : (ensureDir top path).2 = .ok ()) :
    ∃ es, (ensureDir top path).1.get? (Path.place path) = some (.dir es) := by
  unfold ensureDir at h ⊢
  cases hmake : makeDir top path with
  | ok after => exact ⟨[], makeDir_there hmake⟩
  | error fault =>
    simp only [hmake] at h ⊢
    split_ifs at h with hdir
    exact isDir_there hdir

theorem makeDirs_there {top : Node} {path : String} (hpath : path ≠ "") (h : (makeDirs top path).2 = .ok ()) :
    ∃ es, (makeDirs top path).1.get? (Path.place path) = some (.dir es) := by
  unfold makeDirs makeDirsWithin at h ⊢
  rw [if_neg hpath] at h ⊢
  cases hmake : makeDir top path with
  | ok after => exact ⟨[], makeDir_there hmake⟩
  | error fault =>
    simp only [hmake] at h ⊢
    cases fault with
    | notFound =>
      generalize makeDirsWithin _ top ((Path.parent? path).getD "") = up at h ⊢
      obtain ⟨above, outcome⟩ := up
      cases outcome with
      | error fault => cases h
      | ok _ => exact ensureDir_there h
    | _ =>
      simp only at h ⊢
      split_ifs at h with hdir
      exact isDir_there hdir

/-- **Writing** puts one file at the place of its path. -/
theorem write_puts {top after : Node} {path : String} {content : Bytes} (h : write top path content = .ok after) :
    Puts (Path.place path) content top after := by
  unfold write at h
  cases htarget : top.target path with
  | error fault =>
    rw [htarget] at h
    cases h
  | ok target =>
    cases target with
    | directory =>
      rw [htarget] at h
      cases h
    | entry dir name there slashed =>
      simp only [htarget] at h
      obtain ⟨hplace, hthere, -⟩ := target_entry htarget
      obtain ⟨es, hdir⟩ := target_dir htarget
      split_ifs at h with hdirectory hfits
      obtain rfl := Except.ok.inj h
      rw [← hplace] at hthere ⊢
      have hput := get?_put hdir name (.file content)
      intro q
      by_cases hq : dir ++ [name] <+: q
      · obtain ⟨rest, rfl⟩ := hq
        by_cases hrest : rest = []
        · rw [hrest, List.append_nil, if_pos rfl]
          exact bytesAt_eq_some_iff.2 hput
        · -- below the file there is nothing, and there was nothing
          have hne : dir ++ [name] ++ rest ≠ dir ++ [name] := by simpa using hrest
          have hnone : ∀ es, top.get? (dir ++ [name]) ≠ some (.dir es) := by
            intro es hsome
            rw [hsome] at hthere
            simp [hthere, Node.isDir] at hdirectory
          rw [if_neg hne, bytesAt_below hnone hrest]
          exact bytesAt_below (fun es hes => by cases hput.symm.trans hes) hrest
      · have hne : q ≠ dir ++ [name] := by
          rintro rfl
          exact hq List.prefix_rfl
        rw [if_neg hne]
        exact bytesAt_put_of_not_prefix top _ hq

theorem write_up {top : Node} {path : String} {ps : List String} (hp : Path.pieces path = ps ++ [".."])
    {content : Bytes} {after : Node} : write top path content ≠ .ok after := by
  intro h
  unfold write at h
  cases htarget : top.target path with
  | error fault =>
    rw [htarget] at h
    cases h
  | ok target =>
    cases target with
    | directory =>
      rw [htarget] at h
      cases h
    | entry dir name there slashed => exact target_up hp htarget

theorem readBytes_eq {top : Node} {path : String} {content : Bytes} (h : readBytes top path = .ok content) :
    top.bytesAt (Path.place path) = some content := by
  unfold readBytes at h
  cases hfind : top.find path with
  | error fault =>
    rw [hfind] at h
    cases h
  | ok node =>
    cases node with
    | dir es =>
      rw [hfind] at h
      cases h
    | file bytes =>
      rw [hfind] at h
      obtain rfl := Except.ok.inj h
      exact bytesAt_eq_some_iff.2 (find_place hfind)

theorem readText_eq {top : Node} {path text : String} (h : readText top path = .ok text) :
    ∃ content, top.bytesAt (Path.place path) = some content ∧ content.string? = some text := by
  unfold readText at h
  cases hread : readBytes top path with
  | error fault =>
    rw [hread] at h
    cases h
  | ok content =>
    simp only [hread] at h
    cases htext : content.string? with
    | none =>
      rw [htext] at h
      cases h
    | some string =>
      rw [htext] at h
      obtain rfl := Except.ok.inj h
      exact ⟨content, readBytes_eq hread, htext⟩

/-- **Copying** puts the bytes of a file at another place. -/
theorem copy_puts {top after : Node} {path dest : String} (h : copy top path dest = .ok after)
    (hne : Path.place path ≠ Path.place dest) :
    ∃ content, top.bytesAt (Path.place path) = some content ∧ Puts (Path.place dest) content top after := by
  unfold copy at h
  cases hread : readBytes top path with
  | error fault =>
    rw [hread] at h
    cases h
  | ok content =>
    cases hempty : write top dest #[] with
    | error fault =>
      simp only [hread, hempty] at h
      cases h
    | ok emptied =>
      cases hagain : readBytes emptied path with
      | error fault =>
        simp only [hread, hempty, hagain, bind, Except.bind] at h
        cases h
      | ok content' =>
        simp only [hread, hempty, hagain, bind, Except.bind] at h
        have hputs := write_puts hempty
        have hsame : content' = content := by
          have hbytes := hputs (Path.place path)
          rw [if_neg hne, readBytes_eq hagain, readBytes_eq hread] at hbytes
          exact Option.some.inj hbytes
        subst hsame
        refine ⟨content', readBytes_eq hread, ?_⟩
        intro q
        rw [write_puts h q, hputs q]
        by_cases hq : q = Path.place dest
        · rw [if_pos hq, if_pos hq]
        · rw [if_neg hq, if_neg hq, if_neg hq]

theorem removeTree_isDir {top : Node} {path : String} (h : (removeTree top path).2 = .ok ()) :
    isDir top path = true := by
  by_contra hnot
  unfold removeTree at h
  cases hlocate : top.locate path with
  | error fault =>
    rw [hlocate] at h
    cases h
  | ok way =>
    simp only [hlocate] at h
    cases hhere : Way.here top way with
    | file content =>
      simp only [hhere] at h
      cases h
    | dir es => simp [isDir, find, hlocate, hhere, Except.map, Node.isDir] at hnot

/-- **Removing** a directory takes the files away that are at its place and below, and no other. -/
theorem removeTree_clears {top : Node} {path : String} (h : (removeTree top path).2 = .ok ()) (q : List String) :
    (removeTree top path).1.bytesAt q = if Path.place path <+: q then none else top.bytesAt q := by
  by_cases hq : Path.place path <+: q
  · rw [if_pos hq]
    exact (removeTree_bare (removeTree_isDir h)).bytesAt hq
  · rw [if_neg hq]
    rcases removeTree_cases top path with ⟨heq, -⟩ | ⟨_, rfl, heq | heq⟩
    · rw [heq]
    · rw [heq]
      exact bytesAt_put_of_not_prefix top _ hq
    · rw [heq, bytesAt_erase_of_not_prefix _ hq]
      exact bytesAt_put_of_not_prefix top _ hq

end Disk

namespace Node

/-! ## Listings -/

theorem contents_dir (es : List (String × Node)) : (Node.dir es).contents = es.flatMap entryContents := by
  rw [contents]
  induction es with
  | nil => rfl
  | cons e es ih => rw [allContents, ih, List.flatMap_cons]

theorem mem_entryContents {e : String × Node} {p : List String} {content : Option Bytes} :
    (p, content) ∈ entryContents e ↔
      ∃ q, p = e.1 :: q ∧ (q = [] ∧ e.2.content? = content ∨ (q, content) ∈ e.2.contents) := by
  obtain ⟨name, node⟩ := e
  rw [entryContents, List.mem_cons, List.mem_map, Prod.mk.injEq]
  constructor
  · rintro (⟨rfl, rfl⟩ | ⟨⟨q, c⟩, hq, heq⟩)
    · exact ⟨[], rfl, .inl ⟨rfl, rfl⟩⟩
    · obtain ⟨rfl, rfl⟩ := Prod.mk.inj heq
      exact ⟨q, rfl, .inr hq⟩
  · rintro ⟨q, rfl, ⟨rfl, rfl⟩ | hq⟩
    · exact .inl ⟨rfl, rfl⟩
    · exact .inr ⟨(q, content), hq, rfl⟩

/-- **A walk meets everything below a node.** -/
theorem mem_contents_iff {t : Node} (h : t.Proper) {p : List String} {content : Option Bytes} :
    (p, content) ∈ t.contents ↔ p ≠ [] ∧ ∃ node, t.get? p = some node ∧ node.content? = content := by
  induction h generalizing p with
  | file =>
    cases p with
    | nil => simp [contents]
    | cons name p => simp [contents]
  | @dir es names increasing below ih =>
    rw [contents_dir, List.mem_flatMap]
    constructor
    · rintro ⟨⟨name, child⟩, he, hp⟩
      obtain ⟨q, rfl, hq⟩ := mem_entryContents.1 hp
      refine ⟨List.cons_ne_nil _ _, ?_⟩
      rw [get?_dir, lookup_of_mem increasing he, Option.bind_some]
      rcases hq with ⟨rfl, hcontent⟩ | hq
      · exact ⟨child, get?_nil child, hcontent⟩
      · exact ((ih _ he).1 hq).2
    · rintro ⟨hne, node, hnode, hcontent⟩
      cases p with
      | nil => exact absurd rfl hne
      | cons name q =>
        obtain ⟨child, hchild, hq⟩ := Option.bind_eq_some_iff.1 (get?_dir es name q ▸ hnode)
        have he := mem_of_lookup hchild
        refine ⟨(name, child), he, mem_entryContents.2 ⟨q, rfl, ?_⟩⟩
        by_cases hnil : q = []
        · subst hnil
          obtain rfl := Option.some.inj ((get?_nil child).symm.trans hq)
          exact .inl ⟨rfl, hcontent⟩
        · exact .inr ((ih _ he).2 ⟨hnil, node, hq, hcontent⟩)

/-- **A listing holds all files.** -/
theorem mem_files_iff {t : Node} (h : t.Proper) {p : List String} :
    p ∈ t.files ↔ p ≠ [] ∧ (t.bytesAt p).isSome = true := by
  have hfiles : p ∈ t.files ↔ ∃ content, (p, some content) ∈ t.contents := by
    unfold files
    simp [List.mem_filterMap]
  rw [hfiles]
  simp only [mem_contents_iff h, bytesAt, Option.isSome_iff_exists, Option.bind_eq_some_iff, exists_and_left]

theorem mem_directories_iff {t : Node} (h : t.Proper) {p : List String} :
    p ∈ t.directories ↔ p ≠ [] ∧ ∃ es, t.get? p = some (.dir es) := by
  have hdirs : p ∈ t.directories ↔ (p, none) ∈ t.contents := by
    unfold directories
    simp [List.mem_filterMap]
  rw [hdirs, mem_contents_iff h]
  refine and_congr_right fun _ => ⟨?_, ?_⟩
  · rintro ⟨node, hnode, hcontent⟩
    cases node with
    | file content => cases hcontent
    | dir es => exact ⟨es, hnode⟩
  · rintro ⟨es, hes⟩
    exact ⟨.dir es, hes, rfl⟩

/-- the files of an entry: the entry itself, or what is below it -/
def entryFiles (e : String × Node) : List (List String) :=
  (e.2.content?.toList.map fun _ => [e.1]) ++ e.2.files.map (e.1 :: ·)

theorem files_file (content : Bytes) : (Node.file content).files = [] := by
  simp [files, contents]

theorem files_dir (es : List (String × Node)) : (Node.dir es).files = es.flatMap entryFiles := by
  unfold files
  rw [contents_dir, List.filterMap_flatMap]
  congr 1
  funext e
  obtain ⟨name, node⟩ := e
  rw [entryContents, entryFiles, List.filterMap_cons, List.filterMap_map]
  cases node with
  | file content => simp [content?, files, contents]
  | dir es' =>
    simp only [content?, files, Option.map_none, Option.toList_none, List.map_nil, List.nil_append, List.map_filterMap]
    congr 1
    funext x
    obtain ⟨place, content⟩ := x
    cases content <;> rfl

theorem head_of_mem_entryFiles {e : String × Node} {p : List String} (h : p ∈ entryFiles e) : ∃ q, p = e.1 :: q := by
  unfold entryFiles at h
  simp only [List.mem_append, List.mem_map] at h
  rcases h with ⟨-, -, rfl⟩ | ⟨q, -, rfl⟩
  · exact ⟨[], rfl⟩
  · exact ⟨q, rfl⟩

/-- **A listing increases** in the order of paths, name by name. -/
theorem files_pairwise {t : Node} (h : t.Proper) : t.files.Pairwise (· < ·) := by
  induction h with
  | file =>
    rw [files_file]
    exact .nil
  | @dir es names increasing below ih =>
    rw [files_dir, List.pairwise_flatMap]
    constructor
    · rintro ⟨name, child⟩ he
      have hchild := ih _ he
      cases child with
      | file content => simp [entryFiles, content?, files_file]
      | dir es' =>
        simp only [entryFiles, content?, Option.toList_none, List.map_nil, List.nil_append, List.pairwise_map]
        exact hchild.imp fun hlt => List.cons_lt_cons_iff.2 (.inr ⟨rfl, hlt⟩)
    · refine increasing.imp ?_
      intro a b hlt p hp q hq
      obtain ⟨p', rfl⟩ := head_of_mem_entryFiles hp
      obtain ⟨q', rfl⟩ := head_of_mem_entryFiles hq
      exact List.cons_lt_cons_iff.2 (.inl hlt)

/-- two nodes with the same files at the places that `keep` admits are listed alike there -/
theorem files_filter_congr {t u : Node} (ht : t.Proper) (hu : u.Proper) {keep : List String → Bool}
    (h : ∀ p, keep p = true → t.bytesAt p = u.bytesAt p) : t.files.filter keep = u.files.filter keep := by
  refine List.Perm.eq_of_pairwise ?_ ((files_pairwise ht).filter _) ((files_pairwise hu).filter _) ?_
  · intro a b _ _ hab hba
    exact absurd (hab.trans hba) (lt_irrefl a)
  · refine (List.perm_ext_iff_of_nodup ?_ ?_).2 ?_
    · exact ((files_pairwise ht).imp ne_of_lt).filter _
    · exact ((files_pairwise hu).imp ne_of_lt).filter _
    · intro p
      simp only [List.mem_filter, mem_files_iff ht, mem_files_iff hu]
      constructor
      · rintro ⟨hp, hkeep⟩
        exact ⟨h p hkeep ▸ hp, hkeep⟩
      · rintro ⟨hp, hkeep⟩
        exact ⟨h p hkeep ▸ hp, hkeep⟩

end Node

end Respell
