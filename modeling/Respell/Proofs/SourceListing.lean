/-
The sources of a directory, in the order of their paths. A walk lists the entries of each directory in the byte order
of their names and goes into a directory where it meets it. Paths are compared component by component, so this is
their order: `a/x.neha` comes before `a.neha`, although `.` is a smaller byte than `/`.

The order of names is that of their characters; it is the byte order, since a smaller character has smaller bytes
(`encode_lt`, `utf8_lt_iff`). The components of a walked path are those of the directory and the names passed since
(`Path.components_under`), so the listing of a tree, which increases name by name (`Node.walked_pairwise`), gives
increasing paths.

Main result, `sources_exact`: the walk lists the files under the directory whose names end in `.neha` behind
something, and nothing else, each once and in strictly increasing order. It fails only for a directory with a path too
long to be listed.
-/
import Respell.Proofs.Boundaries
import Respell.Proofs.BuildSafety
import Respell.Proofs.OutputNames

namespace Respell

/-! ## Byte order -/

/-- a smaller character has smaller bytes, whatever follows the two -/
theorem encode_lt {c d : Char} (h : c < d) (rest more : List UInt8) : encode c ++ rest < encode d ++ more := by
  have hlt : c.val.toNat < d.val.toNat := h
  have hmax : d.val.toNat < 0x110000 := by
    have hvalid := d.valid
    simp only [UInt32.isValidChar, Nat.isValidChar] at hvalid
    omega
  simp only [encode, String.utf8EncodeChar]
  generalize c.val.toNat = m at hlt
  generalize d.val.toNat = n at hlt hmax
  -- more bytes begin with a greater one; as many bytes are compared as the digits of the two numbers in base 64
  split_ifs <;>
    simp (disch := omega) only [List.cons_append, List.nil_append, List.cons_lt_cons_iff, UInt8.lt_iff_toNat_lt,
      ← UInt8.toNat_inj, UInt8.toNat_ofNat', Nat.mod_eq_of_lt, Nat.add_lt_add_iff_right, Nat.add_right_cancel_iff] <;>
    omega

theorem flatMap_encode_lt {cs ds : List Char} (h : cs < ds) : cs.flatMap encode < ds.flatMap encode := by
  induction cs generalizing ds with
  | nil =>
    cases ds with
    | nil => exact absurd h (List.not_lt_nil _)
    | cons d ds =>
      obtain ⟨b, bs, heq, -, -⟩ := encode_eq_cons d
      rw [List.flatMap_cons, heq]
      exact List.nil_lt_cons _ _
  | cons c cs ih =>
    cases ds with
    | nil => exact absurd h (List.not_lt_nil _)
    | cons d ds =>
      rw [List.flatMap_cons, List.flatMap_cons]
      rcases List.cons_lt_cons_iff.1 h with hlt | ⟨rfl, hlt⟩
      · exact encode_lt hlt _ _
      · exact List.append_left_lt (ih hlt)

/-- **The order of texts is the order of their bytes.** -/
theorem utf8_lt_iff {a b : String} : (utf8 a).toList < (utf8 b).toList ↔ a < b := by
  have hmono : ∀ {a b : String}, a < b → (utf8 a).toList < (utf8 b).toList := by
    intro a b h
    rw [utf8_toList, utf8_toList]
    exact flatMap_encode_lt (String.lt_iff_toList_lt.1 h)
  refine ⟨?_, hmono⟩
  intro h
  rcases lt_trichotomy a b with hlt | rfl | hgt
  · exact hlt
  · exact absurd h (List.lt_irrefl _)
  · exact absurd h (List.lt_asymm (hmono hgt))

open Node

namespace Path

/-! ## Walked paths -/

/-- the components of a path as bytes; paths are ordered by them -/
def componentBytes (path : String) : List (List UInt8) := (components path).map fun part => (utf8 part).toList

/-- the path of what a walk that begins at `dir` meets behind some names -/
def under (dir : String) (names : List String) : String := if names = [] then dir else join dir ("/".intercalate names)

theorem components_under {dir : String} (hdir : dir ≠ "") {names : List String} (h : ∀ name ∈ names, IsName name) :
    components (under dir names) = components dir ++ names := by
  unfold under
  split_ifs with hnil
  · rw [hnil, List.append_nil]
  · exact components_join_names hdir hnil h

/-- names that increase make paths that increase -/
theorem componentBytes_under_lt {dir : String} (hdir : dir ≠ "") {p q : List String} (hp : ∀ name ∈ p, IsName name)
    (hq : ∀ name ∈ q, IsName name) (h : p < q) : componentBytes (under dir p) < componentBytes (under dir q) := by
  rw [componentBytes, componentBytes, components_under hdir hp, components_under hdir hq, List.map_append,
    List.map_append]
  exact List.append_left_lt (List.map_lt (fun _ _ hlt => utf8_lt_iff.2 hlt) h)

end Path

/-- a path names a source if its last component is `.neha` behind something -/
theorem isSource_iff (path : String) :
    isSource path = true ↔ ∃ above stem, stem ≠ "" ∧ Path.components path = above ++ [stem ++ ".neha"] := by
  rw [isSource, beq_iff_eq, Path.extension?, Option.bind_eq_some_iff]
  constructor
  · rintro ⟨name, hfile, hext⟩
    obtain ⟨stem, hne, rfl⟩ := nameExtension?_source_iff.1 hext
    unfold Path.fileName? at hfile
    cases hlast : (Path.components path).getLast? with
    | none =>
      rw [hlast] at hfile
      cases hfile
    | some last =>
      simp only [hlast, Option.ite_none_left_eq_some] at hfile
      obtain ⟨above, habove⟩ := List.getLast?_eq_some_iff.1 hlast
      exact ⟨above, stem, hne, by rw [habove, Option.some.inj hfile.2]⟩
  · rintro ⟨above, stem, hne, hparts⟩
    refine ⟨stem ++ ".neha", ?_, nameExtension?_source_iff.2 ⟨stem, hne, rfl⟩⟩
    have hlen : 2 < (stem ++ ".neha").length := by
      rw [String.length_append]
      exact Nat.lt_add_left _ (by decide)
    have hplain : ¬ (stem ++ ".neha" = "." ∨ stem ++ ".neha" = ".." ∨ stem ++ ".neha" = "/") := by
      rintro (heq | heq | heq) <;> rw [heq] at hlen <;> exact absurd hlen (by decide)
    unfold Path.fileName?
    rw [hparts, List.getLast?_concat]
    exact if_neg hplain

namespace Node

/-! ## What a walk meets -/

/-- the files that a walk from a node meets: the node itself if it is a file, or the files below it -/
def walked : Node → List (List String)
  | .file _ => [[]]
  | .dir es => (Node.dir es).files

theorem mem_walked_iff {t : Node} (h : t.Proper) {p : List String} :
    p ∈ t.walked ↔ ∃ content, t.get? p = some (.file content) := by
  simp only [← bytesAt_eq_some_iff, ← Option.isSome_iff_exists]
  cases t with
  | file content =>
    rw [walked, List.mem_singleton]
    cases p with
    | nil => exact iff_of_true rfl rfl
    | cons name p => exact iff_of_false (List.cons_ne_nil name p) nofun
  | dir es =>
    rw [walked, mem_files_iff h]
    refine and_iff_right_of_imp ?_
    rintro hsome rfl
    cases hsome

theorem walked_pairwise {t : Node} (h : t.Proper) : t.walked.Pairwise (· < ·) := by
  cases t with
  | file content => exact List.pairwise_singleton _ _
  | dir es => exact files_pairwise h

theorem Proper.isName_of_get? {t node : Node} (h : t.Proper) {p : List String} (hp : t.get? p = some node) :
    ∀ name ∈ p, IsName name := by
  induction p generalizing t with
  | nil => exact fun _ hname => absurd hname List.not_mem_nil
  | cons first p ih =>
    cases h with
    | file => cases hp
    | dir names increasing below =>
      obtain ⟨child, hchild, hrest⟩ := Option.bind_eq_some_iff.1 hp
      have hmem := mem_of_lookup hchild
      intro name hname
      rcases List.mem_cons.1 hname with rfl | hname
      · exact names _ hmem
      · exact ih (below _ hmem) hrest name hname

theorem legal_of_find {top node : Node} {path : String} (h : top.find path = .ok node) :
    path ≠ "" ∧ path.utf8ByteSize < Path.byteLimit := by
  unfold find locate legalPieces at h
  split_ifs at h with hnul hempty hlong
  · cases h
  · cases h
  · cases h
  · exact ⟨hempty, Nat.lt_of_not_le hlong⟩

end Node

/-! ## The walk -/

theorem Action.run_ask_bind {α β : Type} {f : Node → Except Fault α} {explain : Fault → Failure} {top : Node} {x : α}
    (h : f top = .ok x) (g : α → Action β) : (Action.ask f explain >>= g).run.run top = (g x).run.run top := by
  have hask : (Action.ask f explain).run.run top = (.ok x, top) := by
    rw [Action.ask, Action.run_get_bind, h]
    rfl
  rw [Action.run_bind, Action.result, Action.after, hask]

/-- the paths of the sources that a walk from `node` at `dir` meets -/
def sourcePaths (dir : String) (node : Node) : List String := (node.walked.map (Path.under dir)).filter isSource

/-- the first directory with a path that is too long for it to be listed -/
def longDirectory? (dir : String) (node : Node) : Option (List String) :=
  node.directories.find? fun names => Path.byteLimit ≤ (Path.under dir names).utf8ByteSize

/-- the walk ends at the first directory that cannot be listed, and changes nothing -/
theorem run_sources {top node : Node} {dir : String} (hproper : node.Proper) (h : top.find dir = .ok node) :
    (sources dir).run.run top =
      ((longDirectory? dir node).elim (.ok (sourcePaths dir node))
        fun names => .error (.walk dir (Path.under dir names) .nameTooLong), top) := by
  rw [sources, Action.run_ask_bind h]
  cases node with
  | file content => rfl
  | dir es =>
    have hfiles : sourcePaths dir (.dir es) =
        ((Node.dir es).files.map fun names => Path.join dir ("/".intercalate names)).filter isSource := by
      rw [sourcePaths, walked]
      exact congrArg _ (List.map_congr_left fun names hnames => if_neg ((mem_files_iff hproper).1 hnames).1)
    have hdirs : ∀ names ∈ (Node.dir es).directories, Path.under dir names = Path.join dir ("/".intercalate names) :=
      fun names hnames => if_neg ((mem_directories_iff hproper).1 hnames).1
    have hlong : longDirectory? dir (.dir es) = (Node.dir es).directories.find? fun names =>
        Path.byteLimit ≤ (Path.join dir ("/".intercalate names)).utf8ByteSize :=
      List.find?_congr fun names hnames => by rw [hdirs names hnames]
    rw [hlong, hfiles]
    simp only
    cases hfind : (Node.dir es).directories.find? fun names =>
        decide (Path.byteLimit ≤ (Path.join dir ("/".intercalate names)).utf8ByteSize) with
    | none => rfl
    | some names =>
      rw [Option.elim_some, hdirs names (List.mem_of_find?_eq_some hfind)]
      rfl

/-- every directory at `dir` and below has a path that is short enough for it to be listed -/
def Listable (top : Node) (dir : String) : Prop :=
  ∀ names entries, top.get? (Path.place dir ++ names) = some (.dir entries) →
    (Path.under dir names).utf8ByteSize < Path.byteLimit

section

variable {top node : Node} {dir : String}

theorem get?_of_find (h : top.find dir = .ok node) (names : List String) :
    top.get? (Path.place dir ++ names) = node.get? names := by
  rw [get?_append, find_place h, Option.bind_some]

theorem longDirectory?_spec (hproper : node.Proper) (h : top.find dir = .ok node) {names : List String}
    (hlong : longDirectory? dir node = some names) :
    (∃ entries, top.get? (Path.place dir ++ names) = some (.dir entries)) ∧
      Path.byteLimit ≤ (Path.under dir names).utf8ByteSize := by
  unfold longDirectory? at hlong
  obtain ⟨-, es, hes⟩ := (mem_directories_iff hproper).1 (List.mem_of_find?_eq_some hlong)
  exact ⟨⟨es, (get?_of_find h names).trans hes⟩, by simpa using List.find?_some hlong⟩

theorem longDirectory?_eq_none_iff (hproper : node.Proper) (h : top.find dir = .ok node) :
    longDirectory? dir node = none ↔ Listable top dir := by
  constructor
  · intro hnone names entries hentries
    by_cases hnil : names = []
    · subst hnil
      exact (legal_of_find h).2
    · have hmem := (mem_directories_iff hproper).2 ⟨hnil, entries, (get?_of_find h names).symm.trans hentries⟩
      simpa using List.find?_eq_none.1 hnone names hmem
  · intro hlist
    cases hlong : longDirectory? dir node with
    | none => rfl
    | some names =>
      obtain ⟨⟨es, hes⟩, hle⟩ := longDirectory?_spec hproper h hlong
      exact absurd (hlist names es hes) (Nat.not_lt.2 hle)

theorem mem_sourcePaths_iff (hproper : node.Proper) (h : top.find dir = .ok node) {path : String} :
    path ∈ sourcePaths dir node ↔
      (∃ names content, top.get? (Path.place dir ++ names) = some (.file content) ∧ path = Path.under dir names) ∧
        ∃ above stem, stem ≠ "" ∧ Path.components path = above ++ [stem ++ ".neha"] := by
  rw [sourcePaths, List.mem_filter, isSource_iff, List.mem_map]
  refine and_congr_left fun _ => ⟨?_, ?_⟩
  · rintro ⟨names, hnames, rfl⟩
    obtain ⟨content, hcontent⟩ := (mem_walked_iff hproper).1 hnames
    exact ⟨names, content, (get?_of_find h names).trans hcontent, rfl⟩
  · rintro ⟨names, content, hcontent, rfl⟩
    exact ⟨names, (mem_walked_iff hproper).2 ⟨content, (get?_of_find h names).symm.trans hcontent⟩, rfl⟩

theorem sourcePaths_pairwise (hproper : node.Proper) (hdir : dir ≠ "") :
    (sourcePaths dir node).Pairwise fun a b => Path.componentBytes a < Path.componentBytes b := by
  refine List.Pairwise.filter _ (List.pairwise_map.2 ((walked_pairwise hproper).imp_of_mem ?_))
  intro p q hp hq hlt
  obtain ⟨content, hp⟩ := (mem_walked_iff hproper).1 hp
  obtain ⟨content', hq⟩ := (mem_walked_iff hproper).1 hq
  exact Path.componentBytes_under_lt hdir (hproper.isName_of_get? hp) (hproper.isName_of_get? hq) hlt

end

/-- **The sources of a directory.** A walk of a tree from what is at `dir` changes nothing. If all directories there
can be listed, it has a result: the paths of the files at `dir` and below whose last component is `.neha` behind
something, in strictly increasing order of their components as bytes, and so each once. Otherwise it fails at a
directory whose path is too long. -/
theorem sources_exact {top node : Node} (htop : top.Proper) {dir : String} (hdir : top.find dir = .ok node) :
    (sources dir).after top = top ∧
      (Listable top dir → ∃ paths, (sources dir).result top = .ok paths ∧
        (∀ path, path ∈ paths ↔
          (∃ names content, top.get? (Path.place dir ++ names) = some (.file content) ∧ path = Path.under dir names) ∧
            ∃ above stem, stem ≠ "" ∧ Path.components path = above ++ [stem ++ ".neha"]) ∧
        paths.Pairwise fun a b => Path.componentBytes a < Path.componentBytes b) ∧
      (¬ Listable top dir → ∃ names entries, top.get? (Path.place dir ++ names) = some (.dir entries) ∧
        Path.byteLimit ≤ (Path.under dir names).utf8ByteSize ∧
        (sources dir).result top = .error (.walk dir (Path.under dir names) .nameTooLong)) := by
  have hproper := htop.get? (find_place hdir)
  have hrun := run_sources hproper hdir
  have hlistable := longDirectory?_eq_none_iff hproper hdir
  refine ⟨by rw [Action.after, hrun], ?_, ?_⟩
  · intro hlist
    refine ⟨sourcePaths dir node, ?_, fun path => mem_sourcePaths_iff hproper hdir,
      sourcePaths_pairwise hproper (legal_of_find hdir).1⟩
    rw [Action.result, hrun, hlistable.2 hlist]
    rfl
  · intro hnot
    obtain ⟨names, hlong⟩ := Option.ne_none_iff_exists'.1 (mt hlistable.1 hnot)
    obtain ⟨⟨es, hes⟩, hle⟩ := longDirectory?_spec hproper hdir hlong
    refine ⟨names, es, hes, hle, ?_⟩
    rw [Action.result, hrun, hlong]
    rfl

/-- a directory `a` beside files whose names go on with a dot, names without a stem or with another extension, a
directory named like a source, and a name that is not ASCII -/
def crowdedDir : Node :=
  .dir [("..neha", .file #[]), (".neha", .file #[]), ("a", .dir [("x.neha", .file #[])]), ("a.b.neha", .file #[]),
    ("a.neha", .file #[]), ("b.neha", .dir [("c.txt", .file #[])]), ("z.nehas", .file #[]), ("é.neha", .file #[])]

def crowdedTree : Node :=
  Disk.ofListing [("src/é.neha", some #[]), ("src/a.neha", some #[]), ("src/a/x.neha", some #[]),
    ("src/a.b.neha", some #[]), ("src/.neha", some #[]), ("src/..neha", some #[]), ("src/b.neha/c.txt", some #[]),
    ("src/z.nehas", some #[]), ("a.neha", some #[])]

/-- what is in `a` comes before `a.b.neha` and `a.neha`, and the name that is not ASCII comes last -/
theorem sources_exact_crowded :
    crowdedTree.Proper ∧ crowdedTree.find "src" = .ok crowdedDir ∧ Listable crowdedTree "src" ∧
      (sources "src").result crowdedTree =
        .ok ["src/..neha", "src/a/x.neha", "src/a.b.neha", "src/a.neha", "src/é.neha"] ∧
      ["src/..neha", "src/a/x.neha", "src/a.b.neha", "src/a.neha", "src/é.neha"].Pairwise
        fun a b => Path.componentBytes a < Path.componentBytes b := by
  have hproper : crowdedTree.Proper := Disk.ofListing_proper _
  have hfind : crowdedTree.find "src" = .ok crowdedDir := by with_unfolding_all rfl
  have hdir := hproper.get? (find_place hfind)
  have hlong : longDirectory? "src" crowdedDir = none := by decide
  have hlist := (longDirectory?_eq_none_iff hdir hfind).1 hlong
  have hpaths : sourcePaths "src" crowdedDir =
      ["src/..neha", "src/a/x.neha", "src/a.b.neha", "src/a.neha", "src/é.neha"] := by decide
  have hresult : (sources "src").result crowdedTree = .ok (sourcePaths "src" crowdedDir) := by
    rw [Action.result, run_sources hdir hfind, hlong]
    rfl
  rw [hpaths] at hresult
  obtain ⟨paths, hlisted, -, hincreasing⟩ := (sources_exact hproper hfind).2.1 hlist
  obtain rfl := Except.ok.inj (hresult.symm.trans hlisted)
  exact ⟨hproper, hfind, hlist, hresult, hincreasing⟩

end Respell
