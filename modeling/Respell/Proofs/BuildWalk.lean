/-
The walk of a build, as a whole. A walk goes through the directory of sources while it writes into the output
directory, which may stand inside. It makes what the files outside the output directory make, and in their order
(`buildDir_walks`): what it finds outside is what was there when it began (`Shows`), and it enters the output
directory only where its own path is not written with the components of that directory. What it makes there falls on
stray names (`buildDir_strays`).
-/
import Respell.Proofs.Deliveries

namespace Respell

open Node

/-- a file is made in the directory that it stands in -/
theorem Makes.dropLast {settings : Settings} {names q : List String} {content b : Bytes}
    (h : Makes settings names content q b) (hnames : names ≠ []) : ∃ name, q = names.dropLast ++ [name] := by
  cases h with
  | copy _ => exact ⟨_, (List.dropLast_append_getLast hnames).symm⟩
  | code heq _ _ _ => exact ⟨_, by rw [heq, List.dropLast_concat]⟩
  | map heq _ _ _ _ => exact ⟨_, by rw [heq, List.dropLast_concat]⟩

namespace Job

/-! ## The files that a walk carries over -/

/-- whether names from the directory of sources down stay outside the output directory -/
def outside (job : Job) (names : List String) : Bool :=
  !(Path.place job.outDir).isPrefixOf (Path.place job.rootDir ++ names)

theorem outside_iff {job : Job} {names : List String} :
    job.outside names = true ↔ ¬ Path.place job.outDir <+: Path.place job.rootDir ++ names := by
  rw [outside, Bool.not_eq_true', ← Bool.not_eq_true, List.isPrefixOf_iff_prefix]

/-- the files outside the output directory below a node with the names `dir`, in the order of a walk -/
def filesFrom (job : Job) (dir : List String) (node : Node) : List (List String) :=
  (node.files.map (dir ++ ·)).filter job.outside

/-- the files outside the output directory that an entry of the directory with the names `dir` adds -/
def entryFrom (job : Job) (dir : List String) (e : String × Node) : List (List String) :=
  if e.2.isDir then job.filesFrom (dir ++ [e.1]) e.2 else [dir ++ [e.1]].filter job.outside

theorem filesFrom_entries (job : Job) (dir : List String) (node : Node) :
    job.filesFrom dir node = node.entries.flatMap (job.entryFrom dir) := by
  cases node with
  | file content => simp [filesFrom, files_file, entries]
  | dir es =>
    rw [filesFrom, files_dir, List.map_flatMap, List.filter_flatMap]
    refine List.flatMap_congr fun e _ => ?_
    obtain ⟨name, child⟩ := e
    cases child with
    | file content => simp [entryFiles, entryFrom, isDir, files_file, content?]
    | dir es => simp [entryFiles, entryFrom, isDir, filesFrom, content?, Function.comp_def]

theorem entryFrom_inside {job : Job} {dir : List String} {e : String × Node}
    (h : Path.place job.outDir <+: Path.place job.rootDir ++ (dir ++ [e.1])) : job.entryFrom dir e = [] := by
  have hinside : ∀ q, job.outside (dir ++ [e.1] ++ q) = false := by
    intro q
    rw [← Bool.not_eq_true, outside_iff, not_not, ← List.append_assoc]
    exact h.trans (List.prefix_append _ _)
  unfold entryFrom filesFrom
  split_ifs
  · simp only [List.filter_map, List.map_eq_nil_iff, List.filter_eq_nil_iff]
    exact fun q _ hq => absurd (hq.symm.trans (hinside q)) (by decide)
  · simpa using hinside []

/-- a node with the names `dir` has the files that were there at the start, and none at the place of the output
directory -/
structure Shows (job : Job) (start : Node) (dir : List String) (node : Node) : Prop where
  proper : node.Proper
  files : ∀ q, job.outside (dir ++ q) = true → node.bytesAt q = start.bytesAt (Path.place job.rootDir ++ (dir ++ q))
  atOut : ∀ q, Path.place job.rootDir ++ (dir ++ q) = Path.place job.outDir → node.bytesAt q = none

section

variable {job : Job} {start t node : Node} {made : List (List String × Bytes)} {dir : List String}

theorem Stage.shows (h : Stage job start made t) (hnode : t.get? (Path.place job.rootDir ++ dir) = some node) :
    Shows job start dir node := by
  have hbytes : ∀ q, node.bytesAt q = t.bytesAt (Path.place job.rootDir ++ (dir ++ q)) := by
    intro q
    rw [← List.append_assoc, bytesAt_append hnode]
  refine ⟨h.proper.get? hnode, fun q hq => ?_, fun q hq => ?_⟩
  · rw [hbytes, h.outside _ (outside_iff.1 hq)]
  · rw [hbytes, hq, h.atOut]

theorem Shows.entry (h : Shows job start dir node) {e : String × Node} (he : e ∈ node.entries) :
    IsName e.1 ∧ Shows job start (dir ++ [e.1]) e.2 := by
  obtain ⟨name, child⟩ := e
  cases hnode : node with
  | file content =>
    rw [hnode] at he
    cases he
  | dir es =>
    obtain ⟨hproper, hfiles, hout⟩ := hnode ▸ h
    have hmem : (name, child) ∈ es := by
      rw [hnode] at he
      exact he
    have hchild : (Node.dir es).get? [name] = some child := by
      cases hproper with
      | dir _ increasing _ =>
        rw [get?_singleton]
        exact lookup_of_mem increasing hmem
    have hbytes : ∀ q, child.bytesAt q = (Node.dir es).bytesAt ([name] ++ q) := fun q => (bytesAt_append hchild q).symm
    refine ⟨?_, hproper.get? hchild, fun q hq => ?_, fun q hq => ?_⟩
    · cases hproper with
      | dir names _ _ => exact names _ hmem
    · rw [hbytes, hfiles _ (by rwa [← List.append_assoc]), List.append_assoc dir]
    · rw [hbytes, hout _ (by rwa [← List.append_assoc dir])]

theorem Shows.ne_outDir (h : Shows job start dir node) (hfile : node.isDir ≠ true) :
    Path.place job.rootDir ++ dir ≠ Path.place job.outDir := by
  intro heq
  have hnone := h.atOut [] (by rw [List.append_nil, heq])
  cases node with
  | file content => cases hnone
  | dir es => exact hfile rfl

/-- the files to carry over are those of the start -/
theorem Shows.filesFrom_eq (h : Shows job start dir node) {other : Node} (h' : Shows job start dir other) :
    job.filesFrom dir node = job.filesFrom dir other := by
  rw [filesFrom, filesFrom, List.filter_map, List.filter_map]
  congr 1
  exact files_filter_congr h.proper h'.proper fun q hq => (h.files q hq).trans (h'.files q hq).symm

theorem establishes_list {path : String} (hpath : Path.place path = Path.place job.rootDir ++ dir)
    (explain : Fault → Failure) :
    Action.Establishes (Stage job start made) (Action.ask (Node.find · path) explain)
      fun node t => Shows job start dir node ∧ Stage job start made t := by
  refine Action.establishes_ask fun t node ht hfind => ⟨?_, ht⟩
  exact ht.shows (hpath ▸ find_place hfind)

end

/-! ## Walks -/

/-- a walk that comes to the place of the output directory knows it by its components -/
def Knows (job : Job) : Prop :=
  ∀ inner, Path.place job.outDir = Path.place job.rootDir ++ inner →
    Path.components job.rootDir ++ inner = Path.components job.outDir

/-- what the files make, in the order in which it is written -/
def deliveries (job : Job) (start : Node) (files : List (List String)) : List (List String × Bytes) :=
  files.flatMap fun names => outputs job.settings names ((start.bytesAt (Path.place job.rootDir ++ names)).getD #[])

/-- some files are carried over: the sources among them are texts, and what they make is made -/
structure Walked (job : Job) (start : Node) (made : List (List String × Bytes)) (done : Summary)
    (files : List (List String)) (summary : Summary) (t : Node) : Prop where
  stage : Stage job start ((job.deliveries start files).reverse ++ made) t
  texts : ∀ names ∈ files, namesSource names = true →
    ((start.bytesAt (Path.place job.rootDir ++ names)).bind Bytes.string?).isSome = true
  counted : job.Knows → summary = done.add files

section

variable {job : Job} {start t : Node} {made : List (List String × Bytes)} {done summary : Summary}

theorem Stage.walked (h : Stage job start made t) (hsummary : job.Knows → summary = done) :
    Walked job start made done [] summary t :=
  ⟨h, fun _ hmem => (List.not_mem_nil hmem).elim, hsummary⟩

/-- an action that carries over some files may follow one that carried over others -/
theorem Walked.establishes {files more : List (List String)} {a : Action Summary}
    (h : Action.Establishes (Stage job start ((job.deliveries start files).reverse ++ made)) a
      (Walked job start ((job.deliveries start files).reverse ++ made) summary more)) :
    Action.Establishes (Walked job start made done files summary) a (Walked job start made done (files ++ more)) := by
  intro t ht x hx
  obtain ⟨hstage, htexts, hcount⟩ := h t ht.stage x hx
  refine ⟨?_, ?_, ?_⟩
  · rw [deliveries, List.flatMap_append, List.reverse_append, List.append_assoc]
    exact hstage
  · intro names hmem
    rcases List.mem_append.1 hmem with hmem | hmem
    · exact ht.texts names hmem
    · exact htexts names hmem
  · intro hknows
    rw [hcount hknows, ht.counted hknows]
    simp only [Summary.add, List.countP_append, Nat.add_assoc]

theorem Carried.walked {names : List String}
    (h : Carried job start made names (start.bytesAt (Path.place job.rootDir ++ names)) t)
    (hsummary : summary = done.add [names]) : Walked job start made done [names] summary t := by
  obtain ⟨content, hfound, htext, hstage⟩ := h
  refine ⟨?_, ?_, fun _ => hsummary⟩
  · rw [deliveries, List.flatMap_singleton, hfound]
    exact hstage
  · intro n hn hsource
    obtain rfl := List.mem_singleton.1 hn
    rw [hfound]
    exact htext hsource

end

variable (job : Job) {start : Node}

/-- **A walk inside the output directory** makes files at stray names only. -/
theorem buildDir_strays {made : List (List String × Bytes)} {inner : List String}
    (hne : Path.place job.rootDir ≠ Path.place job.outDir)
    (hinner : Path.place job.outDir = Path.place job.rootDir ++ inner)
    (hunknown : Path.components job.rootDir ++ inner ≠ Path.components job.outDir) (fuel : Nat) {path : String}
    {back : List String} (done : Summary) (hback : ∀ n ∈ back, IsName n)
    (hpath : Path.place path = Path.place job.rootDir ++ back.reverse) (hin : inner <+: back.reverse) :
    Action.Establishes (Stage job start made) (job.buildDir fuel path back done) fun _ => Stage job start made := by
  induction fuel generalizing path back done with
  | zero => exact Action.establishes_throw _
  | succ fuel ih =>
    unfold buildDir
    refine (establishes_list hpath _).bind fun node => Action.establishes_of (fun _ h => h.1) fun hnode => ?_
    suffices hfold : ∀ e ∈ node.entries, ∀ (_ : List (String × Node)) (done : Summary),
        Action.Establishes (Stage job start made)
          (if Path.same (Path.join path e.1) job.outDir = true then pure done
          else if e.2.isDir = true then job.buildDir fuel (Path.join path e.1) (e.1 :: back) done
          else job.buildFile (Path.join path e.1) (e.1 :: back).reverse done) fun _ => Stage job start made from
      fun t ht => Action.establishes_foldlM (I := fun _ _ => Stage job start made) node.entries hfold [] done t ht.2
    intro e he _ done
    obtain ⟨hname, -⟩ := hnode.entry he
    split_ifs
    · exact Action.establishes_pure fun _ ht => ht
    · refine ih done (List.forall_mem_cons.2 ⟨hname, hback⟩) ?_ ?_
      · rw [Path.place_join_name path hname, hpath, List.reverse_cons, List.append_assoc]
      · rw [List.reverse_cons]
        exact hin.trans (List.prefix_append _ _)
    · -- the file is delivered all the same, but into a place the stage says nothing about
      intro t ht x hx
      obtain ⟨-, content, -, -, hstage⟩ := job.buildFile_establishes done hname hback hpath hne t ⟨ht, rfl⟩ x hx
      refine hstage.drop fun w hw => ?_
      obtain ⟨name, hw⟩ := (mem_outputs_iff.1 (List.mem_reverse.1 hw)).dropLast (by simp)
      rw [List.dropLast_concat] at hw
      obtain ⟨rest, hrest⟩ := hin
      refine ⟨?_, ?_, inner, hinner, hunknown⟩
      · rw [hinner, hw, ← hrest, List.append_assoc, ← List.append_assoc]
        exact List.prefix_append _ _
      · rw [hinner, hw, ← hrest]
        simp

/-- a file that a walk comes to outside the output directory -/
theorem buildFile_walks {path : String} {back : List String} {made : List (List String × Bytes)} {e : String × Node}
    (done : Summary) (hin : ¬ Path.place job.outDir <+: Path.place job.rootDir) (hname : IsName e.1)
    (hback : ∀ n ∈ back, IsName n) (hpath : Path.place path = Path.place job.rootDir ++ back.reverse)
    (hfile : e.2.isDir ≠ true) (hout : ¬ Path.place job.outDir <+: Path.place job.rootDir ++ (back.reverse ++ [e.1])) :
    Action.Establishes (Stage job start made) (job.buildFile (Path.join path e.1) (e.1 :: back).reverse done)
      (Walked job start made done (job.entryFrom back.reverse e)) := by
  have hne : Path.place job.rootDir ≠ Path.place job.outDir := fun heq => hin (heq ▸ List.prefix_rfl)
  rw [entryFrom, if_neg hfile, List.filter_cons_of_pos (outside_iff.2 hout), List.filter_nil]
  intro t ht x hx
  obtain ⟨hsummary, hcarried⟩ := job.buildFile_establishes done hname hback hpath hne t ⟨ht, ht.outside _ hout⟩ x hx
  exact hcarried.walked hsummary

/-- **A walk carries over all that it comes to outside the output directory,** in order. -/
theorem buildDir_walks (hin : ¬ Path.place job.outDir <+: Path.place job.rootDir) (fuel : Nat) {path : String}
    {back : List String} (done : Summary) (made : List (List String × Bytes)) (hback : ∀ n ∈ back, IsName n)
    (hpath : Path.place path = Path.place job.rootDir ++ back.reverse) (hempty : path ≠ "")
    (hcomponents : Path.components path = Path.components job.rootDir ++ back.reverse)
    (hout : ¬ Path.place job.outDir <+: Path.place job.rootDir ++ back.reverse) {node : Node}
    (hnode : Shows job start back.reverse node) :
    Action.Establishes (Stage job start made) (job.buildDir fuel path back done)
      (Walked job start made done (job.filesFrom back.reverse node)) := by
  induction fuel generalizing path back done made node with
  | zero => exact Action.establishes_throw _
  | succ fuel ih =>
    unfold buildDir
    refine (establishes_list hpath _).bind fun found => Action.establishes_of (fun _ h => h.1) fun hfound => ?_
    rw [hnode.filesFrom_eq hfound, filesFrom_entries]
    suffices hstep : ∀ e ∈ found.entries, ∀ (made : List (List String × Bytes)) (done : Summary),
        Action.Establishes (Stage job start made)
          (if Path.same (Path.join path e.1) job.outDir = true then pure done
          else if e.2.isDir = true then job.buildDir fuel (Path.join path e.1) (e.1 :: back) done
          else job.buildFile (Path.join path e.1) (e.1 :: back).reverse done)
          (Walked job start made done (job.entryFrom back.reverse e)) by
      refine fun t ht => Action.establishes_foldlM
        (I := fun es => Walked job start made done (es.flatMap (job.entryFrom back.reverse)))
        found.entries ?_ [] done t (ht.2.walked fun _ => rfl)
      intro e he es summary
      rw [List.flatMap_append, List.flatMap_singleton]
      exact Walked.establishes (hstep e he _ summary)
    intro e he made done
    obtain ⟨hname, hentry⟩ := hfound.entry he
    have hplace : Path.place (Path.join path e.1) = Path.place job.rootDir ++ (back.reverse ++ [e.1]) := by
      rw [Path.place_join_name path hname, hpath, List.append_assoc]
    have hparts : Path.components (Path.join path e.1) = Path.components job.rootDir ++ (back.reverse ++ [e.1]) := by
      rw [Path.components_join_name hempty hname, hcomponents, List.append_assoc]
    have hnext : ∀ n ∈ e.1 :: back, IsName n := List.forall_mem_cons.2 ⟨hname, hback⟩
    -- the walk has not been in the output directory so far, so it can only be at its top now
    have htop : Path.place job.outDir <+: Path.place job.rootDir ++ (back.reverse ++ [e.1]) →
        Path.place job.outDir = Path.place job.rootDir ++ (back.reverse ++ [e.1]) := by
      rw [← List.append_assoc, List.prefix_concat_iff]
      exact fun h => h.resolve_right hout
    split_ifs with hsame hdir
    · have hplaces : Path.place (Path.join path e.1) = Path.place job.outDir :=
        Path.place_eq_of_components (beq_iff_eq.1 hsame)
      rw [entryFrom_inside (hplaces ▸ hplace ▸ List.prefix_rfl)]
      exact Action.establishes_pure fun t ht => ht.walked fun _ => rfl
    · by_cases hprefix : Path.place job.outDir <+: Path.place job.rootDir ++ (back.reverse ++ [e.1])
      · have hunknown : Path.components job.rootDir ++ (back.reverse ++ [e.1]) ≠ Path.components job.outDir := by
          intro heq
          exact hsame (beq_iff_eq.2 (hparts.trans heq))
        have hne : Path.place job.rootDir ≠ Path.place job.outDir := fun heq => hin (heq ▸ List.prefix_rfl)
        have hstrays : Action.Establishes (Stage job start made)
            (job.buildDir fuel (Path.join path e.1) (e.1 :: back) done) fun _ => Stage job start made :=
          job.buildDir_strays hne (htop hprefix) hunknown fuel done hnext (by rw [hplace, List.reverse_cons])
            (by rw [List.reverse_cons])
        rw [entryFrom_inside hprefix]
        exact fun t ht x hx => (hstrays t ht x hx).walked fun hknows => absurd (hknows _ (htop hprefix)) hunknown
      · rw [entryFrom, if_pos hdir, ← List.reverse_cons]
        refine ih done made hnext ?_ (Path.join_ne_empty hname) ?_ ?_ ?_
        · rw [hplace, List.reverse_cons]
        · rw [hparts, List.reverse_cons]
        · rwa [List.reverse_cons]
        · rwa [List.reverse_cons]
    · refine job.buildFile_walks done hin hname hback hpath hdir fun hprefix => ?_
      exact hentry.ne_outDir hdir (htop hprefix).symm

end Job

end Respell
