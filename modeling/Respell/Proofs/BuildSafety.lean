/-
What a build does to the files that it does not make. An action keeps an invariant of the tree if each of its
operations does, whether it runs to its end or fails on the way (`Action.Ensures`). All that a build writes goes into
the output directory: the path of an output is made from it and from names of entries, and the change of extension
stays behind the last slash.

Main result, `build_spares`. A build refuses an output directory whose components begin those of the directory of
sources, and changes nothing then. Whatever the settings, every file outside the place of the output directory is
kept. With plain settings the refused ones are just those whose output directory contains the sources, so no source is
lost. With other spellings of the same places the comparison fails, and then no source is left.
-/
import Respell.Project.Build
import Respell.Proofs.DiskFrames

namespace Respell

open Node

namespace Action

variable {α β : Type}

/-! ## Invariants of actions -/

def result (a : Action α) (top : Node) : Except Failure α := (a.run.run top).1

/-- the tree that an action leaves, whether it fails or not -/
def after (a : Action α) (top : Node) : Node := (a.run.run top).2

theorem run_bind (a : Action α) (f : α → Action β) (top : Node) :
    (a >>= f).run.run top = match a.result top with
      | .ok x => (f x).run.run (a.after top)
      | .error e => (.error e, a.after top) := by
  unfold result after
  simp only [ExceptT.run_bind, StateT.run_bind]
  generalize a.run.run top = out
  obtain ⟨outcome, t⟩ := out
  cases outcome <;> rfl

theorem run_get_bind (f : Node → Action β) (top : Node) : (get >>= f).run.run top = (f top).run.run top := rfl

theorem after_get_bind (f : Node → Action β) (top : Node) : (get >>= f).after top = (f top).after top :=
  congrArg Prod.snd (run_get_bind f top)

theorem after_bind_ok {a : Action α} {f : α → Action β} {top : Node} {x : α} (h : a.result top = .ok x) :
    (a >>= f).after top = (f x).after (a.after top) := by
  rw [after, run_bind, h]
  rfl

theorem after_bind_error {a : Action α} {f : α → Action β} {top : Node} {e : Failure} (h : a.result top = .error e) :
    (a >>= f).after top = a.after top := by
  rw [after, run_bind, h]

/-- the action keeps an invariant of the tree, and what it returns is good -/
def Ensures (I : Node → Prop) (a : Action α) (good : α → Prop) : Prop :=
  ∀ top, I top → I (a.after top) ∧ ∀ x, a.result top = .ok x → good x

variable {I : Node → Prop}

theorem ensures_pure {good : α → Prop} {x : α} (h : good x) : Ensures I (pure x) good :=
  fun _ htop => ⟨htop, fun _ hx => Except.ok.inj hx ▸ h⟩

theorem ensures_throw {good : α → Prop} (e : Failure) : Ensures I (throw e) good := by
  intro top htop
  refine ⟨htop, ?_⟩
  intro x hx
  cases hx

theorem ensures_get : Ensures I (get : Action Node) I := by
  intro top htop
  refine ⟨htop, ?_⟩
  intro x hx
  exact Except.ok.inj hx ▸ htop

theorem Ensures.bind {a : Action α} {f : α → Action β} {good : α → Prop} {good' : β → Prop} (ha : Ensures I a good)
    (hf : ∀ x, good x → Ensures I (f x) good') : Ensures I (a >>= f) good' := by
  intro top htop
  obtain ⟨hafter, hgood⟩ := ha top htop
  unfold after result
  rw [run_bind]
  cases hres : a.result top with
  | ok x => exact hf x (hgood x hres) _ hafter
  | error e =>
    refine ⟨hafter, ?_⟩
    intro y hy
    cases hy

theorem ensures_foldlM {good : β → Prop} {f : β → α → Action β} (xs : List α)
    (h : ∀ y, good y → ∀ x ∈ xs, Ensures I (f y x) good) {y : β} (hy : good y) : Ensures I (xs.foldlM f y) good := by
  induction xs generalizing y with
  | nil => exact ensures_pure hy
  | cons x xs ih =>
    rw [List.foldlM_cons]
    exact (h y hy x List.mem_cons_self).bind fun z hz =>
      ih (fun w hw v hv => h w hw v (List.mem_cons_of_mem _ hv)) hz

theorem ensures_ask {good : α → Prop} {f : Node → Except Fault α} {explain : Fault → Failure}
    (h : ∀ top, I top → ∀ x, f top = .ok x → good x) : Ensures I (ask f explain) good := by
  refine ensures_get.bind ?_
  intro top htop
  cases hf : f top with
  | ok x => exact ensures_pure (h top htop x hf)
  | error fault => exact ensures_throw _

theorem run_change (f : Node → Except Fault Node) (explain : Fault → Failure) (top : Node) :
    (change f explain).run.run top = match f top with
      | .ok t => (.ok (), t)
      | .error fault => (.error (explain fault), top) := by
  unfold change
  rw [run_get_bind]
  cases f top <;> rfl

theorem ensures_change {f : Node → Except Fault Node} {explain : Fault → Failure}
    (h : ∀ top t, I top → f top = .ok t → I t) : Ensures I (change f explain) fun _ => True := by
  intro top htop
  refine ⟨?_, fun _ _ => trivial⟩
  rw [after, run_change]
  cases hf : f top with
  | ok t => exact h top t htop hf
  | error fault => exact htop

theorem after_attempt (f : Node → Outcome Unit) (explain : Fault → Failure) (top : Node) :
    (attempt f explain).after top = (f top).1 := by
  unfold attempt after
  rw [run_get_bind]
  obtain ⟨t, outcome⟩ := f top
  cases outcome <;> rfl

theorem ensures_attempt {f : Node → Outcome Unit} {explain : Fault → Failure} (h : ∀ top, I top → I (f top).1) :
    Ensures I (attempt f explain) fun _ => True := by
  intro top htop
  refine ⟨?_, fun _ _ => trivial⟩
  rw [after_attempt]
  exact h top htop

end Action

/-! ## What a build writes -/

/-- a well-formed tree that has the files of `start` outside the zone -/
def Spared (zone : List String) (start t : Node) : Prop := t.Proper ∧ Kept zone start t

theorem Spared.next {zone : List String} {start t u : Node} (h : Spared zone start t) (hs : Spares zone t u) :
    Spared zone start u :=
  ⟨hs.proper h.1, h.2.trans hs.kept⟩

theorem ensures_write {zone : List String} {start : Node} {path : String} (h : zone <+: Path.above path)
    (content : Bytes) (explain : Fault → Failure) :
    Action.Ensures (Spared zone start) (Action.change (Disk.write · path content) explain) fun _ => True :=
  Action.ensures_change fun _ _ ht hw => ht.next ((Disk.write_spares hw).mono h)

theorem ensures_makeDirs (zone : List String) (start : Node) (path : String) (explain : Fault → Failure) :
    Action.Ensures (Spared zone start) (Action.attempt (Disk.makeDirs · path) explain) fun _ => True :=
  Action.ensures_attempt fun top ht => ht.next ((Disk.makeDirs_grows top path).spares zone)

theorem outputExtension_no_slash (src : Bytes) : '/' ∉ (outputExtension src).toList := by
  unfold outputExtension
  split_ifs <;> decide

theorem length_of_isSource {dir name : String} (hname : IsName name) (h : isSource (Path.join dir name) = true) :
    sourceExtension.length ≤ name.toList.length := by
  obtain ⟨ps, hps, -⟩ := Path.pieces_join_names dir (List.cons_ne_nil name []) fun n hn =>
    List.mem_singleton.1 hn ▸ hname
  rw [show "/".intercalate [name] = name from rfl] at hps
  have hext : Path.extension? (Path.join dir name) = some sourceExtension := beq_iff_eq.1 h
  rw [Path.extension?, Path.fileName?_of_pieces hps hname, Option.bind_some] at hext
  exact Path.length_le_of_nameExtension hext

namespace Job

/-- a source is written beside its path in the output directory, and so is its map -/
theorem buildSource_ensures (job : Job) {zone : List String} (start : Node) {path relative dest l : String}
    {ps : List String} (hzone : zone <+: Path.above dest) (hdest : Path.pieces dest = ps ++ [l])
    (hl : sourceExtension.length ≤ l.toList.length) :
    Action.Ensures (Spared zone start) (job.buildSource path relative dest) fun _ => True := by
  have hask : Action.Ensures (Spared zone start) (Action.ask (Disk.readText · path) (.file .read path)) fun _ => True :=
    Action.ensures_ask fun _ _ _ _ => trivial
  refine hask.bind ?_
  intro source _
  cases respell source ⟨some relative, job.settings.inlineMap⟩ with
  | error overlap =>
    have hthrow :
        Action.Ensures (Spared zone start) (throw (.overlapIn path overlap) : Action Respelling) fun _ => False :=
      Action.ensures_throw _
    exact hthrow.bind fun _ h => h.elim
  | ok out =>
    have hpure : Action.Ensures (Spared zone start) (pure out : Action Respelling) fun _ => True :=
      Action.ensures_pure trivial
    refine hpure.bind ?_
    intro out _
    have houtput : zone <+: Path.above (Path.withExtension dest sourceExtension (outputExtension (utf8 source))) := by
      rw [Path.above_withExtension hdest hl (outputExtension_no_slash _)]
      exact hzone
    have hmap : zone <+:
        Path.above (Path.mapFile (Path.withExtension dest sourceExtension (outputExtension (utf8 source)))) := by
      rw [Path.mapFile, Path.above_append _ (by decide)]
      exact houtput
    dsimp only
    by_cases hmaps : job.settings.sourceMaps = true
    · rw [if_pos hmaps]
      exact (ensures_write hmap _ _).bind fun _ _ => ensures_write houtput _ _
    · rw [if_neg hmaps]
      exact ensures_write houtput _ _

/-- a file is carried to the place that its names give in the output directory -/
theorem buildFile_ensures (job : Job) (start : Node) {dir name : String} {back : List String} (done : Summary)
    (hname : IsName name) (hback : ∀ n ∈ back, IsName n) :
    Action.Ensures (Spared (Path.place job.outDir) start)
      (job.buildFile (Path.join dir name) (name :: back).reverse done) fun _ => True := by
  have hne : (name :: back).reverse ≠ [] := by simp
  have hnames : ∀ n ∈ (name :: back).reverse, IsName n := by
    intro n hn
    rcases List.mem_cons.1 (List.mem_reverse.1 hn) with rfl | hn
    · exact hname
    · exact hback n hn
  have hzone :
      Path.place job.outDir <+: Path.above (Path.join job.outDir ("/".intercalate (name :: back).reverse)) := by
    rw [Path.above_join_names job.outDir hne hnames]
    exact List.prefix_append _ _
  have hcarry : Action.Ensures (Spared (Path.place job.outDir) start)
      (if isSource (Path.join dir name) = true then do
        job.buildSource (Path.join dir name) ("/".intercalate (name :: back).reverse)
          (Path.join job.outDir ("/".intercalate (name :: back).reverse))
        pure { done with respelled := done.respelled + 1 }
      else do
        Action.change
          (Disk.copy · (Path.join dir name) (Path.join job.outDir ("/".intercalate (name :: back).reverse)))
          (.file .copy (Path.join dir name))
        pure { done with copied := done.copied + 1 }) fun _ => True := by
    split_ifs with hsource
    · obtain ⟨ps, hps, -⟩ := Path.pieces_join_names job.outDir hne hnames
      rw [List.reverse_cons, ← List.append_assoc] at hps
      rw [List.reverse_cons] at hzone ⊢
      refine (job.buildSource_ensures start hzone hps (length_of_isSource hname hsource)).bind ?_
      exact fun _ _ => Action.ensures_pure trivial
    · refine (Action.ensures_change fun _ _ ht hc => ht.next ((Disk.copy_spares hc).mono hzone)).bind ?_
      exact fun _ _ => Action.ensures_pure trivial
  simp only [buildFile]
  split
  · exact (ensures_makeDirs _ start _ _).bind fun _ _ => hcarry
  · exact hcarry

/-- the walk through the sources writes into the output directory only -/
theorem buildDir_ensures (job : Job) (start : Node) (fuel : Nat) (dir : String) {back : List String} (done : Summary)
    (hback : ∀ n ∈ back, IsName n) :
    Action.Ensures (Spared (Path.place job.outDir) start) (job.buildDir fuel dir back done) fun _ => True := by
  induction fuel generalizing dir back done with
  | zero => exact Action.ensures_throw _
  | succ fuel ih =>
    unfold buildDir
    have hfind : Action.Ensures (Spared (Path.place job.outDir) start)
        (Action.ask (Node.find · dir) (.walk job.rootDir dir)) Node.Proper :=
      Action.ensures_ask fun top ht node hnode => ht.1.get? (find_place hnode)
    refine hfind.bind ?_
    intro node hnode
    refine Action.ensures_foldlM _ ?_ trivial
    rintro done - ⟨name, child⟩ he
    have hname : IsName name := by
      cases hnode with
      | file => cases he
      | dir names _ _ => exact names _ he
    have hnext : ∀ n ∈ name :: back, IsName n := by
      intro n hn
      rcases List.mem_cons.1 hn with rfl | hn
      · exact hname
      · exact hback n hn
    dsimp only
    split_ifs with hsame hdir
    · exact Action.ensures_pure trivial
    · exact ih _ done hnext
    · exact job.buildFile_ensures start done hname hback

/-- what a build does that is not refused: empty the output directory if it is there, make it, and walk -/
def proceed (job : Job) : Action Summary := do
  let top ← get
  if Disk.holds top job.outDir then
    Action.attempt (Disk.removeTree · job.outDir) (.file .empty job.outDir)
  Action.attempt (Disk.makeDirs · job.outDir) (.file .create job.outDir)
  job.buildDir (Path.byteLimit / 2) job.rootDir [] ⟨0, 0⟩

theorem run_eq (job : Job) (top : Node) :
    job.run.run.run top =
      if Disk.isDir top job.rootDir = false then (.error (.rootNotDirectory job.rootDir), top)
      else if Path.isBelow job.rootDir job.outDir = true then (.error (.outContainsRoot job.outDir job.rootDir), top)
      else job.proceed.run.run top := by
  unfold run
  rw [Action.run_get_bind]
  cases hroot : Disk.isDir top job.rootDir with
  | false => rfl
  | true =>
    cases hbelow : Path.isBelow job.rootDir job.outDir with
    | true => rfl
    | false => rfl

/-- all that a build changes is the place of the output directory -/
theorem proceed_ensures (job : Job) (start : Node) :
    Action.Ensures (Spared (Path.place job.outDir) start) job.proceed fun _ => True := by
  have hwalk : Action.Ensures (Spared (Path.place job.outDir) start) (do
      Action.attempt (Disk.makeDirs · job.outDir) (.file .create job.outDir)
      job.buildDir (Path.byteLimit / 2) job.rootDir [] ⟨0, 0⟩) fun _ => True :=
    (ensures_makeDirs _ start _ _).bind fun _ _ => job.buildDir_ensures start _ _ _ (by simp)
  have hremove : Action.Ensures (Spared (Path.place job.outDir) start)
      (Action.attempt (Disk.removeTree · job.outDir) (.file .empty job.outDir)) fun _ => True :=
    Action.ensures_attempt fun top ht => ht.next (Disk.removeTree_spares top _)
  refine Action.ensures_get.bind ?_
  intro top _
  dsimp only
  split_ifs
  · exact hremove.bind fun _ _ => hwalk
  · exact hwalk

/-- **Every file outside the output directory is kept,** whether the build succeeds or fails. -/
theorem kept_run (job : Job) {top : Node} (htop : top.Proper) :
    Kept (Path.place job.outDir) top (job.run.after top) := by
  unfold Action.after
  rw [run_eq]
  split_ifs
  · exact .refl _ top
  · exact .refl _ top
  · exact (job.proceed_ensures top top ⟨htop, .refl _ top⟩).1.2

/-! ## Sources in the output directory -/

theorem buildDir_bare (job : Job) {t : Node} (ht : t.Proper) {zone : List String} (hbare : Bare zone t) (fuel : Nat)
    {dir : String} (hdir : zone <+: Path.place dir) (back : List String) (done : Summary) :
    Action.Ensures (· = t) (job.buildDir fuel dir back done) fun _ => True := by
  induction fuel generalizing dir back done with
  | zero => exact Action.ensures_throw _
  | succ fuel ih =>
    unfold buildDir
    have hfind : Action.Ensures (· = t) (Action.ask (Node.find · dir) (.walk job.rootDir dir))
        fun node => t.get? (Path.place dir) = some node :=
      Action.ensures_ask fun top htop node hnode => htop ▸ find_place hnode
    refine hfind.bind ?_
    intro node hnode
    refine Action.ensures_foldlM _ ?_ trivial
    rintro done - ⟨name, child⟩ he
    obtain ⟨hname, hchild⟩ : IsName name ∧ t.get? (Path.place dir ++ [name]) = some child := by
      have hproper := ht.get? hnode
      rw [get?_append, hnode, Option.bind_some, get?_singleton]
      cases hproper with
      | file => cases he
      | dir names increasing _ => exact ⟨names _ he, lookup_of_mem increasing he⟩
    dsimp only
    split_ifs with hsame hisDir
    · exact Action.ensures_pure trivial
    · refine ih ?_ _ done
      rw [Path.place_join_name dir hname]
      exact hdir.trans (List.prefix_append _ _)
    · cases child with
      | dir es => exact absurd rfl hisDir
      | file content => exact absurd hchild (hbare _ content (hdir.trans (List.prefix_append _ _)))

/-- **An output directory that contains the sources and is not refused** is left without a file. -/
theorem bare_proceed (job : Job) {top : Node} (htop : top.Proper) (hout : Disk.isDir top job.outDir = true)
    (hin : Path.place job.outDir <+: Path.place job.rootDir) :
    Bare (Path.place job.outDir) (job.proceed.after top) := by
  have hholds : Disk.holds top job.outDir = true := by
    unfold Disk.isDir at hout
    unfold Disk.holds
    cases hfind : top.find job.outDir with
    | ok node => rfl
    | error fault =>
      rw [hfind] at hout
      cases hout
  unfold proceed
  rw [Action.after_get_bind]
  simp only [hholds, if_true]
  have hremoved := Disk.removeTree_bare hout
  have hproper := (Disk.removeTree_spares top job.outDir).proper htop
  -- the directory may be left and the build end here
  generalize hremove : Action.attempt (Disk.removeTree · job.outDir) (.file .empty job.outDir) = remove
  have hafter : remove.after top = (Disk.removeTree top job.outDir).1 := hremove ▸ Action.after_attempt _ _ top
  rw [← hafter] at hremoved hproper
  cases hres : remove.result top with
  | error e =>
    rw [Action.after_bind_error hres]
    exact hremoved
  | ok _ =>
    rw [Action.after_bind_ok hres]
    have hgrows := Disk.makeDirs_grows (remove.after top) job.outDir
    generalize remove.after top = cleared at hremoved hproper hgrows
    have hmade := hgrows.bare hremoved
    have hproper' := (hgrows.spares []).proper hproper
    generalize hmake : Action.attempt (Disk.makeDirs · job.outDir) (.file .create job.outDir) = make
    have hafter' : make.after cleared = (Disk.makeDirs cleared job.outDir).1 := hmake ▸ Action.after_attempt _ _ cleared
    rw [← hafter'] at hmade hproper'
    cases hres' : make.result cleared with
    | error e =>
      rw [Action.after_bind_error hres']
      exact hmade
    | ok _ =>
      rw [Action.after_bind_ok hres', (job.buildDir_bare hproper' hmade _ hin [] ⟨0, 0⟩ _ rfl).1]
      exact hmade

/-- below the directory of sources, and not below an output directory inside it -/
def InSources (job : Job) (p : List String) : Prop :=
  Path.place job.rootDir <+: p ∧
    ¬ (Path.place job.rootDir <+: Path.place job.outDir ∧ Path.place job.outDir ≠ Path.place job.rootDir ∧
      Path.place job.outDir <+: p)

end Job

/-! ## The whole -/

/-- the settings of a project are written plainly: neither path is absolute or goes up, and from an empty root both
begin with `.` or neither does -/
structure PlainSettings (root : String) (settings : Settings) : Prop where
  rootDir : Path.Plain settings.rootDir
  outDir : Path.Plain settings.outDir
  same_start : root = "" →
    ((Path.pieces settings.rootDir).head? = some "." ↔ (Path.pieces settings.outDir).head? = some ".")

/-- **What a build leaves alone.** Take a build in any well-formed tree. (1) If the components of the output directory
begin those of the directory of sources, the tree stays as it is, and the build is refused for that reason if there is
a directory of sources. (2) Whatever the settings, every file outside the place of the output directory is kept. (3)
With plain settings every source is kept, and a build whose output directory is the directory of sources or contains
it is refused. (4) An output directory that is there, contains the directory of sources and does not show it in its
components is left without a file, and so are the sources. -/
theorem build_spares {top : Node} (htop : top.Proper) (root : String) (settings : Settings) :
    let job := Job.ofProject root settings
    (Path.isBelow job.rootDir job.outDir = true →
      (build root settings).after top = top ∧
        (Disk.isDir top job.rootDir = true →
          (build root settings).result top = .error (.outContainsRoot job.outDir job.rootDir))) ∧
    Kept (Path.place job.outDir) top ((build root settings).after top) ∧
    (PlainSettings root settings →
      (∀ p content, job.InSources p → top.get? p = some (.file content) →
        ((build root settings).after top).get? p = some (.file content)) ∧
      (Path.place job.outDir <+: Path.place job.rootDir → Disk.isDir top job.rootDir = true →
        (build root settings).after top = top ∧
          (build root settings).result top = .error (.outContainsRoot job.outDir job.rootDir))) ∧
    (Disk.isDir top job.rootDir = true → Disk.isDir top job.outDir = true →
      Path.place job.outDir <+: Path.place job.rootDir → Path.isBelow job.rootDir job.outDir = false →
      Bare (Path.place job.outDir) ((build root settings).after top)) := by
  intro job
  rw [show build root settings = job.run from rfl]
  have hrefused : Path.isBelow job.rootDir job.outDir = true →
      job.run.after top = top ∧ (Disk.isDir top job.rootDir = true →
        job.run.result top = .error (.outContainsRoot job.outDir job.rootDir)) := by
    intro hbelow
    unfold Action.after Action.result
    rw [Job.run_eq, if_pos hbelow]
    constructor
    · split_ifs <;> rfl
    · intro hroot
      rw [hroot]
      rfl
  have hkept := job.kept_run htop
  refine ⟨hrefused, hkept, ?_, ?_⟩
  · intro hplain
    have hiff : Path.isBelow job.rootDir job.outDir = true ↔ Path.place job.outDir <+: Path.place job.rootDir :=
      Path.isBelow_join_iff root hplain.rootDir hplain.outDir hplain.same_start
    refine ⟨?_, fun hin hroot => ⟨(hrefused (hiff.2 hin)).1, (hrefused (hiff.2 hin)).2 hroot⟩⟩
    intro p content hp hfile
    by_cases hout : Path.place job.outDir <+: p
    · -- both directories lead to the file, so one of them contains the other
      have hin : Path.place job.outDir <+: Path.place job.rootDir := by
        rcases List.prefix_or_prefix_of_prefix hp.1 hout with hinner | hin
        · by_cases heq : Path.place job.outDir = Path.place job.rootDir
          · exact heq.symm ▸ List.prefix_rfl
          · exact absurd ⟨hinner, heq, hout⟩ hp.2
        · exact hin
      rw [(hrefused (hiff.2 hin)).1]
      exact hfile
    · exact hkept p content hout hfile
  · intro hroot hout hin hbelow
    have hproceed : job.run.after top = job.proceed.after top := by
      unfold Action.after
      rw [Job.run_eq, hroot, hbelow]
      rfl
    rw [hproceed]
    exact job.bare_proceed htop hout hin

/-- a project with one source, whose output goes where that source is -/
def smallProject : Node :=
  Disk.ofListing [("neha.toml", some (utf8 "out_dir = \"src\"\n")), ("src/a.neha", some (utf8 "tay a = 1;\n"))]

/-- settings that put the output around the sources, plainly written -/
def aroundSources : Settings := { Settings.default with outDir := "." }

/-- the settings of this project: the output directory is written without the `.` of the sources' directory -/
def ontoSources : Settings := { Settings.default with outDir := "src" }

/-- from an empty root, the first of these settings is refused; the second is not and leaves no source -/
theorem build_spares_small :
    smallProject.Proper ∧ PlainSettings "" aroundSources ∧
      ((build "" aroundSources).after smallProject = smallProject ∧
        (build "" aroundSources).result smallProject = .error (.outContainsRoot "." "./src")) ∧
      Bare (Path.place "src") ((build "" ontoSources).after smallProject) := by
  have hproper : smallProject.Proper := Disk.ofListing_proper _
  have hplain : PlainSettings "" aroundSources :=
    ⟨⟨by decide +kernel, by decide +kernel⟩, ⟨by decide +kernel, by decide +kernel⟩, by decide +kernel⟩
  obtain ⟨-, -, hrefuse, -⟩ := build_spares hproper "" aroundSources
  obtain ⟨-, -, -, hlost⟩ := build_spares hproper "" ontoSources
  exact ⟨hproper, hplain, (hrefuse hplain).2 (by decide +kernel) (by decide +kernel),
    hlost (by decide +kernel) (by decide +kernel) (by decide +kernel) (by decide +kernel)⟩

/-- **Sources lost.** The build succeeds, and the source that was there is gone. -/
theorem sources_emptied :
    Settings.load smallProject "" = ontoSources ∧
      (smallProject.get? ["src", "a.neha"]).bind Node.content? = some (utf8 "tay a = 1;\n") ∧
      ((build "" ontoSources).result smallProject).toOption = some ⟨0, 0⟩ ∧
      ((build "" ontoSources).after smallProject).get? ["src", "a.neha"] = none :=
  ⟨by decide +kernel, by decide +kernel, by decide +kernel, Option.isNone_iff_eq_none.1 (by decide +kernel)⟩

end Respell
