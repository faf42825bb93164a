/-
What stands in the output directory after a build. A build that succeeds has emptied the output directory, or found that
there was none, and has carried over every file outside it (`Job.run_walked`). Its outputs are those that `Makes` lists,
except where two of them fall on one place.

Two sources never share a place, and no output has the name of a source. So the one collision is that of a source's
output with a file that is no source: `a.neha` and `a.ts` both go to `a.ts`. The copy is made later, since `.neha`
comes before `.ts` and `.tsx`, and what the source made is gone (`outputs_delivered`). Without collisions the output
directory has exactly the outputs (`outputs_exact`).
-/
import Respell.Proofs.BuildWalk

namespace Respell

open Node

/-! ## Outputs on one place -/

theorem lookup_of_forall {α β : Type} [BEq α] [LawfulBEq α] {l : List (α × β)} {a : α} {b : β} (hmem : (a, b) ∈ l)
    (h : ∀ w ∈ l, w.1 = a → w.2 = b) : l.lookup a = some b := by
  induction l with
  | nil => cases hmem
  | cons w l ih =>
    obtain ⟨key, value⟩ := w
    rw [List.lookup_cons]
    by_cases hkey : key = a
    · rw [beq_iff_eq.2 hkey.symm]
      exact congrArg some (h _ List.mem_cons_self hkey)
    · rw [beq_eq_false_iff_ne.2 (Ne.symm hkey)]
      have hrest : (a, b) ∈ l := (List.mem_cons.1 hmem).resolve_left fun heq => hkey (congrArg Prod.fst heq).symm
      exact ih hrest fun v hv => h v (List.mem_cons_of_mem _ hv)

namespace Makes

variable {settings : Settings} {names names' q : List String} {content content' b b' : Bytes}

/-- what may take the place of the extension of sources -/
def newExtensions : List String := ["ts", "tsx", "ts.map", "tsx.map"]

theorem outputExtension_mem (src : Bytes) : outputExtension src = "ts" ∨ outputExtension src = "tsx" := by
  unfold outputExtension
  split_ifs
  · exact .inr rfl
  · exact .inl rfl

/-- a source makes files beside it, with other extensions -/
theorem of_source (h : Makes settings names content q b) (hsource : namesSource names = true) :
    ∃ dir stem, ∃ ext ∈ newExtensions, stem ≠ "" ∧ names = dir ++ [stem ++ ".neha"] ∧
      q = dir ++ [stem ++ ("." ++ ext)] := by
  cases h with
  | copy hother => exact absurd (hsource.symm.trans hother) (by decide)
  | @code dir stem text out hnames hstem htext hout =>
    refine ⟨dir, stem, outputExtension content, ?_, hstem, hnames, rfl⟩
    rcases outputExtension_mem content with hext | hext <;> rw [hext] <;> decide
  | @map dir stem text out hnames hstem htext hout hmaps =>
    refine ⟨dir, stem, outputExtension content ++ ".map", ?_, hstem, hnames, ?_⟩
    · rcases outputExtension_mem content with hext | hext <;> rw [hext] <;> decide
    · rw [String.append_assoc, String.append_assoc]

theorem newExtension_inj {stem stem' ext ext' : String} (hext : ext ∈ newExtensions) (hext' : ext' ∈ newExtensions)
    (h : stem ++ ("." ++ ext) = stem' ++ ("." ++ ext')) : stem = stem' := by
  have hback : ext.toList.reverse ++ '.' :: stem.toList.reverse =
      ext'.toList.reverse ++ '.' :: stem'.toList.reverse := by
    simpa using congrArg (fun s => s.toList.reverse) h
  simp only [newExtensions, List.mem_cons, List.not_mem_nil, or_false] at hext hext'
  rcases hext with rfl | rfl | rfl | rfl <;> rcases hext' with rfl | rfl | rfl | rfl <;> simp_all

/-- **Two sources never share a place.** -/
theorem source_inj (h : Makes settings names content q b) (h' : Makes settings names' content' q b')
    (hsource : namesSource names = true) (hsource' : namesSource names' = true) : names = names' := by
  obtain ⟨dir, stem, ext, hext, -, rfl, rfl⟩ := h.of_source hsource
  obtain ⟨dir', stem', ext', hext', -, rfl, heq⟩ := h'.of_source hsource'
  obtain ⟨rfl, hlast⟩ := List.append_inj' heq rfl
  rw [newExtension_inj hext hext' (List.singleton_inj.1 hlast)]

theorem of_other (h : Makes settings names content q b) (hother : namesSource names = false) :
    q = names ∧ b = content := by
  cases h with
  | copy _ => exact ⟨rfl, rfl⟩
  | code hnames hstem _ _ => exact absurd (hother.symm.trans (namesSource_iff.2 ⟨_, _, hstem, hnames⟩)) (by decide)
  | map hnames hstem _ _ _ => exact absurd (hother.symm.trans (namesSource_iff.2 ⟨_, _, hstem, hnames⟩)) (by decide)

theorem other (h : Makes settings names content q b) : namesSource q = false := by
  cases hsource : namesSource names with
  | false => rw [(h.of_other hsource).1, hsource]
  | true =>
    obtain ⟨dir, stem, ext, hext, -, -, rfl⟩ := h.of_source hsource
    rw [← Bool.not_eq_true]
    intro hq
    obtain ⟨dir', stem', -, heq⟩ := namesSource_iff.1 hq
    obtain ⟨-, hlast⟩ := List.append_inj' heq rfl
    have hback : ext.toList.reverse ++ '.' :: stem.toList.reverse =
        'a' :: 'h' :: 'e' :: 'n' :: '.' :: stem'.toList.reverse := by
      simpa using congrArg (fun s => s.toList.reverse) (List.singleton_inj.1 hlast)
    simp only [newExtensions, List.mem_cons, List.not_mem_nil, or_false] at hext
    rcases hext with rfl | rfl | rfl | rfl <;> simp at hback

/-- what a source makes comes behind it in the order of a walk -/
theorem source_lt (h : Makes settings names content q b) (hsource : namesSource names = true) : names < q := by
  obtain ⟨dir, stem, ext, hext, -, rfl, rfl⟩ := h.of_source hsource
  have hlt : stem ++ ".neha" < stem ++ ("." ++ ext) := by
    rw [String.lt_iff_toList_lt]
    simp only [newExtensions, List.mem_cons, List.not_mem_nil, or_false] at hext
    simp only [String.toList_append]
    apply List.append_left_lt
    rcases hext with rfl | rfl | rfl | rfl <;> decide
  apply List.append_left_lt
  exact List.Lex.rel hlt

theorem unique (h : Makes settings names content q b) (h' : Makes settings names content q b') : b = b' := by
  cases hsource : namesSource names with
  | false => rw [(h.of_other hsource).2, (h'.of_other hsource).2]
  | true =>
    obtain ⟨dir, stem, -, -, hstem, rfl, -⟩ := h.of_source hsource
    obtain ⟨text, out, rfl, hout⟩ : ∃ text out, content = utf8 text ∧
        respell text ⟨some ("/".intercalate (dir ++ [stem ++ ".neha"])), false⟩ = .ok out := by
      cases h with
      | copy hother => exact absurd (hsource.symm.trans hother) (by decide)
      | code _ _ htext hout => exact ⟨_, _, htext, hout⟩
      | map _ _ htext hout _ => exact ⟨_, _, htext, hout⟩
    have hlist : outputs settings _ (utf8 text) = _ := outputs_source hstem hout
    rw [← mem_outputs_iff (w := (q, b)), hlist, sourceOutputs] at h
    rw [← mem_outputs_iff (w := (q, b')), hlist, sourceOutputs] at h'
    generalize stem ++ ("." ++ outputExtension (utf8 text)) = name at h h'
    have hne : dir ++ [name ++ ".map"] ≠ dir ++ [name] := by
      intro heq
      have hname := List.singleton_inj.1 (List.append_cancel_left heq)
      have hlen := congrArg String.length hname
      rw [String.length_append] at hlen
      exact absurd hlen (by simp)
    simp only [List.mem_append, List.mem_ite_nil_right, List.mem_singleton, Prod.mk.injEq] at h h'
    rcases h with ⟨-, hq, hb⟩ | ⟨hq, hb⟩ <;> rcases h' with ⟨-, hq', hb'⟩ | ⟨hq', hb'⟩
    · rw [hb, hb']
    · exact absurd (hq.symm.trans hq') hne
    · exact absurd (hq'.symm.trans hq) hne
    · rw [hb, hb']

end Makes

namespace Job

/-- a file of the directory of sources that is not in the output directory -/
structure Input (job : Job) (top : Node) (names : List String) (content : Bytes) : Prop where
  file : top.bytesAt (Path.place job.rootDir ++ names) = some content
  outside : ¬ Path.place job.outDir <+: Path.place job.rootDir ++ names

theorem mem_deliveries {job : Job} {start : Node} {files : List (List String)} {w : List String × Bytes} :
    w ∈ job.deliveries start files ↔
      ∃ names ∈ files,
        Makes job.settings names ((start.bytesAt (Path.place job.rootDir ++ names)).getD #[]) w.1 w.2 := by
  simp only [deliveries, List.mem_flatMap, mem_outputs_iff]

section

variable {job : Job} {start : Node} {files : List (List String)} {names q : List String} {content b : Bytes}

theorem lookup_deliveries_copy (hfiles : files.Pairwise (· < ·)) (hq : q ∈ files) (hother : namesSource q = false)
    (hcontent : start.bytesAt (Path.place job.rootDir ++ q) = some content) :
    (job.deliveries start files).reverse.lookup q = some content := by
  obtain ⟨before, after, rfl⟩ := List.append_of_mem hq
  have hlater : (job.deliveries start after).reverse.lookup q = none := by
    rw [List.lookup_eq_none_iff]
    intro w hw
    refine bne_iff_ne.2 fun heq => ?_
    obtain ⟨names, hnames, hmakes⟩ := mem_deliveries.1 (List.mem_reverse.1 hw)
    have hlt : q < names := (List.pairwise_cons.1 (List.pairwise_append.1 hfiles).2.1).1 names hnames
    rw [← heq] at hmakes
    -- what falls on `q` comes from `q` or from a source before it, and the walk is past both
    cases hsource : namesSource names with
    | true => exact absurd (hlt.trans (hmakes.source_lt hsource)) (lt_irrefl q)
    | false => exact absurd ((hmakes.of_other hsource).1 ▸ hlt) (lt_irrefl names)
  have hcopy : outputs job.settings q content = [(q, content)] := by simp [outputs, hother]
  rw [deliveries, List.flatMap_append, List.flatMap_cons, hcontent, Option.getD_some, hcopy, List.reverse_append,
    List.reverse_append, List.append_assoc, List.lookup_append]
  change (((job.deliveries start after).reverse.lookup q).or _) = _
  rw [hlater, Option.none_or, List.reverse_singleton, List.singleton_append, List.lookup_cons_self]

theorem lookup_deliveries_unique (hnames : names ∈ files)
    (hcontent : start.bytesAt (Path.place job.rootDir ++ names) = some content)
    (hmakes : Makes job.settings names content q b)
    (h : ∀ names' ∈ files, ∀ b',
      Makes job.settings names' ((start.bytesAt (Path.place job.rootDir ++ names')).getD #[]) q b' → names' = names) :
    (job.deliveries start files).reverse.lookup q = some b := by
  apply lookup_of_forall
  · refine List.mem_reverse.2 (mem_deliveries.2 ⟨names, hnames, ?_⟩)
    rw [hcontent]
    exact hmakes
  · intro w hw hkey
    obtain ⟨names', hnames', hmakes'⟩ := mem_deliveries.1 (List.mem_reverse.1 hw)
    rw [hkey] at hmakes'
    obtain rfl := h names' hnames' _ hmakes'
    rw [hcontent] at hmakes'
    exact hmakes'.unique hmakes

end

end Job

/-! ## Directories that were not there -/

theorem Node.follow_init {top : Node} {ps qs : List String} {way way' : Way}
    (h : follow top (ps ++ qs) way = .ok way') : ∃ between, follow top ps way = .ok between := by
  rw [follow_append] at h
  cases hinit : follow top ps way with
  | ok between => exact ⟨between, rfl⟩
  | error fault =>
    rw [hinit] at h
    cases h

/-- no name is missed on a way that goes down to something -/
theorem Node.follow_down {top : Node} {way : Way} (hway : Way.Sound top way) {ps rest : List String} (hps : ".." ∉ ps)
    (h : top.get? (way.names ++ ((ps.filter fun p => p ≠ "" && p ≠ ".") ++ rest)) ≠ none) :
    follow top ps way ≠ .error .notFound := by
  induction ps generalizing way with
  | nil => simp [follow]
  | cons piece ps ih =>
    obtain ⟨hpiece, hps⟩ := not_or.1 (mt List.mem_cons.2 hps)
    unfold follow
    cases hhere : Way.here top way with
    | file content => simp
    | dir es =>
      simp only
      split_ifs with hstay hup hfits
      · have hdrop : (piece :: ps).filter (fun p => p ≠ "" && p ≠ ".") = ps.filter fun p => p ≠ "" && p ≠ "." :=
          List.filter_cons_of_neg (by simpa [or_iff_not_imp_left] using hstay)
        exact ih hway hps (hdrop ▸ h)
      · exact absurd hup.symm hpiece
      · simp
      · have hkeep : (piece :: ps).filter (fun p => p ≠ "" && p ≠ ".") =
            piece :: ps.filter fun p => p ≠ "" && p ≠ "." :=
          List.filter_cons_of_pos (by simpa [not_or] using hstay)
        rw [hkeep, List.cons_append] at h
        have hfound : (Node.dir es).get? [piece] ≠ none := by
          intro hnone
          refine h ?_
          rw [get?_append, hway.get?, Option.bind_some, hhere, ← List.singleton_append, get?_append, hnone]
          rfl
        rw [get?_singleton] at hfound
        cases hchild : es.lookup piece with
        | none => exact absurd hchild hfound
        | some child =>
          refine ih ⟨?_, hway⟩ hps ?_
          · rw [hhere, get?_singleton]
            exact hchild
          · rw [Way.names_cons, List.append_assoc, List.singleton_append]
            exact h

/-- what a path to something new misses is missed on a way to a directory above -/
theorem Node.target_missing {top : Node} {path : String} (hpath : path ≠ "") (h : target top path = .error .notFound) :
    ∃ ps, ps <+: Path.pieces path ∧ follow top (ps ++ ["."]) [] = .error .notFound := by
  unfold target at h
  cases hlegal : legalPieces path with
  | error fault =>
    rw [hlegal] at h
    obtain rfl := Except.error.inj h
    unfold legalPieces at hlegal
    split_ifs at hlegal
    all_goals cases hlegal
  | ok ps =>
    obtain rfl := legalPieces_eq hlegal
    obtain ⟨empties, hbody, -, -⟩ := Path.exists_body (Path.pieces path)
    simp only [hlegal] at h
    generalize ((Path.pieces path).reverse.dropWhile fun x => decide (x = "")).reverse = body at h hbody
    cases hname : body.getLast? with
    | none =>
      simp only [hname] at h
      cases h
    | some last =>
      simp only [hname] at h
      refine ⟨body.dropLast, ?_, ?_⟩
      · rw [hbody]
        exact (List.dropLast_prefix body).trans (List.prefix_append _ _)
      · cases hfollow : follow top (body.dropLast ++ ["."]) [] with
        | error fault =>
          simp only [hfollow] at h
          rw [Except.error.inj h]
        | ok way =>
          simp only [hfollow] at h
          split_ifs at h

theorem Disk.isDir_located {top : Node} {path : String} (h : isDir top path = true) :
    ∃ way, follow top (Path.pieces path) [] = .ok way := by
  unfold isDir Node.find Node.locate at h
  cases hlegal : legalPieces path with
  | error fault =>
    rw [hlegal] at h
    cases h
  | ok ps =>
    obtain rfl := legalPieces_eq hlegal
    rw [hlegal] at h
    cases hfollow : follow top (Path.pieces path) [] with
    | ok way => exact ⟨way, rfl⟩
    | error fault =>
      simp only [hfollow] at h
      cases h

/-- a path on which no directory above is missing, and that means nothing, leads to a new directory -/
theorem Disk.makeDirs_fresh {top : Node} {path : String} (hpath : path ≠ "")
    (hways : ∀ ps, ps <+: Path.pieces path → follow top (ps ++ ["."]) [] ≠ .error .notFound)
    (hmissing : holds top path = false) (hok : (makeDirs top path).2 = .ok ()) : top.get? (Path.place path) = none := by
  have hnot : isDir top path = false := by
    unfold holds at hmissing
    unfold isDir
    cases hfind : top.find path with
    | error fault => rfl
    | ok node =>
      rw [hfind] at hmissing
      cases hmissing
  unfold makeDirs makeDirsWithin at hok
  rw [if_neg hpath] at hok
  cases htarget : top.target path with
  | error fault =>
    have hmake : makeDir top path = .error fault := by rw [makeDir, htarget]
    have hfault : fault ≠ .notFound := by
      rintro rfl
      obtain ⟨ps, hps, hfollow⟩ := target_missing hpath htarget
      exact hways ps hps hfollow
    rw [hmake, hnot] at hok
    cases fault <;> first | exact absurd rfl hfault | cases hok
  | ok target =>
    cases target with
    | directory =>
      have hmake : makeDir top path = .error .alreadyExists := by rw [makeDir, htarget]
      rw [hmake, hnot] at hok
      cases hok
    | entry dir name there slashed =>
      obtain ⟨-, hthere, -⟩ := target_entry htarget
      by_contra hsome
      have hmake : makeDir top path = .error .alreadyExists := by
        rw [makeDir, htarget]
        exact if_pos (Option.isSome_iff_ne_none.2 (hthere ▸ hsome))
      rw [hmake, hnot] at hok
      cases hok

namespace Job

/-! ## Before the walk -/

/-- the tree when the walk begins -/
structure Cleared (job : Job) (top start : Node) : Prop where
  proper : start.Proper
  outside : ∀ p, ¬ Path.place job.outDir <+: p → start.bytesAt p = top.bytesAt p
  atOut : start.bytesAt (Path.place job.outDir) = none
  before : top.bytesAt (Path.place job.outDir) = none
  /-- the output directory is empty, or was not found and is made -/
  inside : (∀ q, start.bytesAt (Path.place job.outDir ++ q) = none) ∨
    Disk.holds top job.outDir = false ∧ (Disk.makeDirs top job.outDir).2 = .ok () ∧ ∀ p, start.bytesAt p = top.bytesAt p

/-- the files that a build carries over, in the order of the walk -/
def inputs (job : Job) (top : Node) : List (List String) :=
  ((top.get? (Path.place job.rootDir)).map (job.filesFrom [])).getD []

theorem Input.ne_nil {job : Job} {top : Node} {names : List String} {content : Bytes} (h : job.Input top names content)
    (hroot : Disk.isDir top job.rootDir = true) : names ≠ [] := by
  rintro rfl
  obtain ⟨es, hes⟩ := Disk.isDir_there hroot
  have hfile := h.file
  rw [bytesAt_append hes] at hfile
  cases hfile

/-- what a file makes falls outside the output directory when it is taken from the directory of sources, or at its
top -/
theorem Input.beside {job : Job} {top : Node} {names q : List String} {content b : Bytes}
    (h : job.Input top names content) (hnames : names ≠ []) (hmakes : Makes job.settings names content q b)
    (hq : Path.place job.outDir <+: Path.place job.rootDir ++ q) :
    Path.place job.outDir = Path.place job.rootDir ++ q := by
  obtain ⟨name, rfl⟩ := hmakes.dropLast hnames
  rw [← List.append_assoc, List.prefix_concat_iff, List.append_assoc] at hq
  refine hq.resolve_right fun hin => h.outside (hin.trans ?_)
  exact (List.prefix_append_right_inj _).2 (List.dropLast_prefix names)

theorem mem_inputs {job : Job} {top : Node} (htop : top.Proper) (hroot : Disk.isDir top job.rootDir = true)
    {names : List String} : names ∈ job.inputs top ↔ ∃ content, job.Input top names content := by
  obtain ⟨es, hes⟩ := Disk.isDir_there hroot
  have hproper := htop.get? hes
  simp only [inputs, hes, Option.map_some, Option.getD_some, filesFrom, List.mem_filter, List.mem_map, List.nil_append,
    exists_eq_right, mem_files_iff hproper, outside_iff, ← bytesAt_append hes]
  constructor
  · intro h
    obtain ⟨content, hcontent⟩ := Option.isSome_iff_exists.1 h.1.2
    exact ⟨content, hcontent, h.2⟩
  · rintro ⟨content, hinput⟩
    exact ⟨⟨hinput.ne_nil hroot, Option.isSome_iff_exists.2 ⟨content, hinput.file⟩⟩, hinput.outside⟩

theorem inputs_pairwise {job : Job} {top : Node} (htop : top.Proper) : (job.inputs top).Pairwise (· < ·) := by
  unfold inputs
  cases hroot : top.get? (Path.place job.rootDir) with
  | none => exact .nil
  | some node =>
    simp only [Option.map_some, Option.getD_some, filesFrom, List.nil_append, List.map_id']
    exact (files_pairwise (htop.get? hroot)).filter _

/-- the walk comes to every file once -/
theorem countP_inputs {job : Job} {top : Node} (htop : top.Proper) (hroot : Disk.isDir top job.rootDir = true)
    (p : List String → Bool) :
    (job.inputs top).countP p = {names | (∃ content, job.Input top names content) ∧ p names = true}.ncard := by
  have hnodup : (job.inputs top).Nodup := (inputs_pairwise htop).imp fun hlt => ne_of_lt hlt
  have hset : {names | (∃ content, job.Input top names content) ∧ p names = true} =
      ((job.inputs top).filter p).toFinset := by
    ext names
    simp [mem_inputs htop hroot]
  rw [hset, Set.ncard_coe_finset, List.toFinset_card_of_nodup (hnodup.filter _), List.countP_eq_length_filter]

theorem Cleared.shows {job : Job} {top start node : Node} (h : job.Cleared top start) (htop : top.Proper)
    (hnode : top.get? (Path.place job.rootDir) = some node) : job.Shows start [] node := by
  refine ⟨htop.get? hnode, fun q hq => ?_, fun q hq => ?_⟩
  · rw [h.outside _ (outside_iff.1 hq), List.nil_append, bytesAt_append hnode]
  · rw [← bytesAt_append hnode, ← List.nil_append q, hq, h.before]

theorem Cleared.input {job : Job} {top start : Node} (h : job.Cleared top start) {names : List String} {content : Bytes}
    (hinput : job.Input top names content) : start.bytesAt (Path.place job.rootDir ++ names) = some content := by
  rw [h.outside _ hinput.outside, hinput.file]

theorem Cleared.lookup_unique {job : Job} {top start : Node} (h : job.Cleared top start) (htop : top.Proper)
    (hroot : Disk.isDir top job.rootDir = true) {names q : List String} {content b : Bytes}
    (hinput : job.Input top names content) (hmakes : Makes job.settings names content q b)
    (hunique : ∀ names' content' b', job.Input top names' content' → Makes job.settings names' content' q b' →
      names' = names) : (job.deliveries start (job.inputs top)).reverse.lookup q = some b := by
  refine lookup_deliveries_unique ((mem_inputs htop hroot).2 ⟨content, hinput⟩) (h.input hinput) hmakes ?_
  intro names' hnames' b' hmakes'
  obtain ⟨content', hinput'⟩ := (mem_inputs htop hroot).1 hnames'
  rw [h.input hinput', Option.getD_some] at hmakes'
  exact hunique names' content' b' hinput' hmakes'

theorem Cleared.exists_input {job : Job} {top start : Node} (h : job.Cleared top start) (htop : top.Proper)
    (hroot : Disk.isDir top job.rootDir = true) {q : List String} {b : Bytes}
    (hmade : (job.deliveries start (job.inputs top)).reverse.lookup q = some b) :
    ∃ names content, job.Input top names content ∧ Makes job.settings names content q b := by
  obtain ⟨later, earlier, heq, -⟩ := List.lookup_eq_some_iff.1 hmade
  have hmem : (q, b) ∈ job.deliveries start (job.inputs top) :=
    List.mem_reverse.1 (heq ▸ List.mem_append_right later List.mem_cons_self)
  obtain ⟨names, hnames, hmakes⟩ := mem_deliveries.1 hmem
  obtain ⟨content, hinput⟩ := (mem_inputs htop hroot).1 hnames
  rw [h.input hinput, Option.getD_some] at hmakes
  exact ⟨names, content, hinput, hmakes⟩

theorem Cleared.stage {job : Job} {top start : Node} (h : job.Cleared top start) : job.Stage start [] start :=
  ⟨h.proper, fun _ _ => rfl, fun _ _ => rfl, h.atOut⟩

theorem makeDirs_atOut {job : Job} {t : Node} (hempty : job.outDir ≠ "") (h : (Disk.makeDirs t job.outDir).2 = .ok ()) :
    (Disk.makeDirs t job.outDir).1.bytesAt (Path.place job.outDir) = none := by
  obtain ⟨es, hes⟩ := Disk.makeDirs_there hempty h
  rw [bytesAt, hes]
  rfl

theorem cleared_of_removed {job : Job} {top : Node} (htop : top.Proper) (hempty : job.outDir ≠ "")
    (hremove : (Disk.removeTree top job.outDir).2 = .ok ())
    (hmake : (Disk.makeDirs (Disk.removeTree top job.outDir).1 job.outDir).2 = .ok ()) :
    job.Cleared top (Disk.makeDirs (Disk.removeTree top job.outDir).1 job.outDir).1 := by
  have hclears := Disk.removeTree_clears hremove
  have hgrows := Disk.makeDirs_grows (Disk.removeTree top job.outDir).1 job.outDir
  refine ⟨?_, fun p hp => ?_, makeDirs_atOut hempty hmake, ?_, .inl fun q => ?_⟩
  · exact (hgrows.spares []).proper ((Disk.removeTree_spares top job.outDir).proper htop)
  · rw [hgrows.bytesAt, hclears, if_neg hp]
  · obtain ⟨es, hes⟩ := Disk.isDir_there (Disk.removeTree_isDir hremove)
    rw [bytesAt, hes]
    rfl
  · rw [hgrows.bytesAt, hclears, if_pos (List.prefix_append _ _)]

theorem cleared_of_missing {job : Job} {top : Node} (htop : top.Proper) (hempty : job.outDir ≠ "")
    (hmissing : Disk.holds top job.outDir = false) (hmake : (Disk.makeDirs top job.outDir).2 = .ok ()) :
    job.Cleared top (Disk.makeDirs top job.outDir).1 := by
  have hgrows := Disk.makeDirs_grows top job.outDir
  refine ⟨(hgrows.spares []).proper htop, fun p _ => hgrows.bytesAt p, makeDirs_atOut hempty hmake, ?_, .inr ?_⟩
  · rw [← hgrows.bytesAt]
    exact makeDirs_atOut hempty hmake
  · exact ⟨hmissing, hmake, hgrows.bytesAt⟩

/-- **What a build does that succeeds:** it clears the output directory and carries over the files outside it. -/
theorem proceed_establishes (job : Job) {top : Node} (htop : top.Proper) (hroot : Disk.isDir top job.rootDir = true)
    (hempty : job.outDir ≠ "") (hin : ¬ Path.place job.outDir <+: Path.place job.rootDir) :
    Action.Establishes (· = top) job.proceed fun summary t =>
      ∃ start, job.Cleared top start ∧ job.Walked start [] ⟨0, 0⟩ (job.inputs top) summary t := by
  have hwalk : Action.Establishes (job.Cleared top) (job.buildDir (Path.byteLimit / 2) job.rootDir [] ⟨0, 0⟩)
      fun summary t => ∃ start, job.Cleared top start ∧ job.Walked start [] ⟨0, 0⟩ (job.inputs top) summary t := by
    intro start hstart summary hsummary
    obtain ⟨es, hes⟩ := Disk.isDir_there hroot
    have hnil : Path.place job.rootDir = Path.place job.rootDir ++ [].reverse := by simp
    have hne : job.rootDir ≠ "" := by
      intro heq
      rw [heq] at hroot
      cases hroot
    have hwalks := job.buildDir_walks hin (Path.byteLimit / 2) ⟨0, 0⟩ [] (by simp) hnil hne (by simp) (hnil ▸ hin)
      (hstart.shows htop hes)
    refine ⟨start, hstart, ?_⟩
    rw [inputs, hes]
    exact hwalks start hstart.stage summary hsummary
  have hget : Action.Establishes (· = top) (get : Action Node) fun x t => x = top ∧ t = top := by
    intro t ht x hx
    exact ⟨(Except.ok.inj hx).symm.trans ht, ht⟩
  refine hget.bind fun t => Action.establishes_of (fun _ h => h.1) fun ht => ?_
  subst ht
  dsimp only
  -- whether an old directory is removed or none was there, the walk starts from a cleared one
  split_ifs with hholds
  · have hremove : Action.Establishes (fun u => t = t ∧ u = t)
        (Action.attempt (Disk.removeTree · job.outDir) (.file .empty job.outDir))
        fun _ u => (Disk.removeTree t job.outDir).2 = .ok () ∧ u = (Disk.removeTree t job.outDir).1 :=
      Action.establishes_attempt fun u hu hok => hu.2 ▸ ⟨hu.2 ▸ hok, rfl⟩
    refine hremove.bind fun _ => Action.Establishes.bind ?_ fun _ => hwalk
    refine Action.establishes_attempt fun u hu hok => ?_
    obtain ⟨hremoved, rfl⟩ := hu
    exact cleared_of_removed htop hempty hremoved hok
  · have hmissing : Disk.holds t job.outDir = false := by simpa using hholds
    refine Action.Establishes.bind ?_ fun _ => hwalk
    refine Action.establishes_attempt fun u hu hok => ?_
    rw [hu.2] at hok ⊢
    exact cleared_of_missing htop hempty hmissing hok

/-- **A build that succeeds,** as its guards and its walk. -/
theorem run_walked {job : Job} {top : Node} (htop : top.Proper) {summary : Summary}
    (hok : job.run.result top = .ok summary) :
    Disk.isDir top job.rootDir = true ∧ Path.isBelow job.rootDir job.outDir = false ∧
      (¬ Path.place job.outDir <+: Path.place job.rootDir →
        ∃ start, job.Cleared top start ∧ job.Walked start [] ⟨0, 0⟩ (job.inputs top) summary (job.run.after top)) := by
  unfold Action.result at hok
  unfold Action.after
  rw [run_eq] at hok ⊢
  cases hroot : Disk.isDir top job.rootDir with
  | false =>
    rw [hroot] at hok
    cases hok
  | true =>
    cases hbelow : Path.isBelow job.rootDir job.outDir with
    | true =>
      rw [hroot, hbelow] at hok
      cases hok
    | false =>
      rw [hroot, hbelow] at hok
      have hempty : job.outDir ≠ "" := by
        intro heq
        rw [heq] at hbelow
        cases hbelow
      exact ⟨rfl, rfl, fun hin => job.proceed_establishes htop hroot hempty hin top rfl summary hok⟩

/-! ## Plain settings -/

section

variable {root : String} {settings : Settings}

theorem knows_of_plain (hroot : root ≠ "") (hrootDir : Path.Plain settings.rootDir)
    (houtDir : Path.Plain settings.outDir) : (ofProject root settings).Knows := by
  intro inner hinner
  simp only [ofProject, hrootDir.place_join, houtDir.place_join, List.append_assoc] at hinner
  have hnamed : Path.named settings.outDir = Path.named settings.rootDir ++ inner := List.append_cancel_left hinner
  rw [ofProject, Path.components_eq, Path.components_eq, Path.lead_join hroot hrootDir.relative,
    Path.lead_join hroot houtDir.relative, Path.named_join root hrootDir.relative,
    Path.named_join root houtDir.relative,
    hnamed]
  simp only [List.append_assoc]

theorem missing_of_plain (hrootDir : Path.Plain settings.rootDir) (houtDir : Path.Plain settings.outDir) {top : Node}
    (hdir : Disk.isDir top (ofProject root settings).rootDir = true) (hempty : (ofProject root settings).outDir ≠ "")
    (hmissing : Disk.holds top (ofProject root settings).outDir = false)
    (hok : (Disk.makeDirs top (ofProject root settings).outDir).2 = .ok ()) :
    top.get? (Path.place (ofProject root settings).outDir) = none := by
  by_contra hthere
  refine hthere (Disk.makeDirs_fresh hempty ?_ hmissing hok)
  obtain ⟨start, hstart, hjoin⟩ := Path.exists_joined root
  -- the root of the project is found on the way to the directory of sources
  obtain ⟨way, hway⟩ : ∃ way, follow top start [] = .ok way := by
    obtain ⟨found, hfound⟩ := Disk.isDir_located hdir
    rw [show Path.pieces (ofProject root settings).rootDir = start ++ Path.pieces settings.rootDir from
      hjoin _ hrootDir.relative] at hfound
    exact follow_init hfound
  have hnil : Way.Sound top [] := trivial
  obtain ⟨hsound, hnames⟩ := follow_place hnil hway
  intro ps hps
  rw [show Path.pieces (ofProject root settings).outDir = start ++ Path.pieces settings.outDir from
    hjoin _ houtDir.relative] at hps
  rcases List.prefix_or_prefix_of_prefix hps (List.prefix_append start _) with hshort | hlong
  · obtain ⟨rest, rfl⟩ := hshort
    obtain ⟨between, hbetween⟩ := follow_init hway
    rw [follow_append, hbetween]
    change follow top ["."] between ≠ _
    unfold follow
    cases Way.here top between <;> simp [follow]
  · obtain ⟨ps, rfl⟩ := hlong
    obtain ⟨rest, hrest⟩ := (List.prefix_append_right_inj start).1 hps
    have hplain : ".." ∉ ps := fun hmem => houtDir.no_up (hrest ▸ List.mem_append_left _ hmem)
    have hplace : Path.place (ofProject root settings).outDir =
        way.names ++ ((ps.filter fun p => p ≠ "" && p ≠ ".") ++ rest.filter fun p => p ≠ "" && p ≠ ".") := by
      rw [ofProject, houtDir.place_join, hnames, ← Path.place_of_join hstart, Path.named, ← hrest, List.filter_append]
      rfl
    rw [List.append_assoc, follow_append, hway]
    have hthere' : top.get? (way.names ++ (((ps ++ ["."]).filter fun p => p ≠ "" && p ≠ ".") ++
        rest.filter fun p => p ≠ "" && p ≠ ".")) ≠ none := by
      rw [List.filter_append, List.filter_cons_of_neg (by decide), List.filter_nil, List.append_nil, ← hplace]
      exact hthere
    exact follow_down hsound (by simpa using hplain) hthere'

end

/-- a source that is carried over is a text, and is respelled -/
theorem Walked.respelled {job : Job} {start t : Node} {made : List (List String × Bytes)} {done summary : Summary}
    {files : List (List String)} (h : job.Walked start made done files summary t) {names : List String}
    {content : Bytes} (hnames : names ∈ files)
    (hcontent : start.bytesAt (Path.place job.rootDir ++ names) = some content) (hsource : namesSource names = true) :
    ∃ text out, content = utf8 text ∧ respell text ⟨some ("/".intercalate names), false⟩ = .ok out := by
  have htext := h.texts names hnames hsource
  rw [hcontent, Option.bind_some, Option.isSome_iff_exists] at htext
  obtain ⟨text, htext⟩ := htext
  obtain ⟨out, hout, -⟩ := respell_plain text (some ("/".intercalate names))
  exact ⟨text, out, string?_eq_some_iff.1 htext, hout⟩

end Job

/-! ## The whole -/

/-- **What becomes of every file.** Take a build that succeeds, in any well-formed tree and with any settings, and a
file of the directory of sources that is not in the output directory. If it is a source, it is a text and is
respelled. What it makes is in the output directory afterwards, unless a file stands at the same names in the
directory of sources: then that file is there, unchanged, and what was made is lost. -/
theorem outputs_delivered {top : Node} (htop : top.Proper) {root : String} {settings : Settings} {summary : Summary}
    (hok : (build root settings).result top = .ok summary) {names : List String} {content : Bytes}
    (hinput : (Job.ofProject root settings).Input top names content) :
    (namesSource names = true →
      ∃ text out, content = utf8 text ∧ respell text ⟨some ("/".intercalate names), false⟩ = .ok out) ∧
    ∀ q b, Makes settings names content q b →
      ((build root settings).after top).bytesAt (Path.place (Job.ofProject root settings).outDir ++ q) =
        some ((top.bytesAt (Path.place (Job.ofProject root settings).rootDir ++ q)).getD b) := by
  rw [show build root settings = (Job.ofProject root settings).run from rfl] at hok ⊢
  have hsettings : settings = (Job.ofProject root settings).settings := rfl
  generalize Job.ofProject root settings = job at hok hinput hsettings ⊢
  subst hsettings
  have hin : ¬ Path.place job.outDir <+: Path.place job.rootDir :=
    fun h => hinput.outside (h.trans (List.prefix_append _ _))
  obtain ⟨hroot, -, hwalk⟩ := Job.run_walked htop hok
  obtain ⟨start, hcleared, hwalked⟩ := hwalk hin
  have hmem : ∀ {n c}, job.Input top n c → n ∈ job.inputs top := fun h => (Job.mem_inputs htop hroot).2 ⟨_, h⟩
  refine ⟨hwalked.respelled (hmem hinput) (hcleared.input hinput), ?_⟩
  intro q b hmakes
  have hbeside := hinput.beside (hinput.ne_nil hroot) hmakes
  have hstray : ¬ job.Stray q := fun h => h.2.1 (hbeside h.1)
  suffices h : (job.deliveries start (job.inputs top)).reverse.lookup q =
      some ((top.bytesAt (Path.place job.rootDir ++ q)).getD b) by
    rw [hwalked.stage.inside q hstray, List.append_nil, h, Option.some_or]
  cases hfile : top.bytesAt (Path.place job.rootDir ++ q) with
  | some other =>
    have hcopied : job.Input top q other := by
      refine ⟨hfile, fun hprefix => ?_⟩
      rw [← hbeside hprefix, hcleared.before] at hfile
      cases hfile
    exact Job.lookup_deliveries_copy (Job.inputs_pairwise htop) (hmem hcopied) hmakes.other (hcleared.input hcopied)
  | none =>
    -- nothing is copied to `q`, so what falls there is made by a source, and by one only
    have hsource : ∀ {n c b'}, job.Input top n c → Makes job.settings n c q b' → namesSource n = true := by
      intro n c b' hn hmakes'
      by_contra hother
      obtain ⟨rfl, -⟩ := hmakes'.of_other (Bool.not_eq_true _ ▸ hother)
      exact absurd (hfile.symm.trans hn.file) (by simp)
    refine hcleared.lookup_unique htop hroot hinput hmakes fun names' content' b' hinput' hmakes' => ?_
    exact hmakes'.source_inj hmakes (hsource hinput' hmakes') (hsource hinput hmakes)

/-- a project with a source and a file at the place of its output -/
def crowdedProject : Node := Disk.ofListing [("src/a.neha", some (utf8 "tay")), ("src/a.ts", some (utf8 "x"))]

/-- both files of the crowded project are carried over -/
theorem outputs_delivered_crowded :
    crowdedProject.Proper ∧ ((build "." .default).result crowdedProject).toOption = some ⟨1, 1⟩ ∧
      (Job.ofProject "." .default).Input crowdedProject ["a.neha"] (utf8 "tay") ∧
      ∀ q b, Makes .default ["a.neha"] (utf8 "tay") q b →
        ((build "." .default).after crowdedProject).bytesAt ("dist" :: q) =
          some ((crowdedProject.bytesAt ("src" :: q)).getD b) := by
  have hproper : crowdedProject.Proper := Disk.ofListing_proper _
  have hresult : ((build "." .default).result crowdedProject).toOption = some ⟨1, 1⟩ := by decide +kernel
  have hinput : (Job.ofProject "." .default).Input crowdedProject ["a.neha"] (utf8 "tay") :=
    ⟨by decide +kernel, by decide +kernel⟩
  refine ⟨hproper, hresult, hinput, ?_⟩
  cases hok : (build "." .default).result crowdedProject with
  | error failure =>
    rw [hok] at hresult
    cases hresult
  | ok summary => exact (outputs_delivered hproper hok hinput).2

/-- **An output lost.** The build succeeds, and what the source made is not there. -/
theorem output_overwritten :
    ((build "." .default).result crowdedProject).toOption = some ⟨1, 1⟩ ∧
      ((build "." .default).after crowdedProject).bytesAt ["dist", "a.ts"] = some (utf8 "x") ∧
      ∃ b, Makes .default ["a.neha"] (utf8 "tay") ["a.ts"] b ∧ b ≠ utf8 "x" := by
  refine ⟨by decide +kernel, by decide +kernel, ?_⟩
  obtain ⟨out, hout, -⟩ := respell_plain "tay" (some "a.neha")
  have hmakes : Makes .default ["a.neha"] (utf8 "tay") ["a.ts"] _ :=
    @Makes.code _ _ _ [] "a" _ _ rfl (by decide) rfl hout
  refine ⟨_, hmakes, ?_⟩
  intro heq
  have hsize := congrArg Array.size heq
  have htrailer : trailer .default out.map ("a" ++ ("." ++ outputExtension (utf8 "tay")) ++ ".map") =
      utf8 (SourceMap.comment "a.ts.map") := rfl
  rw [Array.size_append, htrailer] at hsize
  exact absurd hsize (ne_of_gt (Nat.lt_add_left _ (by decide +kernel)))

/-- **The output directory after a build.** Take a project in a directory whose name is not empty, with settings whose
paths are relative and do not go up, and let no two files outside the output directory make a file at the same place.
If the build succeeds, the files in the output directory are exactly what those files make, and the sources among them
are texts; the build counts the sources and the other files. -/
theorem outputs_exact {top : Node} (htop : top.Proper) {root : String} (hroot : root ≠ "") {settings : Settings}
    (hrootDir : Path.Plain settings.rootDir) (houtDir : Path.Plain settings.outDir) {summary : Summary}
    (hok : (build root settings).result top = .ok summary)
    (hdistinct : ∀ names names' content content' q b b', (Job.ofProject root settings).Input top names content →
      (Job.ofProject root settings).Input top names' content' → Makes settings names content q b →
      Makes settings names' content' q b' → names = names') :
    (∀ q b, ((build root settings).after top).bytesAt (Path.place (Job.ofProject root settings).outDir ++ q) = some b ↔
      ∃ names content, (Job.ofProject root settings).Input top names content ∧ Makes settings names content q b) ∧
    (∀ names content, (Job.ofProject root settings).Input top names content → namesSource names = true →
      ∃ text out, content = utf8 text ∧ respell text ⟨some ("/".intercalate names), false⟩ = .ok out) ∧
    summary.respelled =
      {names | (∃ content, (Job.ofProject root settings).Input top names content) ∧ namesSource names = true}.ncard ∧
    summary.copied =
      {names | (∃ content, (Job.ofProject root settings).Input top names content) ∧
        namesSource names = false}.ncard := by
  rw [show build root settings = (Job.ofProject root settings).run from rfl] at hok ⊢
  have hknows := Job.knows_of_plain hroot hrootDir houtDir
  have hmissing := @Job.missing_of_plain root settings hrootDir houtDir top
  have hbelow := Path.isBelow_join_iff root hrootDir houtDir fun h => absurd h hroot
  have hsettings : settings = (Job.ofProject root settings).settings := rfl
  change Path.isBelow (Job.ofProject root settings).rootDir (Job.ofProject root settings).outDir = true ↔
    Path.place (Job.ofProject root settings).outDir <+: Path.place (Job.ofProject root settings).rootDir at hbelow
  -- from here on it does not matter how the job came by its directories
  generalize Job.ofProject root settings = job at hok hdistinct hsettings hknows hmissing hbelow ⊢
  subst hsettings
  obtain ⟨hdir, hguard, hwalk⟩ := Job.run_walked htop hok
  obtain ⟨start, hcleared, hwalked⟩ := hwalk (mt hbelow.2 (by simp [hguard]))
  have hempty : job.outDir ≠ "" := by
    intro heq
    rw [heq] at hguard
    cases hguard
  have hclear : ∀ q, start.bytesAt (Path.place job.outDir ++ q) = none := by
    rcases hcleared.inside with hclear | ⟨hholds, hmade, hsame⟩
    · exact hclear
    · intro q
      rw [hsame, bytesAt, get?_append, hmissing hdir hempty hholds hmade]
      rfl
  have hinside : ∀ q, (job.run.after top).bytesAt (Path.place job.outDir ++ q) =
      (job.deliveries start (job.inputs top)).reverse.lookup q := by
    intro q
    -- plain names leave no output directory that the walk would enter unawares
    have hstray : ¬ job.Stray q := by
      rintro ⟨_, _, inner, hinner, hunknown⟩
      exact hunknown (hknows inner hinner)
    rw [hwalked.stage.inside q hstray, hclear, List.append_nil, Option.or_none]
  have hsummary := hwalked.counted hknows
  refine ⟨fun q b => ?_, fun names content hinput => ?_, ?_, ?_⟩
  · rw [hinside]
    constructor
    · exact fun hmade => hcleared.exists_input htop hdir hmade
    · rintro ⟨names, content, hinput, hmakes⟩
      apply hcleared.lookup_unique htop hdir hinput hmakes
      intro names' content' b' hinput' hmakes'
      exact hdistinct names' names content' content q b' b hinput' hinput hmakes' hmakes
  · exact hwalked.respelled ((Job.mem_inputs htop hdir).2 ⟨content, hinput⟩) (hcleared.input hinput)
  · simp only [hsummary, Summary.add, Nat.zero_add, Job.countP_inputs htop hdir]
  · simp only [hsummary, Summary.add, Nat.zero_add, Job.countP_inputs htop hdir, Bool.not_eq_true']

/-- a project with two sources, another file and an old output -/
def staleProject : Node :=
  Disk.ofListing [("src/0.txt", some (utf8 "x")), ("src/a.neha", some (utf8 "tay")),
    ("src/lib/b.neha", some (utf8 "le")), ("dist/old.ts", some (utf8 "x"))]

/-- the hypotheses hold of the stale project, and so the old output is gone and the counts are two and one -/
theorem outputs_exact_stale :
    let job := Job.ofProject "." .default
    staleProject.Proper ∧ Path.Plain Settings.default.rootDir ∧ Path.Plain Settings.default.outDir ∧
      ((build "." .default).result staleProject).toOption = some ⟨2, 1⟩ ∧
      (∀ names names' content content' q b b', job.Input staleProject names content →
        job.Input staleProject names' content' → Makes .default names content q b →
        Makes .default names' content' q b' → names = names') ∧
      (∀ q b, ((build "." .default).after staleProject).bytesAt ("dist" :: q) = some b ↔
        ∃ names content, job.Input staleProject names content ∧ Makes .default names content q b) ∧
      {names | (∃ content, job.Input staleProject names content) ∧ namesSource names = true}.ncard = 2 := by
  intro job
  have hproper : staleProject.Proper := Disk.ofListing_proper _
  have hrootDir : Path.Plain Settings.default.rootDir := ⟨by decide, by decide⟩
  have houtDir : Path.Plain Settings.default.outDir := ⟨by decide, by decide⟩
  have hresult : ((build "." .default).result staleProject).toOption = some ⟨2, 1⟩ := by decide +kernel
  have hinputs : job.inputs staleProject = [["0.txt"], ["a.neha"], ["lib", "b.neha"]] := by decide +kernel
  have hlist : ∀ {n c}, job.Input staleProject n c → n ∈ [["0.txt"], ["a.neha"], ["lib", "b.neha"]] := by
    intro n c hn
    rw [← hinputs]
    exact (Job.mem_inputs hproper (by decide +kernel)).2 ⟨c, hn⟩
  have horder : ∀ n ∈ [["0.txt"], ["a.neha"], ["lib", "b.neha"]], ∀ n' ∈ [["0.txt"], ["a.neha"], ["lib", "b.neha"]],
      namesSource n = true → namesSource n' = false → ¬ n < n' := by decide +kernel
  have hdistinct : ∀ names names' content content' q b b', job.Input staleProject names content →
      job.Input staleProject names' content' → Makes .default names content q b →
      Makes .default names' content' q b' → names = names' := by
    intro names names' content content' q b b' h h' hmakes hmakes'
    cases hsource : namesSource names <;> cases hsource' : namesSource names'
    · rw [← (hmakes.of_other hsource).1, (hmakes'.of_other hsource').1]
    · have hlt := hmakes'.source_lt hsource'
      rw [(hmakes.of_other hsource).1] at hlt
      exact absurd hlt (horder names' (hlist h') names (hlist h) hsource' hsource)
    · have hlt := hmakes.source_lt hsource
      rw [(hmakes'.of_other hsource').1] at hlt
      exact absurd hlt (horder names (hlist h) names' (hlist h') hsource hsource')
    · exact hmakes.source_inj hmakes' hsource hsource'
  refine ⟨hproper, hrootDir, houtDir, hresult, hdistinct, ?_⟩
  cases hok : (build "." .default).result staleProject with
  | error failure =>
    rw [hok] at hresult
    cases hresult
  | ok summary =>
    obtain rfl : summary = ⟨2, 1⟩ := by
      rw [hok] at hresult
      exact Option.some.inj hresult
    obtain ⟨hfiles, -, hcount, -⟩ := outputs_exact hproper (by decide) hrootDir houtDir hok hdistinct
    exact ⟨hfiles, hcount.symm⟩

end Respell
