/-
What a build makes of one file. `Makes` says it file by file: a file that is no source is copied to the same names in
the output directory; a source is respelled there under another extension, with a trailer as the settings ask for one,
and its map stands beside it if the settings ask for that.

An action is judged here by what holds when it succeeds (`Action.Establishes`). `Stage made` is the state of a build
that has made the files `made` so far, the last one first: outside the output directory the files are those of the
beginning, and inside it the files made stand over those that were there. `buildFile_establishes`: carrying over one
file adds what `Makes` says to the stage.
-/
import Respell.Proofs.BuildSafety
import Respell.Proofs.OutputNames
import Respell.Proofs.SecondRun

namespace Respell

open Node

namespace Action

variable {α β : Type} {P : Node → Prop}

/-! ## Actions that succeed -/

/-- from a tree with `P`, if the action succeeds, `Q` holds of its result and the tree that it leaves -/
def Establishes (P : Node → Prop) (a : Action α) (Q : α → Node → Prop) : Prop :=
  ∀ top, P top → ∀ x, a.result top = .ok x → Q x (a.after top)

theorem establishes_pure {Q : α → Node → Prop} {x : α} (h : ∀ t, P t → Q x t) : Establishes P (pure x) Q := by
  intro top htop y hy
  obtain rfl : x = y := Except.ok.inj hy
  exact h top htop

theorem establishes_throw {Q : α → Node → Prop} (e : Failure) : Establishes P (throw e) Q := by
  intro top _ x hx
  cases hx

theorem Establishes.bind {a : Action α} {f : α → Action β} {Q : α → Node → Prop} {R : β → Node → Prop}
    (ha : Establishes P a Q) (hf : ∀ x, Establishes (Q x) (f x) R) : Establishes P (a >>= f) R := by
  intro top htop y hy
  unfold result at hy
  rw [run_bind] at hy
  cases hres : a.result top with
  | error e =>
    rw [hres] at hy
    cases hy
  | ok x =>
    rw [hres] at hy
    rw [after_bind_ok hres]
    exact hf x _ (ha top htop x hres) y hy

theorem establishes_of {a : Action α} {Q : α → Node → Prop} {p : Prop} (h : ∀ t, P t → p)
    (ha : p → Establishes P a Q) : Establishes P a Q :=
  fun top htop => ha (h top htop) top htop

theorem establishes_ask {f : Node → Except Fault α} {explain : Fault → Failure} {Q : α → Node → Prop}
    (h : ∀ t x, P t → f t = .ok x → Q x t) : Establishes P (ask f explain) Q := by
  intro top htop x hx
  unfold ask result at hx
  unfold ask after
  rw [run_get_bind] at hx ⊢
  cases hf : f top with
  | error fault =>
    rw [hf] at hx
    cases hx
  | ok a =>
    rw [hf] at hx
    obtain rfl : a = x := Except.ok.inj hx
    exact h top a htop hf

theorem establishes_change {f : Node → Except Fault Node} {explain : Fault → Failure} {Q : Unit → Node → Prop}
    (h : ∀ t u, P t → f t = .ok u → Q () u) : Establishes P (change f explain) Q := by
  intro top htop x hx
  unfold result at hx
  unfold after
  rw [run_change] at hx ⊢
  cases hf : f top with
  | error fault =>
    rw [hf] at hx
    cases hx
  | ok u => exact h top u htop hf

theorem establishes_attempt {f : Node → Outcome Unit} {explain : Fault → Failure} {Q : Unit → Node → Prop}
    (h : ∀ t, P t → (f t).2 = .ok () → Q () (f t).1) : Establishes P (attempt f explain) Q := by
  intro top htop x hx
  rw [after_attempt]
  refine h top htop ?_
  unfold attempt result at hx
  rw [run_get_bind] at hx
  generalize f top = out at hx
  obtain ⟨t, outcome⟩ := out
  cases outcome with
  | ok _ => rfl
  | error fault => cases hx

/-- a fold, by what its steps so far have established -/
theorem establishes_foldlM {f : β → α → Action β} {I : List α → β → Node → Prop} (xs : List α)
    (h : ∀ x ∈ xs, ∀ done y, Establishes (I done y) (f y x) (I (done ++ [x]))) (done : List α) (y : β) :
    Establishes (I done y) (xs.foldlM f y) (I (done ++ xs)) := by
  induction xs generalizing done y with
  | nil =>
    rw [List.append_nil]
    exact establishes_pure fun _ ht => ht
  | cons x xs ih =>
    rw [List.foldlM_cons]
    refine (h x List.mem_cons_self done y).bind fun z => ?_
    rw [List.append_cons done x xs]
    exact ih (fun w hw => h w (List.mem_cons_of_mem _ hw)) (done ++ [x]) z

end Action

/-! ## What a file makes -/

/-- what follows the respelled code of a source: its map, the name of the file of its map, or nothing -/
def trailer (settings : Settings) (map : SourceMap) (mapName : String) : Bytes :=
  if settings.inlineMap then utf8 map.inlineComment
  else if settings.sourceMaps then utf8 (SourceMap.comment mapName)
  else #[]

/-- a file with these names, from the directory of sources down, and these bytes makes a file with those names, from the
output directory down, and those bytes -/
inductive Makes (settings : Settings) (names : List String) (content : Bytes) : List String → Bytes → Prop
  | copy (hother : namesSource names = false) : Makes settings names content names content
  | code {dir : List String} {stem text : String} {out : Respelling} (hnames : names = dir ++ [stem ++ ".neha"])
    (hstem : stem ≠ "") (htext : content = utf8 text)
    (hout : respell text ⟨some ("/".intercalate names), false⟩ = .ok out) :
    Makes settings names content (dir ++ [stem ++ ("." ++ outputExtension content)])
      (out.code ++ trailer settings out.map (stem ++ ("." ++ outputExtension content) ++ ".map"))
  | map {dir : List String} {stem text : String} {out : Respelling} (hnames : names = dir ++ [stem ++ ".neha"])
    (hstem : stem ≠ "") (htext : content = utf8 text)
    (hout : respell text ⟨some ("/".intercalate names), false⟩ = .ok out) (hmaps : settings.sourceMaps = true) :
    Makes settings names content (dir ++ [stem ++ ("." ++ outputExtension content) ++ ".map"]) (utf8 out.map.toJson)

theorem string?_eq_some_iff {content : Bytes} {text : String} : content.string? = some text ↔ content = utf8 text := by
  unfold Bytes.string? String.fromUTF8? utf8
  constructor
  · intro h
    split_ifs at h
    obtain rfl := Option.some.inj h
    rfl
  · rintro rfl
    exact dif_pos text.isValidUTF8

/-- the option to append the map adds it to the code, and changes nothing else -/
theorem respell_inline {text : String} {filename : Option String} {out : Respelling}
    (h : respell text ⟨filename, false⟩ = .ok out) (inlineMap : Bool) :
    respell text ⟨filename, inlineMap⟩ =
      .ok { out with code := out.code ++ if inlineMap then utf8 out.map.inlineComment else #[] } := by
  simp only [respell, applyEdits_allEdits] at h ⊢
  obtain rfl := Except.ok.inj h
  cases inlineMap with
  | true => simp [bind, Except.bind, pure, Except.pure, Options.name]
  | false => simp [bind, Except.bind, pure, Except.pure, Options.name]

/-- what a source makes, in the order in which it is written -/
def sourceOutputs (settings : Settings) (dir : List String) (name : String) (out : Respelling) :
    List (List String × Bytes) :=
  (if settings.sourceMaps then [(dir ++ [name ++ ".map"], utf8 out.map.toJson)] else []) ++
    [(dir ++ [name], out.code ++ trailer settings out.map (name ++ ".map"))]

/-- what a file makes, in the order in which it is written; a source that is no text makes nothing -/
def outputs (settings : Settings) (names : List String) (content : Bytes) : List (List String × Bytes) :=
  if namesSource names then
    match content.string?.map fun text => respell text ⟨some ("/".intercalate names), false⟩ with
    | some (.ok out) =>
      let last := names.getLast?.getD ""
      let stem := String.ofList (last.toList.take (last.length - sourceExtension.length))
      sourceOutputs settings names.dropLast (stem ++ outputExtension content) out
    | _ => []
  else [(names, content)]

theorem outputs_source {settings : Settings} {dir : List String} {stem text : String} {out : Respelling}
    (hstem : stem ≠ "") (hout : respell text ⟨some ("/".intercalate (dir ++ [stem ++ ".neha"])), false⟩ = .ok out) :
    outputs settings (dir ++ [stem ++ ".neha"]) (utf8 text) =
      sourceOutputs settings dir (stem ++ ("." ++ outputExtension (utf8 text))) out := by
  have hsource : namesSource (dir ++ [stem ++ ".neha"]) = true := namesSource_iff.2 ⟨dir, stem, hstem, rfl⟩
  have hcut : String.ofList ((stem ++ ".neha").toList.take ((stem ++ ".neha").length - sourceExtension.length)) =
      stem ++ "." := by
    have hlen : (stem ++ ".neha").length - sourceExtension.length = (stem ++ ".").toList.length := by
      rw [String.length_append, String.length_toList, String.length_append]
      rfl
    have hchars : (stem ++ ".neha").toList = (stem ++ ".").toList ++ "neha".toList := by
      rw [← String.toList_append, String.append_assoc]
      rfl
    rw [hlen, hchars, List.take_left, String.ofList_toList]
  simp only [outputs, if_pos hsource, string?_eq_some_iff.2 (rfl : utf8 text = utf8 text), Option.map_some, hout,
    List.getLast?_concat, Option.getD_some, List.dropLast_concat, hcut, String.append_assoc]

/-- **The files listed are the files made.** -/
theorem mem_outputs_iff {settings : Settings} {names : List String} {content : Bytes} {w : List String × Bytes} :
    w ∈ outputs settings names content ↔ Makes settings names content w.1 w.2 := by
  obtain ⟨place, bytes⟩ := w
  constructor
  · intro h
    cases hsource : namesSource names with
    | false =>
      simp only [outputs, hsource, Bool.false_eq_true, if_false, List.mem_singleton] at h
      obtain ⟨rfl, rfl⟩ := Prod.mk.inj h
      exact .copy hsource
    | true =>
      obtain ⟨dir, stem, hstem, rfl⟩ := namesSource_iff.1 hsource
      cases htext : content.string? with
      | none => simp [outputs, hsource, htext] at h
      | some text =>
        obtain rfl := string?_eq_some_iff.1 htext
        obtain ⟨out, hout, -⟩ := respell_plain text (some ("/".intercalate (dir ++ [stem ++ ".neha"])))
        rw [outputs_source hstem hout, sourceOutputs, List.mem_append, List.mem_singleton] at h
        rcases h with h | h
        · split_ifs at h with hmaps
          · obtain ⟨rfl, rfl⟩ := Prod.mk.inj (List.mem_singleton.1 h)
            exact .map rfl hstem rfl hout hmaps
          · cases h
        · obtain ⟨rfl, rfl⟩ := Prod.mk.inj h
          exact .code rfl hstem rfl hout
  · intro h
    cases h with
    | copy hother => simp [outputs, hother]
    | code hnames hstem htext hout =>
      subst hnames htext
      rw [outputs_source hstem hout, sourceOutputs]
      exact List.mem_append_right _ List.mem_cons_self
    | map hnames hstem htext hout hmaps =>
      subst hnames htext
      rw [outputs_source hstem hout, sourceOutputs, if_pos hmaps]
      exact List.mem_append_left _ List.mem_cons_self

/-- the summary after some more files -/
def Summary.add (done : Summary) (files : List (List String)) : Summary :=
  ⟨done.respelled + files.countP namesSource, done.copied + files.countP fun names => !namesSource names⟩

namespace Job

/-! ## Stages of a build -/

/-- names that lead into an output directory inside the directory of sources, and that a walk comes to because it does
not know that directory by its components -/
def Stray (job : Job) (names : List String) : Prop :=
  Path.place job.outDir <+: Path.place job.rootDir ++ names ∧ Path.place job.outDir ≠ Path.place job.rootDir ++ names ∧
    ∃ inner, Path.place job.outDir = Path.place job.rootDir ++ inner ∧
      Path.components job.rootDir ++ inner ≠ Path.components job.outDir

/-- a build from `start` that has made the files `made`, the last one first -/
structure Stage (job : Job) (start : Node) (made : List (List String × Bytes)) (t : Node) : Prop where
  proper : t.Proper
  outside : ∀ p, ¬ Path.place job.outDir <+: p → t.bytesAt p = start.bytesAt p
  inside : ∀ q, ¬ job.Stray q →
    t.bytesAt (Path.place job.outDir ++ q) = (made.lookup q).or (start.bytesAt (Path.place job.outDir ++ q))
  /-- the output directory is no file -/
  atOut : t.bytesAt (Path.place job.outDir) = none

namespace Stage

variable {job : Job} {start t u : Node} {made : List (List String × Bytes)}

theorem congr (h : Stage job start made t) (hu : u.Proper) (hbytes : ∀ p, u.bytesAt p = t.bytesAt p) :
    Stage job start made u :=
  ⟨hu, fun p hp => (hbytes p).trans (h.outside p hp), fun q hq => (hbytes _).trans (h.inside q hq),
    (hbytes _).trans h.atOut⟩

/-- **One file more.** -/
theorem put (h : Stage job start made t) (hu : u.Proper) {q : List String} {content : Bytes} (hq : q ≠ [])
    (hputs : Disk.Puts (Path.place job.outDir ++ q) content t u) : Stage job start ((q, content) :: made) u := by
  refine ⟨hu, ?_, ?_, ?_⟩
  · intro p hp
    have hne : p ≠ Path.place job.outDir ++ q := by
      rintro rfl
      exact hp (List.prefix_append _ _)
    rw [hputs p, if_neg hne]
    exact h.outside p hp
  · intro r hr
    rw [hputs, List.lookup_cons]
    by_cases heq : r = q
    · rw [if_pos (List.append_right_inj _ |>.2 heq), beq_iff_eq.2 heq]
      rfl
    · rw [if_neg fun happ => heq (List.append_right_inj _ |>.1 happ), beq_eq_false_iff_ne.2 heq]
      exact h.inside r hr
  · rw [hputs, if_neg fun heq => hq (List.self_eq_append_right.1 heq)]
    exact h.atOut

/-- files at stray places do not count -/
theorem drop {strays : List (List String × Bytes)} (h : Stage job start (strays ++ made) t)
    (hstray : ∀ w ∈ strays, job.Stray w.1) : Stage job start made t := by
  refine ⟨h.proper, h.outside, ?_, h.atOut⟩
  intro q hq
  have hnone : strays.lookup q = none := by
    rw [List.lookup_eq_none_iff]
    intro w hw
    refine bne_iff_ne.2 ?_
    rintro rfl
    exact hq (hstray w hw)
  rw [h.inside q hq, List.lookup_append, hnone, Option.none_or]

theorem establishes_write {path : String} {q : List String} (hplace : Path.place path = Path.place job.outDir ++ q)
    (hq : q ≠ []) (content : Bytes) (explain : Fault → Failure) :
    Action.Establishes (Stage job start made) (Action.change (Disk.write · path content) explain)
      fun _ => Stage job start ((q, content) :: made) := by
  refine Action.establishes_change fun t u ht hwrite => ?_
  exact ht.put ((Disk.write_spares hwrite).proper ht.proper) hq (hplace ▸ Disk.write_puts hwrite)

end Stage

/-! ## One file -/

theorem isName_of_length {name : String} (hlen : 2 < name.length) (hslash : '/' ∉ name.toList) : IsName name := by
  refine ⟨?_, ?_, ?_, hslash⟩
  · rintro rfl
    exact absurd hlen (by decide)
  · rintro rfl
    exact absurd hlen (by decide)
  · rintro rfl
    exact absurd hlen (by decide)

theorem code_trailer (settings : Settings) (out : Respelling) (mapName : String) :
    (out.code ++ if settings.inlineMap then utf8 out.map.inlineComment else #[]) ++
      (if settings.sourceMaps && !settings.inlineMap then utf8 (SourceMap.comment mapName) else #[]) =
    out.code ++ trailer settings out.map mapName := by
  unfold trailer
  cases settings.inlineMap with
  | true => simp
  | false => cases settings.sourceMaps <;> simp

/-- a path without its last piece, and with a name in its place -/
theorem place_of_pieces {path name : String} {ps p : List String} (hpath : Path.pieces path = ps ++ [name])
    (hps : ps.foldl Path.move [] = p) (hname : IsName name) : Path.place path = p ++ [name] := by
  rw [Path.place, hpath, List.foldl_append, hps, List.foldl_cons, List.foldl_nil, Path.move_name hname]

/-- at a stage, with what is found at some names below the directory of sources -/
structure Holding (job : Job) (start : Node) (made : List (List String × Bytes)) (names : List String)
    (found : Option Bytes) (t : Node) : Prop where
  stage : Stage job start made t
  found : t.bytesAt (Path.place job.rootDir ++ names) = found

/-- a file was found, and what it makes is made -/
def Carried (job : Job) (start : Node) (made : List (List String × Bytes)) (names : List String) (found : Option Bytes)
    (t : Node) : Prop :=
  ∃ content, found = some content ∧ (namesSource names = true → content.string?.isSome = true) ∧
    Stage job start ((outputs job.settings names content).reverse ++ made) t

section

variable (job : Job) {start : Node} {made : List (List String × Bytes)} {found : Option Bytes}

theorem output_places {output name : String} {ps dir : List String} (hname : Path.pieces output = ps ++ [name])
    (hps : ps.foldl Path.move [] = Path.place job.outDir ++ dir) (hlen : 2 < name.length) :
    Path.place output = Path.place job.outDir ++ (dir ++ [name]) ∧
      Path.place (Path.mapFile output) = Path.place job.outDir ++ (dir ++ [name ++ ".map"]) ∧
      Path.fileName? (Path.mapFile output) = some (name ++ ".map") := by
  have hmap : Path.pieces (Path.mapFile output) = ps ++ [name ++ ".map"] := Path.pieces_append hname (by decide)
  have hslash : '/' ∉ name.toList :=
    Path.no_slash_of_mem_pieces (hname ▸ List.mem_append_right ps List.mem_cons_self)
  have hslashMap : '/' ∉ (name ++ ".map").toList :=
    Path.no_slash_of_mem_pieces (hmap ▸ List.mem_append_right ps List.mem_cons_self)
  have hisMap : IsName (name ++ ".map") := by
    refine isName_of_length ?_ hslashMap
    rw [String.length_append]
    exact Nat.lt_add_right _ hlen
  refine ⟨?_, ?_, Path.fileName?_of_pieces hmap hisMap⟩
  · rw [place_of_pieces hname hps (isName_of_length hlen hslash), List.append_assoc]
  · rw [place_of_pieces hmap hps hisMap, List.append_assoc]

/-- **One source.** If it is carried over, it is a text, and its outputs are made. -/
theorem buildSource_establishes {path dest stem : String} {ps dir : List String} (hstem : stem ≠ "")
    (hpath : Path.place path = Path.place job.rootDir ++ (dir ++ [stem ++ ".neha"]))
    (hdest : Path.pieces dest = ps ++ [stem ++ ".neha"])
    (hps : ps.foldl Path.move [] = Path.place job.outDir ++ dir) :
    Action.Establishes (Holding job start made (dir ++ [stem ++ ".neha"]) found)
      (job.buildSource path ("/".intercalate (dir ++ [stem ++ ".neha"])) dest)
      fun _ => Carried job start made (dir ++ [stem ++ ".neha"]) found := by
  have hask : Action.Establishes (Holding job start made (dir ++ [stem ++ ".neha"]) found)
      (Action.ask (Disk.readText · path) (.file .read path))
      fun text t => found = some (utf8 text) ∧ Stage job start made t := by
    refine Action.establishes_ask fun t text ht hread => ⟨?_, ht.stage⟩
    obtain ⟨content, hbytes, htext⟩ := Disk.readText_eq hread
    rw [← ht.found, ← hpath, hbytes, string?_eq_some_iff.1 htext]
  refine hask.bind fun text => Action.establishes_of (fun _ ht => ht.1) ?_
  rintro rfl
  obtain ⟨out, hout, -⟩ := respell_plain text (some ("/".intercalate (dir ++ [stem ++ ".neha"])))
  have hinline := respell_inline hout job.settings.inlineMap
  have hstring : (utf8 text).string?.isSome = true := by
    rw [string?_eq_some_iff.2 rfl]
    rfl
  have hext : 1 < (outputExtension (utf8 text)).length := by
    unfold outputExtension
    split_ifs <;> decide
  have hslash := outputExtension_no_slash (utf8 text)
  suffices h : Action.Establishes (Stage job start made) _ fun _ =>
      Stage job start
        ((sourceOutputs job.settings dir (stem ++ ("." ++ outputExtension (utf8 text))) out).reverse ++ made) from
    fun t ht x hx => ⟨_, rfl, fun _ => hstring, (outputs_source hstem hout) ▸ h t ht.2 x hx⟩
  simp only [hinline, pure_bind, sourceOutputs]
  generalize outputExtension (utf8 text) = ext at hext hslash ⊢
  have hpieces := Path.pieces_withExtension hdest hstem hslash
  generalize Path.withExtension dest sourceExtension ext = output at hpieces ⊢
  rcases hpieces with ⟨-, hup⟩ | ⟨-, hname⟩
  · -- the output would be a directory above, and cannot be written
    have hfail : ∀ P content Q, Action.Establishes P
        (Action.change (Disk.write · output content) (.file .write output)) Q :=
      fun P content Q => Action.establishes_change fun t u _ hwrite => absurd hwrite (Disk.write_up hup)
    by_cases hmaps : job.settings.sourceMaps = true
    · simp only [if_pos hmaps]
      exact (Action.establishes_change (Q := fun _ _ => True) fun _ _ _ _ => trivial).bind fun _ => hfail _ _ _
    · simp only [if_neg hmaps]
      exact hfail _ _ _
  · have hlen : 2 < (stem ++ ("." ++ ext)).length := by
      have hpos : stem.length ≠ 0 := by simpa using hstem
      rw [String.length_append, String.length_append, show ".".length = 1 from rfl]
      omega
    obtain ⟨hplace, hplaceMap, hfileName⟩ := job.output_places hname hps hlen
    simp only [hfileName, code_trailer]
    split_ifs with hmaps
    · exact (Stage.establishes_write hplaceMap (by simp) _ _).bind fun _ => Stage.establishes_write hplace (by simp) _ _
    · exact Stage.establishes_write hplace (by simp) _ _

/-- **One other file.** If it is copied, the copy is made. -/
theorem copy_establishes {path dest : String} {names : List String} (hnil : names ≠ [])
    (hother : namesSource names = false) (hpath : Path.place path = Path.place job.rootDir ++ names)
    (hdest : Path.place dest = Path.place job.outDir ++ names) (hne : Path.place job.rootDir ≠ Path.place job.outDir) :
    Action.Establishes (Holding job start made names found)
      (Action.change (Disk.copy · path dest) (.file .copy path)) fun _ => Carried job start made names found := by
  refine Action.establishes_change fun t u ht hcopied => ?_
  have hplaces : Path.place path ≠ Path.place dest := by
    rw [hpath, hdest]
    exact fun heq => hne (List.append_cancel_right heq)
  obtain ⟨content, hbytes, hputs⟩ := Disk.copy_puts hcopied hplaces
  refine ⟨content, ?_, fun hsource => absurd (hsource.symm.trans hother) (by decide), ?_⟩
  · rw [← ht.found, ← hpath, hbytes]
  · have hstage := ht.stage.put ((Disk.copy_spares hcopied).proper ht.stage.proper) hnil (hdest ▸ hputs)
    simpa [outputs, hother] using hstage

/-- **One file.** If it is carried over, what it makes is made. -/
theorem buildFile_establishes {dir name : String} {back : List String} (done : Summary) (hname : IsName name)
    (hback : ∀ n ∈ back, IsName n) (hdir : Path.place dir = Path.place job.rootDir ++ back.reverse)
    (hne : Path.place job.rootDir ≠ Path.place job.outDir) :
    Action.Establishes (Holding job start made (back.reverse ++ [name]) found)
      (job.buildFile (Path.join dir name) (name :: back).reverse done)
      fun summary t => summary = done.add [back.reverse ++ [name]] ∧
        Carried job start made (back.reverse ++ [name]) found t := by
  rw [List.reverse_cons]
  have hnil : back.reverse ++ [name] ≠ [] := by simp
  have hnames : ∀ n ∈ back.reverse ++ [name], IsName n := by
    intro n hn
    rcases List.mem_append.1 hn with hn | hn
    · exact hback n (List.mem_reverse.1 hn)
    · exact List.mem_singleton.1 hn ▸ hname
  have hpath : Path.place (Path.join dir name) = Path.place job.rootDir ++ (back.reverse ++ [name]) := by
    rw [Path.place_join_name dir hname, hdir, List.append_assoc]
  -- a new directory holds no bytes, so the stage stays what it was
  have hmake : ∀ parent, Action.Establishes (Holding job start made (back.reverse ++ [name]) found)
      (Action.attempt (Disk.makeDirs · parent) (.file .create parent))
      fun _ => Holding job start made (back.reverse ++ [name]) found := by
    refine fun parent => Action.establishes_attempt fun t ht _ => ?_
    have hgrows := Disk.makeDirs_grows t parent
    exact ⟨ht.stage.congr ((hgrows.spares []).proper ht.stage.proper) hgrows.bytesAt, (hgrows.bytesAt _).trans ht.found⟩
  have hcarry : Action.Establishes (Holding job start made (back.reverse ++ [name]) found)
      (if isSource (Path.join dir name) = true then do
        job.buildSource (Path.join dir name) ("/".intercalate (back.reverse ++ [name]))
          (Path.join job.outDir ("/".intercalate (back.reverse ++ [name])))
        pure { done with respelled := done.respelled + 1 }
      else do
        Action.change
          (Disk.copy · (Path.join dir name) (Path.join job.outDir ("/".intercalate (back.reverse ++ [name]))))
          (.file .copy (Path.join dir name))
        pure { done with copied := done.copied + 1 })
      fun summary t => summary = done.add [back.reverse ++ [name]] ∧
        Carried job start made (back.reverse ++ [name]) found t := by
    rw [isSource_join hname back.reverse]
    split_ifs with hsource
    · obtain ⟨dir', stem, hstem, heq⟩ := namesSource_iff.1 hsource
      obtain ⟨rfl, hlast⟩ := List.append_inj' heq rfl
      obtain rfl := List.singleton_inj.1 hlast
      obtain ⟨ps, hps, hplace⟩ := Path.pieces_join_names job.outDir hnil hnames
      rw [← List.append_assoc] at hps
      have hfold : (ps ++ back.reverse).foldl Path.move [] = Path.place job.outDir ++ back.reverse := by
        rw [List.foldl_append, hplace, Path.foldl_move_names fun n hn => hback n (List.mem_reverse.1 hn)]
      refine (job.buildSource_establishes hstem hpath hps hfold).bind fun _ =>
        Action.establishes_pure fun t ht => ⟨?_, ht⟩
      simp [Summary.add, hsource]
    · have hother : namesSource (back.reverse ++ [name]) = false := by simpa using hsource
      have hdest := Path.place_join_names job.outDir hnil hnames
      refine (job.copy_establishes hnil hother hpath hdest hne).bind fun _ =>
        Action.establishes_pure fun t ht => ⟨?_, ht⟩
      simp [Summary.add, hother]
  simp only [buildFile]
  split
  · exact (hmake _).bind fun _ => hcarry
  · exact hcarry

end

end Job

end Respell
