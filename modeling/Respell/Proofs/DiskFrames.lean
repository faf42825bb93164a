/-
What each operation on a tree of files leaves alone. Making directories puts empty ones where nothing is, and does
nothing else (`Grows`), so it keeps every file. Writing and copying put one file into the directory that all but the
last piece of the path lead to; removing a directory touches only what is at its place or below.

`Spares zone before after` collects what later steps rely on: a well-formed tree stays one, and the files outside the
zone are kept. Every tree given by a listing is well formed (`ofListing_proper`).
-/
import Respell.Project.Disk
import Respell.Proofs.Paths
import Mathlib.Logic.Relation

namespace Respell

open Node

/-- a well-formed tree stays one, and the files outside the zone are kept -/
structure Spares (zone : List String) (before after : Node) : Prop where
  proper : before.Proper → after.Proper
  kept : Kept zone before after

namespace Spares

theorem refl (zone : List String) (t : Node) : Spares zone t t := ⟨id, .refl zone t⟩

theorem trans {zone : List String} {t u v : Node} (h : Spares zone t u) (h' : Spares zone u v) : Spares zone t v :=
  ⟨h'.proper ∘ h.proper, h.kept.trans h'.kept⟩

theorem mono {zone inner : List String} (h : zone <+: inner) {t u : Node} (hs : Spares inner t u) : Spares zone t u :=
  ⟨hs.proper, hs.kept.mono h⟩

end Spares

namespace Disk

/-! ## Directories -/

/-- an empty directory is put where nothing is -/
def MakesDir (before after : Node) : Prop :=
  ∃ q, (∀ name ∈ q, IsName name) ∧ before.get? q = none ∧ after = before.put q .empty

/-- empty directories are put where nothing is -/
def Grows : Node → Node → Prop := Relation.ReflTransGen MakesDir

theorem Grows.spares {before after : Node} (h : Grows before after) (zone : List String) :
    Spares zone before after := by
  induction h with
  | refl => exact .refl zone _
  | tail _ hstep ih =>
    obtain ⟨q, hnames, hnone, rfl⟩ := hstep
    exact ih.trans ⟨fun ht => ht.put hnames .empty, kept_put_of_none hnone zone _⟩

theorem Grows.bare {before after : Node} (h : Grows before after) {zone : List String} (hb : Bare zone before) :
    Bare zone after := by
  induction h with
  | refl => exact hb
  | tail _ hstep ih =>
    obtain ⟨q, -, -, rfl⟩ := hstep
    exact ih.put_empty q

theorem makesDir {top after : Node} {path : String} (h : makeDir top path = .ok after) : MakesDir top after := by
  unfold makeDir at h
  cases htarget : top.target path with
  | error fault =>
    rw [htarget] at h
    cases h
  | ok target =>
    cases target with
    | directory =>
      rw [htarget] at h
      cases h
    | entry dir name there slashed =>
      simp only [htarget] at h
      obtain ⟨hplace, hthere, -⟩ := target_entry htarget
      split_ifs at h with hsome hfits
      refine ⟨dir ++ [name], ?_, ?_, (Except.ok.inj h).symm⟩
      · intro n hn
        exact Path.isName_of_mem_place (hplace ▸ hn)
      · rw [hplace, ← hthere]
        simpa using hsome

theorem ensureDir_grows (top : Node) (path : String) : Grows top (ensureDir top path).1 := by
  unfold ensureDir
  cases h : makeDir top path with
  | ok after => exact .single (makesDir h)
  | error fault => exact .refl

theorem makeDirsWithin_grows (fuel : Nat) (top : Node) (path : String) :
    Grows top (makeDirsWithin fuel top path).1 := by
  induction fuel generalizing path with
  | zero => exact .refl
  | succ fuel ih =>
    unfold makeDirsWithin
    by_cases hempty : path = ""
    · rw [if_pos hempty]
      exact .refl
    · rw [if_neg hempty]
      cases hmake : makeDir top path with
      | ok after => exact .single (makesDir hmake)
      | error fault =>
        cases fault with
        | notFound =>
          have hup := ih ((Path.parent? path).getD "")
          generalize hres : makeDirsWithin fuel top ((Path.parent? path).getD "") = res at hup ⊢
          obtain ⟨after, outcome⟩ := res
          cases outcome with
          | ok _ => exact hup.trans (ensureDir_grows after path)
          | error fault => exact hup
        | _ => exact .refl

theorem makeDirs_grows (top : Node) (path : String) : Grows top (makeDirs top path).1 := makeDirsWithin_grows _ top path

/-! ## Files -/

theorem write_spares {top after : Node} {path : String} {content : Bytes} (h : write top path content = .ok after) :
    Spares (Path.above path) top after := by
  unfold write at h
  cases htarget : top.target path with
  | error fault =>
    rw [htarget] at h
    cases h
  | ok target =>
    cases target with
    | directory =>
      rw [htarget] at h
      cases h
    | entry dir name there slashed =>
      simp only [htarget] at h
      obtain ⟨hplace, -, hdir⟩ := target_entry htarget
      split_ifs at h with hdirectory hfits
      obtain rfl := Except.ok.inj h
      have hslashed : slashed = false := by
        cases slashed with
        | false => rfl
        | true => exact absurd rfl hdirectory
      refine ⟨fun ht => ht.put (fun n hn => Path.isName_of_mem_place (hplace ▸ hn)) .file, ?_⟩
      exact (kept_put top _ _).mono (hdir hslashed ▸ List.prefix_append dir [name])

theorem copy_spares {top after : Node} {path dest : String} (h : copy top path dest = .ok after) :
    Spares (Path.above dest) top after := by
  unfold copy at h
  cases hread : readBytes top path with
  | error fault =>
    rw [hread] at h
    cases h
  | ok content =>
    cases hempty : write top dest #[] with
    | error fault =>
      simp only [hread, hempty] at h
      cases h
    | ok emptied =>
      cases hagain : readBytes emptied path with
      | error fault =>
        simp only [hread, hempty, hagain, bind, Except.bind] at h
        cases h
      | ok content' =>
        simp only [hread, hempty, hagain, bind, Except.bind] at h
        exact (write_spares hempty).trans (write_spares h)

/-! ## Removing -/

theorem removeTree_cases (top : Node) (path : String) :
    (removeTree top path).1 = top ∧ isDir top path = false ∨
      ∃ emptied, emptied = top.put (Path.place path) .empty ∧
        ((removeTree top path).1 = emptied ∨ (removeTree top path).1 = emptied.erase (Path.place path)) := by
  unfold removeTree isDir find
  cases hlocate : top.locate path with
  | error fault => exact .inl ⟨rfl, rfl⟩
  | ok way =>
    cases hhere : Way.here top way with
    | file content =>
      left
      simp [hhere, Except.map, Node.isDir]
    | dir es =>
      right
      refine ⟨_, rfl, ?_⟩
      simp only [hhere, (locate_place hlocate).1]
      split
      · exact .inl rfl
      · exact .inl rfl
      · exact .inl rfl
      · exact .inr rfl

theorem removeTree_spares (top : Node) (path : String) : Spares (Path.place path) top (removeTree top path).1 := by
  have hput : Spares (Path.place path) top (top.put (Path.place path) .empty) :=
    ⟨fun ht => ht.put (fun _ hn => Path.isName_of_mem_place hn) .empty, kept_put top _ _⟩
  rcases removeTree_cases top path with ⟨h, -⟩ | ⟨_, rfl, h | h⟩
  · rw [h]
    exact .refl _ top
  · rw [h]
    exact hput
  · rw [h]
    exact hput.trans ⟨fun ht => ht.erase _, kept_erase _ _⟩

/-- a directory that is removed leaves no file behind -/
theorem removeTree_bare {top : Node} {path : String} (hdir : isDir top path = true) :
    Bare (Path.place path) (removeTree top path).1 := by
  have hput := bare_put_empty top (Path.place path)
  rcases removeTree_cases top path with ⟨-, h⟩ | ⟨_, rfl, h | h⟩
  · rw [h] at hdir
    cases hdir
  · rw [h]
    exact hput
  · rw [h]
    exact hput.erase _

/-! ## Listings -/

theorem lay_proper {top : Node} (h : top.Proper) (path : String) (content : Option Bytes) :
    (lay top path content).Proper := by
  cases content with
  | none => exact ((makeDirs_grows top path).spares []).proper h
  | some content =>
    have hdirs := ((makeDirs_grows top ((Path.parent? path).getD "")).spares []).proper h
    simp only [lay]
    cases hwrite : write (makeDirs top ((Path.parent? path).getD "")).1 path content with
    | error fault => exact hdirs
    | ok after => exact (write_spares hwrite).proper hdirs

/-- **Listings.** The tree of a listing is well formed. -/
theorem ofListing_proper (listing : List (String × Option Bytes)) : (ofListing listing).Proper := by
  have hfold : ∀ top : Node, top.Proper → (listing.foldl (fun top e => lay top e.1 e.2) top).Proper := by
    induction listing with
    | nil => exact fun _ h => h
    | cons e rest ih => exact fun top h => ih _ (lay_proper h e.1 e.2)
  exact hfold .empty .empty

end Disk

end Respell
