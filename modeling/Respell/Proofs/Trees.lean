/-
What stands where in a tree of files, before and after a change. A tree is well formed (`Node.Proper`) if the entries of
each directory have names, increase, and are well formed themselves; putting and removing nodes keeps that.

A change is judged by the files it leaves alone: `Kept zone before after` says that every file of `before` that is not
in the `zone` is a file of `after`, with the same bytes. Putting a node keeps all files that are not below its place,
and all files whatever if nothing was there; removing one keeps what is not below its place.
-/
import Respell.Project.Tree
import Mathlib.Data.String.Basic
import Mathlib.Data.List.Basic

namespace Respell.Node

/-! ## Names -/

structure IsName (name : String) : Prop where
  ne_empty : name ≠ ""
  ne_here : name ≠ "."
  ne_up : name ≠ ".."
  no_slash : '/' ∉ name.toList

/-- the entries of each directory have names and increase -/
inductive Proper : Node → Prop
  | file {content : Bytes} : Proper (.file content)
  | dir {es : List (String × Node)} (names : ∀ e ∈ es, IsName e.1) (increasing : es.Pairwise fun a b => a.1 < b.1)
      (below : ∀ e ∈ es, Proper e.2) : Proper (.dir es)

theorem Proper.empty : Proper Node.empty :=
  .dir (fun _ h => (List.not_mem_nil h).elim) .nil (fun _ h => (List.not_mem_nil h).elim)

theorem mem_of_lookup {es : List (String × Node)} {name : String} {child : Node} (h : es.lookup name = some child) :
    (name, child) ∈ es := by
  obtain ⟨l₁, l₂, rfl, -⟩ := List.lookup_eq_some_iff.1 h
  exact List.mem_append_right _ List.mem_cons_self

/-- in increasing entries, having an entry is looking it up -/
theorem lookup_of_mem {es : List (String × Node)} (hes : es.Pairwise fun a b => a.1 < b.1) {name : String}
    {child : Node} (h : (name, child) ∈ es) : es.lookup name = some child := by
  obtain ⟨l₁, l₂, rfl⟩ := List.append_of_mem h
  refine List.lookup_eq_some_iff.2 ⟨l₁, l₂, rfl, ?_⟩
  intro e he
  have hlt := (List.pairwise_append.1 hes).2.2 e he _ List.mem_cons_self
  exact bne_iff_ne.2 (ne_of_gt hlt)

theorem Proper.child {es : List (String × Node)} (h : Proper (.dir es)) {name : String} {child : Node}
    (hc : es.lookup name = some child) : Proper child := by
  cases h with
  | dir _ _ below => exact below _ (mem_of_lookup hc)

/-! ## Reading -/

@[simp] theorem get?_nil (t : Node) : t.get? [] = some t := by
  cases t <;> rfl

@[simp] theorem get?_dir (es : List (String × Node)) (name : String) (names : List String) :
    (Node.dir es).get? (name :: names) = (es.lookup name).bind (·.get? names) := rfl

@[simp] theorem get?_file (content : Bytes) (name : String) (names : List String) :
    (Node.file content).get? (name :: names) = none := rfl

theorem get?_append (t : Node) (p q : List String) : t.get? (p ++ q) = (t.get? p).bind (·.get? q) := by
  induction p generalizing t with
  | nil => simp
  | cons name p ih =>
    cases t with
    | file content => simp
    | dir es =>
      rw [List.cons_append, get?_dir, get?_dir, Option.bind_assoc]
      exact Option.bind_congr fun child _ => ih child

theorem Proper.get? {t child : Node} (h : t.Proper) {p : List String} (hp : t.get? p = some child) : child.Proper := by
  induction p generalizing t with
  | nil =>
    rw [get?_nil] at hp
    exact Option.some.inj hp ▸ h
  | cons name p ih =>
    cases t with
    | file content => cases hp
    | dir es =>
      obtain ⟨next, hnext, hp⟩ := Option.bind_eq_some_iff.1 (get?_dir es name p ▸ hp)
      exact ih (h.child hnext) hp

/-! ## Entries -/

theorem lookup_cons_eq (name key : String) (child : Node) (rest : List (String × Node)) :
    ((key, child) :: rest).lookup name = if name = key then some child else rest.lookup name := by
  rw [List.lookup_cons]
  by_cases h : name = key
  · rw [if_pos h, beq_iff_eq.2 h]
  · rw [if_neg h, beq_eq_false_iff_ne.2 h]

theorem lookup_insertEntry (name other : String) (node : Node) (es : List (String × Node)) :
    (insertEntry name node es).lookup other = if other = name then some node else es.lookup other := by
  induction es with
  | nil => exact lookup_cons_eq other name node []
  | cons e rest ih =>
    obtain ⟨key, child⟩ := e
    unfold insertEntry
    by_cases hlt : name < key
    · rw [if_pos hlt, lookup_cons_eq]
    · rw [if_neg hlt]
      by_cases heq : name = key
      · subst heq
        rw [if_pos rfl, lookup_cons_eq, lookup_cons_eq]
        by_cases h : other = name
        · rw [if_pos h, if_pos h]
        · rw [if_neg h, if_neg h, if_neg h]
      · rw [if_neg heq, lookup_cons_eq, lookup_cons_eq, ih]
        by_cases h : other = name
        · subst h
          rw [if_neg heq, if_pos rfl, if_pos rfl]
        · rw [if_neg h, if_neg h]

theorem mem_insertEntry {name : String} {node : Node} {es : List (String × Node)} {e : String × Node}
    (h : e ∈ insertEntry name node es) : e = (name, node) ∨ e ∈ es := by
  induction es with
  | nil => exact .inl (List.mem_singleton.1 h)
  | cons first rest ih =>
    obtain ⟨key, child⟩ := first
    unfold insertEntry at h
    split_ifs at h with hlt heq
    · exact List.mem_cons.1 h
    · exact (List.mem_cons.1 h).imp_right (List.mem_cons_of_mem _)
    · rcases List.mem_cons.1 h with rfl | h
      · exact .inr List.mem_cons_self
      · exact (ih h).imp_right (List.mem_cons_of_mem _)

theorem pairwise_insertEntry {name : String} {node : Node} {es : List (String × Node)}
    (h : es.Pairwise fun a b => a.1 < b.1) : (insertEntry name node es).Pairwise fun a b => a.1 < b.1 := by
  induction es with
  | nil => exact List.pairwise_singleton _ _
  | cons first rest ih =>
    obtain ⟨key, child⟩ := first
    obtain ⟨hfirst, hrest⟩ := List.pairwise_cons.1 h
    unfold insertEntry
    split_ifs with hlt heq
    · refine List.pairwise_cons.2 ⟨?_, h⟩
      intro e he
      rcases List.mem_cons.1 he with rfl | he
      · exact hlt
      · exact lt_trans hlt (hfirst e he)
    · subst heq
      exact List.pairwise_cons.2 ⟨hfirst, hrest⟩
    · refine List.pairwise_cons.2 ⟨?_, ih hrest⟩
      intro e he
      rcases mem_insertEntry he with rfl | he
      · exact lt_of_le_of_ne (not_lt.1 hlt) (Ne.symm heq)
      · exact hfirst e he

theorem Proper.insertEntry {es : List (String × Node)} (h : Proper (.dir es)) {name : String} (hname : IsName name)
    {node : Node} (hnode : node.Proper) : Proper (.dir (insertEntry name node es)) := by
  cases h with
  | dir names increasing below =>
    refine .dir ?_ (pairwise_insertEntry increasing) ?_
    · intro e he
      rcases mem_insertEntry he with rfl | he
      · exact hname
      · exact names e he
    · intro e he
      rcases mem_insertEntry he with rfl | he
      · exact hnode
      · exact below e he

theorem lookup_filter_ne (name other : String) (es : List (String × Node)) :
    (es.filter fun e => e.1 ≠ name).lookup other = if other = name then none else es.lookup other := by
  induction es with
  | nil => simp
  | cons e rest ih =>
    obtain ⟨key, child⟩ := e
    by_cases hkey : key = name
    · rw [List.filter_cons_of_neg (by simp [hkey]), ih, lookup_cons_eq, hkey]
      by_cases h : other = name
      · rw [if_pos h, if_pos h]
      · rw [if_neg h, if_neg h, if_neg h]
    · rw [List.filter_cons_of_pos (by simpa using hkey), lookup_cons_eq, lookup_cons_eq, ih]
      by_cases h : other = name
      · rw [if_pos h, if_pos h, if_neg (h ▸ Ne.symm hkey)]
      · rw [if_neg h, if_neg h]

/-! ## Putting and removing -/

theorem Proper.put {t : Node} (h : t.Proper) {q : List String} (hq : ∀ name ∈ q, IsName name) {new : Node}
    (hnew : new.Proper) : (t.put q new).Proper := by
  induction q generalizing t with
  | nil => cases t <;> exact hnew
  | cons name q ih =>
    cases t with
    | file content => exact .file
    | dir es =>
      refine h.insertEntry (hq name List.mem_cons_self) (ih ?_ fun n hn => hq n (List.mem_cons_of_mem _ hn))
      cases hc : es.lookup name with
      | none => exact .empty
      | some child => exact h.child hc

theorem Proper.erase {t : Node} (h : t.Proper) (q : List String) : (t.erase q).Proper := by
  induction q generalizing t with
  | nil => cases t <;> exact h
  | cons name q ih =>
    cases t with
    | file content => cases q <;> exact .file
    | dir es =>
      cases q with
      | nil =>
        cases h with
        | dir names increasing below =>
          exact .dir (fun e he => names e (List.mem_filter.1 he).1) (increasing.filter _)
            fun e he => below e (List.mem_filter.1 he).1
      | cons next q =>
        unfold Node.erase
        cases hc : es.lookup name with
        | none => exact h
        | some child =>
          have hname : IsName name := by
            cases h with
            | dir names _ _ => exact names _ (mem_of_lookup hc)
          exact h.insertEntry hname (ih (h.child hc))

/-- every file outside the zone is still there, with the same bytes -/
def Kept (zone : List String) (before after : Node) : Prop :=
  ∀ p content, ¬ zone <+: p → before.get? p = some (.file content) → after.get? p = some (.file content)

theorem Kept.refl (zone : List String) (t : Node) : Kept zone t t := fun _ _ _ h => h

theorem Kept.trans {zone : List String} {t u v : Node} (h : Kept zone t u) (h' : Kept zone u v) : Kept zone t v :=
  fun p content hp ht => h' p content hp (h p content hp ht)

theorem Kept.mono {zone inner : List String} (h : zone <+: inner) {t u : Node} (hk : Kept inner t u) : Kept zone t u :=
  fun p content hp ht => hk p content (fun hin => hp (h.trans hin)) ht

theorem kept_put (t : Node) (q : List String) (new : Node) : Kept q t (t.put q new) := by
  intro p content hp ht
  induction q generalizing t p with
  | nil => exact absurd List.nil_prefix hp
  | cons name q ih =>
    cases t with
    | file bytes => exact ht
    | dir es =>
      cases p with
      | nil => cases (get?_nil _).symm.trans ht
      | cons first p =>
        obtain ⟨child, hchild, ht⟩ := Option.bind_eq_some_iff.1 (get?_dir es first p ▸ ht)
        rw [Node.put, get?_dir, lookup_insertEntry]
        by_cases heq : first = name
        · subst heq
          rw [if_pos rfl, hchild]
          exact ih child p (fun hq => hp (List.cons_prefix_cons.2 ⟨rfl, hq⟩)) ht
        · rw [if_neg heq, hchild]
          exact ht

theorem kept_erase (t : Node) (q : List String) : Kept q t (t.erase q) := by
  intro p content hp ht
  induction q generalizing t p with
  | nil => exact absurd List.nil_prefix hp
  | cons name q ih =>
    cases t with
    | file bytes => cases q <;> exact ht
    | dir es =>
      cases p with
      | nil => cases (get?_nil _).symm.trans ht
      | cons first p =>
        obtain ⟨child, hchild, ht'⟩ := Option.bind_eq_some_iff.1 (get?_dir es first p ▸ ht)
        cases q with
        | nil =>
          have hne : first ≠ name := fun heq => hp (List.cons_prefix_cons.2 ⟨heq.symm, List.nil_prefix⟩)
          rw [Node.erase, get?_dir, lookup_filter_ne, if_neg hne, hchild]
          exact ht'
        | cons next q =>
          unfold Node.erase
          cases hname : es.lookup name with
          | none => exact ht
          | some inner =>
            simp only [get?_dir, lookup_insertEntry]
            by_cases heq : first = name
            · subst heq
              rw [if_pos rfl]
              obtain rfl := Option.some.inj (hchild.symm.trans hname)
              exact ih child p (fun hq => hp (List.cons_prefix_cons.2 ⟨rfl, hq⟩)) ht'
            · rw [if_neg heq, hchild]
              exact ht'

theorem kept_put_of_none {t : Node} {q : List String} (hq : t.get? q = none) (zone : List String) (new : Node) :
    Kept zone t (t.put q new) := by
  intro p content _ ht
  refine kept_put t q new p content ?_ ht
  rintro ⟨rest, rfl⟩
  rw [get?_append, hq] at ht
  cases ht

/-! ## Emptied places -/

/-- no file is in the zone -/
def Bare (zone : List String) (t : Node) : Prop := ∀ p content, zone <+: p → t.get? p ≠ some (.file content)

theorem get?_put_empty {t : Node} {q p : List String} {content : Bytes}
    (h : (t.put q .empty).get? p = some (.file content)) : t.get? p = some (.file content) ∧ ¬ q <+: p := by
  induction q generalizing t p with
  | nil =>
    have hput : t.put [] .empty = .empty := by cases t <;> rfl
    rw [hput] at h
    cases p with
    | nil => cases h
    | cons first p => cases h
  | cons name q ih =>
    cases t with
    | file bytes =>
      refine ⟨h, ?_⟩
      rintro ⟨rest, rfl⟩
      cases h
    | dir es =>
      cases p with
      | nil => cases h
      | cons first p =>
        rw [Node.put, get?_dir, lookup_insertEntry] at h
        by_cases heq : first = name
        · subst heq
          rw [if_pos rfl, Option.bind_some] at h
          obtain ⟨hget, hnot⟩ := ih h
          refine ⟨?_, fun hpre => hnot (List.cons_prefix_cons.1 hpre).2⟩
          cases hc : es.lookup first with
          | none =>
            rw [hc] at hget
            cases p with
            | nil => cases hget
            | cons next p => cases hget
          | some child =>
            rw [hc] at hget
            rw [get?_dir, hc]
            exact hget
        · rw [if_neg heq] at h
          exact ⟨h, fun hpre => heq (List.cons_prefix_cons.1 hpre).1.symm⟩

theorem bare_put_empty (t : Node) (q : List String) : Bare q (t.put q .empty) :=
  fun _ _ hp h => (get?_put_empty h).2 hp

theorem Bare.put_empty {zone : List String} {t : Node} (h : Bare zone t) (q : List String) :
    Bare zone (t.put q .empty) :=
  fun p content hp hget => h p content hp (get?_put_empty hget).1

theorem get?_erase {t : Node} {q p : List String} {content : Bytes}
    (h : (t.erase q).get? p = some (.file content)) : t.get? p = some (.file content) := by
  induction q generalizing t p with
  | nil => cases t <;> exact h
  | cons name q ih =>
    cases t with
    | file bytes => cases q <;> exact h
    | dir es =>
      cases p with
      | nil =>
        cases q with
        | nil => cases h
        | cons next q =>
          unfold Node.erase at h
          cases hc : es.lookup name <;> rw [hc] at h <;> cases h
      | cons first p =>
        cases q with
        | nil =>
          rw [Node.erase, get?_dir, lookup_filter_ne] at h
          by_cases heq : first = name
          · rw [if_pos heq] at h
            cases h
          · rw [if_neg heq] at h
            exact h
        | cons next q =>
          unfold Node.erase at h
          cases hc : es.lookup name with
          | none =>
            rw [hc] at h
            exact h
          | some child =>
            rw [hc] at h
            simp only [get?_dir, lookup_insertEntry] at h
            by_cases heq : first = name
            · subst heq
              rw [if_pos rfl, Option.bind_some] at h
              rw [get?_dir, hc]
              exact ih h
            · rw [if_neg heq] at h
              exact h

theorem Bare.erase {zone : List String} {t : Node} (h : Bare zone t) (q : List String) : Bare zone (t.erase q) :=
  fun p content hp hget => h p content hp (get?_erase hget)

end Respell.Node
