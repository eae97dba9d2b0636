/-
What can be seen at the places of a directory: nothing, a directory, a link with its path, or a file with its
content or its number. Where names lead is settled by what is seen; putting a node in a place or taking a file
out changes that there and nowhere else.
-/
import BlockDag.FileTree.MakeDirs
import BlockDag.Proofs.Table
import Mathlib.Logic.Function.Basic

namespace BlockDag

/-- What is seen of a node from outside. -/
inductive Sight where
  | file (content : Bytes)
  | shared (number : Nat)
  | link (target : Path)
  | directory
deriving DecidableEq

namespace FileNode

/-- What is seen of the node. -/
def sight : FileNode → Sight
  | .file content => .file content
  | .shared number => .shared number
  | .link target => .link target
  | .directory _ => .directory

theorem sight_eq_directory {node : FileNode} (h : node.sight = .directory) : ∃ inner, node = .directory inner := by
  cases node with
  | directory inner => exact ⟨inner, rfl⟩
  | file _ => cases h
  | shared _ => cases h
  | link _ => cases h

/-- Nothing lies below the node. -/
def Bare (node : FileNode) : Prop := ∀ inner, node = .directory inner → inner = []

theorem bare_of_sight {node : FileNode} (h : node.sight ≠ .directory) : node.Bare := by
  rintro inner rfl
  exact absurd rfl h

theorem bare_directory : (FileNode.directory []).Bare := fun _ h => by cases h; rfl

end FileNode

namespace Entries

variable {entries : Entries} {place : Place} {name : String}

/-- What is seen at a place. -/
def sight? (entries : Entries) (place : Place) : Option Sight := (entries.at? place).map FileNode.sight

/-- The names in the directory at a place; none if there is none. -/
def namesAt (entries : Entries) (place : Place) : List String :=
  match entries.at? place with
  | some (.directory inner) => Table.keys inner
  | _ => []

@[simp] theorem sight?_root (entries : Entries) : entries.sight? [] = some .directory := rfl

theorem at?_cons_of_directory {inner : Entries} (h : entries.get? name = some (.directory inner)) (place : Place) :
    entries.at? (name :: place) = inner.at? place := by
  simp only [at?, h]

theorem sight?_cons_of_directory {inner : Entries} (h : entries.get? name = some (.directory inner))
    (place : Place) : entries.sight? (name :: place) = inner.sight? place := by
  rw [sight?, at?_cons_of_directory h, sight?]

/-- What is seen under a name depends on nothing but what has that name. -/
theorem sight?_congr {others : Entries} (h : entries.get? name = others.get? name) (place : Place) :
    entries.sight? (name :: place) = others.sight? (name :: place) := by
  rw [sight?, at?_of_get?_eq h, sight?]

theorem sight?_singleton (entries : Entries) (name : String) :
    entries.sight? [name] = (entries.get? name).map FileNode.sight := by
  rw [sight?, at?]
  split <;> simp_all [at?]

/-- A directory is met wherever something is seen below. -/
theorem get?_of_sight?_cons (h : entries.sight? (name :: place) ≠ none) (hp : place ≠ []) :
    ∃ inner, entries.get? name = some (.directory inner) := by
  rw [sight?, at?] at h
  split at h
  · exact ⟨_, ‹_›⟩
  · simp [hp] at h
  · simp at h

theorem get?_of_sight?_cons_directory (h : entries.sight? (name :: place) = some .directory) :
    ∃ inner, entries.get? name = some (.directory inner) := by
  by_cases hp : place = []
  · rw [hp, sight?_singleton, Option.map_eq_some_iff] at h
    obtain ⟨node, hn, hs⟩ := h
    obtain ⟨inner, rfl⟩ := FileNode.sight_eq_directory hs
    exact ⟨inner, hn⟩
  · exact get?_of_sight?_cons (by simp [h]) hp

theorem exists_at?_of_sight? (h : entries.sight? place = some .directory) :
    ∃ inner, entries.at? place = some (.directory inner) := by
  rw [sight?, Option.map_eq_some_iff] at h
  obtain ⟨node, hn, hs⟩ := h
  obtain ⟨inner, rfl⟩ := FileNode.sight_eq_directory hs
  exact ⟨inner, hn⟩

theorem sight?_of_at? {inner : Entries} (h : entries.at? place = some (.directory inner)) :
    entries.sight? place = some .directory := by
  rw [sight?, h]; rfl

theorem at?_append {inner : Entries} (h : entries.at? place = some (.directory inner)) (rest : Place) :
    entries.at? (place ++ rest) = inner.at? rest := by
  induction place generalizing entries with
  | nil => simp only [at?] at h; cases h; rfl
  | cons first place ih =>
    rw [at?] at h
    split at h
    · next down hd => rw [List.cons_append, at?_cons_of_directory hd, ih h]
    · next node hnot hd =>
      split at h
      · exact absurd (Option.some.inj h) (hnot inner)
      · simp at h
    · simp at h

/-- Only below a directory is there anything. -/
theorem sight?_of_below {rest : Place} (h : entries.sight? (place ++ rest) ≠ none) (hr : rest ≠ []) :
    entries.sight? place = some .directory := by
  induction place generalizing entries with
  | nil => rfl
  | cons first place ih =>
    obtain ⟨inner, hi⟩ := get?_of_sight?_cons h (by simp [hr])
    rw [sight?_cons_of_directory hi]
    exact ih (by simpa [sight?_cons_of_directory hi] using h)

theorem sight?_of_isPrefix {other : Place} (h : entries.sight? other = some .directory) (hp : place <+: other) :
    entries.sight? place = some .directory := by
  obtain ⟨rest, rfl⟩ := hp
  by_cases hr : rest = []
  · simpa [hr] using h
  · exact sight?_of_below (by simp [h]) hr

/-- The names in a directory are those under which something is seen there. -/
theorem mem_namesAt : name ∈ entries.namesAt place ↔ entries.sight? (place ++ [name]) ≠ none := by
  by_cases h : entries.sight? place = some .directory
  · obtain ⟨inner, hi⟩ := exists_at?_of_sight? h
    rw [sight?, at?_append hi, ← sight?, sight?_singleton, namesAt, hi]
    simp [Table.get?_eq_none_iff]
  · have hn : entries.sight? (place ++ [name]) = none := by
      by_contra hs
      exact h (sight?_of_below hs (by simp))
    rw [hn, namesAt]
    split
    · exact absurd (sight?_of_at? ‹_›) h
    · simp

/-! ## Changes at one place -/

open Function (update)

/-- A change in one of the directories is a change below its name. -/
theorem sight?_insert_directory {inner changed : Entries} {s : Option Sight}
    (h : entries.get? name = some (.directory inner)) (hs : changed.sight? = update inner.sight? place s) :
    Entries.sight? (entries.insert name (.directory changed)) = update entries.sight? (name :: place) s := by
  funext other
  cases other with
  | nil => simp
  | cons first other =>
    by_cases hn : name = first
    · subst hn
      have hg : Table.get? name (entries.insert name (.directory changed)) = some (.directory changed) := by
        simp [Table.get?_insert]
      rw [sight?_cons_of_directory hg, hs]
      by_cases ho : other = place
      · simp [ho]
      · rw [Function.update_of_ne ho, Function.update_of_ne (by simpa using ho), sight?_cons_of_directory h]
    · rw [Function.update_of_ne (by simp [Ne.symm hn])]
      exact sight?_congr (by simp [Table.get?_insert, hn]) other

/-- Where there is no directory nothing is seen below. -/
theorem sight?_below_eq_none (h : entries.sight? place ≠ some .directory) {rest : Place} (hr : rest ≠ []) :
    entries.sight? (place ++ rest) = none := by
  by_contra hs
  exact h (sight?_of_below hs hr)

theorem sight?_bare {node : FileNode} (hb : node.Bare) (next : String) (rest : Place)
    (h : entries.get? name = some node) : entries.sight? (name :: next :: rest) = none := by
  cases node with
  | directory inner =>
    obtain rfl := hb inner rfl
    simp [sight?, at?, h, Table.get?]
  | file _ => simp [sight?, at?, h]
  | shared _ => simp [sight?, at?, h]
  | link _ => simp [sight?, at?, h]

theorem sight?_insert {node : FileNode} (hb : node.Bare) (h : entries.sight? [name] ≠ some .directory) :
    Entries.sight? (entries.insert name node) = update entries.sight? [name] (some node.sight) := by
  funext other
  match other with
  | [] => simp
  | first :: other =>
    by_cases hn : name = first
    · subst hn
      have hg : Table.get? name (entries.insert name node) = some node := by simp [Table.get?_insert]
      cases other with
      | nil => simp [sight?_singleton, hg]
      | cons next rest =>
        rw [sight?_bare hb next rest hg, Function.update_of_ne (by simp)]
        exact (sight?_below_eq_none h (List.cons_ne_nil next rest)).symm
    · rw [Function.update_of_ne (by simp [Ne.symm hn])]
      exact sight?_congr (by simp [Table.get?_insert, hn]) other

theorem sight?_erase (h : entries.sight? [name] ≠ some .directory) :
    Entries.sight? (entries.erase name) = update entries.sight? [name] none := by
  funext other
  match other with
  | [] => simp
  | first :: other =>
    by_cases hn : name = first
    · subst hn
      have hg : Table.get? name (entries.erase name) = none := by simp [Table.get?_erase]
      cases other with
      | nil => simp [sight?_singleton, hg]
      | cons next rest =>
        rw [sight?, at?, hg, Function.update_of_ne (by simp)]
        exact (sight?_below_eq_none h (List.cons_ne_nil next rest)).symm
    · rw [Function.update_of_ne (by simp [Ne.symm hn])]
      exact sight?_congr (by simp [Table.get?_erase, hn]) other

/-- Putting a bare node in a directory, where there is no other, is seen in its place alone. -/
theorem sight?_put {node : FileNode} (hb : node.Bare) (hp : entries.sight? place = some .directory)
    (hn : entries.sight? (place ++ [name]) ≠ some .directory) :
    (entries.put node (place ++ [name])).sight? =
      update entries.sight? (place ++ [name]) (some node.sight) := by
  induction place generalizing entries with
  | nil => exact sight?_insert hb hn
  | cons first place ih =>
    obtain ⟨inner, hi⟩ := get?_of_sight?_cons_directory hp
    have hput : put node (first :: (place ++ [name])) entries =
        Table.insert first (.directory (put node (place ++ [name]) inner)) entries := by
      cases place <;> simp [put, hi]
    rw [List.cons_append, hput]
    rw [sight?_cons_of_directory hi] at hp
    rw [List.cons_append, sight?_cons_of_directory hi] at hn
    exact sight?_insert_directory hi (ih hp hn)

/-- Taking a file out is seen in its place alone. -/
theorem sight?_remove (hp : entries.sight? place = some .directory)
    (hn : entries.sight? (place ++ [name]) ≠ some .directory) :
    (entries.remove (place ++ [name])).sight? = update entries.sight? (place ++ [name]) none := by
  induction place generalizing entries with
  | nil => exact sight?_erase hn
  | cons first place ih =>
    obtain ⟨inner, hi⟩ := get?_of_sight?_cons_directory hp
    have hremove : remove (first :: (place ++ [name])) entries =
        Table.insert first (.directory (remove (place ++ [name]) inner)) entries := by
      cases place <;> simp [remove, hi]
    rw [List.cons_append, hremove]
    rw [sight?_cons_of_directory hi] at hp
    rw [List.cons_append, sight?_cons_of_directory hi] at hn
    exact sight?_insert_directory hi (ih hp hn)

/-! ## Names stay apart -/

theorem namesAt_cons_of_directory {inner : Entries} (h : entries.get? name = some (.directory inner))
    (place : Place) : entries.namesAt (name :: place) = inner.namesAt place := by
  rw [namesAt, at?_cons_of_directory h, namesAt]

theorem namesAt_congr {others : Entries} (h : entries.get? name = others.get? name) (place : Place) :
    entries.namesAt (name :: place) = others.namesAt (name :: place) := by
  rw [namesAt, at?_of_get?_eq h, namesAt]

/-- No directory has a name twice after an insertion, as far as what was inserted has none. -/
theorem nodup_namesAt_insert {node : FileNode} {other : Place} (h : (entries.namesAt other).Nodup)
    (hn : ∀ inner rest, node = .directory inner → other = name :: rest → (namesAt inner rest).Nodup) :
    (Entries.namesAt (entries.insert name node) other).Nodup := by
  match other with
  | [] => exact Table.nodup_insert h name node
  | first :: rest =>
    by_cases hf : name = first
    · subst hf
      have hg : Table.get? name (entries.insert name node) = some node := by simp [Table.get?_insert]
      cases node with
      | directory inner => rw [namesAt_cons_of_directory hg]; exact hn inner rest rfl rfl
      | file _ => rw [namesAt, at?, hg]; split <;> simp_all
      | shared _ => rw [namesAt, at?, hg]; split <;> simp_all
      | link _ => rw [namesAt, at?, hg]; split <;> simp_all
    · have hg : Table.get? first (entries.insert name node) = entries.get? first := by simp [Table.get?_insert, hf]
      rwa [namesAt_congr hg]

theorem nodup_namesAt_put {node : FileNode} (hb : node.Bare) {other : Place}
    (h : (entries.namesAt other).Nodup) : ((entries.put node place).namesAt other).Nodup := by
  induction place generalizing entries other with
  | nil => exact h
  | cons name place ih =>
    match place with
    | [] =>
      refine nodup_namesAt_insert h fun inner rest hi _ => ?_
      obtain rfl := hb inner hi
      cases rest <;> simp [namesAt, at?, Table.keys, Table.get?]
    | next :: place =>
      rw [put]
      split
      · next inner hi =>
        refine nodup_namesAt_insert h fun down rest hd hr => ?_
        cases hd
        rw [hr, namesAt_cons_of_directory hi] at h
        exact ih h
      · exact h

theorem nodup_namesAt_remove {other : Place} (h : (entries.namesAt other).Nodup) :
    ((entries.remove place).namesAt other).Nodup := by
  induction place generalizing entries other with
  | nil => exact h
  | cons name place ih =>
    match place with
    | [] =>
      match other with
      | [] => exact Table.nodup_erase h name
      | first :: rest =>
        by_cases hf : name = first
        · subst hf
          have hg : Table.get? name (entries.erase name) = none := by simp [Table.get?_erase]
          simp [remove, namesAt, at?, hg]
        · have hg : Table.get? first (entries.erase name) = entries.get? first := by simp [Table.get?_erase, hf]
          rwa [remove, namesAt_congr hg]
    | next :: place =>
      rw [remove]
      split
      · next inner hi =>
        refine nodup_namesAt_insert h fun down rest hd hr => ?_
        cases hd
        rw [hr, namesAt_cons_of_directory hi] at h
        exact ih h
      · exact h

end Entries

end BlockDag
