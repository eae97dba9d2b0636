/-
What a write to the store in a directory leaves as it was. On the way to its file a write makes directories,
then writes and moves a draft, and each of these steps can fail on what is there already. Whatever happens,
nothing is seen changed in the place of a block or of a status but in that of the file itself, and there only
when the write goes through; so every other answer of the store is the one it gave before.
-/
import BlockDag.Proofs.Refinement

namespace BlockDag

/-! ## Answers that are settled by one place -/

namespace FileTree

variable {t : FileTree} {p : Path} {place : Place}

/-- What is in the file at a place, or else `e` if there is a directory. -/
def contentAt (t : FileTree) (e : FileError) (place : Place) : Except FileError Bytes :=
  match t.sight? place with
  | some (.file content) => .ok content
  | some (.shared number) => .ok (t.content number)
  | some .directory => .error e
  | some (.link _) | none => .error .notFound

/-- What is made of the end of a path, if files are read there and a directory is the failure `e`. -/
theorem look_bind_eq (h : t.locate p = .ok place) (hl : ∀ target, t.sight? place ≠ some (.link target)) {e : FileError}
    {take : Found → Except FileError Bytes} (hfile : ∀ content, take (.file content) = .ok content)
    (hdir : ∀ inner, take (.directory inner) = .error e) : t.look p >>= take = t.contentAt e place := by
  rw [contentAt]
  cases hs : t.sight? place with
  | none => rw [look_of_none h hs]; rfl
  | some sight =>
    cases sight with
    | file content => rw [look_of_file h hs]; exact hfile content
    | shared number => rw [look_of_shared h hs]; exact hfile (t.content number)
    | link target => exact absurd hs (hl target)
    | directory =>
      obtain ⟨inner, hlook, -⟩ := look_of_directory h hs
      rw [hlook]
      exact hdir inner

theorem mapped_eq (h : t.locate p = .ok place) (hl : ∀ target, t.sight? place ≠ some (.link target)) :
    t.mapped p = t.contentAt .noDevice place := look_bind_eq h hl (fun _ => rfl) fun _ => rfl

theorem bytes_eq (h : t.locate p = .ok place) (hl : ∀ target, t.sight? place ≠ some (.link target)) :
    t.bytes p = t.contentAt .isDirectory place := look_bind_eq h hl (fun _ => rfl) fun _ => rfl

/-- Plain names from one directory lead to the same place in two trees, with the same to be seen there. -/
structure Agree (t t' : FileTree) (dir : Path) (names : List String) (place : Place) : Prop where
  leads : t.Leads dir place
  leads' : t'.Leads dir place
  plain : ∀ name ∈ names, Plain name
  ne_nil : names ≠ []
  straight : t.Straight place names
  links : ∀ other target, t'.sight? other = some (.link target) ↔ t.sight? other = some (.link target)
  sight : t'.sight? (place ++ names) = t.sight? (place ++ names)
  shared : t'.shared = t.shared

namespace Agree

variable {t' : FileTree} {dir : Path} {names : List String}

theorem exists_iff (h : Agree t t' dir names place) : t'.Exists (dir ++ names) ↔ t.Exists (dir ++ names) := by
  have hs : t'.Straight place names := fun front target hf hl => h.straight front target hf ((h.links _ _).1 hl)
  rw [exists_append_iff h.leads' h.plain h.ne_nil hs, h.sight, exists_append_iff h.leads h.plain h.ne_nil h.straight]

theorem locate_eq (h : Agree t t' dir names place) (he : t.Exists (dir ++ names)) :
    t.locate (dir ++ names) = .ok (place ++ names) ∧ t'.locate (dir ++ names) = .ok (place ++ names) := by
  have hl := fun target => h.straight names target List.prefix_rfl
  obtain ⟨hfit, hn⟩ := (exists_append_iff h.leads h.plain h.ne_nil h.straight).1 he
  exact ⟨locate_append hfit h.leads h.plain h.ne_nil hn hl,
    locate_append hfit h.leads' h.plain h.ne_nil (h.sight ▸ hn) (h.sight ▸ hl)⟩

theorem contentAt_eq (h : Agree t t' dir names place) (e : FileError) :
    t'.contentAt e (place ++ names) = t.contentAt e (place ++ names) := by
  simp only [contentAt, content, h.sight, h.shared]

/-- The same is read there. -/
theorem mapped_eq (h : Agree t t' dir names place) (he : t.Exists (dir ++ names)) :
    t'.mapped (dir ++ names) = t.mapped (dir ++ names) := by
  have hl := fun target => h.straight names target List.prefix_rfl
  obtain ⟨hr, hr'⟩ := h.locate_eq he
  rw [FileTree.mapped_eq hr hl, FileTree.mapped_eq hr' (h.sight ▸ hl), h.contentAt_eq]

theorem readText_eq (h : Agree t t' dir names place) (he : t.Exists (dir ++ names)) :
    t'.readText (dir ++ names) = t.readText (dir ++ names) := by
  have hl := fun target => h.straight names target List.prefix_rfl
  obtain ⟨hr, hr'⟩ := h.locate_eq he
  rw [readText, readText, bytes_eq hr hl, bytes_eq hr' (h.sight ▸ hl), h.contentAt_eq]

end Agree

end FileTree

namespace DirectoryStore

open Function (update)

variable {s s' : DirectoryStore} {tree after : FileTree} {r : Refusals} {home folder : Place} {id : BlockId}
variable {above : Path} {names : List String} {content : Bytes}

/-! ## Directories without links -/

/-- The names from the store's directory down to one that files are written in. -/
def Folder (names : List String) (id : BlockId) : Prop := names = ["blocks", shard id] ∨ names = ["status"]

theorem Folder.plain (h : Folder names id) : ∀ name ∈ names, Plain name := by
  rcases h with rfl | rfl <;> simp [plain_blocks, plain_shard, plain_status]

/-- In the directory at `home`, below `blocks` and `status`, there are files and directories and no symbolic links,
and no draft is another name of some file: what is written or read there lies there, and nowhere else. By a link a
write would come to what is not its own. -/
structure Unlinked (tree : FileTree) (home : Place) : Prop where
  noLink : ∀ folder ∈ ["blocks", "status"], ∀ names target,
    tree.sight? (home ++ folder :: names) ≠ some (.link target)
  noShared : ∀ {names id}, Folder names id → ∀ number,
    tree.sight? (home ++ names ++ [draft id]) ≠ some (.shared number)

theorem Unlinked.straight (h : Unlinked tree home) (hlead : tree.Leads above home) {folder : String}
    (hf : folder ∈ ["blocks", "status"]) (names : List String) : tree.Straight home (folder :: names) := by
  rintro (_ | ⟨first, front⟩) target hp hs
  · rw [List.append_nil, hlead.sight?_eq] at hs
    simp at hs
  · obtain ⟨rfl, -⟩ := List.cons_prefix_cons.1 hp
    exact h.noLink first hf front target hs

/-- Between the two trees a file was on its way to the directory `folder` under the name of `id`: directories
may have been made down to `folder`, and the draft may have been written or moved away. -/
structure Scratched (tree after : FileTree) (folder : Place) (id : BlockId) : Prop where
  keeps : ∀ {place}, tree.sight? place = some .directory → after.sight? place = some .directory
  links : ∀ place target, after.sight? place = some (.link target) ↔ tree.sight? place = some (.link target)
  numbers : ∀ {place number}, after.sight? place = some (.shared number) → tree.sight? place = some (.shared number)
  same : ∀ {place}, ¬ place <+: folder → place ≠ folder ++ [draft id] → after.sight? place = tree.sight? place
  shared : after.shared = tree.shared

theorem Scratched.trans {between : FileTree} (h : Scratched tree between folder id)
    (h' : Scratched between after folder id) : Scratched tree after folder id where
  keeps hp := h'.keeps (h.keeps hp)
  links place target := (h'.links place target).trans (h.links place target)
  numbers hp := h.numbers (h'.numbers hp)
  same hf hd := (h'.same hf hd).trans (h.same hf hd)
  shared := h'.shared.trans h.shared

theorem Scratched.leads (h : Scratched tree after folder id) {place : Place} (hlead : tree.Leads names place) :
    after.Leads names place := hlead.mono (fun _ => h.keeps) h.links

/-- A call that was to put a file in the place `goal`: the store is where it was, and nothing is seen changed in
the place of a block or of a status, but in `goal` if the call went through. -/
structure Aimed (s s' : DirectoryStore) (home goal : Place) (outcome : Except StoreError Unit) : Prop where
  root : s'.root = s.root
  leads : s'.tree.Leads (dropSlash s.root) home
  links : ∀ place target, s'.tree.sight? place = some (.link target) ↔ s.tree.sight? place = some (.link target)
  numbers : ∀ {place number}, s'.tree.sight? place = some (.shared number) →
    s.tree.sight? place = some (.shared number)
  shared : s'.tree.shared = s.tree.shared
  block : ∀ {id}, (outcome = .ok () → blockPlace home id ≠ goal) →
    s'.tree.sight? (blockPlace home id) = s.tree.sight? (blockPlace home id)
  status : ∀ {id}, (outcome = .ok () → statusPlace home id ≠ goal) →
    s'.tree.sight? (statusPlace home id) = s.tree.sight? (statusPlace home id)

namespace Aimed

variable {goal : Place} {outcome : Except StoreError Unit}

/-- What is answered about a block is settled by what is seen in its place. -/
theorem view_eq (ha : Aimed s s' home goal outcome) (h : s.tree.Leads (dropSlash s.root) home)
    (hu : Unlinked s.tree home) (hn : outcome = .ok () → blockPlace home id ≠ goal) : s'.view id = s.view id := by
  have hagree : FileTree.Agree s.tree s'.tree (dropSlash s.root) ["blocks", shard id, id.toHex] home :=
    ⟨h, ha.leads, plain_block id, by simp, hu.straight h (by simp) _, ha.links, ha.block hn, ha.shared⟩
  have hp : blockPath s'.root id = blockPath s.root id := by rw [ha.root]
  have hiff : s'.Holds id ↔ s.Holds id := by rw [Holds, hp]; exact hagree.exists_iff
  by_cases hh : s.Holds id
  · rw [view, view, if_pos hh, if_pos (hiff.2 hh), hp]
    exact congrArg (during _ _) (hagree.mapped_eq hh)
  · rw [view_of_not_holds hh, view_of_not_holds (hiff.not.2 hh)]

/-- And so it is with a status. -/
theorem getStatus_eq (ha : Aimed s s' home goal outcome) (h : s.tree.Leads (dropSlash s.root) home)
    (hu : Unlinked s.tree home) (hn : outcome = .ok () → statusPlace home id ≠ goal) :
    s'.getStatus id = s.getStatus id := by
  have hagree : FileTree.Agree s.tree s'.tree (dropSlash s.root) ["status", id.toHex] home :=
    ⟨h, ha.leads, plain_statuses id, by simp, hu.straight h (by simp) _, ha.links, ha.status hn, ha.shared⟩
  have hp : statusPath s'.root id = statusPath s.root id := by rw [ha.root]
  have hiff : s'.tree.Exists (statusPath s.root id) ↔ s.tree.Exists (statusPath s.root id) := hagree.exists_iff
  rw [getStatus, getStatus, hp]
  by_cases he : s.tree.Exists (statusPath s.root id)
  · have hread : s'.tree.readText (statusPath s.root id) = s.tree.readText (statusPath s.root id) :=
      hagree.readText_eq he
    rw [if_pos he, if_pos (hiff.2 he), hread]
  · rw [if_neg he, if_neg (hiff.not.2 he)]

end Aimed

/-! ## The two calls that write -/

variable {outcome : Except StoreError Unit} {raw : Bytes} {root : RootId} {goal : RootStatus}

/-- In a directory and in those below it there are but files that have no other name. -/
def PlainFiles (entries : Entries) : Prop :=
  ∀ place s, entries.sight? place = some s → s = .directory ∨ ∃ content, s = .file content

namespace PlainFiles

variable {name : String} {inner rest : Entries}

theorem nil : PlainFiles [] := by
  rintro (_ | ⟨name, place⟩) s hs
  · exact .inl (Option.some.inj hs).symm
  · cases hs

theorem cons {node : FileNode} (hn : ∀ place s, Entries.sight? [(name, node)] (name :: place) = some s →
    s = .directory ∨ ∃ content, s = .file content) (h : PlainFiles rest) : PlainFiles ((name, node) :: rest) := by
  rintro (_ | ⟨first, place⟩) s hs
  · exact .inl (Option.some.inj hs).symm
  by_cases hf : name = first
  · subst hf
    exact hn place s ((Entries.sight?_congr (by simp [Table.get?]) place).trans hs)
  · exact h (first :: place) s ((Entries.sight?_congr (by simp [Table.get?, hf]) place).trans hs)

theorem file {content : Bytes} (h : PlainFiles rest) : PlainFiles ((name, .file content) :: rest) := by
  refine h.cons fun place s hs => ?_
  cases place with
  | nil =>
    rw [Entries.sight?_singleton] at hs
    simp only [Table.get?, if_pos, Option.map_some, Option.some.injEq] at hs
    exact .inr ⟨content, hs.symm⟩
  | cons next place =>
    simp [Entries.sight?, Entries.at?, Table.get?] at hs

theorem directory (hi : PlainFiles inner) (h : PlainFiles rest) : PlainFiles ((name, .directory inner) :: rest) :=
  h.cons fun place s hs => hi place s ((Entries.sight?_cons_of_directory (by simp [Table.get?]) place).symm.trans hs)

end PlainFiles

end DirectoryStore

end BlockDag
