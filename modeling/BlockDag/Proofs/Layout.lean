/-
What the operations of the store in a directory answer, from what is seen in its directory. Each block and
each status has a place of its own there, an answer depends on that place alone, and a write that goes
through shows its content there, with the directory that it lies in.
-/
import BlockDag.Proofs.Names

namespace BlockDag.DirectoryStore

open Function (update)

variable {s : DirectoryStore} {tree : FileTree} {home : Place} {id : BlockId}

/-- The place of the block `id` in the store's directory. -/
def blockPlace (home : Place) (id : BlockId) : Place := home ++ ["blocks", shard id, id.toHex]

/-- The place of the status of `id` in the store's directory. -/
def statusPlace (home : Place) (id : RootId) : Place := home ++ ["status", id.toHex]

theorem blockPlace_inj {other : BlockId} : blockPlace home id = blockPlace home other ↔ id = other := by
  refine ⟨fun h => ?_, fun h => h ▸ rfl⟩
  simp only [blockPlace, List.append_cancel_left_eq, List.cons.injEq, and_true, true_and] at h
  exact BlockId.toHex_injective h.2

theorem statusPlace_inj {other : BlockId} : statusPlace home id = statusPlace home other ↔ id = other := by
  refine ⟨fun h => ?_, fun h => h ▸ rfl⟩
  simp only [statusPlace, List.append_cancel_left_eq, List.cons.injEq, and_true, true_and] at h
  exact BlockId.toHex_injective h

theorem plain_block (id : BlockId) : ∀ name ∈ ["blocks", shard id, id.toHex], Plain name := by
  simp [plain_blocks, plain_shard, id.plain_toHex]

theorem plain_statuses (id : BlockId) : ∀ name ∈ ["status", id.toHex], Plain name := by
  simp [plain_status, id.plain_toHex]

/-! ## Reading -/

theorem holds_iff (h : s.tree.Leads (dropSlash s.root) home)
    (hl : s.tree.Straight home ["blocks", shard id, id.toHex]) :
    s.Holds id ↔ ¬ PathTooLong (blockPath s.root id) ∧ s.tree.sight? (blockPlace home id) ≠ none :=
  FileTree.exists_append_iff h (plain_block id) (by simp) hl

theorem view_of_not_holds (h : ¬ s.Holds id) : s.view id = .error (.notFound id) := if_neg h

theorem view_of_look (h : s.Holds id) {raw : Bytes} (hlook : s.tree.look (blockPath s.root id) = .ok (.file raw)) :
    s.view id = .ok raw := by
  rw [view, if_pos h, FileTree.mapped, hlook]
  rfl

theorem view_of_file (h : s.tree.Leads (dropSlash s.root) home) (hl : ¬ PathTooLong (blockPath s.root id))
    {raw : Bytes} (hs : s.tree.sight? (blockPlace home id) = some (.file raw)) : s.view id = .ok raw := by
  have hr : s.tree.locate (blockPath s.root id) = .ok (blockPlace home id) :=
    FileTree.locate_append hl h (plain_block id) (by simp) (by rw [← blockPlace, hs]; simp)
      (by rw [← blockPlace, hs]; simp)
  have hlook := FileTree.look_of_file hr hs
  exact view_of_look (FileTree.exists_of_look hlook) hlook

theorem status_exists_iff (h : s.tree.Leads (dropSlash s.root) home)
    (hl : s.tree.Straight home ["status", id.toHex]) : s.tree.Exists (statusPath s.root id) ↔
      ¬ PathTooLong (statusPath s.root id) ∧ s.tree.sight? (statusPlace home id) ≠ none :=
  FileTree.exists_append_iff h (plain_statuses id) (by simp) hl

theorem getStatus_of_none (h : s.tree.Leads (dropSlash s.root) home)
    (hl : s.tree.Straight home ["status", id.toHex]) (hs : s.tree.sight? (statusPlace home id) = none) :
    s.getStatus id = .ok none :=
  if_neg fun he => ((status_exists_iff h hl).1 he).2 hs

/-- The word of a status reads back as the status. -/
theorem parseStatus_word (p : Path) (status : RootStatus) : parseStatus p status.word = .ok status := by
  cases status <;> rfl

theorem getStatus_of_word (h : s.tree.Leads (dropSlash s.root) home) (hl : ¬ PathTooLong (statusPath s.root id))
    {status : RootStatus} (hs : s.tree.sight? (statusPlace home id) = some (.file (Bytes.ofString status.word))) :
    s.getStatus id = .ok (some status) := by
  have hr : s.tree.locate (statusPath s.root id) = .ok (statusPlace home id) :=
    FileTree.locate_append hl h (plain_statuses id) (by simp) (by rw [← statusPlace, hs]; simp)
      (by rw [← statusPlace, hs]; simp)
  have hlook := FileTree.look_of_file hr hs
  rw [getStatus, if_pos (FileTree.exists_of_look hlook), FileTree.readText, FileTree.bytes, hlook]
  simp only [bind, Except.bind, pure, Except.pure, Bytes.toString?_ofString, during, parseStatus_word]

/-! ## Writing -/

theorem root_put (s : DirectoryStore) (r : Refusals) (id : BlockId) (raw : Bytes) :
    (s.put r id raw).2.root = s.root := by
  unfold put
  split <;> rfl

theorem root_setStatus (s : DirectoryStore) (r : Refusals) (id : RootId) (goal : RootStatus) :
    (s.setStatus r id goal).2.root = s.root := by
  unfold setStatus
  split
  · rfl
  · split <;> rfl

/-- A draft's path is the longer one. -/
theorem not_pathTooLong_of_draft {dir : Path} (h : ¬ PathTooLong (dir ++ [draft id])) :
    ¬ PathTooLong (dir ++ [id.toHex]) := by
  rw [pathTooLong_iff] at h ⊢
  simp only [List.map_append, List.sum_append, List.length_append, List.map_cons, List.map_nil, List.sum_cons,
    List.sum_nil, List.length_singleton, utf8ByteSize_draft, id.utf8ByteSize_toHex] at h ⊢
  omega

/-- The file of `id` was written in the directory `folder`: it is seen there, with its directory, and its
draft is not; all else is as it was. -/
structure Wrote (tree after : FileTree) (folder : Place) (id : BlockId) (content : Bytes) : Prop where
  made : after.sight? folder = some .directory
  file : after.sight? (folder ++ [id.toHex]) = some (.file content)
  noDraft : after.sight? (folder ++ [draft id]) = none
  same : ∀ {place}, place ≠ folder → place ≠ folder ++ [id.toHex] → place ≠ folder ++ [draft id] →
    after.sight? place = tree.sight? place
  keeps : ∀ {place}, tree.sight? place = some .directory → after.sight? place = some .directory
  links : ∀ place target, after.sight? place = some (.link target) ↔ tree.sight? place = some (.link target)
  nodup : ∀ place, (tree.namesAt place).Nodup → (after.namesAt place).Nodup

/-- A change of what is seen at three places, one after the other, is such a write. -/
theorem Wrote.of_update {after : FileTree} {folder : Place} {content : Bytes}
    (hsight : after.sight? = update (update (update tree.sight? folder (some .directory))
      (folder ++ [draft id]) none) (folder ++ [id.toHex]) (some (.file content)))
    (hfolder : ∀ target, tree.sight? folder ≠ some (.link target)) (hdraft : Final (tree.sight? (folder ++ [draft id])))
    (hgoal : Final (tree.sight? (folder ++ [id.toHex])))
    (hnodup : ∀ place, (tree.namesAt place).Nodup → (after.namesAt place).Nodup) :
    Wrote tree after folder id content := by
  have hne : folder ++ [draft id] ≠ folder ++ [id.toHex] := by simp [draft_ne_toHex]
  have hsame : ∀ {place}, place ≠ folder → place ≠ folder ++ [id.toHex] →
      place ≠ folder ++ [draft id] → after.sight? place = tree.sight? place := by
    intro place hf hg hd
    rw [hsight, Function.update_of_ne hg, Function.update_of_ne hd, Function.update_of_ne hf]
  have hmade : after.sight? folder = some .directory := by simp [hsight]
  have hfile : after.sight? (folder ++ [id.toHex]) = some (.file content) := by simp [hsight]
  have hgone : after.sight? (folder ++ [draft id]) = none := by
    rw [hsight, Function.update_of_ne hne, Function.update_self]
  refine ⟨hmade, hfile, hgone, hsame, fun {place} hp => ?_, fun place target => ?_, hnodup⟩
  · by_cases hf : place = folder
    · rw [hf, hmade]
    · rw [hsame hf (fun hg => hgoal.1 (hg ▸ hp)) (fun hd => hdraft.1 (hd ▸ hp)), hp]
  · by_cases hf : place = folder
    · simp [hf, hmade, hfolder]
    by_cases hg : place = folder ++ [id.toHex]
    · simp [hg, hfile, hgoal.2]
    by_cases hd : place = folder ++ [draft id]
    · simp [hd, hgone, hdraft.2]
    · rw [hsame hf hg hd]

/-- Where nothing is in the way of a file, its draft and its directory, the file is written. -/
theorem writeWhole_ok {above : Path} {place : Place} {folder : String} (h : tree.Leads above place)
    (hf : Plain folder) (hl : ¬ PathTooLong (above ++ [folder] ++ [draft id]))
    (hfolder : tree.sight? (place ++ [folder]) = none ∨ tree.sight? (place ++ [folder]) = some .directory)
    (hdraft : tree.sight? (place ++ [folder] ++ [draft id]) = none)
    (hgoal : Final (tree.sight? (place ++ [folder] ++ [id.toHex]))) (content : Bytes) :
    ∃ after, writeWhole tree .none (above ++ [folder]) id.toHex content = (.ok (), after) ∧
      Wrote tree after (place ++ [folder]) id content := by
  have hnolink : ∀ target, tree.sight? (place ++ [folder]) ≠ some (.link target) := by
    rcases hfolder with hs | hs <;> simp [hs]
  have hdir : ¬ PathTooLong (above ++ [folder]) := fun hd => hl (hd.append _)
  obtain ⟨made, hmade, hmsets⟩ := FileTree.makeDirs_concat hdir h hf hfolder
  have hfold : made.sight? (place ++ [folder]) = some .directory := by simp [hmsets.sight]
  have hkept : ∀ name, made.sight? (place ++ [folder] ++ [name]) = tree.sight? (place ++ [folder] ++ [name]) := by
    intro name
    rw [hmsets.sight, Function.update_of_ne (by simp)]
  have hmlead : made.Leads (above ++ [folder]) (place ++ [folder]) := by
    refine FileTree.Leads.down (h.mono (fun other ho => ?_) (hmsets.link_iff hnolink (by simp)))
      (by simpa using hf) hfold
    by_cases he : other = place ++ [folder]
    · rw [he, hfold]
    · rwa [hmsets.sight, Function.update_of_ne he]
  -- The draft is made and filled.
  have hfree : FileTree.Free (made.sight? (place ++ [folder] ++ [draft id])) := .inl (by rw [hkept, hdraft])
  have hcreate := FileTree.create_of_leads hl hmlead (plain_draft id) hfree.final.2
  rw [if_neg hfree.final.1] at hcreate
  have hwsets := FileTree.sets_refill hfold hfree [] content
  have hwlead := hwsets.leads hfree.final (by simp) hmlead
  have hwgoal : ((made.fill (place ++ [folder] ++ [draft id]) []).fill (place ++ [folder] ++ [draft id])
      content).sight? (place ++ [folder] ++ [id.toHex]) ≠ some .directory := by
    rw [hwsets.sight, Function.update_of_ne (by simp [(draft_ne_toHex id id).symm]), hkept]
    exact hgoal.1
  -- It is moved to its place.
  obtain ⟨between, after, hrename, hbsets, hasets⟩ := FileTree.rename_ok hl (not_pathTooLong_of_draft hl) hwlead
    (plain_draft id) id.plain_toHex (hwsets.sight ▸ Function.update_self ..) hwgoal
  refine ⟨after, ?_, .of_update ?_ hnolink (by rw [hdraft]; simp [Final]) hgoal fun other ho =>
    hasets.nodup _ (hbsets.nodup _ (hwsets.nodup _ (hmsets.nodup _ ho)))⟩
  · rw [FileTree.makeDirs] at hmade
    rw [writeWhole, hmade]
    simp only [← draft.eq_1, hcreate, Refusals.none, Refusals.written, unlessRefused, hrename]
  · rw [hasets.sight, hbsets.sight, hwsets.sight, Function.update_idem, hmsets.sight]

end BlockDag.DirectoryStore
