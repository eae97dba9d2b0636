/-
The store in a directory keeps what the store in memory keeps. Opened in a directory with nothing in it and
touched by nobody else, it answers every call as the store in memory does, however often it is closed and
opened again; and it counts as many blocks. What is seen in the directory is at every moment what is in
the memory: each block and each status in its place, and nothing beside them.
-/
import BlockDag.Proofs.Layout
import BlockDag.Proofs.Memory

namespace BlockDag

namespace MemoryStore

variable {m : MemoryStore} {id other : BlockId}

theorem holds_iff_getElem? : m.Holds id ↔ m.blocks[id]? ≠ none := by
  rw [Holds, Std.ExtTreeMap.mem_iff_isSome_getElem?, Option.isSome_iff_ne_none]

theorem put_of_holds (h : m.Holds id) (raw : Bytes) : m.put id raw = m := by
  have hblocks : m.blocks.insertIfNew id raw = m.blocks := by
    refine Std.ExtTreeMap.ext_getElem? fun other => ?_
    rw [Std.ExtTreeMap.getElem?_insertIfNew, if_neg fun hn => hn.2 h]
  rw [put, hblocks]

theorem getElem?_put (h : ¬ m.Holds id) (raw : Bytes) :
    (m.put id raw).blocks[other]? = if other = id then some raw else m.blocks[other]? := by
  rw [put, Std.ExtTreeMap.getElem?_insertIfNew]
  simp only [Std.LawfulEqCmp.compare_eq_iff_eq, eq_comm (a := id)]
  exact if_congr (and_iff_left h) rfl rfl

@[simp] theorem blocks_setStatus (m : MemoryStore) (root : RootId) (goal : RootStatus) :
    (m.setStatus root goal).2.blocks = m.blocks := by
  unfold setStatus
  split <;> rfl

end MemoryStore

namespace DirectoryStore

/-- What is seen in the directory of `s`, at `home`, is what the store `m` in memory holds. -/
structure Mirrors (s : DirectoryStore) (m : MemoryStore) (home : Place) : Prop where
  root : s.tree.Leads (dropSlash s.root) home
  blocksFit : ¬ PathTooLong (blocksPath s.root)
  statusesFit : ¬ PathTooLong (statusesPath s.root)
  blocks : s.tree.sight? (home ++ ["blocks"]) = some .directory
  statuses : s.tree.sight? (home ++ ["status"]) = some .directory
  /-- Below `blocks` there are but the directories of the blocks. -/
  shards : ∀ {name}, s.tree.sight? (home ++ ["blocks", name]) ≠ none →
    s.tree.sight? (home ++ ["blocks", name]) = some .directory ∧ ∃ id, m.Holds id ∧ shard id = name
  /-- In these there are but the blocks. -/
  only : ∀ {folder name}, s.tree.sight? (home ++ ["blocks", folder, name]) ≠ none →
    ∃ id, m.Holds id ∧ shard id = folder ∧ id.toHex = name
  block : ∀ id, s.tree.sight? (blockPlace home id) = m.blocks[id]?.map .file
  blockFits : ∀ {id}, m.Holds id → ¬ PathTooLong (blockPath s.root id)
  status : ∀ id, s.tree.sight? (statusPlace home id) =
    (m.status id).map fun status => .file (Bytes.ofString status.word)
  statusFits : ∀ {id}, m.status id ≠ none → ¬ PathTooLong (statusPath s.root id)
  drafts : ∀ id, s.tree.sight? (home ++ ["status", draft id]) = none
  /-- Nothing is a link. -/
  noLink : ∀ names target, s.tree.sight? (home ++ names) ≠ some (.link target)
  nodup : ∀ place, (s.tree.namesAt (home ++ "blocks" :: place)).Nodup

namespace Mirrors

variable {s : DirectoryStore} {m : MemoryStore} {home : Place}

/-! ## Reading -/

theorem straight (h : Mirrors s m home) (names : List String) : s.tree.Straight home names :=
  fun front target _ => h.noLink front target

theorem holds_iff (h : Mirrors s m home) (id : BlockId) : s.Holds id ↔ m.Holds id := by
  rw [DirectoryStore.holds_iff h.root (h.straight _), h.block, ne_eq, Option.map_eq_none_iff,
    MemoryStore.holds_iff_getElem?]
  exact ⟨And.right, fun hm => ⟨h.blockFits (MemoryStore.holds_iff_getElem?.2 hm), hm⟩⟩

theorem view_eq (h : Mirrors s m home) (id : BlockId) : s.view id = m.view id := by
  rw [MemoryStore.view]
  cases hb : m.blocks[id]? with
  | none =>
    refine view_of_not_holds fun hs => ?_
    exact MemoryStore.holds_iff_getElem?.1 ((h.holds_iff id).1 hs) hb
  | some raw =>
    have hm : m.Holds id := MemoryStore.holds_iff_getElem?.2 (by simp [hb])
    exact view_of_file h.root (h.blockFits hm) (by rw [h.block, hb]; rfl)

theorem getStatus_eq (h : Mirrors s m home) (id : RootId) : s.getStatus id = .ok (m.status id) := by
  cases hs : m.status id with
  | none => exact getStatus_of_none h.root (h.straight _) (by rw [h.status, hs]; rfl)
  | some status => exact getStatus_of_word h.root (h.statusFits (by simp [hs])) (by rw [h.status, hs]; rfl)

/-! ## Counting -/

theorem leads_blocks (h : Mirrors s m home) : s.tree.Leads (blocksPath s.root) (home ++ ["blocks"]) :=
  h.root.down (by simp [plain_blocks]) h.blocks

theorem names_blocks (h : Mirrors s m home) :
    s.tree.names (blocksPath s.root) = s.tree.namesAt (home ++ ["blocks"]) :=
  FileTree.names_of_leads h.blocksFit h.root plain_blocks h.blocks

/-- The directories below `blocks` are those of the blocks in memory. -/
theorem mem_names_blocks (h : Mirrors s m home) (name : String) :
    name ∈ s.tree.namesAt (home ++ ["blocks"]) ↔ ∃ id, m.Holds id ∧ shard id = name := by
  rw [FileTree.namesAt, Entries.mem_namesAt, List.append_assoc]
  refine ⟨fun hs => (h.shards hs).2, ?_⟩
  rintro ⟨id, hm, rfl⟩
  have hs := ((DirectoryStore.holds_iff h.root (h.straight _)).1 ((h.holds_iff id).2 hm)).2
  rw [blockPlace, List.append_cons, List.append_cons, List.append_assoc home] at hs
  exact Option.ne_none_iff_exists'.2 ⟨_, Entries.sight?_of_below hs (by simp)⟩

theorem mem_names_shard (h : Mirrors s m home) (folder name : String) :
    name ∈ s.tree.namesAt (home ++ ["blocks", folder]) ↔
      ∃ id, m.Holds id ∧ shard id = folder ∧ id.toHex = name := by
  rw [FileTree.namesAt, Entries.mem_namesAt, List.append_assoc]
  refine ⟨h.only, ?_⟩
  rintro ⟨id, hm, rfl, rfl⟩
  exact ((DirectoryStore.holds_iff h.root (h.straight _)).1 ((h.holds_iff id).2 hm)).2

theorem names_shard (h : Mirrors s m home) {name : String} (hn : name ∈ s.tree.namesAt (home ++ ["blocks"])) :
    s.tree.names (blocksPath s.root ++ [name]) = s.tree.namesAt (home ++ ["blocks", name]) := by
  rw [FileTree.namesAt, Entries.mem_namesAt, List.append_assoc] at hn
  obtain ⟨hd, id, hm, rfl⟩ := h.shards hn
  have hfit : ¬ PathTooLong (blocksPath s.root ++ [shard id]) := fun hl =>
    h.blockFits hm (by simpa [blockPath, blocksPath, under] using hl.append [id.toHex])
  simpa using FileTree.names_of_leads hfit h.leads_blocks (plain_shard id) (by simpa using hd)

/-- The entries below `blocks` are the names of the blocks in memory, each of them once. -/
theorem names_perm (h : Mirrors s m home) : ((s.tree.namesAt (home ++ ["blocks"])).flatMap fun name =>
    s.tree.namesAt (home ++ ["blocks", name])).Perm (m.blocks.keys.map BlockId.toHex) := by
  refine (List.perm_ext_iff_of_nodup ?_ ?_).2 fun name => ?_
  · -- An id lies in one directory only, so no two of them have a name in common.
    refine List.nodup_flatMap.2 ⟨fun name _ => h.nodup [name], (h.nodup []).imp fun hne name hn hn' => ?_⟩
    obtain ⟨id, -, rfl, rfl⟩ := (h.mem_names_shard _ _).1 hn
    obtain ⟨other, -, rfl, he⟩ := (h.mem_names_shard _ _).1 hn'
    exact hne (by rw [BlockId.toHex_injective he])
  · exact Std.ExtTreeMap.nodup_keys.map fun _ _ => BlockId.toHex_injective
  · simp only [List.mem_flatMap, List.mem_map, Std.ExtTreeMap.mem_keys, h.mem_names_blocks, h.mem_names_shard]
    constructor
    · rintro ⟨_, -, id, hm, -, rfl⟩
      exact ⟨id, hm, rfl⟩
    · rintro ⟨id, hm, rfl⟩
      exact ⟨shard id, ⟨id, hm, rfl⟩, id, hm, rfl, rfl⟩

theorem count_eq (h : Mirrors s m home) : s.count = m.size := by
  rw [count, h.names_blocks, List.flatMap_congr fun name hn => h.names_shard hn, h.names_perm.length_eq,
    List.length_map, Std.ExtTreeMap.length_keys, MemoryStore.size]

/-! ## Writing -/

theorem block_eq_none (h : Mirrors s m home) {id : BlockId} (hm : ¬ m.Holds id) :
    s.tree.sight? (blockPlace home id) = none := by
  rw [MemoryStore.holds_iff_getElem?, not_not] at hm
  rw [h.block, hm]
  rfl

theorem block_draft (h : Mirrors s m home) (id : BlockId) (folder : String) :
    s.tree.sight? (home ++ ["blocks", folder, draft id]) = none := by
  by_contra hs
  obtain ⟨other, -, -, he⟩ := h.only hs
  exact draft_ne_toHex id other he.symm

theorem put_of_held (h : Mirrors s m home) {id : BlockId} (hm : m.Holds id) (raw : Bytes) :
    s.put .none id raw = (.ok (), s) := if_pos ((h.holds_iff id).2 hm)

/-- Nothing is in the way of a new block, its draft and its directory. -/
theorem writeWhole_block (h : Mirrors s m home) {id : BlockId} (hm : ¬ m.Holds id) (raw : Bytes)
    (hfit : ¬ PathTooLong (blocksPath s.root ++ [shard id] ++ [draft id])) :
    ∃ after, writeWhole s.tree .none (blocksPath s.root ++ [shard id]) id.toHex raw = (.ok (), after) ∧
      Wrote s.tree after (home ++ ["blocks", shard id]) id raw := by
  have hshard : s.tree.sight? (home ++ ["blocks", shard id]) = none ∨
      s.tree.sight? (home ++ ["blocks", shard id]) = some .directory :=
    or_iff_not_imp_left.2 fun hs => (h.shards hs).1
  have hgoal : s.tree.sight? (home ++ ["blocks", shard id, id.toHex]) = none := h.block_eq_none hm
  obtain ⟨after, hwrite, hw⟩ := writeWhole_ok h.leads_blocks (plain_shard id) hfit
    (by simpa using hshard) (by simpa using h.block_draft id _) (by simp [hgoal, Final]) raw
  simp only [List.append_assoc, List.cons_append, List.nil_append] at hw
  exact ⟨after, hwrite, hw⟩

/-- A new block that was written shows in its place, in a directory that may be new. -/
theorem mirrors_put (h : Mirrors s m home) {id : BlockId} {raw : Bytes} {after : FileTree} (hm : ¬ m.Holds id)
    (hw : Wrote s.tree after (home ++ ["blocks", shard id]) id raw) (hfit : ¬ PathTooLong (blockPath s.root id)) :
    Mirrors { s with tree := after } (m.put id raw) home := by
  have hsame : ∀ {place}, place ≠ home ++ ["blocks", shard id] → place ≠ blockPlace home id →
      after.sight? place = s.tree.sight? place := by
    intro place hp hb
    by_cases hd : place = home ++ ["blocks", shard id, draft id]
    · rw [hd, h.block_draft]
      simpa using hw.noDraft
    · exact hw.same hp (by simpa [blockPlace] using hb) (by simpa using hd)
  exact {
    root := h.root.mono (fun _ => hw.keeps) hw.links
    blocksFit := h.blocksFit
    statusesFit := h.statusesFit
    blocks := hw.keeps h.blocks
    statuses := hw.keeps h.statuses
    shards := by
      intro name hs
      by_cases hn : name = shard id
      · subst hn
        exact ⟨hw.made, id, MemoryStore.holds_put_iff.2 (.inr rfl), rfl⟩
      · change after.sight? _ ≠ none at hs
        have hk : after.sight? (home ++ ["blocks", name]) = s.tree.sight? (home ++ ["blocks", name]) :=
          hsame (by simpa using hn) (by simp [blockPlace])
        rw [hk] at hs
        obtain ⟨hd, other, ho, rfl⟩ := h.shards hs
        exact ⟨hk.trans hd, other, MemoryStore.holds_put_iff.2 (.inl ho), rfl⟩
    only := by
      intro folder name hs
      by_cases hb : home ++ ["blocks", folder, name] = blockPlace home id
      · simp only [blockPlace, List.append_cancel_left_eq, List.cons.injEq, true_and, and_true] at hb
        exact ⟨id, MemoryStore.holds_put_iff.2 (.inr rfl), hb.1.symm, hb.2.symm⟩
      · change after.sight? _ ≠ none at hs
        rw [hsame (by simp) hb] at hs
        obtain ⟨other, ho, hfolder, hname⟩ := h.only hs
        exact ⟨other, MemoryStore.holds_put_iff.2 (.inl ho), hfolder, hname⟩
    block := by
      intro other
      rw [MemoryStore.getElem?_put hm]
      split
      · next he =>
        rw [he]
        simpa [blockPlace] using hw.file
      · next he => exact (hsame (by simp [blockPlace]) (by simpa [blockPlace_inj] using he)).trans (h.block other)
    blockFits := by
      intro other ho
      rcases MemoryStore.holds_put_iff.1 ho with ho | rfl
      · exact h.blockFits ho
      · exact hfit
    status := fun other => (hsame (by simp [statusPlace]) (by simp [statusPlace, blockPlace])).trans (h.status other)
    statusFits := h.statusFits
    drafts := fun other => (hsame (by simp) (by simp [blockPlace])).trans (h.drafts other)
    noLink := fun names target hs => h.noLink names target ((hw.links _ _).1 hs)
    nodup := fun place => hw.nodup _ (h.nodup place) }

theorem put_of_new (h : Mirrors s m home) {id : BlockId} (hm : ¬ m.Holds id) (raw : Bytes)
    (hfit : ¬ PathTooLong (blocksPath s.root ++ [shard id] ++ [draft id])) :
    ∃ s', s.put .none id raw = (.ok (), s') ∧ Mirrors s' (m.put id raw) home := by
  obtain ⟨after, hwrite, hw⟩ := h.writeWhole_block hm raw hfit
  refine ⟨{ s with tree := after }, ?_, h.mirrors_put hm hw ?_⟩
  · rw [put, if_neg fun hs => hm ((h.holds_iff id).1 hs), hwrite]
  · simpa [blockPath, blocksPath, under] using not_pathTooLong_of_draft hfit

theorem setStatus_refused (h : Mirrors s m home) {id : RootId} {goal : RootStatus}
    (hc : ¬ RootStatus.CanMove (m.status id) goal) :
    s.setStatus .none id goal = (.error (.statusConflict id (m.status id) goal), s) ∧
      m.setStatus id goal = (.error (.statusConflict id (m.status id) goal), m) := by
  refine ⟨?_, if_neg hc⟩
  rw [setStatus, h.getStatus_eq]
  exact if_neg hc

/-- Nothing is in the way of a status. -/
theorem writeWhole_status (h : Mirrors s m home) (id : RootId) (content : Bytes)
    (hfit : ¬ PathTooLong (statusesPath s.root ++ [draft id])) :
    ∃ after, writeWhole s.tree .none (statusesPath s.root) id.toHex content = (.ok (), after) ∧
      Wrote s.tree after (home ++ ["status"]) id content := by
  have hgoal : Final (s.tree.sight? (home ++ ["status", id.toHex])) := by
    rw [← statusPlace, h.status]
    cases m.status id <;> simp [Final]
  exact writeWhole_ok h.root plain_status hfit (.inr h.statuses) (by simp [h.drafts]) (by simpa using hgoal) content

/-- A status that was written shows in its place. -/
theorem mirrors_setStatus (h : Mirrors s m home) {id : RootId} {goal : RootStatus} {after : FileTree}
    (hc : RootStatus.CanMove (m.status id) goal)
    (hw : Wrote s.tree after (home ++ ["status"]) id (Bytes.ofString goal.word))
    (hfit : ¬ PathTooLong (statusPath s.root id)) :
    Mirrors { s with tree := after } (m.setStatus id goal).2 home := by
  have hsame : ∀ {place}, place ≠ statusPlace home id → after.sight? place = s.tree.sight? place := by
    intro place hp
    by_cases hf : place = home ++ ["status"]
    · rw [hf, hw.made, h.statuses]
    by_cases hd : place = home ++ ["status"] ++ [draft id]
    · rw [hd, hw.noDraft]
      simp [h.drafts]
    · exact hw.same hf (by simpa [statusPlace] using hp) hd
  have hholds : ∀ other, (m.setStatus id goal).2.Holds other ↔ m.Holds other := fun _ => MemoryStore.holds_setStatus
  exact {
    root := h.root.mono (fun _ => hw.keeps) hw.links
    blocksFit := h.blocksFit
    statusesFit := h.statusesFit
    blocks := hw.keeps h.blocks
    statuses := hw.keeps h.statuses
    shards := by
      intro name hs
      have hk : after.sight? (home ++ ["blocks", name]) = s.tree.sight? (home ++ ["blocks", name]) :=
        hsame (by simp [statusPlace])
      simp only [hholds]
      rw [hk] at hs ⊢
      exact h.shards hs
    only := by
      intro folder name hs
      have hk : after.sight? (home ++ ["blocks", folder, name]) = s.tree.sight? (home ++ ["blocks", folder, name]) :=
        hsame (by simp [statusPlace])
      simp only [hholds]
      rw [hk] at hs
      exact h.only hs
    block := fun other => by
      rw [MemoryStore.blocks_setStatus, ← h.block]
      exact hsame (by simp [blockPlace, statusPlace])
    blockFits := fun ho => h.blockFits ((hholds _).1 ho)
    status := by
      intro other
      rw [MemoryStore.status_setStatus]
      split
      · next he =>
        rw [← he.1]
        simpa [statusPlace] using hw.file
      · next he => exact (hsame (by simpa [statusPlace_inj, hc, eq_comm] using he)).trans (h.status other)
    statusFits := by
      intro other ho
      rw [MemoryStore.status_setStatus] at ho
      split at ho
      · next he => exact he.1 ▸ hfit
      · exact h.statusFits ho
    drafts := fun other => (hsame (by simp [statusPlace, draft_ne_toHex])).trans (h.drafts other)
    noLink := fun names target hs => h.noLink names target ((hw.links _ _).1 hs)
    nodup := fun place => hw.nodup _ (h.nodup place) }

theorem setStatus_moved (h : Mirrors s m home) {id : RootId} {goal : RootStatus}
    (hc : RootStatus.CanMove (m.status id) goal) (hfit : ¬ PathTooLong (statusesPath s.root ++ [draft id])) :
    ∃ s', s.setStatus .none id goal = (.ok (), s') ∧ Mirrors s' (m.setStatus id goal).2 home := by
  obtain ⟨after, hwrite, hw⟩ := h.writeWhole_status id (Bytes.ofString goal.word) hfit
  refine ⟨{ s with tree := after }, ?_, h.mirrors_setStatus hc hw ?_⟩
  · rw [setStatus, h.getStatus_eq]
    simp only [if_pos hc, hwrite]
  · simpa [statusPath, statusesPath, under] using not_pathTooLong_of_draft hfit

/-! ## Opening again -/

/-- Opened again, the store is what it was. -/
theorem reopen (h : Mirrors s m home) : openAt s.tree s.root = (.ok (), s) := by
  have hblocks : s.tree.makeDirs (blocksPath s.root) = (.ok (), s.tree) := FileTree.makeDirs_of_ensureDir
    (FileTree.ensureDir_of_directory h.blocksFit h.root plain_blocks h.blocks)
    (FileTree.parent?_concat_ne_none _ plain_blocks)
  have hstatuses : s.tree.makeDirs (statusesPath s.root) = (.ok (), s.tree) := FileTree.makeDirs_of_ensureDir
    (FileTree.ensureDir_of_directory h.statusesFit h.root plain_status h.statuses)
    (FileTree.parent?_concat_ne_none _ plain_status)
  rw [openAt, hblocks]
  simp only [hstatuses]
  rfl

end Mirrors

end DirectoryStore

end BlockDag
