/-
A store in a directory can take the place of the store in memory. Whatever is called on it from its first
opening on, and wherever it is closed and opened again between, the answers are those of one store in
memory, and so is the count after each call.
-/
import BlockDag.Proofs.Mirror

namespace BlockDag

/-! ## Calls -/

/-- What can be asked of a store. -/
inductive StoreRequest where
  | put (id : BlockId) (raw : Bytes)
  | view (id : BlockId)
  | setStatus (root : RootId) (goal : RootStatus)
  | getStatus (root : RootId)
  /-- The store is closed, and opened again where it was. -/
  | reopen

/-- What a store answers. -/
inductive StoreAnswer where
  | done (outcome : Except StoreError Unit)
  | block (outcome : Except StoreError Bytes)
  | status (outcome : Except StoreError (Option RootStatus))

namespace StoreRequest

variable {σ : Type}

/-- The answer to a call that changes the store. -/
def done (result : Except StoreError Unit × σ) : StoreAnswer × σ := (.done result.1, result.2)

/-- One call, with what the store has then. -/
def answer (S : CountedStore σ) (reopen : σ → Except StoreError Unit × σ) :
    StoreRequest → σ → StoreAnswer × σ
  | put id raw, s => done (S.put s id raw)
  | view id, s => (.block (S.view s id), s)
  | setStatus root goal, s => done (S.setStatus s root goal)
  | getStatus root, s => (.status (S.getStatus s root), s)
  | .reopen, s => done (reopen s)

/-- The answers to calls one after the other, each with the count of the store then. -/
def answers (S : CountedStore σ) (reopen : σ → Except StoreError Unit × σ) :
    List StoreRequest → σ → List (StoreAnswer × Nat)
  | [], _ => []
  | call :: calls, s =>
    let (given, s) := call.answer S reopen s
    (given, S.size s) :: answers S reopen calls s

end StoreRequest

namespace DirectoryStore

variable {tree : FileTree} {root : Path} {s : DirectoryStore} {m : MemoryStore} {home : Place}

/-- No path that the call writes to is too long. -/
def Fits (root : Path) : StoreRequest → Prop
  | .put id _ => ¬ PathTooLong (blocksPath root ++ [shard id] ++ [draft id])
  | .setStatus id _ => ¬ PathTooLong (statusesPath root ++ [draft id])
  | _ => True

/-- No path is too long in a store whose own path leaves some room. -/
theorem fits_of_short (h : root.length + (root.map String.utf8ByteSize).sum ≤ 4000) (request : StoreRequest) :
    Fits root request := by
  obtain ⟨rest, hr⟩ := dropSlash_isPrefix root
  have hroot : (dropSlash root).length + ((dropSlash root).map String.utf8ByteSize).sum ≤ 4000 := by
    rw [← hr] at h
    simp only [List.map_append, List.sum_append, List.length_append] at h
    omega
  have hshard : ∀ id, (shard id).utf8ByteSize ≤ 2 := fun id => by
    rw [shard, Bytes.utf8ByteSize_hex, List.length_take]
    omega
  have hblocks : "blocks".utf8ByteSize = 6 := rfl
  have hstatus : "status".utf8ByteSize = 6 := rfl
  cases request with
  | put id raw =>
    have := hshard id
    simp only [Fits, pathTooLong_iff, blocksPath, under, List.map_append, List.sum_append, List.length_append,
      List.map_cons, List.map_nil, List.sum_singleton, List.length_singleton, utf8ByteSize_draft, hblocks]
    omega
  | setStatus id goal =>
    simp only [Fits, pathTooLong_iff, statusesPath, under, List.map_append, List.sum_append, List.length_append,
      List.map_cons, List.map_nil, List.sum_singleton, List.length_singleton, utf8ByteSize_draft, hstatus]
    omega
  | view => trivial
  | getStatus => trivial
  | reopen => trivial

/-- What a call does to a store in a directory that mirrors one in memory. -/
theorem Mirrors.answer (h : Mirrors s m home) {request : StoreRequest} (hf : Fits s.root request) :
    ∃ given s' m', request.answer counted (fun s => openAt s.tree s.root) s = (given, s') ∧
      request.answer MemoryStore.counted (fun m => (.ok (), m)) m = (given, m') ∧
      s'.root = s.root ∧ Mirrors s' m' home := by
  cases request with
  | put id raw =>
    by_cases hm : m.Holds id
    · exact ⟨_, _, m, congrArg StoreRequest.done (h.put_of_held hm raw),
        congrArg (fun m => (StoreAnswer.done (.ok ()), m)) (MemoryStore.put_of_holds hm raw), rfl, h⟩
    · obtain ⟨s', hs, hmirrors⟩ := h.put_of_new hm raw hf
      exact ⟨_, _, _, congrArg StoreRequest.done hs, rfl, by simpa [hs] using s.root_put .none id raw, hmirrors⟩
  | view id =>
    exact ⟨_, _, _, rfl, congrArg (fun outcome => (StoreAnswer.block outcome, m)) (h.view_eq id).symm, rfl, h⟩
  | setStatus id goal =>
    by_cases hc : RootStatus.CanMove (m.status id) goal
    · obtain ⟨s', hs, hmirrors⟩ := h.setStatus_moved hc hf
      refine ⟨_, _, _, congrArg StoreRequest.done hs, ?_, by simpa [hs] using s.root_setStatus .none id goal, hmirrors⟩
      exact congrArg (fun outcome => (StoreAnswer.done outcome, _)) (MemoryStore.setStatus_eq_ok_iff.2 hc)
    · obtain ⟨hs, hm⟩ := h.setStatus_refused hc
      exact ⟨_, _, _, congrArg StoreRequest.done hs, congrArg StoreRequest.done hm, rfl, h⟩
  | getStatus id =>
    exact ⟨_, _, _, rfl, congrArg (fun outcome => (StoreAnswer.status outcome, m)) (h.getStatus_eq id).symm, rfl, h⟩
  | reopen => exact ⟨_, _, _, congrArg StoreRequest.done h.reopen, rfl, rfl, h⟩

/-! ## Opening -/

/-- The directory is empty; or it is not there, for want of some name on its path, and no name after that leads
up again. -/
def Vacant (tree : FileTree) (root : Path) : Prop :=
  tree.look root = .ok (.directory []) ∨
    ∃ front name rest place, dropSlash root = front ++ name :: rest ∧ tree.Leads front place ∧
      name ∉ [".", ".."] ∧ tree.sight? (place ++ [name]) = none ∧ ".." ∉ rest

/-- In the store's directory there is `blocks`, and nothing else. -/
structure Begun (tree : FileTree) (root : Path) (home : Place) : Prop where
  leads : tree.Leads (dropSlash root) home
  fits : ¬ PathTooLong (blocksPath root)
  blocks : tree.sight? (home ++ ["blocks"]) = some .directory
  only : ∀ place, place ≠ [] → place ≠ ["blocks"] → tree.sight? (home ++ place) = none

theorem begun_of_empty (hlook : tree.look root = .ok (.directory [])) {made : FileTree}
    (hmade : tree.makeDirs (blocksPath root) = (.ok (), made)) : ∃ home, Begun made root home := by
  obtain ⟨home, hlead, hn⟩ := FileTree.leads_of_look hlook
  have hbelow : ∀ place, place ≠ [] → tree.sight? (home ++ place) = none := by
    intro place hp
    obtain ⟨name, place, rfl⟩ := List.exists_cons_of_ne_nil hp
    rw [FileTree.sight?, Entries.sight?, Entries.at?_append hn]
    rfl
  have hp : parent? (blocksPath root) ≠ none := FileTree.parent?_concat_ne_none _ plain_blocks
  obtain ⟨between, he⟩ := FileTree.ensureDir_of_makeDirs hmade hp
  obtain ⟨hl, -⟩ := FileTree.ensureDir_concat_ok plain_blocks he
  obtain ⟨made', he', hsets⟩ := FileTree.ensureDir_of_none hl hlead plain_blocks (hbelow _ (by simp))
  obtain rfl : made' = made := by
    have := (FileTree.makeDirs_of_ensureDir he' hp).symm.trans hmade
    simpa using this
  refine ⟨home, (hsets.grows (hbelow _ (by simp))).leads hlead, hl, by simp [hsets.sight], fun place hp hb => ?_⟩
  rw [hsets.sight, Function.update_of_ne (by simpa using hb), hbelow _ hp]

theorem begun_of_none {front rest : List String} {name : String} {place : Place}
    (hroot : dropSlash root = front ++ name :: rest) (hfront : tree.Leads front place) (hname : name ∉ [".", ".."])
    (hnone : tree.sight? (place ++ [name]) = none) (hu : ".." ∉ rest) {made : FileTree}
    (hmade : tree.makeDirs (blocksPath root) = (.ok (), made)) : ∃ home, Begun made root home := by
  obtain ⟨hhere, habove⟩ : name ≠ "." ∧ name ≠ ".." := by simpa using hname
  have hpath : blocksPath root = front ++ (name :: rest ++ ["blocks"]) := by
    rw [blocksPath, under, hroot, List.append_assoc]
  have hslash : ¬ EndsInSlash (front ++ (name :: rest ++ ["blocks"])) :=
    hpath ▸ not_endsInSlash_concat _ plain_blocks.ne_empty
  have hup : ".." ∉ name :: rest ++ ["blocks"] := by simp [hu, habove.symm]
  -- Nothing is seen on the way down from where the name is wanting.
  have hbelow : ∀ below, tree.sight? (place ++ name :: below) = none := fun below => by
    rw [List.append_cons]
    rcases List.eq_nil_or_concat below with rfl | ⟨_, _, rfl⟩
    · rwa [List.append_nil]
    · exact Entries.sight?_below_eq_none (by rw [← FileTree.sight?, hnone]; simp) (by simp)
  have hstraight : tree.Straight place (downward (name :: rest ++ ["blocks"])) := by
    rintro (_ | ⟨first, below⟩) target hf hs
    · rw [List.append_nil, hfront.sight?_eq] at hs
      simp at hs
    · rw [List.cons_append, downward_cons hhere, List.cons_prefix_cons] at hf
      rw [hf.1, hbelow] at hs
      simp at hs
  have hgrows := FileTree.makeDirs_grows (r := .none) hfront hup hstraight hslash
  rw [← hpath, ← FileTree.makeDirs, hmade] at hgrows
  have hafter := hgrows.leads hfront
  have hastraight := hgrows.straight hstraight
  obtain ⟨between, he⟩ := FileTree.ensureDir_of_makeDirs hmade (FileTree.parent?_concat_ne_none _ plain_blocks)
  obtain ⟨hl, blocks, hblocks⟩ := FileTree.ensureDir_concat_ok plain_blocks he
  obtain ⟨home, hhome⟩ := hblocks.of_isPrefix (List.prefix_append ..)
  have hdown : downward (name :: rest ++ ["blocks"]) = downward (name :: rest) ++ ["blocks"] := downward_append ..
  obtain rfl : home = place ++ downward (name :: rest) := hafter.append_ok (fun hm => hup (by simp_all))
    (fun front target hf => hastraight front target (hf.trans (hdown ▸ List.prefix_append ..))) (hroot ▸ hhome)
  obtain rfl : blocks = place ++ downward (name :: rest ++ ["blocks"]) := hafter.append_ok hup hastraight
    (by rw [hroot, List.append_assoc] at hblocks; exact hblocks)
  refine ⟨_, hhome, hl, by rw [List.append_assoc, ← hdown]; exact hblocks.sight?_eq, fun below hp hb => ?_⟩
  rcases hgrows.sight (place ++ downward (name :: rest) ++ below) with hs | ⟨-, -, hprefix⟩
  · rw [hs, downward_cons hhere, List.append_assoc]
    exact hbelow _
  · rw [hdown, ← List.append_assoc, List.prefix_append_right_inj] at hprefix
    rcases List.prefix_cons_iff.1 hprefix with h | ⟨more, h, hmore⟩
    · exact absurd h hp
    · exact absurd (h.trans (by rw [List.prefix_nil.1 hmore])) hb

theorem begun_of_vacant (hv : Vacant tree root) {made : FileTree}
    (hmade : tree.makeDirs (blocksPath root) = (.ok (), made)) : ∃ home, Begun made root home := by
  rcases hv with hlook | ⟨front, name, rest, place, hroot, hfront, hname, hnone, hu⟩
  · exact begun_of_empty hlook hmade
  · exact begun_of_none hroot hfront hname hnone hu hmade

theorem Begun.mirrors {begun : FileTree} (h : Begun begun root home) {tree : FileTree}
    (hmade : begun.makeDirs (statusesPath root) = (.ok (), tree)) : Mirrors ⟨tree, root⟩ .empty home := by
  have hnone : begun.sight? (home ++ ["status"]) = none := h.only _ (by simp) (by simp)
  have hp : parent? (statusesPath root) ≠ none := FileTree.parent?_concat_ne_none _ plain_status
  obtain ⟨between, he⟩ := FileTree.ensureDir_of_makeDirs hmade hp
  obtain ⟨hl, -⟩ := FileTree.ensureDir_concat_ok plain_status he
  obtain ⟨made, he', hsets⟩ := FileTree.ensureDir_of_none hl h.leads plain_status hnone
  obtain rfl : made = tree := by simpa using (FileTree.makeDirs_of_ensureDir he' hp).symm.trans hmade
  have hsame : ∀ place, place ≠ ["status"] → made.sight? (home ++ place) = begun.sight? (home ++ place) := by
    intro place hplace
    rw [hsets.sight, Function.update_of_ne (by simpa using hplace)]
  have hbelow : ∀ place, place ≠ [] → place ≠ ["blocks"] → place ≠ ["status"] →
      made.sight? (home ++ place) = none :=
    fun place hp hb hs => (hsame place hs).trans (h.only place hp hb)
  exact {
    root := (hsets.grows hnone).leads h.leads
    blocksFit := h.fits
    statusesFit := hl
    blocks := (hsame _ (by simp)).trans h.blocks
    statuses := by simp [hsets.sight]
    shards := fun hs => absurd (hbelow _ (by simp) (by simp) (by simp)) hs
    only := fun hs => absurd (hbelow _ (by simp) (by simp) (by simp)) hs
    block := fun id => (hbelow _ (by simp) (by simp) (by simp)).trans (by simp [MemoryStore.empty])
    blockFits := fun hm => by simp [MemoryStore.Holds, MemoryStore.empty] at hm
    status := fun id => hbelow _ (by simp) (by simp) (by simp)
    statusFits := fun hs => absurd (MemoryStore.status_empty _) hs
    drafts := fun id => hbelow _ (by simp) (by simp) (by simp)
    noLink := by
      intro names target hs
      by_cases hp : names = []
      · rw [hp, List.append_nil, ((hsets.grows hnone).leads h.leads).sight?_eq] at hs
        simp at hs
      by_cases hb : names = ["blocks"]
      · rw [hb, (hsame _ (by simp)).trans h.blocks] at hs
        simp at hs
      by_cases hst : names = ["status"]
      · simp [hst, hsets.sight] at hs
      · simp [hbelow names hp hb hst] at hs
    nodup := by
      intro place
      have hempty : made.namesAt (home ++ "blocks" :: place) = [] := by
        refine List.eq_nil_iff_forall_not_mem.2 fun name hname => ?_
        rw [FileTree.namesAt, Entries.mem_namesAt, List.append_assoc] at hname
        exact hname (hbelow _ (by simp) (by simp) (by simp))
      rw [hempty]
      exact List.nodup_nil }

/-- Opening makes the two directories, one after the other. -/
theorem openAt_ok (h : openAt tree root = (.ok (), s)) : ∃ made, s.root = root ∧
    tree.makeDirs (blocksPath root) = (.ok (), made) ∧ made.makeDirs (statusesPath root) = (.ok (), s.tree) := by
  rw [openAt] at h
  split at h
  · simp [during] at h
  · next made hmade =>
    cases hstatus : made.makeDirs (statusesPath root) with
    | mk outcome last =>
      cases outcome with
      | error e => simp [hstatus, during] at h
      | ok =>
        simp only [hstatus, during, Prod.mk.injEq, true_and] at h
        subst h
        exact ⟨made, rfl, hmade, hstatus⟩

/-- Opened where nothing is, a store in a directory mirrors the empty store in memory. -/
theorem mirrors_of_openAt (hv : Vacant tree root) (ho : openAt tree root = (.ok (), s)) :
    s.root = root ∧ ∃ home, Mirrors s .empty home := by
  obtain ⟨made, rfl, hmade, hstatus⟩ := openAt_ok ho
  obtain ⟨home, hbegun⟩ := begun_of_vacant hv hmade
  exact ⟨rfl, home, hbegun.mirrors hstatus⟩

/-! ## Runs -/

theorem Mirrors.answers_eq {requests : List StoreRequest} (h : Mirrors s m home)
    (hf : ∀ request ∈ requests, Fits s.root request) :
    StoreRequest.answers counted (fun s => openAt s.tree s.root) requests s =
      StoreRequest.answers MemoryStore.counted (fun m => (.ok (), m)) requests m := by
  induction requests generalizing s m with
  | nil => rfl
  | cons request requests ih =>
    obtain ⟨given, s', m', hs, hm, hroot, h'⟩ := h.answer (hf request (by simp))
    rw [StoreRequest.answers, StoreRequest.answers, hs, hm]
    simp only [List.cons.injEq, Prod.mk.injEq, true_and]
    exact ⟨h'.count_eq, ih h' fun request hr => hroot ▸ hf request (by simp [hr])⟩

/-- A store opened in a directory where nothing is answers whatever is asked of it as one store in memory
does, however often it is closed and opened again, and has the same count at the start and after each
answer. The calls on the file tree go through: the store was opened, and what it writes to has no path that
is too long. -/
theorem openAt_refines_memory (hv : Vacant tree root) (ho : openAt tree root = (.ok (), s))
    (requests : List StoreRequest) (hf : ∀ request ∈ requests, Fits root request) :
    s.count = MemoryStore.empty.size ∧
      StoreRequest.answers counted (fun s => openAt s.tree s.root) requests s =
        StoreRequest.answers MemoryStore.counted (fun m => (.ok (), m)) requests .empty := by
  obtain ⟨rfl, home, h⟩ := mirrors_of_openAt hv ho
  exact ⟨h.count_eq, h.answers_eq hf⟩

/-- The tree with the root of all paths and the directory `s`. -/
def treeOf (entries : Entries) : FileTree := ⟨[("", .directory []), ("s", .directory entries)], []⟩

/-- An id like any other. -/
def sampleId : BlockId := ⟨List.replicate 32 7, rfl⟩

/-- Blocks and statuses that are written twice, with an opening in between. -/
def sampleRequests : List StoreRequest :=
  [.view sampleId, .put sampleId [], .put sampleId [1], .setStatus sampleId .full, .setStatus sampleId .part, .reopen,
    .view sampleId, .getStatus sampleId, .setStatus sampleId .full, .setStatus sampleId .part]

theorem openAt_refines_memory_begun : ∃ s, openAt .empty ["s"] = (.ok (), s) ∧
    s.count = MemoryStore.empty.size ∧
      StoreRequest.answers counted (fun s => openAt s.tree s.root) sampleRequests s =
        StoreRequest.answers MemoryStore.counted (fun m => (.ok (), m)) sampleRequests .empty := by
  have hroot : FileTree.empty.makeDirs ["s"] = (.ok (), treeOf []) := FileTree.makeDirs_of_ensureDir rfl (by decide)
  have hblocks : FileTree.empty.makeDirs (blocksPath ["s"]) = (.ok (), treeOf [("blocks", .directory [])]) :=
    FileTree.makeDirs_of_notFound rfl rfl hroot rfl
  have hstatus : (treeOf [("blocks", .directory [])]).makeDirs (statusesPath ["s"]) =
      (.ok (), treeOf [("blocks", .directory []), ("status", .directory [])]) :=
    FileTree.makeDirs_of_ensureDir rfl (by decide)
  have hopen : openAt .empty ["s"] =
      (.ok (), ⟨treeOf [("blocks", .directory []), ("status", .directory [])], ["s"]⟩) := by
    rw [openAt, hblocks]
    simp only [hstatus]
    rfl
  refine ⟨_, hopen, openAt_refines_memory ?_ hopen sampleRequests fun request _ => fits_of_short (by decide) request⟩
  exact .inr ⟨[], "s", [], [], rfl, rfl, by decide, by decide, by decide⟩

/-- A path that leads down to the place of a block, and up again. -/
def upwardRoot : Path := ["s", "blocks", shard sampleId, sampleId.toHex, "..", "..", "..", "..", "s"]

/-- The tree once the directories on that path were made, with what else there is beside the blocks. -/
def upwardTree (beside : Entries) : FileTree :=
  treeOf (("blocks", .directory [(shard sampleId, .directory [(sampleId.toHex, .directory [])])]) :: beside)

/-- Opened by such a path where nothing was, a store has a block from the start, which cannot be read: all the
directories on the path are made, and one of them has the place and the name of the block. -/
theorem openAt_upward : ¬ FileTree.empty.Exists upwardRoot ∧ ∃ s, openAt .empty upwardRoot = (.ok (), s) ∧
    s.count = 1 ∧ MemoryStore.empty.size = 0 ∧
      s.view sampleId = .error (failure (doing "failed to mmap block" (blockPath upwardRoot sampleId)) .noDevice) ∧
      MemoryStore.empty.view sampleId = .error (.notFound sampleId) := by
  have hs : FileTree.empty.makeDirs ["s"] = (.ok (), treeOf []) := FileTree.makeDirs_of_ensureDir rfl (by decide)
  have hblocks : FileTree.empty.makeDirs ["s", "blocks"] = (.ok (), treeOf [("blocks", .directory [])]) :=
    FileTree.makeDirs_of_notFound rfl rfl hs rfl
  have hshard : FileTree.empty.makeDirs ["s", "blocks", shard sampleId] =
      (.ok (), treeOf [("blocks", .directory [(shard sampleId, .directory [])])]) :=
    FileTree.makeDirs_of_notFound rfl rfl hblocks rfl
  have hdown : FileTree.empty.makeDirs ["s", "blocks", shard sampleId, sampleId.toHex] = (.ok (), upwardTree []) :=
    FileTree.makeDirs_of_notFound rfl rfl hshard rfl
  -- The way up makes nothing more, and down again there is the store's directory.
  have hup : ∀ {front : Path} {name : String}, parent? (front ++ [name]) = some front →
      FileTree.empty.ensureDir .none (front ++ [name]) = .error .notFound →
      (upwardTree []).ensureDir .none (front ++ [name]) = .ok (upwardTree []) →
      FileTree.empty.makeDirs front = (.ok (), upwardTree []) →
      FileTree.empty.makeDirs (front ++ [name]) = (.ok (), upwardTree []) :=
    fun hp hn he hq => FileTree.makeDirs_of_notFound hp hn hq he
  have hroot : FileTree.empty.makeDirs upwardRoot = (.ok (), upwardTree []) :=
    hup rfl rfl rfl (hup rfl rfl rfl (hup rfl rfl rfl (hup rfl rfl rfl (hup rfl rfl rfl hdown))))
  have hmade : FileTree.empty.makeDirs (blocksPath upwardRoot) = (.ok (), upwardTree []) := hup rfl rfl rfl hroot
  have hstatus : (upwardTree []).makeDirs (statusesPath upwardRoot) =
      (.ok (), upwardTree [("status", .directory [])]) := FileTree.makeDirs_of_ensureDir rfl (by decide)
  refine ⟨by decide, ⟨upwardTree [("status", .directory [])], upwardRoot⟩, ?_, rfl, rfl, ?_, rfl⟩
  · rw [openAt, hmade]
    simp only [hstatus]
    rfl
  · rw [view, if_pos (by decide)]
    rfl

end DirectoryStore

end BlockDag
