/-
Resources in a store in memory. As long as no two different blocks have one name, a root names one list
of blocks, whatever the block sizes: so a root that an added payload made full has all the blocks of
every payload with that root. Every payload that was added can be read back from then on.
-/
import BlockDag.Proofs.Capacity
import BlockDag.Proofs.Memory
import BlockDag.Store.Resource
import Mathlib.Data.Set.Function

namespace BlockDag

/-! ## A root and its blocks -/

namespace Schema

/-- A root without links is the only block. -/
theorem totalBlocks_eq_one_of_linkCount (s : Schema) (h : s.linkCount 0 = 0) : s.totalBlocks = 1 := by
  have hlinks := s.linkCount_eq 0
  have hwidth := s.size.linksPerBlock_pos
  have htotal := s.totalBlocks_eq
  rw [s.reach_zero] at hlinks
  unfold reach at hlinks
  omega

/-- A root with links is as large as a block may be. -/
theorem blockSize_zero_of_linkCount (s : Schema) (h : s.linkCount 0 ≠ 0) : s.blockSize 0 = s.size.bytes := by
  have hlinks : 0 < s.totalLinks := by
    rcases Nat.eq_zero_or_pos s.totalLinks with h0 | h0
    · have := s.linkCount_last
      rw [h0] at this
      exact absurd this h
    · exact h0
  exact s.blockSize_of_lt_last hlinks

end Schema

theorem BlockSize.eq_of_bytes_eq {m n : BlockSize} (h : m.bytes = n.bytes) : m = n := by
  cases m
  cases n
  cases h
  rfl

namespace EncodedBlob

variable {size size' : BlockSize} {tag tag' : DataTag} {payload payload' : Bytes} {blob blob' : EncodedBlob}

theorem named_of_split (h : split size tag payload = .ok blob) : ∀ b ∈ blob.blocks, b.1.Names b.2 := by
  obtain ⟨tree, -, hnamed, -, rfl⟩ := laid_of_split h
  intro b hb
  obtain ⟨ix, hix, rfl⟩ := List.mem_map.1 hb
  exact hnamed ix (List.mem_range.1 hix)

/-- Where each name stands for one block, a lookup with all blocks of a blob joins them. -/
theorem join_of_lookup {lookup : BlockId → Option Bytes} (h : split size tag payload = .ok blob)
    (hlook : ∀ b ∈ blob.blocks, lookup b.1 = some b.2) : join size blob.root lookup = .ok ⟨tag, payload⟩ := by
  refine join_split h ?_ fun _ b hb => ⟨b, hb, rfl, hlook b hb⟩
  intro b hb b' hb' heq
  have h' := hlook b' hb'
  rw [← heq, hlook b hb] at h'
  exact Option.some.inj h'

/-- A root names one list of blocks, if no two different blocks have one name. The size of its tree's
blocks can be read off a root that has links; and a root without links is all there is. -/
theorem blocks_eq_of_root_eq (h : split size tag payload = .ok blob) (h' : split size' tag' payload' = .ok blob')
    (hinj : Set.InjOn BlockId.of {raw | ∃ b ∈ blob.blocks ++ blob'.blocks, b.2 = raw})
    (hroot : blob.root = blob'.root) : blob.blocks = blob'.blocks := by
  have hnamed : ∀ b ∈ blob.blocks ++ blob'.blocks, b.1.Names b.2 := fun b hb =>
    (List.mem_append.1 hb).elim (named_of_split h b) (named_of_split h' b)
  have hsame : ∀ b ∈ blob.blocks ++ blob'.blocks, ∀ b' ∈ blob.blocks ++ blob'.blocks, b.1 = b'.1 → b.2 = b'.2 :=
    fun b hb b' hb' heq => hinj ⟨b, hb, rfl⟩ ⟨b', hb', rfl⟩ ((hnamed b hb).trans (heq.trans (hnamed b' hb').symm))
  obtain ⟨tree, hlaid, -, -, hblob⟩ := laid_of_split h
  obtain ⟨tree', hlaid', -, -, hblob'⟩ := laid_of_split h'
  have htop : tree 0 = tree' 0 := by
    have hname : (tree 0).1 = (tree' 0).1 := by simpa [hblob, hblob'] using hroot
    refine Prod.ext hname (hsame _ (List.mem_append_left _ ?_) _ (List.mem_append_right _ ?_) hname)
    · rw [hblob]
      exact List.mem_map_of_mem (List.mem_range.2 (Schema.totalBlocks_pos _))
    · rw [hblob']
      exact List.mem_map_of_mem (List.mem_range.2 (Schema.totalBlocks_pos _))
  obtain ⟨block, hopen, -⟩ := hlaid 0 (Schema.totalBlocks_pos _)
  obtain ⟨block', hopen', -⟩ := hlaid' 0 (Schema.totalBlocks_pos _)
  rw [← htop] at hopen'
  obtain ⟨hdecode, hlength, hlinks⟩ := Join.openBlock_eq_ok_iff.1 hopen
  obtain ⟨hdecode', hlength', hlinks'⟩ := Join.openBlock_eq_ok_iff.1 hopen'
  obtain rfl : block = block' := Except.ok.inj (hdecode.symm.trans hdecode')
  by_cases h0 : block.links.length = 0
  · have hone := Schema.totalBlocks_eq_one_of_linkCount _ (hlinks.symm.trans h0)
    have hone' := Schema.totalBlocks_eq_one_of_linkCount _ (hlinks'.symm.trans h0)
    rw [hblob, hblob']
    simp [hone, hone', htop]
  · obtain rfl : size = size' := by
      apply BlockSize.eq_of_bytes_eq
      rw [Schema.blockSize_zero_of_linkCount _ (hlinks ▸ h0)] at hlength
      rw [Schema.blockSize_zero_of_linkCount _ (hlinks' ▸ h0)] at hlength'
      exact hlength.symm.trans hlength'
    -- one lookup joins both blobs, from the same root, so they hold the same payload
    have hlook : ∀ b ∈ blob.blocks ++ blob'.blocks, Table.get? b.1 (blob.blocks ++ blob'.blocks) = some b.2 := by
      intro b hb
      obtain ⟨raw, hraw⟩ := Option.isSome_iff_exists.1 (Table.get?_isSome_of_mem hb)
      rw [hraw]
      exact congrArg some (hsame _ (Table.mem_of_get? hraw) b hb rfl)
    have hjoin : join size blob.root (Table.get? · (blob.blocks ++ blob'.blocks)) = .ok ⟨tag, payload⟩ :=
      join_of_lookup h fun b hb => hlook b (List.mem_append_left _ hb)
    have hjoin' : join size blob'.root (Table.get? · (blob.blocks ++ blob'.blocks)) = .ok ⟨tag', payload'⟩ :=
      join_of_lookup h' fun b hb => hlook b (List.mem_append_right _ hb)
    rw [hroot] at hjoin
    cases hjoin.symm.trans hjoin'
    cases h.symm.trans h'
    rfl

end EncodedBlob

/-! ## Adding to a store in memory -/

namespace MemoryStore

variable {s t : MemoryStore} {root : RootId} {size : BlockSize} {tag : DataTag} {payload : Bytes} {blob : EncodedBlob}

/-- The store with blocks put into it. -/
def stored (blocks : List NamedBlock) (s : MemoryStore) : MemoryStore := blocks.foldl (fun s b => s.put b.1 b.2) s

@[simp] theorem stored_cons (b : NamedBlock) (blocks : List NamedBlock) (s : MemoryStore) :
    stored (b :: blocks) s = stored blocks (s.put b.1 b.2) := rfl

@[simp] theorem status_stored (blocks : List NamedBlock) (s : MemoryStore) : (stored blocks s).status = s.status := by
  induction blocks generalizing s with
  | nil => rfl
  | cons b blocks ih => rw [stored_cons, ih, status_put]

theorem le_stored (blocks : List NamedBlock) (s : MemoryStore) : s.Le (stored blocks s) := by
  induction blocks generalizing s with
  | nil => exact .refl s
  | cons b blocks ih => exact (le_put s b.1 b.2).trans (ih _)

theorem holds_stored {blocks : List NamedBlock} {b : NamedBlock} (h : b ∈ blocks) (s : MemoryStore) :
    (stored blocks s).Holds b.1 := by
  induction blocks generalizing s with
  | nil => cases h
  | cons c blocks ih =>
    rcases List.mem_cons.1 h with rfl | h
    · exact (le_stored blocks _).holds (holds_put_iff.2 (.inr rfl))
    · exact ih h _

theorem putAll_eq (blocks : List NamedBlock) (s : MemoryStore) :
    operations.putAll blocks s = (.ok (), stored blocks s) := by
  induction blocks generalizing s with
  | nil => rfl
  | cons b blocks ih => exact ih (s.put b.1 b.2)

/-- A root that is not full is marked full; nothing else changes. -/
theorem markFull_spec (h : s.status root ≠ some .full) :
    ∃ t, operations.markFull root s = (.ok (), t) ∧ t.view = s.view ∧
      ∀ other, t.status other = if root = other then some .full else s.status other := by
  have hpart : RootStatus.CanMove (s.status root) .part = true := by
    cases hs : s.status root with
    | none => rfl
    | some status =>
      cases status with
      | part => rfl
      | full => exact absurd hs h
  have hstatus : ∀ other, (s.setStatus root .part).2.status other =
      if root = other then some .part else s.status other := by
    intro other
    rw [status_setStatus]
    simp only [hpart, and_true]
  have hfull : RootStatus.CanMove ((s.setStatus root .part).2.status root) .full = true := by
    rw [hstatus, if_pos rfl]
    rfl
  refine ⟨((s.setStatus root .part).2.setStatus root .full).2, ?_, ?_, ?_⟩
  · have hfirst : s.setStatus root .part = (.ok (), (s.setStatus root .part).2) :=
      Prod.ext (setStatus_eq_ok_iff.2 hpart) rfl
    have hsecond := setStatus_eq_ok_iff.2 hfull
    unfold BlockStore.markFull
    simp only [operations]
    rw [hfirst]
    exact Prod.ext hsecond rfl
  · rw [view_setStatus, view_setStatus]
  · intro other
    rw [status_setStatus, hfull, hstatus other]
    by_cases ho : root = other <;> simp [ho]

/-- A payload whose root is full is left alone. -/
theorem addResource_of_full (hsplit : EncodedBlob.split size tag payload = .ok blob)
    (h : s.status blob.root = some .full) :
    operations.addResource size tag payload s = (.ok blob.root, s) := by
  unfold BlockStore.addResource
  simp only [hsplit, operations, h]

/-- Any other payload has its blocks put and its root marked full. -/
theorem addResource_of_not_full (hsplit : EncodedBlob.split size tag payload = .ok blob)
    (h : s.status blob.root ≠ some .full) :
    ∃ t, operations.addResource size tag payload s = (.ok blob.root, t) ∧ t.view = (stored blob.blocks s).view ∧
      ∀ other, t.status other = if blob.root = other then some .full else s.status other := by
  have hstored : (stored blob.blocks s).status blob.root ≠ some .full := by rwa [status_stored]
  obtain ⟨t, hmark, hview, hstatus⟩ := markFull_spec hstored
  rw [status_stored] at hstatus
  refine ⟨t, ?_, hview, hstatus⟩
  have hget : operations.getStatus s blob.root = .ok (s.status blob.root) := rfl
  unfold BlockStore.addResource
  simp only [hsplit, hget]
  cases hs : s.status blob.root with
  | none => simp only [putAll_eq, hmark]
  | some status =>
    cases status with
    | part => simp only [putAll_eq, hmark]
    | full => exact absurd hs h

/-- A full root with all blocks of a payload is read as that payload. -/
theorem readResource_of_full (hsplit : EncodedBlob.split size tag payload = .ok blob)
    (hfull : s.status blob.root = some .full) (hblocks : ∀ b ∈ blob.blocks, s.view b.1 = .ok b.2) :
    operations.readResource size blob.root s = .ok ⟨tag, payload⟩ := by
  have hjoin : join size blob.root (operations.lookup s) = .ok ⟨tag, payload⟩ :=
    EncodedBlob.join_of_lookup hsplit fun b hb => congrArg Except.toOption (hblocks b hb)
  have hget : operations.getStatus s blob.root = .ok (some .full) := congrArg Except.ok hfull
  unfold BlockStore.readResource
  simp only [hget, hjoin]

/-- A payload that cannot be split changes nothing. -/
theorem addResource_of_error {e : FormatError} (h : EncodedBlob.split size tag payload = .error e) (s : MemoryStore) :
    operations.addResource size tag payload s = (.error (.format e), s) := by
  unfold BlockStore.addResource
  simp only [h]

end MemoryStore

/-! ## Sequences of calls -/

/-- A call on a store. -/
inductive ResourceCall where
  /-- Adds a payload. -/
  | add (size : BlockSize) (tag : DataTag) (payload : Bytes)
  /-- Puts a block under its own name. -/
  | put (raw : Bytes)
  /-- Moves a root to partial, if it can move there. -/
  | begin (root : RootId)

namespace ResourceCall

/-- The store after a call, whatever the answer. -/
def apply (s : MemoryStore) : ResourceCall → MemoryStore
  | add size tag payload => (MemoryStore.operations.addResource size tag payload s).2
  | put raw => (MemoryStore.operations.put s (BlockId.of raw) raw).2
  | begin root => (MemoryStore.operations.setStatus s root .part).2

/-- The store after calls. -/
def applyAll (calls : List ResourceCall) (s : MemoryStore) : MemoryStore := calls.foldl apply s

/-- The blocks that a call brings. -/
def blocks : ResourceCall → List Bytes
  | add size tag payload =>
    match EncodedBlob.split size tag payload with
    | .ok blob => blob.blocks.map (·.2)
    | .error _ => []
  | put raw => [raw]
  | begin _ => []

/-- The blocks in play in a sequence of calls. -/
def InPlay (calls : List ResourceCall) : Set Bytes := {raw | raw ∈ calls.flatMap blocks}

end ResourceCall

namespace MemoryStore

variable {s : MemoryStore} {P : Set Bytes} {size : BlockSize} {tag : DataTag} {payload : Bytes} {blob : EncodedBlob}

/-- The blocks of the store are among `P` and under their own names, and a full root has all blocks of
some payload. -/
structure Grounded (P : Set Bytes) (s : MemoryStore) : Prop where
  named : ∀ {id raw}, s.view id = .ok raw → id.Names raw ∧ raw ∈ P
  full : ∀ {root}, s.status root = some .full → ∃ size tag payload blob,
    EncodedBlob.split size tag payload = .ok blob ∧ blob.root = root ∧ ∀ b ∈ blob.blocks, s.view b.1 = .ok b.2

namespace Grounded

theorem empty (P : Set Bytes) : MemoryStore.empty.Grounded P := by
  constructor
  · intro id raw h
    rw [view_empty] at h
    cases h
  · intro root h
    rw [status_empty] at h
    cases h

/-- More blocks take nothing away. -/
theorem put (h : s.Grounded P) {id : BlockId} {raw : Bytes} (hid : id.Names raw) (hraw : raw ∈ P) :
    (s.put id raw).Grounded P := by
  constructor
  · intro j bytes hv
    rcases view_put_eq_ok_iff.1 hv with hv | ⟨rfl, rfl, -⟩
    · exact h.named hv
    · exact ⟨hid, hraw⟩
  · intro root hf
    obtain ⟨size, tag, payload, blob, hsplit, hroot, hall⟩ := h.full hf
    exact ⟨size, tag, payload, blob, hsplit, hroot, fun b hb => (le_put s id raw).view (hall b hb)⟩

theorem stored (h : s.Grounded P) {blocks : List NamedBlock} (hb : ∀ b ∈ blocks, b.1.Names b.2 ∧ b.2 ∈ P) :
    (s.stored blocks).Grounded P := by
  induction blocks generalizing s with
  | nil => exact h
  | cons b blocks ih =>
    obtain ⟨hid, hraw⟩ := hb b List.mem_cons_self
    exact ih (h.put hid hraw) fun c hc => hb c (List.mem_cons_of_mem _ hc)

/-- What the store has under the name of a block in play is that block. -/
theorem view_of_holds (h : s.Grounded P) (hinj : Set.InjOn BlockId.of P) {id : BlockId} {raw : Bytes}
    (hid : id.Names raw) (hraw : raw ∈ P) (hholds : s.Holds id) : s.view id = .ok raw := by
  obtain ⟨bytes, hview⟩ := holds_iff.1 hholds
  obtain ⟨hbytes, hin⟩ := h.named hview
  rw [hview, hinj hin hraw (hbytes.trans hid.symm)]

/-- A full root has the blocks of every payload with that root. -/
theorem view_of_full (h : s.Grounded P) (hinj : Set.InjOn BlockId.of P)
    (hsplit : EncodedBlob.split size tag payload = .ok blob) (hP : ∀ b ∈ blob.blocks, b.2 ∈ P)
    (hfull : s.status blob.root = some .full) : ∀ b ∈ blob.blocks, s.view b.1 = .ok b.2 := by
  obtain ⟨size', tag', payload', blob', hsplit', hroot, hall⟩ := h.full hfull
  have hsub : {raw | ∃ b ∈ blob.blocks ++ blob'.blocks, b.2 = raw} ⊆ P := by
    rintro _ ⟨b, hb, rfl⟩
    rcases List.mem_append.1 hb with hb | hb
    · exact hP b hb
    · exact (h.named (hall b hb)).2
  rw [EncodedBlob.blocks_eq_of_root_eq hsplit hsplit' (hinj.mono hsub) hroot.symm]
  exact hall

/-- Moving a root to partial makes none full. -/
theorem begin (h : s.Grounded P) (root : RootId) : (s.setStatus root .part).2.Grounded P := by
  constructor
  · intro id raw hv
    rw [view_setStatus] at hv
    exact h.named hv
  · intro other hf
    rw [status_setStatus] at hf
    rw [view_setStatus]
    split at hf
    · cases hf
    · exact h.full hf

/-- A payload's blocks are there before its root is marked full. -/
theorem add (h : s.Grounded P) (hinj : Set.InjOn BlockId.of P) (hsplit : EncodedBlob.split size tag payload = .ok blob)
    (hP : ∀ b ∈ blob.blocks, b.2 ∈ P) : (operations.addResource size tag payload s).2.Grounded P := by
  by_cases hfull : s.status blob.root = some .full
  · rw [addResource_of_full hsplit hfull]
    exact h
  · obtain ⟨t, hadd, hview, hstatus⟩ := addResource_of_not_full hsplit hfull
    have hnamed := EncodedBlob.named_of_split hsplit
    have hstored := h.stored fun b hb => ⟨hnamed b hb, hP b hb⟩
    rw [hadd]
    constructor
    · intro id raw hv
      rw [hview] at hv
      exact hstored.named hv
    · intro root hf
      rw [hview]
      rw [hstatus] at hf
      split at hf
      · next hroot =>
        exact ⟨size, tag, payload, blob, hsplit, hroot, fun b hb =>
          hstored.view_of_holds hinj (hnamed b hb) (hP b hb) (holds_stored hb s)⟩
      · rw [← status_stored blob.blocks s] at hf
        exact hstored.full hf

end Grounded

end MemoryStore

namespace ResourceCall

open MemoryStore

variable {s : MemoryStore} {P : Set Bytes} {size : BlockSize} {tag : DataTag} {payload : Bytes} {blob : EncodedBlob}
  {root : RootId}

theorem mem_blocks_add (hsplit : EncodedBlob.split size tag payload = .ok blob) :
    ∀ b ∈ blob.blocks, b.2 ∈ (add size tag payload).blocks := by
  intro b hb
  simp only [blocks, hsplit]
  exact List.mem_map_of_mem hb

/-- What one call keeps. -/
theorem grounded_apply (hinj : Set.InjOn BlockId.of P) (h : s.Grounded P) {c : ResourceCall}
    (hc : ∀ raw ∈ c.blocks, raw ∈ P) : (c.apply s).Grounded P := by
  cases c with
  | add size tag payload =>
    cases hsplit : EncodedBlob.split size tag payload with
    | error e =>
      rw [apply, addResource_of_error hsplit]
      exact h
    | ok blob => exact h.add hinj hsplit fun b hb => hc _ (mem_blocks_add hsplit b hb)
  | put raw => exact h.put rfl (hc raw List.mem_cons_self)
  | begin root => exact h.begin root

/-- What a sequence of calls keeps. -/
theorem grounded_applyAll (hinj : Set.InjOn BlockId.of P) (h : s.Grounded P) {calls : List ResourceCall}
    (hc : InPlay calls ⊆ P) : (applyAll calls s).Grounded P := by
  induction calls generalizing s with
  | nil => exact h
  | cons c calls ih =>
    exact ih (grounded_apply hinj h fun raw hraw => hc (List.mem_append_left _ hraw))
      fun raw hraw => hc (List.mem_append_right _ hraw)

theorem le_apply (c : ResourceCall) (s : MemoryStore) : s.Le (c.apply s) := by
  cases c with
  | add size tag payload =>
    cases hsplit : EncodedBlob.split size tag payload with
    | error e =>
      rw [apply, addResource_of_error hsplit]
      exact .refl s
    | ok blob =>
      by_cases hfull : s.status blob.root = some .full
      · rw [apply, addResource_of_full hsplit hfull]
        exact .refl s
      · obtain ⟨t, hadd, hview, hstatus⟩ := addResource_of_not_full hsplit hfull
        rw [apply, hadd]
        refine ⟨fun hv => by rw [hview]; exact (le_stored _ s).view hv, fun hf => ?_⟩
        rw [hstatus, hf, ite_self]
  | put raw => exact le_put s _ raw
  | begin root => exact le_setStatus s root .part

theorem le_applyAll (calls : List ResourceCall) (s : MemoryStore) : s.Le (applyAll calls s) := by
  induction calls generalizing s with
  | nil => exact .refl s
  | cons c calls ih => exact (le_apply c s).trans (ih _)

/-- A payload that can be split is added, and its root is full then. -/
theorem add_spec (hsplit : EncodedBlob.split size tag payload = .ok blob) (s : MemoryStore) :
    (operations.addResource size tag payload s).1 = .ok blob.root ∧
      ((add size tag payload).apply s).status blob.root = some .full := by
  by_cases hfull : s.status blob.root = some .full
  · rw [apply, addResource_of_full hsplit hfull]
    exact ⟨rfl, hfull⟩
  · obtain ⟨t, hadd, -, hstatus⟩ := addResource_of_not_full hsplit hfull
    rw [apply, hadd]
    exact ⟨rfl, by rw [hstatus, if_pos rfl]⟩

/-- What was added stays readable. After any calls on a store in memory that starts empty, with whatever
block sizes, and as long as no two different blocks in play have one name, every resource that was
added on the way is read back, and adding it again answers its root and changes nothing. And any
payload is added if it can be split, and changes nothing if it cannot. -/
theorem added_readable (calls : List ResourceCall) (hinj : Set.InjOn BlockId.of (InPlay calls)) :
    (∀ before size tag payload after root, calls = before ++ add size tag payload :: after →
      (operations.addResource size tag payload (applyAll before .empty)).1 = .ok root →
      operations.readResource size root (applyAll calls .empty) = .ok ⟨tag, payload⟩ ∧
        operations.addResource size tag payload (applyAll calls .empty) = (.ok root, applyAll calls .empty)) ∧
    ∀ size tag payload, match EncodedBlob.split size tag payload with
      | .ok blob => (operations.addResource size tag payload (applyAll calls .empty)).1 = .ok blob.root
      | .error e => operations.addResource size tag payload (applyAll calls .empty) =
        (.error (.format e), applyAll calls .empty) := by
  constructor
  · rintro before size tag payload after root rfl hadded
    cases hsplit : EncodedBlob.split size tag payload with
    | error e =>
      rw [addResource_of_error hsplit] at hadded
      cases hadded
    | ok blob =>
      rw [(add_spec hsplit _).1] at hadded
      obtain rfl := Except.ok.inj hadded
      have hgrounded : (applyAll (before ++ add size tag payload :: after) .empty).Grounded _ :=
        grounded_applyAll hinj (.empty _) subset_rfl
      have hfull : (applyAll (before ++ add size tag payload :: after) .empty).status blob.root = some .full := by
        unfold applyAll
        rw [List.foldl_append, List.foldl_cons]
        exact (le_applyAll after _).full (add_spec hsplit _).2
      have hin : ∀ b ∈ blob.blocks, b.2 ∈ InPlay (before ++ add size tag payload :: after) := fun b hb =>
        List.mem_flatMap.2 ⟨_, List.mem_append_right _ List.mem_cons_self, mem_blocks_add hsplit b hb⟩
      exact ⟨readResource_of_full hsplit hfull (hgrounded.view_of_full hinj hsplit hin hfull),
        addResource_of_full hsplit hfull⟩
  · intro size tag payload
    cases hsplit : EncodedBlob.split size tag payload with
    | error e => exact addResource_of_error hsplit _
    | ok blob => exact (add_spec hsplit _).1

/-- Calls before a payload of three bytes is added in blocks of 71 bytes: it was added in larger blocks,
and a leaf of another payload was put. -/
def sampleBefore : List ResourceCall :=
  [add ⟨103, by decide, by decide, by decide⟩ .blockBody [1, 2, 3], put (0 :: 0 :: List.replicate 69 1)]

/-- The payload is added, then the other one, and a download is begun. -/
def sampleCalls : List ResourceCall :=
  sampleBefore ++ [add ⟨72, by decide, by decide, by decide⟩ .blockBody [1, 2, 3],
    add ⟨72, by decide, by decide, by decide⟩ .blockBody (List.replicate 138 1), begin (.of [])]

/-- The payload has one root in blocks of either size. -/
theorem added_readable_resized : Set.InjOn BlockId.of (InPlay sampleCalls) ∧ ∃ root,
    (operations.addResource ⟨72, by decide, by decide, by decide⟩ .blockBody [1, 2, 3]
      (applyAll sampleBefore .empty)).1 = .ok root ∧
    operations.readResource ⟨72, by decide, by decide, by decide⟩ root (applyAll sampleCalls .empty) =
      .ok ⟨.blockBody, [1, 2, 3]⟩ := by
  have hdistinct : ∀ raw ∈ sampleCalls.flatMap blocks, ∀ raw' ∈ sampleCalls.flatMap blocks,
      BlockId.of raw = BlockId.of raw' → raw = raw' := by decide +kernel
  have hinj : Set.InjOn BlockId.of (InPlay sampleCalls) := fun raw hraw raw' hraw' => hdistinct raw hraw raw' hraw'
  obtain ⟨stream, hframe⟩ := EncodedBlob.exists_frame .blockBody (show [1, 2, 3].length + 1 < 0x100000000 by decide)
  obtain ⟨blob, hsplit⟩ := EncodedBlob.exists_split ⟨72, by decide, by decide, by decide⟩ hframe
  have hadded := (add_spec hsplit (applyAll sampleBefore .empty)).1
  exact ⟨hinj, blob.root, hadded, ((added_readable _ hinj).1 _ _ _ _ _ _ rfl hadded).1⟩

end ResourceCall

end BlockDag
