/-
The pending index is an ordered multimap. Whatever is done to a new index, it goes along with a plain list of
who waits for what: a wait is put at the end of the list, and taking a block out or withdrawing a root strikes
out the waits concerned. What the index answers is what the list says. No entry is left that nobody waits in,
so that it is enough to look at the entries to know whether a block is waited for, and how many are.
-/
import BlockDag.Proofs.Pending
import Mathlib.Data.List.Dedup

namespace BlockDag

/-- A root waits for a block at a position. -/
structure Wait where
  id : BlockId
  root : RootId
  ix : Nat
deriving DecidableEq

namespace Wait

/-- The positions at which `root` waits for `id`, the oldest first. -/
def positions (waits : List Wait) (id : BlockId) (root : RootId) : List Nat :=
  (waits.filter fun w => w.id = id ∧ w.root = root).map Wait.ix

variable {waits : List Wait} {id : BlockId} {root : RootId}

theorem positions_append (waits more : List Wait) (id : BlockId) (root : RootId) :
    positions (waits ++ more) id root = positions waits id root ++ positions more id root := by
  simp [positions]

/-- Striking out waits of other blocks or roots changes nothing. -/
theorem positions_filter_of_forall {keep : Wait → Bool} (h : ∀ ix, keep ⟨id, root, ix⟩ = true) :
    positions (waits.filter keep) id root = positions waits id root := by
  rw [positions, positions, List.filter_filter]
  congr 1
  refine List.filter_congr fun w _ => ?_
  obtain ⟨i, r, ix⟩ := w
  by_cases hw : i = id ∧ r = root
  · obtain ⟨rfl, rfl⟩ := hw
    simp [h ix]
  · simp [hw]

theorem positions_filter_of_not {keep : Wait → Bool} (h : ∀ ix, keep ⟨id, root, ix⟩ = false) :
    positions (waits.filter keep) id root = [] := by
  rw [positions, List.map_eq_nil_iff, List.filter_eq_nil_iff]
  rintro ⟨i, r, ix⟩ hw
  rw [List.mem_filter] at hw
  simp only [decide_eq_true_eq, not_and]
  rintro rfl rfl
  rw [h ix] at hw
  exact Bool.false_ne_true hw.2

theorem positions_ne_nil_iff : positions waits id root ≠ [] ↔ ∃ w ∈ waits, w.id = id ∧ w.root = root := by
  simp [positions, List.filter_eq_nil_iff]

end Wait

/-- What can be done to a pending index. -/
inductive PendingCall where
  | insert (id : BlockId) (root : RootId) (ix : Nat)
  | take (id : BlockId)
  | removeRoot (root : RootId) (ids : List BlockId)

namespace PendingCall

/-- The index after the call. -/
def run (p : PendingIndex) : PendingCall → PendingIndex
  | insert id root ix => p.insert id root ix
  | take id => (p.take id).2
  | removeRoot root ids => p.removeRoot root ids

/-- The list of waits after the call. -/
def revise (waits : List Wait) : PendingCall → List Wait
  | insert id root ix => waits ++ [⟨id, root, ix⟩]
  | take id => waits.filter fun w => w.id ≠ id
  | removeRoot root ids => waits.filter fun w => ¬ (w.root = root ∧ w.id ∈ ids)

end PendingCall

namespace PendingIndex

variable {p : PendingIndex} {waits : List Wait} {id : BlockId} {awaiting : Awaiting}

/-- Taking a block out answers who waits for it. -/
theorem take_fst (p : PendingIndex) (id : BlockId) : (p.take id).1 = p.get? id := by
  cases hg : p.get? id with
  | some awaiting => rw [take_of_get? hg]
  | none => rw [take, hg]

theorem take_wf (hw : p.WF) (id : BlockId) : (p.take id).2.WF := by
  by_cases h : p.Has id
  · obtain ⟨awaiting, hg⟩ := (has_iff_get? p id).1 h
    rw [take_of_get? hg]
    exact without_wf hw id
  · rw [take_of_not_has h]
    exact hw

theorem positions_take (p : PendingIndex) (id j : BlockId) (root : RootId) :
    (p.take id).2.positions j root = if id = j then [] else p.positions j root := by
  by_cases h : p.Has id
  · obtain ⟨awaiting, hg⟩ := (has_iff_get? p id).1 h
    rw [take_of_get? hg, positions_without]
  · rw [take_of_not_has h]
    split
    · next he =>
      subst he
      exact not_not.1 fun hp => h (has_of_positions hp)
    · rfl

/-- The index has the waits of the list and no others, those of a root for a block in the same order. -/
structure Lists (p : PendingIndex) (waits : List Wait) : Prop where
  wf : p.WF
  positions : ∀ id root, p.positions id root = Wait.positions waits id root

namespace Lists

theorem empty : Lists .empty [] := ⟨empty_wf, fun id root => positions_empty id root⟩

/-- What a call does to the index it does to the list. -/
theorem step (h : Lists p waits) (call : PendingCall) :
    Lists (PendingCall.run p call) (PendingCall.revise waits call) := by
  cases call with
  | insert id root ix =>
    refine ⟨insert_wf h.wf id root ix, fun j other => ?_⟩
    rw [PendingCall.run, positions_insert, h.positions, PendingCall.revise, Wait.positions_append]
    by_cases he : id = j ∧ root = other <;> simp [Wait.positions, he]
  | take id =>
    refine ⟨take_wf h.wf id, fun j other => ?_⟩
    rw [PendingCall.run, positions_take, h.positions, PendingCall.revise]
    split
    · next he => rw [Wait.positions_filter_of_not (by simp [he])]
    · next he => rw [Wait.positions_filter_of_forall (by simp [Ne.symm he])]
  | removeRoot root ids =>
    refine ⟨removeRoot_wf h.wf root ids, fun j other => ?_⟩
    rw [PendingCall.run, positions_removeRoot, h.positions, PendingCall.revise]
    split
    · next he => rw [Wait.positions_filter_of_not (by simp [he])]
    · next he =>
      have hkept : ¬ other = root ∨ ¬ j ∈ ids := not_and_or.1 fun hr => he ⟨hr.1.symm, hr.2⟩
      rw [Wait.positions_filter_of_forall (by simpa using hkept)]

theorem run (h : Lists p waits) (calls : List PendingCall) :
    Lists (calls.foldl PendingCall.run p) (calls.foldl PendingCall.revise waits) := by
  induction calls generalizing p waits with
  | nil => exact h
  | cons call calls ih => exact ih (h.step call)

/-! ## What the index answers -/

theorem has_iff (h : Lists p waits) (id : BlockId) : p.Has id ↔ ∃ w ∈ waits, w.id = id := by
  simp only [has_iff_positions h.wf, h.positions, Wait.positions_ne_nil_iff]
  constructor
  · rintro ⟨root, w, hw, hid, -⟩
    exact ⟨w, hw, hid⟩
  · rintro ⟨w, hw, hid⟩
    exact ⟨w.root, w, hw, hid, rfl⟩

/-- There is one entry for each block in the list. -/
theorem size_eq (h : Lists p waits) : p.size = (waits.map Wait.id).dedup.length := by
  have hkeys : p.entries.keys.Perm (waits.map Wait.id).dedup := by
    refine (List.perm_ext_iff_of_nodup Std.ExtTreeMap.nodup_keys (List.nodup_dedup _)).2 fun id => ?_
    rw [Std.ExtTreeMap.mem_keys, List.mem_dedup, List.mem_map]
    exact h.has_iff id
  rw [size, ← hkeys.length_eq, Std.ExtTreeMap.length_keys]

theorem get?_eq_none_iff (h : Lists p waits) : p.get? id = none ↔ ∀ w ∈ waits, w.id ≠ id := by
  rw [← not_iff_not, ← ne_eq, Option.ne_none_iff_exists', ← has_iff_get?, h.has_iff]
  simp

/-- An entry has the roots that wait for the block, each with its positions. -/
theorem mem_iff (h : Lists p waits) (hg : p.get? id = some awaiting) {root : RootId} {positions : List Nat} :
    (root, positions) ∈ awaiting ↔ positions ≠ [] ∧ positions = Wait.positions waits id root := by
  have hwf := h.wf id awaiting hg
  have hroot : awaiting.positions root = Wait.positions waits id root := by
    rw [← h.positions, PendingIndex.positions, hg, Option.getD_some]
  constructor
  · intro hm
    refine ⟨hwf.filled _ hm, ?_⟩
    rw [← hroot, Awaiting.positions_of_mem hwf hm]
  · rintro ⟨hne, rfl⟩
    rw [← hroot] at hne ⊢
    unfold Awaiting.positions at hne ⊢
    cases hr : Table.get? root awaiting with
    | none => simp [hr] at hne
    | some positions => exact Table.mem_of_get? hr

end Lists

/-- Whatever is done to a new index, it is an ordered multimap: it goes along with a list to which each wait
is appended, from which taking a block out strikes all waits for it and withdrawing a root strikes its waits
for the given blocks. A block is in the index just if a wait for it is in the list, there are as many entries
as different blocks in the list, and what is looked up or taken out under a block are its roots, once each,
with their positions in the order in which they came in; no root has none. -/
theorem ordered_multimap (calls : List PendingCall) :
    let p := calls.foldl PendingCall.run .empty
    let waits := calls.foldl PendingCall.revise []
    (∀ id, p.Has id ↔ ∃ w ∈ waits, w.id = id) ∧
    p.size = (waits.map Wait.id).dedup.length ∧
    ∀ id, (p.take id).1 = p.get? id ∧ (p.get? id = none ↔ ∀ w ∈ waits, w.id ≠ id) ∧
      ∀ awaiting, p.get? id = some awaiting → (Table.keys awaiting).Nodup ∧
        ∀ root positions, (root, positions) ∈ awaiting ↔
          positions ≠ [] ∧ positions = Wait.positions waits id root := by
  intro p waits
  have h : Lists p waits := Lists.empty.run calls
  refine ⟨h.has_iff, h.size_eq, fun id => ⟨p.take_fst id, h.get?_eq_none_iff, fun awaiting hg => ?_⟩⟩
  exact ⟨(h.wf id awaiting hg).nodup, fun root positions => h.mem_iff hg⟩

end PendingIndex

end BlockDag
