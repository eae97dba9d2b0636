/-
Laws of the pending index. What a root waits for is read off the positions it has under every id;
each operation changes those positions at one id or for one root only, and leaves no entry empty.
-/
import BlockDag.Download.Pending
import BlockDag.Proofs.Table
import Mathlib.Data.List.Count
import Mathlib.Data.List.Flatten

namespace BlockDag

namespace Awaiting

/-- The positions of `root`. -/
def positions (awaiting : Awaiting) (root : RootId) : List Nat :=
  (Table.get? root awaiting).getD []

theorem positions_cons (e : RootId × List Nat) (awaiting : Awaiting) (root : RootId) :
    positions (e :: awaiting) root = if e.1 = root then e.2 else awaiting.positions root := by
  unfold positions
  rw [Table.get?]
  split <;> rfl

theorem positions_eq_nil {awaiting : Awaiting} {root : RootId} (h : root ∉ Table.keys awaiting) :
    awaiting.positions root = [] := by
  rw [positions, Table.get?_eq_none_iff.2 h]
  rfl

theorem positions_add (awaiting : Awaiting) (root other : RootId) (ix : Nat) :
    (awaiting.add root ix).positions other =
      if root = other then awaiting.positions root ++ [ix] else awaiting.positions other := by
  unfold positions add
  rw [Table.get?_insert]
  split <;> rfl

theorem positions_erase (awaiting : Awaiting) (root other : RootId) :
    positions (Table.erase root awaiting) other =
      if root = other then [] else awaiting.positions other := by
  unfold positions
  rw [Table.get?_erase]
  split <;> rfl

/-- Every root occurs once, with at least one position. -/
structure WF (awaiting : Awaiting) : Prop where
  nonempty : awaiting ≠ []
  nodup : (Table.keys awaiting).Nodup
  filled : ∀ e ∈ awaiting, e.2 ≠ []

theorem positions_of_mem {awaiting : Awaiting} (hw : awaiting.WF) {e : RootId × List Nat}
    (h : e ∈ awaiting) : awaiting.positions e.1 = e.2 := by
  unfold positions
  rw [Table.get?_of_mem hw.nodup h]
  rfl

theorem add_wf {awaiting : Awaiting} (hd : (Table.keys awaiting).Nodup) (hf : ∀ e ∈ awaiting, e.2 ≠ [])
    (root : RootId) (ix : Nat) : (awaiting.add root ix).WF := by
  refine ⟨Table.insert_ne_nil _ _ _, Table.nodup_insert hd _ _, ?_⟩
  intro e he
  rcases Table.mem_insert he with rfl | he
  · simp
  · exact hf e he

theorem erase_wf {awaiting : Awaiting} (hw : awaiting.WF) {root : RootId}
    (h : Table.erase root awaiting ≠ []) : WF (Table.erase root awaiting) :=
  ⟨h, Table.nodup_erase hw.nodup _, fun e he => hw.filled e (Table.mem_erase.1 he).1⟩

end Awaiting

namespace PendingIndex

variable {p : PendingIndex}

/-- The positions at which `root` waits for `id`. -/
def positions (p : PendingIndex) (id : BlockId) (root : RootId) : List Nat :=
  Awaiting.positions ((p.get? id).getD []) root

/-- All that `root` waits for. -/
def waits (p : PendingIndex) (root : RootId) : List (BlockId × Nat) :=
  p.entries.toList.flatMap fun e => (Awaiting.positions e.2 root).map (e.1, ·)

/-- Every entry is well-formed. -/
def WF (p : PendingIndex) : Prop := ∀ id awaiting, p.get? id = some awaiting → Awaiting.WF awaiting

theorem empty_wf : empty.WF := by
  intro id awaiting h
  simp [empty, get?] at h

@[simp] theorem positions_empty (id : BlockId) (root : RootId) : empty.positions id root = [] := by
  simp [positions, empty, get?, Awaiting.positions, Table.get?]

theorem has_iff_get? (p : PendingIndex) (id : BlockId) : p.Has id ↔ ∃ awaiting, p.get? id = some awaiting := by
  unfold Has get?
  rw [Std.ExtTreeMap.mem_iff_isSome_getElem?, Option.isSome_iff_exists]

/-- A block that some root waits for is pending. -/
theorem has_of_positions {id : BlockId} {root : RootId} (h : p.positions id root ≠ []) : p.Has id := by
  rw [has_iff_get?]
  cases hg : p.get? id with
  | some awaiting => exact ⟨awaiting, rfl⟩
  | none => exact absurd (by rw [positions, hg]; rfl) h

/-- A block is pending exactly if some root waits for it. -/
theorem has_iff_positions (hw : p.WF) {id : BlockId} : p.Has id ↔ ∃ root, p.positions id root ≠ [] := by
  constructor
  · rw [has_iff_get?]
    rintro ⟨awaiting, h⟩
    have ha := hw id awaiting h
    obtain ⟨e, he⟩ := List.exists_mem_of_ne_nil _ ha.nonempty
    refine ⟨e.1, ?_⟩
    rw [positions, h, Option.getD_some, Awaiting.positions_of_mem ha he]
    exact ha.filled e he
  · rintro ⟨root, h⟩
    exact has_of_positions h

/-! ## What a root waits for -/

theorem toList_nodup (p : PendingIndex) : (p.entries.toList.map Prod.fst).Nodup := by
  refine List.pairwise_map.2 (Std.ExtTreeMap.distinct_keys_toList.imp ?_)
  intro a b h heq
  exact h (heq ▸ Std.ReflCmp.compare_self)

theorem mem_waits {root : RootId} {id : BlockId} {ix : Nat} :
    (id, ix) ∈ p.waits root ↔ ix ∈ p.positions id root := by
  unfold waits positions get?
  simp only [List.mem_flatMap, List.mem_map, Prod.mk.injEq, Prod.exists]
  constructor
  · rintro ⟨j, awaiting, hm, i, hi, rfl, rfl⟩
    rw [Std.ExtTreeMap.mem_toList_iff_getElem?_eq_some.1 hm]
    exact hi
  · intro h
    cases hg : p.entries[id]? with
    | none => rw [hg] at h; simp [Awaiting.positions, Table.get?] at h
    | some awaiting =>
      rw [hg] at h
      exact ⟨id, awaiting, Std.ExtTreeMap.mem_toList_iff_getElem?_eq_some.2 hg, ix, h, rfl, rfl⟩

/-- A root that waits for nothing has no positions. -/
theorem waits_eq_nil_iff {root : RootId} : p.waits root = [] ↔ ∀ id, p.positions id root = [] := by
  constructor
  · intro hnone id
    rw [List.eq_nil_iff_forall_not_mem]
    intro ix hix
    rw [← mem_waits, hnone] at hix
    cases hix
  · intro hnone
    rw [List.eq_nil_iff_forall_not_mem]
    rintro ⟨id, ix⟩ hm
    rw [mem_waits, hnone] at hm
    cases hm

/-- A position counts among what a root waits for as often as it does under its id. -/
theorem count_waits (p : PendingIndex) (root : RootId) (id : BlockId) (ix : Nat) :
    (p.waits root).count (id, ix) = (p.positions id root).count ix := by
  -- only the entry of `id` counts, and its key occurs once
  have key : ∀ l : List (BlockId × Awaiting), (l.map Prod.fst).Nodup →
      (l.flatMap fun e => (Awaiting.positions e.2 root).map (e.1, ·)).count (id, ix) =
        (Awaiting.positions ((Table.get? id l).getD []) root).count ix := by
    intro l hl
    induction l with
    | nil => simp [Awaiting.positions, Table.get?]
    | cons e l ih =>
      obtain ⟨j, awaiting⟩ := e
      rw [List.map_cons, List.nodup_cons] at hl
      rw [List.flatMap_cons, List.count_append, ih hl.2]
      by_cases hj : j = id
      · subst hj
        have hn : Table.get? j l = none := Table.get?_eq_none_iff.2 hl.1
        have hinj : Function.Injective fun i : Nat => (j, i) := fun a b h => (Prod.mk.inj h).2
        rw [hn, Table.get?, if_pos rfl, List.count_map_of_injective _ _ hinj]
        simp [Awaiting.positions, Table.get?]
      · have hz : ((Awaiting.positions awaiting root).map (j, ·)).count (id, ix) = 0 := by
          rw [List.count_eq_zero]
          simp [hj]
        rw [hz, Table.get?, if_neg hj, Nat.zero_add]
  rw [waits, key _ p.toList_nodup, positions]
  congr 2
  cases hg : p.get? id with
  | none =>
    rw [Table.get?_eq_none_iff.2]
    intro hm
    obtain ⟨⟨j, awaiting⟩, he, rfl⟩ := List.mem_map.1 hm
    rw [get?, Std.ExtTreeMap.mem_toList_iff_getElem?_eq_some.1 he] at hg
    cases hg
  | some awaiting =>
    rw [Table.get?_of_mem p.toList_nodup (Std.ExtTreeMap.mem_toList_iff_getElem?_eq_some.2 hg)]

/-- Roots with the same positions under every id wait for the same, up to order. -/
theorem waits_perm {q : PendingIndex} {root other : RootId}
    (h : ∀ id, (p.positions id root).Perm (q.positions id other)) :
    (p.waits root).Perm (q.waits other) := by
  rw [List.perm_iff_count]
  rintro ⟨id, ix⟩
  rw [count_waits, count_waits, (h id).count_eq]

/-! ## Letting a root wait -/

theorem get?_insert (p : PendingIndex) (id j : BlockId) (root : RootId) (ix : Nat) :
    (p.insert id root ix).get? j =
      if id = j then some (Awaiting.add ((p.get? id).getD []) root ix) else p.get? j := by
  unfold insert get?
  rw [Std.ExtTreeMap.getElem?_insert]
  simp

theorem has_insert {id j : BlockId} {root : RootId} {ix : Nat} :
    (p.insert id root ix).Has j ↔ j = id ∨ p.Has j := by
  rw [has_iff_get?, has_iff_get?, get?_insert]
  by_cases h : id = j
  · simp [h]
  · simp [h, Ne.symm h]

theorem positions_insert (p : PendingIndex) (id j : BlockId) (root other : RootId) (ix : Nat) :
    (p.insert id root ix).positions j other =
      if id = j ∧ root = other then p.positions j other ++ [ix] else p.positions j other := by
  unfold positions
  rw [get?_insert]
  by_cases h : id = j
  · subst h
    rw [if_pos rfl, Option.getD_some, Awaiting.positions_add]
    by_cases hr : root = other
    · simp [hr]
    · simp [hr]
  · simp [h]

theorem insert_wf (hw : p.WF) (id : BlockId) (root : RootId) (ix : Nat) : (p.insert id root ix).WF := by
  intro j awaiting h
  rw [get?_insert] at h
  split at h
  · cases h
    cases hg : p.get? id with
    | none => exact Awaiting.add_wf (by simp [Table.keys]) (by simp) root ix
    | some awaiting => exact Awaiting.add_wf (hw id awaiting hg).nodup (hw id awaiting hg).filled root ix
  · exact hw j awaiting h

theorem waits_insert (p : PendingIndex) (id : BlockId) (root : RootId) (ix : Nat) :
    ((p.insert id root ix).waits root).Perm ((id, ix) :: p.waits root) := by
  rw [List.perm_iff_count]
  rintro ⟨j, i⟩
  rw [count_waits, positions_insert, List.count_cons, count_waits]
  by_cases h : id = j
  · subst h
    by_cases hi : ix = i
    · simp [hi]
    · simp [hi]
  · simp [h]

theorem waits_insert_of_ne {root other : RootId} (h : root ≠ other) (id : BlockId) (ix : Nat) :
    ((p.insert id root ix).waits other).Perm (p.waits other) := by
  apply waits_perm
  intro j
  rw [positions_insert, if_neg (fun hc => h hc.2)]

/-! ## Taking an entry out -/

/-- The index without the entry of `id`. -/
def without (p : PendingIndex) (id : BlockId) : PendingIndex := ⟨p.entries.erase id⟩

theorem get?_without (p : PendingIndex) (id j : BlockId) :
    (p.without id).get? j = if id = j then none else p.get? j := by
  unfold without get?
  rw [Std.ExtTreeMap.getElem?_erase]
  simp

theorem has_without {id j : BlockId} : (p.without id).Has j ↔ j ≠ id ∧ p.Has j := by
  rw [has_iff_get?, has_iff_get?, get?_without]
  by_cases h : id = j
  · simp [h]
  · simp [h, Ne.symm h]

theorem take_of_get? {id : BlockId} {awaiting : Awaiting} (h : p.get? id = some awaiting) :
    p.take id = (some awaiting, p.without id) := by
  unfold take
  rw [h]
  rfl

theorem take_of_not_has {id : BlockId} (h : ¬ p.Has id) : p.take id = (none, p) := by
  unfold take
  cases hg : p.get? id with
  | none => rfl
  | some awaiting => exact absurd ((has_iff_get? p id).2 ⟨awaiting, hg⟩) h

theorem positions_without (p : PendingIndex) (id j : BlockId) (root : RootId) :
    (p.without id).positions j root = if id = j then [] else p.positions j root := by
  unfold positions
  rw [get?_without]
  split <;> simp [Awaiting.positions, Table.get?]

theorem mem_positions_without {id j : BlockId} {root : RootId} {ix : Nat} :
    ix ∈ (p.without id).positions j root ↔ ix ∈ p.positions j root ∧ j ≠ id := by
  rw [positions_without]
  split
  · next heq => simp [heq]
  · next hne => simp [Ne.symm hne]

theorem without_wf (hw : p.WF) (id : BlockId) : (p.without id).WF := by
  intro j awaiting h
  rw [get?_without] at h
  split at h
  · cases h
  · exact hw j awaiting h

/-- A root waits for what it has under `id`, and for the rest. -/
theorem waits_split (p : PendingIndex) (id : BlockId) (root : RootId) :
    (p.waits root).Perm ((p.positions id root).map (id, ·) ++ (p.without id).waits root) := by
  rw [List.perm_iff_count]
  rintro ⟨j, ix⟩
  rw [List.count_append, count_waits, count_waits, positions_without]
  by_cases h : id = j
  · subst h
    have hinj : Function.Injective fun i : Nat => (id, i) := fun a b h => (Prod.mk.inj h).2
    rw [if_pos rfl, List.count_map_of_injective _ _ hinj]
    simp
  · have hz : ((p.positions id root).map (id, ·)).count (j, ix) = 0 := by
      rw [List.count_eq_zero]
      simp [h]
    rw [if_neg h, hz, Nat.zero_add]

/-! ## Withdrawing a root -/

theorem positions_withdraw (p : PendingIndex) (root other : RootId) (id j : BlockId) :
    (withdraw root p id).positions j other =
      if root = other ∧ id = j then [] else p.positions j other := by
  unfold withdraw
  cases hg : p.get? id with
  | none =>
    by_cases h : root = other ∧ id = j
    · obtain ⟨rfl, rfl⟩ := h
      simp [positions, hg, Awaiting.positions, Table.get?]
    · rw [if_neg h]
  | some awaiting =>
    have herase : (PendingIndex.mk (p.entries.insert id (awaiting.erase root))).positions j other =
        if root = other ∧ id = j then [] else p.positions j other := by
      unfold positions get? at *
      rw [Std.ExtTreeMap.getElem?_insert]
      simp only [Std.compare_eq_iff_eq]
      by_cases h : id = j
      · subst h
        rw [if_pos rfl, hg, Option.getD_some, Option.getD_some, Awaiting.positions_erase]
        simp
      · simp [h]
    dsimp only
    split
    · next hempty =>
      -- the entry goes as a whole, so nobody but `root` was left in it
      have hnil : awaiting.erase root = [] := List.isEmpty_iff.1 hempty
      rw [← herase, show (PendingIndex.mk (p.entries.erase id)) = p.without id from rfl, positions_without]
      unfold positions get?
      rw [Std.ExtTreeMap.getElem?_insert]
      simp only [Std.compare_eq_iff_eq]
      by_cases h : id = j
      · simp [h, hnil, Awaiting.positions, Table.get?]
      · simp [h]
    · exact herase

theorem withdraw_wf (hw : p.WF) (root : RootId) (id : BlockId) : (withdraw root p id).WF := by
  unfold withdraw
  cases hg : p.get? id with
  | none => exact hw
  | some awaiting =>
    dsimp only
    split
    · exact without_wf hw id
    · next hne =>
      intro j other h
      unfold get? at h
      rw [Std.ExtTreeMap.getElem?_insert] at h
      simp only [Std.compare_eq_iff_eq] at h
      split at h
      · cases h
        exact Awaiting.erase_wf (hw id awaiting hg) (fun hn => hne (List.isEmpty_iff.2 hn))
      · exact hw j other h

theorem removeRoot_wf (hw : p.WF) (root : RootId) (ids : List BlockId) : (p.removeRoot root ids).WF := by
  unfold removeRoot
  induction ids generalizing p with
  | nil => exact hw
  | cons id ids ih => exact ih (withdraw_wf hw root id)

theorem positions_removeRoot (p : PendingIndex) (root other : RootId) (ids : List BlockId) (j : BlockId) :
    (p.removeRoot root ids).positions j other =
      if root = other ∧ j ∈ ids then [] else p.positions j other := by
  unfold removeRoot
  induction ids generalizing p with
  | nil => simp
  | cons id ids ih =>
    rw [List.foldl_cons, ih, positions_withdraw]
    by_cases hr : root = other
    · by_cases hm : j ∈ ids
      · simp [hr, hm]
      · simp [hr, hm, eq_comm]
    · simp [hr]

theorem waits_removeRoot_of_ne {root other : RootId} (h : root ≠ other) (ids : List BlockId) :
    ((p.removeRoot root ids).waits other).Perm (p.waits other) := by
  apply waits_perm
  intro j
  rw [positions_removeRoot, if_neg (fun hc => h hc.1)]

/-- Withdrawing a root from all blocks that it waits for leaves it waiting for nothing. -/
theorem positions_removeRoot_self {root : RootId} {ids : List BlockId}
    (h : ∀ id, p.positions id root ≠ [] → id ∈ ids) (id : BlockId) :
    (p.removeRoot root ids).positions id root = [] := by
  rw [positions_removeRoot]
  by_cases hm : id ∈ ids
  · simp [hm]
  · simpa [hm] using fun hne => hm (h id hne)

/-- Withdrawing a root brings no block into the index. -/
theorem has_of_has_removeRoot (hw : p.WF) {root : RootId} {ids : List BlockId} {id : BlockId}
    (h : (p.removeRoot root ids).Has id) : p.Has id := by
  obtain ⟨other, ho⟩ := (has_iff_positions (removeRoot_wf hw root ids)).1 h
  rw [positions_removeRoot] at ho
  split at ho
  · exact absurd rfl ho
  · exact has_of_positions ho

/-- Withdrawing a root that waits for nothing takes no block out of the index. -/
theorem has_removeRoot_iff (hw : p.WF) {root : RootId} (hnone : ∀ id, p.positions id root = []) {ids : List BlockId}
    {id : BlockId} : (p.removeRoot root ids).Has id ↔ p.Has id := by
  refine ⟨has_of_has_removeRoot hw, fun hp => ?_⟩
  obtain ⟨other, hpos⟩ := (has_iff_positions hw).1 hp
  have hkept : (p.removeRoot root ids).positions id other ≠ [] := by
    rw [positions_removeRoot, if_neg]
    · exact hpos
    · rintro ⟨rfl, -⟩
      exact hpos (hnone id)
  exact has_of_positions hkept

end PendingIndex

end BlockDag
