/-
Laws of tables whose keys are distinct: a pair of the table is what reading its key answers, every
operation keeps the keys distinct, and the order of the pairs plays no part in reading.
-/
import BlockDag.Table
import Mathlib.Data.List.Nodup
import Mathlib.Data.List.Perm.Basic

namespace BlockDag.Table

variable {κ ν : Type} [DecidableEq κ]

theorem mem_of_get? {t : Table κ ν} {k : κ} {v : ν} (h : t.get? k = some v) : (k, v) ∈ t := by
  induction t with
  | nil => cases h
  | cons e t ih =>
    obtain ⟨j, w⟩ := e
    by_cases hj : j = k
    · subst hj
      rw [get?, if_pos rfl] at h
      cases h
      exact List.mem_cons_self
    · rw [get?, if_neg hj] at h
      exact List.mem_cons_of_mem _ (ih h)

theorem mem_keys_of_get? {t : Table κ ν} {k : κ} {v : ν} (h : t.get? k = some v) : k ∈ t.keys :=
  List.mem_map.2 ⟨_, mem_of_get? h, rfl⟩

theorem get?_eq_none_iff {t : Table κ ν} {k : κ} : t.get? k = none ↔ k ∉ t.keys := by
  rw [← Option.not_isSome_iff_eq_none, ← has_iff_get?]
  rfl

theorem get?_isSome_of_mem {t : Table κ ν} {e : κ × ν} (h : e ∈ t) : (t.get? e.1).isSome :=
  (has_iff_get? t e.1).1 (List.mem_map.2 ⟨e, h, rfl⟩)

theorem get?_of_mem {t : Table κ ν} (hd : t.keys.Nodup) {k : κ} {v : ν} (h : (k, v) ∈ t) :
    t.get? k = some v := by
  obtain ⟨w, hw⟩ := Option.isSome_iff_exists.1 (get?_isSome_of_mem h)
  have he := List.inj_on_of_nodup_map hd (mem_of_get? hw) h rfl
  cases he
  exact hw

theorem get?_eq_some_iff {t : Table κ ν} (hd : t.keys.Nodup) {k : κ} {v : ν} :
    t.get? k = some v ↔ (k, v) ∈ t :=
  ⟨mem_of_get?, get?_of_mem hd⟩

/-- Reading does not depend on the order of the pairs. -/
theorem get?_perm {t u : Table κ ν} (hp : t.Perm u) (hd : t.keys.Nodup) (k : κ) :
    t.get? k = u.get? k := by
  have hu : u.keys.Nodup := (hp.map Prod.fst).nodup_iff.1 hd
  ext v
  rw [get?_eq_some_iff hd, get?_eq_some_iff hu, hp.mem_iff]

/-- Where values are turned into others or left out, reading a key answers what became of its value. -/
theorem get?_filterMap {μ : Type} {t : Table κ ν} (hd : t.keys.Nodup) (f : ν → Option μ) (k : κ) :
    get? k (t.filterMap fun e => (f e.2).map fun w => (e.1, w)) = (t.get? k).bind f := by
  induction t with
  | nil => rfl
  | cons e t ih =>
    obtain ⟨j, v⟩ := e
    obtain ⟨hj, hd⟩ := List.nodup_cons.1 hd
    rw [List.filterMap_cons]
    by_cases h : j = k
    · subst h
      cases hf : f v with
      | none =>
        -- the key occurs once, so nothing is left at it
        simp only [Option.map_none, ih hd, get?, if_true, Option.bind_some, hf, get?_eq_none_iff.2 hj, Option.bind_none]
      | some w => simp [get?, hf]
    · cases hf : f v <;> simp [get?, h, ih hd]

theorem nodup_filterMap {μ : Type} {t : Table κ ν} (hd : t.keys.Nodup) (f : ν → Option μ) :
    (keys (t.filterMap fun e => (f e.2).map fun w => (e.1, w))).Nodup := by
  induction t with
  | nil => simp [keys]
  | cons e t ih =>
    obtain ⟨j, v⟩ := e
    obtain ⟨hj, hd⟩ := List.nodup_cons.1 hd
    rw [List.filterMap_cons]
    cases hf : f v with
    | none => exact ih hd
    | some w =>
      refine List.nodup_cons.2 ⟨?_, ih hd⟩
      intro hm
      obtain ⟨u, hu⟩ := Option.isSome_iff_exists.1 ((has_iff_get? _ j).1 hm)
      rw [get?_filterMap hd, get?_eq_none_iff.2 hj] at hu
      cases hu

/-! ## Inserting -/

theorem get?_insert_eq_some_iff {t : Table κ ν} {k j : κ} {v w : ν} :
    (t.insert k v).get? j = some w ↔ k = j ∧ w = v ∨ k ≠ j ∧ t.get? j = some w := by
  rw [get?_insert]
  by_cases h : k = j
  · simp [h, eq_comm]
  · simp [h]

theorem mem_keys_insert {t : Table κ ν} {k j : κ} {v : ν} :
    j ∈ (t.insert k v).keys ↔ j = k ∨ j ∈ t.keys := by
  rw [← not_iff_not, ← get?_eq_none_iff, get?_insert, not_or, ← get?_eq_none_iff]
  by_cases h : k = j
  · simp [h]
  · simp [h, Ne.symm h]

theorem mem_insert {t : Table κ ν} {k : κ} {v : ν} {e : κ × ν} (h : e ∈ t.insert k v) :
    e = (k, v) ∨ e ∈ t := by
  induction t with
  | nil => exact .inl (List.mem_singleton.1 h)
  | cons f t ih =>
    obtain ⟨j, w⟩ := f
    rw [insert] at h
    split at h
    · next hj =>
      subst hj
      rcases List.mem_cons.1 h with rfl | h
      · exact .inl rfl
      · exact .inr (List.mem_cons_of_mem _ h)
    · rcases List.mem_cons.1 h with rfl | h
      · exact .inr List.mem_cons_self
      · exact (ih h).imp_right (List.mem_cons_of_mem _)

theorem insert_ne_nil (t : Table κ ν) (k : κ) (v : ν) : t.insert k v ≠ [] := by
  cases t with
  | nil => simp [insert]
  | cons e t =>
    rw [insert]
    split <;> simp

theorem nodup_insert {t : Table κ ν} (hd : t.keys.Nodup) (k : κ) (v : ν) : (t.insert k v).keys.Nodup := by
  induction t with
  | nil => simp [insert, keys]
  | cons e t ih =>
    obtain ⟨j, w⟩ := e
    have hc := List.nodup_cons.1 hd
    by_cases hj : j = k
    · rw [insert, if_pos hj]
      exact hd
    · rw [insert, if_neg hj]
      refine List.nodup_cons.2 ⟨?_, ih hc.2⟩
      intro hm
      rcases mem_keys_insert.1 hm with rfl | hm
      · exact hj rfl
      · exact hc.1 hm

/-- A new value at a key that is there moves no key. -/
theorem keys_insert_of_mem {t : Table κ ν} {k : κ} (h : k ∈ t.keys) (v : ν) :
    (t.insert k v).keys = t.keys := by
  induction t with
  | nil => cases h
  | cons e t ih =>
    obtain ⟨j, w⟩ := e
    by_cases hj : j = k
    · rw [insert, if_pos hj]
      rfl
    · rw [insert, if_neg hj]
      have hk : k ∈ keys t := (List.mem_cons.1 h).resolve_left (Ne.symm hj)
      exact congrArg (j :: ·) (ih hk)

/-! ## Erasing -/

theorem get?_erase_eq_some_iff {t : Table κ ν} {k j : κ} {v : ν} :
    (t.erase k).get? j = some v ↔ k ≠ j ∧ t.get? j = some v := by
  rw [get?_erase]
  by_cases h : k = j
  · simp [h]
  · simp [h]

theorem mem_erase {t : Table κ ν} {k : κ} {e : κ × ν} : e ∈ t.erase k ↔ e ∈ t ∧ e.1 ≠ k := by
  simp [erase]

theorem nodup_erase {t : Table κ ν} (hd : t.keys.Nodup) (k : κ) : (t.erase k).keys.Nodup :=
  hd.sublist (List.filter_sublist.map _)

theorem length_erase_lt {t : Table κ ν} {k : κ} (h : k ∈ t.keys) : (t.erase k).length < t.length := by
  obtain ⟨e, he, rfl⟩ := List.mem_map.1 h
  refine Nat.lt_of_le_of_ne (List.length_filter_le _ _) ?_
  intro heq
  have := List.length_filter_eq_length_iff.1 heq e he
  simp at this

end BlockDag.Table
