/-
Tables with at most one value a key, in the order in which the keys came in. Reading a table after
a change is reading it before at every other key.
-/
namespace BlockDag

/-- Keys with their values, oldest key first. -/
abbrev Table (κ ν : Type) := List (κ × ν)

namespace Table

variable {κ ν : Type} [DecidableEq κ]

/-- The value at `k`. -/
def get? (k : κ) : Table κ ν → Option ν
  | [] => none
  | (j, v) :: t => if j = k then some v else get? k t

/-- Whether `k` has a value. -/
def Has (t : Table κ ν) (k : κ) : Prop := k ∈ t.map (·.1)

theorem has_iff_get? (t : Table κ ν) (k : κ) : t.Has k ↔ (t.get? k).isSome := by
  induction t with
  | nil => simp [Has, get?]
  | cons e t ih =>
    obtain ⟨i, w⟩ := e
    unfold Has at ih ⊢
    by_cases h : i = k
    · simp [get?, h]
    · simp [get?, h, ih, Ne.symm h]

instance (t : Table κ ν) (k : κ) : Decidable (t.Has k) :=
  decidable_of_iff _ (has_iff_get? t k).symm

/-- Puts `v` at `k`; a new key goes last. -/
def insert (k : κ) (v : ν) : Table κ ν → Table κ ν
  | [] => [(k, v)]
  | (j, w) :: t => if j = k then (j, v) :: t else (j, w) :: insert k v t

/-- Takes `k` out. -/
def erase (k : κ) (t : Table κ ν) : Table κ ν := t.filter fun e => decide (e.1 ≠ k)

/-- The keys, oldest first. -/
def keys (t : Table κ ν) : List κ := t.map (·.1)

theorem get?_insert (t : Table κ ν) (k j : κ) (v : ν) :
    (t.insert k v).get? j = if k = j then some v else t.get? j := by
  induction t with
  | nil => simp [insert, get?]
  | cons e t ih =>
    obtain ⟨i, w⟩ := e
    by_cases h : i = k
    · subst h; by_cases hj : i = j <;> simp [insert, get?, hj]
    · by_cases hj : i = j
      · subst hj; simp [insert, get?, h, Ne.symm h]
      · simp [insert, get?, h, hj, ih]

theorem get?_erase (t : Table κ ν) (k j : κ) :
    (t.erase k).get? j = if k = j then none else t.get? j := by
  induction t with
  | nil => simp [erase, get?]
  | cons e t ih =>
    obtain ⟨i, w⟩ := e
    unfold erase at ih ⊢
    by_cases h : i = k
    · subst h; by_cases hj : i = j <;> simp_all [get?]
    · by_cases hj : i = j
      · subst hj; simp [get?, h, Ne.symm h]
      · simpa [get?, h, hj] using ih

end Table

end BlockDag
