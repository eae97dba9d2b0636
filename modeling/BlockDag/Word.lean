/-
Arithmetic of 64-bit numbers: sums and products that stop at the largest number instead of passing
it, and operations that have no result where it would be no such number.
-/
namespace BlockDag.Word

/-- The largest 64-bit number. -/
def max : Nat := 0xffffffffffffffff

/-- The sum, or `max` where it is larger. -/
def satAdd (a b : Nat) : Nat := min (a + b) max

/-- The product, or `max` where it is larger. -/
def satMul (a b : Nat) : Nat := min (a * b) max

theorem satAdd_le (a b : Nat) : satAdd a b ≤ max := Nat.min_le_right _ _

theorem satAdd_eq {a b : Nat} (h : a + b ≤ max) : satAdd a b = a + b := Nat.min_eq_left h

/-! ## Operations without a result -/

/-- The sum, if it is a 64-bit number. -/
def add? (a b : Nat) : Option Nat := if a + b ≤ max then some (a + b) else none

/-- The product, if it is a 64-bit number. -/
def mul? (a b : Nat) : Option Nat := if a * b ≤ max then some (a * b) else none

/-- The difference, if it is not negative. -/
def sub? (a b : Nat) : Option Nat := if b ≤ a then some (a - b) else none

/-- The quotient, unless it is by 0. -/
def div? (a b : Nat) : Option Nat := if 0 < b then some (a / b) else none

/-- The remainder, unless it is by 0. -/
def mod? (a b : Nat) : Option Nat := if 0 < b then some (a % b) else none

/-- The quotient rounded up, unless it is by 0. -/
def divUp? (a b : Nat) : Option Nat := do
  let quotient ← div? a b
  let rest ← mod? a b
  if 0 < rest then add? quotient 1 else return quotient

theorem add?_eq {a b : Nat} (h : a + b ≤ max) : add? a b = some (a + b) := if_pos h

theorem mul?_eq {a b : Nat} (h : a * b ≤ max) : mul? a b = some (a * b) := if_pos h

theorem sub?_eq {a b : Nat} (h : b ≤ a) : sub? a b = some (a - b) := if_pos h

theorem div?_eq {b : Nat} (a : Nat) (h : 0 < b) : div? a b = some (a / b) := if_pos h

theorem mod?_eq {b : Nat} (a : Nat) (h : 0 < b) : mod? a b = some (a % b) := if_pos h

end BlockDag.Word
