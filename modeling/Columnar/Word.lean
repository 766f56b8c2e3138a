/-!
# Machine words

Numbers of rows, places of rows and byte addresses are machine words of 64 bits, and
their sums and products wrap at `2 ^ 64`.  Words are kept as numbers here, so that a
result which does not wrap is the plain sum or product.

A loop that counts up to a word reads it as a signed one.
-/

namespace Columnar

-- A power of numbers is the same term in every module, whatever else the module imports.
attribute [instance (2000), default_instance 20000] instPowNat

/-- The sum of numbers, which does not wrap. -/
def total : List Nat → Nat
  | [] => 0
  | n :: rest => n + total rest

@[simp]
theorem total_nil : total [] = 0 := rfl

@[simp]
theorem total_cons (n : Nat) (rest : List Nat) : total (n :: rest) = n + total rest := rfl

@[simp]
theorem total_append (l rest : List Nat) : total (l ++ rest) = total l + total rest := by
  induction l with
  | nil => simp
  | cons n l ih => simp [ih, Nat.add_assoc]

theorem length_flatMap_eq_total {α β : Type} (l : List α) (f : α → List β) :
    (l.flatMap f).length = total (l.map fun a => (f a).length) := by
  induction l with
  | nil => rfl
  | cons a rest ih => rw [List.flatMap_cons, List.length_append, ih, List.map_cons, total_cons]

/-- The sum of two machine words. -/
def wordAdd (a b : Nat) : Nat :=
  (a + b) % 2 ^ 64

/-- The product of two machine words. -/
def wordMul (a b : Nat) : Nat :=
  a * b % 2 ^ 64

/-- The sum of a list of machine words. -/
def wordSum (ns : List Nat) : Nat :=
  total ns % 2 ^ 64

/-- How many steps a loop takes that counts from zero to `n`.  A word of `2 ^ 63` or
more is negative when it is read as a signed one, and the loop takes no step. -/
def signedSteps (n : Nat) : Nat :=
  if n < 2 ^ 63 then n else 0

theorem wordAdd_eq_add {a b : Nat} (h : a + b < 2 ^ 64) : wordAdd a b = a + b :=
  Nat.mod_eq_of_lt h

theorem wordMul_eq_mul {a b : Nat} (h : a * b < 2 ^ 64) : wordMul a b = a * b :=
  Nat.mod_eq_of_lt h

/-- Among elements that lie back to back in few enough bytes every one has its place: the
product of its position and the width does not wrap. -/
theorem wordMul_add_le {length width size i : Nat} (hSize : size = length * width)
    (hBytes : size < 2 ^ 63) (hi : i < length) :
    wordMul i width = i * width ∧ i * width + width ≤ size := by
  have hNext : (i + 1) * width ≤ length * width := Nat.mul_le_mul_right _ hi
  rw [Nat.add_one_mul] at hNext
  exact ⟨wordMul_eq_mul (by omega), by omega⟩

theorem wordSum_eq_total {ns : List Nat} (h : total ns < 2 ^ 64) : wordSum ns = total ns :=
  Nat.mod_eq_of_lt h

theorem signedSteps_of_lt {n : Nat} (h : n < 2 ^ 63) : signedSteps n = n :=
  if_pos h

end Columnar
