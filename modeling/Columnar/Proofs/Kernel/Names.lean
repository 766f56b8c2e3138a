import Columnar.Kernel.Basic
import Mathlib.Data.List.Basic

/-!
# The names of kernels

A kernel publishes its two passes under names that consist of a fixed text, its number in
decimal digits, an underscore, and the name of its field, which may be any text.  The number
can be read off: it ends where the digits end, and the two fixed texts part at a character that
is not a digit.  So kernels of different numbers have no name in common, whatever their fields.

* `Kernel.disjoint_names` -- the names of kernels of different numbers.
-/

namespace Columnar

namespace Kernel

variable {number number' : Nat} {field field' name : String}

/-- The names of the two passes of a kernel. -/
def names (number : Nat) (field : String) : List String :=
  [s!"filter_{number}_{field}", s!"filter_remaining_{number}_{field}"]

/-- A kernel publishes its passes under its names, and nothing else. -/
theorem map_fst_exports (number : Nat) (field : String) :
    (exports number field).map Prod.fst = names number field := rfl

theorem mem_names_iff :
    name ∈ names number field ↔
      name = bulkName number field ∨ name = boundaryName number field := by
  rw [← map_fst_exports]
  simp [exports]

/-- The characters behind the first fixed text: the number, an underscore and the field. -/
def nameTail (number : Nat) (field : String) : List Char :=
  Nat.toDigits 10 number ++ '_' :: field.toList

theorem toList_bulkName (number : Nat) (field : String) :
    (bulkName number field).toList = "filter_".toList ++ nameTail number field := by
  have hName : bulkName number field = "filter_" ++ Nat.repr number ++ "_" ++ field := rfl
  simp [hName, nameTail]

theorem toList_boundaryName (number : Nat) (field : String) :
    (boundaryName number field).toList =
      "filter_".toList ++ ("remaining_".toList ++ nameTail number field) := by
  have hName : boundaryName number field =
      "filter_remaining_" ++ Nat.repr number ++ "_" ++ field := by
    unfold boundaryName
    rfl
  simp [hName, nameTail]

/-- The digits at the front are those of the number. -/
theorem takeWhile_nameTail (number : Nat) (field : String) :
    (nameTail number field).takeWhile Char.isDigit = Nat.toDigits 10 number := by
  rw [nameTail, List.takeWhile_append_of_pos fun c hc =>
    Nat.isDigit_of_mem_toDigits (by decide) (by decide) hc]
  exact List.append_nil _

theorem number_eq_of_nameTail_eq (h : nameTail number field = nameTail number' field') :
    number = number' := by
  have hDigits := congrArg (List.takeWhile Char.isDigit) h
  rw [takeWhile_nameTail, takeWhile_nameTail] at hDigits
  have hNumber := congrArg (fun digits => Nat.ofDigitChars 10 digits 0) hDigits
  simpa using hNumber

/-- No name of a bulk pass is one of a boundary pass. -/
theorem bulkName_ne_boundaryName : bulkName number field ≠ boundaryName number' field' := by
  intro h
  have hList := congrArg String.toList h
  rw [toList_bulkName, toList_boundaryName] at hList
  -- The one goes on with digits and the other one with a letter.
  have hDigits := congrArg (List.takeWhile Char.isDigit) (List.append_cancel_left hList)
  rw [takeWhile_nameTail] at hDigits
  exact Nat.toDigits_ne_nil hDigits

/-- A name of a kernel tells its number. -/
theorem number_eq_of_mem_names (h : name ∈ names number field) (h' : name ∈ names number' field') :
    number = number' := by
  rcases mem_names_iff.mp h with rfl | rfl <;> rcases mem_names_iff.mp h' with hName | hName
  · have hList := congrArg String.toList hName
    rw [toList_bulkName, toList_bulkName] at hList
    exact number_eq_of_nameTail_eq (List.append_cancel_left hList)
  · exact absurd hName bulkName_ne_boundaryName
  · exact absurd hName.symm bulkName_ne_boundaryName
  · have hList := congrArg String.toList hName
    rw [toList_boundaryName, toList_boundaryName] at hList
    exact number_eq_of_nameTail_eq (List.append_cancel_left (List.append_cancel_left hList))

/-- Kernels of different numbers have no name in common. -/
theorem disjoint_names (h : number ≠ number') (field field' : String) :
    (names number field).Disjoint (names number' field') :=
  fun _ hName hName' => h (number_eq_of_mem_names hName hName')

/-- A field that looks like the name of a boundary pass does not mislead. -/
example : bulkName 1 "remaining_2_a" ≠ boundaryName 1 "2_a" := by decide

end Kernel

end Columnar
