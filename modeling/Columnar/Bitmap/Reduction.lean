import Columnar.Bitmap.Basic

/-!
# Conjunction of many bitmaps

Bitmaps over the same rows are combined into the first of them, one region of bytes
at a time: within a region every other bitmap is applied before the next region is
begun, so a region stays at hand while it is worked on.
-/

namespace Columnar

/-- Bytes of one region. -/
def regionSize : Nat := 65536

/-- Keeps of `count` bytes from `start` on only the bits that `source` has too. -/
def andRange (source : Array UInt8) (start count : Nat) (bytes : Array UInt8) :
    Array UInt8 :=
  (List.range' start count).foldl
    (fun bytes i => bytes.modify i (· &&& source[i]?.getD 0xff)) bytes

@[simp]
theorem size_andRange (source : Array UInt8) (start count : Nat) (bytes : Array UInt8) :
    (andRange source start count bytes).size = bytes.size := by
  unfold andRange
  induction List.range' start count generalizing bytes with
  | nil => rfl
  | cons i rest ih =>
      rw [List.foldl_cons, ih, Array.size_modify]

/-- Applies every source to one region. -/
def andRegion (sources : List (Array UInt8)) (bytes : Array UInt8) (region : Nat) :
    Array UInt8 :=
  let start := region * regionSize
  let count := min regionSize (bytes.size - start)
  sources.foldl (fun bytes source => andRange source start count bytes) bytes

@[simp]
theorem size_andRegion (sources : List (Array UInt8)) (bytes : Array UInt8) (region : Nat) :
    (andRegion sources bytes region).size = bytes.size := by
  have hFold : ∀ (start count : Nat) (current : Array UInt8),
      (sources.foldl (fun bytes source => andRange source start count bytes) current).size =
        current.size := by
    intro start count
    induction sources with
    | nil => intro current; rfl
    | cons source rest ih =>
        intro current
        rw [List.foldl_cons, ih, size_andRange]
  exact hFold _ _ bytes

/-- Applies every source to every region. -/
def andRegions (sources : List (Array UInt8)) (bytes : Array UInt8) : Array UInt8 :=
  (List.range ((bytes.size + regionSize - 1) / regionSize)).foldl (andRegion sources) bytes

@[simp]
theorem size_andRegions (sources : List (Array UInt8)) (bytes : Array UInt8) :
    (andRegions sources bytes).size = bytes.size := by
  unfold andRegions
  generalize List.range ((bytes.size + regionSize - 1) / regionSize) = regions
  induction regions generalizing bytes with
  | nil => rfl
  | cons region rest ih => rw [List.foldl_cons, ih, size_andRegion]

/-- The conjunction of a list of bitmaps; there is none of the empty list. -/
def Bitmap.andReduce? : List Bitmap → Option Bitmap
  | [] => none
  | b :: others =>
      some (b.withBytes (andRegions (others.map Bitmap.bytes) b.bytes) (size_andRegions ..))

end Columnar
