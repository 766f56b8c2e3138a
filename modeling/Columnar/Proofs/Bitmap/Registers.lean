import Columnar.Proofs.Bitmap.View

/-!
# Bitmaps in registers

A program over bitmaps makes new ones, changes bits and whole bytes of the ones it has, and
combines them.  `BitStore` is what such a program needs of its bitmaps, and it has two
instances: packed bytes, and lists of booleans that know nothing of bytes or padding.  Every
program runs alike on both.

* `Bitmap.Operation.run_toList` -- one operation on packed bytes is the operation on lists.
* `Bitmap.run_toList` -- so is every program.
* `Bitmap.Readable` -- how a packed bitmap is read: bit by bit, counted, and by its set rows.
* `Bitmap.programs_agree` -- every program, and every bitmap that it can leave.
-/

namespace Columnar

/-- The operations on bits that are kept in some form. -/
structure BitStore (β : Type) where
  length : β → Nat
  allSet : Nat → β
  allClear : Nat → β
  ofBools : List Bool → β
  ofBytes : Array UInt8 → Nat → β
  set : β → Nat → Bool → β
  setByte : β → Nat → UInt8 → β
  and : β → β → β
  or : β → β → β

namespace BitStore

/-- Eight bits to a byte. -/
def packed : BitStore Bitmap where
  length := Bitmap.length
  allSet := Bitmap.allSet
  allClear := Bitmap.allClear
  ofBools := Bitmap.ofBools
  ofBytes := Bitmap.ofBytes
  set := Bitmap.set
  setByte := Bitmap.setByte
  and := Bitmap.and
  or := Bitmap.or

/-- A list of booleans.  Of a byte it takes the bits that it has rows for, the first one from
the high end, and a missing byte is all ones. -/
def plain : BitStore (List Bool) where
  length := List.length
  allSet length := List.replicate length true
  allClear length := List.replicate length false
  ofBools bits := bits
  ofBytes bytes length :=
    (List.range length).map fun i => (bytes[i / 8]?.getD 0xff).toNat.testBit (7 - i % 8)
  set := List.set
  setByte bits index byte :=
    bits.mapIdx fun i bit => if i / 8 = index then byte.toNat.testBit (7 - i % 8) else bit
  and := List.zipWith (· && ·)
  or := List.zipWith (· || ·)

end BitStore

namespace Bitmap

/-- One operation of a program.  New bitmaps go into the next free register. -/
inductive Operation where
  | allSet (length : Nat)
  | allClear (length : Nat)
  | ofBools (bits : List Bool)
  | ofBytes (bytes : Array UInt8) (length : Nat)
  | copy (source : Nat)
  | set (target i : Nat) (value : Bool)
  | setByte (target index : Nat) (byte : UInt8)
  | and (target other : Nat)
  | or (target other : Nat)

section

variable {β : Type}

/-- Changes the content of a register. -/
def change (registers : List β) (target : Nat) (f : β → Option β) : Option (List β) :=
  registers[target]?.bind fun content => (f content).map (registers.set target)

/-- Combines the content of a register with that of another one of the same length. -/
def combine (s : BitStore β) (registers : List β) (target other : Nat) (f : β → β → β) :
    Option (List β) :=
  registers[other]?.bind fun source => change registers target fun b =>
    if s.length b = s.length source then some (f b source) else none

/-- The registers after an operation.  There is no outcome when a register, a row or a byte is
not there, and when bitmaps of different lengths are combined. -/
def Operation.run (s : BitStore β) (registers : List β) : Operation → Option (List β)
  | allSet length => some (registers ++ [s.allSet length])
  | allClear length => some (registers ++ [s.allClear length])
  | ofBools bits => some (registers ++ [s.ofBools bits])
  | ofBytes bytes length => some (registers ++ [s.ofBytes bytes length])
  | copy source => registers[source]?.map fun b => registers ++ [b]
  | set target i value => change registers target fun b =>
      if i < s.length b then some (s.set b i value) else none
  | setByte target index byte => change registers target fun b =>
      if index < bytesFor (s.length b) then some (s.setByte b index byte) else none
  | and target other => combine s registers target other s.and
  | or target other => combine s registers target other s.or

/-- The registers after a program. -/
def run (s : BitStore β) (registers : List β) (program : List Operation) : Option (List β) :=
  program.foldlM (Operation.run s) registers

end

/-- A change through the view is a change of the view. -/
theorem change_toList {f : Bitmap → Option Bitmap} {g : List Bool → Option (List Bool)}
    (h : ∀ b, (f b).map toList = g b.toList) (registers : List Bitmap) (target : Nat) :
    (change registers target f).map (List.map toList) =
      change (registers.map toList) target g := by
  rw [change, change, List.getElem?_map]
  cases registers[target]? with
  | none => rfl
  | some b =>
      rw [Option.map_some, Option.bind_some, Option.bind_some, ← h b, Option.map_map,
        Option.map_map]
      exact congrArg (Option.map · (f b)) (funext fun _ => List.map_set)

theorem combine_toList {f : Bitmap → Bitmap → Bitmap}
    {g : List Bool → List Bool → List Bool}
    (h : ∀ b source, b.length = source.length → (f b source).toList = g b.toList source.toList)
    (registers : List Bitmap) (target other : Nat) :
    (combine .packed registers target other f).map (List.map toList) =
      combine .plain (registers.map toList) target other g := by
  rw [combine, combine, List.getElem?_map]
  cases registers[other]? with
  | none => rfl
  | some source =>
      refine change_toList (fun b => ?_) registers target
      by_cases hLength : b.length = source.length
      · simp [BitStore.packed, BitStore.plain, hLength, h b source hLength]
      · simp [BitStore.packed, BitStore.plain, hLength]

/-- An operation on packed bytes is the operation on lists, and has an outcome exactly when
that one has. -/
theorem Operation.run_toList (operation : Operation) (registers : List Bitmap) :
    (operation.run .packed registers).map (List.map toList) =
      operation.run .plain (registers.map toList) := by
  have hMade : ∀ (b : Bitmap) (bits : List Bool), b.toList = bits →
      (some (registers ++ [b])).map (List.map toList) =
        some (registers.map toList ++ [bits]) := by
    rintro b _ rfl
    exact congrArg some List.map_append
  cases operation with
  | allSet length => exact hMade _ _ (toList_allSet length)
  | allClear length => exact hMade _ _ (toList_allClear length)
  | ofBools bits => exact hMade _ _ (toList_ofBools bits)
  | ofBytes bytes length => exact hMade _ _ (toList_ofBytes bytes length)
  | copy source =>
      rw [run, run, List.getElem?_map]
      cases registers[source]? with
      | none => rfl
      | some b => exact hMade b _ rfl
  | set target i value =>
      refine change_toList (fun b => ?_) registers target
      by_cases hRow : i < b.length
      · simp [BitStore.packed, BitStore.plain, hRow, toList_set hRow]
      · simp [BitStore.packed, BitStore.plain, hRow]
  | setByte target index byte =>
      refine change_toList (fun b => ?_) registers target
      by_cases hByte : index < bytesFor b.length
      · have hBytes := toList_setByte (b := b) (by rwa [b.size_eq]) byte
        simp [BitStore.packed, BitStore.plain, hByte, hBytes, Byte.bit]
      · simp [BitStore.packed, BitStore.plain, hByte]
  | and target other => exact combine_toList (fun _ _ => toList_and) registers target other
  | or target other => exact combine_toList (fun _ _ => toList_or) registers target other

/-- A program on packed bytes is the program on lists. -/
theorem run_toList (program : List Operation) (registers : List Bitmap) :
    (run .packed registers program).map (List.map toList) =
      run .plain (registers.map toList) program := by
  induction program generalizing registers with
  | nil => rfl
  | cons operation rest ih =>
      rw [run, run, List.foldlM_cons, List.foldlM_cons, ← operation.run_toList registers]
      cases operation.run .packed registers with
      | none => rfl
      | some next => exact ih next

/-- How a packed bitmap is read. -/
structure Readable (b : Bitmap) : Prop where
  /-- There are as many bytes as the rows need, eight of them to a byte. -/
  size_bytes : b.bytes.size = (b.length + 7) / 8
  /-- A row has its bit in the byte of its group, the first row of the group at the high end. -/
  get_eq : ∀ i < b.length, ∃ byte, b.bytes[i / 8]? = some byte ∧
    b.get i = byte.toNat.testBit (7 - i % 8)
  toList_eq : b.toList = (List.range b.length).map b.get
  count_eq : b.count = (List.range b.length).countP b.get
  length_setIndices : b.setIndices.length = b.count
  mem_setIndices : ∀ i, i ∈ b.setIndices ↔ i < b.length ∧ b.get i = true
  ascending : b.setIndices.Pairwise (· < ·)

theorem readable (b : Bitmap) : b.Readable where
  size_bytes := b.size_eq
  get_eq i hi := by
    have hByte := Array.getElem?_eq_getElem (lt_size hi)
    refine ⟨_, hByte, ?_⟩
    rw [get, hByte, Option.getD_some, Byte.bit]
  toList_eq := rfl
  count_eq := b.count_eq_countP
  length_setIndices := b.length_setIndices
  mem_setIndices := b.mem_setIndices
  ascending := b.pairwise_setIndices

/-- A program that starts without bitmaps has an outcome on packed bytes exactly when it has
one on lists of booleans, the bitmaps that it leaves read as those lists, and each of them is
counted and searched as it is read. -/
theorem programs_agree (program : List Operation) :
    (run .packed [] program).map (List.map toList) = run .plain [] program ∧
      ∀ registers, run .packed [] program = some registers → ∀ b ∈ registers, b.Readable :=
  ⟨run_toList program [], fun _ _ b _ => b.readable⟩

/-- Padding that is set by a whole byte is carried through a disjunction and never read. -/
example :
    (run .packed [] [.allClear 11, .setByte 0 1 0xff, .ofBools (List.replicate 11 false),
      .or 1 0]).map (List.map count) = some [3, 3] := by
  decide +kernel

end Bitmap

end Columnar
