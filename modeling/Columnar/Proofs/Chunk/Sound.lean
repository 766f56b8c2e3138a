import Columnar.Proofs.Chunk.Construction
import Columnar.Proofs.Chunk.Text

/-!
# Built chunks are sound

Every way to build a chunk gives it bytes, offsets and validity that agree with its length.

Lengths are machine words here.  Taken as words they agree whatever their size; taken as numbers
they agree as long as no product of them wraps and no text outgrows its offsets.

* `Chunk.Sound` -- the parts of a chunk agree with its length.
* `Chunk.sound_ofRaw`, `Chunk.sound_ofStrings` and the like -- one for each way to build one.
-/

namespace Columnar

/-- The parts of a chunk agree with its length. -/
structure Chunk.Sound (c : Chunk) : Prop where
  bytes_word : ∀ width, c.type.width? = some width →
    c.bytes.size % 2 ^ 64 = wordMul c.length width
  bytes_size : ∀ width, c.type.width? = some width → c.length * width < 2 ^ 64 →
    c.bytes.size = c.length * width
  offsets_size : c.type = .utf8 → c.offsets.size = c.length + 1
  offsets_ascend : c.type = .utf8 → c.bytes.size < 2 ^ 32 →
    c.offsets.toList.Pairwise fun place later => place.toNat ≤ later.toNat
  offsets_last : c.type = .utf8 → c.bytes.size < 2 ^ 32 →
    ∃ last, c.offsets.toList.getLast? = some last ∧ last.toNat = c.bytes.size
  validity_length : ∀ v, c.validity = some v → v.length = c.length

namespace Chunk

variable {t : DataType}

/-- A chunk that is not of text has no places of strings to agree with, and the number of its
bytes is a product of numbers or of words. -/
theorem sound_of_isFixedWidth {c : Chunk} (hFixed : c.type.isFixedWidth = true)
    (hSize : c.bytes.size = c.length * c.type.width ∨
      c.bytes.size = wordMul c.length c.type.width)
    (hValidity : ∀ v, c.validity = some v → v.length = c.length) : c.Sound := by
  have hText := ne_utf8_of_isFixedWidth hFixed
  constructor
  case bytes_word =>
    intro width hWidth
    obtain ⟨-, rfl⟩ := (DataType.width?_eq_some_iff c.type width).mp hWidth
    rcases hSize with hSize | hSize
    · rw [hSize, wordMul]
    · rw [hSize, wordMul, Nat.mod_mod]
  case bytes_size =>
    intro width hWidth hWord
    obtain ⟨-, rfl⟩ := (DataType.width?_eq_some_iff c.type width).mp hWidth
    rcases hSize with hSize | hSize
    · exact hSize
    · rw [hSize, wordMul_eq_mul hWord]
  case offsets_size => exact fun hType => absurd hType hText
  case offsets_ascend => exact fun hType => absurd hType hText
  case offsets_last => exact fun hType => absurd hType hText
  case validity_length => exact hValidity

theorem sound_ofValues (hFixed : t.isFixedWidth = true) (values : List (Native t)) :
    (ofValues t values).Sound := by
  refine sound_of_isFixedWidth hFixed (.inl ?_) nofun
  rw [ofValues, size_encode, List.length_map]

theorem sound_ofOptions (hFixed : t.isFixedWidth = true) (values : List (Option (Native t))) :
    (ofOptions t values).Sound := by
  refine sound_of_isFixedWidth hFixed (.inl ?_) fun v hv => ?_
  · rw [ofOptions, size_encode, List.length_map]
  · obtain rfl := Option.some.inj hv
    rw [length_foldl_absent]
    rfl

theorem sound_ofRaw {n : Nat} {bytes : Array UInt8} {validity : Option Bitmap} {c : Chunk}
    (h : ofRaw t n bytes validity = .ok c) : c.Sound := by
  obtain ⟨hFixed, hSize, hValidity, rfl⟩ := ofRaw_eq_ok h
  exact sound_of_isFixedWidth hFixed (.inr hSize) hValidity

theorem sound_ofStrings (values : List String) : (ofStrings values).Sound := by
  constructor
  case bytes_word => exact fun width hWidth => nomatch hWidth
  case bytes_size => exact fun width hWidth => nomatch hWidth
  case offsets_size =>
    exact fun _ => List.size_toArray.trans (length_textOffsets 0 values)
  case offsets_ascend =>
    intro _ hSize
    rw [size_bytes_ofStrings] at hSize
    exact pairwise_textOffsets (by rwa [Nat.zero_add])
  case offsets_last =>
    intro _ hSize
    rw [size_bytes_ofStrings] at hSize ⊢
    refine ⟨_, getLast?_textOffsets 0 values, ?_⟩
    rw [Nat.zero_add, toNat_ofNat_of_lt hSize]
  case validity_length => exact nofun

theorem sound_empty (t : DataType) : (empty t).Sound := by
  constructor
  case bytes_word => exact fun width _ => by rw [wordMul, empty, Nat.zero_mul]; rfl
  case bytes_size => exact fun width _ _ => (Nat.zero_mul width).symm
  case offsets_size =>
    intro hType
    obtain rfl : t = .utf8 := hType
    rfl
  case offsets_ascend =>
    intro hType _
    obtain rfl : t = .utf8 := hType
    exact List.pairwise_singleton _ _
  case offsets_last =>
    intro hType _
    obtain rfl : t = .utf8 := hType
    exact ⟨0, rfl, rfl⟩
  case validity_length => exact nofun

end Chunk

end Columnar
