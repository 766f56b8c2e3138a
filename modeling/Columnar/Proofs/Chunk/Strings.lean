import Columnar.Chunk.Reading
import Columnar.Proofs.Chunk.Text
import Columnar.Proofs.Result
import Mathlib.Data.List.TFAE
import Mathlib.Data.Nat.Find
import Mathlib.Tactic.TFAE

/-!
# Chunks of text give back their strings

A string is read through the two places between which its bytes lie.  The places are kept in 32
bits, so they are the places of the strings as long as the whole text is shorter than that.  A
longer text has a string that begins before the place `2 ^ 32` and ends behind it, and its bytes
are not between the places that are kept: there are not even as many bytes between them.

* `Chunk.getElem?_textOffsets` -- the place of a string is the size of the strings before it.
* `Chunk.readText_ofStrings` -- what is read at a position, whatever the places are.
* `Chunk.ofStrings_gives_back_tfae` -- all strings are given back exactly when the text is short
  enough, and then the places ascend from zero to the size of the text.
* `Chunk.ofStrings_wrapped` -- a string of `2 ^ 32` bytes is given back as the empty one.
-/

namespace Columnar

theorem fromUTF8?_toUTF8 (s : String) : String.fromUTF8? s.toUTF8 = some s :=
  dif_pos s.isValidUTF8

theorem toUTF8_of_fromUTF8? {bytes : ByteArray} {s : String} (h : String.fromUTF8? bytes = some s) :
    s.toUTF8 = bytes := by
  unfold String.fromUTF8? at h
  split at h
  · rw [← Option.some.inj h]
    rfl
  · exact absurd h (by simp)

namespace Chunk

variable {values : List String} {i : Nat}

theorem textSize_append (values rest : List String) :
    textSize (values ++ rest) = textSize values + textSize rest := by
  rw [textSize, List.map_append, total_append, textSize, textSize]

/-- The next string starts where a string ends. -/
theorem textSize_take_succ (hi : i < values.length) :
    textSize (values.take (i + 1)) = textSize (values.take i) + values[i].utf8ByteSize := by
  rw [List.take_add_one, List.getElem?_eq_getElem hi, Option.toList_some, textSize_append]
  rfl

theorem textSize_take_le (values : List String) (i : Nat) :
    textSize (values.take i) ≤ textSize values := by
  have hSplit := textSize_append (values.take i) (values.drop i)
  rw [List.take_append_drop] at hSplit
  omega

/-- The place of a string is the size of the strings before it, in 32 bits. -/
theorem getElem?_textOffsets {start : Nat} (hi : i ≤ values.length) :
    (textOffsets start values)[i]? = some (UInt32.ofNat (start + textSize (values.take i))) := by
  induction values generalizing start i with
  | nil =>
      obtain rfl : i = 0 := Nat.le_zero.mp hi
      rfl
  | cons s rest ih =>
      cases i with
      | zero => rfl
      | succ i =>
          rw [textOffsets, List.getElem?_cons_succ, ih (Nat.le_of_succ_le_succ hi),
            List.take_succ_cons, textSize_cons, Nat.add_assoc]

theorem getElem?_offsets_ofStrings (hi : i ≤ values.length) :
    (ofStrings values).offsets[i]? = some (UInt32.ofNat (textSize (values.take i))) := by
  rw [ofStrings, List.getElem?_toArray, getElem?_textOffsets hi, Nat.zero_add]

/-- The bytes of a string. -/
def utf8 (s : String) : List UInt8 :=
  s.toUTF8.data.toList

theorem toList_bytes_ofStrings (values : List String) :
    (ofStrings values).bytes.toList = values.flatMap utf8 := rfl

theorem length_flatMap_utf8 (values : List String) :
    (values.flatMap utf8).length = textSize values :=
  length_flatMap_eq_total values utf8

/-- The bytes of a string lie behind those of the strings before it. -/
theorem extract_ofStrings (hi : i < values.length) :
    (ofStrings values).bytes.extract (textSize (values.take i)) (textSize (values.take (i + 1))) =
      values[i].toUTF8.data := by
  have hSplit : values.take i ++ values[i] :: values.drop (i + 1) = values := by
    rw [← List.drop_eq_getElem_cons hi, List.take_append_drop]
  have hBytes : values.flatMap utf8 = (values.take i).flatMap utf8 ++
      (utf8 values[i] ++ (values.drop (i + 1)).flatMap utf8) := by
    rw [← List.flatMap_cons (f := utf8), ← List.flatMap_append, hSplit]
  have hSize : textSize (values.take (i + 1)) - textSize (values.take i) =
      (utf8 values[i]).length := by
    rw [textSize_take_succ hi, Nat.add_sub_cancel_left]
    rfl
  refine Array.toList_inj.mp ?_
  rw [Array.toList_extract, List.extract_eq_take_drop, toList_bytes_ofStrings, hBytes, hSize,
    List.drop_left' (length_flatMap_utf8 _), List.take_left' rfl]
  rfl

/-- Reading at a position looks between the places that are kept for it. -/
theorem readText_ofStrings_iff (hi : i < values.length) {start stop : Nat} {r : Option String}
    (hStart : textSize (values.take i) % 2 ^ 32 = start)
    (hStop : textSize (values.take (i + 1)) % 2 ^ 32 = stop) :
    (ofStrings values).readText i = .ok r ↔ (start ≤ stop ∧ stop ≤ textSize values) ∧
      String.fromUTF8? ⟨(ofStrings values).bytes.extract start stop⟩ = r := by
  have hType : (ofStrings values).type = .utf8 := rfl
  rw [readText, if_pos hType, getElem?_offsets_ofStrings (Nat.le_of_lt hi),
    getElem?_offsets_ofStrings hi]
  simp only [UInt32.toNat_ofNat', hStart, hStop, size_bytes_ofStrings]
  by_cases hInside : start ≤ stop ∧ stop ≤ textSize values
  · simp [hInside]
  · simp [hInside]

/-- A string of a text that is short enough is given back. -/
theorem readText_ofStrings (hShort : textSize values < 2 ^ 32) (hi : i < values.length) :
    (ofStrings values).readText i = .ok (some values[i]) := by
  have hStart := textSize_take_le values i
  have hStop := textSize_take_le values (i + 1)
  have hSize := textSize_take_succ hi
  refine (readText_ofStrings_iff hi (Nat.mod_eq_of_lt (by omega))
    (Nat.mod_eq_of_lt (by omega))).mpr ⟨by omega, ?_⟩
  rw [extract_ofStrings hi]
  exact fromUTF8?_toUTF8 values[i]

/-- A text that is too long has a string that begins before the last place and ends behind it. -/
theorem exists_take_lt_le {bound : Nat} (hPos : 0 < bound) (hLong : bound ≤ textSize values) :
    ∃ k < values.length,
      textSize (values.take k) < bound ∧ bound ≤ textSize (values.take (k + 1)) := by
  have hEx : ∃ j, bound ≤ textSize (values.take j) := ⟨values.length, by rwa [List.take_length]⟩
  obtain ⟨k, hk⟩ : ∃ k, Nat.find hEx = k + 1 := by
    refine Nat.exists_eq_succ_of_ne_zero fun hZero => ?_
    have hFirst := Nat.find_spec hEx
    rw [hZero, List.take_zero] at hFirst
    exact Nat.not_le.mpr hPos hFirst
  have hReached : bound ≤ textSize (values.take (k + 1)) := hk ▸ Nat.find_spec hEx
  have hBefore : ¬bound ≤ textSize (values.take k) := Nat.find_min hEx (by omega)
  refine ⟨k, ?_, Nat.lt_of_not_le hBefore, hReached⟩
  by_contra hOut
  rw [List.take_of_length_le (by omega)] at hReached hBefore
  exact hBefore hReached

/-- A text of which every string is given back is short enough. -/
theorem textSize_lt_of_readText
    (h : ∀ i (hi : i < values.length), (ofStrings values).readText i = .ok (some values[i])) :
    textSize values < 2 ^ 32 := by
  by_contra hNot
  obtain ⟨k, hk, hBefore, hReached⟩ := exists_take_lt_le (by decide) (Nat.le_of_not_lt hNot)
  obtain ⟨⟨-, hEnd⟩, hText⟩ :=
    (readText_ofStrings_iff hk (Nat.mod_eq_of_lt hBefore) rfl).mp (h k hk)
  have hWrapped : textSize (values.take (k + 1)) % 2 ^ 32 < 2 ^ 32 := Nat.mod_lt _ (by decide)
  -- There are too few bytes between the places.
  have hRead : values[k].utf8ByteSize = ((ofStrings values).bytes.extract
      (textSize (values.take k)) (textSize (values.take (k + 1)) % 2 ^ 32)).size :=
    congrArg ByteArray.size (toUTF8_of_fromUTF8? hText)
  rw [Array.size_extract, size_bytes_ofStrings] at hRead
  have hSize := textSize_take_succ hk
  omega

/-- The strings of a chunk of text are given back, as texts and as decoded elements, and the
places at which they are kept ascend from zero to the size of the text. -/
structure GivesBack (c : Chunk) (values : List String) : Prop where
  length_eq : c.length = values.length
  readText_eq : ∀ i (h : i < values.length), c.readText i = .ok (some values[i])
  readScalar_eq : ∀ i (h : i < values.length), c.readScalar i = .ok (some (.string values[i]))
  offsets_first : c.offsets[0]? = some 0
  offsets_ascend : c.offsets.toList.Pairwise fun place later => place.toNat ≤ later.toNat
  offsets_last : ∃ last, c.offsets.toList.getLast? = some last ∧ last.toNat = textSize values

/-- A decoded element of a chunk of text is the text that is read. -/
theorem readScalar_ofStrings {s : String} (h : (ofStrings values).readText i = .ok (some s)) :
    (ofStrings values).readScalar i = .ok (some (.string s)) := by
  have hType : (ofStrings values).type = .utf8 := rfl
  have hValid : (ofStrings values).readValid i = .ok true := rfl
  rw [readScalar, hValid, Result.ok_bind, if_pos rfl, if_pos hType, h]
  rfl

theorem givesBack_ofStrings (hShort : textSize values < 2 ^ 32) :
    (ofStrings values).GivesBack values where
  length_eq := rfl
  readText_eq _ := readText_ofStrings hShort
  readScalar_eq _ hi := readScalar_ofStrings (readText_ofStrings hShort hi)
  offsets_first := by
    rw [getElem?_offsets_ofStrings (Nat.zero_le _)]
    rfl
  offsets_ascend := pairwise_textOffsets (by rwa [Nat.zero_add])
  offsets_last := by
    refine ⟨_, getLast?_textOffsets 0 values, ?_⟩
    rw [Nat.zero_add, toNat_ofNat_of_lt hShort]

/-- For every list of strings: the chunk of text gives back all of them, with places that ascend
from zero to the size of the text, exactly when the text is shorter than `2 ^ 32` bytes; and
already one string is lost in every longer text. -/
theorem ofStrings_gives_back_tfae (values : List String) :
    [textSize values < 2 ^ 32, (ofStrings values).GivesBack values,
      ∀ i (h : i < values.length), (ofStrings values).readText i = .ok (some values[i])].TFAE := by
  tfae_have 1 → 2 := givesBack_ofStrings
  tfae_have 2 → 3 := GivesBack.readText_eq
  tfae_have 3 → 1 := textSize_lt_of_readText
  tfae_finish

/-- As many letters as given. -/
def letters (n : Nat) : String :=
  String.ofList (List.replicate n 'a')

theorem utf8ByteSize_letters (n : Nat) : (letters n).utf8ByteSize = n := by
  induction n with
  | zero => rfl
  | succ n ih =>
      have hOne : 'a'.utf8Size = 1 := rfl
      rw [letters, List.replicate_succ, String.ofList_cons, String.utf8ByteSize_append,
        String.utf8ByteSize_singleton, hOne, ← letters, ih, Nat.add_comm]

/-- A string of `2 ^ 32` bytes ends at the place at which it starts, and nothing is read. -/
theorem readText_of_wrapped {s : String} (h : s.utf8ByteSize = 2 ^ 32) :
    (ofStrings [s]).readText 0 = .ok (some "") := by
  have hStop : textSize ([s].take (0 + 1)) % 2 ^ 32 = 0 := by
    rw [List.take_succ_cons, textSize_cons, h]
    rfl
  refine (readText_ofStrings_iff Nat.one_pos rfl hStop).mpr ⟨⟨Nat.le_refl 0, Nat.zero_le _⟩, ?_⟩
  rw [List.take_zero, Array.extract_zero]
  exact fromUTF8?_toUTF8 ""

/-- The one string of a text of `2 ^ 32` letters is given back as the empty one. -/
theorem ofStrings_wrapped :
    (ofStrings [letters (2 ^ 32)]).readText 0 = .ok (some "") ∧
      (ofStrings [letters (2 ^ 32)]).readScalar 0 = .ok (some (.string "")) ∧
      letters (2 ^ 32) ≠ "" ∧
      ¬(ofStrings [letters (2 ^ 32)]).GivesBack [letters (2 ^ 32)] := by
  have hSize := utf8ByteSize_letters (2 ^ 32)
  generalize letters (2 ^ 32) = s at hSize ⊢
  have hText := readText_of_wrapped hSize
  have hSome : s ≠ "" := by
    rintro rfl
    exact absurd hSize (by decide)
  refine ⟨hText, readScalar_ofStrings hText, hSome, fun hBack => hSome ?_⟩
  have hSame := hText.symm.trans (hBack.readText_eq 0 Nat.one_pos)
  exact (Option.some.inj (Except.ok.inj hSame)).symm

end Chunk

end Columnar
