import Mathlib.Data.List.Basic

/-!
# UTF-8

Texts as lists of characters, and their bytes. Decoding is strict, as Python's is: it accepts the encoding of a text
and nothing else. A character below 128 has one byte, which is in the encoding of no other character, so a text can be
cut at such a byte before it is decoded.
-/

namespace AneLinux.Support

/-- `text.encode()`. -/
def encodeUtf8 (text : List Char) : List UInt8 := text.flatMap String.utf8EncodeChar

/-- `raw.decode()`, `none` when it raises. -/
def decodeUtf8 (raw : List UInt8) : Option (List Char) := raw.toByteArray.utf8Decode?.map Array.toList

theorem decodeUtf8_encodeUtf8 (text : List Char) : decodeUtf8 (encodeUtf8 text) = some text := by
  have hdecode : (encodeUtf8 text).toByteArray.utf8Decode? = some text.toArray := List.utf8Decode?_utf8Encode
  rw [decodeUtf8, hdecode, Option.map_some]

/-- The bytes of a text are all 128 or more, but for its characters below 128. -/
theorem exists_of_mem_encodeUtf8 {text : List Char} {b : UInt8} (hb : b ∈ encodeUtf8 text) (hlt : b.toNat < 128) :
    ∃ c ∈ text, c.toNat = b.toNat := by
  obtain ⟨c, hc, hb⟩ := List.mem_flatMap.mp hb
  refine ⟨c, hc, ?_⟩
  change c.val.toNat = b.toNat
  have hhigh (n : ℕ) (hlo : 128 ≤ n) (hhi : n < 256) : b ≠ UInt8.ofNat n := by
    rintro rfl
    rw [UInt8.toNat_ofNat'] at hlt
    omega
  simp only [String.utf8EncodeChar] at hb
  split at hb
  · rw [List.mem_singleton] at hb
    rw [hb, UInt8.toNat_ofNat']
    omega
  · -- All bytes of a longer encoding are high.
    exfalso
    split at hb
    · simp only [List.mem_cons, List.not_mem_nil, or_false] at hb
      obtain hb | hb := hb
      · exact hhigh _ (by omega) (by omega) hb
      · exact hhigh _ (by omega) (by omega) hb
    · split at hb
      · simp only [List.mem_cons, List.not_mem_nil, or_false] at hb
        obtain hb | hb | hb := hb
        · exact hhigh _ (by omega) (by omega) hb
        · exact hhigh _ (by omega) (by omega) hb
        · exact hhigh _ (by omega) (by omega) hb
      · simp only [List.mem_cons, List.not_mem_nil, or_false] at hb
        obtain hb | hb | hb | hb := hb
        · exact hhigh _ (by omega) (by omega) hb
        · exact hhigh _ (by omega) (by omega) hb
        · exact hhigh _ (by omega) (by omega) hb
        · exact hhigh _ (by omega) (by omega) hb

end AneLinux.Support
