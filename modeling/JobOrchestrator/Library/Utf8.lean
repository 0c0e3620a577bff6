import Mathlib

/-!
# ASCII texts and their UTF-8 bytes

The bytes of a text are the encodings of its characters one after the other.
When all of them are below 128, every character is ASCII and is its own byte.
A mapping of characters changes the length of a text by the sum of its changes.
-/

namespace Utf8

/-- The bytes of a text, character by character. -/
theorem bytes_eq_flatMap (text : String) :
    text.toUTF8.data.toList = text.toList.flatMap String.utf8EncodeChar := by
  have hbytes : text.toUTF8 = text.toList.utf8Encode := String.utf8Encode_toList.symm
  rw [hbytes, List.utf8Encode]
  simp

/-- A character whose bytes are all below 128 is ASCII. -/
theorem encode_of_lt {c : Char} (h : ∀ byte ∈ String.utf8EncodeChar c, byte.toNat < 128) :
    c.toNat < 128 ∧ String.utf8EncodeChar c = [UInt8.ofNat c.toNat] := by
  unfold String.utf8EncodeChar at h ⊢
  have hval : c.val.toNat = c.toNat := rfl
  simp only [hval] at h ⊢
  split
  next hascii => exact ⟨by omega, rfl⟩
  next hmulti =>
    exfalso
    rw [if_neg hmulti] at h
    -- the leading byte of a longer encoding is at least 192
    split at h
    · have := h _ List.mem_cons_self
      rw [UInt8.toNat_ofNat'] at this
      omega
    · split at h
      · have := h _ List.mem_cons_self
        rw [UInt8.toNat_ofNat'] at this
        omega
      · have := h _ List.mem_cons_self
        rw [UInt8.toNat_ofNat'] at this
        omega

/-- Every character of a text whose bytes are all below 128 is one of its bytes. -/
theorem mem_bytes_of_mem {text : String}
    (h : ∀ byte ∈ text.toUTF8.data.toList, byte.toNat < 128) {c : Char} (hc : c ∈ text.toList) :
    c.toNat < 128 ∧ UInt8.ofNat c.toNat ∈ text.toUTF8.data.toList := by
  have hsub : ∀ byte ∈ String.utf8EncodeChar c, byte ∈ text.toUTF8.data.toList := by
    intro byte hbyte
    rw [bytes_eq_flatMap]
    exact List.mem_flatMap.mpr ⟨c, hc, hbyte⟩
  obtain ⟨hlt, hencode⟩ := encode_of_lt fun byte hbyte => h byte (hsub byte hbyte)
  refine ⟨hlt, hsub _ ?_⟩
  rw [hencode]
  exact List.mem_singleton_self _

theorem length_le_utf8ByteSize (text : String) : text.length ≤ text.utf8ByteSize := by
  have hsize : text.utf8ByteSize = text.toUTF8.data.toList.length := by
    rw [Array.length_toList]
    rfl
  rw [hsize, bytes_eq_flatMap, List.length_flatMap, ← String.length_toList]
  calc text.toList.length = (text.toList.map fun _ => 1).sum := by simp
    _ ≤ (text.toList.map fun c => (String.utf8EncodeChar c).length).sum :=
        List.sum_le_sum fun c _ => by
          rw [String.length_utf8EncodeChar]
          exact c.utf8Size_pos

theorem utf8ByteSize_eq_sum (text : String) :
    text.utf8ByteSize = (text.toList.map Char.utf8Size).sum := by
  conv_lhs => rw [← String.ofList_toList (s := text), String.utf8ByteSize_ofList]
  induction text.toList with
  | nil => rfl
  | cons c rest ih =>
      rw [String.utf8Len, ih, List.map_cons, List.sum_cons, Nat.add_comm]

theorem utf8ByteSize_le_length (text : String) : text.utf8ByteSize ≤ 4 * text.length := by
  rw [utf8ByteSize_eq_sum, ← String.length_toList]
  calc (text.toList.map Char.utf8Size).sum ≤ (text.toList.map fun _ => 4).sum :=
        List.sum_le_sum fun c _ => c.utf8Size_le_four
    _ = 4 * text.toList.length := by simp [Nat.mul_comm]

theorem utf8ByteSize_flatMap (mapping : Char → List Char) (text : String) :
    (String.ofList (text.toList.flatMap mapping)).utf8ByteSize =
      (text.toList.map fun c => ((mapping c).map Char.utf8Size).sum).sum := by
  rw [utf8ByteSize_eq_sum, String.toList_ofList, List.map_flatMap, List.flatMap_def,
    List.sum_flatten, List.map_map]
  rfl

end Utf8
