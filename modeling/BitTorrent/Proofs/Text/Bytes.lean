/-!
# Bytes of text

The bytes a byte array lists are those of its underlying array (`Bytes.byteArray_toList`), so the
UTF-8 bytes of a text are those of its parts one after another (`Bytes.utf8_append`), one byte per
character for ASCII text (`Bytes.utf8_ofList`).
-/

namespace BitTorrent.Bytes

theorem length_data_toList (bs : ByteArray) : bs.data.toList.length = bs.size := by
  rw [Array.length_toList]
  rfl

/-- The loop that lists a byte array, from position `i` on. -/
theorem toList_loop (bs : ByteArray) (i : Nat) (r : List UInt8) (hi : i ≤ bs.size) :
    ByteArray.toList.loop bs i r = r.reverse ++ bs.data.toList.drop i := by
  have hlen := length_data_toList bs
  -- on the number of bytes left
  induction h : bs.size - i generalizing i r with
  | zero =>
    rw [ByteArray.toList.loop, if_neg (by omega), List.drop_eq_nil_of_le (by omega),
      List.append_nil]
  | succ n ih =>
    rw [ByteArray.toList.loop, if_pos (by omega), ih (i + 1) _ (by omega) (by omega)]
    have hi : i < bs.data.toList.length := by omega
    have hget : bs.get! i = bs.data.toList[i] := by
      have hs : i < bs.data.size := by simpa using hi
      simp [ByteArray.get!, Array.getElem!_eq_getD, Array.getElem?_eq_getElem hs]
    rw [hget, List.drop_eq_getElem_cons hi]
    simp

theorem byteArray_toList (bs : ByteArray) : bs.toList = bs.data.toList := by
  rw [ByteArray.toList, toList_loop bs 0 [] (Nat.zero_le _)]
  simp

@[simp]
theorem utf8_append (s t : String) :
    (s ++ t).toUTF8.toList = s.toUTF8.toList ++ t.toUTF8.toList := by
  simp [byteArray_toList]

/-- A text of ASCII characters is written one byte per character. -/
theorem utf8_ofList {cs : List Char} (h : ∀ c ∈ cs, c.toNat < 128) :
    (String.ofList cs).toUTF8.toList = cs.map fun c => c.toNat.toUInt8 := by
  rw [String.toUTF8_eq_toByteArray, String.toByteArray_ofList, byteArray_toList]
  induction cs with
  | nil => simp
  | cons c cs ih =>
    have hc := h c List.mem_cons_self
    rw [List.utf8Encode_cons, ByteArray.toList_data_append, List.utf8Encode_singleton,
      List.toList_data_toByteArray, ih fun d hd => h d (List.mem_cons_of_mem c hd)]
    simp [String.utf8EncodeChar, show c.toNat ≤ 127 by omega]

end BitTorrent.Bytes
