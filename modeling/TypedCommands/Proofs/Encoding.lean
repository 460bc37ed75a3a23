/-! The bytes of a text: those of its characters, none of them above `F7`, and read as the text
again. -/
namespace TypedCommands

theorem toList_loop (bs : ByteArray) (i : Nat) (taken : List UInt8) :
    ByteArray.toList.loop bs i taken = taken.reverse ++ bs.data.toList.drop i := by
  fun_induction ByteArray.toList.loop bs i taken with
  | case1 i taken hi ih =>
    have hget : bs.get! i = bs.data.toList[i] := by
      simp [ByteArray.get!, getElem!_pos bs.data i hi]
    have hd : bs.data.toList.drop i = bs.data.toList[i] :: bs.data.toList.drop (i + 1) :=
      List.drop_eq_getElem_cons hi
    rw [ih, hd, hget, List.reverse_cons, List.append_assoc, List.singleton_append]
  | case2 i taken hi =>
    have hd : bs.data.toList.drop i = [] := List.drop_eq_nil_of_le (Nat.not_lt.mp hi)
    rw [hd, List.append_nil]

theorem toList_eq_data (bs : ByteArray) : bs.toList = bs.data.toList := by
  rw [ByteArray.toList, toList_loop, List.reverse_nil, List.nil_append, List.drop_zero]

/-- The bytes of a text are those of its characters. -/
theorem toUTF8_toList (text : String) :
    text.toUTF8.toList = text.toList.flatMap String.utf8EncodeChar := by
  rw [String.toUTF8_eq_toByteArray, ← String.utf8Encode_toList, toList_eq_data,
    List.utf8Encode, List.toList_data_toByteArray]

theorem ofNat_lt {n : Nat} (h : n < 0xF8) : UInt8.ofNat n < 0xF8 := by
  rw [UInt8.lt_iff_toNat_lt, UInt8.toNat_ofNat']
  exact Nat.lt_of_le_of_lt (Nat.mod_le _ _) h

theorem lt_of_mem_utf8EncodeChar (c : Char) : ∀ x ∈ String.utf8EncodeChar c, x < 0xF8 := by
  fun_cases String.utf8EncodeChar c with
  | case1 v h1 => simp only [List.forall_mem_singleton, ofNat_lt (show v < 0xF8 by omega)]
  | case2 v h1 h2 =>
    rw [List.forall_mem_cons, List.forall_mem_singleton]
    exact ⟨ofNat_lt (by omega), ofNat_lt (by omega)⟩
  | case3 v h1 h2 h3 =>
    rw [List.forall_mem_cons, List.forall_mem_cons, List.forall_mem_singleton]
    exact ⟨ofNat_lt (by omega), ofNat_lt (by omega), ofNat_lt (by omega)⟩
  | case4 v h1 h2 h3 =>
    rw [List.forall_mem_cons, List.forall_mem_cons, List.forall_mem_cons,
      List.forall_mem_singleton]
    exact ⟨ofNat_lt (by omega), ofNat_lt (by omega), ofNat_lt (by omega), ofNat_lt (by omega)⟩

/-- The bytes from `F8` on stand in no text. -/
theorem lt_of_mem_toUTF8 {text : String} {x : UInt8} (h : x ∈ text.toUTF8.toList) : x < 0xF8 := by
  rw [toUTF8_toList, List.mem_flatMap] at h
  obtain ⟨c, -, hx⟩ := h
  exact lt_of_mem_utf8EncodeChar c x hx

theorem fromUTF8?_toUTF8 (text : String) : String.fromUTF8? text.toUTF8 = some text := by
  unfold String.fromUTF8?
  rw [String.toUTF8_eq_toByteArray, dif_pos text.isValidUTF8]
  rfl

/-- The bytes of a text are read as that text. -/
theorem fromUTF8?_toUTF8_toList (text : String) :
    String.fromUTF8? ⟨text.toUTF8.toList.toArray⟩ = some text := by
  rw [toList_eq_data, Array.toArray_toList]
  exact fromUTF8?_toUTF8 text

/-- No two texts have the same bytes. -/
theorem toUTF8_toList_injective {text text' : String}
    (same : text.toUTF8.toList = text'.toUTF8.toList) : text = text' := by
  have read := fromUTF8?_toUTF8_toList text
  rw [same, fromUTF8?_toUTF8_toList] at read
  exact (Option.some.inj read).symm

end TypedCommands
