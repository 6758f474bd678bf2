import PortableFiles.Proofs.Text.Splitting
import PortableFiles.Bytes
set_option autoImplicit false

/-!
# Bytes that are texts

The bytes of a text in UTF-8 are those of its characters, one after the other.  An ASCII byte is
never a part of a longer character, so texts may be cut before and after it and put together around
it (`Bytes.isText_append_cons_iff`).
-/

namespace PortableFiles.Bytes

variable {b l r : Bytes} {a : UInt8} {sep : UInt8 → Bool}

/-- Whether bytes are those of a text in UTF-8. -/
def IsText (b : Bytes) : Prop := ∃ s : String, ofString s = b

/-! ## Bytes of characters -/

theorem toList_loop (bytes : ByteArray) (i : Nat) (done : Bytes) :
    ByteArray.toList.loop bytes i done = done.reverse ++ bytes.data.toList.drop i := by
  fun_induction ByteArray.toList.loop bytes i done with
  | case1 i done h ih =>
    have hi : i < bytes.data.toList.length := by simpa using h
    rw [ih, List.drop_eq_getElem_cons hi]
    simp [ByteArray.get!, h]
  | case2 i done h =>
    have hi : bytes.data.toList.length ≤ i := by simpa using h
    rw [List.drop_eq_nil_of_le hi, List.append_nil]

/-- The bytes of a text are those of its characters. -/
theorem ofString_ofList (text : List Char) :
    ofString (String.ofList text) = text.flatMap String.utf8EncodeChar := by
  rw [ofString, String.toUTF8_eq_toByteArray, String.toByteArray_ofList, ByteArray.toList,
    toList_loop]
  simp [List.utf8Encode]

theorem isText_ofString (s : String) : (ofString s).IsText := ⟨s, rfl⟩

theorem isText_iff : b.IsText ↔ ∃ text : List Char, text.flatMap String.utf8EncodeChar = b := by
  constructor
  · rintro ⟨s, rfl⟩
    exact ⟨s.toList, by rw [← ofString_ofList, String.ofList_toList]⟩
  · rintro ⟨text, rfl⟩
    exact ⟨String.ofList text, ofString_ofList text⟩

/-- An ASCII byte among those of a character is the only one. -/
theorem utf8EncodeChar_eq_of_mem {c : Char} (hmem : a ∈ String.utf8EncodeChar c) (ha : a < 0x80) :
    String.utf8EncodeChar c = [a] := by
  have ha : a.toNat < 0x80 := ha
  -- A byte of a longer character is at least 0x80.
  have hlow : ∀ n, 0x80 ≤ n → n < 0x100 → a ≠ UInt8.ofNat n := by
    rintro n hn hlt rfl
    rw [UInt8.toNat_ofNat', Nat.mod_eq_of_lt hlt] at ha
    omega
  unfold String.utf8EncodeChar at hmem ⊢
  simp only at hmem ⊢
  split at hmem
  · rename_i hone
    rw [if_pos hone, List.mem_singleton.1 hmem]
  · exfalso
    split at hmem
    · simp only [List.mem_cons, List.not_mem_nil, or_false] at hmem
      obtain h | h := hmem <;> exact hlow _ (by omega) (by omega) h
    · split at hmem
      · simp only [List.mem_cons, List.not_mem_nil, or_false] at hmem
        obtain h | h | h := hmem <;> exact hlow _ (by omega) (by omega) h
      · simp only [List.mem_cons, List.not_mem_nil, or_false] at hmem
        obtain h | h | h | h := hmem <;> exact hlow _ (by omega) (by omega) h

/-- Every ASCII byte is a character. -/
theorem utf8EncodeChar_ofNat (ha : a < 0x80) : String.utf8EncodeChar (Char.ofNat a.toNat) = [a] := by
  have ha : a.toNat < 0x80 := ha
  have hvalid : a.toNat.isValidChar := .inl (by omega)
  have hval : (Char.ofNat a.toNat).val.toNat = a.toNat := by
    rw [Char.ofNat, dif_pos hvalid]
    rfl
  unfold String.utf8EncodeChar
  simp only [hval]
  rw [if_pos (by omega), UInt8.ofNat_toNat]

/-! ## Cutting and putting together -/

theorem isText_nil : IsText [] := isText_iff.2 ⟨[], rfl⟩

theorem IsText.append (hl : l.IsText) (hr : r.IsText) : IsText (l ++ r) := by
  obtain ⟨text, rfl⟩ := isText_iff.1 hl
  obtain ⟨more, rfl⟩ := isText_iff.1 hr
  exact isText_iff.2 ⟨text ++ more, List.flatMap_append⟩

/-- A text is cut at an ASCII byte into two texts. -/
theorem IsText.cut (ha : a < 0x80) (h : IsText (l ++ a :: r)) : l.IsText ∧ r.IsText := by
  obtain ⟨text, htext⟩ := isText_iff.1 h
  clear h
  induction text generalizing l with
  | nil => simp at htext
  | cons c text ih =>
    rw [List.flatMap_cons, List.append_eq_append_iff] at htext
    rcases htext with ⟨front, rfl, htext⟩ | ⟨back, hc, htext⟩
    · -- The byte stands behind the first character.
      obtain ⟨hfront, hr⟩ := ih htext
      exact ⟨(isText_iff.2 ⟨[c], by simp⟩).append hfront, hr⟩
    · cases back with
      | nil =>
        obtain ⟨-, hr⟩ := ih (l := []) (by simpa using htext.symm)
        exact ⟨isText_iff.2 ⟨[c], by simpa using hc⟩, hr⟩
      | cons b back =>
        -- The byte is one of the first character, and so it is this character.
        obtain ⟨rfl, rfl⟩ := List.cons.inj htext
        rw [utf8EncodeChar_eq_of_mem (by rw [hc]; simp) ha] at hc
        obtain ⟨rfl, rfl⟩ : l = [] ∧ back = [] := by
          cases l with
          | nil => exact ⟨rfl, (List.cons.inj hc).2.symm⟩
          | cons first front => simp at hc
        exact ⟨isText_nil, isText_iff.2 ⟨text, rfl⟩⟩

theorem isText_singleton (ha : a < 0x80) : IsText [a] :=
  isText_iff.2 ⟨[Char.ofNat a.toNat], by rw [List.flatMap_singleton, utf8EncodeChar_ofNat ha]⟩

/-- Around an ASCII byte stands a text if texts stand before and after it. -/
theorem isText_append_cons_iff (ha : a < 0x80) : IsText (l ++ a :: r) ↔ l.IsText ∧ r.IsText := by
  refine ⟨IsText.cut ha, fun ⟨hl, hr⟩ => ?_⟩
  rw [← List.singleton_append]
  exact hl.append ((isText_singleton ha).append hr)

theorem isText_cons_iff (ha : a < 0x80) : IsText (a :: r) ↔ r.IsText := by
  have h := isText_append_cons_iff (l := []) (r := r) ha
  rw [List.nil_append] at h
  rw [h, and_iff_right isText_nil]

theorem isText_of_forall_lt (h : ∀ a ∈ b, a < 0x80) : b.IsText := by
  induction b with
  | nil => exact isText_nil
  | cons a b ih =>
    obtain ⟨ha, hb⟩ := List.forall_mem_cons.1 h
    exact (isText_cons_iff ha).2 (ih hb)

/-- The pieces of a text between ASCII separators are texts. -/
theorem IsText.of_mem_splitOn (hsep : ∀ a, sep a = true → a < 0x80) (h : b.IsText) {piece : Bytes}
    (hpiece : piece ∈ Text.splitOn sep b) : piece.IsText := by
  generalize hpieces : Text.splitOn sep b = pieces at hpiece
  induction pieces generalizing b with
  | nil => cases hpiece
  | cons first pieces ih =>
    obtain ⟨-, ⟨rfl, rfl⟩ | ⟨a, rest, ha, rfl, hrest⟩⟩ := Text.splitOn_eq_cons_iff.1 hpieces
    · rw [List.mem_singleton.1 hpiece]
      exact h
    · obtain ⟨hfirst, hmore⟩ := h.cut (hsep a ha)
      rcases List.mem_cons.1 hpiece with rfl | hpiece
      · exact hfirst
      · exact ih hmore hrest hpiece

/-- Texts that are put together around an ASCII byte are a text. -/
theorem isText_joinWith (ha : a < 0x80) {pieces : List Bytes} (h : ∀ piece ∈ pieces, piece.IsText) :
    IsText (Text.joinWith a pieces) := by
  induction pieces with
  | nil => exact isText_nil
  | cons piece pieces ih =>
    obtain ⟨hpiece, hpieces⟩ := List.forall_mem_cons.1 h
    cases pieces with
    | nil => exact hpiece
    | cons next pieces =>
      rw [Text.joinWith_cons_cons]
      exact (isText_append_cons_iff ha).2 ⟨hpiece, ih hpieces⟩

end PortableFiles.Bytes
