import Mathlib.Data.List.TakeWhile
import PortableFiles.Mode
import PortableFiles.Proofs.Text.Numerals
import PortableFiles.Umask
set_option autoImplicit false

/-!
# Masks as text

Which texts stand for a mask: octal digits after an optional mark, with blanks around them
(`Umask.Writes`).  Reading takes these texts and no others, however long they are, as far as the
value is a mask, and the text of a permission value is one of them (`Umask.parse_grammar`).
-/

namespace PortableFiles

/-! ## Blanks at the ends -/

namespace Text

variable {blanks text front core back : List Char}

/-- A text is what is left of it between blanks. -/
theorem exists_eq_append_trim (s : List Char) :
    ∃ front back, s = front ++ trim s ++ back ∧ (∀ c ∈ front, isBlank c = true)
      ∧ ∀ c ∈ back, isBlank c = true := by
  refine ⟨s.takeWhile isBlank, ((s.dropWhile isBlank).reverse.takeWhile isBlank).reverse, ?_,
    fun c hc => List.mem_takeWhile_imp hc,
    fun c hc => List.mem_takeWhile_imp (List.mem_reverse.1 hc)⟩
  rw [trim, List.append_assoc, ← List.reverse_append, List.takeWhile_append_dropWhile,
    List.reverse_reverse, List.takeWhile_append_dropWhile]

theorem dropWhile_isBlank_append (hblanks : ∀ c ∈ blanks, isBlank c = true)
    (htext : ∀ c ∈ text.head?, isBlank c = false) :
    (blanks ++ text).dropWhile isBlank = text := by
  rw [List.dropWhile_append_of_pos hblanks]
  cases text with
  | nil => rfl
  | cons c rest => exact List.dropWhile_cons_of_neg (by simp [htext c rfl])

/-- Blanks are taken away at the ends of a text that has none itself. -/
theorem trim_append (hfront : ∀ c ∈ front, isBlank c = true) (hne : core ≠ [])
    (hcore : ∀ c ∈ core, isBlank c = false) (hback : ∀ c ∈ back, isBlank c = true) :
    trim (front ++ core ++ back) = core := by
  have hhead : ∀ c ∈ (core ++ back).head?, isBlank c = false := by
    intro c hc
    rw [List.head?_append_of_ne_nil _ hne] at hc
    exact hcore c (List.mem_of_mem_head? hc)
  have hlast : ∀ c ∈ core.reverse.head?, isBlank c = false :=
    fun c hc => hcore c (List.mem_reverse.1 (List.mem_of_mem_head? hc))
  rw [trim, List.append_assoc, dropWhile_isBlank_append hfront hhead, List.reverse_append,
    dropWhile_isBlank_append (fun c hc => hback c (List.mem_reverse.1 hc)) hlast,
    List.reverse_reverse]

end Text

namespace Umask

open Text Text.Numeral

variable {s mark digits front back : List Char} {n bound : Nat}

/-! ## The grammar -/

/-- Whether a text is a mark of octal numbers, or empty. -/
def IsMark (mark : List Char) : Prop := mark = [] ∨ mark = ['0', 'o'] ∨ mark = ['0', 'O']

/-- Whether a text stands for a number: octal digits after an optional mark, with blanks around
them. -/
inductive Writes : List Char → Nat → Prop where
  | intro {front mark digits back : List Char} {n : Nat}
      (hfront : ∀ c ∈ front, isBlank c = true) (hmark : IsMark mark) (hdigits : Spells 8 digits n)
      (hback : ∀ c ∈ back, isBlank c = true) :
      Writes (front ++ (mark ++ digits) ++ back) n

theorem spells_ne_nil {base : Nat} (h : Spells base digits n) : digits ≠ [] := by
  obtain ⟨values, hne, -, hspells, -⟩ := h
  rintro rfl
  exact hne (List.forall₂_nil_right_iff.1 hspells)

/-- Where an octal digit stands among the characters. -/
theorem toNat_of_mem_digits (h : Spells 8 digits n) {c : Char} (hc : c ∈ digits) :
    48 ≤ c.toNat ∧ c.toNat < 56 := by
  obtain ⟨d, hd, hdigit⟩ := h.isDigit_of_mem hc
  have hcases := hdigit.toNat_cases (hd.trans (by decide))
  omega

/-- No character of a mark or of its digits is blank. -/
theorem isBlank_eq_false_of_mem (hmark : IsMark mark) (hdigits : Spells 8 digits n) :
    ∀ c ∈ mark ++ digits, isBlank c = false := by
  intro c hc
  rcases List.mem_append.1 hc with hc | hc
  · rcases hmark with rfl | rfl | rfl
    · cases hc
    · exact (by simp [isBlank] : ∀ c ∈ ['0', 'o'], isBlank c = false) c hc
    · exact (by simp [isBlank] : ∀ c ∈ ['0', 'O'], isBlank c = false) c hc
  · have hplace := toNat_of_mem_digits hdigits hc
    simp only [isBlank, Bool.or_eq_false_iff, Bool.and_eq_false_iff, decide_eq_false_iff_not,
      beq_eq_false_iff_ne]
    omega

theorem withoutMark_append (hmark : IsMark mark) (hdigits : Spells 8 digits n) :
    withoutMark (mark ++ digits) = digits := by
  rcases hmark with rfl | rfl | rfl
  · rw [List.nil_append]
    unfold withoutMark
    split
    · exact absurd (toNat_of_mem_digits hdigits (by simp : 'o' ∈ _)) (by decide)
    · exact absurd (toNat_of_mem_digits hdigits (by simp : 'O' ∈ _)) (by decide)
    · rfl
  · rfl
  · rfl

theorem exists_eq_append_withoutMark (s : List Char) :
    ∃ mark, IsMark mark ∧ s = mark ++ withoutMark s := by
  unfold withoutMark
  split
  · exact ⟨_, Or.inr (Or.inl rfl), rfl⟩
  · exact ⟨_, Or.inr (Or.inr rfl), rfl⟩
  · exact ⟨[], Or.inl rfl, rfl⟩

/-! ## Reading -/

/-- The digits between the blanks are read as what the text stands for, below a bound. -/
theorem natural?_eq_some_iff_writes :
    natural? 8 bound (withoutMark (trim s)) = some n ↔ Writes s n ∧ n < bound := by
  rw [natural?_eq_some_iff (by decide), and_congr_left_iff]
  intro _
  constructor
  · intro hdigits
    obtain ⟨front, back, hs, hfront, hback⟩ := exists_eq_append_trim s
    obtain ⟨mark, hmark, htrim⟩ := exists_eq_append_withoutMark (trim s)
    rw [hs, htrim]
    exact .intro hfront hmark hdigits hback
  · rintro ⟨hfront, hmark, hdigits, hback⟩
    rwa [trim_append hfront (List.append_ne_nil_of_right_ne_nil _ (spells_ne_nil hdigits))
      (isBlank_eq_false_of_mem hmark hdigits) hback, withoutMark_append hmark hdigits]

/-- A text stands for one number at most. -/
theorem Writes.unique {m : Nat} (h : Writes s m) (h' : Writes s n) : m = n := by
  have hread : ∀ {k}, Writes s k → k ≤ m + n →
      natural? 8 (m + n + 1) (withoutMark (trim s)) = some k :=
    fun hk hle => natural?_eq_some_iff_writes.2 ⟨hk, Nat.lt_succ_of_le hle⟩
  apply Option.some.inj
  rw [← hread h (by omega), hread h' (by omega)]

/-- A text is read as the mask that it stands for. -/
theorem parse_eq_some_iff_writes {text : String} {mask : UInt32} :
    parse text = some mask ↔ Writes text.toList mask.toNat ∧ mask ≤ bits := by
  rw [parse, Option.map_eq_some_iff]
  constructor
  · rintro ⟨k, hk, rfl⟩
    obtain ⟨hread, hle⟩ := Option.filter_eq_some_iff.1 hk
    obtain ⟨hwrites, hlt⟩ := natural?_eq_some_iff_writes.1 hread
    have htoNat : (UInt32.ofNat k).toNat = k := UInt32.toNat_ofNat_of_lt' hlt
    refine ⟨htoNat.symm ▸ hwrites, UInt32.le_iff_toNat_le.2 ?_⟩
    rw [htoNat]
    exact of_decide_eq_true hle
  · rintro ⟨hwrites, hle⟩
    refine ⟨mask.toNat, Option.filter_eq_some_iff.2 ⟨?_, ?_⟩, UInt32.ofNat_toNat⟩
    · exact natural?_eq_some_iff_writes.2 ⟨hwrites, mask.toNat_lt⟩
    · exact decide_eq_true (UInt32.le_iff_toNat_le.1 hle)

/-- A text that stands for a number is read as this number, or not at all if it is no mask. -/
theorem Writes.parse_eq {text : String} (h : Writes text.toList n) :
    parse text = if n ≤ bits.toNat then some (UInt32.ofNat n) else none := by
  split
  · rename_i hle
    have htoNat : (UInt32.ofNat n).toNat = n :=
      UInt32.toNat_ofNat_of_lt' (hle.trans_lt bits.toNat_lt)
    refine parse_eq_some_iff_writes.2 ⟨htoNat.symm ▸ h, UInt32.le_iff_toNat_le.2 ?_⟩
    rwa [htoNat]
  · rename_i hlt
    rw [Option.eq_none_iff_forall_ne_some]
    intro mask hmask
    obtain ⟨hwrites, hle⟩ := parse_eq_some_iff_writes.1 hmask
    exact hlt (h.unique hwrites ▸ UInt32.le_iff_toNat_le.1 hle)

/-- The text of a permission value stands for it. -/
theorem writes_octalMode (mode : UInt32) : Writes (octalMode mode).toList mode.toNat := by
  have htext : (octalMode mode).toList
      = [] ++ (['0', 'o'] ++ padded 3 (octal mode.toNat)) ++ [] := by
    simp [octalMode, octalString]
  rw [htext]
  exact .intro (by simp) (Or.inr (Or.inl rfl)) ((spells_toDigits (by decide) _).padded 3) (by simp)

/-- Zeros before the digits make no difference. -/
theorem spells_zeros (h : Spells 8 digits n) (zeros : Nat) :
    Spells 8 (List.replicate zeros '0' ++ digits) n := by
  have hpadded := h.padded (zeros + digits.length)
  rwa [padded, Nat.add_sub_cancel] at hpadded

/-- Reading takes exactly the texts of octal digits, with or without a mark and between blanks, that
stand for a mask: a text that stands for a greater number is refused however long it is, and zeros
before the digits make no difference.  The text of a permission value is read as this value, or not
at all if it is no mask. -/
theorem parse_grammar :
    (∀ (text : String) (mask : UInt32),
        parse text = some mask ↔ Writes text.toList mask.toNat ∧ mask ≤ bits)
      ∧ (∀ (text : String) (n : Nat), Writes text.toList n →
          parse text = if n ≤ bits.toNat then some (UInt32.ofNat n) else none)
      ∧ (∀ (front mark digits back : List Char) (n zeros : Nat),
          (∀ c ∈ front, isBlank c = true) → IsMark mark → Spells 8 digits n →
          (∀ c ∈ back, isBlank c = true) →
          parse (.ofList (front ++ (mark ++ (List.replicate zeros '0' ++ digits)) ++ back))
            = parse (.ofList (front ++ (mark ++ digits) ++ back)))
      ∧ ∀ mode : UInt32, parse (octalMode mode) = if mode ≤ bits then some mode else none := by
  refine ⟨fun text mask => parse_eq_some_iff_writes, fun text n h => h.parse_eq, ?_, fun mode => ?_⟩
  · intro front mark digits back n zeros hfront hmark hdigits hback
    have hwrites : ∀ {more}, Spells 8 more n →
        Writes (String.ofList (front ++ (mark ++ more) ++ back)).toList n := by
      intro more hmore
      rw [String.toList_ofList]
      exact .intro hfront hmark hmore hback
    rw [(hwrites (spells_zeros hdigits zeros)).parse_eq, (hwrites hdigits).parse_eq]
  · rw [(writes_octalMode mode).parse_eq, UInt32.ofNat_toNat]
    simp only [UInt32.le_iff_toNat_le]

/-- A mask between blanks, after a mark and thirty zeros, and a number of thirty digits. -/
theorem parse_grammar_long :
    parse "\u2003 0O00000000000000000000000000000077\n" = some 0o077
      ∧ parse "777777777777777777777777777777" = none
      ∧ parse (octalMode 0o777) = some 0o777 ∧ parse (octalMode 0o1000) = none := by
  obtain ⟨hiff, hvalue, hzeros, hmode⟩ := parse_grammar
  have hdigits : Spells 8 ['7', '7'] 0o077 := spells_toDigits (by decide) 0o077
  have hmask : Writes (['\u2003', ' '] ++ (['0', 'O'] ++ ['7', '7']) ++ ['\n']) 0o077 :=
    .intro (by simp [isBlank]) (Or.inr (Or.inr rfl)) hdigits (by simp [isBlank])
  have hhuge : Writes ([] ++ ([] ++ List.replicate 30 '7') ++ [])
      0o777777777777777777777777777777 :=
    .intro (by simp) (Or.inl rfl) (spells_toDigits (by decide) 0o777777777777777777777777777777)
      (by simp)
  refine ⟨?_, hvalue "777777777777777777777777777777" _ hhuge, hmode 0o777, hmode 0o1000⟩
  refine (hzeros ['\u2003', ' '] ['0', 'O'] ['7', '7'] ['\n'] 0o077 30 (by simp [isBlank])
    (Or.inr (Or.inr rfl)) hdigits (by simp [isBlank])).trans ?_
  exact (hiff _ _).2 ⟨String.toList_ofList ▸ hmask, by decide⟩

end Umask

end PortableFiles
