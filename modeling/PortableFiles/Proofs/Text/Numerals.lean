import Mathlib.Data.Nat.Digits.Lemmas
import PortableFiles.Text.Numeral
set_option autoImplicit false

/-!
# Numerals and their values

Which texts of digits stand for which numbers is said here by the value of a list of digits, and
not by reading (`Numeral.Spells`).  Reading takes these texts and no others, with or without a plus
sign (`unsigned?_eq_some_iff`), and the digits that are written are among them
(`spells_toDigits`).
-/

namespace PortableFiles.Text.Numeral

variable {base bound acc n : Nat} {s : List Char} {c : Char} {d : Nat}

/-! ## Digits -/

/-- Whether a character is the digit with a value.  Letters count in both cases. -/
def IsDigit (d : Nat) (c : Char) : Prop := c = Nat.digitChar d ∨ c = (Nat.digitChar d).toUpper

/-- Where the sixteen digits stand among the characters. -/
theorem digitChar_cases (hd : d < 16) :
    d < 10 ∧ (Nat.digitChar d).toNat = 48 + d ∧ (Nat.digitChar d).toUpper = Nat.digitChar d
      ∨ 10 ≤ d ∧ (Nat.digitChar d).toNat = 87 + d ∧ (Nat.digitChar d).toUpper.toNat = 55 + d := by
  revert d
  decide

/-- A character is read as a digit for its value. -/
theorem digit?_eq_some_iff (hbase : base ≤ 16) :
    digit? base c = some d ↔ d < base ∧ IsDigit d c := by
  have hvalue : ∀ {value : Option Nat}, value.filter (· < base) = some d ↔
      d < base ∧ value = some d := by
    intro value
    rw [Option.filter_eq_some_iff, decide_eq_true_eq, and_comm]
  have hle : ∀ a b : Char, a ≤ b ↔ a.toNat ≤ b.toNat := fun a b => UInt32.le_iff_toNat_le
  have hchar : ∀ a b : Char, a = b ↔ a.toNat = b.toNat := fun a b => Char.toNat_inj.symm
  rw [digit?, hvalue, and_congr_right_iff]
  intro hd
  simp only [hle, IsDigit, hchar c]
  rcases digitChar_cases (hd.trans_le hbase) with ⟨hten, hlower, hupper⟩ | ⟨hten, hlower, hupper⟩
  · rw [hupper, hlower, or_self]
    simp only [Char.reduceToNat]
    split_ifs <;> simp only [Option.some.injEq, false_iff] <;> omega
  · rw [hupper, hlower]
    simp only [Char.reduceToNat]
    split_ifs <;> simp only [Option.some.injEq, false_iff] <;> omega

/-- Where a digit stands among the characters. -/
theorem IsDigit.toNat_cases (h : IsDigit d c) (hd : d < 16) :
    d < 10 ∧ c.toNat = 48 + d ∨ 10 ≤ d ∧ (c.toNat = 87 + d ∨ c.toNat = 55 + d) := by
  rcases digitChar_cases hd with ⟨hten, hlower, hupper⟩ | ⟨hten, hlower, hupper⟩
  · rw [IsDigit, hupper, or_self] at h
    exact Or.inl ⟨hten, h ▸ hlower⟩
  · refine Or.inr ⟨hten, ?_⟩
    rcases h with rfl | rfl
    · exact Or.inl hlower
    · exact Or.inr hupper

/-- A digit in the other case is the same digit. -/
theorem IsDigit.toUpper (h : IsDigit d c) (hd : d < 16) : IsDigit d c.toUpper := by
  have hidem : ∀ d < 16, (Nat.digitChar d).toUpper.toUpper = (Nat.digitChar d).toUpper := by decide
  rcases h with rfl | rfl
  · exact Or.inr rfl
  · exact Or.inr (hidem d hd)

/-! ## Texts of digits -/

/-- Whether a text of digits in a base, the first of which may be zeros, stands for a number. -/
def Spells (base : Nat) (s : List Char) (n : Nat) : Prop :=
  ∃ digits : List Nat, digits ≠ [] ∧ (∀ d ∈ digits, d < base) ∧ List.Forall₂ IsDigit digits s
    ∧ n = Nat.ofDigits base digits.reverse

/-- The digits of a text are taken in after those before them. -/
theorem digits?_eq_some_iff (hbase : base ≤ 16) :
    digits? base acc s = some n ↔
      ∃ digits : List Nat, (∀ d ∈ digits, d < base) ∧ List.Forall₂ IsDigit digits s
        ∧ n = acc * base ^ digits.length + Nat.ofDigits base digits.reverse := by
  induction s generalizing acc with
  | nil =>
    simp only [digits?, Option.some.injEq, List.forall₂_nil_right_iff]
    constructor
    · rintro rfl
      exact ⟨[], by simp, rfl, by simp⟩
    · rintro ⟨_, -, rfl, rfl⟩
      simp
  | cons c rest ih =>
    have hvalue : ∀ (d : Nat) (digits : List Nat),
        (acc * base + d) * base ^ digits.length + Nat.ofDigits base digits.reverse
          = acc * base ^ (d :: digits).length + Nat.ofDigits base (d :: digits).reverse := by
      intro d digits
      rw [List.reverse_cons, Nat.ofDigits_append, Nat.ofDigits_singleton, List.length_reverse,
        List.length_cons]
      ring
    constructor
    · intro h
      rw [digits?] at h
      split at h
      · rename_i d hd
        obtain ⟨hlt, hdigit⟩ := (digit?_eq_some_iff hbase).1 hd
        obtain ⟨digits, hdigits, hspells, rfl⟩ := ih.1 h
        exact ⟨d :: digits, List.forall_mem_cons.2 ⟨hlt, hdigits⟩, .cons hdigit hspells,
          hvalue d digits⟩
      · cases h
    · rintro ⟨_, hdigits, hspells, rfl⟩
      cases hspells with
      | @cons d _ digits _ hdigit hrest =>
        obtain ⟨hlt, hdigits⟩ := List.forall_mem_cons.1 hdigits
        rw [digits?, (digit?_eq_some_iff hbase).2 ⟨hlt, hdigit⟩]
        exact ih.2 ⟨digits, hdigits, hrest, (hvalue d digits).symm⟩

/-- A text of digits is read as what it stands for, below the bound. -/
theorem natural?_eq_some_iff (hbase : base ≤ 16) :
    natural? base bound s = some n ↔ Spells base s n ∧ n < bound := by
  unfold natural?
  by_cases hs : s = []
  · subst hs
    rw [if_pos rfl]
    constructor
    · intro h
      cases h
    · rintro ⟨⟨digits, hne, -, hspells, -⟩, -⟩
      exact absurd (List.forall₂_nil_right_iff.1 hspells) hne
  · rw [if_neg hs, Option.filter_eq_some_iff, decide_eq_true_eq, and_congr_left_iff]
    intro _
    rw [digits?_eq_some_iff hbase]
    simp only [Nat.zero_mul, Nat.zero_add]
    refine exists_congr fun digits => (and_iff_right_of_imp ?_).symm
    rintro ⟨-, hspells, -⟩ rfl
    exact hs (List.forall₂_nil_left_iff.1 hspells)

/-- Every character of a text of digits is one. -/
theorem Spells.isDigit_of_mem (h : Spells base s n) (hc : c ∈ s) : ∃ d < base, IsDigit d c := by
  obtain ⟨digits, -, hdigits, hspells, -⟩ := h
  induction hspells with
  | nil => cases hc
  | @cons d b digits s hdigit _ ih =>
    rcases List.mem_cons.1 hc with rfl | hc
    · exact ⟨d, hdigits d List.mem_cons_self, hdigit⟩
    · exact ih hc fun d hd => hdigits d (List.mem_cons_of_mem _ hd)

/-- Signs and separators stand before all digits. -/
theorem Spells.le_of_mem (h : Spells base s n) (hbase : base ≤ 16) (hc : c ∈ s) :
    48 ≤ c.toNat := by
  obtain ⟨d, hd, hdigit⟩ := h.isDigit_of_mem hc
  have hcases := hdigit.toNat_cases (hd.trans_le hbase)
  omega

/-- Whether a text of digits, after an optional plus sign, stands for a number. -/
def SpellsSigned (base : Nat) (s : List Char) (n : Nat) : Prop :=
  Spells base s n ∨ ∃ digits, s = '+' :: digits ∧ Spells base digits n

/-- Reading takes texts of digits, with or without a plus sign, for what they stand for, below the
bound. -/
theorem unsigned?_eq_some_iff (hbase : base ≤ 16) :
    unsigned? base bound s = some n ↔ SpellsSigned base s n ∧ n < bound := by
  unfold unsigned? SpellsSigned
  split
  · rename_i digits
    have hplus : ¬ Spells base ('+' :: digits) n := by
      intro h
      exact absurd (h.le_of_mem hbase List.mem_cons_self) (by decide)
    rw [natural?_eq_some_iff hbase, and_congr_left_iff]
    intro _
    simp [hplus]
  · rename_i hplus
    rw [natural?_eq_some_iff hbase, and_congr_left_iff]
    intro _
    refine (or_iff_left ?_).symm
    rintro ⟨digits, rfl, -⟩
    exact hplus digits rfl

/-- A text stands for one number at most. -/
theorem SpellsSigned.unique {m : Nat} (h : SpellsSigned base s m) (h' : SpellsSigned base s n)
    (hbase : base ≤ 16) : m = n := by
  have hread : ∀ {k}, SpellsSigned base s k → k ≤ m + n → unsigned? base (m + n + 1) s = some k :=
    fun hk hle => (unsigned?_eq_some_iff hbase).2 ⟨hk, Nat.lt_succ_of_le hle⟩
  apply Option.some.inj
  rw [← hread h (by omega), hread h' (by omega)]

/-! ## Written digits -/

/-- The digits that are written for a number stand for it. -/
theorem spells_toDigits (hone : 1 < base) (n : Nat) : Spells base (Nat.toDigits base n) n := by
  induction n using Nat.strong_induction_on with
  | _ n ih =>
    rw [Nat.toDigits_eq_if hone]
    split
    · rename_i hlt
      exact ⟨[n], by simp, by simpa using hlt, .cons (Or.inl rfl) .nil, by simp⟩
    · rename_i hlt
      obtain ⟨digits, hne, hdigits, hspells, hvalue⟩ :=
        ih (n / base) (Nat.div_lt_self (by omega) hone)
      refine ⟨digits ++ [n % base], by simp, ?_, ?_, ?_⟩
      · intro d hd
        rcases List.mem_append.1 hd with hd | hd
        · exact hdigits d hd
        · rw [List.mem_singleton.1 hd]
          exact Nat.mod_lt n (by omega)
      · exact List.rel_append hspells (.cons (Or.inl rfl) .nil)
      · rw [List.reverse_append, List.reverse_singleton, List.singleton_append,
          Nat.ofDigits_cons, ← hvalue]
        exact (Nat.mod_add_div n base).symm

/-- Digits in upper case stand for the same number. -/
theorem Spells.map_toUpper (h : Spells base s n) (hbase : base ≤ 16) :
    Spells base (s.map Char.toUpper) n := by
  obtain ⟨digits, hne, hdigits, hspells, hvalue⟩ := h
  refine ⟨digits, hne, hdigits, ?_, hvalue⟩
  clear hne hvalue
  induction hspells with
  | nil => exact .nil
  | @cons d c digits s hdigit _ ih =>
    obtain ⟨hlt, hdigits⟩ := List.forall_mem_cons.1 hdigits
    exact .cons (hdigit.toUpper (hlt.trans_le hbase)) (ih hdigits)

/-- Zeros in front make no difference. -/
theorem Spells.padded (h : Spells base s n) (width : Nat) : Spells base (padded width s) n := by
  obtain ⟨digits, hne, hdigits, hspells, hvalue⟩ := h
  have hpos : 0 < base := by
    obtain ⟨d, rest, rfl⟩ := List.exists_cons_of_ne_nil hne
    exact (Nat.zero_le d).trans_lt (hdigits d List.mem_cons_self)
  refine ⟨List.replicate (width - s.length) 0 ++ digits, by simp [hne], ?_, ?_, ?_⟩
  · intro d hd
    rcases List.mem_append.1 hd with hd | hd
    · rw [(List.mem_replicate.1 hd).2]
      exact hpos
    · exact hdigits d hd
  · refine List.rel_append ?_ hspells
    generalize width - s.length = zeros
    induction zeros with
    | zero => exact .nil
    | succ zeros ih => exact .cons (Or.inl rfl) ih
  · rw [List.reverse_append, Nat.ofDigits_append, ← hvalue, List.reverse_replicate,
      Nat.ofDigits_replicate_zero, Nat.mul_zero, Nat.add_zero]

end PortableFiles.Text.Numeral
