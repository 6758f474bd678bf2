import PortableFiles.Kernel.Walk
import PortableFiles.Proofs.Text.Encoding
import PortableFiles.Text.Numeral
set_option autoImplicit false

/-!
# The names along a path

A walk looks at the pieces of a path between separators and passes over empty ones
(`Path.names`).  The names along `dir` joined with a plain name are the names along `dir` and that
name (`Path.names_join`), and a drawn number is such a name (`Path.isPlain_decimalString`).
-/

namespace PortableFiles

namespace Path

/-- The pieces of some bytes between separators, without the empty ones. -/
def names (bytes : Bytes) : List Bytes := (Text.splitOn (· = slash) bytes).filter (· ≠ [])

/-- A name that is one piece. -/
structure IsPlain (name : Name) : Prop where
  ne_nil : name ≠ []
  noSlash : ∀ b ∈ name, b ≠ slash

theorem steps_ofBytes (bytes : Bytes) :
    (Route.ofBytes bytes).steps = (names bytes).map Route.stepOf := rfl

theorem names_nil : names [] = [] := rfl

/-- Both sides of a separator have their own names. -/
theorem names_append (l r : Bytes) : names (l ++ slash :: r) = names l ++ names r := by
  rw [names, Text.splitOn_append (by simp), List.filter_append, names, names]

theorem names_slash_cons (r : Bytes) : names (slash :: r) = names r := names_append [] r

theorem IsPlain.names_eq {name : Name} (h : IsPlain name) : names name = [name] := by
  have hsplit : Text.splitOn (· = slash) name = [name] :=
    Text.splitOn_of_forall_not fun b hb => decide_eq_false (h.noSlash b hb)
  rw [names, hsplit]
  simp [h.ne_nil]

/-- Pieces that are put together around separators are the names. -/
theorem names_joinWith {pieces : List Bytes} (h : ∀ piece ∈ pieces, ∀ b ∈ piece, b ≠ slash) :
    names (Text.joinWith slash pieces) = pieces.filter (· ≠ []) :=
  Text.filter_splitOn_joinWith fun piece hpiece hslash => h piece hpiece slash hslash rfl

/-- The names along a directory joined with a plain name. -/
theorem names_join (dir : Path) {name : Name} (h : IsPlain name) :
    names (dir.join name).bytes = names dir.bytes ++ [name] := by
  have hhead : ¬ name.head? = some slash := by
    intro hslash
    exact h.noSlash slash (List.mem_of_head? hslash) rfl
  unfold join
  rw [if_neg hhead]
  split
  · rename_i hdir
    rcases hdir with hempty | hlast
    · rw [hempty]
      exact h.names_eq
    · obtain ⟨front, hfront⟩ := List.getLast?_eq_some_iff.1 hlast
      have hbefore : names dir.bytes = names front := by
        rw [hfront, names_append, names_nil, List.append_nil]
      rw [hbefore, hfront, List.append_assoc]
      exact (names_append front name).trans (by rw [h.names_eq])
  · rw [names_append, h.names_eq]

end Path

/-! ## Numbers as names -/

namespace Bytes

/-- A digit is one byte, from that of `0` to that of `9`. -/
theorem utf8EncodeChar_of_isDigit {c : Char} (h : c.isDigit = true) :
    ∃ b : UInt8, String.utf8EncodeChar c = [b] ∧ 48 ≤ b.toNat ∧ b.toNat ≤ 57 := by
  simp only [Char.isDigit, ge_iff_le, Bool.and_eq_true, decide_eq_true_eq,
    UInt32.le_iff_toNat_le] at h
  have hlow : 48 ≤ c.val.toNat := h.1
  have hhigh : c.val.toNat ≤ 57 := h.2
  have hascii : c.val.toNat ≤ 0x7f := by omega
  refine ⟨UInt8.ofNat c.val.toNat, ?_, ?_, ?_⟩
  · exact if_pos hascii
  · rw [UInt8.toNat_ofNat']
    omega
  · rw [UInt8.toNat_ofNat']
    omega

/-- The bytes of a number in decimal are those of digits, and there are some. -/
theorem ofString_decimalString (n : Nat) :
    ofString (Text.Numeral.decimalString n) ≠ []
      ∧ ∀ b ∈ ofString (Text.Numeral.decimalString n), 48 ≤ b.toNat ∧ b.toNat ≤ 57 := by
  have hdigits : ∀ c ∈ Nat.toDigits 10 n, c.isDigit = true := fun c hc =>
    Nat.isDigit_of_mem_toDigits (by decide) (by decide) hc
  rw [Text.Numeral.decimalString, Text.Numeral.decimal, ofString_ofList]
  constructor
  · obtain ⟨c, rest, hcons⟩ := List.exists_cons_of_ne_nil (Nat.toDigits_ne_nil (n := n) (b := 10))
    rw [hcons] at hdigits ⊢
    obtain ⟨b, hb, -⟩ := utf8EncodeChar_of_isDigit (hdigits c List.mem_cons_self)
    rw [List.flatMap_cons, hb]
    simp
  · intro b hb
    obtain ⟨c, hc, hbc⟩ := List.mem_flatMap.1 hb
    obtain ⟨b', hb', hrange⟩ := utf8EncodeChar_of_isDigit (hdigits c hc)
    rw [hb'] at hbc
    rw [List.mem_singleton.1 hbc]
    exact hrange

/-- A number in decimal has as many bytes as digits. -/
theorem length_ofString_decimalString (n : Nat) :
    (ofString (Text.Numeral.decimalString n)).length = (Nat.toDigits 10 n).length := by
  have hone : ∀ c ∈ Nat.toDigits 10 n, (String.utf8EncodeChar c).length = 1 := by
    intro c hc
    obtain ⟨b, hb, -⟩ :=
      utf8EncodeChar_of_isDigit (Nat.isDigit_of_mem_toDigits (by decide) (by decide) hc)
    rw [hb, List.length_singleton]
  rw [Text.Numeral.decimalString, Text.Numeral.decimal, ofString_ofList, List.length_flatMap,
    List.map_congr_left hone, List.map_const', List.sum_replicate_nat, Nat.mul_one]

end Bytes

namespace Path

/-- A path joined with a name is written with a little more than both. -/
theorem length_join_le (dir : Path) (name : Name) :
    (dir.join name).bytes.length ≤ dir.bytes.length + 1 + name.length := by
  unfold join
  split
  · exact Nat.le_add_left _ _
  · split
    · rw [List.length_append]
      omega
    · rw [List.length_append, List.length_cons]
      omega

theorem mem_bytes_of_mem_join {dir : Path} {name : Name} {b : UInt8}
    (hb : b ∈ (dir.join name).bytes) : b ∈ dir.bytes ∨ b = slash ∨ b ∈ name := by
  unfold join at hb
  split at hb
  · exact Or.inr (Or.inr hb)
  · split at hb
    · exact (List.mem_append.1 hb).imp_right Or.inr
    · exact (List.mem_append.1 hb).imp_right List.mem_cons.1

/-- A number in decimal is a plain name. -/
theorem isPlain_decimalString (n : Nat) :
    IsPlain (Bytes.ofString (Text.Numeral.decimalString n)) := by
  obtain ⟨hne, hdigits⟩ := Bytes.ofString_decimalString n
  refine ⟨hne, ?_⟩
  rintro b hb rfl
  have hlow := (hdigits slash hb).1
  revert hlow
  decide

/-- A walk goes down to a number in decimal. -/
theorem stepOf_decimalString (n : Nat) :
    Route.stepOf (Bytes.ofString (Text.Numeral.decimalString n))
      = .descend (Bytes.ofString (Text.Numeral.decimalString n)) := by
  obtain ⟨-, hdigits⟩ := Bytes.ofString_decimalString n
  have hdot : dot ∉ Bytes.ofString (Text.Numeral.decimalString n) := by
    intro hb
    have hlow := (hdigits dot hb).1
    revert hlow
    decide
  unfold Route.stepOf
  rw [if_neg, if_neg]
  · intro h
    exact hdot (by rw [h]; exact List.mem_cons_self)
  · intro h
    exact hdot (by rw [h]; exact List.mem_cons_self)

end Path

end PortableFiles
