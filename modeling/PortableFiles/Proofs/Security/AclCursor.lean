import Mathlib.Data.List.Basic
import PortableFiles.Proofs.Security.AclBinary
set_option autoImplicit false

/-!
# Reading access control lists by position

A second reader of binary lists, which moves an offset over a byte string that stays as it is and
looks bytes up by their positions.  Some of its looks ask whether the bytes are there, and without
them reading gives nothing; the others take a position for granted, and would be out of range if it
were not there.  None of these ever is, for any bytes at all: the reader gives what `Acl.decode`
gives (`Cursor.list_eq`).
-/

namespace PortableFiles.Cursor

/-- Why reading by position ends without a result. -/
inductive Stop where
  /-- Bytes that were asked for are not there. -/
  | short
  /-- A position that was taken for granted is not there. -/
  | outOfRange
  deriving DecidableEq, Repr

/-! ## Looks at bytes -/

/-- The bytes from one position up to another, if they are there. -/
def get (b : Bytes) (start stop : Nat) : Except Stop Bytes :=
  if start ≤ stop ∧ stop ≤ b.length then .ok ((b.drop start).take (stop - start))
  else .error .short

/-- The byte at a position that is taken for granted. -/
def index (b : Bytes) (i : Nat) : Except Stop UInt8 :=
  match b[i]? with
  | some x => .ok x
  | none => .error .outOfRange

/-- The bytes from a position on that is taken for granted. -/
def skip (b : Bytes) (start : Nat) : Except Stop Bytes :=
  if start ≤ b.length then .ok (b.drop start) else .error .outOfRange

/-- The number in the two bytes from a position on. -/
def word (b : Bytes) (i : Nat) : Except Stop Nat := do
  return Bytes.ofLittleEndian [← index b i, ← index b (i + 1)]

/-- The number in four bytes. -/
def number (b : Bytes) : Except Stop UInt32 := do
  return UInt32.ofNat
    (Bytes.ofLittleEndian [← index b 0, ← index b 1, ← index b 2, ← index b 3])

/-! ## The reader -/

/-- The given count of numbers in a byte string, four bytes each. -/
def numbers : Nat → Bytes → Except Stop (List UInt32)
  | 0, _ => .ok []
  | count + 1, b => do
    let first ← number (b.take 4)
    let others ← numbers count (b.drop 4)
    return first :: others

/-- The identifier at the front of a byte string. -/
def sid : Bytes → Except Stop Sid
  | revision :: count :: rest => do
    let authority ← get rest 0 6
    let tail ← get rest 6 (6 + 4 * count.toNat)
    let subs ← numbers (tail.length / 4) tail
    return ⟨revision, UInt64.ofNat (Bytes.ofBigEndian authority), subs⟩
  | _ => .error .short

/-- The entry of the given kind in the bytes of one entry, with the flags in its head. -/
def ace (kind : AceKind) (head entry : Bytes) : Except Stop Ace := do
  let mask ← get entry 4 8
  let flags ← index head 1
  let mask ← number mask
  let trustee ← sid (← skip entry 8)
  return ⟨kind, flags, mask, trustee⟩

/-- The entries of known types among the given count of entries from an offset on. -/
def entries (body : Bytes) : Nat → Nat → Except Stop (List Ace)
  | 0, _ => .ok []
  | count + 1, offset => do
    let head ← get body offset (offset + 4)
    let length ← word head 2
    let entry ← get body offset (offset + length)
    match Acl.kindOf? (← index head 0) with
    | none => entries body count (offset + length)
    | some kind => do
      let first ← ace kind head entry
      let others ← entries body count (offset + length)
      return first :: others

/-- The list in a byte string, whatever follows it. -/
def list (b : Bytes) : Except Stop (List Ace) := do
  let header ← get b 0 8
  let size ← word header 2
  let count ← word header 4
  let body ← get b 0 size
  entries body count 8

/-! ## Each look finds what the other reader finds -/

/-- A result that is there, or else a stop for want of bytes. -/
def given {α : Type} : Option α → Except Stop α
  | some a => .ok a
  | none => .error .short

variable {α β : Type} {b : Bytes} {count start len : Nat}

@[simp] theorem given_some (a : α) : given (some a) = .ok a := rfl

@[simp] theorem given_none : given (none : Option α) = .error .short := rfl

@[simp] theorem ok_bind (a : α) (f : α → Except Stop β) : (Except.ok a >>= f) = f a := rfl

theorem get_eq (b : Bytes) (start len : Nat) :
    get b start (start + len) = given (b.slice? start len) := by
  by_cases h : start + len ≤ b.length
  · rw [get, if_pos ⟨Nat.le_add_right start len, h⟩, Nat.add_sub_cancel_left, Bytes.slice?, if_pos h,
      given_some]
  · rw [get, if_neg (fun both => h both.2), Bytes.slice?, if_neg h, given_none]

theorem get_zero_eq (b : Bytes) (len : Nat) : get b 0 len = given (b.slice? 0 len) := by
  have h := get_eq b 0 len
  rwa [Nat.zero_add] at h

/-- A slice at the front of what follows an offset is a slice from the offset on. -/
theorem slice?_drop (h : 0 < len ∨ start ≤ b.length) :
    Bytes.slice? (b.drop start) 0 len = b.slice? start len := by
  have hiff : 0 + len ≤ b.length - start ↔ start + len ≤ b.length := by omega
  simp only [Bytes.slice?, List.length_drop, List.drop_zero, hiff]

theorem index_eq {i : Nat} (h : i < b.length) : index b i = .ok b[i] := by
  rw [index, List.getElem?_eq_getElem h]

theorem word_eq {i : Nat} (h : i + 1 < b.length) :
    word b i = .ok (Bytes.ofLittleEndian ((b.drop i).take 2)) := by
  have hi : i < b.length := Nat.lt_of_succ_lt h
  rw [word, index_eq hi, index_eq h, List.drop_eq_getElem_cons hi, List.drop_eq_getElem_cons h]
  rfl

theorem number_eq (h : b.length = 4) : number b = .ok (UInt32.ofNat (Bytes.ofLittleEndian b)) := by
  obtain ⟨x, y, z, w, rfl⟩ := List.length_eq_four.1 h
  rfl

/-- In a byte string of their length, all numbers are there. -/
theorem numbers_eq (h : 4 * count ≤ b.length) :
    numbers count (b.take (4 * count)) = given (Sid.readSubs count b) := by
  induction count generalizing b with
  | zero => rfl
  | succ count ih =>
    have hword : b.slice? 0 4 = some (b.take 4) := Bytes.slice?_eq_some_iff.2 ⟨by omega, rfl⟩
    have hfront : (b.take (4 * (count + 1))).take 4 = b.take 4 := by
      rw [List.take_take]
      congr 1
    have hrest : (b.take (4 * (count + 1))).drop 4 = (b.drop 4).take (4 * count) := by
      rw [List.drop_take]
      rfl
    rw [numbers, hfront, hrest, number_eq (Bytes.length_of_slice? hword),
      ih (by rw [List.length_drop]; omega), Sid.readSubs, hword]
    cases Sid.readSubs count (b.drop 4) <;> rfl

theorem sid_eq (b : Bytes) : sid b = given (Sid.ofBytes? b) := by
  match b with
  | [] | [_] => rfl
  | revision :: n :: rest =>
    rw [sid, Sid.ofBytes?, get_zero_eq, get_eq]
    cases hauthority : Bytes.slice? rest 0 6 with
    | none => rfl
    | some authority =>
      by_cases hle : 6 + 4 * n.toNat ≤ rest.length
      · have hrest : 4 * n.toNat ≤ (rest.drop 6).length := by
          rw [List.length_drop]
          omega
        have htail : Bytes.slice? rest 6 (4 * n.toNat) = some ((rest.drop 6).take (4 * n.toNat)) :=
          Bytes.slice?_eq_some_iff.2 ⟨hle, rfl⟩
        have hcount : ((rest.drop 6).take (4 * n.toNat)).length / 4 = n.toNat := by
          rw [List.length_take_of_le hrest, Nat.mul_div_cancel_left _ (by decide)]
        rw [htail]
        simp only [given_some, ok_bind, hcount, numbers_eq hrest, Option.bind_eq_bind,
          Option.bind_some]
        cases Sid.readSubs n.toNat (rest.drop 6) <;> rfl
      · have htail : Bytes.slice? rest 6 (4 * n.toNat) = none := if_neg hle
        have hsubs : Sid.readSubs n.toNat (rest.drop 6) = none := by
          apply Option.eq_none_iff_forall_not_mem.2
          intro subs hread
          obtain ⟨-, hlength⟩ := Sid.length_of_readSubs hread
          rw [List.length_drop] at hlength
          have hsix := (Bytes.slice?_eq_some_iff.1 hauthority).1
          omega
        rw [htail, hsubs]
        rfl

/-- Where the mask is, the identifier may be looked for behind it. -/
theorem ace_eq (kind : AceKind) (type flags low high : UInt8) (entry : Bytes) :
    ace kind [type, flags, low, high] entry = given (Acl.decodeAce kind flags entry) := by
  have hget : get entry 4 8 = given (entry.slice? 4 4) := get_eq entry 4 4
  rw [ace, Acl.decodeAce, hget]
  cases hmask : entry.slice? 4 4 with
  | none => rfl
  | some mask =>
    obtain ⟨height, -⟩ := Bytes.slice?_eq_some_iff.1 hmask
    have hskip : skip entry 8 = .ok (entry.drop 8) := if_pos height
    have hflags : index [type, flags, low, high] 1 = .ok flags := rfl
    simp only [given_some, ok_bind, hflags, number_eq (Bytes.length_of_slice? hmask), hskip,
      sid_eq, Option.bind_eq_bind, Option.bind_some]
    cases Sid.ofBytes? (entry.drop 8) <;> rfl

/-- From an offset on, the entries are those at the front of what follows it. -/
theorem entries_eq (body : Bytes) (count offset : Nat) :
    entries body count offset = given (Acl.decodeAces count (body.drop offset)) := by
  induction count generalizing offset with
  | zero => rfl
  | succ count ih =>
    -- A head that is found puts the offset within the body, where an entry without length is found
    -- in the same way by both readers.
    rw [entries, Acl.decodeAces, get_eq, slice?_drop (Or.inl (by decide))]
    cases hhead : body.slice? offset 4 with
    | none => rfl
    | some head =>
      obtain ⟨hle, -⟩ := Bytes.slice?_eq_some_iff.1 hhead
      obtain ⟨type, flags, low, high, rfl⟩ := List.length_eq_four.1 (Bytes.length_of_slice? hhead)
      have hlength : word [type, flags, low, high] 2
          = .ok (Bytes.ofLittleEndian [low, high]) := rfl
      have htype : index [type, flags, low, high] 0 = .ok type := rfl
      simp only [given_some, ok_bind, hlength, htype, get_eq, ih, ace_eq, List.drop_drop,
        slice?_drop (Or.inr (Nat.le_of_add_right_le hle)), Option.bind_eq_bind,
        Option.bind_some]
      cases hentry : body.slice? offset (Bytes.ofLittleEndian [low, high]) with
      | none => rfl
      | some entry =>
        cases Acl.kindOf? type with
        | none => rfl
        | some kind =>
          simp only [given_some, ok_bind, Option.bind_some]
          cases Acl.decodeAce kind flags entry with
          | none => rfl
          | some first =>
            cases Acl.decodeAces count
              (body.drop (offset + Bytes.ofLittleEndian [low, high])) <;> rfl

/-- No position that the reader takes for granted is ever out of range, and it gives what the other
reader gives. -/
theorem list_eq (b : Bytes) : list b = given (Acl.decode b) := by
  rw [list, Acl.decode, get_zero_eq]
  cases hheader : b.slice? 0 8 with
  | none => rfl
  | some header =>
    have height := Bytes.length_of_slice? hheader
    have hsize : word header 2 = .ok (Bytes.ofLittleEndian ((header.drop 2).take 2)) :=
      word_eq (by omega)
    have hcount : word header 4 = .ok (Bytes.ofLittleEndian ((header.drop 4).take 2)) :=
      word_eq (by omega)
    simp only [given_some, ok_bind, hsize, hcount, get_zero_eq, entries_eq, Option.bind_eq_bind,
      Option.bind_some]
    cases b.slice? 0 (Bytes.ofLittleEndian ((header.drop 2).take 2)) <;> rfl

end PortableFiles.Cursor
