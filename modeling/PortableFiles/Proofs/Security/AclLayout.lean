import Mathlib.Algebra.Order.BigOperators.Group.List
import PortableFiles.Proofs.Security.AclCursor
set_option autoImplicit false

/-!
# Access control lists as others lay them out

Other writers put entries of other types between those that allow and deny, leave bytes between an
identifier and the end of its entry, fill the reserved bytes of the header, and put the list in
front of something else.  From every such layout exactly the entries that allow and deny are read,
in their order (`Acl.decode_layout`).
-/

namespace PortableFiles.Acl

/-- An entry as anyone may lay it out. -/
inductive Item where
  /-- An entry that allows or denies.  Its length counts the bytes after the identifier, too. -/
  | known (ace : Ace) (fits : ace.trustee.Fits) (padding : Bytes)
  /-- An entry of another type, of which nothing but its length is known. -/
  | other (type : UInt8) (unknown : type ≠ 0 ∧ type ≠ 1) (flags : UInt8) (body : Bytes)

namespace Item

/-- The byte for the type. -/
def type : Item → UInt8
  | known ace _ _ => kindByte ace.kind
  | other type _ _ _ => type

/-- The byte of flags. -/
def flags : Item → UInt8
  | known ace _ _ => ace.flags
  | other _ _ flags _ => flags

/-- What follows type, flags and length. -/
def content : Item → Bytes
  | known ace _ padding => aceContent ace padding
  | other _ _ _ body => body

/-- The length of the entry. -/
def length (i : Item) : Nat := 4 + i.content.length

/-- The entry in binary. -/
def bytes (i : Item) : Bytes := entryBytes i.type i.flags i.content

/-- The entry that is read, if it is one that allows or denies. -/
def ace? : Item → Option Ace
  | known ace _ _ => some ace
  | other _ _ _ _ => none

@[simp] theorem length_bytes (i : Item) : i.bytes.length = i.length :=
  length_entryBytes i.type i.flags i.content

/-- One entry in front of others adds what it says to what is read of them. -/
theorem decodeAces_bytes {count : Nat} {i : Item} (h : i.length < 256 ^ 2) (rest : Bytes) :
    decodeAces (count + 1) (i.bytes ++ rest)
      = (decodeAces count rest).map fun aces => i.ace?.toList ++ aces := by
  cases i with
  | known ace fits padding => exact decodeAces_aceContent fits h rest
  | other type unknown flags body =>
    have hkind : kindOf? type = none := by
      rw [kindOf?, if_neg unknown.1, if_neg unknown.2]
    rw [bytes, decodeAces_entryBytes h]
    simp only [Item.type, ace?, hkind, Option.toList_none, List.nil_append, Option.map_id']

end Item

/-- What entries laid out by anyone take up together. -/
def itemsLength (items : List Item) : Nat := (items.map Item.length).sum

/-- A list as anyone may lay it out, with whatever follows it. -/
structure Layout where
  revision : UInt8
  reserved : UInt8
  items : List Item
  /-- The last two bytes of the header. -/
  filler : UInt8 × UInt8
  trailing : Bytes
  fits : 8 + itemsLength items ≤ 65535

namespace Layout

/-- The size of the list. -/
def size (l : Layout) : Nat := 8 + itemsLength l.items

/-- The header of the list. -/
def header (l : Layout) : Bytes :=
  [l.revision, l.reserved] ++ Bytes.littleEndian 2 l.size ++ Bytes.littleEndian 2 l.items.length
    ++ [l.filler.1, l.filler.2]

/-- The list in binary, and what follows it. -/
def bytes (l : Layout) : Bytes := l.header ++ l.items.flatMap Item.bytes ++ l.trailing

/-- The entries of the list that allow or deny. -/
def aces (l : Layout) : List Ace := l.items.filterMap Item.ace?

end Layout

variable {items : List Item} {l : Layout}

theorem length_flatMap_bytes (items : List Item) :
    (items.flatMap Item.bytes).length = itemsLength items := by
  simp only [List.length_flatMap, Item.length_bytes, itemsLength]

/-- No entry is longer than all together. -/
theorem length_le_itemsLength {i : Item} (h : i ∈ items) : i.length ≤ itemsLength items :=
  List.le_sum_of_mem (List.mem_map_of_mem h)

/-- Every entry takes up four bytes or more. -/
theorem four_mul_length_le (items : List Item) : 4 * items.length ≤ itemsLength items := by
  have hfour : ∀ n ∈ items.map Item.length, 4 ≤ n := by
    intro n hn
    obtain ⟨i, -, rfl⟩ := List.mem_map.1 hn
    exact Nat.le_add_right 4 _
  have hle := List.card_nsmul_le_sum (items.map Item.length) 4 hfour
  rwa [List.length_map, Nat.nsmul_eq_mul, Nat.mul_comm] at hle

/-- Of entries that are laid out one after the other, those that allow or deny are read. -/
theorem decodeAces_items (h : ∀ i ∈ items, i.length < 256 ^ 2) :
    decodeAces items.length (items.flatMap Item.bytes) = some (items.filterMap Item.ace?) := by
  induction items with
  | nil => rfl
  | cons i items ih =>
    obtain ⟨hlength, hothers⟩ := List.forall_mem_cons.1 h
    rw [List.flatMap_cons, List.length_cons, Item.decodeAces_bytes hlength, ih hothers,
      Option.map_some, List.filterMap_cons]
    cases i.ace? <;> rfl

theorem Layout.length_header (l : Layout) : l.header.length = 8 := rfl

theorem Layout.claimedSize_bytes (l : Layout) : claimedSize l.bytes = l.size := by
  have hbytes : (l.bytes.drop 2).take 2 = Bytes.littleEndian 2 l.size := rfl
  rw [claimedSize, hbytes, Bytes.ofLittleEndian_littleEndian_of_lt (Nat.lt_succ_of_le l.fits)]

theorem Layout.claimedCount_bytes (l : Layout) : claimedCount l.bytes = l.items.length := by
  have hbytes : (l.bytes.drop 4).take 2 = Bytes.littleEndian 2 l.items.length := rfl
  have hcount : l.items.length < 256 ^ 2 := by
    have hle := four_mul_length_le l.items
    have hfits := l.fits
    omega
  rw [claimedCount, hbytes, Bytes.ofLittleEndian_littleEndian_of_lt hcount]

/-- From a list, however it is laid out and whatever follows it, exactly the entries that allow and
deny are read, in their order. -/
theorem Layout.decode_bytes (l : Layout) : decode l.bytes = some l.aces := by
  have hlist : (l.header ++ l.items.flatMap Item.bytes).length = l.size := by
    rw [List.length_append, l.length_header, length_flatMap_bytes, Layout.size]
  have hitems : ∀ i ∈ l.items, i.length < 256 ^ 2 := by
    intro i hi
    have hle := length_le_itemsLength hi
    have hfits := l.fits
    omega
  have hbody : (l.bytes.take l.size).drop 8 = l.items.flatMap Item.bytes := by
    rw [Layout.bytes, List.take_left' hlist, List.drop_left' l.length_header]
  rw [decode_eq_some_iff, l.claimedSize_bytes, l.claimedCount_bytes, hbody]
  refine ⟨⟨?_, ?_⟩, decodeAces_items hitems⟩
  · rw [Layout.bytes, List.append_assoc, List.length_append, l.length_header]
    exact Nat.le_add_right 8 _
  · rw [Layout.bytes, List.length_append, hlist]
    exact Nat.le_add_right l.size _

/-- Reading lists that others laid out.  Entries of other types, bytes after identifiers and bytes
after the list neither take an entry away nor add or change one.  A byte string without room for a
header, or shorter than the size in it, gives nothing.  And reading any bytes by position never
looks at a position that is not there. -/
theorem decode_layout :
    (∀ l : Layout, decode l.bytes = some l.aces)
      ∧ (∀ b : Bytes, b.length < 8 ∨ b.length < claimedSize b → decode b = none)
      ∧ ∀ b : Bytes, Cursor.list b = Cursor.given (decode b)
        ∧ Cursor.list b ≠ .error .outOfRange := by
  refine ⟨Layout.decode_bytes, ?_, fun b => ⟨Cursor.list_eq b, ?_⟩⟩
  · intro b hshort
    rw [decode_eq, if_neg]
    omega
  · rw [Cursor.list_eq]
    cases decode b <;> simp

/-- A list of an entry for objects, an entry that denies with two bytes after its identifier, and
one that allows, in front of three more bytes. -/
def objectList : Layout where
  revision := 4
  reserved := 9
  items :=
    [.other 5 (by decide) 3 [255, 255, 255, 255],
      .known ⟨.deny, 2, 278, .groupProxy⟩ (by constructor <;> decide) [0, 1],
      .known (.allow .everyone 129) (by constructor <;> decide) []]
  filler := (7, 8)
  trailing := [2, 0, 0]
  fits := by decide

theorem decode_layout_objectList :
    decode objectList.bytes = some [⟨.deny, 2, 278, .groupProxy⟩, .allow .everyone 129]
      ∧ (objectList.bytes.take 40).length < claimedSize (objectList.bytes.take 40)
      ∧ decode (objectList.bytes.take 40) = none
      ∧ Cursor.list objectList.bytes
        = .ok [⟨.deny, 2, 278, .groupProxy⟩, .allow .everyone 129] := by
  have hread : decode objectList.bytes
      = some [⟨.deny, 2, 278, .groupProxy⟩, .allow .everyone 129] := decode_layout.1 objectList
  have hshort : (objectList.bytes.take 40).length < claimedSize (objectList.bytes.take 40) := by
    decide
  refine ⟨hread, hshort, decode_layout.2.1 _ (.inr hshort), ?_⟩
  rw [(decode_layout.2.2 _).1, hread, Cursor.given_some]

end PortableFiles.Acl
