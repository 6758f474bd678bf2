import PortableFiles.Proofs.Security.SidBinary
import PortableFiles.Security.Acl.Binary
set_option autoImplicit false

/-!
# Access control lists through bytes

A list that is written and read again is the same list exactly if nothing of it was cut off: every
trustee fits its binary form, and the list fits the sixteen bits of its size
(`Acl.decode_encode_iff`).  The two directions are facts about reading and about writing.  Whatever
is read, from any bytes, is within these bounds (`Acl.fits_of_decode`), so that no list beyond them
can come back; and a list within them is read from its binary form.  Together they make writing
what was read a normal form, which is no longer than the list was (`Acl.encode_of_decode`).
-/

namespace PortableFiles.Acl

variable {aces : List Ace} {a : Ace} {b : Bytes} {count : Nat}

/-! ## Entries and their lengths -/

/-- The bytes that entries take up. -/
def entriesLength (aces : List Ace) : Nat := (aces.map aceLength).sum

@[simp] theorem entriesLength_cons (a : Ace) (aces : List Ace) :
    entriesLength (a :: aces) = aceLength a + entriesLength aces := by
  rw [entriesLength, List.map_cons, List.sum_cons, entriesLength]

/-- No entry is empty. -/
theorem length_le_entriesLength (aces : List Ace) : aces.length ≤ entriesLength aces := by
  induction aces with
  | nil => exact Nat.le_refl 0
  | cons a aces ih =>
    rw [List.length_cons, entriesLength_cons, aceLength]
    omega

theorem size_eq (aces : List Ace) : size aces = 8 + entriesLength aces := by
  induction aces with
  | nil => rfl
  | cons a aces ih =>
    have hsize : size (a :: aces) = aceLength a + size aces := rfl
    rw [hsize, ih, entriesLength_cons]
    omega

@[simp] theorem length_encodeAce (a : Ace) : (encodeAce a).length = aceLength a := by
  simp only [encodeAce, aceLength, List.length_append, List.length_cons,
    Bytes.length_littleEndian, Sid.length_toBytes]

theorem length_flatMap_encodeAce (aces : List Ace) :
    (aces.flatMap encodeAce).length = entriesLength aces := by
  simp only [List.length_flatMap, length_encodeAce, entriesLength]

/-! ## The claims of a list about itself -/

/-- The size that a list claims to have. -/
def claimedSize (b : Bytes) : Nat := Bytes.ofLittleEndian ((b.drop 2).take 2)

/-- The count of entries that a list claims to have. -/
def claimedCount (b : Bytes) : Nat := Bytes.ofLittleEndian ((b.drop 4).take 2)

/-- The length that an entry claims to have. -/
def claimedLength (entry : Bytes) : Nat := Bytes.ofLittleEndian ((entry.drop 2).take 2)

/-- A claim has sixteen bits. -/
theorem claimedSize_le (b : Bytes) : claimedSize b ≤ 65535 := by
  have hlt := Bytes.ofLittleEndian_lt ((b.drop 2).take 2)
  have htwo : ((b.drop 2).take 2).length ≤ 2 := List.length_take_le 2 _
  have hpow : 256 ^ ((b.drop 2).take 2).length ≤ 256 ^ 2 := Nat.pow_le_pow_right (by decide) htwo
  exact Nat.le_of_lt_succ (hlt.trans_le hpow)

/-- A list is read from what lies within its claimed size, if its header and that much are there. -/
theorem decode_eq (b : Bytes) :
    decode b = if 8 ≤ b.length ∧ claimedSize b ≤ b.length
      then decodeAces (claimedCount b) ((b.take (claimedSize b)).drop 8) else none := by
  have hsize : Bytes.ofLittleEndian (((b.take 8).drop 2).take 2) = claimedSize b := by
    rw [claimedSize, List.drop_take, List.take_take]
    rfl
  have hcount : Bytes.ofLittleEndian (((b.take 8).drop 4).take 2) = claimedCount b := by
    rw [claimedCount, List.drop_take, List.take_take]
    rfl
  by_cases height : 8 ≤ b.length
  · by_cases hle : claimedSize b ≤ b.length <;>
      simp [decode, Bytes.slice?, height, hle, hsize, hcount]
  · simp [decode, Bytes.slice?, height]

theorem decode_eq_some_iff : decode b = some aces ↔
    (8 ≤ b.length ∧ claimedSize b ≤ b.length)
      ∧ decodeAces (claimedCount b) ((b.take (claimedSize b)).drop 8) = some aces := by
  rw [decode_eq]
  split <;> simp_all

/-! ## Reading bounds what is read -/

/-- An entry that is read takes up no more bytes than there are. -/
theorem fits_of_decodeAce {kind : AceKind} {flags : UInt8} (h : decodeAce kind flags b = some a) :
    a.trustee.Fits ∧ aceLength a ≤ b.length := by
  simp only [decodeAce, Option.bind_eq_bind, Option.bind_eq_some_iff, Option.pure_def,
    Option.some.injEq] at h
  obtain ⟨mask, hmask, trustee, htrustee, rfl⟩ := h
  obtain ⟨height, -⟩ := Bytes.slice?_eq_some_iff.1 hmask
  obtain ⟨hfits, hlength⟩ := Sid.fits_of_ofBytes? htrustee
  rw [List.length_drop] at hlength
  refine ⟨hfits, ?_⟩
  show 8 + trustee.byteLength ≤ b.length
  omega

/-- Of entries that are read there are no more than were asked for, all their trustees fit, and
together they take up no more bytes than there are. -/
theorem fits_of_decodeAces (h : decodeAces count b = some aces) :
    aces.length ≤ count ∧ (∀ a ∈ aces, a.trustee.Fits) ∧ entriesLength aces ≤ b.length := by
  induction count generalizing b aces with
  | zero =>
    cases h
    exact ⟨Nat.le_refl 0, by simp, Nat.zero_le _⟩
  | succ count ih =>
    simp only [decodeAces, Option.bind_eq_bind, Option.bind_eq_some_iff] at h
    obtain ⟨head, -, h⟩ := h
    split at h
    · rename_i type flags low high
      obtain ⟨entry, hentry, h⟩ := Option.bind_eq_some_iff.1 h
      obtain ⟨hle, -⟩ := Bytes.slice?_eq_some_iff.1 hentry
      have hlength := Bytes.length_of_slice? hentry
      split at h
      · rename_i kind hkind
        obtain ⟨ace, hace, h⟩ := Option.bind_eq_some_iff.1 h
        obtain ⟨others, hothers, h⟩ := Option.bind_eq_some_iff.1 h
        cases h
        obtain ⟨hcount, htrustees, hrest⟩ := ih hothers
        obtain ⟨hfits, hace⟩ := fits_of_decodeAce hace
        rw [List.length_drop] at hrest
        refine ⟨Nat.succ_le_succ hcount, List.forall_mem_cons.2 ⟨hfits, htrustees⟩, ?_⟩
        rw [entriesLength_cons]
        omega
      · obtain ⟨hcount, htrustees, hrest⟩ := ih h
        rw [List.length_drop] at hrest
        refine ⟨Nat.le_succ_of_le hcount, htrustees, ?_⟩
        omega
    · cases h

/-- A list that is read is no larger than it claimed, a header aside. -/
theorem size_le_of_decode (h : decode b = some aces) : size aces ≤ max 8 (claimedSize b) := by
  obtain ⟨⟨-, hle⟩, h⟩ := decode_eq_some_iff.1 h
  obtain ⟨-, -, hentries⟩ := fits_of_decodeAces h
  rw [List.length_drop, List.length_take_of_le hle] at hentries
  rw [size_eq]
  omega

/-- Every list that is read has trustees that fit, and a size of sixteen bits. -/
theorem fits_of_decode (h : decode b = some aces) :
    (∀ a ∈ aces, a.trustee.Fits) ∧ size aces ≤ 65535 := by
  obtain ⟨-, htrustees, -⟩ := fits_of_decodeAces (decode_eq_some_iff.1 h).2
  exact ⟨htrustees, (size_le_of_decode h).trans (max_le (by decide) (claimedSize_le b))⟩

/-! ## Reading what was written -/

theorem kindOf?_kindByte (kind : AceKind) : kindOf? (kindByte kind) = some kind := by
  cases kind <;> rfl

/-- The first four bytes of an entry. -/
def entryHead (type flags : UInt8) (length : Nat) : Bytes :=
  type :: flags :: Bytes.littleEndian 2 length

theorem length_entryHead (type flags : UInt8) (length : Nat) :
    (entryHead type flags length).length = 4 := rfl

/-- An entry, from its type, its flags and what follows its first four bytes. -/
def entryBytes (type flags : UInt8) (content : Bytes) : Bytes :=
  entryHead type flags (4 + content.length) ++ content

@[simp] theorem length_entryBytes (type flags : UInt8) (content : Bytes) :
    (entryBytes type flags content).length = 4 + content.length := by
  rw [entryBytes, List.length_append, length_entryHead]

/-- An entry whose length has sixteen bits claims this length. -/
theorem claimedLength_entryBytes {content : Bytes} (h : 4 + content.length < 256 ^ 2)
    (type flags : UInt8) : claimedLength (entryBytes type flags content) = 4 + content.length := by
  have hbytes : ((entryBytes type flags content).drop 2).take 2
      = Bytes.littleEndian 2 (4 + content.length) := rfl
  rw [claimedLength, hbytes, Bytes.ofLittleEndian_littleEndian_of_lt h]

/-- An entry whose length has sixteen bits is read, or passed over, as its type says, and reading
goes on where it ends. -/
theorem decodeAces_entryBytes {content : Bytes} (h : 4 + content.length < 256 ^ 2)
    (type flags : UInt8) (rest : Bytes) :
    decodeAces (count + 1) (entryBytes type flags content ++ rest)
      = match kindOf? type with
        | some kind =>
          (decodeAce kind flags (entryBytes type flags content)).bind fun a =>
            (decodeAces count rest).map (a :: ·)
        | none => decodeAces count rest := by
  have hlength := claimedLength_entryBytes h type flags
  have hhead : (entryBytes type flags content ++ rest).slice? 0 4
      = some (entryHead type flags (4 + content.length)) := by
    rw [entryBytes, List.append_assoc, Bytes.slice?_append_left (length_entryHead _ _ _)]
  rw [decodeAces, hhead]
  simp only [entryHead, Bytes.littleEndian, Option.bind_eq_bind, Option.bind_some]
  rw [show Bytes.ofLittleEndian [_, _] = 4 + content.length from hlength,
    Bytes.slice?_append_left (length_entryBytes type flags content),
    List.drop_left' (length_entryBytes type flags content)]
  cases kindOf? type <;> simp [Option.map_eq_bind]

/-- What an entry that allows or denies holds behind its first four bytes: the mask, the identifier,
and whatever follows it. -/
def aceContent (a : Ace) (padding : Bytes) : Bytes :=
  Bytes.littleEndian 4 a.mask.toNat ++ (a.trustee.toBytes ++ padding)

/-- An entry that fits is read, whatever follows the identifier in it. -/
theorem decodeAce_aceContent (h : a.trustee.Fits) (type : UInt8) (padding : Bytes) :
    decodeAce a.kind a.flags (entryBytes type a.flags (aceContent a padding)) = some a := by
  have hmask : UInt32.ofNat (Bytes.ofLittleEndian (Bytes.littleEndian 4 a.mask.toNat)) = a.mask := by
    rw [Bytes.ofLittleEndian_littleEndian_of_lt a.mask.toNat_lt, UInt32.ofNat_toNat]
  have hfour : (Bytes.littleEndian 4 a.mask.toNat).length = 4 := Bytes.length_littleEndian 4 _
  rw [decodeAce, entryBytes, aceContent,
    Bytes.slice?_append_append (length_entryHead _ _ _) hfour, ← List.append_assoc, List.drop_left']
  · rw [h.ofBytes?_append]
    simp only [Option.bind_eq_bind, Option.bind_some, hmask, Option.pure_def]
  · rw [List.length_append, length_entryHead, hfour]

/-- An entry that fits, in front of others, is the first of those that are read. -/
theorem decodeAces_aceContent {padding : Bytes} (h : a.trustee.Fits)
    (hlength : 4 + (aceContent a padding).length < 256 ^ 2) (rest : Bytes) :
    decodeAces (count + 1)
        (entryBytes (kindByte a.kind) a.flags (aceContent a padding) ++ rest)
      = (decodeAces count rest).map (a :: ·) := by
  rw [decodeAces_entryBytes hlength, kindOf?_kindByte]
  simp only [decodeAce_aceContent h, Option.bind_some]

theorem length_aceContent (a : Ace) : 4 + (aceContent a []).length = aceLength a := by
  rw [aceContent, List.append_nil, List.length_append, Bytes.length_littleEndian,
    Sid.length_toBytes, aceLength]
  omega

theorem encodeAce_eq (a : Ace) :
    encodeAce a = entryBytes (kindByte a.kind) a.flags (aceContent a []) := by
  rw [entryBytes, length_aceContent, aceContent, List.append_nil, encodeAce, List.append_assoc,
    entryHead]

/-- An entry that fits has a length of sixteen bits. -/
theorem length_aceContent_lt (h : a.trustee.Fits) : 4 + (aceContent a []).length < 256 ^ 2 := by
  have hsubs := h.2
  rw [length_aceContent, aceLength, Sid.byteLength]
  omega

/-- Entries that fit are read again, whatever follows them. -/
theorem decodeAces_flatMap (h : ∀ a ∈ aces, a.trustee.Fits) (rest : Bytes) :
    decodeAces aces.length (aces.flatMap encodeAce ++ rest) = some aces := by
  induction aces with
  | nil => rfl
  | cons a aces ih =>
    obtain ⟨hfits, hothers⟩ := List.forall_mem_cons.1 h
    rw [List.flatMap_cons, List.append_assoc, encodeAce_eq, List.length_cons,
      decodeAces_aceContent hfits (length_aceContent_lt hfits), ih hothers, Option.map_some]

/-- The header of a list. -/
def header (aces : List Ace) : Bytes :=
  2 :: 0 :: Bytes.littleEndian 2 (size aces) ++ Bytes.littleEndian 2 aces.length ++ [0, 0]

theorem length_header (aces : List Ace) : (header aces).length = 8 := rfl

theorem encode_eq (aces : List Ace) : encode aces = header aces ++ aces.flatMap encodeAce := rfl

theorem length_encode (aces : List Ace) : (encode aces).length = size aces := by
  rw [encode_eq, List.length_append, length_header, length_flatMap_encodeAce, size_eq]

theorem claimedSize_encode (h : size aces ≤ 65535) : claimedSize (encode aces) = size aces := by
  have hbytes : ((encode aces).drop 2).take 2 = Bytes.littleEndian 2 (size aces) := rfl
  rw [claimedSize, hbytes, Bytes.ofLittleEndian_littleEndian_of_lt (Nat.lt_succ_of_le h)]

theorem claimedCount_encode (h : size aces ≤ 65535) :
    claimedCount (encode aces) = aces.length := by
  have hbytes : ((encode aces).drop 4).take 2 = Bytes.littleEndian 2 aces.length := rfl
  have hcount : aces.length < 256 ^ 2 := by
    have hle := length_le_entriesLength aces
    rw [size_eq] at h
    omega
  rw [claimedCount, hbytes, Bytes.ofLittleEndian_littleEndian_of_lt hcount]

theorem claimedLength_encodeAce (h : a.trustee.Fits) :
    claimedLength (encodeAce a) = (encodeAce a).length := by
  rw [encodeAce_eq, claimedLength_entryBytes (length_aceContent_lt h), length_entryBytes]

/-- A list that fits is read again. -/
theorem decode_encode (htrustees : ∀ a ∈ aces, a.trustee.Fits) (hsize : size aces ≤ 65535) :
    decode (encode aces) = some aces := by
  have hentries := decodeAces_flatMap htrustees []
  rw [List.append_nil] at hentries
  rw [decode_eq_some_iff, claimedSize_encode hsize, claimedCount_encode hsize, ← length_encode,
    List.take_length, encode_eq, List.drop_left' (length_header aces), List.length_append,
    length_header]
  exact ⟨⟨Nat.le_add_right 8 _, Nat.le_refl _⟩, hentries⟩

/-- Exactly the lists of which nothing is cut off are read again.  From the binary form of any
other list, reading gives nothing or another list. -/
theorem decode_encode_iff (aces : List Ace) :
    decode (encode aces) = some aces ↔
      (∀ a ∈ aces, a.trustee.authority.toNat < 2 ^ 48 ∧ a.trustee.subs.length ≤ 255)
        ∧ 8 + (aces.map fun a => 16 + 4 * a.trustee.subs.length).sum ≤ 65535 := by
  have hsize : size aces = 8 + (aces.map fun a => 16 + 4 * a.trustee.subs.length).sum := by
    rw [size_eq, entriesLength]
    congr 3
    funext a
    rw [aceLength, Sid.byteLength]
    omega
  rw [← hsize]
  constructor
  · exact fits_of_decode
  · rintro ⟨htrustees, hsize⟩
    exact decode_encode htrustees hsize

/-! ## Writing what was read -/

/-- What is read from any bytes is written without a field that wraps, in no more bytes than the
list claimed to have, a header aside, and is read again from these. -/
theorem encode_of_decode (h : decode b = some aces) :
    (encode aces).length ≤ max 8 (claimedSize b)
      ∧ claimedSize (encode aces) = (encode aces).length
      ∧ claimedCount (encode aces) = aces.length
      ∧ (∀ a ∈ aces, claimedLength (encodeAce a) = (encodeAce a).length)
      ∧ decode (encode aces) = some aces := by
  obtain ⟨htrustees, hsize⟩ := fits_of_decode h
  rw [length_encode]
  refine ⟨size_le_of_decode h, claimedSize_encode hsize, claimedCount_encode hsize, ?_, ?_⟩
  · intro a ha
    exact claimedLength_encodeAce (htrustees a ha)
  · exact decode_encode htrustees hsize

/-- A list of three entries: one of another type that claims two bytes, so that the next one starts
within it, and one that allows, with eight bytes after its identifier.  Two bytes follow the list. -/
def overlappingList : Bytes :=
  [4, 0, 42, 0, 3, 0, 9, 9, 5, 0, 2, 0, 4, 0, 0, 0, 28, 0, 129, 0, 0, 0,
    1, 1, 0, 0, 0, 0, 0, 1, 0, 0, 0, 0, 1, 2, 3, 4, 5, 6, 7, 8, 255, 255]

theorem encode_of_decode_overlapping :
    decode overlappingList = some [.allow .everyone 129]
      ∧ (encode [.allow .everyone 129]).length ≤ max 8 (claimedSize overlappingList)
      ∧ claimedSize (encode [.allow .everyone 129]) = (encode [.allow .everyone 129]).length
      ∧ claimedCount (encode [.allow .everyone 129]) = 1
      ∧ (∀ a ∈ [Ace.allow .everyone 129], claimedLength (encodeAce a) = (encodeAce a).length)
      ∧ decode (encode [.allow .everyone 129]) = some [.allow .everyone 129] := by
  have hread : decode overlappingList = some [.allow .everyone 129] := by decide
  exact ⟨hread, encode_of_decode hread⟩

end PortableFiles.Acl
