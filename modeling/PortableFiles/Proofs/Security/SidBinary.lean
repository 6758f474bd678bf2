import PortableFiles.Proofs.Bytes
import PortableFiles.Security.Sid.Binary
set_option autoImplicit false

/-!
# Security identifiers through bytes

What is read from bytes has an authority of 48 bits and at most 255 numbers, and takes up no more
bytes than there are (`Sid.fits_of_ofBytes?`).  An identifier within these bounds is read again
from its binary form, whatever follows it (`Sid.ofBytes?_toBytes_append`); of any other, reading
gives what its binary form kept.  In the other direction, bytes are read exactly if they hold the
length that they claim, and what is read has these bytes as its binary form
(`Sid.binary_roundTrip`).
-/

namespace PortableFiles.Sid

variable {s : Sid} {b : Bytes} {count : Nat} {subs : List UInt32}

/-- Whether the binary form loses nothing of an identifier. -/
def Fits (s : Sid) : Prop := s.authority.toNat < 2 ^ 48 ∧ s.subs.length ≤ 255

/-! ## Reading bounds what is read -/

/-- As many numbers are read as were asked for, and each takes up four bytes. -/
theorem length_of_readSubs (h : readSubs count b = some subs) :
    subs.length = count ∧ 4 * count ≤ b.length := by
  induction count generalizing b subs with
  | zero =>
    cases h
    exact ⟨rfl, Nat.zero_le _⟩
  | succ count ih =>
    simp only [readSubs, Option.bind_eq_bind, Option.bind_eq_some_iff, Option.pure_def,
      Option.some.injEq] at h
    obtain ⟨word, hword, rest, hrest, rfl⟩ := h
    obtain ⟨hlength, hle⟩ := ih hrest
    obtain ⟨hfour, -⟩ := Bytes.slice?_eq_some_iff.1 hword
    rw [List.length_drop] at hle
    refine ⟨by rw [List.length_cons, hlength], ?_⟩
    omega

/-- What reading takes from a byte string: two bytes, six more, and the numbers that follow. -/
theorem ofBytes?_eq_some_iff : ofBytes? b = some s ↔
    ∃ revision n rest subs, b = revision :: n :: rest ∧ 6 ≤ rest.length
      ∧ readSubs n.toNat (rest.drop 6) = some subs
      ∧ s = ⟨revision, UInt64.ofNat (Bytes.ofBigEndian (rest.take 6)), subs⟩ := by
  constructor
  · intro h
    match b with
    | revision :: n :: rest =>
      simp only [ofBytes?, Option.bind_eq_bind, Option.bind_eq_some_iff, Option.pure_def,
        Option.some.injEq] at h
      obtain ⟨authority, hauthority, subs, hsubs, rfl⟩ := h
      obtain ⟨hsix, rfl⟩ := Bytes.slice?_eq_some_iff.1 hauthority
      rw [Nat.zero_add] at hsix
      exact ⟨revision, n, rest, subs, rfl, hsix, hsubs, rfl⟩
    | [] | [_] => cases h
  · rintro ⟨revision, n, rest, subs, rfl, hsix, hsubs, rfl⟩
    have hauthority : Bytes.slice? rest 0 6 = some (rest.take 6) :=
      Bytes.slice?_eq_some_iff.2 ⟨by omega, rfl⟩
    simp only [ofBytes?, hauthority, hsubs, Option.bind_eq_bind, Option.bind_some, Option.pure_def]

/-- Six bytes are the binary form of the authority that is read from them. -/
theorem bigEndian_ofBigEndian_authority {bytes : Bytes} (h : bytes.length = 6) :
    (UInt64.ofNat (Bytes.ofBigEndian bytes)).toNat < 2 ^ 48
      ∧ Bytes.bigEndian 6 (UInt64.ofNat (Bytes.ofBigEndian bytes)).toNat = bytes := by
  have hlt := Bytes.ofBigEndian_lt bytes
  have hbytes := Bytes.bigEndian_ofBigEndian bytes
  rw [h] at hlt hbytes
  rw [UInt64.toNat_ofNat_of_lt' (hlt.trans (by decide))]
  exact ⟨hlt, hbytes⟩

/-- What is read lost nothing when it was written, and the bytes of its binary form are there. -/
theorem fits_of_ofBytes? (h : ofBytes? b = some s) : s.Fits ∧ s.byteLength ≤ b.length := by
  obtain ⟨revision, n, rest, subs, rfl, hsix, hsubs, rfl⟩ := ofBytes?_eq_some_iff.1 h
  obtain ⟨hcount, hle⟩ := length_of_readSubs hsubs
  obtain ⟨hauthority, -⟩ := bigEndian_ofBigEndian_authority (List.length_take_of_le hsix)
  have hbyte : n.toNat < 256 := n.toNat_lt
  rw [List.length_drop] at hle
  refine ⟨⟨hauthority, ?_⟩, ?_⟩
  · show subs.length ≤ 255
    omega
  · show 8 + 4 * subs.length ≤ rest.length + 1 + 1
    omega

/-! ## Reading what was written -/

/-- Of the numbers that were written, as many are read as are asked for. -/
theorem readSubs_flatMap (hle : count ≤ subs.length) (rest : Bytes) :
    readSubs count ((subs.flatMap fun sub => Bytes.littleEndian 4 sub.toNat) ++ rest)
      = some (subs.take count) := by
  induction count generalizing subs with
  | zero => rfl
  | succ count ih =>
    match subs with
    | sub :: subs =>
      have hword : UInt32.ofNat (Bytes.ofLittleEndian (Bytes.littleEndian 4 sub.toNat)) = sub := by
        rw [Bytes.ofLittleEndian_littleEndian_of_lt sub.toNat_lt, UInt32.ofNat_toNat]
      have hfour : (Bytes.littleEndian 4 sub.toNat).length = 4 := Bytes.length_littleEndian 4 _
      rw [List.flatMap_cons, List.append_assoc, readSubs, Bytes.slice?_append_left hfour,
        List.drop_left' hfour, ih (Nat.le_of_succ_le_succ hle)]
      simp [hword]

/-- What is read of an identifier's binary form, whatever follows it: the authority without its
high bits, and as many of the numbers as their byte counts. -/
theorem ofBytes?_toBytes_append (s : Sid) (rest : Bytes) :
    ofBytes? (s.toBytes ++ rest)
      = some ⟨s.revision, UInt64.ofNat (s.authority.toNat % 2 ^ 48),
          s.subs.take (s.subs.length % 256)⟩ := by
  have hsix : (Bytes.bigEndian 6 s.authority.toNat).length = 6 := Bytes.length_bigEndian 6 _
  have hcount : (UInt8.ofNat s.subs.length).toNat = s.subs.length % 256 := UInt8.toNat_ofNat'
  rw [toBytes, List.append_assoc, List.cons_append, List.cons_append, ofBytes?,
    Bytes.slice?_append_left hsix, List.drop_left' hsix, hcount,
    readSubs_flatMap (Nat.mod_le _ _)]
  simp [Bytes.ofBigEndian_bigEndian]

/-- An identifier that fits is read again, whatever follows it. -/
theorem Fits.ofBytes?_append (h : s.Fits) (rest : Bytes) :
    ofBytes? (s.toBytes ++ rest) = some s := by
  obtain ⟨hauthority, hsubs⟩ := h
  rw [ofBytes?_toBytes_append, Nat.mod_eq_of_lt hauthority, UInt64.ofNat_toNat,
    Nat.mod_eq_of_lt (Nat.lt_succ_of_le hsubs), List.take_length]

@[simp] theorem length_toBytes (s : Sid) : s.toBytes.length = s.byteLength := by
  have hsubs : (s.subs.flatMap fun sub => Bytes.littleEndian 4 sub.toNat).length
      = 4 * s.subs.length := by
    rw [List.length_flatMap, Nat.mul_comm]
    simp only [Bytes.length_littleEndian, List.map_const', List.sum_replicate_nat]
  simp only [toBytes, byteLength, List.length_cons, List.length_append, Bytes.length_bigEndian,
    hsubs]

/-! ## Writing what was read -/

/-- Four bytes are the binary form of the number that is read from them. -/
theorem littleEndian_ofLittleEndian_sub {word : Bytes} (h : word.length = 4) :
    Bytes.littleEndian 4 (UInt32.ofNat (Bytes.ofLittleEndian word)).toNat = word := by
  have hlt := Bytes.ofLittleEndian_lt word
  have hword := Bytes.littleEndian_ofLittleEndian word
  rw [h] at hlt hword
  rw [UInt32.toNat_ofNat_of_lt' hlt, hword]

/-- The binary forms of the numbers that are read are the bytes that they were read from. -/
theorem flatMap_of_readSubs (h : readSubs count b = some subs) :
    subs.flatMap (fun sub => Bytes.littleEndian 4 sub.toNat) = b.take (4 * count) := by
  induction count generalizing b subs with
  | zero =>
    cases h
    rfl
  | succ count ih =>
    simp only [readSubs, Option.bind_eq_bind, Option.bind_eq_some_iff, Option.pure_def,
      Option.some.injEq] at h
    obtain ⟨word, hword, rest, hrest, rfl⟩ := h
    have hfour := Bytes.length_of_slice? hword
    obtain ⟨-, rfl⟩ := Bytes.slice?_eq_some_iff.1 hword
    rw [List.flatMap_cons, littleEndian_ofLittleEndian_sub hfour, ih hrest, Nat.mul_succ,
      Nat.add_comm (4 * count) 4, List.take_add, List.drop_zero]

/-- Enough bytes hold as many numbers as are asked for. -/
theorem exists_readSubs (h : 4 * count ≤ b.length) : ∃ subs, readSubs count b = some subs := by
  induction count generalizing b with
  | zero => exact ⟨[], rfl⟩
  | succ count ih =>
    have hword : b.slice? 0 4 = some (b.take 4) := Bytes.slice?_eq_some_iff.2 ⟨by omega, rfl⟩
    have hrest : 4 * count ≤ (b.drop 4).length := by
      rw [List.length_drop]
      omega
    obtain ⟨subs, hsubs⟩ := ih hrest
    refine ⟨UInt32.ofNat (Bytes.ofLittleEndian (b.take 4)) :: subs, ?_⟩
    simp only [readSubs, hword, hsubs, Option.bind_eq_bind, Option.bind_some, Option.pure_def]

/-- The length that a byte string claims for the identifier at its front. -/
def claimedLength (b : Bytes) : Nat := 8 + 4 * (b.getD 1 0).toNat

/-- An identifier is read from every byte string that holds what it claims. -/
theorem exists_ofBytes? (height : 8 ≤ b.length) (h : claimedLength b ≤ b.length) :
    ∃ s, ofBytes? b = some s := by
  match b with
  | revision :: n :: rest =>
    have hclaimed : 8 + 4 * n.toNat ≤ rest.length + 1 + 1 := h
    have hrest : 4 * n.toNat ≤ (rest.drop 6).length := by
      rw [List.length_drop]
      omega
    obtain ⟨subs, hsubs⟩ := exists_readSubs hrest
    exact ⟨_, ofBytes?_eq_some_iff.2 ⟨revision, n, rest, subs, rfl, by omega, hsubs, rfl⟩⟩
  | [] | [_] => simp at height

/-- What is read has the length that was claimed, and its binary form is what it was read from. -/
theorem toBytes_of_ofBytes? (h : ofBytes? b = some s) :
    s.byteLength = claimedLength b ∧ s.toBytes = b.take (claimedLength b) := by
  obtain ⟨revision, n, rest, subs, rfl, hsix, hsubs, rfl⟩ := ofBytes?_eq_some_iff.1 h
  obtain ⟨hcount, -⟩ := length_of_readSubs hsubs
  obtain ⟨-, hauthority⟩ := bigEndian_ofBigEndian_authority (List.length_take_of_le hsix)
  have hclaimed : claimedLength (revision :: n :: rest) = (6 + 4 * n.toNat) + 1 + 1 := by
    show 8 + 4 * n.toNat = _
    omega
  constructor
  · show 8 + 4 * subs.length = 8 + 4 * n.toNat
    rw [hcount]
  · rw [hclaimed, List.take_succ_cons, List.take_succ_cons, List.take_add]
    simp only [toBytes, hcount, hauthority, flatMap_of_readSubs hsubs, UInt8.ofNat_toNat,
      List.cons_append]

/-- The binary form in both directions.  Of what is written, the authority without its high bits
and as many numbers as a byte can count are read again, which is everything exactly if the
authority has 48 bits and there are at most 255 numbers.  From bytes, an identifier is read exactly
if there are eight of them and as many as they claim, and writing it gives these bytes again without
what follows them. -/
theorem binary_roundTrip :
    (∀ s : Sid,
      ofBytes? s.toBytes
          = some ⟨s.revision, UInt64.ofNat (s.authority.toNat % 2 ^ 48),
              s.subs.take (s.subs.length % 256)⟩
        ∧ (ofBytes? s.toBytes = some s ↔ s.authority.toNat < 2 ^ 48 ∧ s.subs.length ≤ 255))
      ∧ ∀ b : Bytes,
        ((∃ s, ofBytes? b = some s) ↔ 8 ≤ b.length ∧ 8 + 4 * (b.getD 1 0).toNat ≤ b.length)
          ∧ ∀ s, ofBytes? b = some s →
            s.toBytes = b.take (8 + 4 * (b.getD 1 0).toNat)
              ∧ s.byteLength = 8 + 4 * (b.getD 1 0).toNat := by
  refine ⟨fun s => ⟨?_, fun h => (fits_of_ofBytes? h).1, fun h => ?_⟩, fun b => ⟨⟨?_, ?_⟩, ?_⟩⟩
  · have hread := ofBytes?_toBytes_append s []
    rwa [List.append_nil] at hread
  · have hread := Fits.ofBytes?_append h []
    rwa [List.append_nil] at hread
  · rintro ⟨s, h⟩
    obtain ⟨-, hle⟩ := fits_of_ofBytes? h
    obtain ⟨hlength, -⟩ := toBytes_of_ofBytes? h
    rw [hlength] at hle
    exact ⟨(Nat.le_add_right 8 _).trans hle, hle⟩
  · rintro ⟨height, h⟩
    exact exists_ofBytes? height h
  · intro s h
    exact (toBytes_of_ofBytes? h).symm

/-- The binary form of the administrators, and two bytes after it. -/
theorem binary_roundTrip_administrators :
    ofBytes? (administrators.toBytes ++ [7, 9]) = some administrators
      ∧ administrators.toBytes = (administrators.toBytes ++ [7, 9]).take (8 + 4 * 2)
      ∧ administrators.byteLength = 8 + 4 * 2 := by
  have hread : ofBytes? (administrators.toBytes ++ [7, 9]) = some administrators := by decide
  exact ⟨hread, (binary_roundTrip.2 (administrators.toBytes ++ [7, 9])).2 administrators hread⟩

end PortableFiles.Sid
