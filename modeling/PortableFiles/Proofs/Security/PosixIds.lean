import Mathlib.Data.List.Basic
import PortableFiles.Security.PosixId
set_option autoImplicit false

/-!
# The table of POSIX ids

`Sid.Falls` is the table by which identifiers get their ids, one constructor for each row, and
`falls_iff` says that the row that is looked up is the one into which an identifier falls.  From
the shape that a row gives to its identifiers follows when two ids are the same: within a row the
relative identifier is what is left to tell accounts apart, and between rows the bases decide,
which leave room for the relative identifiers of accounts to reach the ids of well-known
identifiers.  The bases also decide which relative identifiers carry an id past 32 bits.

`posixId_eq_iff`, `posixId_eq_wellKnown_iff` and `posixId_range` are the main statements.
-/

namespace PortableFiles.Sid

/-- Whether an identifier is that of a domain followed by one number. -/
def IsIn (s domain : Sid) : Prop := s.authority = domain.authority ∧ s.subs.dropLast = domain.subs

/-- The rows of the table, with the identifiers that fall into them.  Accounts have the domain's
numbers, at least four of them of which the first is 21, before their relative identifier. -/
inductive Falls (primary : Option Sid) (s : Sid) : IdRow → Prop where
  | logonSession {second : UInt32} {rest : List UInt32} :
      s.authority = ntAuthority → s.subs = 5 :: second :: rest → Falls primary s .logonSession
  | builtin {rid : UInt32} :
      s.authority = ntAuthority → s.subs = [32, rid] → Falls primary s (.builtin rid)
  | primaryDomain {domain : Sid} {numbers : List UInt32} {rid : UInt32} :
      s.authority = ntAuthority → s.subs = 21 :: numbers ++ [rid] → 3 ≤ numbers.length →
      primary = some domain → s.IsIn domain → Falls primary s (.primaryDomain rid)
  | foreignDomain {numbers : List UInt32} {rid : UInt32} :
      s.authority = ntAuthority → s.subs = 21 :: numbers ++ [rid] → 3 ≤ numbers.length →
      (∀ domain, primary = some domain → ¬ s.IsIn domain) → Falls primary s (.foreignDomain rid)
  | wellKnown {rid : UInt32} :
      s.authority < 0x80 → rid < 0x1FF → s.subs = [rid] →
      Falls primary s (.wellKnown s.authority rid)

variable {primary : Option Sid} {s s' w domain : Sid} {row : IdRow} {rid : UInt32}

/-! ## Looking up the row -/

/-- Comparing a prefix of a given length is dropping the last number, whatever their count. -/
theorem isInDomain_iff (hne : s.subs ≠ []) : s.isInDomain domain = true ↔ s.IsIn domain := by
  have hpos : 0 < s.subs.length := List.length_pos_iff.mpr hne
  simp only [isInDomain, IsIn, Bool.and_eq_true, decide_eq_true_eq, and_assoc]
  refine and_congr_right fun _ => ?_
  rw [List.dropLast_eq_take]
  constructor
  · rintro ⟨hlength, htake⟩
    rwa [show s.subs.length - 1 = domain.subs.length by omega]
  · intro htake
    have hlength := congrArg List.length htake
    rw [List.length_take] at hlength
    refine ⟨by omega, ?_⟩
    rwa [← show s.subs.length - 1 = domain.subs.length by omega]

/-- The row of a domain's account. -/
theorem idRow_account {numbers : List UInt32} (hauthority : s.authority = ntAuthority)
    (hsubs : s.subs = 21 :: numbers ++ [rid]) (hlength : 3 ≤ numbers.length) :
    s.idRow primary
      = if primary.any fun domain => s.isInDomain domain then .primaryDomain rid
        else .foreignDomain rid := by
  obtain ⟨second, rest, rfl⟩ : ∃ second rest, numbers = second :: rest :=
    List.exists_cons_of_length_pos (by omega)
  have hrest : 3 ≤ (rest ++ [rid]).length := by
    rw [List.length_append, List.length_singleton]
    simpa using hlength
  have hne : ¬ ((21 : UInt32) = 5) := by decide
  have hne' : ¬ ((21 : UInt32) = 32) := by decide
  rw [idRow, hsubs]
  simp only [List.cons_append, hauthority, ne_eq, not_true_eq_false, if_false, hne, hne',
    false_and, true_and, hrest, if_true]
  simp

theorem idRow_of_falls (h : Falls primary s row) : s.idRow primary = row := by
  cases h with
  | logonSession hauthority hsubs => simp [idRow, hauthority, hsubs]
  | builtin hauthority hsubs => simp [idRow, hauthority, hsubs]
  | primaryDomain hauthority hsubs hlength hprimary hin =>
    rw [idRow_account hauthority hsubs hlength, hprimary]
    simp [(isInDomain_iff (by simp [hsubs])).mpr hin]
  | foreignDomain hauthority hsubs hlength hforeign =>
    rw [idRow_account hauthority hsubs hlength, if_neg]
    intro hany
    obtain ⟨domain, hprimary, hin⟩ := Option.any_eq_true _ _ |>.mp hany
    exact hforeign domain hprimary ((isInDomain_iff (by simp [hsubs])).mp hin)
  | wellKnown hauthority hrid hsubs =>
    simp [idRow, hsubs, wellKnownRow, hauthority, hrid]

/-- An identifier with a row has the shape of that row. -/
theorem falls_idRow (hrow : s.idRow primary ≠ .none) : Falls primary s (s.idRow primary) := by
  match hsubs : s.subs with
  | [] => simp [idRow, hsubs] at hrow
  | [rid] =>
    by_cases hknown : s.authority < 0x80 ∧ rid < 0x1FF
    · have hfalls : Falls primary s (.wellKnown s.authority rid) :=
        .wellKnown hknown.1 hknown.2 hsubs
      rwa [idRow_of_falls hfalls]
    · simp [idRow, hsubs, wellKnownRow, hknown] at hrow
  | first :: second :: rest =>
    by_cases hauthority : s.authority = ntAuthority
    · by_cases hsession : first = 5
      · subst hsession
        have hfalls : Falls primary s .logonSession := .logonSession hauthority hsubs
        rwa [idRow_of_falls hfalls]
      by_cases hbuiltin : first = 32 ∧ rest = []
      · obtain ⟨rfl, rfl⟩ := hbuiltin
        have hfalls : Falls primary s (.builtin second) := .builtin hauthority hsubs
        rwa [idRow_of_falls hfalls]
      by_cases haccount : first = 21 ∧ rest.length ≥ 3
      · obtain ⟨rfl, hlength⟩ := haccount
        have hne : rest ≠ [] := List.length_pos_iff.mp (by omega)
        obtain ⟨numbers, rid, rfl⟩ : ∃ numbers rid, rest = numbers ++ [rid] :=
          ⟨rest.dropLast, rest.getLast hne, (List.dropLast_append_getLast hne).symm⟩
        rw [← List.cons_append, ← List.cons_append] at hsubs
        have hnumbers : 3 ≤ (second :: numbers).length := by simpa using hlength
        by_cases hin : ∃ domain, primary = some domain ∧ s.IsIn domain
        · obtain ⟨domain, hprimary, hin⟩ := hin
          have hfalls : Falls primary s (.primaryDomain rid) :=
            .primaryDomain hauthority hsubs hnumbers hprimary hin
          rwa [idRow_of_falls hfalls]
        · have hfalls : Falls primary s (.foreignDomain rid) :=
            .foreignDomain hauthority hsubs hnumbers fun domain hprimary hdomain =>
              hin ⟨domain, hprimary, hdomain⟩
          rwa [idRow_of_falls hfalls]
      · simp [idRow, hsubs, hauthority, hsession, hbuiltin, haccount] at hrow
    · simp [idRow, hsubs, hauthority] at hrow

/-- The row that is looked up is the one into which the identifier falls. -/
theorem falls_iff (hrow : row ≠ .none) : Falls primary s row ↔ s.idRow primary = row := by
  constructor
  · exact idRow_of_falls
  · rintro rfl
    exact falls_idRow hrow

theorem posixId_of_falls (h : Falls primary s row) : s.posixId primary = row.id := by
  rw [posixId, idRow_of_falls h]

/-! ## Ids within a row -/

/-- The parts of a well-known identifier have places of their own in its id. -/
theorem id_wellKnown {authority : UInt64} (ha : authority < 0x80) (hr : rid < 0x1FF) :
    (IdRow.wellKnown authority rid).id = 0x30000 + authority.toNat * 512 + (rid.toNat + 1) := by
  have hauthority : authority.toNat < 0x80 := UInt64.lt_iff_toNat_lt.mp ha
  have hrid : rid.toNat < 0x1FF := UInt32.lt_iff_toNat_lt.mp hr
  have hlow : authority.toNat <<< 9 ||| (rid.toNat + 1)
      = authority.toNat * 512 + (rid.toNat + 1) := by
    rw [← Nat.shiftLeft_add_eq_or_of_lt (by omega), Nat.shiftLeft_eq]
  have hhigh : ∀ low < 2 ^ 16, 0x30000 ||| low = 0x30000 + low := fun low h =>
    (Nat.shiftLeft_add_eq_or_of_lt h 3).symm
  rw [IdRow.id, Nat.or_assoc, hlow, hhigh _ (by omega)]
  omega

/-- An account of the primary domain has the domain's numbers and its own. -/
theorem subs_of_primaryDomain (h : Falls (some domain) s (.primaryDomain rid)) :
    s.authority = domain.authority ∧ s.subs = domain.subs ++ [rid] := by
  cases h with
  | primaryDomain _ hsubs _ hprimary hin =>
    obtain ⟨rfl⟩ := hprimary
    refine ⟨hin.1, ?_⟩
    rw [← hin.2, hsubs, List.dropLast_concat]

/-- An identifier is its parts. -/
theorem eq_of_parts (hrevision : s.revision = s'.revision) (hauthority : s.authority = s'.authority)
    (hsubs : s.subs = s'.subs) : s = s' := by
  cases s
  cases s'
  simp_all

/-- Built-in groups are told apart by their relative identifiers. -/
theorem posixId_eq_iff_builtin {rid' : UInt32} (hrevision : s.revision = s'.revision)
    (h : Falls primary s (.builtin rid)) (h' : Falls primary s' (.builtin rid')) :
    s.posixId primary = s'.posixId primary ↔ s = s' := by
  refine ⟨fun heq => ?_, congrArg (posixId · primary)⟩
  rw [posixId_of_falls h, posixId_of_falls h'] at heq
  have hrid : rid = rid' := UInt32.toNat_inj.mp (Nat.add_left_cancel heq)
  cases h with | builtin hauthority hsubs =>
  cases h' with | builtin hauthority' hsubs' =>
  exact eq_of_parts hrevision (hauthority.trans hauthority'.symm) (by rw [hsubs, hsubs', hrid])

/-- Accounts of the primary domain are told apart by their relative identifiers. -/
theorem posixId_eq_iff_primaryDomain {rid' : UInt32} (hrevision : s.revision = s'.revision)
    (h : Falls primary s (.primaryDomain rid)) (h' : Falls primary s' (.primaryDomain rid')) :
    s.posixId primary = s'.posixId primary ↔ s = s' := by
  refine ⟨fun heq => ?_, congrArg (posixId · primary)⟩
  rw [posixId_of_falls h, posixId_of_falls h'] at heq
  have hrid : rid = rid' := UInt32.toNat_inj.mp (Nat.add_left_cancel heq)
  obtain ⟨domain, rfl⟩ : ∃ domain, primary = some domain := by
    cases h with | primaryDomain _ _ _ hprimary _ => exact ⟨_, hprimary⟩
  obtain ⟨hauthority, hsubs⟩ := subs_of_primaryDomain h
  obtain ⟨hauthority', hsubs'⟩ := subs_of_primaryDomain h'
  exact eq_of_parts hrevision (hauthority.trans hauthority'.symm) (by rw [hsubs, hsubs', hrid])

/-- Well-known identifiers are told apart by authority and number. -/
theorem posixId_eq_iff_wellKnown {authority authority' : UInt64} {rid' : UInt32}
    (hrevision : s.revision = s'.revision) (h : Falls primary s (.wellKnown authority rid))
    (h' : Falls primary s' (.wellKnown authority' rid')) :
    s.posixId primary = s'.posixId primary ↔ s = s' := by
  refine ⟨fun heq => ?_, congrArg (posixId · primary)⟩
  rw [posixId_of_falls h, posixId_of_falls h'] at heq
  cases h with | wellKnown ha hr hsubs =>
  cases h' with | wellKnown ha' hr' hsubs' =>
  rw [id_wellKnown ha hr, id_wellKnown ha' hr'] at heq
  have hrid : rid.toNat < 0x1FF := UInt32.lt_iff_toNat_lt.mp hr
  have hrid' : rid'.toNat < 0x1FF := UInt32.lt_iff_toNat_lt.mp hr'
  have hauthority : s.authority = s'.authority := UInt64.toNat_inj.mp (by omega)
  have hsame : rid = rid' := UInt32.toNat_inj.mp (by omega)
  exact eq_of_parts hrevision hauthority (by rw [hsubs, hsubs', hsame])

/-- A number after 21 and at least three more makes an account. -/
theorem exists_account (hhead : s.subs.head? = some 21) (hlength : 5 ≤ s.subs.length) :
    ∃ numbers rid, s.subs = 21 :: numbers ++ [rid] ∧ 3 ≤ numbers.length := by
  obtain ⟨rest, hsubs⟩ := List.head?_eq_some_iff.mp hhead
  rw [hsubs, List.length_cons] at hlength
  have hne : rest ≠ [] := List.length_pos_iff.mp (by omega)
  refine ⟨rest.dropLast, rest.getLast hne, ?_, ?_⟩
  · rw [hsubs, List.cons_append, List.dropLast_append_getLast]
  · rw [List.length_dropLast]
    omega

/-- The row that is looked up is the one of the table.  Within the row of built-in groups, within
that of the primary domain's accounts, and within that of well-known identifiers, two identifiers
of one revision have the same id only if they are the same.  An account is the primary domain's
exactly if that domain's authority and numbers are what stands before its relative identifier, and
otherwise it is another domain's. -/
theorem posixId_eq_iff (primary : Option Sid) (s s' : Sid) :
    (∀ row, row ≠ .none → (Falls primary s row ↔ s.idRow primary = row))
      ∧ (s.revision = s'.revision →
        (∀ rid rid', Falls primary s (.builtin rid) → Falls primary s' (.builtin rid') →
            (s.posixId primary = s'.posixId primary ↔ s = s'))
          ∧ (∀ rid rid', Falls primary s (.primaryDomain rid) →
              Falls primary s' (.primaryDomain rid') →
              (s.posixId primary = s'.posixId primary ↔ s = s'))
          ∧ (∀ authority rid authority' rid', Falls primary s (.wellKnown authority rid) →
              Falls primary s' (.wellKnown authority' rid') →
              (s.posixId primary = s'.posixId primary ↔ s = s')))
      ∧ (s.authority = ntAuthority → s.subs.head? = some 21 → 5 ≤ s.subs.length →
          ∃ rid, s.rid? = some rid
            ∧ (s.idRow primary = .primaryDomain rid
              ↔ ∃ domain, primary = some domain ∧ s.authority = domain.authority
                ∧ s.subs.dropLast = domain.subs)
            ∧ (s.idRow primary ≠ .primaryDomain rid → s.idRow primary = .foreignDomain rid)) := by
  refine ⟨fun _ => falls_iff, fun hrevision =>
    ⟨fun _ _ h h' => posixId_eq_iff_builtin hrevision h h',
      fun _ _ h h' => posixId_eq_iff_primaryDomain hrevision h h',
      fun _ _ _ _ h h' => posixId_eq_iff_wellKnown hrevision h h'⟩, ?_⟩
  intro hauthority hhead hlength
  obtain ⟨numbers, rid, hsubs, hnumbers⟩ := exists_account hhead hlength
  have hrid : s.rid? = some rid := by rw [rid?, hsubs, List.getLast?_concat]
  refine ⟨rid, hrid, ?_⟩
  by_cases hin : ∃ domain, primary = some domain ∧ s.IsIn domain
  · obtain ⟨domain, hprimary, hdomain⟩ := hin
    have hrow : s.idRow primary = .primaryDomain rid :=
      idRow_of_falls (.primaryDomain hauthority hsubs hnumbers hprimary hdomain)
    exact ⟨iff_of_true hrow ⟨domain, hprimary, hdomain⟩, fun hne => absurd hrow hne⟩
  · have hrow : s.idRow primary = .foreignDomain rid :=
      idRow_of_falls (.foreignDomain hauthority hsubs hnumbers fun domain hprimary hdomain =>
        hin ⟨domain, hprimary, hdomain⟩)
    exact ⟨iff_of_false (by simp [hrow]) hin, fun _ => hrow⟩

/-- Two accounts of a domain of five numbers, of which the second is also looked at on its own. -/
theorem posixId_eq_iff_accounts :
    let machine : Sid := .new 5 [21, 1, 2, 3, 4]
    let first : Sid := .new 5 [21, 1, 2, 3, 4, 1001]
    let second : Sid := .new 5 [21, 1, 2, 3, 4, 1002]
    Falls (some machine) second (.primaryDomain 1002)
      ∧ Falls (some machine) first (.primaryDomain 1001)
      ∧ (second.posixId (some machine) = first.posixId (some machine) ↔ second = first)
      ∧ second.idRow (some machine) = .primaryDomain 1002 := by
  intro machine first second
  obtain ⟨htable, hwithin, haccount⟩ := posixId_eq_iff (some machine) second first
  have hsecond : Falls (some machine) second (.primaryDomain 1002) :=
    (htable _ (by decide)).mpr (by decide)
  have hfirst : Falls (some machine) first (.primaryDomain 1001) :=
    (falls_iff (by decide)).mpr (by decide)
  obtain ⟨rid, hrid, hprimary, -⟩ := haccount (by decide) (by decide) (by decide)
  obtain rfl : rid = 1002 := by
    rw [show second.rid? = some 1002 by decide] at hrid
    exact (Option.some.inj hrid).symm
  exact ⟨hsecond, hfirst, (hwithin (by decide)).2.1 _ _ hsecond hfirst,
    hprimary.mpr ⟨machine, rfl, by decide, by decide⟩⟩

/-! ## Ids of well-known identifiers -/

/-- Another domain's users have the id of everyone, and so has a built-in group with a large
relative identifier. -/
theorem posixId_domainUsers :
    let users : Sid := .new 5 [21, 9, 9, 9, 513]
    let large : Sid := .new 5 [32, 0x10201]
    Falls none users (.foreignDomain 513) ∧ Falls none large (.builtin 0x10201)
      ∧ Falls none everyone (.wellKnown 1 0)
      ∧ users.posixId none = everyone.posixId none
      ∧ large.posixId none = everyone.posixId none := by
  intro users large
  exact ⟨(falls_iff (by decide)).mpr (by decide), (falls_iff (by decide)).mpr (by decide),
    (falls_iff (by decide)).mpr (by decide), by decide, by decide⟩

/-- The id of a well-known identifier has its authority and its number in places of their own.  It
is not that of a logon session or of an account of the primary domain.  A built-in group has it for
one relative identifier, and so has an account of another domain; both are what the bases of the
table leave. -/
theorem posixId_eq_wellKnown_iff {authority : UInt64} {number : UInt32}
    (hw : Falls primary w (.wellKnown authority number)) :
    w.posixId primary = 0x30000 + authority.toNat * 512 + (number.toNat + 1)
      ∧ (Falls primary s .logonSession → s.posixId primary ≠ w.posixId primary)
      ∧ (∀ rid, Falls primary s (.primaryDomain rid) → s.posixId primary ≠ w.posixId primary)
      ∧ (∀ rid, Falls primary s (.builtin rid) →
          (s.posixId primary = w.posixId primary
            ↔ rid.toNat = 0x10000 + authority.toNat * 512 + number.toNat + 1))
      ∧ (∀ rid, Falls primary s (.foreignDomain rid) →
          (s.posixId primary = w.posixId primary
            ↔ rid.toNat = authority.toNat * 512 + number.toNat + 1)) := by
  have hid : w.posixId primary = 0x30000 + authority.toNat * 512 + (number.toNat + 1)
      ∧ authority.toNat < 0x80 ∧ number.toNat < 0x1FF := by
    rw [posixId_of_falls hw]
    cases hw with | wellKnown ha hr _ =>
    exact ⟨id_wellKnown ha hr, UInt64.lt_iff_toNat_lt.mp ha, UInt32.lt_iff_toNat_lt.mp hr⟩
  obtain ⟨hid, hauthority, hnumber⟩ := hid
  refine ⟨hid, fun h => ?_, fun rid h => ?_, fun rid h => ?_, fun rid h => ?_⟩ <;>
    rw [posixId_of_falls h, hid]
  · have hbase : IdRow.logonSession.id = 0xFFF := rfl
    omega
  · have hbase : (IdRow.primaryDomain rid).id = 0x40000 + rid.toNat := rfl
    omega
  · have hbase : (IdRow.builtin rid).id = 0x20000 + rid.toNat := rfl
    omega
  · have hbase : (IdRow.foreignDomain rid).id = 0x30000 + rid.toNat := rfl
    omega

/-- Everyone, with the one built-in group and the one number of another domain that share its id,
and with the number after. -/
theorem posixId_eq_wellKnown_iff_everyone :
    Falls none everyone (.wellKnown 1 0) ∧ everyone.posixId none = 0x30201
      ∧ ((new 5 [32, 0x10201]).posixId none = everyone.posixId none)
      ∧ ((new 5 [21, 9, 9, 9, 514]).posixId none ≠ everyone.posixId none) := by
  have heveryone : Falls none everyone (.wellKnown 1 0) := (falls_iff (by decide)).mpr (by decide)
  have hgroup : Falls none (new 5 [32, 0x10201]) (.builtin 0x10201) :=
    (falls_iff (by decide)).mpr (by decide)
  have hnext : Falls none (new 5 [21, 9, 9, 9, 514]) (.foreignDomain 514) :=
    (falls_iff (by decide)).mpr (by decide)
  obtain ⟨hid, -, -, hsame, -⟩ := posixId_eq_wellKnown_iff (s := new 5 [32, 0x10201]) heveryone
  obtain ⟨-, -, -, -, hother⟩ :=
    posixId_eq_wellKnown_iff (s := new 5 [21, 9, 9, 9, 514]) heveryone
  exact ⟨heveryone, hid, (hsame _ hgroup).mpr (by decide),
    fun h => absurd ((hother _ hnext).mp h) (by decide)⟩

/-! ## Ids within 32 bits -/

/-- The last relative identifier carries the id of a built-in group, and of an account of either
kind, past 32 bits. -/
theorem posixId_lastRid :
    let machine : Sid := .new 5 [21, 1, 2, 3]
    let group : Sid := .new 5 [32, 0xFFFFFFFF]
    let user : Sid := .new 5 [21, 1, 2, 3, 0xFFFFFFFF]
    (group.posixId none = 0x10001FFFF ∧ user.posixId none = 0x10002FFFF
        ∧ user.posixId (some machine) = 0x10003FFFF)
      ∧ ¬ ∀ primary s, posixId s primary = unknownId ∨ posixId s primary < 0x100000000 := by
  intro machine group user
  refine ⟨⟨by decide, by decide, by decide⟩, fun hall => ?_⟩
  exact absurd (hall none group) (by decide)

/-- Whether the base of a row leaves no room within 32 bits for the relative identifier: the limits
are 2 ^ 32 less the bases. -/
def IdRow.IsWide : IdRow → Prop
  | .builtin rid => 0xFFFE0000 ≤ rid.toNat
  | .primaryDomain rid => 0xFFFC0000 ≤ rid.toNat
  | .foreignDomain rid => 0xFFFD0000 ≤ rid.toNat
  | _ => False

/-- A base, and the room that it leaves within 32 bits, decide how far a relative identifier is
carried. -/
theorem base_add_rid_bounds {base room : Nat} (hbase : base ≤ 0x40000)
    (hroom : base + room = 0x100000000) (rid : UInt32) :
    base + rid.toNat < 0x100040000 ∧ (0x100000000 ≤ base + rid.toNat ↔ room ≤ rid.toNat) := by
  have hrid := rid.toNat_lt
  omega

/-- The id of a row goes past 32 bits for its wide relative identifiers alone, and by less than the
largest base. -/
theorem id_bounds (h : Falls primary s row) :
    row.id < 0x100040000 ∧ (0x100000000 ≤ row.id ↔ row.IsWide) := by
  cases h with
  | logonSession => exact ⟨by decide, iff_of_false (by decide) id⟩
  | builtin => exact base_add_rid_bounds (by decide) (by decide) _
  | primaryDomain => exact base_add_rid_bounds (by decide) (by decide) _
  | foreignDomain => exact base_add_rid_bounds (by decide) (by decide) _
  | @wellKnown rid ha hr =>
    have hauthority : s.authority.toNat < 0x80 := UInt64.lt_iff_toNat_lt.mp ha
    have hrid : rid.toNat < 0x1FF := UInt32.lt_iff_toNat_lt.mp hr
    rw [id_wellKnown ha hr]
    exact ⟨by omega, iff_of_false (by omega) id⟩

/-- An identifier of the table has an id of its row, and any other the id that stands for unknown. -/
theorem posixId_eq_unknownId_iff :
    s.posixId primary = unknownId ↔ ∀ row, ¬ Falls primary s row := by
  constructor
  · intro hunknown row hfalls
    have hbounds := (id_bounds hfalls).1
    rw [← posixId_of_falls hfalls, hunknown, unknownId] at hbounds
    omega
  · intro hnone
    have hrow : s.idRow primary = .none := by
      by_contra hrow
      exact hnone _ (falls_idRow hrow)
    rw [posixId, hrow, IdRow.id]

/-- The id of an identifier of no row is the one for unknown, which no row gives.  All others stay
below 32 bits and the largest base together, so that no sum comes near the end of 64 bits, and they
stay within 32 bits themselves unless the relative identifier of a built-in group or of an account
is so large that its base carries it over. -/
theorem posixId_range (primary : Option Sid) (s : Sid) :
    (s.posixId primary = unknownId ↔ ∀ row, ¬ Falls primary s row)
      ∧ (s.posixId primary = unknownId ∨ s.posixId primary < 0x100040000)
      ∧ (s.posixId primary = unknownId ∨ s.posixId primary < 0x100000000
          ↔ ∀ row, Falls primary s row → ¬ row.IsWide) := by
  refine ⟨posixId_eq_unknownId_iff, ?_⟩
  rw [posixId_eq_unknownId_iff]
  by_cases hnone : ∀ row, ¬ Falls primary s row
  · exact ⟨.inl hnone, iff_of_true (.inl hnone) fun row h => absurd h (hnone row)⟩
  · obtain ⟨row, hfalls⟩ := not_forall_not.mp hnone
    obtain ⟨hbound, hwide⟩ := id_bounds hfalls
    rw [posixId_of_falls hfalls, or_iff_right hnone, or_iff_right hnone]
    refine ⟨hbound, fun hlt row' hfalls' hwide' => ?_, fun hnarrow => ?_⟩
    · obtain rfl : row = row' := (idRow_of_falls hfalls).symm.trans (idRow_of_falls hfalls')
      exact Nat.not_le_of_lt hlt (hwide.mpr hwide')
    · exact Nat.lt_of_not_le fun hle => hnarrow row hfalls (hwide.mp hle)

end PortableFiles.Sid
