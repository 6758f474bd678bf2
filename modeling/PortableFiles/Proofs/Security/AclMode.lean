import Mathlib.Tactic.IntervalCases
import PortableFiles.Security.Acl.Basic
set_option autoImplicit false

/-!
# Modes through access control lists

The entries that stand for a mode give the mode back when it is read off them, for exactly the
owners and groups that do not stand in each other's way.  Each triplet is written for one trustee;
what the entry gives when it is read depends on whom that trustee is taken for, so everything
comes down to `Acl.share`, what one entry gives to owner, group and everyone.

`mode_ofMode_iff` is the main statement.
-/

namespace PortableFiles

/-! ## Triplets through masks -/

namespace AccessMask

/-- A triplet is one of eight. -/
theorem exists_eq_and_seven (m : UInt32) : ∃ i : Fin 8, m &&& 7 = UInt32.ofNat i := by
  refine ⟨⟨m.toNat % 8, Nat.mod_lt _ (by decide)⟩, ?_⟩
  apply UInt32.toNat_inj.mp
  have hand : (m &&& 7).toNat = m.toNat % 8 := by
    rw [UInt32.toNat_and]
    exact Nat.and_two_pow_sub_one_eq_mod m.toNat 3
  rw [hand, UInt32.toNat_ofNat']
  exact (Nat.mod_eq_of_lt (by omega)).symm

/-- The mask for a triplet gives that triplet, although reading and executing share a right. -/
theorem triplet_ofTriplet (m : UInt32) (owner : Bool) :
    triplet (ofTriplet (m &&& 7) owner) = m &&& 7 := by
  have height : ∀ (i : Fin 8) (b : Bool),
      triplet (ofTriplet (UInt32.ofNat i) b) = UInt32.ofNat i := by decide
  obtain ⟨i, hi⟩ := exists_eq_and_seven m
  rw [hi]
  exact height i owner

end AccessMask

namespace Acl

variable {owner group trustee : Sid}

/-! ## What one entry gives -/

/-- Whether an entry for a trustee counts for the owner. -/
def isForOwner (owner trustee : Sid) : Bool := trustee = owner || trustee = .ownerProxy

/-- Whether an entry for a trustee counts for the group. -/
def isForGroup (group trustee : Sid) : Bool := trustee = group || trustee = .groupProxy

/-- The bits of a mode that a triplet allowed to a trustee gives. -/
def share (owner group trustee : Sid) (rwx : UInt32) : UInt32 :=
  (if isForOwner owner trustee then rwx <<< 6 else 0)
    ||| (if isForGroup group trustee then rwx <<< 3 else 0)
    ||| (if !isForOwner owner trustee && !isForGroup group trustee && trustee = .everyone then rwx
        else 0)

@[simp] theorem share_zero (owner group trustee : Sid) : share owner group trustee 0 = 0 := by
  simp [share]

/-- A trustee that stands for the owner alone. -/
theorem share_owner (ho : isForOwner owner trustee = true)
    (hg : isForGroup group trustee = false) (rwx : UInt32) :
    share owner group trustee rwx = rwx <<< 6 := by
  simp [share, ho, hg]

/-- A trustee that stands for the group alone. -/
theorem share_group (ho : isForOwner owner trustee = false)
    (hg : isForGroup group trustee = true) (rwx : UInt32) :
    share owner group trustee rwx = rwx <<< 3 := by
  simp [share, ho, hg]

/-- A trustee that stands for the owner and for the group. -/
theorem share_both (ho : isForOwner owner trustee = true)
    (hg : isForGroup group trustee = true) (rwx : UInt32) :
    share owner group trustee rwx = rwx <<< 6 ||| rwx <<< 3 := by
  simp [share, ho, hg]

/-- An entry that counts gives its share. -/
theorem modeBits_allow (h : trustee.isPrivileged = false) (mask : UInt32) :
    modeBits owner group (.allow trustee mask)
      = share owner group trustee (AccessMask.triplet mask) := by
  have hcounts : counts (.allow trustee mask) = true := by
    simp [counts, Ace.allow, Ace.isInheritOnly, h]
  rw [modeBits, if_pos hcounts]
  rfl

/-- An entry for the system or the administrators gives nothing. -/
theorem modeBits_privileged (h : trustee.isPrivileged = true) (mask : UInt32) :
    modeBits owner group (.allow trustee mask) = 0 := by
  have hcounts : counts (.allow trustee mask) = false := by simp [counts, Ace.allow, h]
  rw [modeBits, if_neg (by simp [hcounts])]

/-! ## What a list of entries gives -/

theorem foldl_modeBits (aces : List Ace) (bits : UInt32) :
    aces.foldl (fun bits a => bits ||| modeBits owner group a) bits
      = bits ||| mode owner group aces := by
  induction aces generalizing bits with
  | nil => simp [mode]
  | cons a rest ih =>
    rw [mode, List.foldl_cons, List.foldl_cons, ih, ih]
    simp [UInt32.or_assoc]

theorem mode_cons (a : Ace) (rest : List Ace) :
    mode owner group (a :: rest) = modeBits owner group a ||| mode owner group rest := by
  rw [mode, List.foldl_cons, foldl_modeBits]
  simp

/-- The mode of entries together is that of all parts. -/
theorem mode_append (a b : List Ace) :
    mode owner group (a ++ b) = mode owner group a ||| mode owner group b := by
  induction a with
  | nil => simp [mode]
  | cons x rest ih => rw [List.cons_append, mode_cons, mode_cons, ih, UInt32.or_assoc]

/-- What is written for a triplet gives the trustee's share, also where nothing is written. -/
theorem mode_entryFor (owner group : Sid) {trustee : Sid} (h : trustee.isPrivileged = false)
    (m : UInt32) (isOwner : Bool) :
    mode owner group (entryFor trustee (m &&& 7) isOwner)
      = share owner group trustee (m &&& 7) := by
  unfold entryFor
  split
  · rename_i hzero
    rw [hzero, share_zero]
    rfl
  · rw [mode_cons, modeBits_allow h, AccessMask.triplet_ofTriplet]
    simp [mode]

/-- A proxy is written for whoever has privileges, so the trustee of a triplet never has any. -/
theorem isPrivileged_trusteeFor (s proxy : Sid) (h : proxy.isPrivileged = false) :
    (trusteeFor s proxy).isPrivileged = false := by
  unfold trusteeFor
  split
  · exact h
  · rename_i hs
    simpa using hs

/-- The mode that is read off the entries for a mode, in shares. -/
theorem mode_ofMode (m : UInt32) (owner group : Sid) :
    mode owner group (ofMode m owner group)
      = share owner group (trusteeFor owner .ownerProxy) (m >>> 6 &&& 7)
        ||| share owner group (trusteeFor group .groupProxy) (m >>> 3 &&& 7)
        ||| share owner group .everyone (m &&& 7) := by
  have hsystem : mode owner group
      [.allow .localSystem AccessMask.all, .allow .administrators AccessMask.all] = 0 := by
    rw [mode_cons, mode_cons, modeBits_privileged (by decide), modeBits_privileged (by decide)]
    simp [mode]
  have howner := mode_entryFor owner group
    (isPrivileged_trusteeFor owner .ownerProxy (by decide)) (m >>> 6) true
  have hgroup := mode_entryFor owner group
    (isPrivileged_trusteeFor group .groupProxy (by decide)) (m >>> 3) false
  have heveryone : Sid.everyone.isPrivileged = false := by decide
  have hall := mode_entryFor owner group heveryone m false
  rw [ofMode, mode_append, mode_append, mode_append, howner, hgroup, hall, hsystem]
  simp

/-! ## When triplets come back -/

/-- Three triplets in their places are the nine bits. -/
theorem triplets_eq (m : UInt32) :
    (m >>> 6 &&& 7) <<< 6 ||| (m >>> 3 &&& 7) <<< 3 ||| (m &&& 7) = m &&& 0o777 := by
  apply UInt32.toBitVec_inj.mp
  ext i hi
  interval_cases i <;> simp

/-- The owner's triplet goes to the owner alone. -/
theorem owner_alone (hproxy : owner ≠ .groupProxy) (hgroup : group ≠ .ownerProxy)
    (hsame : owner = group → owner.isPrivileged) :
    isForOwner owner (trusteeFor owner .ownerProxy) = true
      ∧ isForGroup group (trusteeFor owner .ownerProxy) = false := by
  unfold trusteeFor
  split
  · refine ⟨by simp [isForOwner], ?_⟩
    have hproxies : Sid.ownerProxy ≠ .groupProxy := by decide
    simp [isForGroup, hgroup.symm, hproxies]
  · rename_i hplain
    have hne : owner ≠ group := fun h => hplain (hsame h)
    exact ⟨by simp [isForOwner], by simp [isForGroup, hne, hproxy]⟩

/-- The group's triplet goes to the group alone. -/
theorem group_alone (hproxy : owner ≠ .groupProxy) (hgroup : group ≠ .ownerProxy)
    (hsame : owner = group → owner.isPrivileged) :
    isForOwner owner (trusteeFor group .groupProxy) = false
      ∧ isForGroup group (trusteeFor group .groupProxy) = true := by
  unfold trusteeFor
  split
  · refine ⟨?_, by simp [isForGroup]⟩
    have hproxies : Sid.groupProxy ≠ .ownerProxy := by decide
    simp [isForOwner, hproxy.symm, hproxies]
  · rename_i hplain
    have hne : group ≠ owner := fun h => hplain (h ▸ hsame h.symm)
    exact ⟨by simp [isForOwner, hne, hgroup], by simp [isForGroup]⟩

/-- The last triplet goes to everyone, unless everyone is the owner or the group. -/
theorem share_everyone (howner : owner ≠ .everyone) (hgroup : group ≠ .everyone) (rwx : UInt32) :
    share owner group .everyone rwx = rwx := by
  have hproxies : Sid.everyone ≠ .ownerProxy ∧ Sid.everyone ≠ .groupProxy := by decide
  simp [share, isForOwner, isForGroup, howner.symm, hgroup.symm, hproxies]

/-- Where everyone is the owner or the group, the last triplet is lost. -/
theorem share_everyone_ne (h : owner = .everyone ∨ group = .everyone) :
    share owner group .everyone 7 ≠ 7 := by
  have hsome : isForOwner owner .everyone = true ∨ isForGroup group .everyone = true := by
    rcases h with rfl | rfl
    · exact Or.inl (by simp [isForOwner])
    · exact Or.inr (by simp [isForGroup])
  cases ho : isForOwner owner .everyone <;> cases hg : isForGroup group .everyone
  · simp [ho, hg] at hsome
  · rw [share_group ho hg]
    decide
  · rw [share_owner ho hg]
    decide
  · rw [share_both ho hg]
    decide

/-- A mode with one triplet shows where that triplet goes. -/
theorem shares_of_mode_ofMode
    (h : ∀ m : UInt32, mode owner group (ofMode m owner group) = m &&& 0o777) :
    share owner group (trusteeFor owner .ownerProxy) 7 = 0o700
      ∧ share owner group (trusteeFor group .groupProxy) 7 = 0o070
      ∧ share owner group .everyone 7 = 0o007 := by
  refine ⟨?_, ?_, ?_⟩
  · have hmode := h 0o700
    rw [mode_ofMode, show (0o700 : UInt32) >>> 6 &&& 7 = 7 by decide,
      show (0o700 : UInt32) >>> 3 &&& 7 = 0 by decide,
      show (0o700 : UInt32) &&& 7 = 0 by decide,
      show (0o700 : UInt32) &&& 0o777 = 0o700 by decide, share_zero, share_zero] at hmode
    simpa using hmode
  · have hmode := h 0o070
    rw [mode_ofMode, show (0o070 : UInt32) >>> 6 &&& 7 = 0 by decide,
      show (0o070 : UInt32) >>> 3 &&& 7 = 7 by decide,
      show (0o070 : UInt32) &&& 7 = 0 by decide,
      show (0o070 : UInt32) &&& 0o777 = 0o070 by decide, share_zero, share_zero] at hmode
    simpa using hmode
  · have hmode := h 0o007
    rw [mode_ofMode, show (0o007 : UInt32) >>> 6 &&& 7 = 0 by decide,
      show (0o007 : UInt32) >>> 3 &&& 7 = 0 by decide,
      show (0o007 : UInt32) &&& 7 = 7 by decide,
      show (0o007 : UInt32) &&& 0o777 = 0o007 by decide, share_zero, share_zero] at hmode
    simpa using hmode

/-- A mode is read off its own entries unless two of owner, group and everyone are taken for each
other: one of them is another's proxy or everyone, or owner and group are one and not written as
proxies. -/
theorem mode_ofMode_iff (owner group : Sid) :
    (∀ m : UInt32, mode owner group (ofMode m owner group) = m &&& 0o777) ↔
      owner ≠ .everyone ∧ owner ≠ .groupProxy ∧ group ≠ .everyone ∧ group ≠ .ownerProxy ∧
        (owner = group → owner.isPrivileged) := by
  constructor
  · intro h
    obtain ⟨hfirst, hmiddle, hlast⟩ := shares_of_mode_ofMode h
    refine ⟨?_, ?_, ?_, ?_, ?_⟩
    · intro he
      exact share_everyone_ne (Or.inl he) hlast
    · rintro rfl
      rw [show trusteeFor .groupProxy .ownerProxy = .groupProxy by decide,
        share_both (by simp [isForOwner]) (by simp [isForGroup])] at hfirst
      exact absurd hfirst (by decide)
    · intro he
      exact share_everyone_ne (Or.inr he) hlast
    · rintro rfl
      rw [show trusteeFor .ownerProxy .groupProxy = .ownerProxy by decide,
        share_both (by simp [isForOwner]) (by simp [isForGroup])] at hmiddle
      exact absurd hmiddle (by decide)
    · rintro rfl
      by_contra hplain
      rw [trusteeFor, if_neg hplain,
        share_both (by simp [isForOwner]) (by simp [isForGroup])] at hfirst
      exact absurd hfirst (by decide)
  · rintro ⟨hall, hproxy, hall', hgroup, hsame⟩ m
    obtain ⟨ho, ho'⟩ := owner_alone hproxy hgroup hsame
    obtain ⟨hg, hg'⟩ := group_alone hproxy hgroup hsame
    rw [mode_ofMode, share_owner ho ho', share_group hg hg', share_everyone hall hall',
      triplets_eq]

end Acl

end PortableFiles
