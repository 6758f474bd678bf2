import PortableFiles.Proofs.Security.AclMode
set_option autoImplicit false

/-!
# The mode of a set of entries

A mode is read off a list of entries as off a set: each entry gives its bits, whatever stands
around it, and entries that do not count give none.  What an entry gives comes from the rights of
its mask after the generic bits are expanded.  Expanding respects the union of masks, so an entry
with more rights never gives less.

`mode_reads_set` is the main statement.
-/

namespace PortableFiles

namespace AccessMask

/-! ## Masks within masks -/

/-- Every bit of the first mask is in the second. -/
def Within (a b : UInt32) : Prop := a &&& b = a

instance (a b : UInt32) : Decidable (Within a b) := inferInstanceAs (Decidable (_ = _))

theorem and_or_distrib (a b c : UInt32) : a &&& (b ||| c) = a &&& b ||| a &&& c := by
  apply UInt32.toBitVec_inj.mp
  ext i hi
  simp [Bool.and_or_distrib_left]

namespace Within

variable {a b c d : UInt32}

theorem refl (a : UInt32) : Within a a := UInt32.and_self

theorem zero (a : UInt32) : Within 0 a := UInt32.zero_and

theorem antisymm (hab : Within a b) (hba : Within b a) : a = b := by
  unfold Within at hab hba
  rw [← hab, UInt32.and_comm, hba]

theorem trans (hab : Within a b) (hbc : Within b c) : Within a c := by
  unfold Within at hab hbc ⊢
  rw [← hab, UInt32.and_assoc, hbc]

theorem or_right (a b : UInt32) : Within a (a ||| b) := by
  apply UInt32.toBitVec_inj.mp
  ext i hi
  simp +contextual

/-- What is within is what the union does not enlarge. -/
theorem iff_or_eq : Within a b ↔ a ||| b = b := by
  constructor
  · intro h
    rw [← h, UInt32.or_comm]
    apply UInt32.toBitVec_inj.mp
    ext i hi
    simp +contextual
  · intro h
    rw [← h]
    exact or_right a b

/-- Unions respect containment. -/
theorem or (hab : Within a b) (hcd : Within c d) : Within (a ||| c) (b ||| d) := by
  rw [iff_or_eq] at hab hcd ⊢
  calc a ||| c ||| (b ||| d) = (a ||| b) ||| (c ||| d) := by ac_rfl
    _ = b ||| d := by rw [hab, hcd]

/-- A union is within whatever both parts are within. -/
theorem or_iff : Within (a ||| b) c ↔ Within a c ∧ Within b c := by
  constructor
  · intro h
    have hb : Within b (a ||| b) := by
      rw [UInt32.or_comm]
      exact or_right b a
    exact ⟨(or_right a b).trans h, hb.trans h⟩
  · rintro ⟨ha, hb⟩
    have hunion := ha.or hb
    rwa [UInt32.or_self] at hunion

theorem shiftLeft (hab : Within a b) (k : UInt32) : Within (a <<< k) (b <<< k) := by
  unfold Within at hab ⊢
  rw [← UInt32.shiftLeft_and, hab]

/-- A mask that is within, or nothing. -/
theorem ite_zero {p : Prop} [Decidable p] (h : Within a b) : Within (if p then a else 0) b := by
  split
  · exact h
  · exact zero b

/-- A mask that is given in fewer cases is within. -/
theorem ite {p q : Prop} [Decidable p] [Decidable q] (hpq : p → q) (hab : Within a b) :
    Within (if p then a else 0) (if q then b else 0) := by
  by_cases hp : p
  · rw [if_pos hp, if_pos (hpq hp)]
    exact hab
  · rw [if_neg hp]
    exact zero _

end Within

/-! ## Rights after expansion -/

variable (m more bit rights : UInt32)

theorem generic_or :
    generic (m ||| more) bit rights = generic m bit rights ||| generic more bit rights := by
  have hand : (m ||| more) &&& bit = m &&& bit ||| more &&& bit := by
    rw [UInt32.and_comm, and_or_distrib, UInt32.and_comm bit, UInt32.and_comm bit]
  unfold generic
  rw [hand]
  by_cases hm : m &&& bit = 0 <;> by_cases hmore : more &&& bit = 0 <;>
    simp [hm, hmore, UInt32.or_eq_zero_iff]

/-- The expansion of a union is the union of the expansions. -/
theorem expand_or : expand (m ||| more) = expand m ||| expand more := by
  have hand : (m ||| more) &&& 0x0FFFFFFF = m &&& 0x0FFFFFFF ||| more &&& 0x0FFFFFFF := by
    rw [UInt32.and_comm, and_or_distrib, UInt32.and_comm _ m, UInt32.and_comm _ more]
  simp only [expand, generic_or, hand]
  ac_rfl

/-- A mask without generic bits is its own expansion. -/
theorem expand_of_within {m : UInt32} (h : Within m 0x0FFFFFFF) : expand m = m := by
  have hgeneric : ∀ bit rights : UInt32, 0x0FFFFFFF &&& bit = 0 → generic m bit rights = 0 := by
    intro bit rights hbit
    have hnone : m &&& bit = 0 := by rw [← h, UInt32.and_assoc, hbit, UInt32.and_zero]
    simp [generic, hnone]
  rw [expand, hgeneric _ _ (by decide), hgeneric _ _ (by decide), hgeneric _ _ (by decide),
    hgeneric _ _ (by decide), h]
  simp

/-- An expansion has no generic bits. -/
theorem expand_within : Within (expand m) 0x0FFFFFFF := by
  have hplain : Within (m &&& 0x0FFFFFFF) 0x0FFFFFFF := by
    rw [Within, UInt32.and_assoc, UInt32.and_self]
  have hgeneric : ∀ bit rights : UInt32, Within rights 0x0FFFFFFF →
      Within (generic m bit rights) 0x0FFFFFFF := fun _ _ hrights => .ite_zero hrights
  simp only [expand, Within.or_iff]
  exact ⟨⟨⟨⟨hplain, hgeneric _ _ (by decide)⟩, hgeneric _ _ (by decide)⟩,
    hgeneric _ _ (by decide)⟩, hgeneric _ _ (by decide)⟩

/-- Nothing is left to expand. -/
theorem expand_expand : expand (expand m) = expand m := expand_of_within (expand_within m)

/-- The triplet of a mask is that of its expansion. -/
theorem triplet_expand : triplet (expand m) = triplet m := by simp only [triplet, expand_expand]

/-- More rights give no smaller triplet. -/
theorem triplet_within_or : Within (triplet m) (triplet (m ||| more)) := by
  have hstill : ∀ rights : UInt32, expand m &&& rights = rights →
      expand (m ||| more) &&& rights = rights := by
    intro rights h
    have hin : Within rights (expand m) := by rwa [Within, UInt32.and_comm]
    have hmore : Within rights (expand (m ||| more)) := by
      rw [expand_or]
      exact hin.trans (.or_right _ _)
    rwa [Within, UInt32.and_comm] at hmore
  exact ((Within.ite (hstill read) (.refl 4)).or (.ite (hstill write) (.refl 2))).or
    (.ite (hstill execute) (.refl 1))

theorem triplet_within : Within (triplet m) 7 := by
  simp only [triplet, Within.or_iff]
  exact ⟨⟨.ite_zero (by decide), .ite_zero (by decide)⟩, .ite_zero (by decide)⟩

end AccessMask

namespace Acl

open AccessMask (Within expand triplet)

variable {owner group : Sid}

/-! ## What one entry gives -/

/-- An entry gives its trustee's share if it counts. -/
theorem modeBits_eq (owner group : Sid) (a : Ace) :
    modeBits owner group a
      = if counts a then share owner group a.trustee (triplet a.mask) else 0 := rfl

/-- A trustee that is none of those a mode is for has no share. -/
theorem share_unrelated {trustee : Sid}
    (h : trustee ∉ [owner, group, .ownerProxy, .groupProxy, .everyone]) (rwx : UInt32) :
    share owner group trustee rwx = 0 := by
  simp only [List.mem_cons, List.not_mem_nil, or_false, not_or] at h
  obtain ⟨ho, hg, hop, hgp, he⟩ := h
  simp [share, isForOwner, isForGroup, ho, hg, hop, hgp, he]

/-- A share grows with the triplet. -/
theorem share_within (trustee : Sid) {rwx rwx' : UInt32} (h : Within rwx rwx') :
    Within (share owner group trustee rwx) (share owner group trustee rwx') :=
  ((Within.ite id (h.shiftLeft 6)).or (.ite id (h.shiftLeft 3))).or (.ite id h)

/-- The share of a triplet is permissions. -/
theorem share_within_permissions (trustee : Sid) {rwx : UInt32} (h : Within rwx 7) :
    Within (share owner group trustee rwx) 0o777 := by
  have hplace : ∀ k : UInt32, Within (7 <<< k) 0o777 → Within (rwx <<< k) 0o777 :=
    fun k hk => (h.shiftLeft k).trans hk
  simp only [share, Within.or_iff]
  exact ⟨⟨.ite_zero (hplace 6 (by decide)), .ite_zero (hplace 3 (by decide))⟩,
    .ite_zero (h.trans (by decide))⟩

/-- What an entry gives is permissions. -/
theorem modeBits_within (owner group : Sid) (a : Ace) : Within (modeBits owner group a) 0o777 := by
  rw [modeBits_eq]
  exact .ite_zero (share_within_permissions a.trustee (AccessMask.triplet_within a.mask))

/-- An entry with a mask that gives no smaller triplet gives no less. -/
theorem modeBits_withMask (a : Ace) {mask : UInt32} (h : Within (triplet a.mask) (triplet mask)) :
    Within (modeBits owner group a) (modeBits owner group { a with mask := mask }) := by
  have hcounts : counts { a with mask := mask } = counts a := rfl
  rw [modeBits_eq, modeBits_eq, hcounts]
  exact .ite id (share_within a.trustee h)

/-- Entries that do not count for the owner, the group or everyone. -/
theorem modeBits_eq_zero {a : Ace}
    (h : a.kind = .deny ∨ a.isInheritOnly = true ∨ a.trustee ∈ [.localSystem, .administrators]
      ∨ a.trustee ∉ [owner, group, .ownerProxy, .groupProxy, .everyone]) :
    modeBits owner group a = 0 := by
  rw [modeBits_eq]
  split
  · rename_i hcounts
    simp only [counts, Bool.and_eq_true, decide_eq_true_eq, Bool.not_eq_true'] at hcounts
    obtain ⟨⟨hkind, hnotInherit⟩, hplain⟩ := hcounts
    rcases h with hdeny | hinherit | hprivileged | hunrelated
    · simp [hkind] at hdeny
    · simp [hnotInherit] at hinherit
    · simp only [Sid.isPrivileged, Bool.or_eq_false_iff, decide_eq_false_iff_not] at hplain
      simp [hplain] at hprivileged
    · exact share_unrelated hunrelated _
  · rfl

/-! ## What a list of entries gives -/

/-- A mode is within a mask if what each entry gives is. -/
theorem mode_within_iff {aces : List Ace} {mask : UInt32} :
    Within (mode owner group aces) mask ↔ ∀ a ∈ aces, Within (modeBits owner group a) mask := by
  induction aces with
  | nil => simp [mode, Within]
  | cons a rest ih =>
    rw [mode_cons, List.forall_mem_cons, ← ih, Within.or_iff]

/-- A list of entries that are all in another gives no more. -/
theorem mode_within_of_subset {xs ys : List Ace} (h : xs ⊆ ys) :
    Within (mode owner group xs) (mode owner group ys) := by
  have hall := mode_within_iff.mp (Within.refl (mode owner group ys))
  exact mode_within_iff.mpr fun a ha => hall a (h ha)

/-- The mode with one entry set apart. -/
theorem mode_insert (xs ys : List Ace) (a : Ace) :
    mode owner group (xs ++ a :: ys) = mode owner group (xs ++ ys) ||| modeBits owner group a := by
  rw [mode_append, mode_append, mode_cons]
  ac_rfl

/-- The mode of a list of entries is that of the set of its entries: the mode of two lists together
is the union of their modes, entries that are there again or in another order change nothing, and
neither do entries that deny, that are for children only, whose trustee is the system or the
administrators, or whose trustee is none of those a mode is for.  A mask may be replaced by its
expansion, and one with more rights takes no permission away. -/
theorem mode_reads_set (owner group : Sid) (xs ys : List Ace) :
    mode owner group (xs ++ ys) = mode owner group xs ||| mode owner group ys
      ∧ ((∀ a, a ∈ xs ↔ a ∈ ys) → mode owner group xs = mode owner group ys)
      ∧ Within (mode owner group xs) 0o777
      ∧ (∀ a : Ace,
          a.kind = .deny ∨ a.isInheritOnly = true ∨ a.trustee ∈ [.localSystem, .administrators]
            ∨ a.trustee ∉ [owner, group, .ownerProxy, .groupProxy, .everyone] →
          mode owner group (xs ++ a :: ys) = mode owner group (xs ++ ys))
      ∧ (∀ a : Ace, mode owner group (xs ++ { a with mask := expand a.mask } :: ys)
          = mode owner group (xs ++ a :: ys))
      ∧ (∀ (a : Ace) (more : UInt32), Within (mode owner group (xs ++ a :: ys))
          (mode owner group (xs ++ { a with mask := a.mask ||| more } :: ys))) := by
  refine ⟨mode_append xs ys, ?_, ?_, ?_, ?_, ?_⟩
  · intro hsame
    exact (mode_within_of_subset fun a ha => (hsame a).mp ha).antisymm
      (mode_within_of_subset fun a ha => (hsame a).mpr ha)
  · exact mode_within_iff.mpr fun a _ => modeBits_within owner group a
  · intro a hsilent
    rw [mode_insert, modeBits_eq_zero hsilent, UInt32.or_zero]
  · intro a
    have hsame : modeBits owner group { a with mask := expand a.mask }
        = modeBits owner group a := by
      rw [modeBits_eq, modeBits_eq, AccessMask.triplet_expand]
      rfl
    rw [mode_insert, mode_insert, hsame]
  · intro a more
    rw [mode_insert, mode_insert]
    exact (Within.refl _).or (modeBits_withMask a (AccessMask.triplet_within_or a.mask more))

/-- An owner by proxy with a generic right, everyone, the two again in another order, and an entry
of the owner's own that is for children only. -/
theorem mode_reads_set_of_proxies :
    let owner : Sid := .new 5 [21, 1, 2, 3, 1000]
    let group : Sid := .new 5 [21, 1, 2, 3, 513]
    let proxy : Ace := .allow .ownerProxy AccessMask.genericWrite
    let all : Ace := .allow .everyone AccessMask.all
    let inherited : Ace := { Ace.allow owner AccessMask.genericAll with flags := 8 }
    (∀ a, a ∈ [proxy, all] ↔ a ∈ [all, proxy, all]) ∧ inherited.isInheritOnly = true
      ∧ mode owner group [proxy, all] = 0o207
      ∧ mode owner group [proxy, all] = mode owner group [all, proxy, all]
      ∧ mode owner group ([proxy, all] ++ inherited :: [all, proxy, all])
          = mode owner group ([proxy, all] ++ [all, proxy, all]) := by
  intro owner group proxy all inherited
  have hsame : ∀ a, a ∈ [proxy, all] ↔ a ∈ [all, proxy, all] := by
    intro a
    simp only [List.mem_cons, List.not_mem_nil, or_false]
    tauto
  have hsilent : inherited.isInheritOnly = true := by decide
  obtain ⟨-, hset, -, hinsert, -, -⟩ :=
    mode_reads_set owner group [proxy, all] [all, proxy, all]
  exact ⟨hsame, hsilent, by decide, hset hsame, hinsert inherited (Or.inr (Or.inl hsilent))⟩

end Acl

end PortableFiles
