import PortableFiles.Proofs.Text.Numerals
import PortableFiles.Proofs.Text.Splitting
import PortableFiles.Security.Sid.Text
set_option autoImplicit false

/-!
# Security identifiers through text

The grammar of identifiers as text (`Sid.Spells`), which reading follows exactly
(`Sid.parse_eq_some_iff`), and what becomes of an identifier that is written and read again
(`Sid.text_roundTrip`).  Writing has no bounds, so an identifier with too large an authority or too
many numbers has a text that cannot be read.
-/

namespace PortableFiles

theorem mapM_eq_some_iff {α β : Type} {f : α → Option β} {l : List α} {values : List β} :
    l.mapM f = some values ↔ List.Forall₂ (fun a b => f a = some b) l values := by
  induction l generalizing values with
  | nil =>
    rw [List.mapM_nil, List.forall₂_nil_left_iff]
    exact Option.some_inj.trans eq_comm
  | cons a rest ih =>
    rw [List.mapM_cons, List.forall₂_cons_left_iff]
    simp only [Option.bind_eq_bind, Option.bind_eq_some_iff, Option.pure_def, Option.some.injEq, ih]
    constructor
    · rintro ⟨b, hb, values, hvalues, rfl⟩
      exact ⟨b, values, hb, hvalues, rfl⟩
    · rintro ⟨b, values, hb, hvalues, rfl⟩
      exact ⟨b, hb, values, hvalues, rfl⟩

namespace Sid

open Text Text.Numeral

variable {part : List Char} {parts : List (List Char)} {sid : Sid}

/-! ## The grammar -/

/-- Whether a part stands for an authority: a decimal number, or a hexadecimal one after its
mark. -/
def SpellsAuthority (part : List Char) (n : Nat) : Prop :=
  SpellsSigned 10 part n ∨ ∃ digits,
    (part = '0' :: 'x' :: digits ∨ part = '0' :: 'X' :: digits) ∧ SpellsSigned 16 digits n

/-- Whether the parts of a text stand for an identifier: the mark, the revision, the authority, and
at most fifteen numbers.  The widths of the identifier's fields bound what the parts may stand
for. -/
inductive Spells : List (List Char) → Sid → Prop where
  | intro {mark revision authority : List Char} {subs : List (List Char)} {sid : Sid}
      (hmark : mark = ['S'] ∨ mark = ['s'])
      (hrevision : SpellsSigned 10 revision sid.revision.toNat)
      (hauthority : SpellsAuthority authority sid.authority.toNat)
      (hbound : sid.authority.toNat < 2 ^ 48)
      (hsubs : List.Forall₂ (fun part sub => SpellsSigned 10 part sub.toNat) subs sid.subs)
      (hcount : subs.length ≤ 15) :
      Spells (mark :: revision :: authority :: subs) sid

/-! ## Reading a part -/

theorem parseSub_eq_some_iff {sub : UInt32} :
    parseSub part = some sub ↔ SpellsSigned 10 part sub.toNat := by
  rw [parseSub, Option.map_eq_some_iff]
  constructor
  · rintro ⟨n, hn, rfl⟩
    have hlt := unsigned?_lt hn
    rw [UInt32.toNat_ofNat_of_lt' hlt]
    exact ((unsigned?_eq_some_iff (by decide)).1 hn).1
  · intro h
    exact ⟨sub.toNat, (unsigned?_eq_some_iff (by decide)).2 ⟨h, sub.toNat_lt⟩, UInt32.ofNat_toNat⟩

/-- A number that is read for an authority is the authority's value. -/
theorem authority_eq_some_iff {base : Nat} {digits : List Char} {authority : UInt64}
    (hbase : base ≤ 16) :
    (unsigned? base authorityBound digits).map UInt64.ofNat = some authority ↔
      SpellsSigned base digits authority.toNat ∧ authority.toNat < 2 ^ 48 := by
  rw [Option.map_eq_some_iff]
  constructor
  · rintro ⟨n, hn, rfl⟩
    have hlt := unsigned?_lt hn
    rw [UInt64.toNat_ofNat_of_lt' (hlt.trans (by decide))]
    exact (unsigned?_eq_some_iff hbase).1 hn
  · intro h
    exact ⟨authority.toNat, (unsigned?_eq_some_iff hbase).2 h, UInt64.ofNat_toNat⟩

/-- A text with the mark of hexadecimal numbers is no decimal number. -/
theorem not_spellsSigned_marked {mark : Char} {digits : List Char} {n : Nat}
    (hmark : 58 ≤ mark.toNat) : ¬ SpellsSigned 10 ('0' :: mark :: digits) n := by
  rintro (h | ⟨rest, hrest, -⟩)
  · obtain ⟨d, hd, hdigit⟩ := h.isDigit_of_mem (List.mem_cons_of_mem _ List.mem_cons_self)
    have hcases := hdigit.toNat_cases (hd.trans (by decide))
    omega
  · cases hrest

/-- A part stands for one authority at most. -/
theorem SpellsAuthority.unique {m n : Nat} (h : SpellsAuthority part m)
    (h' : SpellsAuthority part n) : m = n := by
  rcases h with h | ⟨digits, hpart, h⟩ <;> rcases h' with h' | ⟨digits', hpart', h'⟩
  · exact h.unique h' (by decide)
  · rcases hpart' with rfl | rfl
    · exact absurd h (not_spellsSigned_marked (by decide))
    · exact absurd h (not_spellsSigned_marked (by decide))
  · rcases hpart with rfl | rfl
    · exact absurd h' (not_spellsSigned_marked (by decide))
    · exact absurd h' (not_spellsSigned_marked (by decide))
  · have hdigits : digits = digits' := by
      rcases hpart with rfl | rfl <;> simpa using hpart'
    subst hdigits
    exact h.unique h' (by decide)

theorem parseAuthority_eq_some_iff {authority : UInt64} :
    parseAuthority part = some authority ↔
      SpellsAuthority part authority.toNat ∧ authority.toNat < 2 ^ 48 := by
  unfold parseAuthority SpellsAuthority
  split
  · rename_i digits
    have hdecimal : ¬ SpellsSigned 10 ('0' :: 'x' :: digits) authority.toNat :=
      not_spellsSigned_marked (by decide)
    rw [authority_eq_some_iff (by decide)]
    simp [hdecimal]
  · rename_i digits
    have hdecimal : ¬ SpellsSigned 10 ('0' :: 'X' :: digits) authority.toNat :=
      not_spellsSigned_marked (by decide)
    rw [authority_eq_some_iff (by decide)]
    simp [hdecimal]
  · rename_i hlower hupper
    rw [authority_eq_some_iff (by decide), and_congr_left_iff]
    intro _
    refine (or_iff_left ?_).symm
    rintro ⟨digits, rfl | rfl, -⟩
    · exact hlower digits rfl
    · exact hupper digits rfl

/-! ## Reading an identifier -/

/-- The parts of an identifier are read one after the other. -/
theorem ofParts?_cons_eq_some_iff {mark revision authority : List Char}
    {subs : List (List Char)} :
    ofParts? (mark :: revision :: authority :: subs) = some sid ↔
      (mark = ['S'] ∨ mark = ['s']) ∧ unsigned? 10 256 revision = some sid.revision.toNat
        ∧ parseAuthority authority = some sid.authority ∧ subs.mapM parseSub = some sid.subs
        ∧ sid.subs.length ≤ 15 := by
  simp only [ofParts?, ne_eq, ← not_or]
  by_cases hmark : mark = ['S'] ∨ mark = ['s']
  · rw [if_neg (not_not_intro hmark)]
    simp only [hmark, true_and, Option.pure_def, Option.bind_eq_bind, Option.bind_eq_some_iff]
    constructor
    · rintro ⟨number, hrevision, value, hauthority, values, hsubs, h⟩
      split at h
      · cases h
      · rename_i hcount
        cases h
        rw [UInt8.toNat_ofNat_of_lt' (unsigned?_lt hrevision)]
        exact ⟨hrevision, hauthority, hsubs, Nat.le_of_not_lt hcount⟩
    · rintro ⟨hrevision, hauthority, hsubs, hcount⟩
      refine ⟨_, hrevision, _, hauthority, _, hsubs, ?_⟩
      have hfew : ¬ sid.subs.length > maxSubs := Nat.not_lt_of_le hcount
      rw [if_neg hfew, UInt8.ofNat_toNat]
  · rw [if_pos hmark]
    simp [hmark]

/-- The parts that are read are the ones of the grammar. -/
theorem ofParts?_eq_some_iff : ofParts? parts = some sid ↔ Spells parts sid := by
  constructor
  · intro h
    match parts with
    | mark :: revision :: authority :: subs =>
      obtain ⟨hmark, hrevision, hauthority, hsubs, hcount⟩ := ofParts?_cons_eq_some_iff.1 h
      obtain ⟨hauthority, hbound⟩ := parseAuthority_eq_some_iff.1 hauthority
      have hparts := mapM_eq_some_iff.1 hsubs
      refine .intro hmark ?_ hauthority hbound ?_ ?_
      · exact ((unsigned?_eq_some_iff (by decide)).1 hrevision).1
      · exact hparts.imp fun _ _ => parseSub_eq_some_iff.1
      · rw [hparts.length_eq]
        exact hcount
    | [] | [_] | [_, _] => cases h
  · rintro ⟨hmark, hrevision, hauthority, hbound, hsubs, hcount⟩
    apply ofParts?_cons_eq_some_iff.2
    refine ⟨hmark, ?_, parseAuthority_eq_some_iff.2 ⟨hauthority, hbound⟩, ?_, ?_⟩
    · exact (unsigned?_eq_some_iff (by decide)).2 ⟨hrevision, sid.revision.toNat_lt⟩
    · exact mapM_eq_some_iff.2 (hsubs.imp fun _ _ => parseSub_eq_some_iff.2)
    · rw [← hsubs.length_eq]
      exact hcount

/-- The grammar bounds what it gives. -/
theorem Spells.bounds (h : Spells parts sid) :
    sid.authority.toNat < 2 ^ 48 ∧ sid.subs.length ≤ 15 := by
  obtain ⟨-, -, -, hbound, hsubs, hcount⟩ := h
  exact ⟨hbound, hsubs.length_eq ▸ hcount⟩

theorem hyphen_notMem_of_spellsSigned {base n : Nat} (hbase : base ≤ 16)
    (h : SpellsSigned base part n) : '-' ∉ part := by
  intro hmem
  rcases h with h | ⟨digits, rfl, h⟩
  · exact absurd (h.le_of_mem hbase hmem) (by decide)
  · rcases List.mem_cons.1 hmem with hplus | hmem
    · cases hplus
    · exact absurd (h.le_of_mem hbase hmem) (by decide)

theorem hyphen_notMem_of_spellsAuthority {n : Nat} (h : SpellsAuthority part n) : '-' ∉ part := by
  rcases h with h | ⟨digits, hpart, h⟩
  · exact hyphen_notMem_of_spellsSigned (by decide) h
  · have hdigits := hyphen_notMem_of_spellsSigned (by decide) h
    rcases hpart with rfl | rfl <;> simp [hdigits]

/-- The texts that are read are the ones which, cut at every hyphen, are parts of the grammar. -/
theorem parse_eq_some_iff (s : String) (sid : Sid) :
    parse s = some sid ↔
      ∃ parts, (∀ part ∈ parts, '-' ∉ part) ∧ s.toList = joinWith '-' parts ∧ Spells parts sid := by
  rw [parse, ofParts?_eq_some_iff]
  constructor
  · intro h
    refine ⟨_, ?_, (joinWith_splitOn '-' s.toList).symm, h⟩
    intro part hpart hmem
    exact of_decide_eq_false (not_sep_of_mem_splitOn _ _ part hpart '-' hmem) rfl
  · rintro ⟨parts, hparts, hs, h⟩
    have hsome : parts ≠ [] := by
      cases h
      simp
    rw [hs, splitOn_joinWith hsome hparts]
    exact h

/-! ## Writing and reading -/

/-- A number that is written stands for itself. -/
theorem spellsSigned_decimal (n : Nat) : SpellsSigned 10 (decimal n) n :=
  Or.inl (spells_toDigits (by decide) n)

/-- The text of an authority stands for it, in either base. -/
theorem spellsAuthority_authorityText (authority : UInt64) :
    SpellsAuthority (authorityText authority) authority.toNat := by
  unfold authorityText
  split
  · exact Or.inl (spellsSigned_decimal authority.toNat)
  · have hdigits : Text.Numeral.Spells 16 (hexUpper authority.toNat) authority.toNat :=
      (spells_toDigits (by decide) authority.toNat).map_toUpper (by decide)
    exact Or.inr ⟨_, Or.inl rfl, Or.inl (hdigits.padded 12)⟩

/-- What the parts of an identifier's text stand for is the identifier, within the bounds. -/
theorem spells_textParts_iff {s t : Sid} :
    Spells s.textParts t ↔ t = s ∧ s.authority.toNat < 2 ^ 48 ∧ s.subs.length ≤ 15 := by
  constructor
  · rintro ⟨-, hrevision, hauthority, hbound, hsubs, hcount⟩
    have hrevision : t.revision = s.revision :=
      UInt8.toNat_inj.1 (hrevision.unique (spellsSigned_decimal _) (by decide))
    have hauthority : t.authority = s.authority :=
      UInt64.toNat_inj.1 (hauthority.unique (spellsAuthority_authorityText _))
    have hsubs : t.subs = s.subs := by
      rw [List.forall₂_map_left_iff] at hsubs
      refine (List.forall₂_eq_eq_eq ▸ hsubs.imp fun sub value h => ?_).symm
      exact UInt32.toNat_inj.1 ((spellsSigned_decimal _).unique h (by decide))
    refine ⟨?_, hauthority ▸ hbound, by simpa using hcount⟩
    cases s
    cases t
    simp_all
  · rintro ⟨rfl, hbound, hcount⟩
    refine .intro (Or.inl rfl) (spellsSigned_decimal _) (spellsAuthority_authorityText _) hbound
      ?_ (by simpa using hcount)
    rw [List.forall₂_map_left_iff]
    exact List.forall₂_same.2 fun sub _ => spellsSigned_decimal _

/-- The parts of a text are cut apart again. -/
theorem splitOn_text (s : Sid) : splitOn (· = '-') s.text.toList = s.textParts := by
  rw [text, String.toList_ofList]
  apply splitOn_joinWith
  · exact List.cons_ne_nil _ _
  · refine List.forall_mem_cons.2 ⟨by decide, List.forall_mem_cons.2 ⟨?revision,
      List.forall_mem_cons.2 ⟨?authority, ?subs⟩⟩⟩
    case revision => exact hyphen_notMem_of_spellsSigned (by decide) (spellsSigned_decimal _)
    case authority => exact hyphen_notMem_of_spellsAuthority (spellsAuthority_authorityText _)
    case subs =>
      intro part hpart
      obtain ⟨sub, -, rfl⟩ := List.mem_map.1 hpart
      exact hyphen_notMem_of_spellsSigned (by decide) (spellsSigned_decimal _)

/-- What an identifier's text is read as is the identifier, within the bounds. -/
theorem parse_text_eq_some_iff {s t : Sid} :
    parse s.text = some t ↔ t = s ∧ s.authority.toNat < 2 ^ 48 ∧ s.subs.length ≤ 15 := by
  rw [parse, splitOn_text, ofParts?_eq_some_iff, spells_textParts_iff]

/-- An identifier within the bounds is read again from its text, and no other identifier has a
text that can be read.  What is read from any text is therefore read again from its own, and of
two identifiers within the bounds neither has the other's text. -/
theorem text_roundTrip :
    (∀ s : Sid, (parse s.text).isSome ↔ s.authority.toNat < 2 ^ 48 ∧ s.subs.length ≤ 15)
      ∧ (∀ s t : Sid, parse s.text = some t → t = s)
      ∧ (∀ (text : String) (s : Sid), parse text = some s → parse s.text = some s)
      ∧ ∀ s t : Sid, (parse s.text).isSome → (parse t.text).isSome → s.text = t.text → s = t := by
  have hread : ∀ s t : Sid, parse s.text = some t → t = s :=
    fun s t h => (parse_text_eq_some_iff.1 h).1
  refine ⟨?bounds, hread, ?again, ?injective⟩
  case bounds =>
    intro s
    rw [Option.isSome_iff_exists]
    constructor
    · rintro ⟨t, h⟩
      exact (parse_text_eq_some_iff.1 h).2
    · intro h
      exact ⟨s, parse_text_eq_some_iff.2 ⟨rfl, h⟩⟩
  case again =>
    intro text s h
    exact parse_text_eq_some_iff.2 ⟨rfl, (ofParts?_eq_some_iff.1 h).bounds⟩
  case injective =>
    intro s t hs ht heq
    obtain ⟨u, hu⟩ := Option.isSome_iff_exists.1 ht
    have hu' : parse s.text = some u := heq ▸ hu
    rw [← hread t u hu, hread s u hu']

end Sid

end PortableFiles
