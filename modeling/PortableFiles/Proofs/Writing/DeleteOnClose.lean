import PortableFiles.Proofs.Writing.InPlaceResult
set_option autoImplicit false

/-!
# Files that shall not outlive their write

A file that a write in place makes can be removed when the write ends.  Where the write succeeds,
no trace of the file is left.  Where it breaks off, the file stays with what was written until
then, since only closing it at the end of a write that succeeds removes it
(`Writing.delete_on_close`).
-/

namespace PortableFiles

variable {m m' : Machine} {path : Path} {dir : InodeId} {name : Name} {slash : Bool}

namespace Site.Opens

variable {s : Site} {how : OpenHow} {asked : UInt32}

/-- At a path to a free name a file was made under this name. -/
theorem made (h : s.Opens m path how asked)
    (hplace : m.locate (fun _ => false) path = .ok (.entry dir name slash))
    (hvacant : m.tree.Vacant dir name) (data : Bytes) (perm : UInt32) :
    (s.tree data perm).Same (m.tree.addEntry dir name (s.after data perm))
      ∧ (s.after data perm).content = .file data := by
  have hfollowed := Machine.locate_followed_of_vacant hvacant hplace
  cases h.begun with
  | found _ hfound =>
    obtain ⟨place, hplace', hid⟩ := bind_eq_ok_iff.1 hfound
    rw [h.path] at hplace'
    obtain rfl := Except.ok.inj (hfollowed.symm.trans hplace')
    obtain ⟨found, hfound, hid⟩ := bind_eq_ok_iff.1 hid
    obtain rfl := Except.ok.inj (hvacant.find.symm.trans hfound)
    cases hid
  | made hmade hfree hid hnode htree =>
    rw [h.path] at hmade
    have hmade := Machine.locate_followed_of_vacant hfree hmade
    cases Except.ok.inj (hfollowed.symm.trans hmade)
    refine ⟨same_addEntry hvacant.isDirectory hid htree, ?_⟩
    rw [Site.after, hnode]
    rfl

end Site.Opens

namespace Writing

variable {fails : Call → Errno → Prop} {reader : Reader} {mode : UInt32} {options : Options}
  {outcome : Except Error Unit}

/-- A write that makes a file which shall not outlive it leaves nothing, if it succeeds.  If it
fails before the file is opened, nothing has happened.  If it fails later, the file stays, with all
that was written to it. -/
theorem delete_on_close {events : List Event} (hplain : options.atomically = false)
    (hquiet : reader.IsQuiet) (hdelete : options.flags.has .deleteOnClose = true)
    (hplace : m.locate (fun _ => false) path = .ok (.entry dir name slash))
    (hvacant : m.tree.Vacant dir name)
    (hrun : Routine.Runs fails (fromReader Posix.platform path reader mode options) m events outcome
      m') :
    (outcome = .ok () → m.tree.Unchanged m'.tree)
      ∧ ∀ e, outcome = .error e → (e.operation = .openFile ∧ m' = m) ∨ ∃ node done,
        m.tree.Replaced dir name node m'.tree ∧ node.content = .file done
          ∧ done <+: reader.delivered ∧ (e.operation = .write ∨ done = reader.delivered) := by
  have hcourse := inPlaceCourse_of_runs hplain hquiet hrun
  refine ⟨?_, ?_⟩
  · rintro rfl
    cases hcourse with
    | @finished s perm written _ hopens _ hat _ hend =>
      rw [if_pos hdelete] at hend
      obtain ⟨hsame, hcontent⟩ := hopens.made hplace hvacant reader.delivered perm
      obtain ⟨dir', name', hlocated, hremoved⟩ := hat.unlink hend
      rw [hopens.path] at hlocated
      cases Except.ok.inj (hplace.symm.trans (hopens.locate hlocated))
      refine .of_addInode hcontent ((hremoved.trans (hsame.updateInode _ _)).trans ?_)
      refine Tree.removeEntry_setEntry ?_
      rw [Tree.child?_addInode dir hcontent, hvacant.child?]
  · rintro e rfl
    cases hcourse with
    | nowhere _ => exact Or.inl ⟨rfl, rfl⟩
    | unopened hwhy =>
      refine Or.inl ⟨?_, rfl⟩
      rcases hwhy with ⟨-, rfl⟩ | ⟨_, -, rfl⟩ <;> rfl
    | @broken s _ _ hopens h =>
      obtain ⟨done, perm, hat, hdone, he⟩ := h.exists_at
      obtain ⟨hsame, hcontent⟩ := hopens.made hplace hvacant done perm
      exact Or.inr ⟨s.after done perm, done,
        .of_addEntry hvacant.isDirectory hcontent (hat.tree.trans hsame), hcontent, hdone, he⟩

/-- The options of a write whose file shall not outlive it. -/
def fleeting : Options := { Options.plain with flags := .single .deleteOnClose }

/-- A write of two bytes that shall not outlive it. -/
def passing : Routine Unit := fromReader Posix.platform ⟨[102]⟩ [.bytes [97, 98]] 0o644 fleeting

/-- The same one with a reader that fails at its end. -/
def stuck : Routine Unit :=
  fromReader Posix.platform ⟨[102]⟩ [.bytes [97, 98], .failure (.bare .other)] 0o644 fleeting

/-- The file of a write that succeeds is gone; the file of one whose reader fails is still there,
with what was read. -/
theorem delete_on_close_stuck :
    Machine.smallTree.Unchanged (passing.run (Machine.small fun _ => 7)).2.tree
      ∧ ∃ node,
        Machine.smallTree.Replaced 9 [102] node (stuck.run (Machine.small fun _ => 7)).2.tree
        ∧ node.content = .file [97, 98] := by
  have hplace : (Machine.small fun _ => 7).locate (fun _ => false) ⟨[102]⟩
      = .ok (.entry 9 [102] false) := rfl
  have hvacant : Machine.smallTree.Vacant 9 [102] := ⟨rfl, rfl⟩
  have hread : failsIn .read (stuck.run (Machine.small fun _ => 7)).1 = true := by decide +kernel
  have hpassing := Routine.runs_run (fun _ _ => False) passing (Machine.small fun _ => 7)
  have hstuck := Routine.runs_run (fun _ _ => False) stuck (Machine.small fun _ => 7)
  refine ⟨?_, ?_⟩
  · exact (delete_on_close rfl (by simp) (by decide) hplace hvacant hpassing).1
      (eq_ok_of_isOk (by decide +kernel))
  · have hleft := (delete_on_close rfl (by simp) (by decide) hplace hvacant hstuck).2
    cases hrun : (stuck.run (Machine.small fun _ => 7)).1 with
    | ok _ =>
      rw [hrun] at hread
      cases hread
    | error e =>
      rw [hrun] at hread
      have hread : e.operation = .read := of_decide_eq_true hread
      obtain ⟨hopen, -⟩ | ⟨node, done, hreplaced, hcontent, -, hwrite | rfl⟩ := hleft e hrun
      · rw [hread] at hopen
        cases hopen
      · rw [hread] at hwrite
        cases hwrite
      · exact ⟨node, hreplaced, hcontent⟩

end Writing

end PortableFiles
