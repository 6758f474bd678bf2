import PortableFiles.Proofs.Kernel.Changes
import PortableFiles.Proofs.Writing.InPlaceCourse
import PortableFiles.Session.Start
set_option autoImplicit false

/-!
# What a write in place leaves

A write in place changes the file to which its path leads, under all the names that this file has,
or it makes one where the path leads and nothing is (`Machine.Wrote`).  From the courses of a write
follows what each of them leaves (`Writing.in_place`): a write that succeeds, one that must not
find anything, and one whose reader fails.
-/

namespace PortableFiles

/-- The content after bytes are written in place: after those that it held, or instead of them.  A
device keeps none. -/
def Content.rewritten (keeps : Bool) (data : Bytes) : Content → Content
  | .file old => .file (if keeps then old ++ data else data)
  | other => other

theorem Content.rewritten_eq (keeps : Bool) (data : Bytes) (c : Content) :
    c.rewritten keeps data = (if !keeps then c.emptied else c).append data := by
  cases keeps <;> cases c <;> rfl

/-- Whether a tree is the one of a machine after bytes are written to a path in place.  The file
gets the permissions that are given, exactly where the process may give them, or else keeps its
own, which for a new one are `mode` less the mask. -/
inductive Machine.Wrote (m : Machine) (path : Path) (keeps : Bool) (data : Bytes)
    (given : Option UInt32) (mode : UInt32) (t : Tree) : Prop where
  /-- A file was there.  It has the same owner and group, and other content. -/
  | found {id : InodeId} {old node : Inode} (hplace : m.resolve (fun _ => true) path = .ok id)
      (hold : m.tree.inode? id = some old)
      (hnode : node = { old with content := old.content.rewritten keeps data, perm := node.perm })
      (hperm : m.Grants given old.perm node) (htree : m.tree.Rewritten id node t) :
      Wrote m path keeps data given mode t
  /-- None was. -/
  | made {dir : InodeId} {name : Name} {node : Inode}
      (hplace : m.locate (fun _ => true) path = .ok (.entry dir name false))
      (hvacant : m.tree.Vacant dir name) (hcontent : node.content = .file data)
      (hperm : m.Grants given (m.masked mode) node) (htree : m.tree.Replaced dir name node t) :
      Wrote m path keeps data given mode t

variable {m m' : Machine}

/-- Bits that writing takes away may have been taken away before. -/
theorem Machine.Grants.of_trimmed {given : Option UInt32} {before before' : UInt32} {node : Inode}
    (hwho : m'.who = m.who) (htrimmed : Trimmed before before') (h : m'.Grants given before' node) :
    m.Grants given before node := by
  cases given with
  | none => exact htrimmed.trans h
  | some perm => exact Honours.of_who hwho h

/-- The tree with a file that was made is the one before with that file in it. -/
theorem Site.same_addEntry {s : Site} {t : Tree} {dir : InodeId} {name : Name} {data : Bytes}
    {perm : UInt32} (hdir : t.isDirectory dir = true) (hid : s.id = t.nextId)
    (htree : s.start.tree = t.addEntry dir name s.node) :
    (s.tree data perm).Same (t.addEntry dir name (s.after data perm)) := by
  rw [Site.tree, htree, hid]
  exact Tree.updateInode_addEntry hdir fun _ => s.after data perm

namespace Site.Opens

variable {s : Site} {path : Path} {how : OpenHow} {asked mode : UInt32} {data : Bytes}
  {perm : UInt32} {given : Option UInt32} {t : Tree}

/-- What is written to a file that was opened at a path is written to this path. -/
theorem wrote (h : s.Opens m path how (mode &&& permMask))
    (hend : how.truncate = !how.append) (ht : t.Same (s.tree data perm))
    (hperm : s.start.Grants given s.node.perm (s.after data perm)) :
    m.Wrote path how.append data given mode t := by
  have hwho : s.start.who = m.who := congrArg Process.who h.process
  cases h.begun with
  | @found old perm' _ hplace hold hleaf htrimmed hnode htree =>
    rw [h.path] at hplace
    have hways := Tree.SameWays.updateInode (f := fun _ => s.node) hold hleaf s.leaf (by rw [hnode])
    have hrewritten : m.tree.Rewritten s.id (s.after data perm) t := {
      root := ht.root.trans htree.root
      inode := by rw [ht.inode?, inode?_tree]
      entries d n := by rw [ht.child?, sameWays_tree.child?, htree.child?, hways.child?]
      inodes i hi := by
        rw [ht.inode?, Site.tree, Tree.inode?_updateInode, if_neg hi, htree.inode?,
          Tree.inode?_updateInode, if_neg hi] }
    refine .found hplace hold ?_ (.of_trimmed hwho ?_ hperm) hrewritten
    · rw [Content.rewritten_eq, ← hend, Site.after, hnode]
    · rw [hnode]
      exact htrimmed
  | @made dir name hplace hvacant hid hnode htree =>
    rw [h.path] at hplace
    have hcontent : (s.after data perm).content = .file data := by
      rw [Site.after, hnode]
      rfl
    have hasked : s.node.perm = m.masked mode := by
      rw [hnode, Machine.newInode_file_perm, Machine.masked_permMask]
    refine .made (Machine.locate_followed_of_vacant hvacant hplace) hvacant hcontent
      (.of_trimmed hwho (.refl _) (by rwa [hasked] at hperm)) ?_
    exact .of_addEntry hvacant.isDirectory hcontent
      (ht.trans (same_addEntry hvacant.isDirectory hid htree))

/-- Where a path leads after the file was opened, it led before. -/
theorem locate (h : s.Opens m path how asked) {follow : Bool → Bool} {path' : Path} {place : Place}
    (hplace : s.start.locate follow path' = .ok place) : m.locate follow path' = .ok place := by
  rw [Machine.locate, show s.start.who = m.who from congrArg Process.who h.process,
    show s.start.cwd = m.cwd from congrArg Process.cwd h.process] at hplace
  cases h.begun with
  | found _ _ hold hleaf _ hnode htree =>
    rw [htree.locate] at hplace
    exact (Tree.SameWays.updateInode (f := fun _ => s.node) hold hleaf s.leaf
      (by rw [hnode])).symm.locate hplace
  | made _ hvacant _ hnode htree =>
    rw [htree] at hplace
    exact (Tree.locate_addEntry hvacant (by rw [hnode]; rfl) _ _).eq_of_ok' hplace

/-- What must be missing is not opened where something is. -/
theorem not_resolve (h : s.Opens m path how asked) (hcreate : how.create = true)
    (hexclusive : how.exclusive = true) (id : InodeId) :
    m.resolve (fun _ => false) path ≠ .ok id := by
  intro hresolved
  cases h.begun with
  | found hinclusive =>
    rw [hexclusive] at hinclusive
    cases hinclusive
  | made hplace hvacant =>
    have hfollows : how.follows = fun _ => false := by
      funext slash
      simp [OpenHow.follows, hcreate, hexclusive]
    obtain ⟨place, hplace', hid⟩ := bind_eq_ok_iff.1 hresolved
    rw [hfollows, h.path] at hplace
    obtain rfl := Except.ok.inj (hplace.symm.trans hplace')
    obtain ⟨found, hfound, hid⟩ := bind_eq_ok_iff.1 hid
    obtain rfl := Except.ok.inj (hvacant.find.symm.trans hfound)
    cases hid

end Site.Opens

namespace Writing

open Posix (howFor)

variable {fails : Call → Errno → Prop} {path : Path} {reader : Reader} {mode : UInt32}
  {options : Options} {outcome : Except Error Unit}

namespace InPlaceCourse

/-- A write in place that succeeds has written everything.  Then the entry that the path names was
removed, if that was asked. -/
theorem of_ok (h : InPlaceCourse fails m path reader mode options (.ok ()) m') :
    if options.flags.has .deleteOnClose then
      ∃ t dir name,
        m.Wrote path (options.flags.has .append) reader.delivered options.fileMode mode t
          ∧ m.locate (fun _ => false) path = .ok (.entry dir name false)
          ∧ m'.tree.Same (t.removeEntry dir name)
    else
      m.Wrote path (options.flags.has .append) reader.delivered options.fileMode mode m'.tree := by
  have hhow := Posix.howFor_eq options.flags
  cases h with
  | @finished s perm written _ hopens _ hat hperm hend =>
    have hwrote : ∀ {t : Tree}, t.Same (s.tree reader.delivered perm) →
        m.Wrote path (options.flags.has .append) reader.delivered options.fileMode mode t := by
      intro t ht
      have hwrote := hopens.wrote (by rw [hhow]) ht hperm
      rwa [hhow] at hwrote
    by_cases hdelete : options.flags.has .deleteOnClose = true
    · rw [if_pos hdelete] at hend ⊢
      obtain ⟨dir, name, hplace, hremoved⟩ := hat.unlink hend
      rw [hopens.path] at hplace
      exact ⟨_, dir, name, hwrote (.refl _), hopens.locate hplace, hremoved⟩
    · rw [if_neg hdelete] at hend ⊢
      rw [hend]
      exact hwrote hat.tree

/-- A write that must not find anything fails where something is, and nothing has happened. -/
theorem of_exclusive (h : InPlaceCourse fails m path reader mode options outcome m')
    (hexclusive : options.flags.has .exclusive = true)
    (hpath : path.bytes.getLast? ≠ some Path.slash) (hnul : path.hasNul = false)
    (hopen : m.mayOpen = true) (hfails : ∀ how perm errno, ¬ fails (.openFile path how perm) errno)
    {id : InodeId} (hid : m.resolve (fun _ => false) path = .ok id) :
    m' = m ∧ ∃ e, outcome = .error e ∧ e.kind = .alreadyExists := by
  have hhow := Posix.howFor_eq options.flags
  cases h with
  | nowhere hempty =>
    obtain ⟨place, hplace, -⟩ := bind_eq_ok_iff.1 hid
    exact absurd hempty (by simpa [Path.isEmpty] using (Machine.bounds_of_locate hplace).1)
  | unopened hwhy =>
    rcases hwhy with ⟨hnul', -⟩ | ⟨errno, houtcome, rfl⟩
    · rw [hnul] at hnul'
      cases hnul'
    · have hperform : (m.openFile path (howFor options.flags) (mode &&& permMask)) = .error errno :=
        houtcome.perform_eq_error (hfails _ _ _)
      obtain ⟨place, hplace, hid⟩ := bind_eq_ok_iff.1 hid
      rw [Machine.openFile_eq_entryExists (by rw [hhow]; rfl) (by rw [hhow])
        (by rw [hhow]; exact hexclusive) (by rw [hhow]) hopen hplace
        (Machine.ne_entry_of_unslashed hpath hplace) hid] at hperform
      cases hperform
      exact ⟨rfl, _, rfl, rfl⟩
  | broken hopens _ =>
    exact absurd hid (hopens.not_resolve (by rw [hhow]) (by rw [hhow]; exact hexclusive) id)
  | finished hopens _ _ _ _ =>
    exact absurd hid (hopens.not_resolve (by rw [hhow]) (by rw [hhow]; exact hexclusive) id)

/-- A write whose reader fails does so, too.  It has opened no file, or it has written what the
reader delivered before, or less where a write failed before. -/
theorem of_not_ends (h : InPlaceCourse fails m path reader mode options outcome m')
    (hends : ¬ reader.Ends) :
    ∃ e, outcome = .error e ∧ ((e.operation = .openFile ∧ m' = m) ∨ ∃ done,
      done <+: reader.delivered
        ∧ (e.operation = .write ∨ (e.operation = .read ∧ done = reader.delivered))
        ∧ m.Wrote path (options.flags.has .append) done none mode m'.tree) := by
  have hhow := Posix.howFor_eq options.flags
  cases h with
  | nowhere _ => exact ⟨_, rfl, Or.inl ⟨rfl, rfl⟩⟩
  | unopened hwhy =>
    refine ⟨_, rfl, Or.inl ⟨?_, rfl⟩⟩
    rcases hwhy with ⟨-, rfl⟩ | ⟨_, -, rfl⟩ <;> rfl
  | @broken s e _ hopens h =>
    have hwrote : ∀ {done : Bytes} {perm : UInt32}, s.At done perm m' → Trimmed s.node.perm perm →
        m.Wrote path (options.flags.has .append) done none mode m'.tree := by
      intro done perm hat hperm
      have hgrants : s.start.Grants none s.node.perm (s.after done perm) := hperm
      have hwrote := hopens.wrote (by rw [hhow]) hat.tree hgrants
      rwa [hhow] at hwrote
    cases h with
    | unread _ he hperm hat =>
      exact ⟨e, rfl, Or.inr ⟨_, List.prefix_rfl, Or.inr ⟨he, rfl⟩, hwrote hat hperm⟩⟩
    | unwritten hdone he hperm hat =>
      exact ⟨e, rfl, Or.inr ⟨_, hdone, Or.inl he, hwrote hat hperm⟩⟩
    | unfinished hends' _ _ => exact absurd hends' hends
  | finished _ hends' _ _ _ => exact absurd hends' hends

end InPlaceCourse

/-- A write in place that succeeds leaves all the bytes in the file to which the path leads, be it
one that was there, under all its names, or a new one, and changes nothing else; but where the
entry that the path names shall not outlive the write, that entry is removed.  A write that must
not find anything fails where something is, even a link that leads nowhere, and changes nothing.
Where the reader fails, and no call did before, the file holds what came until then. -/
theorem in_place {events : List Event} (hplain : options.atomically = false)
    (hquiet : reader.IsQuiet)
    (hrun : Routine.Runs fails (fromReader Posix.platform path reader mode options) m events outcome
      m') :
    (outcome = .ok () →
      if options.flags.has .deleteOnClose then
        ∃ t dir name,
          m.Wrote path (options.flags.has .append) reader.delivered options.fileMode mode t
            ∧ m.locate (fun _ => false) path = .ok (.entry dir name false)
            ∧ m'.tree.Same (t.removeEntry dir name)
      else
        m.Wrote path (options.flags.has .append) reader.delivered options.fileMode mode m'.tree)
    ∧ (options.flags.has .exclusive = true → path.bytes.getLast? ≠ some Path.slash →
        path.hasNul = false → m.mayOpen = true →
        (∀ how perm errno, ¬ fails (.openFile path how perm) errno) →
        ∀ id, m.resolve (fun _ => false) path = .ok id →
          m' = m ∧ ∃ e, outcome = .error e ∧ e.kind = .alreadyExists)
    ∧ (options.flags.has .deleteOnClose = false → ¬ reader.Ends →
        ∃ e, outcome = .error e ∧ ((e.operation = .openFile ∧ m' = m) ∨ ∃ done,
          done <+: reader.delivered
            ∧ (e.operation = .write ∨ (e.operation = .read ∧ done = reader.delivered))
            ∧ m.Wrote path (options.flags.has .append) done none mode m'.tree)) := by
  have hcourse := inPlaceCourse_of_runs hplain hquiet hrun
  refine ⟨?_, ?_, fun _ hends => hcourse.of_not_ends hends⟩
  · rintro rfl
    exact hcourse.of_ok
  · intro hexclusive hpath hnul hopen hfails id hid
    exact hcourse.of_exclusive hexclusive hpath hnul hopen hfails hid

/-- Whether an outcome is the failure of an operation. -/
def failsIn (operation : Operation) : Except Error Unit → Bool
  | .error e => e.operation = operation
  | .ok _ => false

/-- The small system with a file `a`, a link `l` to it, and a link `d` that leads nowhere. -/
def linked : Machine :=
  (((Machine.small fun _ => 7).create 9 [97] (.file [111, 108, 100]) 0o640).create 9 [108]
    (.symlink [97]) 0o777).create 9 [100] (.symlink [120]) 0o777

/-- A write at the end of a file, through a link to it. -/
def throughLink : Routine Unit :=
  fromReader Posix.platform ⟨[108]⟩ [.bytes [110], .bytes [101, 119]] 0o644
    { Options.plain with flags := .single .append, fileMode := some 0o600 }

/-- A write to a name that leads nowhere but is taken. -/
def overLink : Routine Unit :=
  fromReader Posix.platform ⟨[100]⟩ [.bytes [110, 101, 119]] 0o644
    { Options.plain with flags := .single .exclusive }

/-- A write over a file whose reader fails after two bytes. -/
def breakingOff : Routine Unit :=
  fromReader Posix.platform ⟨[97]⟩ [.bytes [110, 101], .failure (.bare .other)] 0o644 Options.plain

/-- Written through a link, the file has the old bytes and the new ones; a link that leads nowhere
is in the way of a file that must not exist; and a reader that fails leaves what it delivered. -/
theorem in_place_linked :
    linked.Wrote ⟨[108]⟩ true [110, 101, 119] (some 0o600) 0o644 (throughLink.run linked).2.tree
      ∧ (overLink.run linked).2 = linked
      ∧ linked.Wrote ⟨[97]⟩ false [110, 101] none 0o644 (breakingOff.run linked).2.tree := by
  have hruns := fun t : Routine Unit => Routine.runs_run (fun _ _ => False) t linked
  refine ⟨?_, ?_, ?_⟩
  · exact (in_place rfl (by simp) (hruns throughLink)).1 (eq_ok_of_isOk (by decide +kernel))
  · have hid : linked.resolve (fun _ => false) ⟨[100]⟩ = .ok 35 := rfl
    exact ((in_place rfl (by simp) (hruns overLink)).2.1 (by decide) (by decide) rfl rfl
      (fun _ _ _ h => h) 35 hid).1
  · have hends : ¬ Reader.Ends [.bytes [110, 101], .failure (.bare .other)] := by
      simp [Reader.Ends, IoError.kind]
    have hread : failsIn .read (breakingOff.run linked).1 = true := by decide +kernel
    obtain ⟨e, he, hleft⟩ := (in_place rfl (by simp) (hruns breakingOff)).2.2 (by decide) hends
    rw [he] at hread
    have hread : e.operation = .read := of_decide_eq_true hread
    obtain ⟨hopen, -⟩ | ⟨done, -, hwrite | ⟨-, rfl⟩, hwrote⟩ := hleft
    · rw [hread] at hopen
      cases hopen
    · rw [hread] at hwrite
      cases hwrite
    · exact hwrote

/-- The small system with a file `a` of the process, which is no member of the file's group. -/
def estranged : Machine :=
  { (Machine.small fun _ => 7).create 9 [97] (.file [111, 108, 100]) 0o640 with
    who := ⟨0, 100, false⟩ }

/-- A write over that file, which asks it to lend its group's rights. -/
def lendingInPlace : Routine Unit :=
  fromReader Posix.platform ⟨[97]⟩ [.bytes [110, 101, 119]] 0o644
    { Options.plain with fileMode := some 0o2755 }

/-- A write over that file, whose permissions somebody else sets while the reader delivers. -/
def meddledInPlace : Routine Unit :=
  fromReader Posix.platform ⟨[97]⟩
    [.bytes [110], .meanwhile (.call (.chmod ⟨[97]⟩ 0o600) false fun _ => .done ()), .bytes [119]]
    0o644 Options.plain

/-- Such a write succeeds, and the file does not lend the group's rights.  Where somebody else sets
its permissions, it does not keep its own. -/
theorem in_place_estranged :
    (lendingInPlace.run estranged).1.isOk = true
      ∧ (lendingInPlace.run estranged).2.permAt ⟨[97]⟩ = some 0o755
      ∧ estranged.permAt ⟨[97]⟩ = some 0o640
      ∧ (meddledInPlace.run estranged).1.isOk = true
      ∧ (meddledInPlace.run estranged).2.permAt ⟨[97]⟩ = some 0o600 := by
  decide +kernel

end Writing

end PortableFiles
