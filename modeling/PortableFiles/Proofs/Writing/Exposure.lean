import PortableFiles.Proofs.Writing.Publication
set_option autoImplicit false

/-!
# What the group and others may do with the new file

A new file is made with the permissions given for new files, less the mask, before it is known
which ones it ends up with.  Until these are set it grants the group and others what it was made
with, and no more; from then on it grants what the final permissions grant
(`AtomicWrite.exposure`).
-/

namespace PortableFiles

variable {fails : Call → Errno → Prop} {s : Stage} {m m' : Machine} {events : List Event}
  {bound : UInt32}

/-! ## Rights of the group and of others -/

/-- Whether permissions grant the group and others nothing that the bound does not grant. -/
def SharesWithin (perm bound : UInt32) : Prop := perm &&& 0o077 &&& bound = perm &&& 0o077

instance (perm bound : UInt32) : Decidable (SharesWithin perm bound) :=
  inferInstanceAs (Decidable (_ = _))

namespace SharesWithin

variable {perm perm' : UInt32}

theorem refl (perm : UInt32) : SharesWithin perm perm := by
  rw [SharesWithin, UInt32.and_comm perm, UInt32.and_assoc, UInt32.and_self]

theorem trans (h : SharesWithin perm perm') (h' : SharesWithin perm' bound) :
    SharesWithin perm bound := by
  have hbits : perm &&& 0o077 = perm &&& (perm' &&& 0o077) := by
    rw [← h, UInt32.and_assoc, UInt32.and_comm 0o077]
  rw [SharesWithin, hbits, UInt32.and_assoc, h']

/-- Fewer bits grant less. -/
theorem of_and (perm other : UInt32) : SharesWithin (perm &&& other) perm := by
  rw [SharesWithin, UInt32.and_comm _ perm, UInt32.and_assoc, ← UInt32.and_assoc perm,
    UInt32.and_self]

theorem or_left (perm other : UInt32) : SharesWithin perm (perm ||| other) := by
  have habsorb : perm &&& (perm ||| other) = perm := by
    apply UInt32.toBitVec_inj.1
    ext i hi
    simp only [UInt32.toBitVec_and, UInt32.toBitVec_or, BitVec.getElem_and, BitVec.getElem_or]
    cases perm.toBitVec[i] <;> rfl
  rw [SharesWithin, UInt32.and_comm perm, UInt32.and_assoc, habsorb]

/-- Permissions of the owner alone grant nothing. -/
theorem of_private (h : perm &&& 0o077 = 0) : SharesWithin perm bound := by
  rw [SharesWithin, h, UInt32.zero_and]

/-- Writing takes rights away and gives none. -/
theorem of_trimmed (h : Trimmed perm perm') : SharesWithin perm' perm := by
  rcases h with rfl | rfl
  · exact refl perm'
  · rw [Machine.withoutLentRights_eq]
    exact of_and _ _

/-- A file that has the permissions that it should grants no more than these. -/
theorem of_honours {node : Inode} (h : m.Honours node perm) : SharesWithin node.perm perm := by
  rcases h.lessened with h | h
  · rw [h]
    exact refl perm
  · rw [h]
    exact of_and _ _

end SharesWithin

/-! ## Files that are new on a machine -/

/-- Whether every file that is not there on the first machine grants the group and others nothing
on the second one that the bound does not grant. -/
def Machine.Guarded (m : Machine) (bound : UInt32) (now : Machine) : Prop :=
  ∀ id node, m.tree.inode? id = none → now.tree.inode? id = some node →
    SharesWithin node.perm bound

namespace Machine.Guarded

variable {now : Machine} {node : Inode}

theorem of_tree_eq (h : now.tree = m.tree) : m.Guarded bound now := by
  intro id node hnew hnode
  rw [h, hnew] at hnode
  cases hnode

/-- Besides the new inode, no inode is new. -/
theorem of_addInode (h : now.tree.Same (m.tree.addInode node)) (hperm : SharesWithin node.perm bound) :
    m.Guarded bound now := by
  intro id found hnew hfound
  rw [h.inode?, Tree.inode?_addInode] at hfound
  split at hfound
  · cases hfound
    exact hperm
  · rw [hnew] at hfound
    cases hfound

theorem of_addEntry {dir : InodeId} {name : Name} (hdir : m.tree.isDirectory dir = true)
    (h : now.tree.Same (m.tree.addEntry dir name node)) (hperm : SharesWithin node.perm bound) :
    m.Guarded bound now := by
  intro id found hnew hfound
  by_cases hid : id = m.tree.nextId
  · rw [hid, h.inode?, Tree.inode?_addEntry_nextId hdir] at hfound
    cases hfound
    exact hperm
  · obtain ⟨f, hmap⟩ := Tree.inode?_addEntry_eq_map name node hdir hid
    rw [h.inode?, hmap, hnew] at hfound
    cases hfound

end Machine.Guarded

/-! ## The file while it is filled -/

namespace Stage

variable {data : Bytes} {perm : UInt32}

/-- A machine on which the file has some bytes, and permissions that grant nothing beyond a
bound. -/
def HoldsWithin (s : Stage) (bound : UInt32) (m : Machine) : Prop :=
  ∃ data perm, s.At data perm m ∧ SharesWithin perm bound

/-- Whether a call leaves the permissions of the file to those who wrote it. -/
def Fills (s : Stage) : Call → Prop
  | .write file _ | .sync file | .statOpen file | .close file => file = s.file
  | .stat .. => True
  | _ => False

theorem At.guarded (h : s.At data perm m') (hasked : m.Asked s.start)
    (hperm : SharesWithin perm bound) : m.Guarded bound m' := by
  have hdirectory := s.vacant.isDirectory
  have hsame := h.tree
  rw [Stage.tree, hasked.tree] at hsame
  rw [hasked.tree] at hdirectory
  exact .of_addEntry hdirectory hsame (by rwa [node_perm])

namespace HoldsWithin

theorem guarded (h : s.HoldsWithin bound m') (hasked : m.Asked s.start) : m.Guarded bound m' := by
  obtain ⟨data, perm, hat, hperm⟩ := h
  exact hat.guarded hasked hperm

theorem of_write {file : Descriptor} {more : Bytes} {count : Nat} (h : s.HoldsWithin bound m)
    (hfile : file = s.file) (hwrite : m.write file more = .ok (count, m')) :
    s.HoldsWithin bound m' := by
  obtain ⟨data, perm, hat, hperm⟩ := h
  subst hfile
  exact ⟨_, _, (hat.write hwrite).2, (SharesWithin.of_trimmed (.permAfter _ _ _)).trans hperm⟩

/-- Whatever comes of a call that fills the file, it grants nothing more. -/
theorem of_outcome {c : Call} {reply : Except Errno c.Value} (h : s.HoldsWithin bound m)
    (hc : s.Fills c) (houtcome : c.Outcome fails m reply m') : s.HoldsWithin bound m' := by
  cases houtcome with
  | refused _ => exact h
  | failed _ => exact h
  | short _ hwrite => exact h.of_write hc hwrite
  | done hperform =>
    cases c with
    | write file more => exact h.of_write hc hperform
    | close file =>
      obtain rfl := hc
      obtain ⟨data, perm, hat, hperm⟩ := h
      exact ⟨data, perm, hat.close hperform, hperm⟩
    | sync | statOpen | stat =>
      rw [Call.machine_perform_of_looks (by trivial) hperform]
      exact h
    | _ => cases hc

theorem of_runs {α : Type} {t : Routine α} {outcome : Except Error α} (h : s.HoldsWithin bound m)
    (huses : Routine.Uses s.Fills t) (hrun : Routine.Runs fails t m events outcome m') :
    s.HoldsWithin bound m' ∧ ∀ e ∈ events, s.HoldsWithin bound e.after := by
  obtain ⟨hend, hevents⟩ := Program.Runs.invariant (I := s.HoldsWithin bound)
    (fun c reply m m' hc houtcome hm => hm.of_outcome hc houtcome)
    (fun q m ⟨data, perm, hat, hperm⟩ => ⟨data, perm, hat.answer q, hperm⟩) hrun huses h
  exact ⟨hend, fun e he => (hevents e he).2.2⟩

end HoldsWithin

end Stage

namespace Writing

variable {path : Path} {reader : Reader} {options : Options} {found : Option UInt32}
  {opening : List Event} {made : Machine} {created perm : UInt32}

/-! ## The permissions that are chosen -/

/-- The permissions that come out depend on the destination only as far as it is looked at. -/
theorem Looked.finalPerm_eq {looked : List Event} {kept : Option UInt32} {umask mask : UInt32}
    (h : Looked fails path options m looked kept)
    (hfound : ∀ e ∈ looked, e.call = .stat path true → e.foundPerm? path = found) :
    options.finalPerm found umask mask = options.finalPerm kept umask mask := by
  cases h with
  | spared hspared =>
    rcases hspared with hmode | hkeep
    · obtain ⟨mode, hmode⟩ := Option.isSome_iff_exists.1 hmode
      simp [Options.finalPerm, hmode]
    · simp [Options.finalPerm, hkeep]
  | found _ _ =>
    rw [← hfound _ (List.mem_singleton_self _) rfl]
    simp [Event.foundPerm?]
  | missing _ _ =>
    rw [← hfound _ (List.mem_singleton_self _) rfl]
    rfl

/-- Setting permissions changes the machine with its last call or not at all. -/
theorem adjustPerm_runs {outcome : Except Error Unit}
    (hrun : Routine.Runs fails (adjustPerm s.path created perm) m events outcome m') :
    (outcome = .ok () ∨ m' = m) ∧ ∀ e ∈ events, e.after = m' := by
  unfold adjustPerm at hrun
  split at hrun
  · rcases Routine.runs_bind_iff.1 hrun with
      ⟨e, rfl, hnul⟩ | ⟨first, rest, between, _, rfl, hnul, hcall⟩
    · obtain ⟨-, -, rfl, rfl⟩ := hnul.checkNul_error
      exact ⟨.inr rfl, fun e he => by cases he⟩
    obtain ⟨-, rfl, rfl⟩ := hnul.checkNul_ok
    obtain ⟨reply, houtcome, rfl, rfl⟩ := Routine.runs_call_iff.1 hcall
    refine ⟨?_, fun e he => by rw [List.mem_singleton.1 he]⟩
    cases reply with
    | ok _ => exact .inl rfl
    | error errno => exact .inr houtcome.eq_of_error
  · obtain ⟨rfl, rfl, rfl⟩ := Routine.runs_pure_iff.1 hrun
    exact ⟨.inl rfl, fun e he => by cases he⟩

/-! ## Whole runs -/

theorem uses_fill_fills (hquiet : reader.IsQuiet) :
    Routine.Uses s.Fills (fill Posix.platform s.writer reader) := by
  refine uses_fill ?_ ?_ ?_ ?_ hquiet
  · exact fun _ => rfl
  all_goals rfl

/-- Removing the file leaves its inode as it is. -/
theorem guarded_of_removal {between : Machine} {reply : Except Errno Unit}
    (hbegun : Begun m path options s opening made) (hbetween : s.HoldsWithin bound between)
    (hremoval : (Call.unlink s.path).Outcome fails between reply m') : m.Guarded bound m' := by
  cases reply with
  | error errno =>
    rw [hremoval.eq_of_error]
    exact hbetween.guarded hbegun.asked
  | ok _ =>
    obtain ⟨data, perm, hat, hperm⟩ := hbetween
    exact .of_addInode (hbegun.same_of_unlink hat hremoval) (by rwa [Stage.node_perm])

/-- Whether a part of a run keeps to a bound: at every moment of it the new file grants nothing
more, and where the part fails the file is still there and holds to the bound. -/
structure KeepsTo (s : Stage) (m : Machine) (bound : UInt32) (events : List Event)
    (outcome : Except Error Unit) (m' : Machine) : Prop where
  guarded : ∀ e ∈ events, m.Guarded bound e.after
  held : ∀ e, outcome = .error e → s.HoldsWithin bound m'

/-- A part of a run that leaves the file as it should be, and another one that keeps to the bound
from there, keep to the bound together. -/
theorem KeepsTo.of_bind {α : Type} {t : Routine α} {f : α → Routine Unit} {start : Machine}
    {outcome : Except Error Unit} (hasked : m.Asked s.start)
    (hrun : Routine.Runs fails (t >>= f) start events outcome m')
    (hfirst : ∀ {first between outcome}, first ⊆ events →
      Routine.Runs fails t start first outcome between →
      s.HoldsWithin bound between ∧ ∀ e ∈ first, s.HoldsWithin bound e.after)
    (hrest : ∀ {first rest between value}, events = first ++ rest →
      Routine.Runs fails t start first (.ok value) between → s.HoldsWithin bound between →
      Routine.Runs fails (f value) between rest outcome m' →
      KeepsTo s m bound rest outcome m') : KeepsTo s m bound events outcome m' := by
  rcases Routine.runs_bind_iff.1 hrun with
    ⟨e, rfl, ht⟩ | ⟨first, rest, between, value, hevents, ht, hvalue⟩
  · obtain ⟨hend, hheld⟩ := hfirst (List.Subset.refl _) ht
    exact ⟨fun e he => (hheld e he).guarded hasked, fun _ _ => hend⟩
  · have hsubset : first ⊆ events := by
      rw [hevents]
      exact List.subset_append_left _ _
    obtain ⟨hbetween, hheld⟩ := hfirst hsubset ht
    have hkeeps := hrest hevents ht hbetween hvalue
    refine ⟨?_, hkeeps.held⟩
    rw [hevents]
    exact List.forall_mem_append.2 ⟨fun e he => (hheld e he).guarded hasked, hkeeps.guarded⟩

/-- Choosing permissions leaves the file to those who wrote it. -/
theorem uses_finalPerm_fills :
    Routine.Uses s.Fills (finalPerm Posix.platform path options created) := by
  refine Program.Uses.mono uses_finalPerm ?_
  rintro c rfl
  trivial

/-- A file that is prepared grants nothing beyond a bound for the permissions that come out. -/
theorem Preparation.sharesWithin {ready : Machine}
    (p : Preparation fails m path reader options s ready)
    (hfinal : SharesWithin (options.finalPerm found m.umask m.mask) bound)
    (hfound : ∀ e ∈ p.steps, e.call = .stat path true → e.foundPerm? path = found) :
    SharesWithin p.perm bound := by
  have hlooked : ∀ e ∈ p.looked, e.call = .stat path true → e.foundPerm? path = found :=
    fun e he => hfound e (by simp [Preparation.steps, he])
  have hhonours := SharesWithin.of_honours p.honours
  rw [Stage.node_perm, ← p.look.finalPerm_eq hlooked] at hhonours
  exact hhonours.trans hfinal

/-- While permissions are set the file has those that it had, or those that it gets. -/
theorem holdsWithin_of_adjustPerm {outcome : Except Error Unit} (hbefore : s.HoldsWithin bound m)
    (hrun : Routine.Runs fails (adjustPerm s.path created perm) m events outcome m')
    (hafter : outcome = .ok () → s.HoldsWithin bound m') :
    s.HoldsWithin bound m' ∧ ∀ e ∈ events, s.HoldsWithin bound e.after := by
  obtain ⟨hend, hevents⟩ := adjustPerm_runs hrun
  have hheld : s.HoldsWithin bound m' := by
    rcases hend with hok | rfl
    · exact hafter hok
    · exact hbefore
  refine ⟨hheld, fun e he => ?_⟩
  rw [hevents e he]
  exact hheld

/-- A renaming takes the file as it is to its place. -/
theorem keepsTo_of_rename {ready : Machine} {outcome : Except Error Unit} (hm : m.WellFormed)
    (hbegun : Begun m path options s opening made) (hready : s.HoldsWithin bound ready)
    (hrun : Routine.Runs fails (Posix.platform.rename s.path path) ready events outcome m') :
    KeepsTo s m bound events outcome m' := by
  rcases Posix.rename_runs hrun with ⟨rfl, rfl, -⟩ | ⟨reply, houtcome, rfl, rfl⟩
  · exact ⟨List.forall_mem_nil _, fun _ _ => hready⟩
  · cases reply with
    | error errno =>
      rw [houtcome.eq_of_error]
      refine ⟨fun e he => ?_, fun _ _ => hready⟩
      rw [List.mem_singleton.1 he]
      exact hready.guarded hbegun.asked
    | ok _ =>
      obtain ⟨data, perm, hat, hperm⟩ := hready
      obtain ⟨dir, name, -, hdirectory, hsame⟩ :=
        hbegun.same_of_rename hm hat (houtcome.perform_eq_ok fun _ _ h => by cases h)
      refine ⟨fun e he => ?_, fun _ h => by cases h⟩
      rw [List.mem_singleton.1 he]
      exact .of_addEntry hdirectory hsame (by rwa [Stage.node_perm])

/-- From the making of the file to the renaming it grants nothing beyond a bound that covers the
permissions it is made with and those it ends up with. -/
theorem keepsTo_of_working {outcome : Except Error Unit} (hm : m.WellFormed)
    (hquiet : reader.IsQuiet) (hbegun : Begun m path options s opening made)
    (hmade : SharesWithin (m.masked (options.defaultFileMode.getD tempPerm)) bound)
    (hfinal : SharesWithin (options.finalPerm found m.umask m.mask) bound)
    (hrun : Routine.Runs fails (do
      let created ← fill Posix.platform s.writer reader
      publish Posix.platform s.path path options created) made events outcome m')
    (hfound : ∀ e ∈ events, e.call = .stat path true → e.foundPerm? path = found) :
    KeepsTo s m bound events outcome m' := by
  have hstart : s.HoldsWithin bound made := ⟨_, _, hbegun.empty, hmade⟩
  refine .of_bind hbegun.asked hrun
    (fun _ hfill => hstart.of_runs (uses_fill_fills hquiet) hfill) ?_
  rintro filling rest checked created rfl hfill hchecked hpublish
  rw [publish_eq] at hpublish
  refine .of_bind hbegun.asked hpublish
    (fun _ hchoose => hchecked.of_runs uses_finalPerm_fills hchoose) ?_
  rintro choosing rest chosen perm rfl hchoose hchosen hrest
  refine .of_bind hbegun.asked hrest ?_ fun _ _ hready => keepsTo_of_rename hm hbegun hready
  intro adjusting ready outcome hadjusting hadjust
  refine holdsWithin_of_adjustPerm hchosen hadjust ?_
  -- Once the permissions are set, they are the final ones.
  rintro rfl
  obtain ⟨p, hsteps⟩ := exists_preparation hquiet hbegun hfill hchoose hadjust
  refine ⟨_, _, p.atEnd, p.sharesWithin hfinal fun e he => hfound e ?_⟩
  rw [hsteps] at he
  simp only [List.mem_append] at he ⊢
  exact he.imp_right (Or.imp_right fun h => hadjusting h)

/-- Where the working fails the file is removed, and it grants nothing more until then. -/
theorem guarded_of_cleaned {outcome : Except Error Unit} (hm : m.WellFormed)
    (hquiet : reader.IsQuiet) (hbegun : Begun m path options s opening made)
    (hmade : SharesWithin (m.masked (options.defaultFileMode.getD tempPerm)) bound)
    (hfinal : SharesWithin (options.finalPerm found m.umask m.mask) bound)
    (hrun : Routine.Runs fails
      (Routine.withCleanup (Posix.platform.removeFile s.path).ignoringErrors do
        let created ← fill Posix.platform s.writer reader
        publish Posix.platform s.path path options created) made events outcome m')
    (hfound : ∀ e ∈ events, e.call = .stat path true → e.foundPerm? path = found) :
    ∀ e ∈ events, m.Guarded bound e.after := by
  rcases Routine.runs_withCleanup_iff.1 hrun with
    ⟨_, rfl, hworking⟩ | ⟨_, working, cleaning, between, rfl, rfl, hworking, hcleaning⟩
  · exact (keepsTo_of_working hm hquiet hbegun hmade hfinal hworking hfound).guarded
  · obtain ⟨removal, hremoval, rfl⟩ := Posix.removeFile_runs hbegun.noNul hcleaning
    have hkeeps := keepsTo_of_working hm hquiet hbegun hmade hfinal hworking
      fun e he => hfound e (List.mem_append_left _ he)
    refine List.forall_mem_append.2 ⟨hkeeps.guarded, fun e he => ?_⟩
    rw [List.mem_singleton.1 he]
    exact guarded_of_removal hbegun (hkeeps.held _ rfl) hremoval

/-- At every moment of a run the new file grants nothing beyond such a bound. -/
theorem guarded_of_runs {outcome : Except Error Unit} (hm : m.WellFormed) (hquiet : reader.IsQuiet)
    (hmade : SharesWithin (m.masked (options.defaultFileMode.getD tempPerm)) bound)
    (hfinal : SharesWithin (options.finalPerm found m.umask m.mask) bound)
    (hrun : Routine.Runs fails (atomicFromReader Posix.platform path reader options) m events
      outcome m')
    (hfound : ∀ e ∈ events, e.call = .stat path true → e.foundPerm? path = found) :
    ∀ e ∈ events, m.Guarded bound e.after := by
  unfold atomicFromReader at hrun
  split at hrun
  · obtain ⟨rfl, -, -⟩ := Routine.runs_fail_iff.1 hrun
    intro e he
    cases he
  rcases Routine.runs_bind_iff.1 hrun with
    ⟨e, rfl, hmake⟩ | ⟨opening, rest, made, temp, rfl, hmake, hrest⟩
  · rcases createNamed_runs hmake with ⟨-, -, hevents⟩ | ⟨_, _, _, _, h, -⟩
    · exact fun e he => .of_tree_eq (hevents e he).2
    · cases h
  obtain ⟨s, rfl, hbegun⟩ := begun_of_createNamed hmake
  have hopening : ∀ e ∈ opening, m.Guarded bound e.after := by
    intro e he
    rcases (hbegun.opens e he).2 with htree | hlast
    · exact .of_tree_eq htree
    · rw [hlast]
      exact hbegun.empty.guarded hbegun.asked hmade
  refine List.forall_mem_append.2 ⟨hopening, ?_⟩
  have hrestFound : ∀ e ∈ rest, e.call = .stat path true → e.foundPerm? path = found :=
    fun e he => hfound e (List.mem_append_right _ he)
  rcases Routine.runs_bind_iff.1 hrest with
    ⟨e, rfl, hcleaned⟩ | ⟨working, last, after, _, rfl, hcleaned, hlast⟩
  · exact guarded_of_cleaned hm hquiet hbegun hmade hfinal hcleaned hrestFound
  · obtain ⟨rfl, rfl, rfl⟩ := Routine.runs_pure_iff.1 hlast
    rw [List.append_nil] at hrestFound ⊢
    exact guarded_of_cleaned hm hquiet hbegun hmade hfinal hcleaned hrestFound

end Writing

/-! ## Atomic writes -/

/-- Whether the permissions given for new files are the ones that a file ends up with: none are
given for every file, none are kept, and the mask that the process knows of is the one that it
has. -/
def Options.DefaultDecides (o : Options) (found : Option UInt32) (m : Machine) : Prop :=
  o.fileMode = none ∧ (o.keepFileMode = true → found = none) ∧ m.umask = m.mask

/-- Where the permissions given for new files decide, a file is made with those it ends up with;
where none are given, it is made for its owner alone. -/
theorem sharesWithin_finalPerm {o : Options} {found : Option UInt32}
    (h : o.defaultFileMode = none ∨ o.DefaultDecides found m) :
    SharesWithin (m.masked (o.defaultFileMode.getD Writing.tempPerm))
      (o.finalPerm found m.umask m.mask) := by
  cases hdefault : o.defaultFileMode with
  | none =>
    have hprivate : Writing.tempPerm &&& permMask &&& 0o077 = 0 := by decide
    apply SharesWithin.of_private
    rw [Option.getD_none, Machine.masked, UInt32.and_assoc, UInt32.and_comm (m.mask ^^^ _),
      ← UInt32.and_assoc, hprivate, UInt32.zero_and]
  | some mode =>
    rw [hdefault] at h
    obtain ⟨hmode, hkept, hmask⟩ := h.resolve_left fun h => by cases h
    have hnone : (if o.keepFileMode then found else none) = none := by
      by_cases hkeep : o.keepFileMode = true
      · rw [if_pos hkeep, hkept hkeep]
      · rw [if_neg hkeep]
    have hfinal : o.finalPerm found m.umask m.mask = m.masked mode := by
      rw [Options.finalPerm, hmode, hnone, hdefault, hmask]
      simp only [Option.or_none, Option.none_or, Option.map_some, Option.getD_some, Machine.masked]
      rw [UInt32.and_assoc, UInt32.and_comm _ permMask, ← UInt32.and_assoc]
    rw [hfinal]
    exact .refl _

namespace AtomicWrite

/-- At every moment of a run, whatever fails, the files that are new grant the group and others
nothing beyond the final permissions and the permissions that the new file is made with: those
given for new files, or for its owner alone, less the mask.  They grant nothing beyond the final
permissions alone if no permissions are given for new files, or if these decide. -/
theorem exposure {w : AtomicWrite} {outcome : Except Error Unit} {found : Option UInt32}
    (hm : m.WellFormed) (hquiet : w.reader.IsQuiet)
    (hrun : Routine.Runs fails w.routine m events outcome m')
    (hfound : ∀ e ∈ events, e.call = .stat w.path true → e.foundPerm? w.path = found) :
    ∀ e ∈ events, ∀ id node, m.tree.inode? id = none → e.after.tree.inode? id = some node →
      SharesWithin node.perm (w.effective.finalPerm found m.umask m.mask
          ||| m.masked (w.effective.defaultFileMode.getD Writing.tempPerm))
        ∧ ((w.effective.defaultFileMode = none ∨ w.effective.DefaultDecides found m) →
          SharesWithin node.perm (w.effective.finalPerm found m.umask m.mask)) := by
  rw [routine_eq] at hrun
  intro e he id node hnew hnode
  refine ⟨?_, fun hdecides => ?_⟩
  · refine Writing.guarded_of_runs hm hquiet ?_ (.or_left _ _) hrun hfound e he id node hnew hnode
    rw [UInt32.or_comm]
    exact .or_left _ _
  · exact Writing.guarded_of_runs hm hquiet (sharesWithin_finalPerm hdecides) (.refl _) hrun hfound
      e he id node hnew hnode

/-- The small system with a file that only its owner may read. -/
def withSecret : Machine := (Machine.small fun _ => 7).create 9 [97] (.file [111, 108, 100]) 0o600

/-- A write that keeps permissions, over that file. -/
def overSecret : AtomicWrite :=
  .ofBytes ⟨[97]⟩ [110, 101, 119] { Options.plain with keepFileMode := true } none

/-- While the file is replaced, nobody but its owner may read what is new. -/
theorem exposure_overSecret :
    (∃ e ∈ overSecret.routine.outcome.trace withSecret,
        e.after.tree.content? withSecret.tree.nextId = some (.file [110, 101, 119]))
      ∧ ∀ e ∈ overSecret.routine.outcome.trace withSecret, ∀ id node,
        withSecret.tree.inode? id = none → e.after.tree.inode? id = some node →
          SharesWithin node.perm 0o600 := by
  have hm : withSecret.WellFormed :=
    ⟨Tree.wellFormed_of_isWellFormed (by decide +kernel), by decide +kernel⟩
  have hruns := Program.runs_run (fun _ _ => False) overSecret.routine.outcome withSecret
  have hlooks : (overSecret.routine.outcome.trace withSecret).all (fun e =>
      decide (e.call = .stat overSecret.path true → e.foundPerm? overSecret.path = some 0o600))
      = true := by decide +kernel
  have hfound : ∀ e ∈ overSecret.routine.outcome.trace withSecret,
      e.call = .stat overSecret.path true → e.foundPerm? overSecret.path = some 0o600 :=
    fun e he => of_decide_eq_true (List.all_eq_true.1 hlooks e he)
  have hfinal : overSecret.effective.finalPerm (some 0o600) withSecret.umask withSecret.mask
      = 0o600 := by decide +kernel
  have hwritten : (overSecret.routine.outcome.trace withSecret).any (fun e => decide
      (e.after.tree.content? withSecret.tree.nextId = some (.file [110, 101, 119]))) = true := by
    decide +kernel
  obtain ⟨e, he, hcontent⟩ := List.any_eq_true.1 hwritten
  refine ⟨⟨e, he, of_decide_eq_true hcontent⟩, fun e he id node hnew hnode => ?_⟩
  rw [← hfinal]
  exact (exposure hm (isQuiet_ofBytes _ _ _ _) hruns hfound e he id node hnew hnode).2 (.inl rfl)

/-- The same write as a general one, with permissions for a missing file. -/
def overSecretShared : AtomicWrite := { overSecret with mode := some 0o644 }

/-- The condition cannot be left out: with permissions given for new files, all of the new content
is open to the group and to others before the file has the permissions that it ends up with. -/
theorem exposure_overSecretShared :
    ∃ e ∈ overSecretShared.routine.outcome.trace withSecret, ∃ node,
      withSecret.tree.inode? withSecret.tree.nextId = none
        ∧ e.after.tree.inode? withSecret.tree.nextId = some node
        ∧ node.content = .file [110, 101, 119] ∧ node.perm = 0o644
        ∧ overSecretShared.effective.finalPerm
            (Event.foundPerm overSecretShared.path
              (overSecretShared.routine.outcome.trace withSecret))
            withSecret.umask withSecret.mask = 0o600
        ∧ ¬ SharesWithin node.perm 0o600 := by
  have hexposed : (overSecretShared.routine.outcome.trace withSecret).any (fun e =>
      (e.after.tree.inode? withSecret.tree.nextId).any fun node =>
        decide (node.content = .file [110, 101, 119] ∧ node.perm = 0o644)) = true := by
    decide +kernel
  obtain ⟨e, he, hnode⟩ := List.any_eq_true.1 hexposed
  obtain ⟨node, hnode, hshared⟩ := (Option.any_eq_true _ _).1 hnode
  obtain ⟨hcontent, hperm⟩ := of_decide_eq_true hshared
  refine ⟨e, he, node, Tree.inode?_nextId _, hnode, hcontent, hperm, by decide +kernel, ?_⟩
  rw [hperm]
  decide

end AtomicWrite

end PortableFiles
