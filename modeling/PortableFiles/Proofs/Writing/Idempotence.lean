import PortableFiles.Proofs.Kernel.Overwriting
import PortableFiles.Proofs.Kernel.Upkeep
import PortableFiles.Proofs.Writing.AtomicSuccess
import PortableFiles.Proofs.Writing.Result
set_option autoImplicit false

/-!
# Atomic writes that are made twice

After an atomic write that succeeded the destination is a regular file, and a second write like the
first succeeds as well where it finds a free name for its own file.  It leaves the same permissions,
be they kept, given by the options, or those with which a file is made
(`Writing.Looked.settledPerm_eq`).  So nothing is different afterwards but the number of the inode
(`AtomicWrite.idempotent`).
-/

namespace PortableFiles

/-! ## Permissions that are kept -/

namespace Machine

variable {m : Machine} {dir : InodeId} {node : Inode} {options : Options} {data : Bytes}
  {perm : UInt32} {kept : Option UInt32}

theorem and_permMask_of_granted : m.granted node perm &&& permMask = m.granted node perm := by
  have hbits : permMask &&& 0o5777 &&& permMask = permMask &&& 0o5777 := by decide
  unfold granted
  split
  · rw [UInt32.and_assoc, UInt32.and_self]
  · rw [UInt32.and_assoc perm, UInt32.and_assoc perm, hbits]

/-- Permissions that were granted are granted again. -/
theorem granted_granted : m.granted node (m.granted node perm) = m.granted node perm := by
  have hbits : permMask &&& 0o5777 &&& (permMask &&& 0o5777) = permMask &&& 0o5777 :=
    UInt32.and_self
  unfold granted
  by_cases h : (m.who.privileged || m.who.gid = node.gid) = true
  · rw [if_pos h, if_pos h, UInt32.and_assoc, UInt32.and_self]
  · rw [if_neg h, if_neg h, UInt32.and_assoc, UInt32.and_assoc perm, UInt32.and_assoc perm, hbits]

theorem and_permMask_of_adjusted (hnode : node.perm &&& permMask = node.perm) :
    m.adjusted node perm &&& permMask = m.adjusted node perm := by
  unfold adjusted
  split
  · rename_i hsame
    rw [hsame, hnode]
  · exact and_permMask_of_granted

theorem adjusted_adjusted : m.adjusted node (m.adjusted node perm) = m.adjusted node perm := by
  by_cases hsame : perm = node.perm
  · have hkept : m.adjusted node perm = perm := if_pos hsame
    rw [hkept, hkept]
  · have hgranted : m.adjusted node perm = m.granted node perm := if_neg hsame
    rw [hgranted, adjusted, granted_granted, ite_self]

/-- Where permissions are kept, those that were left are left again. -/
theorem settledPerm_of_kept (hmode : options.fileMode = none) :
    m.settledPerm dir options (some (m.settledPerm dir options kept data &&& permMask)) data
      = m.settledPerm dir options kept data := by
  have hwritten := (Trimmed.permAfter m data (m.masked (options.defaultFileMode.getD
    Writing.tempPerm))).and_permMask (m.masked_and_permMask _)
  have hchosen : ∀ perm created : UInt32,
      options.chosenPerm (some perm) m.umask created = perm := fun perm created => by
    rw [Options.chosenPerm, hmode]
    rfl
  unfold settledPerm
  simp only [hchosen]
  rw [and_permMask_of_adjusted, adjusted_adjusted]
  rwa [newInode_file_perm]

/-- Where the options have permissions for every file, these count. -/
theorem settledPerm_of_fileMode (hmode : options.fileMode.isSome = true)
    (kept' : Option UInt32) :
    m.settledPerm dir options kept' data = m.settledPerm dir options kept data := by
  obtain ⟨mode, hmode⟩ := Option.isSome_iff_exists.1 hmode
  unfold settledPerm Options.chosenPerm
  rw [hmode]
  rfl

end Machine

namespace Writing

variable {fails : Call → Errno → Prop} {m m' now now' : Machine} {path : Path} {options : Options}
  {data : Bytes} {dir : InodeId} {name : Name} {kept kept' : Option UInt32}
  {events looked looked' : List Event}

/-- The second of two looks finds the permissions that came of the first, and the same come of
it. -/
theorem Looked.settledPerm_eq (h : Looked fails path options now looked kept)
    (h' : Looked (fun _ _ => False) path options now' looked' kept')
    (hstat : ∃ stat, now'.stat path true = .ok (stat, now')
      ∧ stat.perm = m.settledPerm dir options kept data) :
    m.settledPerm dir options kept' data = m.settledPerm dir options kept data := by
  cases h' with
  | spared hspared =>
    rcases hspared with hmode | hkeep
    · exact Machine.settledPerm_of_fileMode hmode _
    · cases h with
      | spared _ | missing _ _ => rfl
      | found hkeep' _ =>
        rw [hkeep'.2] at hkeep
        cases hkeep
  | found hkeep hfound =>
    obtain ⟨stat, hstat, hperm⟩ := hstat
    rw [hfound] at hstat
    cases hstat
    rw [hperm, Machine.settledPerm_of_kept hkeep.1]
  | missing _ houtcome =>
    obtain ⟨stat, hstat, -⟩ := hstat
    have hnone : now'.stat path true = .error .noEntry := houtcome.perform_eq_error fun h => h
    rw [hstat] at hnone
    cases hnone

/-! ## What a write has done -/

/-- Whether a new file is made in a directory, beside a path and under the first drawn name for
which opening does not say that it is taken. -/
def MakesFirst (fails : Call → Errno → Prop) (m : Machine) (path : Path) (dir : InodeId) : Prop :=
  ∃ k < tempAttempts,
    m.Room (path.parentDir.join (m.tempName (m.drawn + k))) dir (m.tempName (m.drawn + k))
      ∧ ∀ j < k, ∃ asked perm, m.Asked asked
        ∧ (Call.openFile (path.parentDir.join (m.tempName (m.drawn + j))) .making perm).Outcome
            fails asked (.error .entryExists) asked

/-- What an atomic write that succeeded has done: the name to which the path led leads to a new
file, whose permissions are settled by those that were kept. -/
structure Published (fails : Call → Errno → Prop) (path : Path) (data : Bytes) (options : Options)
    (m m' : Machine) (dir : InodeId) (name : Name) (kept : Option UInt32) : Prop where
  located : m.locate (fun _ => false) path = .ok (.entry dir name false)
  mayOpen : m.mayOpen = true
  noNul : path.hasNul = false
  first : MakesFirst fails m path dir
  /-- The destination was looked at while the file was prepared. -/
  look : ∃ (s : Stage) (now : Machine) (perm : UInt32) (looked : List Event), m.Asked s.start
    ∧ s.dir = dir ∧ s.At data perm now ∧ Looked fails path options now looked kept
  process : m.process.Agrees m'.process
  tree : m'.tree.Same (m.tree.addEntry dir name
    (m.newInode dir (.file data) (m.settledPerm dir options kept data)))

/-- What can be written to can be asked for. -/
theorem hasNul_of_ok {reader : Reader}
    (hrun : Routine.Runs fails (atomicFromReader Posix.platform path reader options) m events
      (.ok ()) m') : path.hasNul = false := by
  unfold atomicFromReader at hrun
  split at hrun
  · obtain ⟨-, h, -⟩ := Routine.runs_fail_iff.1 hrun
    cases h
  obtain ⟨opening, rest, made, temp, -, -, hrest⟩ := hrun.bind_ok
  obtain ⟨working, last, after, _, -, hcleaned, -⟩ := hrest.bind_ok
  rcases Routine.runs_withCleanup_iff.1 hcleaned with ⟨_, h, hworking⟩ | ⟨_, _, _, _, h, -⟩
  · cases h
    obtain ⟨filling, rest, checked, created, -, -, hpublish⟩ := hworking.bind_ok
    rw [publish_eq] at hpublish
    obtain ⟨choosing, rest, chosen, perm, -, -, hset⟩ := hpublish.bind_ok
    obtain ⟨adjusting, last, ready, _, -, -, hrename⟩ := hset.bind_ok
    obtain ⟨first, rest, between, _, -, -, hnul⟩ := hrename.bind_ok
    obtain ⟨first, rest, between, _, -, hnul, -⟩ := hnul.bind_ok
    exact hnul.checkNul_ok.1
  · cases h

/-- The new file was made where there was room, under the first drawn name that was free. -/
theorem Begun.makesFirst {s : Stage} {opening : List Event} {made : Machine}
    (h : Begun m path options s opening made)
    (hopening : ∀ e ∈ opening, e.call.Outcome fails e.before e.reply e.after) :
    MakesFirst fails m path s.dir := by
  obtain ⟨k, hk, hpath, htaken⟩ := h.first
  have hroom : m.Room s.path s.dir s.name :=
    Machine.Room.of_asked ⟨s.located, s.vacant, s.allowed⟩ h.asked.symm
  rw [hpath, Stage.name_eq_tempName hpath] at hroom
  refine ⟨k, hk, hroom, fun j hj => ?_⟩
  obtain ⟨asked, hasked, hmem⟩ := htaken j hj
  exact ⟨asked, _, hasked, hopening _ hmem⟩

/-- An atomic write that succeeds puts a new file into the place of the destination. -/
theorem published_of_runs {reader : Reader} (hm : m.WellFormed) (hquiet : reader.IsQuiet)
    (hrun : Routine.Runs fails (atomicFromReader Posix.platform path reader options) m events
      (.ok ()) m') :
    ∃ dir name kept, Published fails path reader.delivered options m m' dir name kept := by
  have hnul := hasNul_of_ok hrun
  have houtcomes : ∀ e ∈ events, e.call.Outcome fails e.before e.reply e.after :=
    fun e he => hrun.outcome_of_mem he
  cases course_of_runs hquiet hrun with
  | @published s opening made ready _ hbegun p hworking hrename =>
    obtain ⟨dir, name, hplace, -, hsame⟩ := hbegun.same_of_rename hm p.atEnd hrename
    obtain rfl : s.dir = dir := hbegun.dir_eq hplace
    obtain ⟨perm, hat⟩ := p.atLook
    have hprocess : m'.process = ready.process :=
      Call.process_perform (c := .rename s.path path) hrename
    have hnode : s.node reader.delivered p.perm = m.newInode s.dir (.file reader.delivered)
        (m.settledPerm s.dir options p.kept reader.delivered) := by
      rw [← p.settled, Stage.node, Machine.newInode_congr hbegun.asked.who]
      rw [hbegun.asked.tree]
      exact Inode.exists_eq_map_mapEntries _
    rw [hnode] at hsame
    have hfirst := hbegun.makesFirst fun e he => houtcomes e (List.mem_append_left _ he)
    exact ⟨s.dir, name, p.kept, hplace, hbegun.mayOpen, hnul, hfirst,
      ⟨s, p.checked, perm, p.looked, hbegun.asked, rfl, hat, p.look⟩,
      p.process.trans (.of_eq hprocess), hsame⟩

end Writing

/-! ## Over a file -/

namespace Machine.Occupied

variable {m m' : Machine} {path : Path} {dir id : InodeId} {name : Name} {node : Inode}

theorem of_asked (h : m.Occupied path dir name id node) (hasked : m.Asked m') :
    m'.Occupied path dir name id node where
  located := (hasked.locate _ _).trans h.located
  entry := by rw [hasked.tree, h.entry]
  inode := by rw [hasked.tree, h.inode]
  regular := h.regular

/-- A file that is prepared beside another one can be moved over it. -/
theorem publishes (h : m.Occupied path dir name id node) {s : Stage} (hasked : m.Asked s.start)
    (hdir : s.dir = dir) : s.Publishes path := by
  have hstart := h.of_asked hasked
  rw [← hdir] at hstart
  constructor
  · rintro now ⟨data, perm, hat⟩
    obtain ⟨stat, hstat, -⟩ := (hat.occupied hstart).stat_eq true
    exact Or.inl ⟨stat, hstat⟩
  · rintro now ⟨data, perm, hat⟩
    exact hat.rename_occupied hstart

end Machine.Occupied

/-- Whether a tree is another one in which a name leads to a new inode that is as the one to which
the name led.  All else is as it was. -/
def Tree.Renumbered (t : Tree) (dir : InodeId) (name : Name) (t' : Tree) : Prop :=
  ∃ id node, t.held dir name = some (id, some node) ∧ t.Replaced dir name node t'

/-! ## The second write -/

namespace Writing.Published

variable {fails : Call → Errno → Prop} {m m' : Machine} {path : Path} {options : Options}
  {data : Bytes} {dir : InodeId} {name : Name} {kept : Option UInt32} {draws : Nat → UInt32}

section After

variable (h : Published fails path data options m m' dir name kept)
  (happroach : m.ReachedApart path)

include h

/-- The directory of the destination has other entries at most. -/
theorem inode?_dir :
    ∃ f, m'.tree.inode? dir = (m.tree.inode? dir).map (Inode.mapEntries f) := by
  have hdirectory := Machine.isDirectory_of_locate h.located
  rw [h.tree.inode?]
  exact Tree.inode?_addEntry_eq_map name _ hdirectory (Tree.ne_nextId_of_isDirectory hdirectory)

/-- The directory holds the names that were tried before the one that was free. -/
theorem taken (hfails : ∀ path how perm errno, ¬ fails (.openFile path how perm) errno) :
    ∃ k < tempAttempts,
      m.Room (path.parentDir.join (m.tempName (m.drawn + k))) dir (m.tempName (m.drawn + k))
        ∧ ∀ j < k, (path.parentDir.join (m.tempName (m.drawn + j))).bytes.length < Tree.maxPath
          ∧ ∃ id, m.tree.child? dir (m.tempName (m.drawn + j)) = some id := by
  obtain ⟨k, hk, hroom, htried⟩ := h.first
  refine ⟨k, hk, hroom, fun j hj => ?_⟩
  obtain ⟨asked, perm, hasked, houtcome⟩ := htried j hj
  have hexists : asked.openFile (path.parentDir.join (m.tempName (m.drawn + j))) .making perm
      = .error .entryExists := houtcome.perform_eq_error (hfails _ _ _ _)
  exact Machine.child?_of_taken h.located (hasked.taken (Machine.taken_of_openFile hexists))

include happroach

/-- The destination is the new file. -/
theorem occupied : (m'.drawing draws).Occupied path dir name m.tree.nextId
    (m.newInode dir (.file data) (m.settledPerm dir options kept data)) :=
  happroach.occupied h.located h.tree rfl h.process.cwd h.process.who

/-- Where the second write draws the names that the first one drew, it finds the one that was
free. -/
theorem findsName (hfails : ∀ path how perm errno, ¬ fails (.openFile path how perm) errno)
    (hdraws : m.NeverDraws (fun _ => false) path)
    (hsame : ∀ k, draws (m'.drawn + k) = m.draws (m.drawn + k)) :
    (m'.drawing draws).FindsName path.parentDir tempAttempts := by
  obtain ⟨k, hk, hroom, hheld⟩ := h.taken hfails
  have hname : ∀ j, (m'.drawing draws).tempName ((m'.drawing draws).drawn + j)
      = m.tempName (m.drawn + j) := fun j =>
    congrArg (fun word : UInt32 => Bytes.ofString (Text.Numeral.decimalString word.toNat)) (hsame j)
  have hother : m.tempName (m.drawn + k) ≠ name := by
    intro hdrawn
    have hfree := hroom.vacant.child?
    rw [hdrawn] at hfree
    exact hdraws _ dir name false h.located hfree hdrawn
  refine Machine.findsName_of_child? (h.occupied happroach).located hk ?_ ?_ ?_
  · intro j hj
    rw [hname]
    rcases Nat.lt_or_eq_of_le hj with hj | rfl
    · exact (hheld j hj).1
    · exact (Machine.bounds_of_locate hroom.located).2
  · rw [hname]
    exact happroach.vacant h.located h.tree rfl hroom.vacant hother
  · intro j hj
    rw [hname]
    obtain ⟨-, id, hid⟩ := hheld j hj
    change ∃ id, m'.tree.child? dir _ = some id
    rw [h.tree.child?, Tree.child?_addEntry (Machine.isDirectory_of_locate h.located) rfl]
    split
    · exact ⟨_, rfl⟩
    · exact ⟨id, hid⟩

end After

/-- A second write like the first leaves everything as the first one left it, but the number of the
inode at the destination. -/
theorem again {reader : Reader}
    (h : Published fails path reader.delivered options m m' dir name kept)
    (happroach : m.ReachedApart path) (hm' : m'.WellFormed) (hquiet : reader.IsQuiet)
    (hends : reader.Ends) (hfinds : (m'.drawing draws).FindsName path.parentDir tempAttempts) :
    ∃ m'', (atomicFromReader Posix.platform path reader options).run (m'.drawing draws)
        = (.ok (), m'') ∧ m'.tree.Renumbered dir name m''.tree := by
  have ho : (m'.drawing draws).Occupied path dir name _ _ := h.occupied happroach
  have hallowed : (m'.drawing draws).mayChangeEntries dir = .ok () := by
    obtain ⟨k, -, hroom, -⟩ := h.first
    exact happroach.mayChangeEntries h.located h.tree rfl h.process.who hroom.allowed
  have hopen : (m'.drawing draws).mayOpen = true := h.process.mayOpen.trans h.mayOpen
  obtain ⟨_, m'', hrun, -⟩ := yields_atomic ho.located hallowed hopen h.noNul hfinds
    (fun s hasked hdir _ => ho.publishes hasked hdir) hquiet hends options (m'.drawing draws) rfl
  have hruns := Routine.runs_run (fun _ _ => False)
    (atomicFromReader Posix.platform path reader options) (m'.drawing draws)
  rw [hrun] at hruns
  have hwell : (m'.drawing draws).WellFormed := ⟨hm'.tree, hm'.cwd⟩
  obtain ⟨dir', name', kept', hagain⟩ := published_of_runs hwell hquiet hruns
  obtain ⟨rfl, rfl⟩ : dir' = dir ∧ name' = name := by
    have hplace := hagain.located
    rw [ho.located] at hplace
    cases hplace
    exact ⟨rfl, rfl⟩
  obtain ⟨s, now, perm, looked, hasked, -, hat, hlooked⟩ := h.look
  obtain ⟨s', now', perm', looked', hasked', -, hat', hlooked'⟩ := hagain.look
  -- The second look finds the permissions that the first write has left.
  have hperm : m.settledPerm dir' options kept' reader.delivered
      = m.settledPerm dir' options kept reader.delivered := by
    refine hlooked.settledPerm_eq hlooked' ?_
    obtain ⟨stat, hstat, hshown⟩ := (hat'.occupied (ho.of_asked hasked')).stat_eq true
    exact ⟨stat, hstat, hshown.trans (m.newInode_file_perm _ _ _)⟩
  have hnew : (m'.drawing draws).newInode dir' = m.newInode dir' :=
    Machine.newInode_congr h.process.who h.inode?_dir
  have hsettled : (m'.drawing draws).settledPerm dir' = m.settledPerm dir' :=
    Machine.settledPerm_congr h.process.who h.process.mask h.process.umask h.inode?_dir
  have htree := hagain.tree
  rw [hnew, hsettled, hperm] at htree
  have hdirectory := Machine.isDirectory_of_locate h.located
  have hheld := (Tree.Replaced.of_addEntry hdirectory rfl h.tree).held
  exact ⟨m'', hrun, _, _, hheld, .of_addEntry (Machine.isDirectory_of_locate ho.located) rfl htree⟩

end Writing.Published

namespace AtomicWrite

variable {fails : Call → Errno → Prop} {m m₁ : Machine} {events : List Event} {path : Path}
  {data : Bytes} {options : Options} {mode : Option UInt32}

/-- An atomic write that succeeded succeeds again where it finds a free name for its new file, and
then nothing is different but the number of the inode at the destination.  It finds one if it draws
the names that the first write drew and the name of the destination is none of them. -/
theorem idempotent (hm : m.WellFormed) (happroach : m.ReachedApart path)
    (hrun : Routine.Runs fails (ofBytes path data options mode).routine m events (.ok ()) m₁) :
    (∀ draws, (m₁.drawing draws).FindsName path.parentDir tempAttempts →
        ∃ m₂ dir name,
          (ofBytes path data options mode).routine.run (m₁.drawing draws) = (.ok (), m₂)
            ∧ m₁.locate (fun _ => false) path = .ok (.entry dir name false)
            ∧ m₁.tree.Renumbered dir name m₂.tree)
      ∧ ((∀ path how perm errno, ¬ fails (.openFile path how perm) errno) →
        m.NeverDraws (fun _ => false) path →
        ∀ draws, (∀ k, draws (m₁.drawn + k) = m.draws (m.drawn + k)) →
          (m₁.drawing draws).FindsName path.parentDir tempAttempts) := by
  have hm₁ : m₁.WellFormed := (Program.Runs.wellFormed hrun hm).1
  have hquiet := isQuiet_ofBytes path data options mode
  rw [routine_eq] at hrun ⊢
  obtain ⟨dir, name, kept, hpublished⟩ := Writing.published_of_runs hm hquiet hrun
  refine ⟨fun draws hfinds => ?_, fun hfails hdraws draws hsame => ?_⟩
  · obtain ⟨m₂, hagain, hrenumbered⟩ :=
      hpublished.again happroach hm₁ hquiet (Or.inr trivial) hfinds
    exact ⟨m₂, dir, name, hagain, (hpublished.occupied happroach).located, hrenumbered⟩
  · exact hpublished.findsName happroach hfails hdraws hsame

/-- The stocked system with a link to its file. -/
def linked : Machine := stocked.create 9 [98] (.symlink [97]) 0o777

/-- A write over the link that keeps the permissions of the file. -/
def overLink : AtomicWrite :=
  ofBytes ⟨[98]⟩ [110, 101, 119] { Options.plain with keepFileMode := true } none

/-- The first write over the link puts a file in its place, and the second one leaves it so. -/
theorem idempotent_overLink : ∃ m₁ m₂ dir name, overLink.routine.run linked = (.ok (), m₁)
    ∧ overLink.routine.run (m₁.drawing linked.draws) = (.ok (), m₂)
    ∧ m₁.tree.Renumbered dir name m₂.tree := by
  have hplace : linked.locate (fun _ => false) ⟨[98]⟩ = .ok (.entry 9 [98] false) := rfl
  have hm : linked.WellFormed :=
    ⟨Tree.wellFormed_of_isWellFormed (by decide +kernel), by decide +kernel⟩
  have happroach : linked.ReachedApart ⟨[98]⟩ := by
    intro dir name h
    rw [hplace] at h
    cases h
    exact ⟨rfl, fun _ => by decide +kernel⟩
  have hdraws : linked.NeverDraws (fun _ => false) ⟨[98]⟩ := by
    intro k dir name slash h hfree
    rw [hplace] at h
    cases h
    exact absurd hfree (by decide +kernel)
  have hok : (overLink.routine.run linked).1 = .ok () := eq_ok_of_isOk (by decide +kernel)
  have hrun := Routine.runs_run (fun _ _ => False) overLink.routine linked
  rw [hok] at hrun
  obtain ⟨hagain, hfinds⟩ := idempotent hm happroach hrun
  obtain ⟨m₂, dir, name, hsecond, -, hrenumbered⟩ :=
    hagain linked.draws (hfinds (fun _ _ _ _ h => h) hdraws _ fun _ => rfl)
  exact ⟨_, m₂, dir, name, Prod.ext hok rfl, hsecond, hrenumbered⟩

end AtomicWrite

end PortableFiles
