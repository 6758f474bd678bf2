import PortableFiles.Proofs.Kernel.Changes
import PortableFiles.Proofs.Kernel.Disturbances
import PortableFiles.Proofs.Writing.InPlaceCourse
set_option autoImplicit false

/-!
# Copies that lose nothing

A regular file is open where its next write goes to its end (`Machine.AppendsTo`), as a file that
was opened for writing is (`Posix.appendsTo_of_openWriter`).  A write to such a file succeeds, puts
its bytes after those of the file and leaves the file open at its end, so that the same can be said
of the next one.  A copying is many writes: each chunk of the reader goes through the buffer in
parts, the system may take each part piece by piece, and signals may interrupt each write before it
takes anything.  As long as every write that gets through takes something, the file holds in the end
what it held before and then all that the reader has delivered, and nothing else is different
(`Reader.copyAmid_extended`, and `Reader.copyAmid_opened` for a file that was just opened).
-/

namespace PortableFiles

/-- A leaf is changed, and no name leads elsewhere. -/
theorem Tree.Rewritten.of_updateInode {t : Tree} {id : InodeId} {node : Inode}
    {f : Inode → Inode} (hnode : t.inode? id = some node) (hleaf : node.content.isLeaf = true)
    (hleaf' : (f node).content.isLeaf = true) (hvolume : (f node).volume = node.volume) :
    t.Rewritten id (f node) (t.updateInode id f) where
  root := rfl
  inode := by rw [inode?_updateInode, if_pos rfl, hnode, Option.map_some]
  entries d n := by rw [(SameWays.updateInode hnode hleaf hleaf' hvolume).child?]
  inodes i hi := by rw [inode?_updateInode, if_neg hi]

namespace Machine

variable {m m' : Machine} {file : Descriptor} {id : InodeId} {node : Inode} {old more more' : Bytes}

/-- A regular file after some bytes are written to its end.  Of its permissions, writing takes
away the bits that lend rights. -/
def appended (m : Machine) (node : Inode) (old more : Bytes) : Inode :=
  { node with content := .file (old ++ more), perm := m.permAfter more node.perm }

/-- Whether a regular file is open for writing and the next write to it goes to its end. -/
structure AppendsTo (m : Machine) (file : Descriptor) (id : InodeId) (node : Inode)
    (old : Bytes) : Prop where
  opened : ∃ f, m.file? file = some f ∧ f.inode = id ∧ f.writable = true ∧ f.direct = false
    ∧ f.writesAt old = old.length
  held : m.tree.inode? id = some node
  content : node.content = .file old

/-- What has happened when bytes were put at the end of a regular file. -/
structure Extended (m : Machine) (file : Descriptor) (id : InodeId) (node : Inode)
    (old more : Bytes) (m' : Machine) : Prop where
  appends : m'.AppendsTo file id (m.appended node old more) (old ++ more)
  rewritten : m.tree.Rewritten id (m.appended node old more) m'.tree
  process : m'.process = m.process

/-- Bytes that are written one after the other are written together. -/
theorem appended_append (node : Inode) (old more more' : Bytes) (hwho : m'.who = m.who) :
    m'.appended (m.appended node old more) (old ++ more) more'
      = m.appended node old (more ++ more') := by
  have hperm : m'.permAfter more' (m.permAfter more node.perm)
      = m.permAfter (more ++ more') node.perm := by
    rw [permAfter, hwho, ← permAfter, permAfter_append]
  simp only [appended, hperm, List.append_assoc]

/-- Where nothing is put, nothing has happened. -/
theorem Extended.nil (h : m.AppendsTo file id node old) : m.Extended file id node old [] m := by
  have hsame : m.appended node old [] = node := by
    rw [appended, List.append_nil, permAfter_nil, ← h.content]
  refine ⟨?_, ?_, rfl⟩
  · rw [hsame, List.append_nil]
    exact h
  · rw [hsame]
    exact .refl h.held

namespace AppendsTo

/-- A write to such a file succeeds. -/
theorem exists_write (h : m.AppendsTo file id node old) (more : Bytes) :
    ∃ m', m.write file more = .ok (more.length, m') := by
  obtain ⟨f, hfile, hinode, hwritable, hdirect, -⟩ := h.opened
  have hcontent : m.tree.content? f.inode = some (.file old) := by
    rw [hinode, Tree.content?, h.held, Option.map_some, h.content]
  unfold write
  simp only [hfile, hwritable, hcontent, hdirect, Bool.not_true, Bool.false_eq_true, if_false]
  split
  · rename_i hmore
    exact ⟨m, by rw [hmore, List.length_nil]⟩
  · exact ⟨_, rfl⟩

/-- The bytes that are written come after those of the file. -/
theorem write (h : m.AppendsTo file id node old) {count : Nat}
    (hwrite : m.write file more = .ok (count, m')) :
    count = more.length ∧ m.Extended file id node old more m' := by
  have hprocess : m'.process = m.process :=
    Call.process_perform (c := .write file more) hwrite
  obtain ⟨f, hfile, hinode, hwritable, hdirect, hend⟩ := h.opened
  have hcontent : m.tree.content? id = some (.file old) := by
    rw [Tree.content?, h.held, Option.map_some, h.content]
  obtain ⟨hcount, f', hfile', hcases⟩ := write_cases hwrite
  obtain rfl := Option.some.inj (hfile.symm.trans hfile')
  rw [hinode, hcontent] at hcases
  refine ⟨hcount, ?_⟩
  rcases hcases with ⟨rfl, hnothing⟩ | ⟨bytes, hmore, hbytes, htree, hfiles⟩
  · obtain rfl : more = [] := hnothing.resolve_right fun hnone => hnone old rfl
    exact .nil h
  · obtain rfl : old = bytes := Content.file.inj (Option.some.inj hbytes)
    rw [hend, splice_length] at htree
    have hchanged : m.changed (.file (old ++ more)) node = m.appended node old more := by
      simp [changed, appended, permAfter, hmore]
    have hrewritten : m.tree.Rewritten id (m.appended node old more) m'.tree := by
      rw [htree, ← hchanged]
      exact .of_updateInode h.held (by rw [h.content]; rfl) rfl rfl
    rw [hend] at hfiles
    exact ⟨⟨⟨_, file?_of_insert hfile hfiles, rfl, hwritable, hdirect,
      f.writesAt_written old more⟩, hrewritten.inode, rfl⟩, hrewritten, hprocess⟩

theorem answer (h : m.AppendsTo file id node old) (q : Query) :
    (q.answer m).2.AppendsTo file id node old where
  opened := by
    rw [file?, q.files_answer]
    exact h.opened
  held := by
    rw [q.tree_answer]
    exact h.held
  content := h.content

/-- A regular file that is open for writing is at its end if it is empty or writes go there
anyway. -/
theorem of_file? {how : OpenHow} {location : Location} (hwrite : how.write = true)
    (hidle : how.idle = false) (hdirect : how.direct = false)
    (hfile : m.file? file = some (how.file id location)) (held : m.tree.inode? id = some node)
    (hcontent : node.content = .file old) (hend : how.append = false → old = []) :
    m.AppendsTo file id node old where
  opened := ⟨_, hfile, rfl, by simp [OpenHow.file, hwrite, hidle], hdirect,
    how.writesAt_file id location hend⟩
  held := held
  content := hcontent

/-- A regular file that was opened for writing is at its end, if its bytes were dropped, if writes
go there anyway, or if it had to be missing. -/
theorem of_openFile {path : Path} {how : OpenHow} {perm : UInt32} (hcreate : how.create = true)
    (hwrite : how.write = true) (hidle : how.idle = false) (hdirect : how.direct = false)
    (hreference : how.reference = false) (hnamed : how.unnamed = false)
    (hend : how.append = false → how.truncate = true ∨ how.exclusive = true)
    (h : m.openFile path how perm = .ok (file, m')) :
    ∃ id node, m'.tree.inode? id = some node
      ∧ ∀ old, node.content = .file old → m'.AppendsTo file id node old := by
  generalize hopened : (file, m') = opened at h
  cases opened_of_openFile h with
  | @found id location _ hplace hallowed hexisting =>
    have hdrops : how.append = false → how.truncate = true := fun happend =>
      (hend happend).resolve_right (by simpa [hcreate] using hallowed)
    obtain ⟨before, hbefore, -, hbase⟩ := openExisting_eq_ok hexisting
    obtain ⟨hfile, htree⟩ := of_openAs (hopened.trans hbase)
    rw [hreference, Bool.not_false, Bool.true_and] at htree
    split at htree
    · have held : m'.tree.inode? id = some (m.changed (.file []) before) := by
        rw [htree]
        change (m.tree.updateInode id _).inode? id = _
        rw [Tree.inode?_updateInode, if_pos rfl, hbefore, Option.map_some]
      refine ⟨id, _, held, fun old hold => .of_file? hwrite hidle hdirect hfile held hold ?_⟩
      exact fun _ => (Content.file.inj hold).symm
    · rename_i hkept
      have held : m'.tree.inode? id = some before := by rw [htree, hbefore]
      refine ⟨id, before, held, fun old hold => .of_file? hwrite hidle hdirect hfile held hold ?_⟩
      intro happend
      rw [hdrops happend, hold] at hkept
      exact absurd rfl hkept
  | @made dir name _ hplace hvacant _ =>
    obtain ⟨hfile, htree⟩ := of_openAs hopened
    have held : m'.tree.inode? m.tree.nextId
        = some (m.newInode dir (.file []) (m.masked perm)) := by
      rw [htree]
      exact Tree.inode?_addEntry_nextId hvacant.isDirectory
    refine ⟨_, _, held, fun old hold => .of_file? hwrite hidle hdirect hfile held hold ?_⟩
    exact fun _ => (Content.file.inj hold).symm
  | unnamed hunnamed =>
    rw [hnamed] at hunnamed
    cases hunnamed

end AppendsTo

namespace Extended

variable {m'' : Machine}

theorem append (h : m.Extended file id node old more m')
    (h' : m'.Extended file id (m.appended node old more) (old ++ more) more' m'') :
    m.Extended file id node old (more ++ more') m'' := by
  have hboth := appended_append node old more more' (congrArg Process.who h.process)
  refine ⟨?_, ?_, h'.process.trans h.process⟩
  · rw [← hboth, ← List.append_assoc]
    exact h'.appends
  · rw [← hboth]
    exact h.rewritten.trans h'.rewritten

/-- A write puts as many bytes there as it says. -/
theorem of_outcome {fails : Call → Errno → Prop} {count : Nat}
    (hfile : m.AppendsTo file id node old)
    (h : (Call.write file more).Outcome fails m (.ok count) m') :
    m.Extended file id node old (more.take count) m' := by
  rcases h.write_eq_ok with hwrite | ⟨-, hwrite⟩
  · obtain ⟨rfl, hextended⟩ := hfile.write hwrite
    rwa [List.take_length]
  · exact (hfile.write hwrite).2

/-- What is put at the end of a regular file is what writes to it have taken. -/
theorem transfers (fails : Call → Errno → Prop) (file : Descriptor) (id : InodeId) :
    Transfers fails file fun more m _ m' =>
      ∀ {node old}, m.AppendsTo file id node old → m.Extended file id node old more m' where
  nil _ _ _ h := .nil h
  append h h' _ _ hfile := (h hfile).append (h' (h hfile).appends)
  write hcall _ _ hfile := .of_outcome hfile hcall.outcome

end Extended

namespace AppendsTo

/-- A write to such a file that is not interrupted takes all that it may take. -/
theorem not_stalls {limit : Nat} (hlimit : 0 < limit) {e : Event}
    (h : e.before.AppendsTo file id node old)
    (hreply : e.reply = .error .interrupted
      ∨ (e.reply, e.after) = e.call.replyWithin limit e.before) : ¬ e.Stalls file := by
  intro hstalls
  cases hstalls with
  | @failed data errno before after hdata herrno =>
    rcases hreply with hreply | hreply
    · exact herrno (Except.error.inj hreply)
    obtain ⟨m', hwrite⟩ := h.exists_write (data.take limit)
    rw [Call.replyWithin_write hwrite] at hreply
    cases hreply
  | @idle data before after hdata =>
    rcases hreply with hreply | hreply
    · cases hreply
    obtain ⟨m', hwrite⟩ := h.exists_write (data.take limit)
    rw [Call.replyWithin_write hwrite, List.length_take] at hreply
    have htaken : min limit data.length = 0 := (Except.ok.inj (Prod.mk.inj hreply).1).symm
    have hlength : 0 < data.length := List.length_pos_iff.2 hdata
    omega

/-- While a program does nothing but write to such a file, it stays one. -/
theorem of_runs {α : Type} {fails : Call → Errno → Prop} {p : Program α} {events : List Event}
    {value : α} (h : m.AppendsTo file id node old)
    (huses : p.Uses fun c => ∃ data, c = .write file data)
    (hrun : Program.Runs fails p m events value m') {e : Event} (he : e ∈ events) :
    ∃ node old, e.before.AppendsTo file id node old := by
  refine ((hrun.invariant (I := fun m => ∃ node old, m.AppendsTo file id node old) ?_ ?_ huses
    ⟨node, old, h⟩).2 e he).2.1
  · rintro c reply m m' ⟨data, rfl⟩ houtcome ⟨node, old, h⟩
    cases reply with
    | error errno =>
      rw [houtcome.eq_of_error]
      exact ⟨node, old, h⟩
    | ok count => exact ⟨_, _, (Extended.of_outcome h houtcome).appends⟩
  · rintro q m ⟨node, old, h⟩
    exact ⟨node, old, h.answer q⟩

end AppendsTo

end Machine

/-- What both ways to write a file open is at its end, if it is a regular file. -/
theorem Posix.appendsTo_of_openWriter {fails : Call → Errno → Prop} {m m' : Machine}
    {events : List Event} {operation : Operation} {path : Path} {how : OpenHow} {perm : UInt32}
    {flags : OpenFlags} {w : Writer} (hhow : how = .making ∨ ∃ flags, how = howFor flags)
    (hrun : Routine.Runs fails (openWriter operation path how perm flags) m events (.ok w) m') :
    w.path = path ∧ ∃ id node, m'.tree.inode? id = some node
      ∧ ∀ old, node.content = .file old → m'.AppendsTo w.file id node old := by
  obtain ⟨-, file, rfl, hopen, -⟩ := openWriter_ok hrun
  refine ⟨rfl, ?_⟩
  rcases hhow with rfl | ⟨flags, rfl⟩
  · exact Machine.AppendsTo.of_openFile rfl rfl rfl rfl rfl rfl (fun _ => Or.inr rfl) hopen
  · rw [howFor_eq] at hopen
    refine Machine.AppendsTo.of_openFile rfl rfl rfl rfl rfl rfl (fun happend => Or.inl ?_) hopen
    simpa using happend

/-! ## Copying -/

namespace Reader

variable {m m' : Machine} {w : Writer} {id : InodeId} {node : Inode} {old : Bytes}
  {reader : Reader}

/-- The outcome of a copying that loses nothing: how many bytes the reader delivers, or the failure
that ends the reading, as an error for the file at `path`. -/
def copied (path : Path) (reader : Reader) : Except Error Nat :=
  match reader.failure? with
  | none => .ok reader.delivered.length
  | some e => .error (.ofIo .read path e)

/-- A copying in which every write takes something has written all that the reader delivers. -/
theorem copyTo_of_not_stalls {fails : Call → Errno → Prop} {events : List Event}
    {outcome : Except Error Nat} (hfile : m.AppendsTo w.file id node old) (hquiet : reader.IsQuiet)
    (hrun : Routine.Runs fails (reader.copyTo w.path (Posix.platform.writeAll w)) m events outcome
      m') (hprogress : ∀ e ∈ events, ¬ e.Stalls w.file) :
    outcome = reader.copied w.path ∧ m.Extended w.file id node old reader.delivered m' := by
  cases copyTo_runs (Machine.Extended.transfers fails w.file id) hquiet hrun with
  | all hends h => exact ⟨by rw [copied, hends], h hfile⟩
  | unread hfails h => exact ⟨by rw [copied, hfails], h hfile⟩
  | unwritten _ _ _ hstalls =>
    obtain ⟨e, he, hstalls⟩ := hstalls
    exact absurd hstalls (hprogress e he)

/-- The outcome of a copying, and the machine after it, where its writes are disturbed. -/
def copyAmid (reader : Reader) (w : Writer) (d : Disturbance) (m : Machine) :
    Except Error Nat × Machine :=
  (reader.copyTo w.path (Posix.platform.writeAll w)).outcome.runAmid d m

/-- However its writes are disturbed, a copying puts all that the reader delivers at the end of the
file. -/
theorem copyAmid_extended (hfile : m.AppendsTo w.file id node old) (hquiet : reader.IsQuiet)
    (d : Disturbance) :
    (reader.copyAmid w d m).1 = reader.copied w.path
      ∧ m.Extended w.file id node old reader.delivered (reader.copyAmid w d m).2 := by
  obtain ⟨events, hruns, hreplies⟩ := Program.exists_runs_runAmid
    (reader.copyTo w.path (Posix.platform.writeAll w)).outcome d m
  have huses : Routine.Uses (fun c => ∃ data, c = .write w.file data)
      (reader.copyTo w.path (Posix.platform.writeAll w)) :=
    uses_copyTo (Routine.uses_writeAll fun data => ⟨data, rfl⟩) hquiet
  refine copyTo_of_not_stalls hfile hquiet hruns fun e he => ?_
  obtain ⟨node', old', hbefore⟩ := hfile.of_runs huses hruns he
  rcases hreplies e he with hinterrupted | ⟨k, hreply⟩
  · exact hbefore.not_stalls Nat.one_pos (Or.inl hinterrupted)
  · exact hbefore.not_stalls (d.progress k) (Or.inr hreply)

/-- What is copied to a file that was just opened, in one of the two ways to write a file, comes
after what the file holds. -/
theorem copyAmid_opened {fails : Call → Errno → Prop} {n : Machine} {events : List Event}
    {operation : Operation} {path : Path} {how : OpenHow} {perm : UInt32} {flags : OpenFlags}
    (hhow : how = .making ∨ ∃ flags, how = Posix.howFor flags)
    (hrun : Routine.Runs fails (Posix.openWriter operation path how perm flags) n events (.ok w) m)
    (hquiet : reader.IsQuiet) (d : Disturbance) :
    ∃ id node, m.tree.inode? id = some node ∧ ∀ old, node.content = .file old →
      (reader.copyAmid w d m).1 = reader.copied path
        ∧ m.Extended w.file id node old reader.delivered (reader.copyAmid w d m).2 := by
  obtain ⟨rfl, id, node, hnode, happends⟩ := Posix.appendsTo_of_openWriter hhow hrun
  exact ⟨id, node, hnode, fun old hold => copyAmid_extended (happends old hold) hquiet d⟩

/-- Copying loses nothing.  However a reader cuts its bytes into chunks and is interrupted between
them, and however signals interrupt the writes and the system cuts them, the file holds in the end
what it held and then all bytes that the reader delivers, and nothing else is different; the outcome
is their number, or the failure of the reader for the path of the file.  So another reader that
delivers the same bytes leaves the same tree. -/
theorem copying_loses_nothing (hfile : m.AppendsTo w.file id node old) (hquiet : reader.IsQuiet)
    (d : Disturbance) :
    (reader.copyAmid w d m).1 = reader.copied w.path
      ∧ m.tree.Rewritten id (m.appended node old reader.delivered) (reader.copyAmid w d m).2.tree
      ∧ ∀ (reader' : Reader) (d' : Disturbance), reader'.IsQuiet →
          reader'.delivered = reader.delivered →
          (reader'.copyAmid w d' m).2.tree.Same (reader.copyAmid w d m).2.tree := by
  obtain ⟨houtcome, hextended⟩ := copyAmid_extended hfile hquiet d
  refine ⟨houtcome, hextended.rewritten, ?_⟩
  intro reader' d' hquiet' hdelivered
  obtain ⟨-, hextended'⟩ := copyAmid_extended hfile hquiet' d'
  rw [hdelivered] at hextended'
  exact hextended'.rewritten.same hextended.rewritten

/-- The small system with a file `j` that is open at its end. -/
def journal : Descriptor × Machine :=
  ((Machine.small fun _ => 0).create 9 [106] (.file [111]) 0o640).openAs
    (OpenHow.appending.file 33 (.entry 9 [106]))

/-- A reader that is interrupted, goes on, and then fails. -/
def halting : Reader :=
  [.bytes [110, 101], .failure (.bare .interrupted), .bytes [119], .failure (.bare .other),
    .bytes [33]]

/-- A signal before every second write, and one byte at a time. -/
def hindered : Disturbance := ⟨fun k => k % 2, fun _ => 1, fun _ => Nat.one_pos⟩

/-- Nothing but the size of the buffer in the way. -/
def unhindered : Disturbance := ⟨fun _ => 0, fun _ => bufferSize, fun _ => by decide⟩

/-- Hindered or not, all that came before the failure is written. -/
theorem copying_loses_nothing_journal :
    let w : Writer := ⟨journal.1, ⟨[106]⟩, false⟩
    let after := halting.copyAmid w hindered journal.2
    after.1 = .error (.ofIo .read ⟨[106]⟩ (.bare .other))
      ∧ after.2.tree.content? 33 = some (.file [111, 110, 101, 119])
      ∧ (copyAmid [.bytes [110, 101, 119]] w unhindered journal.2).2.tree.Same after.2.tree := by
  intro w after
  have hfile : journal.2.AppendsTo w.file 33
      (Machine.newInode (Machine.small fun _ => 0) 9 (.file [111]) 0o640) [111] :=
    ⟨⟨_, rfl, rfl, rfl, rfl, rfl⟩, rfl, rfl⟩
  have hquiet : halting.IsQuiet := by simp [halting]
  obtain ⟨houtcome, hrewritten, hsame⟩ := copying_loses_nothing hfile hquiet hindered
  refine ⟨houtcome, ?_, hsame _ _ (by simp) (by decide)⟩
  rw [Tree.content?, hrewritten.inode]
  rfl

end Reader

end PortableFiles
