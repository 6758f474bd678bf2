import PortableFiles.Proofs.Kernel.Protocol
import PortableFiles.Proofs.Writing.Beside
set_option autoImplicit false

/-!
# The protocol of an atomic write

Seen by itself, an atomic write makes a file, writes and describes it until it is closed, looks at
the destination, sets permissions, and moves the file to its place or removes it.  All its calls
concern the one file that it has made, by the descriptor or the path that it has of it, and it
moves the file only when its reader has come to an end and the file is what it should leave
(`Phase.Allows`).  No other program has a part in this: the answers are all that is known of the
machine (`Phase.Moves`).

Every atomic write keeps to the protocol, and when it is done it has no such file any more
(`AtomicWrite.obeys_routine`).
-/

namespace PortableFiles

/-- A file that an atomic write has made, and neither moved nor removed yet. -/
structure Draft where
  dir : InodeId
  name : Name
  id : InodeId
  /-- The path at which it was made. -/
  path : Path
  /-- The number under which it was opened. -/
  file : Descriptor
  node : Inode
  /-- Whether it has not been closed yet. -/
  isOpen : Bool
  /-- The permissions that a look at the destination has shown. -/
  found : Option UInt32

namespace Draft

/-- The draft after its inode has got another content and other permissions. -/
def revised (d : Draft) (data : Bytes) (perm : UInt32) : Draft :=
  { d with node := { d.node with content := .file data, perm := perm } }

/-- Whether a draft is another one with some bytes more. -/
def Grown (d : Draft) (more : Bytes) (d' : Draft) : Prop :=
  ∃ data perm, d.node.content = .file data ∧ Trimmed d.node.perm perm
    ∧ d' = d.revised (data ++ more) perm

theorem Grown.trans {d d' d'' : Draft} {more more' : Bytes} (h : d.Grown more d')
    (h' : d'.Grown more' d'') : d.Grown (more ++ more') d'' := by
  obtain ⟨data, perm, hdata, htrimmed, rfl⟩ := h
  obtain ⟨data', perm', hdata', htrimmed', rfl⟩ := h'
  cases hdata'
  refine ⟨data, perm', hdata, htrimmed.trans htrimmed', ?_⟩
  rw [← List.append_assoc]
  rfl

theorem Grown.file_eq {d d' : Draft} {more : Bytes} (h : d.Grown more d') : d'.file = d.file := by
  obtain ⟨_, _, -, -, rfl⟩ := h
  rfl

theorem Grown.path_eq {d d' : Draft} {more : Bytes} (h : d.Grown more d') : d'.path = d.path := by
  obtain ⟨_, _, -, -, rfl⟩ := h
  rfl

/-- Whether a draft is a file that can still be written. -/
structure IsWriting (d : Draft) : Prop where
  isOpen : d.isOpen = true
  file : ∃ data, d.node.content = .file data

theorem IsWriting.of_grown {d d' : Draft} {more : Bytes} (hd : d.IsWriting)
    (h : d.Grown more d') : d'.IsWriting := by
  obtain ⟨data, perm, -, -, rfl⟩ := h
  exact ⟨hd.isOpen, _, rfl⟩

/-- A draft is itself with no bytes more. -/
theorem IsWriting.grown_nil {d : Draft} (hd : d.IsWriting) : d.Grown [] d := by
  obtain ⟨data, hdata⟩ := hd.file
  refine ⟨data, d.node.perm, hdata, .refl _, ?_⟩
  rw [List.append_nil, revised, ← hdata]

end Draft

/-- How far an atomic write has come. -/
inductive Phase where
  /-- It has made no file. -/
  | unmade
  | drafting (d : Draft)
  /-- The file is in its place, or removed. -/
  | settled

namespace Phase

/-- The calls of an atomic write whose process has first seen the machine `m`. -/
inductive Allows (w : AtomicWrite) (m : Machine) : Phase → Call → Prop where
  | make {path : Path} {k : Nat} (hpath : path = w.path.parentDir.join (m.tempName k))
      (hnul : path.hasNul = false) :
      Allows w m .unmade
        (.openFile path .making (w.effective.defaultFileMode.getD Writing.tempPerm))
  | write {d : Draft} {data : Bytes} (hopen : d.isOpen = true) :
      Allows w m (.drafting d) (.write d.file data)
  | sync {d : Draft} (hopen : d.isOpen = true) : Allows w m (.drafting d) (.sync d.file)
  | statOpen {d : Draft} (hopen : d.isOpen = true) : Allows w m (.drafting d) (.statOpen d.file)
  | close {d : Draft} (hopen : d.isOpen = true) : Allows w m (.drafting d) (.close d.file)
  | look {d : Draft} : Allows w m (.drafting d) (.stat w.path true)
  | chmod {d : Draft} {perm : UInt32} : Allows w m (.drafting d) (.chmod d.path perm)
  | rename {d : Draft} (hends : w.reader.Ends) (hleaves : w.Leaves m d.found d.node) :
      Allows w m (.drafting d) (.rename d.path w.path)
  | unlink {d : Draft} : Allows w m (.drafting d) (.unlink d.path)

/-- What the answers say.  Removing a draft succeeds, and closing counts whatever comes of it. -/
inductive Moves (m : Machine) : Phase → (c : Call) → Except Errno c.Value → Phase → Prop where
  | failed {phase : Phase} {c : Call} {e : Errno} (hclose : ∀ file, c ≠ .close file)
      (hunlink : ∀ path, c ≠ .unlink path) : Moves m phase c (.error e) phase
  | made {path : Path} {how : OpenHow} {perm : UInt32} {file : Descriptor} {d : Draft}
      (hpath : d.path = path) (hfile : d.file = file) (hopen : d.isOpen = true)
      (hfound : d.found = none) (hcontent : d.node.content = .file [])
      (hperm : d.node.perm = m.masked perm) :
      Moves m .unmade (.openFile path how perm) (.ok file) (.drafting d)
  | written {d d' : Draft} {file : Descriptor} {data : Bytes} {count : Nat}
      (h : d.Grown (data.take count) d') :
      Moves m (.drafting d) (.write file data) (.ok count) (.drafting d')
  | synced {d : Draft} {file : Descriptor} :
      Moves m (.drafting d) (.sync file) (.ok ()) (.drafting d)
  | described {d : Draft} {file : Descriptor} {stat : Stat} (h : stat.perm = d.node.perm) :
      Moves m (.drafting d) (.statOpen file) (.ok stat) (.drafting d)
  | closed {d : Draft} {file : Descriptor} {reply : Except Errno Unit} :
      Moves m (.drafting d) (.close file) reply (.drafting { d with isOpen := false })
  | looked {d : Draft} {path : Path} {stat : Stat} :
      Moves m (.drafting d) (.stat path true) (.ok stat)
        (.drafting { d with found := d.found.or (some (stat.perm &&& permMask)) })
  | chmodded {d : Draft} {path : Path} {perm : UInt32} :
      Moves m (.drafting d) (.chmod path perm) (.ok ())
        (.drafting { d with node := { d.node with perm := m.granted d.node perm } })
  | published {d : Draft} {source destination : Path} :
      Moves m (.drafting d) (.rename source destination) (.ok ()) .settled
  | removed {d : Draft} {path : Path} : Moves m (.drafting d) (.unlink path) (.ok ()) .settled

/-- The questions of an atomic write.  It reads the mask from the status of the process only while
it has a draft, so that the mask need not be exchanged. -/
inductive MayAsk (m : Machine) : Phase → Query → Prop where
  | draw {phase : Phase} : MayAsk m phase .draw
  | recallMask {phase : Phase} : MayAsk m phase .recallMask
  | status {d : Draft} : MayAsk m (.drafting d) .status
  | rememberMask {phase : Phase} : MayAsk m phase (.rememberMask m.umask)

/-- What the process answers. -/
inductive Answers (m : Machine) : Phase → (q : Query) → q.Answer → Prop where
  | draw {phase : Phase} {k : Nat} : Answers m phase .draw (m.draws k)
  | recallMask {phase : Phase} {mask : Option UInt32} (h : mask.getD m.mask = m.umask) :
      Answers m phase .recallMask mask
  | status {phase : Phase} {status : String} (h : Umask.shown? status = some m.mask) :
      Answers m phase .status (some status)
  | rememberMask {phase : Phase} {mask : UInt32} : Answers m phase (.rememberMask mask) ()

end Phase

namespace AtomicWrite

/-- The protocol of an atomic write whose process has first seen the machine `m`. -/
def protocol (w : AtomicWrite) (m : Machine) : Protocol Phase where
  Allows := Phase.Allows w m
  Moves := Phase.Moves m
  MayAsk := Phase.MayAsk m
  Answers := Phase.Answers m

end AtomicWrite

end PortableFiles
