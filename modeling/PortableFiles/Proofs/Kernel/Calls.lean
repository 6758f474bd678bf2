import PortableFiles.Proofs.Kernel.NewEntry
import PortableFiles.Proofs.Kernel.Runs
set_option autoImplicit false

/-!
# What calls do

A call changes files and what is known of them, never the process that makes it
(`Call.process_perform`); a question changes the process and no file.  Calls that only look change
nothing at all.  What a call that succeeds has done to an open file or to an entry is said once for
each of them (`Machine.write_cases`, `Machine.close_cases`, `Machine.unlink_cases`).
-/

namespace PortableFiles

theorem bind_eq_ok_iff {ε α β : Type} {x : Except ε α} {f : α → Except ε β} {b : β} :
    (x >>= f) = .ok b ↔ ∃ a, x = .ok a ∧ f a = .ok b := by
  constructor
  · intro h
    cases x with
    | error e => cases h
    | ok a => exact ⟨a, rfl, h⟩
  · rintro ⟨a, rfl, h⟩
    exact h

theorem ite_error_eq_ok_iff {ε α : Type} {c : Prop} [Decidable c] {e : ε} {x : Except ε α} {a : α} :
    (if c then .error e else x) = .ok a ↔ ¬ c ∧ x = .ok a := by
  by_cases h : c <;> simp [h]

theorem bind_eq_error_iff {ε α β : Type} {x : Except ε α} {f : α → Except ε β} {e : ε} :
    (x >>= f) = .error e ↔ x = .error e ∨ ∃ a, x = .ok a ∧ f a = .error e := by
  cases x <;> simp [bind, Except.bind]

/-- What fails with one error has not failed with another one before. -/
theorem eq_error_of_ite {ε α : Type} {c : Prop} [Decidable c] {e e' : ε} {x : Except ε α}
    (hne : e ≠ e') (h : (if c then .error e else x) = .error e') : ¬ c ∧ x = .error e' := by
  split at h
  · exact absurd (Except.error.inj h) hne
  · rename_i hc
    exact ⟨hc, h⟩

theorem eq_ok_of_isOk {ε : Type} {x : Except ε Unit} (h : x.isOk = true) : x = .ok () := by
  cases x with
  | error e => cases h
  | ok _ => rfl

/-! ## The process -/

/-- What a process is, apart from the files that it has open. -/
structure Process where
  cwd : InodeId
  who : Credentials
  mask : UInt32
  rememberedMask : Option UInt32
  statusLines : StatusLines
  environment : List (String × String)
  accounts : Accounts
  mayOpen : Bool
  draws : Nat → UInt32
  drawn : Nat

/-- Whether a process is as another one was in all that an atomic write looks at. -/
structure Process.Agrees (p q : Process) : Prop where
  cwd : q.cwd = p.cwd
  who : q.who = p.who
  mask : q.mask = p.mask
  umask : q.rememberedMask.getD q.mask = p.rememberedMask.getD p.mask
  mayOpen : q.mayOpen = p.mayOpen
  draws : q.draws = p.draws

namespace Process.Agrees

variable {p q r : Process}

theorem of_eq (h : q = p) : p.Agrees q := by
  rw [h]
  exact ⟨rfl, rfl, rfl, rfl, rfl, rfl⟩

theorem trans (h : p.Agrees q) (h' : q.Agrees r) : p.Agrees r where
  cwd := h'.cwd.trans h.cwd
  who := h'.who.trans h.who
  mask := h'.mask.trans h.mask
  umask := h'.umask.trans h.umask
  mayOpen := h'.mayOpen.trans h.mayOpen
  draws := h'.draws.trans h.draws

end Process.Agrees

namespace Machine

/-- The process on a machine. -/
def process (m : Machine) : Process where
  cwd := m.cwd
  who := m.who
  mask := m.mask
  rememberedMask := m.rememberedMask
  statusLines := m.statusLines
  environment := m.environment
  accounts := m.accounts
  mayOpen := m.mayOpen
  draws := m.draws
  drawn := m.drawn

end Machine

namespace Machine

variable {m : Machine} {how : OpenHow} {opened : Descriptor × Machine}

theorem exists_openAs_of_openExisting {id : InodeId} {location : Location}
    (h : m.openExisting how id location = .ok opened) :
    ∃ (f : OpenFile) (n : Machine), opened = n.openAs f ∧ n.process = m.process := by
  unfold openExisting at h
  repeat' first | split at h | obtain ⟨_, _, h⟩ := bind_eq_ok_iff.1 h
  all_goals cases h <;> exact ⟨_, _, rfl, rfl⟩

/-- What is opened is opened last, by the same process. -/
theorem exists_openAs_of_openFile {path : Path} {perm : UInt32}
    (h : m.openFile path how perm = .ok opened) :
    ∃ (f : OpenFile) (n : Machine), opened = n.openAs f ∧ n.process = m.process := by
  unfold openFile openUnnamed at h
  repeat' first | split at h | obtain ⟨_, _, h⟩ := bind_eq_ok_iff.1 h
  all_goals first
    | exact exists_openAs_of_openExisting h
    | (cases h <;> exact ⟨_, _, rfl, rfl⟩)

/-- What can be opened may be opened. -/
theorem mayOpen_of_openFile {path : Path} {perm : UInt32}
    (h : m.openFile path how perm = .ok opened) : m.mayOpen = true := by
  unfold openFile at h
  obtain ⟨-, h⟩ := ite_error_eq_ok_iff.1 h
  obtain ⟨-, h⟩ := ite_error_eq_ok_iff.1 h
  obtain ⟨-, h⟩ := ite_error_eq_ok_iff.1 h
  obtain ⟨hopen, -⟩ := ite_error_eq_ok_iff.1 h
  simpa using hopen

theorem process_openFile {m' : Machine} {path : Path} {perm : UInt32} {file : Descriptor}
    (h : m.openFile path how perm = .ok (file, m')) : m'.process = m.process := by
  obtain ⟨f, n, hopened, hprocess⟩ := exists_openAs_of_openFile h
  cases hopened
  exact hprocess

end Machine

/-- A call changes files and what is known of them, and not the process that makes it. -/
theorem Call.process_perform {m m' : Machine} {c : Call} {value : c.Value}
    (h : c.perform m = .ok (value, m')) : m'.process = m.process := by
  cases c
  case openFile => exact Machine.process_openFile h
  all_goals simp only [perform, Machine.write, Machine.sync, Machine.statOpen,
    Machine.pathOfOpen, Machine.close, Machine.stat, Machine.chmod, Machine.chown, Machine.rename,
    Machine.unlink, Machine.symlink, Machine.makeDirectory, Machine.removeDirectory,
    Machine.makeSpecial, Machine.link, Machine.setTimes, Machine.list, Machine.accountName,
    Except.map] at h
  all_goals
    repeat' first | split at h | obtain ⟨_, _, h⟩ := bind_eq_ok_iff.1 h
  all_goals cases h <;> rfl

/-- Whatever comes of a call, the process stays what it was. -/
theorem Call.Outcome.process {fails : Call → Errno → Prop} {m m' : Machine} {c : Call}
    {reply : Except Errno c.Value} (h : c.Outcome fails m reply m') : m'.process = m.process := by
  cases h with
  | done h => exact process_perform h
  | refused _ => rfl
  | failed _ => rfl
  | @short file data count _ _ h => exact process_perform (c := .write file (data.take count)) h

/-! ## Questions -/

namespace Query

variable (m : Machine) (q : Query)

@[simp] theorem tree_answer : (q.answer m).2.tree = m.tree := by cases q <;> rfl

@[simp] theorem files_answer : (q.answer m).2.files = m.files := by cases q <;> rfl

@[simp] theorem cwd_answer : (q.answer m).2.cwd = m.cwd := by cases q <;> rfl

@[simp] theorem who_answer : (q.answer m).2.who = m.who := by cases q <;> rfl

end Query

/-! ## Calls that only look -/

/-- Whether a call only looks. -/
def Call.Looks : Call → Prop
  | .sync _ | .statOpen _ | .pathOfOpen _ | .stat .. | .list _ | .userName _ | .groupName _ => True
  | _ => False

theorem Call.machine_perform_of_looks {m m' : Machine} {c : Call} {value : c.Value} (hc : c.Looks)
    (h : c.perform m = .ok (value, m')) : m' = m := by
  cases c
  case sync =>
    simp only [perform, Machine.sync] at h
    repeat' split at h
    all_goals cases h <;> rfl
  case stat =>
    obtain ⟨_, _, h⟩ := bind_eq_ok_iff.1 h
    obtain ⟨_, _, h⟩ := bind_eq_ok_iff.1 h
    cases h
    rfl
  case list =>
    simp only [perform, Machine.list] at h
    repeat' first | split at h | obtain ⟨_, _, h⟩ := bind_eq_ok_iff.1 h
    all_goals cases h <;> rfl
  case statOpen | pathOfOpen | userName | groupName =>
    simp only [perform, Machine.statOpen, Machine.pathOfOpen, Machine.accountName, Except.map] at h
    repeat' split at h
    all_goals cases h <;> rfl
  all_goals cases hc

/-! ## Open files -/

namespace Machine

variable {m m' : Machine} {file : Descriptor}

/-- A file that has just been opened is open. -/
theorem file?_openAs (m : Machine) (f : OpenFile) :
    (m.openAs f).2.file? (m.openAs f).1 = some f := by
  change (if 0 ≤ (m.files.fresh : Int) then _ else _) = _
  rw [if_pos (Int.natCast_nonneg _)]
  exact FinMap.get?_insert_self _ _ _

/-- What is opened is open on the same tree. -/
theorem of_openAs {n : Machine} {file : Descriptor} {f : OpenFile}
    (h : (file, m') = n.openAs f) : m'.file? file = some f ∧ m'.tree = n.tree := by
  have hfile := file?_openAs n f
  rw [← h] at hfile
  exact ⟨hfile, congrArg (fun opened : Descriptor × Machine => opened.2.tree) h⟩

/-- The number of an open file stands for what is put there. -/
theorem file?_of_insert {d : Descriptor} {f f' : OpenFile} (hf : m.file? d = some f)
    (h : m'.files = m.files.insert d.number.toNat f') : m'.file? d = some f' := by
  unfold file? at hf ⊢
  split at hf
  · rename_i hd
    rw [if_pos hd, h, FinMap.get?_insert_self]
  · cases hf

/-- A file that could be opened is open. -/
theorem isSome_file?_of_openFile {path : Path} {how : OpenHow} {perm : UInt32}
    (h : m.openFile path how perm = .ok (file, m')) : (m'.file? file).isSome = true := by
  obtain ⟨f, n, hopened, -⟩ := exists_openAs_of_openFile h
  cases hopened
  exact congrArg Option.isSome (file?_openAs n f)

/-- Closing forgets a file. -/
theorem close_cases {d : Descriptor} (h : m.close d = .ok ((), m')) :
    m'.tree = m.tree ∧ m'.file? d = none ∧ m'.files = m.files.erase d.number.toNat := by
  unfold close at h
  cases hfile : m.file? d with
  | none => simp [hfile] at h
  | some f =>
    simp only [hfile] at h
    cases h
    refine ⟨rfl, ?_, rfl⟩
    unfold file?
    split
    · exact FinMap.get?_erase_self _ _
    · rfl

/-- Bytes that are put at the end of others come after them. -/
theorem splice_length (old data : Bytes) : splice old old.length data = old ++ data := by
  simp [splice]

end Machine

/-- Where the next write to an open file goes, given the bytes of the file. -/
def OpenFile.writesAt (f : OpenFile) (bytes : Bytes) : Nat :=
  if f.appending then bytes.length else f.offset

/-- After a write to its end a file is at its end: it appends anyway, or it has moved on by what was
written. -/
theorem OpenFile.writesAt_written (f : OpenFile) (old data : Bytes) :
    { f with offset := old.length + data.length }.writesAt (old ++ data)
      = (old ++ data).length := by
  unfold writesAt
  split
  · rfl
  · rw [List.length_append]

/-- What a write that succeeds does: nothing where no bytes are given or none are kept, and else the
file holds the bytes from where the write goes. -/
theorem Machine.write_cases {m m' : Machine} {d : Descriptor} {data : Bytes} {count : Nat}
    (h : m.write d data = .ok (count, m')) :
    count = data.length ∧ ∃ f, m.file? d = some f ∧
      ((m' = m ∧ (data = [] ∨ ∀ old, m.tree.content? f.inode ≠ some (.file old))) ∨
        ∃ old, data ≠ [] ∧ m.tree.content? f.inode = some (.file old) ∧
          m'.tree = m.tree.updateInode f.inode
            (m.changed (.file (splice old (f.writesAt old) data))) ∧
          m'.files = m.files.insert d.number.toNat
            { f with offset := f.writesAt old + data.length }) := by
  unfold Machine.write at h
  cases hfile : m.file? d with
  | none => simp [hfile] at h
  | some f =>
    simp only [hfile] at h
    obtain ⟨-, h⟩ := ite_error_eq_ok_iff.1 h
    by_cases hdata : data = []
    · rw [if_pos hdata] at h
      cases h
      exact ⟨by rw [hdata]; rfl, f, rfl, Or.inl ⟨rfl, Or.inl hdata⟩⟩
    · rw [if_neg hdata] at h
      split at h
      · rename_i old hold
        obtain ⟨-, h⟩ := ite_error_eq_ok_iff.1 h
        cases h
        exact ⟨rfl, f, rfl, Or.inr ⟨old, hdata, hold, rfl, rfl⟩⟩
      · rename_i hdevice
        cases h
        refine ⟨rfl, f, rfl, Or.inl ⟨rfl, Or.inr fun old hold => ?_⟩⟩
        rw [hdevice] at hold
        cases hold
      · cases h
      · cases h

namespace Machine

variable {m m' : Machine} {file : Descriptor}

/-- Writing keeps a file open. -/
theorem isSome_file?_of_write {data : Bytes} {count : Nat}
    (h : m.write file data = .ok (count, m')) : (m'.file? file).isSome = true := by
  obtain ⟨-, f, hfile, ⟨rfl, -⟩ | ⟨_, -, -, -, hfiles⟩⟩ := write_cases h
  · exact Option.isSome_of_mem hfile
  · exact Option.isSome_of_mem (file?_of_insert hfile hfiles)

end Machine

/-! ## Where paths lead -/

namespace Machine

variable {m m' : Machine} {path : Path} {dir : InodeId} {name : Name} {slash : Bool}
  {follow : Bool → Bool}

/-- A path that leads somewhere is neither empty nor too long. -/
theorem bounds_of_locate {place : Place} (h : m.locate follow path = .ok place) :
    path.bytes ≠ [] ∧ path.bytes.length < Tree.maxPath := by
  unfold locate Tree.locate at h
  obtain ⟨hne, h⟩ := ite_error_eq_ok_iff.1 h
  exact ⟨hne, Nat.not_le.1 (ite_error_eq_ok_iff.1 h).1⟩

/-- Where a path leads, its steps lead. -/
theorem walks_of_locate {place : Place} (h : m.locate follow path = .ok place) :
    Tree.Walks m.tree m.who follow Tree.maxLinks (m.tree.start m.cwd (.ofBytes path.bytes))
      (Route.ofBytes path.bytes).steps (Route.ofBytes path.bytes).slash place := by
  unfold locate Tree.locate at h
  obtain ⟨-, h⟩ := ite_error_eq_ok_iff.1 h
  obtain ⟨-, h⟩ := ite_error_eq_ok_iff.1 h
  exact (Tree.walk_eq_ok_iff _ _ _).1 h

/-- Where a path leads somewhere, it does so if no link is followed at its end. -/
theorem exists_locate_unfollowed {place : Place} (h : m.locate follow path = .ok place) :
    ∃ place', m.locate (fun _ => false) path = .ok place' := by
  obtain ⟨place', hwalks⟩ := (walks_of_locate h).unfollowed
  obtain ⟨hne, hshort⟩ := bounds_of_locate h
  unfold locate Tree.locate
  rw [if_neg hne, if_neg (Nat.not_le.2 hshort)]
  exact ⟨place', (Tree.walk_eq_ok_iff _ _ _).2 hwalks⟩

/-- A path to a name that is no link leads to it whether or not links are followed. -/
theorem locate_of_not_isLink (h : m.locate (fun _ => false) path = .ok (.entry dir name slash))
    (hlink : Tree.isLink ((m.tree.child? dir name).bind m.tree.content?) = false)
    (follow : Bool → Bool) : m.locate follow path = .ok (.entry dir name slash) := by
  have hwalks := walks_of_locate h
  obtain ⟨hne, hshort⟩ := bounds_of_locate h
  unfold locate Tree.locate
  rw [if_neg hne, if_neg (Nat.not_le.2 hshort)]
  exact (Tree.walk_eq_ok_iff _ _ _).2 (hwalks.of_not_isLink (fun _ => rfl) hlink)

/-- Where a path leads to a name, the name is in a directory. -/
theorem isDirectory_of_locate (h : m.locate follow path = .ok (.entry dir name slash)) :
    m.tree.isDirectory dir = true :=
  Tree.isDirectory_of_pass (walks_of_locate h).pass_of_entry

/-- Removing drops the entry at which the path stops, which is no directory. -/
theorem unlink_cases (h : m.unlink path = .ok ((), m')) :
    ∃ dir name id, m.locate (fun _ => false) path = .ok (.entry dir name false)
      ∧ m.tree.find dir name = .ok (some id) ∧ m.tree.isDirectory id = false
      ∧ m' = m.dropEntry dir name id := by
  obtain ⟨place, hplace, h⟩ := bind_eq_ok_iff.1 h
  cases place with
  | reached dir => cases h
  | dots dir up => cases h
  | entry dir name slash =>
    obtain ⟨found, hfound, h⟩ := bind_eq_ok_iff.1 h
    cases found with
    | none => cases h
    | some id =>
      obtain ⟨hslash, h⟩ := ite_error_eq_ok_iff.1 h
      obtain rfl : slash = false := by simpa using hslash
      obtain ⟨_, -, h⟩ := bind_eq_ok_iff.1 h
      obtain ⟨hdirectory, h⟩ := ite_error_eq_ok_iff.1 h
      cases h
      exact ⟨dir, name, id, hplace, hfound, by simpa using hdirectory, rfl⟩

end Machine

end PortableFiles
