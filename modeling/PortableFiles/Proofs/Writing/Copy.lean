import PortableFiles.Proofs.Kernel.Stage
import PortableFiles.Writing.InPlace
set_option autoImplicit false

/-!
# Copying to an open file

What a reader delivers until it ends or fails (`Reader.delivered`), and the copying of it: however
few bytes the system takes at a time, a copying that succeeds has written all of them, one that a
failure of the reader ends has written all that came before and reports that failure, and one that a
write ends has written some from the front (`Reader.copyTo_runs`).  This holds for whatever can be
said of the bytes that were written (`Transfers`), such as that they are at the end of a file that
is being prepared (`Stage.Appended`).
-/

namespace PortableFiles

/-! ## Permissions after writes -/

/-- Whether permissions are as they were, or without the bits that writing takes away. -/
def Trimmed (perm perm' : UInt32) : Prop := perm' = perm ∨ perm' = Machine.withoutLentRights perm

theorem Machine.withoutLentRights_eq (perm : UInt32) :
    withoutLentRights perm = perm &&& (if perm &&& 0o010 = 0 then 0o3777 else 0o1777) := by
  have hbit : (0o3777 : UInt32) &&& 0o010 = 0o010 := by decide
  have hboth : (0o3777 : UInt32) &&& 0o5777 = 0o1777 := by decide
  unfold withoutLentRights
  by_cases h : perm &&& 0o010 = 0
  · simp [h, UInt32.and_assoc, hbit]
  · simp [h, UInt32.and_assoc, hbit, hboth]

theorem Machine.withoutLentRights_idem (perm : UInt32) :
    withoutLentRights (withoutLentRights perm) = withoutLentRights perm := by
  have hnone : (0o3777 : UInt32) &&& 0o010 = 0o010 := by decide
  have hgroup : (0o1777 : UInt32) &&& 0o010 = 0o010 := by decide
  simp only [withoutLentRights_eq]
  by_cases h : perm &&& 0o010 = 0
  · simp only [h, if_true, UInt32.and_assoc, hnone, UInt32.and_self]
  · simp only [h, if_false, UInt32.and_assoc, hgroup, UInt32.and_self]

@[simp] theorem Machine.permAfter_nil (m : Machine) (perm : UInt32) :
    m.permAfter [] perm = perm := rfl

/-- Writing takes away nothing more the second time. -/
theorem Machine.permAfter_append (m : Machine) (data more : Bytes) (perm : UInt32) :
    m.permAfter more (m.permAfter data perm) = m.permAfter (data ++ more) perm := by
  by_cases hprivileged : m.who.privileged = true
  · simp [permAfter, hprivileged]
  · by_cases hdata : data = []
    · simp [hdata]
    · by_cases hmore : more = []
      · simp [hmore]
      · simp [permAfter, hprivileged, hdata, hmore, withoutLentRights_idem]

namespace Trimmed

variable {perm perm' perm'' : UInt32}

theorem refl (perm : UInt32) : Trimmed perm perm := Or.inl rfl

theorem trans (h : Trimmed perm perm') (h' : Trimmed perm' perm'') : Trimmed perm perm'' := by
  rcases h with rfl | rfl
  · exact h'
  · rcases h' with rfl | rfl
    · exact Or.inr rfl
    · exact Or.inr (Machine.withoutLentRights_idem perm)

theorem permAfter (m : Machine) (data : Bytes) (perm : UInt32) :
    Trimmed perm (m.permAfter data perm) := by
  unfold Machine.permAfter
  split
  · exact Or.inl rfl
  · exact Or.inr rfl

theorem changed (m : Machine) (content : Content) (node : Inode) :
    Trimmed node.perm (m.changed content node).perm := by
  unfold Machine.changed
  dsimp only
  split
  · exact Or.inl rfl
  · exact Or.inr rfl

/-- Twelve bits stay twelve bits. -/
theorem and_permMask (h : Trimmed perm perm') (hperm : perm &&& permMask = perm) :
    perm' &&& permMask = perm' := by
  rcases h with rfl | rfl
  · exact hperm
  · have hnone : (0o3777 : UInt32) &&& permMask = 0o3777 := by decide
    have hgroup : (0o1777 : UInt32) &&& permMask = 0o1777 := by decide
    rw [Machine.withoutLentRights_eq, UInt32.and_assoc]
    split
    · rw [hnone]
    · rw [hgroup]

end Trimmed

/-! ## Readers -/

namespace Reader

/-- The bytes that a reader delivers until it ends or fails. -/
def delivered : Reader → Bytes
  | [] => []
  | .bytes data :: rest => if data = [] then [] else data ++ delivered rest
  | .failure e :: rest => if e.kind = .interrupted then delivered rest else []
  | .meanwhile _ :: rest => delivered rest

/-- Whether a reader comes to its end and does not fail before.  An interruption is no failure. -/
def Ends : Reader → Prop
  | [] => True
  | .bytes data :: rest => data = [] ∨ Ends rest
  | .failure e :: rest => e.kind = .interrupted ∧ Ends rest
  | .meanwhile _ :: rest => Ends rest

/-- The failure that ends the reading, where one does.  An interruption is no failure. -/
def failure? : Reader → Option IoError
  | [] => none
  | .bytes data :: rest => if data = [] then none else failure? rest
  | .failure e :: rest => if e.kind = .interrupted then failure? rest else some e
  | .meanwhile _ :: rest => failure? rest

/-- A reader comes to its end exactly if no failure ends the reading. -/
theorem ends_iff {reader : Reader} : reader.Ends ↔ reader.failure? = none := by
  fun_induction failure? reader with
  | case1 => simp [Ends]
  | case2 => simp [Ends]
  | case3 data rest hdata ih => simp [Ends, hdata, ih]
  | case4 e rest he ih => simp [Ends, he, ih]
  | case5 e rest he => simp [Ends, he]
  | case6 others rest ih => simp [Ends, ih]

/-- Whether nobody else does anything while the stream is read. -/
def IsQuiet (reader : Reader) : Prop := ∀ others, Chunk.meanwhile others ∉ reader

@[simp] theorem isQuiet_nil : IsQuiet [] := fun _ h => by cases h

@[simp] theorem isQuiet_bytes {data : Bytes} {rest : Reader} :
    IsQuiet (.bytes data :: rest) ↔ IsQuiet rest := by
  simp [IsQuiet]

@[simp] theorem isQuiet_failure {e : IoError} {rest : Reader} :
    IsQuiet (.failure e :: rest) ↔ IsQuiet rest := by
  simp [IsQuiet]

theorem IsQuiet.tail {chunk : Chunk} {rest : Reader} (h : IsQuiet (chunk :: rest)) :
    IsQuiet rest := fun others hmem => h others (List.mem_cons_of_mem _ hmem)

/-- The parts of some bytes are these bytes. -/
theorem buffersFull_flatten (data : Bytes) : (buffersFull data).flatten = data := by
  fun_induction buffersFull data with
  | case1 => rfl
  | case2 data hdata ih => rw [List.flatten_cons, ih, List.take_append_drop]

end Reader

/-! ## Which calls are made -/

namespace Routine

variable {C : Call → Prop}

theorem uses_writeAll {path : Path} {file : Descriptor} (hwrite : ∀ data, C (.write file data))
    (data : Bytes) : Uses C (writeAll path file data) := by
  fun_induction writeAll path file data with
  | case1 => exact uses_pure ()
  | case2 data hdata ih =>
    refine ⟨hwrite data, ?_⟩
    intro reply
    cases reply with
    | error e => trivial
    | ok written =>
      simp only
      split
      · trivial
      · rename_i hwritten
        exact ih written hwritten

theorem uses_forIn {α : Type} {sink : α → Routine Unit} (hsink : ∀ part, Uses C (sink part))
    (parts : List α) :
    Uses C (forIn parts PUnit.unit fun part _ => do
      sink part
      pure (ForInStep.yield PUnit.unit)) := by
  induction parts with
  | nil => exact uses_pure _
  | cons part parts ih =>
    rw [List.forIn_cons]
    refine uses_bind (uses_bind (hsink part) fun _ => uses_pure _) ?_
    intro step
    cases step with
    | done value => exact uses_pure _
    | yield value => exact ih

end Routine

theorem Reader.uses_copyTo {C : Call → Prop} {path : Path} {sink : Bytes → Routine Unit}
    (hsink : ∀ data, Routine.Uses C (sink data)) {reader : Reader} (hquiet : reader.IsQuiet) :
    Routine.Uses C (copyTo path sink reader) := by
  induction reader with
  | nil => exact Routine.uses_pure 0
  | cons chunk rest ih =>
    have hrest := ih hquiet.tail
    cases chunk with
    | bytes data =>
      rw [copyTo]
      split
      · exact Routine.uses_pure 0
      · exact Routine.uses_bind (Routine.uses_forIn hsink _) fun _ =>
          Routine.uses_bind hrest fun _ => Routine.uses_pure _
    | failure e =>
      rw [copyTo]
      split
      · exact hrest
      · exact Routine.uses_fail _
    | meanwhile others => exact absurd (List.mem_cons_self ..) (hquiet others)

/-! ## What a copying has done -/

/-- Whether a write of some bytes to a file failed, not because of a signal, or took none of
them. -/
inductive Event.Stalls (file : Descriptor) : Event → Prop where
  | failed {data : Bytes} {errno : Errno} {before after : Machine} (hdata : data ≠ [])
      (herrno : errno ≠ .interrupted) :
      Stalls file ⟨.write file data, .error errno, before, after⟩
  | idle {data : Bytes} {before after : Machine} (hdata : data ≠ []) :
      Stalls file ⟨.write file data, .ok 0, before, after⟩

/-- Whether `Does` can be said of bytes that are written to a file: of none where nothing happens,
of some and then others, and of those that a write has taken. -/
structure Transfers (fails : Call → Errno → Prop) (file : Descriptor)
    (Does : Bytes → Machine → List Event → Machine → Prop) : Prop where
  nil : ∀ m, Does [] m [] m
  append : ∀ {more more' : Bytes} {m m' m'' : Machine} {events events' : List Event},
    Does more m events m' → Does more' m' events' m'' →
      Does (more ++ more') m (events ++ events') m''
  write : ∀ {more : Bytes} {tries : List Event} {count : Nat} {m m' : Machine},
    (Call.write file more).Attempts fails true m tries (.ok count) m' →
      Does (more.take count) m tries m'

section Runs

variable {fails : Call → Errno → Prop} {file : Descriptor}
  {Does : Bytes → Machine → List Event → Machine → Prop} {m m' : Machine} {events : List Event}

/-- What has become of some bytes that were to be written: all of them were, or some from the front
until a write stalled. -/
inductive Passed (file : Descriptor) (Does : Bytes → Machine → List Event → Machine → Prop)
    (data : Bytes) (m : Machine) : List Event → Except Error Unit → Machine → Prop where
  | all {events : List Event} {m' : Machine} (h : Does data m events m') :
      Passed file Does data m events (.ok ()) m'
  | part {done : Bytes} {prior events : List Event} {e : Error} {m' : Machine}
      (hdone : done <+: data) (h : Does done m prior m') (he : e.operation = .write)
      (hstalls : ∃ event ∈ events, event.Stalls file) : Passed file Does data m events (.error e) m'

/-- Other bytes were written before. -/
theorem Passed.after {before data : Bytes} {between : Machine} {first : List Event}
    {outcome : Except Error Unit} (ht : Transfers fails file Does)
    (hbefore : Does before m first between) (h : Passed file Does data between events outcome m') :
    Passed file Does (before ++ data) m (first ++ events) outcome m' := by
  cases h with
  | all h => exact .all (ht.append hbefore h)
  | part hdone h he hstalls =>
    obtain ⟨event, hmem, hstalls⟩ := hstalls
    exact .part ((List.prefix_append_right_inj before).2 hdone) (ht.append hbefore h) he
      ⟨event, List.mem_append_right first hmem, hstalls⟩

/-- Writing bytes until none are left. -/
theorem Routine.writeAll_runs (ht : Transfers fails file Does) {path : Path} {data : Bytes}
    {outcome : Except Error Unit}
    (hrun : Runs fails (writeAll path file data) m events outcome m') :
    Passed file Does data m events outcome m' := by
  fun_induction writeAll path file data generalizing m events with
  | case1 =>
    obtain ⟨rfl, rfl, rfl⟩ := runs_pure_iff.1 hrun
    exact .all (ht.nil m')
  | case2 data hdata ih =>
    obtain ⟨tries, reply, after, rest, hcall, rfl, hrest⟩ := Program.runs_call_iff.1 hrun
    have hlast := hcall.last_mem
    cases reply with
    | error errno =>
      obtain ⟨rfl, rfl, rfl⟩ := Program.runs_done_iff.1 hrest
      rw [hcall.outcome.eq_of_error] at hlast ⊢
      refine .part List.nil_prefix (ht.nil m) rfl ⟨_, List.mem_append_left _ hlast, ?_⟩
      exact .failed hdata fun he => hcall.ne_interrupted (congrArg Except.error he)
    | ok written =>
      have hfirst := ht.write hcall
      simp only at hrest
      split at hrest
      · rename_i hwritten
        obtain ⟨rfl, rfl, rfl⟩ := Program.runs_done_iff.1 hrest
        subst hwritten
        exact .part (List.take_prefix 0 data) hfirst rfl
          ⟨_, List.mem_append_left _ hlast, .idle hdata⟩
      · rename_i hwritten
        have hpassed := (ih written hwritten hrest).after ht hfirst
        rwa [List.take_append_drop] at hpassed

/-- Writing parts until none are left. -/
theorem Routine.forIn_runs (ht : Transfers fails file Does) {path : Path} {parts : List Bytes}
    {outcome : Except Error PUnit}
    (hrun : Runs fails (forIn parts PUnit.unit fun part _ => do
      writeAll path file part
      pure (ForInStep.yield PUnit.unit)) m events outcome m') :
    Passed file Does parts.flatten m events outcome m' := by
  induction parts generalizing m events with
  | nil =>
    obtain ⟨rfl, rfl, rfl⟩ := runs_pure_iff.1 hrun
    exact .all (ht.nil m')
  | cons part parts ih =>
    rw [List.forIn_cons] at hrun
    rw [List.flatten_cons]
    rcases runs_bind_iff.1 hrun with
      ⟨e, rfl, hfirst⟩ | ⟨first, rest, between, step, rfl, hfirst, hrest⟩
    · rcases runs_bind_iff.1 hfirst with ⟨_, h, hpart⟩ | ⟨_, last, _, _, -, -, hlast⟩
      · cases h
        cases writeAll_runs ht hpart with
        | part hdone h he hstalls =>
          exact .part (hdone.trans (List.prefix_append part _)) h he hstalls
      · obtain ⟨-, h, -⟩ := runs_pure_iff.1 hlast
        cases h
    · obtain ⟨first, last, between', _, rfl, hpart, hlast⟩ := hfirst.bind_ok
      obtain ⟨rfl, hstep, rfl⟩ := runs_pure_iff.1 hlast
      cases hstep
      rw [List.append_nil]
      cases writeAll_runs ht hpart with
      | all h => exact (ih hrest).after ht h

namespace Reader

/-- What has become of a stream that delivers `data`, and then ends or fails, and was to be copied:
all of it was written; or all that came before a failure of the reader, which is reported for the
file at `path`; or some bytes from the front, until a write stalled. -/
inductive Copied (file : Descriptor) (path : Path)
    (Does : Bytes → Machine → List Event → Machine → Prop) (data : Bytes)
    (failure : Option IoError) (m : Machine) : List Event → Except Error Nat → Machine → Prop where
  | all {events : List Event} {m' : Machine} (hends : failure = none) (h : Does data m events m') :
      Copied file path Does data failure m events (.ok data.length) m'
  | unread {events : List Event} {e : IoError} {m' : Machine} (hfails : failure = some e)
      (h : Does data m events m') :
      Copied file path Does data failure m events (.error (.ofIo .read path e)) m'
  | unwritten {done : Bytes} {prior events : List Event} {e : Error} {m' : Machine}
      (hdone : done <+: data) (h : Does done m prior m') (he : e.operation = .write)
      (hstalls : ∃ event ∈ events, event.Stalls file) :
      Copied file path Does data failure m events (.error e) m'

/-- Other bytes were written before. -/
theorem Copied.after {path : Path} {before data : Bytes} {failure : Option IoError}
    {between : Machine} {first : List Event} {outcome : Except Error Nat}
    (ht : Transfers fails file Does) (hbefore : Does before m first between)
    (h : Copied file path Does data failure between events outcome m') :
    Copied file path Does (before ++ data) failure m (first ++ events)
      (outcome.map (before.length + ·)) m' := by
  cases h with
  | all hends h =>
    change Copied file path Does (before ++ data) failure m _ (.ok (before.length + data.length)) m'
    rw [← List.length_append]
    exact .all hends (ht.append hbefore h)
  | unread hfails h => exact .unread hfails (ht.append hbefore h)
  | unwritten hdone h he hstalls =>
    obtain ⟨event, hmem, hstalls⟩ := hstalls
    exact .unwritten ((List.prefix_append_right_inj before).2 hdone) (ht.append hbefore h) he
      ⟨event, List.mem_append_right first hmem, hstalls⟩

/-- Copying a stream to a file. -/
theorem copyTo_runs (ht : Transfers fails file Does) {path path' : Path} {reader : Reader}
    (hquiet : reader.IsQuiet) {outcome : Except Error Nat}
    (hrun : Routine.Runs fails (copyTo path (Routine.writeAll path' file) reader) m events outcome
      m') : Copied file path Does reader.delivered reader.failure? m events outcome m' := by
  induction reader generalizing m events outcome with
  | nil =>
    obtain ⟨rfl, rfl, rfl⟩ := Routine.runs_pure_iff.1 hrun
    exact .all rfl (ht.nil m')
  | cons chunk rest ih =>
    cases chunk with
    | bytes data =>
      rw [copyTo] at hrun
      rw [delivered, failure?]
      split at hrun
      · rename_i hdata
        obtain ⟨rfl, rfl, rfl⟩ := Routine.runs_pure_iff.1 hrun
        rw [if_pos hdata, if_pos hdata]
        exact .all rfl (ht.nil m')
      rename_i hdata
      rw [if_neg hdata, if_neg hdata]
      rcases Routine.runs_bind_iff.1 hrun with
        ⟨e, rfl, hfirst⟩ | ⟨first, tail, between, _, rfl, hfirst, htail⟩
      · have hparts := Routine.forIn_runs ht hfirst
        rw [buffersFull_flatten] at hparts
        cases hparts with
        | part hdone h he hstalls =>
          exact .unwritten (hdone.trans (List.prefix_append data _)) h he hstalls
      have hparts := Routine.forIn_runs ht hfirst
      rw [buffersFull_flatten] at hparts
      cases hparts with
      | all hdone =>
        rcases Routine.runs_bind_iff.1 htail with
          ⟨e, rfl, hrest⟩ | ⟨middle, last, between', count, rfl, hrest, hlast⟩
        · exact (ih hquiet.tail hrest).after ht hdone
        · obtain ⟨rfl, rfl, rfl⟩ := Routine.runs_pure_iff.1 hlast
          rw [List.append_nil]
          exact (ih hquiet.tail hrest).after ht hdone
    | failure e =>
      rw [copyTo] at hrun
      rw [delivered, failure?]
      split at hrun
      · rename_i he
        rw [if_pos he, if_pos he]
        exact ih hquiet.tail hrun
      · rename_i he
        obtain ⟨rfl, rfl, rfl⟩ := Routine.runs_fail_iff.1 hrun
        rw [if_neg he, if_neg he]
        exact .unread rfl (ht.nil m')
    | meanwhile others => exact absurd (List.mem_cons_self ..) (hquiet others)

/-- A copying that succeeds has written everything. -/
theorem copyTo_ok (ht : Transfers fails file Does) {path path' : Path} {reader : Reader}
    (hquiet : reader.IsQuiet) {count : Nat}
    (hrun : Routine.Runs fails (copyTo path (Routine.writeAll path' file) reader) m events
      (.ok count) m') : Does reader.delivered m events m' := by
  cases copyTo_runs ht hquiet hrun with
  | all _ h => exact h

end Reader

end Runs

/-! ## Bytes at the end of a file that is being prepared -/

/-- Whether a call writes to a file. -/
def Event.Writes (e : Event) (file : Descriptor) : Prop := ∃ part, e.call = .write file part

/-- What has happened when bytes were put at the end of a file that is being prepared, by writes
to it. -/
structure Stage.Appended (s : Stage) (more : Bytes) (m : Machine) (events : List Event)
    (m' : Machine) : Prop where
  /-- The bytes are at the end. -/
  at_end : ∀ {data perm}, s.At data perm m →
    s.At (data ++ more) (s.start.permAfter more perm) m'
  process : m'.process = m.process
  writes : ∀ e ∈ events, e.Writes s.file

namespace Stage.Appended

variable {s : Stage} {more more' : Bytes} {m m' m'' : Machine} {events events' : List Event}

theorem nil (s : Stage) (m : Machine) : s.Appended [] m [] m where
  at_end hat := by rwa [List.append_nil, Machine.permAfter_nil]
  process := rfl
  writes e he := by cases he

theorem append (h : s.Appended more m events m') (h' : s.Appended more' m' events' m'') :
    s.Appended (more ++ more') m (events ++ events') m'' where
  at_end hat := by
    have hat' := h'.at_end (h.at_end hat)
    rwa [List.append_assoc, Machine.permAfter_append] at hat'
  process := h'.process.trans h.process
  writes e he := (List.mem_append.1 he).elim (h.writes e) (h'.writes e)

/-- A write puts as many bytes there as it says. -/
theorem of_write {fails : Call → Errno → Prop} {restarts : Bool} {count : Nat}
    (h : (Call.write s.file more).Attempts fails restarts m events (.ok count) m') :
    s.Appended (more.take count) m events m' where
  at_end hat := by
    rcases h.outcome.write_eq_ok with hwrite | ⟨hcount, hwrite⟩
    · obtain ⟨rfl, hat'⟩ := hat.write hwrite
      rwa [List.take_length]
    · exact (hat.write hwrite).2
  process := h.outcome.process
  writes e he := by
    rcases h.eq_of_mem he with rfl | ⟨rfl, -⟩
    · exact ⟨more, rfl⟩
    · exact ⟨more, rfl⟩

end Stage.Appended

/-- Appending is what writes to the file do. -/
theorem Stage.Appended.transfers {fails : Call → Errno → Prop} (s : Stage) :
    Transfers fails s.file s.Appended where
  nil := .nil s
  append := .append
  write := .of_write

end PortableFiles
