import PortableFiles.Proofs.Kernel.Upkeep
import PortableFiles.Proofs.Writing.AtomicTandem
import PortableFiles.Proofs.Writing.Failure
set_option autoImplicit false

/-!
# Two platforms, one content

The POSIX platform and the WebAssembly platform do the same to the content of files.  Any writes and
renamings, made one after another on the one and on the other, succeed on both or fail on both with
errors of one kind, and after each of them both trees hold the same (`Edit.platforms_agree`).  What
may be different is permissions, and the names that atomic writes have for the moment.
-/

namespace PortableFiles

open Routine (InStep EndTogether)
open Renaming (keeping)

variable {P : Name → Prop} {m m' : Machine} {path : Path}

/-! ## Names after an atomic write -/

/-- An atomic write brings no name to a tree but that of its destination. -/
theorem Writing.Course.named {fails : Call → Errno → Prop} {reader : Reader} {options : Options}
    {events : List Event} {outcome : Except Error Unit}
    (h : Course fails m path reader options events outcome m')
    (hm : m.WellFormed) (hremoves : ∀ path errno, ¬ fails (.unlink path) errno)
    (hnamed : m.tree.Named P)
    (hplace : ∀ dir name, m.locate (fun _ => false) path = .ok (.entry dir name false) → P name) :
    m'.tree.Named P := by
  cases h with
  | unmade htree _ =>
    rw [htree]
    exact hnamed
  | abandoned hbegun _ hbetween hremoval =>
    obtain ⟨_, _, hsame⟩ := hbegun.same_of_removal hbetween hremoves hremoval
    exact (hnamed.addInode Stage.node_content).of_same hsame
  | refused hbegun p _ _ hremoval =>
    obtain ⟨_, _, hsame⟩ := hbegun.same_of_removal ⟨_, _, p.atEnd⟩ hremoves hremoval
    exact (hnamed.addInode Stage.node_content).of_same hsame
  | published hbegun p _ hrename =>
    obtain ⟨dir, name, hlocated, hdir, hsame⟩ := hbegun.same_of_rename hm p.atEnd hrename
    exact (hnamed.addEntry hdir (hplace dir name hlocated) Stage.node_content).of_same hsame

namespace Machine

/-- Machines that are alike up to one pair of names hold the same when the pair is gone. -/
theorem Paired.alike (h : Paired P m m') (hnamed : m.tree.Named P) : m.Alike (keeping P) m' := by
  obtain ⟨p, h⟩ := h
  exact { h with tree := h.tree.keeping_of_pairing hnamed }

/-- Where a path of kept names leads to a name, this is one of them. -/
theorem Alike.kept_of_locate (h : m.Alike (keeping P) m') (hpath : path.Named P)
    {follow : Bool → Bool} {dir : InodeId} {name : Name} {slash : Bool}
    (hplace : m.locate follow path = .ok (.entry dir name slash)) : P name := by
  have hagree := h.locate follow (Renaming.paths_keeping hpath)
  rw [hplace] at hagree
  generalize m'.locate follow path = r' at hagree
  cases hagree with
  | ok hplaces =>
    cases hplaces with
    | entry _ hn _ => exact hn.2

end Machine

namespace Writing

/-- An atomic write leaves machines that hold the same. -/
theorem inStep_atomicFromReader_keeping (hpath : path.Named P) {reader : Reader}
    (hquiet : reader.IsQuiet) (options : Options) :
    InStep (fun m m' => Machine.DrawApart P path.parentDir m m' ∧ m.WellFormed)
      (atomicFromReader Posix.platform path reader options)
      (atomicFromReader Wasi.platform path reader options)
      (fun _ _ => Machine.Alike (keeping P)) (Machine.Alike (keeping P)) := by
  refine (((inStep_atomicFromReader hpath hquiet options).mono_pre fun _ _ h => h.1).and_left
    ?_).mono (fun _ _ h => h) (fun _ _ _ _ h => h.1.alike h.2) fun _ _ h => h.1.alike h.2
  intro m m' h
  have hrun := Program.runs_run (fun _ _ => False)
    (atomicFromReader Posix.platform path reader options).outcome m
  exact (course_of_runs hquiet hrun).named h.2 (fun _ _ h => h) h.1.alike.tree.named
    fun _ _ hplace => h.1.alike.kept_of_locate hpath hplace

/-- So does a write whose options ask for one way or the other. -/
theorem inStep_fromReader_keeping (hpath : path.Named P) {reader : Reader} (hquiet : reader.IsQuiet)
    (mode : UInt32) (options : Options) {I : Machine → Machine → Prop}
    (hI : ∀ m m', I m m' → m.Alike (keeping P) m' ∧ m.WellFormed)
    (hatomic : options.atomically = true →
      ∀ m m', I m m' → Machine.DrawApart P path.parentDir m m') :
    InStep I (fromReader Posix.platform path reader mode options)
      (fromReader Wasi.platform path reader mode options)
      (fun _ _ => Machine.Alike (keeping P)) (Machine.Alike (keeping P)) := by
  by_cases hplace : options.atomically = true
  · unfold fromReader
    rw [if_pos hplace, if_pos hplace]
    exact (inStep_atomicFromReader_keeping hpath hquiet _).mono_pre fun m m' h =>
      ⟨hatomic hplace m m' h, (hI m m' h).2⟩
  · rw [Bool.not_eq_true] at hplace
    exact (inStep_fromReader (Renaming.paths_keeping hpath) hquiet mode hplace).mono_pre
      fun m m' h => (hI m m' h).1

end Writing

/-! ## Steps -/

/-- A write or a renaming. -/
inductive Edit where
  | writeBytes (path : Path) (data : Bytes) (mode : UInt32) (options : Options)
  | writeReader (path : Path) (reader : Reader) (mode : UInt32) (options : Options)
  | writeBytesAtomic (path : Path) (data : Bytes) (options : Options)
  | writeReaderAtomic (path : Path) (reader : Reader) (options : Options)
  | rename (source destination : Path)

namespace Edit

/-- What is done. -/
def routine (p : Platform) : Edit → Routine Unit
  | .writeBytes path data mode options => Writing.fromBytes p path data mode options
  | .writeReader path reader mode options => Writing.fromReader p path reader mode options
  | .writeBytesAtomic path data options => Writing.atomicFromBytes p path data options
  | .writeReaderAtomic path reader options => Writing.atomicFromReader p path reader options
  | .rename source destination => Operations.rename p source destination

/-- The paths that are mentioned. -/
def paths : Edit → List Path
  | .writeBytes path .. | .writeReader path .. | .writeBytesAtomic path ..
  | .writeReaderAtomic path .. => [path]
  | .rename source destination => [source, destination]

/-- The paths beside which new files are made under drawn names. -/
def besides : Edit → List Path
  | .writeBytes path _ _ options | .writeReader path _ _ options =>
    if options.atomically then [path] else []
  | .writeBytesAtomic path .. | .writeReaderAtomic path .. => [path]
  | .rename .. => []

/-- What is read. -/
def reader : Edit → Reader
  | .writeBytes _ data .. | .writeBytesAtomic _ data _ => [.bytes data]
  | .writeReader _ reader .. | .writeReaderAtomic _ reader _ => reader
  | .rename .. => []

/-- How steps that are made one after another end, and the tree after each of them. -/
def run (p : Platform) : List Edit → Machine → List (Except ErrorKind Unit × Tree)
  | [], _ => []
  | e :: rest, m =>
    let (outcome, m') := (e.routine p).run m
    (outcome.mapError Error.kind, m'.tree) :: run p rest m'

end Edit

namespace Machine

/-- Whether a name is none that the one or the other of two processes draws. -/
def Undrawn (m m' : Machine) (n : Name) : Prop := ∀ k, n ≠ m.tempName k ∧ n ≠ m'.tempName k

end Machine

/-- Whether a step has nothing to do with the names that two processes draw: it mentions none, and a
path with such a name in it is too long for both or for neither.  The latter is so for all paths if
both draw the same words.  Otherwise it leaves out the few paths with which a drawn name comes up to
the limit and a shorter one does not, where the same platform may end in two ways as well. -/
structure Edit.Apart (e : Edit) (m m' : Machine) : Prop where
  named : ∀ path ∈ e.paths, path.Named (m.Undrawn m')
  long_iff : ∀ path ∈ e.besides, ∀ k,
    (path.parentDir.join (m.tempName k)).bytes.length ≥ Tree.maxPath
      ↔ (path.parentDir.join (m'.tempName k)).bytes.length ≥ Tree.maxPath

/-- Where no path is close to too long, it is enough that no drawn name is mentioned. -/
theorem Edit.Apart.of_short {e : Edit}
    (hnamed : ∀ path ∈ e.paths, path.Named (m.Undrawn m'))
    (hshort : ∀ path ∈ e.besides, path.parentDir.bytes.length + 11 < Tree.maxPath) :
    e.Apart m m' where
  named := hnamed
  long_iff path hpath k := by
    have hjoin : ∀ n : Machine,
        ¬ (path.parentDir.join (n.tempName k)).bytes.length ≥ Tree.maxPath := fun n => by
      have hlength := Path.length_join_le path.parentDir (n.tempName k)
      have hname := n.length_tempName_le k
      have := hshort path hpath
      omega
    exact iff_of_false (hjoin m) (hjoin m')

/-- Whether two trees hold the same: every directory the same names, every file the same bytes and
every link the same target. -/
structure Tree.HoldsSame (t t' : Tree) : Prop where
  root : t.root = t'.root
  content? : ∀ id, t.content? id = t'.content? id

/-! ## Runs -/

/-- Nothing that a process does changes what it draws later. -/
theorem Program.draws_run {α : Type} (p : Program α) (m : Machine) :
    (p.run m).2.draws = m.draws := by
  refine ((p.runs_run (fun _ _ => False) m).invariant (C := fun _ => True)
    (I := fun n => n.draws = m.draws) ?_ ?_ p.uses_true rfl).1
  · intro c reply n n' _ houtcome hn
    exact (congrArg Process.draws houtcome.process).trans hn
  · intro q n hn
    cases q <;> exact hn

namespace Edit

variable {m₀ m₀' : Machine}

/-- What stays so between the steps of two runs that have begun on two machines. -/
structure Level (m₀ m₀' m m' : Machine) : Prop where
  alike : m.Alike (keeping (m₀.Undrawn m₀')) m'
  wellFormed : m.WellFormed
  draws : m.draws = m₀.draws
  draws' : m'.draws = m₀'.draws

theorem Level.drawApart (h : Level m₀ m₀' m m') (hlong : ∀ k,
    (path.parentDir.join (m₀.tempName k)).bytes.length ≥ Tree.maxPath
      ↔ (path.parentDir.join (m₀'.tempName k)).bytes.length ≥ Tree.maxPath) :
    Machine.DrawApart (m₀.Undrawn m₀') path.parentDir m m' := by
  have hname : ∀ k, m.tempName k = m₀.tempName k := fun k => by
    rw [Machine.tempName, h.draws, Machine.tempName]
  have hname' : ∀ k, m'.tempName k = m₀'.tempName k := fun k => by
    rw [Machine.tempName, h.draws', Machine.tempName]
  refine ⟨h.alike, fun k hk => ?_, fun k hk => ?_, fun k => ?_⟩
  · exact (hk k).1 (hname k)
  · exact (hk k).2 (hname' k)
  · rw [hname, hname']
    exact hlong k

/-- A step leaves machines that hold the same. -/
theorem inStep_routine {e : Edit} (he : e.Apart m₀ m₀') (hquiet : e.reader.IsQuiet) :
    InStep (Level m₀ m₀') (e.routine Posix.platform) (e.routine Wasi.platform)
      (fun _ _ => Machine.Alike (keeping (m₀.Undrawn m₀')))
      (Machine.Alike (keeping (m₀.Undrawn m₀'))) := by
  have hwrite : ∀ path reader mode options, path ∈ e.paths → reader.IsQuiet →
      (options.atomically = true → path ∈ e.besides) →
      InStep (Level m₀ m₀') (Writing.fromReader Posix.platform path reader mode options)
        (Writing.fromReader Wasi.platform path reader mode options)
        (fun _ _ => Machine.Alike (keeping (m₀.Undrawn m₀')))
        (Machine.Alike (keeping (m₀.Undrawn m₀'))) :=
      fun path reader mode options hmem hquiet hbeside =>
    Writing.inStep_fromReader_keeping (he.named path hmem) hquiet mode options
      (fun _ _ h => ⟨h.alike, h.wellFormed⟩)
      fun hatomic _ _ h => h.drawApart (he.long_iff path (hbeside hatomic))
  have hatomic : ∀ path reader options, path ∈ e.paths → reader.IsQuiet → path ∈ e.besides →
      InStep (Level m₀ m₀') (Writing.atomicFromReader Posix.platform path reader options)
        (Writing.atomicFromReader Wasi.platform path reader options)
        (fun _ _ => Machine.Alike (keeping (m₀.Undrawn m₀')))
        (Machine.Alike (keeping (m₀.Undrawn m₀'))) := fun path reader options hmem hquiet hbeside =>
    (Writing.inStep_atomicFromReader_keeping (he.named path hmem) hquiet options).mono_pre
      fun _ _ h => ⟨h.drawApart (he.long_iff path hbeside), h.wellFormed⟩
  have hmem : ∀ path : Path, path ∈ [path] := fun path => List.mem_singleton_self path
  cases e with
  | writeBytes path data mode options =>
    exact hwrite path _ mode options (hmem path) hquiet fun h => by
      rw [besides, if_pos h]
      exact hmem path
  | writeReader path reader mode options =>
    exact hwrite path reader mode options (hmem path) hquiet fun h => by
      rw [besides, if_pos h]
      exact hmem path
  | writeBytesAtomic path data options =>
    exact hatomic path _ options (hmem path) hquiet (hmem path)
  | writeReaderAtomic path reader options =>
    exact hatomic path reader options (hmem path) hquiet (hmem path)
  | rename source destination =>
    have hsource := he.named source (List.mem_cons_self ..)
    have hdestination := he.named destination (List.mem_cons_of_mem _ (hmem destination))
    exact (Operations.inStep_rename (Renaming.paths_keeping hsource)
      (Renaming.paths_keeping hdestination)).mono_pre fun _ _ h => h.alike

/-- A step keeps two machines level, and ends on both with success or with an error of one kind. -/
theorem Level.step (h : Level m₀ m₀' m m') {e : Edit} (he : e.Apart m₀ m₀')
    (hquiet : e.reader.IsQuiet) :
    ((e.routine Posix.platform).run m).1.mapError Error.kind
        = ((e.routine Wasi.platform).run m').1.mapError Error.kind
      ∧ Level m₀ m₀' ((e.routine Posix.platform).run m).2 ((e.routine Wasi.platform).run m').2 := by
  have hends := inStep_routine he hquiet m m' h
  have hrun := Program.runs_run (fun _ _ => False) (e.routine Posix.platform).outcome m
  have hwell := (hrun.wellFormed h.wellFormed).1
  have hdraws := ((e.routine Posix.platform).outcome.draws_run m).trans h.draws
  have hdraws' := ((e.routine Wasi.platform).outcome.draws_run m').trans h.draws'
  change ((e.routine Posix.platform).run m).2.WellFormed at hwell
  change ((e.routine Posix.platform).run m).2.draws = _ at hdraws
  change ((e.routine Wasi.platform).run m').2.draws = _ at hdraws'
  generalize (e.routine Posix.platform).run m = r, (e.routine Wasi.platform).run m' = r'
    at hends hwell hdraws hdraws'
  cases hends with
  | ok halike => exact ⟨rfl, halike, hwell, hdraws, hdraws'⟩
  | error hkind halike => exact ⟨congrArg Except.error hkind, halike, hwell, hdraws, hdraws'⟩

/-- Runs on two machines that are level end alike, step by step. -/
theorem Level.forall₂_run (h : Level m₀ m₀' m m') {edits : List Edit}
    (hedits : ∀ e ∈ edits, e.Apart m₀ m₀') (hquiet : ∀ e ∈ edits, e.reader.IsQuiet) :
    List.Forall₂ (fun r r' => r.1 = r'.1 ∧ r.2.HoldsSame r'.2) (run Posix.platform edits m)
      (run Wasi.platform edits m') := by
  induction edits generalizing m m' with
  | nil => exact .nil
  | cons e rest ih =>
    obtain ⟨hkind, hnext⟩ := h.step (hedits e List.mem_cons_self) (hquiet e List.mem_cons_self)
    refine .cons ⟨hkind, hnext.alike.tree.root, hnext.alike.tree.content?_eq⟩ ?_
    exact ih hnext (fun e he => hedits e (List.mem_cons_of_mem _ he))
      fun e he => hquiet e (List.mem_cons_of_mem _ he)

/-- Whatever writes and renamings are made one after another, each of them succeeds on the POSIX
platform and on the WebAssembly platform, or fails on both with an error of the same kind, and after
it both trees hold the same.  The tree may be any of directories, regular files and symbolic links;
permissions do not apply to the process; and what is drawn for new files, on the one platform and on
the other, is no name in use and none that a step mentions. -/
theorem platforms_agree {draws : Nat → UInt32} {edits : List Edit} (hm : m.WellFormed)
    (hplain : m.tree.Plain) (hwho : m.who.privileged = true)
    (hnamed : m.tree.Named (m.Undrawn (m.drawing draws)))
    (hedits : ∀ e ∈ edits, e.Apart m (m.drawing draws)) (hquiet : ∀ e ∈ edits, e.reader.IsQuiet) :
    List.Forall₂ (fun r r' => r.1 = r'.1 ∧ r.2.HoldsSame r'.2) (run Posix.platform edits m)
      (run Wasi.platform edits (m.drawing draws)) := by
  have hfiles : ∀ k, Option.Rel OpenFile.Alike (m.files.get? k) (m.files.get? k) := fun k => by
    cases m.files.get? k with
    | none => exact .none
    | some f => exact .some ⟨f.location, rfl⟩
  have hlevel : Level m (m.drawing draws) m (m.drawing draws) :=
    ⟨⟨hplain.alike hnamed, rfl, rfl, hwho, rfl, rfl, hfiles⟩, hm, rfl, rfl⟩
  exact hlevel.forall₂_run hedits hquiet

/-- A tree with a file, a link to it and an empty directory. -/
def deskTree : Tree where
  root := 0
  inodes := ⟨[
    (0, Machine.directory 0 0o755 .disk [("a", 1), ("l", 2), ("d", 3)]),
    (1, Machine.leaf (.file [104]) 0o600 .disk),
    (2, Machine.leaf (.symlink (Bytes.ofString "a")) 0o777 .disk),
    (3, Machine.directory 0 0o755 .disk [])]⟩

/-- A machine with this tree, on which permissions do not apply and the word seven is drawn. -/
def desk : Machine :=
  { Machine.small fun _ => 7 with tree := deskTree, cwd := 0, who := ⟨0, 0, true⟩ }

/-- More bytes for the file through the link, a new file that does not come about, another content
for the file, its move to the directory, and a move of what is gone. -/
def deskEdits : List Edit := [
  .writeBytes (.ofString "l") [105] 0o644 (Options.plain.withFlags (.single .append)),
  .writeReaderAtomic (.ofString "d/b") [.bytes [1, 2], .failure (.bare .other)] .plain,
  .writeBytesAtomic (.ofString "a") [106] (Options.plain.withFileMode 0o640),
  .rename (.ofString "a") (.ofString "d/c"),
  .rename (.ofString "a") (.ofString "b")]

/-- On this machine both platforms do the same, though one of them draws another word.  The second
and the last step fail, and the other ones succeed. -/
theorem platforms_agree_desk :
    ((run Posix.platform deskEdits desk).map fun r => r.1.isOk) = [true, false, true, true, false]
      ∧ List.Forall₂ (fun r r' => r.1 = r'.1 ∧ r.2.HoldsSame r'.2)
        (run Posix.platform deskEdits desk)
        (run Wasi.platform deskEdits (desk.drawing fun _ => 1234567)) := by
  have hundrawn : ∀ n,
      (n ≠ desk.tempName 0 && n ≠ (desk.drawing fun _ => 1234567).tempName 0) = true →
        desk.Undrawn (desk.drawing fun _ => 1234567) n := by
    intro n hn k
    have hzero : n ≠ desk.tempName 0 ∧ n ≠ (desk.drawing fun _ => 1234567).tempName 0 := by
      simpa using hn
    exact hzero
  have hnames : (deskEdits.all fun e => e.paths.all fun path =>
      (Route.ofBytes path.bytes).allNamed fun n =>
        n ≠ desk.tempName 0 && n ≠ (desk.drawing fun _ => 1234567).tempName 0) = true := by
    decide +kernel
  have hshort : (deskEdits.all fun e => e.besides.all fun path =>
      path.parentDir.bytes.length + 11 < Tree.maxPath) = true := by decide +kernel
  refine ⟨by decide +kernel, platforms_agree ⟨Tree.wellFormed_of_isWellFormed (by decide +kernel),
    by decide +kernel⟩ (Tree.plain_of_isPlain (by decide +kernel)) rfl
    (Tree.named_of_allNamed (by decide +kernel) hundrawn) ?_ ?_⟩
  · intro e he
    refine .of_short (fun path hpath => ?_) fun path hpath => ?_
    · exact Route.named_of_allNamed
        (List.all_eq_true.1 (List.all_eq_true.1 hnames e he) path hpath) hundrawn
    · simpa using List.all_eq_true.1 (List.all_eq_true.1 hshort e he) path hpath
  · intro e he others hothers
    simp only [deskEdits, List.mem_cons, List.not_mem_nil, or_false] at he
    rcases he with rfl | rfl | rfl | rfl | rfl <;> simp [reader] at hothers

end Edit

end PortableFiles
