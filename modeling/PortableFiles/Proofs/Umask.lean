import PortableFiles.Proofs.Kernel.Opening
import PortableFiles.Proofs.Writing.Permissions
import PortableFiles.Session.Start
set_option autoImplicit false

/-!
# Two stores of the mask

A process that asks for the mask and sets it cannot tell whether the system keeps the mask
(`Umask.ofSystem`, `Umask.setSystem`) or the process alone (`Umask.ofProcess`, `Umask.setProcess`).
Both are stores of one value (`Umask.IsStore`), and what a store answers to a list of requests is
known (`Umask.IsStore.serves`).  The system's store has two places; the invariant is that the
remembered word, where there is one, is the system's mask (`Umask.SystemHolds`).
-/

namespace PortableFiles

/-- What other things that happen on a machine leave alone: the mask, the remembered word and the
environment. -/
structure Machine.KeepsMask (m m' : Machine) : Prop where
  mask : m'.mask = m.mask
  rememberedMask : m'.rememberedMask = m.rememberedMask
  environment : m'.environment = m.environment

namespace Umask

/-! ## Requests, and what a store of one value answers -/

/-- A request for the mask. -/
inductive Request where
  | read
  | set (mask : UInt32)

/-- The mask that a request sets. -/
def Request.mask? : Request → Option UInt32
  | .read => none
  | .set mask => some mask

/-- The mask after some requests: the last one that was set, without the bits that a mask cannot
have, or else the first one. -/
def inForce (start : UInt32) (requests : List Request) : UInt32 :=
  ((requests.filterMap Request.mask?).getLast?.map (· &&& bits)).getD start

/-- The answers to some requests: each gives the mask in force before it. -/
def answers (start : UInt32) (requests : List Request) : List UInt32 :=
  (List.range requests.length).map fun k => inForce start (requests.take k)

theorem inForce_nil (start : UInt32) : inForce start [] = start := rfl

theorem inForce_read (start : UInt32) (rest : List Request) :
    inForce start (.read :: rest) = inForce start rest := rfl

theorem inForce_set (start mask : UInt32) (rest : List Request) :
    inForce start (.set mask :: rest) = inForce (mask &&& bits) rest := by
  simp only [inForce, List.filterMap_cons, Request.mask?]
  cases hrest : rest.filterMap Request.mask? with
  | nil => rfl
  | cons next more =>
    rw [List.getLast?_cons_cons, List.getLast?_eq_some_getLast (List.cons_ne_nil next more)]
    rfl

/-- The mask after one request. -/
def Request.next (inForce : UInt32) : Request → UInt32
  | .read => inForce
  | .set mask => mask &&& bits

theorem inForce_cons (start : UInt32) (r : Request) (rest : List Request) :
    inForce start (r :: rest) = inForce (r.next start) rest := by
  cases r with
  | read => exact inForce_read start rest
  | set mask => exact inForce_set start mask rest

theorem answers_cons (start : UInt32) (r : Request) (rest : List Request) :
    answers start (r :: rest) = start :: answers (r.next start) rest := by
  simp only [answers, List.length_cons, List.range_succ_eq_map, List.map_cons, List.take_zero,
    inForce_nil, List.map_map]
  refine congrArg (start :: ·) (List.map_congr_left fun k _ => ?_)
  rw [Function.comp, List.take_succ_cons, inForce_cons]

/-! ## Stores -/

/-- A process makes requests, one after another, and `serve` answers them.  Between two of them
anything may happen that leaves the mask alone. -/
inductive Serves (serve : Request → Program UInt32) :
    Machine → List Request → List UInt32 → Machine → Prop where
  | idle {m m' : Machine} (h : m.KeepsMask m') : Serves serve m [] [] m'
  | request {m now m' : Machine} {r : Request} {rest : List Request} {answered : List UInt32}
      (h : m.KeepsMask now) (hrest : Serves serve ((serve r).run now).2 rest answered m') :
      Serves serve m (r :: rest) (((serve r).run now).1 :: answered) m'

/-- `serve` keeps one value, which the machines hold as `Holds` says. -/
structure IsStore (serve : Request → Program UInt32) (Holds : UInt32 → Machine → Prop) : Prop where
  kept : ∀ {mask m m'}, Holds mask m → m.KeepsMask m' → Holds mask m'
  served : ∀ {mask m} (r : Request), Holds mask m →
    ((serve r).run m).1 = mask ∧ Holds (r.next mask) ((serve r).run m).2

/-- A store gives the answers that are known, and in the end holds the mask in force. -/
theorem IsStore.serves {serve : Request → Program UInt32} {Holds : UInt32 → Machine → Prop}
    (hstore : IsStore serve Holds) {m m' : Machine} {requests : List Request}
    {answered : List UInt32} (hserves : Serves serve m requests answered m') {start : UInt32}
    (h : Holds start m) :
    answered = answers start requests ∧ Holds (inForce start requests) m' := by
  induction hserves generalizing start with
  | idle hkeeps => exact ⟨rfl, hstore.kept h hkeeps⟩
  | @request m now m' r rest answered hkeeps _ ih =>
    obtain ⟨hanswer, hnext⟩ := hstore.served r (hstore.kept h hkeeps)
    obtain ⟨hrest, hend⟩ := ih hnext
    rw [answers_cons, inForce_cons, hanswer, hrest]
    exact ⟨rfl, hend⟩

/-! ## The system's store -/

/-- The requests to the system. -/
def serveSystem : Request → Program UInt32
  | .read => ofSystem
  | .set mask => setSystem mask

/-- The system's mask is `mask`, and so is the remembered one, if there is one. -/
structure SystemHolds (mask : UInt32) (m : Machine) : Prop where
  system : m.mask = mask
  bounded : mask &&& bits = mask
  mirrors : ∀ remembered, m.rememberedMask = some remembered → remembered = mask

variable {m : Machine} {mask : UInt32}

/-- The mask of a system is read, or another one is set and the first is set again. -/
theorem readSystem_run (hbounded : m.mask &&& bits = m.mask) : readSystem.run m = (m.mask, m) := by
  rw [readSystem, Program.run_bind, readStatus_run]
  by_cases hopen : m.mayOpen = true
  · rw [if_pos hopen]
    rfl
  · rw [if_neg hopen]
    have hback : (m.mask, { m with mask := m.mask &&& bits }) = (m.mask, m) := by rw [hbounded]
    exact hback

/-- Reading changes nothing but that the mask is remembered. -/
theorem ofSystem_run (h : SystemHolds mask m) :
    ofSystem.run m = (mask, { m with rememberedMask := some mask }) := by
  have hrecall : (Program.question .recallMask).run m = (m.rememberedMask, m) := rfl
  rw [ofSystem, Program.run_bind, hrecall]
  cases hword : m.rememberedMask with
  | some remembered =>
    obtain rfl := h.mirrors remembered hword
    have hsame : { m with rememberedMask := some remembered } = m := by rw [← hword]
    rw [hsame]
    rfl
  | none =>
    have hread := readSystem_run (m := m) (by rw [h.system]; exact h.bounded)
    rw [h.system] at hread
    simp only
    rw [Program.run_bind, hread]
    rfl

theorem isStore_system : IsStore serveSystem SystemHolds where
  kept h hkeeps :=
    ⟨hkeeps.mask.trans h.system, h.bounded, fun r hr => h.mirrors r (hkeeps.rememberedMask ▸ hr)⟩
  served r h := by
    cases r with
    | read =>
      rw [serveSystem, ofSystem_run h]
      exact ⟨rfl, h.system, h.bounded, fun _ hr => (Option.some.inj hr).symm⟩
    | set mask =>
      refine ⟨h.system, ?_, ?_, fun _ hr => (Option.some.inj hr).symm⟩
      · change mask &&& bits &&& bits = mask &&& bits
        rw [UInt32.and_assoc, UInt32.and_self]
      · change mask &&& bits &&& bits = mask &&& bits
        rw [UInt32.and_assoc, UInt32.and_self]

/-! ## The process's store -/

/-- The requests to the process alone. -/
def serveProcess : Request → Program UInt32
  | .read => ofProcess
  | .set mask => setProcess mask

/-- The first mask of a process that has its own: what the environment says. -/
def environmentMask (m : Machine) : UInt32 :=
  (((m.environment.find? fun v => v.1 = "UMASK").map (·.2)).bind parse).getD standard

/-- The remembered mask is `mask`, or the one that would be remembered. -/
def ProcessHolds (mask : UInt32) (m : Machine) : Prop :=
  m.rememberedMask.getD (environmentMask m) = mask

theorem ofProcess_run (h : ProcessHolds mask m) :
    ofProcess.run m = (mask, { m with rememberedMask := some mask }) := by
  have hrecall : (Program.question .recallMask).run m = (m.rememberedMask, m) := rfl
  rw [ofProcess, Program.run_bind, hrecall]
  unfold ProcessHolds at h
  cases hword : m.rememberedMask with
  | some remembered =>
    rw [hword] at h
    obtain rfl := h
    have hsame : { m with rememberedMask := some remembered } = m := by rw [← hword]
    simp only [Option.getD_some, hsame]
    rfl
  | none =>
    rw [hword] at h
    obtain rfl := h
    rfl

theorem isStore_process : IsStore serveProcess ProcessHolds where
  kept h hkeeps := by
    rw [ProcessHolds, environmentMask, hkeeps.rememberedMask, hkeeps.environment]
    exact h
  served r h := by
    cases r with
    | read =>
      rw [serveProcess, ofProcess_run h]
      exact ⟨rfl, rfl⟩
    | set mask =>
      rw [serveProcess, setProcess, Program.run_bind, ofProcess_run h]
      exact ⟨rfl, rfl⟩

/-! ## Both -/

/-- A mask has no other bits than these. -/
theorem and_bits_of_le (h : mask ≤ bits) : mask &&& bits = mask := by
  apply UInt32.toNat_inj.1
  have hle : mask.toNat ≤ 511 := UInt32.le_iff_toNat_le.1 h
  rw [UInt32.toNat_and, show bits.toNat = 2 ^ 9 - 1 from rfl, Nat.and_two_pow_sub_one_eq_mod]
  exact Nat.mod_eq_of_lt (by omega)

/-- Where nobody keeps the permissions of a replaced file, the options choose for a new file what
the system would give it. -/
theorem finalPerm_eq_masked {fails : Call → Errno → Prop} {m' : Machine} {events : List Event}
    {destination : Path} {options : Options} {created mode perm : UInt32}
    (h : SystemHolds mask m) (hmode : options.fileMode = none)
    (hkeep : options.keepFileMode = true → ∀ stat, m.stat destination true ≠ .ok (stat, m))
    (hrun : Routine.Runs fails
      (Writing.finalPerm Posix.platform destination (options.withDefaultFileMode mode) created) m
      events (.ok perm) m') :
    perm = m.masked mode := by
  obtain ⟨kept, hlooked, rfl, -⟩ := Writing.finalPerm_ok hrun
  have hkept : kept = none := by
    cases hlooked with
    | spared _ => rfl
    | found hasked hfound => exact absurd hfound (hkeep hasked.2 _)
    | missing _ _ => rfl
  have hknown : m.umask = m.mask := by
    unfold Machine.umask
    cases hword : m.rememberedMask with
    | none => rfl
    | some remembered => exact (h.mirrors remembered hword).trans h.system.symm
  simp [Options.chosenPerm, Options.withDefaultFileMode, hmode, hkept, hknown, Machine.masked]

/-- A process cannot tell the two stores apart.

From any mask, the system's store (from its mask, nothing remembered) and the process's (from its
environment or what it remembers) give the same answers to the same requests: setting gives the
mask before, and reading the last one that was set.  Whenever the system's store is left alone, a
remembered mask is the system's, and reading leaves the system's as it is.  So a file for which
`mode` is asked gets from the system the permissions that an atomic write computes for it. -/
theorem stores_alike {start : UInt32} {system system' own own' : Machine}
    {requests : List Request} {answered answered' : List UInt32} (hstart : start ≤ bits)
    (hmask : system.mask = start) (hnew : system.rememberedMask = none)
    (hown : own.rememberedMask.getD (environmentMask own) = start)
    (hsystem : Serves serveSystem system requests answered system')
    (hprocess : Serves serveProcess own requests answered' own') :
    answered = answers start requests ∧ answered' = answers start requests ∧
    system'.mask = inForce start requests ∧
    (∀ remembered, system'.rememberedMask = some remembered → remembered = system'.mask) ∧
    (ofSystem.run system').1 = system'.mask ∧ (ofSystem.run system').2.mask = system'.mask ∧
    (∀ {path : Path} {how : OpenHow} {mode : UInt32} {file : Descriptor} {after : Machine}
        {id : InodeId} {node : Inode} {fails : Call → Errno → Prop} {destination : Path}
        {options : Options} {created perm : UInt32} {events : List Event} {m' : Machine},
      system'.openFile path how mode = .ok (file, after) →
      system'.tree.inode? id = none → after.tree.inode? id = some node →
      options.fileMode = none →
      (options.keepFileMode = true →
        ∀ stat, system'.stat destination true ≠ .ok (stat, system')) →
      Routine.Runs fails
        (Writing.finalPerm Posix.platform destination (options.withDefaultFileMode mode) created)
        system' events (.ok perm) m' →
      perm = node.perm) := by
  have hholds : SystemHolds start system :=
    ⟨hmask, and_bits_of_le hstart, fun r hr => by rw [hnew] at hr; cases hr⟩
  obtain ⟨hanswered, hend⟩ := isStore_system.serves hsystem hholds
  obtain ⟨hanswered', -⟩ := isStore_process.serves hprocess hown
  have hread := ofSystem_run hend
  refine ⟨hanswered, hanswered', hend.system, ?_, ?_, ?_, ?_⟩
  · intro remembered hword
    rw [hend.mirrors remembered hword, hend.system]
  · rw [hread, hend.system]
  · rw [hread]
  · intro path how mode file after id node fails destination options created perm events m' hopen
      hbefore hafter hmode hkeep hrun
    rw [Machine.perm_of_openFile hopen hbefore hafter, finalPerm_eq_masked hend hmode hkeep hrun]

/-- A process whose system keeps `0o027`. -/
def masked : Machine := { Machine.small (fun _ => 7) with mask := 0o027 }

/-- A process that is told `0o027` by its environment. -/
def advised : Machine := { Machine.small (fun _ => 7) with environment := [("UMASK", " 0o027")] }

/-- A mask is read, one with more bits than a mask has is set, and the mask is read again.  At the
first reading the process can open no file, so the system's mask is exchanged for a moment. -/
theorem stores_alike_masked :
    ∃ answered answered' system' own',
      Serves serveSystem masked [.read, .set 0o70750, .read] answered system' ∧
      Serves serveProcess advised [.read, .set 0o70750, .read] answered' own' ∧
      answered = [0o027, 0o027, 0o750] ∧ answered' = answered ∧ system'.mask = 0o750 := by
  have hsystem : Serves serveSystem masked [.read, .set 0o70750, .read] _ _ :=
    .request (show masked.KeepsMask { masked with mayOpen := false } from ⟨rfl, rfl, rfl⟩)
      (.request ⟨rfl, rfl, rfl⟩ (.request ⟨rfl, rfl, rfl⟩ (.idle ⟨rfl, rfl, rfl⟩)))
  have hprocess : Serves serveProcess advised [.read, .set 0o70750, .read] _ _ :=
    .request ⟨rfl, rfl, rfl⟩ (.request ⟨rfl, rfl, rfl⟩ (.request ⟨rfl, rfl, rfl⟩
      (.idle ⟨rfl, rfl, rfl⟩)))
  obtain ⟨hanswered, hanswered', hmask, -⟩ := stores_alike
    (show (0o027 : UInt32) ≤ bits by decide) rfl rfl (by decide +kernel) hsystem hprocess
  exact ⟨_, _, _, _, hsystem, hprocess, hanswered.trans (by decide), hanswered'.trans
    hanswered.symm, hmask.trans (by decide)⟩

end Umask

end PortableFiles
