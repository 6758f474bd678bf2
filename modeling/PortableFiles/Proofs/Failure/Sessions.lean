import PortableFiles.Proofs.Failure.Origins
import PortableFiles.Session.Start
set_option autoImplicit false

/-!
# Errors that sessions show

Every error that a session on a POSIX system shows arises in one of the ways of this library, also
those that metadata keep from an earlier action: each action preserves this
(`Session.Sound.step`), and so does every list of actions.  Hence no kind is lost when errors are
handed on (`Error.kinds_survive`).
-/

namespace PortableFiles

open Routine Error

variable {p : Platform}

/-! ## Metadata -/

namespace FileInfo

variable {info : FileInfo}

theorem forall_errors_iff {P : Error → Prop} :
    (∀ e ∈ info.errors, P e) ↔ (∀ e ∈ info.btime.error?, P e)
      ∧ (∀ e ∈ info.changeTime.error?, P e) ∧ ∀ e ∈ info.owner.error?, P e := by
  simp only [errors, List.mem_append, Option.mem_toList, Option.mem_def, or_imp, forall_and,
    and_assoc]

/-- The error of metadata is one of those that they hold. -/
theorem mem_errors_of_error? {e : Error} (h : info.error? = some e) : e ∈ info.errors := by
  unfold error? at h
  simp only [errors, List.mem_append, Option.mem_toList]
  cases hbtime : info.btime.error? with
  | some e' => simp_all
  | none => cases hchangeTime : info.changeTime.error? <;> simp_all

end FileInfo

/-- After an access a cell holds no error but its own or that of its resolver. -/
theorem Lazy.gives_access {α : Type} {P : Error → Prop} {cell : Lazy α}
    {resolver : Program (Except Error α)} (hcell : ∀ e ∈ cell.error?, P e)
    (h : Raises P (Routine.ofOutcome resolver)) :
    (cell.access resolver).Gives fun now => ∀ e ∈ now.error?, P e := by
  cases cell with
  | unresolved =>
    refine Program.Gives.bind h fun result hresult => ?_
    cases result with
    | ok value => exact fun e he => by cases he
    | error e =>
      intro e' he
      obtain rfl := Option.mem_some_iff.1 he
      exact hresult
  | resolved value => exact hcell
  | failed e => exact hcell

namespace FileInfo

variable {info : FileInfo} (hp : p.Raises Arises) (hinfo : ∀ e ∈ info.errors, e.Arises)

include hp hinfo

theorem gives_readBtime :
    (info.readBtime p.resolvers).Gives fun x => ∀ e ∈ x.2.errors, e.Arises := by
  obtain ⟨hbtime, hrest⟩ := forall_errors_iff.1 hinfo
  unfold readBtime
  split
  · exact (Lazy.gives_access hbtime (hp.btime info)).bind fun cell hcell =>
      forall_errors_iff.2 ⟨hcell, hrest⟩
  · exact hinfo

theorem gives_readChangeTime :
    (info.readChangeTime p.resolvers).Gives fun x => ∀ e ∈ x.2.errors, e.Arises := by
  obtain ⟨hbtime, hchangeTime, howner⟩ := forall_errors_iff.1 hinfo
  exact (Lazy.gives_access hchangeTime (hp.changeTime info)).bind fun cell hcell =>
    forall_errors_iff.2 ⟨hbtime, hcell, howner⟩

theorem gives_readOwner :
    (info.readOwner p.resolvers).Gives fun x => ∀ e ∈ x.2.errors, e.Arises := by
  obtain ⟨hbtime, hchangeTime, howner⟩ := forall_errors_iff.1 hinfo
  exact (Lazy.gives_access howner (hp.owner info)).bind fun cell hcell =>
    forall_errors_iff.2 ⟨hbtime, hchangeTime, hcell⟩

end FileInfo

/-! ## Sessions -/

/-- The error of an outcome, if it has one. -/
def failures {α : Type} : Except Error α → List Error
  | .ok _ => []
  | .error e => [e]

/-- The errors that an answer shows. -/
def Answer.errors : Answer → List Error
  | .failed e => [e]
  | .found info | .shown info | .foreign info _ => info.errors
  | .rawWrite write sync perm _ finish =>
    failures write ++ failures sync ++ failures perm ++ (finish.map failures).getD []
  | .errorOf e => e.toList
  | _ => []

namespace Session

/-- Whether the errors of a session arise in the ways of this library: those with which its platform
can fail, and those that its metadata hold. -/
structure Sound (s : Session) : Prop where
  platform : s.platform.Raises Arises
  infos : ∀ name info, s.infos.get? name = some info → ∀ e ∈ info.errors, e.Arises

/-- Whether the errors that an answer shows arise like this, and those of the session after it. -/
def Accounted (x : Answer × Session) : Prop := (∀ e ∈ x.1.errors, e.Arises) ∧ x.2.Sound

variable {s : Session}

theorem gives_failures {α : Type} {t : Routine α} (ht : Raises Arises t) :
    t.outcome.Gives fun result => ∀ e ∈ failures result, e.Arises := by
  refine Program.Gives.mono ht fun result hresult => ?_
  cases result with
  | ok value => exact fun e he => by cases he
  | error e =>
    intro e' he
    obtain rfl := List.mem_singleton.1 he
    exact hresult

theorem gives_rawWrite {path : Path} {new : Bool} {flags : OpenFlags} {mode : UInt32}
    {data : Bytes} {close : Bool} (hp : p.Raises Arises) :
    (rawWrite p path new flags mode data close).Gives fun a => ∀ e ∈ a.errors, e.Arises := by
  have hopen : Raises Arises (if new then p.createNew path (mode &&& permMask) flags
      else p.create path (mode &&& permMask) flags) := by
    split
    · exact hp.createNew _ _ _
    · exact hp.create _ _ _
  refine (gives_failures hopen).bind fun opened hopened => ?_
  cases opened with
  | error e => exact hopened
  | ok writer =>
    refine (gives_failures (hp.writeAll writer data)).bind fun written hwritten =>
      (gives_failures (hp.sync writer)).bind fun synced hsynced =>
      (gives_failures (hp.perm writer)).bind fun perm hperm => ?_
    have hbefore : ∀ e ∈ failures written ++ failures synced ++ failures perm, e.Arises := by
      simp only [List.mem_append, or_imp, forall_and]
      exact ⟨⟨hwritten, hsynced⟩, hperm⟩
    split
    · refine (gives_failures (hp.close writer)).bind fun closed hclosed => ?_
      exact fun e he => (List.mem_append.1 he).elim (hbefore e) (hclosed e)
    · refine Program.gives_bind fun _ => ?_
      exact fun e he => (List.mem_append.1 he).elim (hbefore e) fun h => by cases h

theorem gives_inquire {info : FileInfo} (hp : p.Raises Arises)
    (hinfo : ∀ e ∈ info.errors, e.Arises) (inquiry : Inquiry) :
    (inquire p info inquiry).Gives fun x =>
      (∀ e ∈ x.1.errors, e.Arises) ∧ ∀ e ∈ x.2.errors, e.Arises := by
  have hnone : ∀ {a : Answer}, a.errors = [] → ∀ e ∈ a.errors, e.Arises := by
    intro a ha e he
    rw [ha] at he
    cases he
  cases inquiry with
  | summary => exact ⟨hinfo, hinfo⟩
  | owner =>
    exact (FileInfo.gives_readOwner hp hinfo).bind fun read hread => ⟨hnone rfl, hread⟩
  | times => exact ⟨hnone rfl, hinfo⟩
  | btime =>
    exact (FileInfo.gives_readBtime hp hinfo).bind fun first hfirst =>
      (FileInfo.gives_readBtime hp hfirst).bind fun second hsecond => ⟨hnone rfl, hsecond⟩
  | changeTime =>
    exact (FileInfo.gives_readChangeTime hp hinfo).bind fun read hread => ⟨hnone rfl, hread⟩
  | error =>
    refine ⟨fun e he => hinfo e (FileInfo.mem_errors_of_error? ?_), hinfo⟩
    exact Option.mem_toList.1 he
  | states => exact ⟨hnone rfl, hinfo⟩
  | foreign path =>
    refine Program.gives_bind fun look => ?_
    cases look with
    | error e => exact ⟨hnone rfl, hinfo⟩
    | ok stat => exact ⟨hinfo, hinfo⟩

namespace Sound

variable (hs : s.Sound)

include hs

/-- A program changes nothing but the machine. -/
theorem after {α : Type} (program : Program α) : (s.after program).2.Sound :=
  ⟨hs.platform, hs.infos⟩

theorem insert {name : String} {info : FileInfo} (hinfo : ∀ e ∈ info.errors, e.Arises) :
    Sound { s with infos := s.infos.insert name info } := by
  refine ⟨hs.platform, fun name' info' hget => ?_⟩
  rw [FinMap.get?_insert] at hget
  split at hget
  · obtain rfl := Option.some.inj hget
    exact hinfo
  · exact hs.infos name' info' hget

theorem accounted_of_errors_eq_nil {a : Answer} (ha : a.errors = []) : Accounted (a, s) := by
  refine ⟨fun e he => ?_, hs⟩
  rw [ha] at he
  cases he

theorem accounted_after {program : Program Answer}
    (h : program.Gives fun a => ∀ e ∈ a.errors, e.Arises) : Accounted (s.after program) :=
  ⟨h.run s.machine, hs.after program⟩

/-- An answer that shows the error of a routine. -/
theorem accounted_of_routine {α : Type} {t : Routine α} {answer : Except Error α → Answer}
    (ht : Raises Arises t) (hanswer : ∀ result, (answer result).errors = failures result) :
    Accounted (answer (s.after t.outcome).1, (s.after t.outcome).2) := by
  refine ⟨?_, hs.after t.outcome⟩
  rw [hanswer]
  exact (gives_failures ht).run s.machine

theorem accounted_doneOr {t : Routine Unit} (ht : Raises Arises t) :
    Accounted (doneOr (s.after t.outcome).1, (s.after t.outcome).2) :=
  hs.accounted_of_routine ht fun result => by cases result <;> rfl

theorem accounted_truthOr {t : Routine Bool} (ht : Raises Arises t) :
    Accounted (truthOr (s.after t.outcome).1, (s.after t.outcome).2) :=
  hs.accounted_of_routine ht fun result => by cases result <;> rfl

theorem accounted_foundOr {t : Routine FileInfo} {keepAs : Option String}
    (ht : Routine.EndsIn (fun info => info.errors = []) Arises t) :
    Accounted ((s.after t.outcome).2.foundOr keepAs (s.after t.outcome).1) := by
  have hresult := Program.Gives.run ht s.machine
  change Accounted ((s.after t.outcome).2.foundOr keepAs (t.outcome.run s.machine).1)
  cases hrun : (t.outcome.run s.machine).1 with
  | error e =>
    rw [hrun] at hresult
    refine ⟨fun e' he => ?_, hs.after t.outcome⟩
    obtain rfl := List.mem_singleton.1 he
    exact hresult
  | ok info =>
    rw [hrun] at hresult
    have hinfo : ∀ e ∈ info.errors, e.Arises := by
      intro e he
      rw [show info.errors = [] from hresult] at he
      cases he
    refine ⟨hinfo, ?_⟩
    cases keepAs with
    | none => exact hs.after t.outcome
    | some name => exact (hs.after t.outcome).insert hinfo

theorem accounted_inquire (name : String) (inquiry : Inquiry) :
    Accounted (s.step (.inquire name inquiry)) := by
  dsimp only [Session.step]
  split
  · split <;> exact (hs.after (look _)).accounted_of_errors_eq_nil rfl
  · exact hs.accounted_of_errors_eq_nil rfl
  · rename_i info hget
    have hgives (inquiry : Inquiry) :=
      (gives_inquire hs.platform (hs.infos name info hget) inquiry).run s.machine
    exact ⟨(hgives _).1, (hs.after _).insert (hgives _).2⟩

/-- One action of a session. -/
theorem step (a : Action) : Accounted (s.step a) := by
  have hp := hs.platform
  cases a with
  | write path reader mode options =>
    exact hs.accounted_doneOr (Writing.raises_fromReader hp reader mode options)
  | writeAtomic path reader options =>
    exact hs.accounted_doneOr (Writing.raises_atomicFromReader hp reader options)
  | rawWrite path new flags mode data close => exact hs.accounted_after (gives_rawWrite hp)
  | chmod path mode => exact hs.accounted_doneOr (Operations.raises_chmod hp)
  | rename source destination => exact hs.accounted_doneOr (Operations.raises_rename hp)
  | symlink target link options => exact hs.accounted_doneOr (Operations.raises_symlink hp)
  | stat path keepAs => exact hs.accounted_foundOr (hp.stat path)
  | lstat path keepAs => exact hs.accounted_foundOr (hp.lstat path)
  | fstat handle keepAs =>
    rw [Session.step]
    cases s.handles.get? handle with
    | none => exact hs.accounted_of_errors_eq_nil rfl
    | some file => exact hs.accounted_foundOr (Operations.endsIn_fstat hp)
  | fstatNumber number => exact hs.accounted_foundOr (Operations.endsIn_fstat hp)
  | sameFiles a b => exact hs.accounted_truthOr (Operations.raises_compare hp)
  | samePartitions a b => exact hs.accounted_truthOr (Operations.raises_compare hp)
  | same a b =>
    rw [Session.step]
    split <;> exact hs.accounted_of_errors_eq_nil rfl
  | umask => exact (hs.after _).accounted_of_errors_eq_nil rfl
  | setUmask mask => exact ((hs.after _).after _).accounted_of_errors_eq_nil rfl
  | ids =>
    refine hs.accounted_after ?_
    exact Program.gives_bind fun user => Program.gives_bind fun group =>
      Program.gives_bind fun realUser => Program.gives_bind fun realGroup => fun e he => by cases he
  | root =>
    refine hs.accounted_after ?_
    exact Program.gives_bind fun root => Program.gives_bind fun admin => fun e he => by cases he
  | inquire name inquiry => exact hs.accounted_inquire name inquiry
  | deed d =>
    rw [Session.step]
    simp only
    cases (s.after d.perform).1 <;> exact (hs.after _).accounted_of_errors_eq_nil rfl
  | openFile path keepAs =>
    rw [Session.step]
    split
    · exact hs.accounted_of_errors_eq_nil rfl
    · simp only
      cases (s.after (Program.perform (.openFile path .reading 0))).1 with
      | ok file => exact ⟨fun e he => (by cases he), hs.platform, hs.infos⟩
      | error e => exact (hs.after _).accounted_of_errors_eq_nil rfl
  | close handle =>
    rw [Session.step]
    cases s.handles.get? handle with
    | none => exact hs.accounted_of_errors_eq_nil rfl
    | some file => exact ⟨fun e he => (by cases he), hs.platform, hs.infos⟩

theorem stepUnder (mayOpen : Bool) (a : Action) : Accounted (s.stepUnder mayOpen a) := by
  have hunder : Sound { s with machine := { s.machine with mayOpen := mayOpen } } :=
    ⟨hs.platform, hs.infos⟩
  obtain ⟨hanswer, hafter⟩ := hunder.step a
  exact ⟨hanswer, hafter.platform, hafter.infos⟩

/-- A list of actions. -/
theorem run (last : List ListingEntry) (actions : List (Bool × Action)) :
    ∀ x ∈ s.run last actions, ∀ e ∈ x.1.errors, e.Arises := by
  induction actions generalizing s last with
  | nil => exact fun x hx => by cases hx
  | cons action rest ih =>
    obtain ⟨mayOpen, a⟩ := action
    obtain ⟨hanswer, hafter⟩ := hs.stepUnder mayOpen a
    intro x hx
    dsimp only [Session.run] at hx
    split at hx
    all_goals
      rcases List.mem_cons.1 hx with rfl | hx
      · exact hanswer
      · exact ih hafter _ x hx

end Sound

end Session

/-! ## Kinds -/

/-- A failure keeps its class when it becomes an error that is handed on.  Every error that arises
in this library keeps its kind and its class however often it is handed on, and its kind is read
off the failure that it becomes.  No session on a POSIX system shows another error. -/
theorem Error.kinds_survive (operation : Operation) (path : Path) (failure : IoError) :
    (ofIo operation path failure).toIo.kind = failure.kind
      ∧ (∀ e : Error, e.Arises → ∀ above : List (Operation × Path),
          ErrorKind.classify (e.handedOn above).toIo = e.kind
            ∧ (e.handedOn above).kind = e.kind
            ∧ (e.handedOn above).toIo.kind = e.toIo.kind)
      ∧ ∀ (s : Session) (last : List ListingEntry) (actions : List (Bool × Action)),
          s.platform = Posix.platform →
          (∀ name info, s.infos.get? name = some info → ∀ e ∈ info.errors, e.Arises) →
          ∀ x ∈ s.run last actions, ∀ e ∈ x.1.errors, e.Arises := by
  refine ⟨ioKind_ofIo failure, fun e he above => ?_, fun s last actions hplatform hinfos => ?_⟩
  · have hkind := he.kind_handedOn above
    exact ⟨(he.handedOn above).classify_toIo.trans hkind, hkind, ioKind_handedOn e above⟩
  · have hs : s.Sound := ⟨hplatform ▸ Posix.platform_raises, hinfos⟩
    exact hs.run last actions

/-- A full device belongs to no kind of its own, and yet its class is known after two more
operations; a session refuses the empty path. -/
theorem Error.kinds_survive_full :
    let late := (Error.ofErrno .write ⟨[97]⟩ ⟨28⟩).handedOn [(.read, ⟨[98]⟩), (.close, ⟨[99]⟩)]
    let answers := (Session.start Posix.platform (fun _ => 7) 0o022).run []
      [(true, .chmod ⟨[]⟩ 0o600), (false, .stat ⟨[97]⟩ none)]
    late.toIo.kind = .storageFull ∧ late.kind = .other ∧ ErrorKind.classify late.toIo = .other
      ∧ (∃ x ∈ answers, Error.emptyPath .chmod ∈ x.1.errors)
      ∧ ∀ x ∈ answers, ∀ e ∈ x.1.errors, e.Arises := by
  obtain ⟨hfirst, hlate, hsessions⟩ := kinds_survive .write ⟨[97]⟩ (.os ⟨28⟩)
  obtain ⟨hclassify, hkind, hclass⟩ :=
    hlate (.ofErrno .write ⟨[97]⟩ ⟨28⟩) (.io _ _ _) [(.read, ⟨[98]⟩), (.close, ⟨[99]⟩)]
  exact ⟨hclass.trans hfirst, hkind, hclassify,
    ⟨_, List.mem_cons_self, List.mem_singleton.2 rfl⟩,
    hsessions _ [] _ rfl fun name info hget => by cases hget⟩

end PortableFiles
