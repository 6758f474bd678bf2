import PortableFiles.Kernel.Run
set_option autoImplicit false

/-!
# The errors of the machine

Which errors a part of the machine can fail with is seen part by part (`FailsWith.bind` and its
like).  A walk along a path knows five of them (`Tree.walk_failsWith`) and all the calls together
sixteen (`Call.perform_failsWith`).  An interruption is none of them: signals come from outside.
-/

namespace PortableFiles

/-- Whether something succeeds or fails with one of some errors. -/
structure FailsWith {α : Type} (errors : List Errno) (x : Except Errno α) : Prop where
  mem : ∀ e, x = .error e → e ∈ errors

namespace FailsWith

variable {α β : Type} {errors errors' : List Errno}

theorem ok (value : α) : FailsWith errors (.ok value) := ⟨nofun⟩

theorem error {e : Errno} (h : e ∈ errors) : FailsWith errors (.error e : Except Errno α) :=
  ⟨fun _ he => Except.error.inj he ▸ h⟩

theorem mono {x : Except Errno α} (h : FailsWith errors x) (hsub : errors ⊆ errors') :
    FailsWith errors' x := ⟨fun e he => hsub (h.mem e he)⟩

theorem bind {x : Except Errno α} {f : α → Except Errno β} (hx : FailsWith errors x)
    (hf : ∀ value, FailsWith errors (f value)) : FailsWith errors (x >>= f) := by
  cases x with
  | ok value => exact hf value
  | error e => exact .error (hx.mem e rfl)

theorem ite {c : Prop} [Decidable c] {x y : Except Errno α} (hx : FailsWith errors x)
    (hy : FailsWith errors y) : FailsWith errors (if c then x else y) := by
  split
  · exact hx
  · exact hy

/-- What is refused under some condition. -/
theorem guard {c : Prop} [Decidable c] {e : Errno} {x : Except Errno α} (he : e ∈ errors)
    (hx : FailsWith errors x) : FailsWith errors (if c then .error e else x) := ite (.error he) hx

theorem map {x : Except Errno α} {f : α → β} (hx : FailsWith errors x) :
    FailsWith errors (x.map f) := by
  cases x with
  | ok value => exact .ok _
  | error e => exact .error (hx.mem e rfl)

/-- What is not one of the errors is not what it fails with. -/
theorem ne {x : Except Errno α} (h : FailsWith errors x) {e : Errno} (he : e ∉ errors) :
    x ≠ .error e := fun heq => he (h.mem e heq)

end FailsWith

/-! ## Walks -/

namespace Tree

variable {t : Tree} {who : Credentials} {follow : Bool → Bool}

/-- What can go wrong on the way along a path. -/
def walkErrors : List Errno :=
  [.noEntry, .accessDenied, .notDirectory, .nameTooLong, .tooManyLinks]

theorem pass_failsWith (dir : InodeId) : FailsWith walkErrors (t.pass who dir) := by
  unfold pass
  split
  · exact .guard (by decide) (.ite (.ok _) (.error (by decide)))
  · exact .error (by decide)

theorem find_failsWith (dir : InodeId) (name : Name) : FailsWith walkErrors (t.find dir name) := by
  unfold find
  split
  · exact .ok _
  · exact .guard (by decide) (.guard (by decide) (.ok _))

theorem walkWith_failsWith {again : InodeId → Route → Except Errno Place}
    (hagain : ∀ dir route, FailsWith walkErrors (again dir route)) (slash : Bool) (dir : InodeId)
    (steps : List Step) : FailsWith walkErrors (t.walkWith who follow again slash dir steps) := by
  induction steps generalizing dir with
  | nil => exact .ok _
  | cons step rest ih =>
    cases step with
    | stay | ascend =>
      rw [walkWith]
      exact .bind (pass_failsWith dir) fun _ => .ite (.ok _) (ih _)
    | descend name =>
      rw [walkWith]
      refine .bind (pass_failsWith dir) fun _ => .ite (.ok _) ?_
      split
      · exact hagain _ _
      · exact hagain _ _
      · refine .ite (.ok _) (.bind (find_failsWith dir name) fun found => ?_)
        cases found with
        | none => exact .error (by decide)
        | some id => exact .ite (ih _) (.error (by decide))

theorem walk_failsWith (budget : Nat) (dir : InodeId) (route : Route) :
    FailsWith walkErrors (t.walk who follow budget dir route) := by
  induction budget generalizing dir route with
  | zero => exact walkWith_failsWith (fun _ _ => .error (by decide)) ..
  | succ budget ih => exact walkWith_failsWith ih ..

theorem locate_failsWith (cwd : InodeId) (path : Path) :
    FailsWith walkErrors (t.locate who cwd follow path) :=
  .guard (by decide) (.guard (by decide) (walk_failsWith ..))

theorem inodeAt_failsWith (place : Place) : FailsWith walkErrors (t.inodeAt place) := by
  cases place with
  | reached dir | dots dir up => exact .ok _
  | entry dir name slash =>
    refine .bind (find_failsWith dir name) fun found => ?_
    cases found with
    | none => exact .error (by decide)
    | some id => exact .guard (by decide) (.ok _)

theorem resolve_failsWith (cwd : InodeId) (path : Path) :
    FailsWith walkErrors (t.resolve who cwd follow path) :=
  .bind (locate_failsWith cwd path) inodeAt_failsWith

end Tree

/-! ## Calls -/

namespace Machine

variable {m : Machine}

/-- What can go wrong on the machine. -/
def errors : List Errno :=
  Tree.walkErrors ++ [.notPermitted, .noDevice, .badDescriptor, .busy, .entryExists, .crossDevice,
    .isDirectory, .invalid, .tooManyFiles, .noSpace, .notEmpty]

theorem locate_failsWith (follow : Bool → Bool) (path : Path) :
    FailsWith errors (m.locate follow path) :=
  (Tree.locate_failsWith m.cwd path).mono (List.subset_append_left ..)

theorem resolve_failsWith (follow : Bool → Bool) (path : Path) :
    FailsWith errors (m.resolve follow path) :=
  (Tree.resolve_failsWith m.cwd path).mono (List.subset_append_left ..)

theorem find_failsWith (dir : InodeId) (name : Name) : FailsWith errors (m.tree.find dir name) :=
  (Tree.find_failsWith dir name).mono (List.subset_append_left ..)

theorem inodeAt_failsWith (follow : Bool → Bool) (path : Path) :
    FailsWith errors (m.inodeAt follow path) := by
  refine .bind (resolve_failsWith follow path) fun id => ?_
  split
  · exact .error (by decide)
  · exact .ok _

theorem mayChangeEntries_failsWith (dir : InodeId) :
    FailsWith [.noEntry, .notPermitted, .accessDenied] (m.mayChangeEntries dir) :=
  .guard (by decide) (.guard (by decide) (.ite (.ok _) (.error (by decide))))

theorem mayChange_failsWith (dir : InodeId) : FailsWith errors (m.mayChangeEntries dir) :=
  (mayChangeEntries_failsWith dir).mono (by decide)

theorem vacancy_failsWith (path : Path) (directory : Bool) :
    FailsWith errors (m.vacancy path directory) := by
  refine .bind (locate_failsWith _ path) fun place => ?_
  cases place with
  | reached dir | dots dir up => exact .error (by decide)
  | entry dir name slash =>
    refine .bind (find_failsWith dir name) fun found => ?_
    cases found with
    | none => exact .guard (by decide) (.ok _)
    | some id => exact .error (by decide)

theorem mayChangeInode_failsWith (node : Inode) : FailsWith errors (m.mayChangeInode node) :=
  .guard (by decide) (.ok _)

theorem mayOpenInode_failsWith (how : OpenHow) (node : Inode) :
    FailsWith errors (m.mayOpenInode how node) := by
  refine .guard (by decide) (.guard (by decide) (.guard (by decide) ?_))
  split
  · exact .error (by decide)
  · exact .error (by decide)
  · exact .error (by decide)
  · exact .error (by decide)
  · exact .error (by decide)
  · exact .guard (by decide) (.ok _)
  · exact .guard (by decide) (.ok _)
  · exact .guard (by decide) (.ok _)

theorem openExisting_failsWith (how : OpenHow) (id : InodeId) (location : Location) :
    FailsWith errors (m.openExisting how id location) := by
  unfold openExisting
  split
  · exact .error (by decide)
  · refine .guard (by decide) (.ite (.guard (by decide) (.ok _)) ?_)
    exact .bind (mayOpenInode_failsWith how _) fun _ => .ite (.ok _) (.ok _)

theorem openUnnamed_failsWith (path : Path) (how : OpenHow) (perm : UInt32) :
    FailsWith errors (m.openUnnamed path how perm) :=
  .bind (resolve_failsWith _ path) fun dir =>
    .guard (by decide) (.guard (by decide) (.guard (by decide) (.ok _)))

theorem openFile_failsWith (path : Path) (how : OpenHow) (perm : UInt32) :
    FailsWith errors (m.openFile path how perm) := by
  refine .guard (by decide) (.guard (by decide) (.guard (by decide) (.guard (by decide) ?_)))
  refine .ite (openUnnamed_failsWith path how perm) ?_
  refine .bind (locate_failsWith _ path) fun place => ?_
  have hthere : FailsWith errors (do
      let dir ← m.tree.inodeAt place
      if how.create && how.exclusive then .error .entryExists
      else m.openExisting how dir (m.locationOf dir)) :=
    .bind ((Tree.inodeAt_failsWith place).mono (List.subset_append_left ..)) fun dir =>
      .guard (by decide) (openExisting_failsWith ..)
  cases place with
  | reached dir | dots dir up => exact hthere
  | entry dir name slash =>
    refine .guard (by decide) (.bind (find_failsWith dir name) fun found => ?_)
    cases found with
    | none => exact .guard (by decide) (.bind (mayChange_failsWith dir) fun _ => .ok _)
    | some id => exact .guard (by decide) (.guard (by decide) (openExisting_failsWith ..))

/-- The calls on an open file, whose parts do not fail. -/
theorem file_failsWith (file : Descriptor) (data : Bytes) :
    FailsWith errors (m.write file data) ∧ FailsWith errors (m.sync file)
      ∧ FailsWith errors (m.pathOfOpen file) ∧ FailsWith errors (m.close file) := by
  unfold write sync pathOfOpen close
  dsimp only
  refine ⟨?_, ?_, ?_, ?_⟩
  all_goals
    repeat' split
    all_goals first | exact .ok _ | exact .error (by decide)

theorem describe_failsWith (id : InodeId) : FailsWith errors (m.describe id) := by
  unfold describe
  split
  · exact .ok _
  · exact .error (by decide)

theorem statOpen_failsWith (file : Descriptor) : FailsWith errors (m.statOpen file) := by
  unfold statOpen
  split
  · exact .error (by decide)
  · exact (describe_failsWith _).map

theorem stat_failsWith (path : Path) (follow : Bool) : FailsWith errors (m.stat path follow) :=
  .bind (resolve_failsWith _ path) fun id => .bind (describe_failsWith id) fun _ => .ok _

theorem chmod_failsWith (path : Path) (perm : UInt32) : FailsWith errors (m.chmod path perm) := by
  refine .bind (inodeAt_failsWith _ path) fun (id, node) => ?_
  exact .guard (by decide) (.bind (mayChangeInode_failsWith node) fun _ => .ok _)

theorem chown_failsWith (path : Path) (uid gid : Nat) :
    FailsWith errors (m.chown path uid gid) := by
  refine .bind (inodeAt_failsWith _ path) fun (id, node) => ?_
  refine .ite (.bind (mayChangeInode_failsWith node) fun _ => ?_) ?_
  · exact .guard (by decide) (.ok _)
  · exact .guard (by decide) (.ok _)

theorem setTimes_failsWith (path : Path) (access modify : GivenTime) :
    FailsWith errors (m.setTimes path access modify) := by
  have htouch : ∀ node, FailsWith errors (m.mayTouch node) := fun node =>
    .guard (by decide) (.ite (.ok _) (.error (by decide)))
  unfold setTimes
  refine .ite (.ok _) (.bind (inodeAt_failsWith _ path) fun (id, node) => ?_)
  dsimp only
  split
  · exact .ite (.bind (htouch node) fun _ => .ok _)
      (.bind (mayChangeInode_failsWith node) fun _ => .ok _)
  · exact .error (by decide)

theorem mustBeEmpty_failsWith (dir : InodeId) : FailsWith errors (m.mustBeEmpty dir) := by
  unfold mustBeEmpty
  split
  · exact .ite (.ok _) (.error (by decide))
  · exact .error (by decide)

theorem mayReplace_failsWith (dir id : InodeId) (directory : Bool) :
    FailsWith errors (m.mayReplace dir id directory) :=
  .bind (mayChange_failsWith dir) fun _ => .guard (by decide) (.guard (by decide) (.ok _))

theorem rename_failsWith (source destination : Path) :
    FailsWith errors (m.rename source destination) := by
  refine .bind (locate_failsWith _ source) fun origin => ?_
  refine .bind (locate_failsWith _ destination) fun goal => ?_
  refine .guard (by decide) ?_
  split
  · rename_i dir name slash dir' name' slash'
    refine .bind (find_failsWith dir name) fun found => ?_
    cases found with
    | none => exact .error (by decide)
    | some id =>
      refine .bind (find_failsWith dir' name') fun target => ?_
      refine .guard (by decide) (.guard (by decide) (.guard (by decide) (.ite (.ok _) ?_)))
      refine .bind (mayChange_failsWith dir) fun _ => ?_
      cases target with
      | none =>
        refine .bind (mayChange_failsWith dir') fun _ => ?_
        exact .guard (by decide) (.guard (by decide) (.ok _))
      | some t =>
        refine .bind (mayReplace_failsWith dir' t _) fun _ => ?_
        refine .guard (by decide) (.guard (by decide) ?_)
        exact .ite (.bind (mustBeEmpty_failsWith t) fun _ => .ok _) (.ok _)
  · exact .error (by decide)

theorem unlink_failsWith (path : Path) : FailsWith errors (m.unlink path) := by
  refine .bind (locate_failsWith _ path) fun place => ?_
  cases place with
  | reached dir | dots dir up => exact .error (by decide)
  | entry dir name slash =>
    refine .bind (find_failsWith dir name) fun found => ?_
    cases found with
    | none => exact .error (by decide)
    | some id =>
      refine .ite ?_ (.bind (mayChange_failsWith dir) fun _ => .guard (by decide) (.ok _))
      split
      · exact .error (by decide)
      · exact .error (by decide)

theorem removeDirectory_failsWith (path : Path) : FailsWith errors (m.removeDirectory path) := by
  refine .bind (locate_failsWith _ path) fun place => ?_
  cases place with
  | reached dir => exact .error (by decide)
  | dots dir up =>
    cases up with
    | false => exact .error (by decide)
    | true => exact .error (by decide)
  | entry dir name slash =>
    refine .bind (find_failsWith dir name) fun found => ?_
    cases found with
    | none => exact .error (by decide)
    | some id =>
      refine .bind (mayChange_failsWith dir) fun _ => .guard (by decide) ?_
      exact .bind (mustBeEmpty_failsWith id) fun _ => .ok _

theorem symlink_failsWith (target : Bytes) (path : Path) :
    FailsWith errors (m.symlink target path) :=
  .guard (by decide) (.guard (by decide) (.bind (vacancy_failsWith path false) fun _ =>
    .bind (mayChange_failsWith _) fun _ => .ok _))

theorem makeDirectory_failsWith (path : Path) (perm : UInt32) :
    FailsWith errors (m.makeDirectory path perm) :=
  .bind (vacancy_failsWith path true) fun _ => .bind (mayChange_failsWith _) fun _ => .ok _

theorem makeSpecial_failsWith (path : Path) (which : SpecialFile) (perm : UInt32) :
    FailsWith errors (m.makeSpecial path which perm) := by
  refine .bind (vacancy_failsWith path false) fun _ => .bind (mayChange_failsWith _) fun _ => ?_
  split
  · exact .ok _
  · exact .ok _
  · exact .ok _
  · exact .error (by decide)

theorem link_failsWith (source destination : Path) :
    FailsWith errors (m.link source destination) :=
  .bind (resolve_failsWith _ source) fun _ => .bind (vacancy_failsWith destination false) fun _ =>
    .guard (by decide) (.bind (mayChange_failsWith _) fun _ => .guard (by decide) (.ok _))

theorem list_failsWith (path : Path) : FailsWith errors (m.list path) := by
  refine .guard (by decide) (.bind (resolve_failsWith _ path) fun id => ?_)
  split
  · exact .error (by decide)
  · exact .ite (.ok _) (.error (by decide))

theorem accountName_failsWith (accounts : List (Nat × String)) (id : Nat) :
    FailsWith errors (m.accountName accounts id) := .ite (.ok _) (.error (by decide))

end Machine

/-- What can go wrong with a call is among the errors of the machine. -/
theorem Call.perform_failsWith (m : Machine) (c : Call) :
    FailsWith Machine.errors (c.perform m) := by
  cases c with
  | openFile path how perm => exact Machine.openFile_failsWith path how perm
  | write file data => exact (Machine.file_failsWith file data).1
  | sync file => exact (Machine.file_failsWith file []).2.1
  | statOpen file => exact Machine.statOpen_failsWith file
  | pathOfOpen file => exact (Machine.file_failsWith file []).2.2.1
  | close file => exact (Machine.file_failsWith file []).2.2.2
  | stat path follow => exact Machine.stat_failsWith path follow
  | chmod path perm => exact Machine.chmod_failsWith path perm
  | chown path uid gid => exact Machine.chown_failsWith path uid gid
  | rename source destination => exact Machine.rename_failsWith source destination
  | unlink path => exact Machine.unlink_failsWith path
  | symlink target path => exact Machine.symlink_failsWith target path
  | makeDirectory path perm => exact Machine.makeDirectory_failsWith path perm
  | removeDirectory path => exact Machine.removeDirectory_failsWith path
  | openSocket => exact .ite (.ok _) (.error (by decide))
  | makeSpecial path which perm => exact Machine.makeSpecial_failsWith path which perm
  | link source destination => exact Machine.link_failsWith source destination
  | setTimes path access modify => exact Machine.setTimes_failsWith path access modify
  | list path => exact Machine.list_failsWith path
  | userName uid => exact Machine.accountName_failsWith _ uid
  | groupName gid => exact Machine.accountName_failsWith _ gid

/-- On the machine itself no call is interrupted. -/
theorem Call.reply_ne_interrupted (m : Machine) (c : Call) :
    (c.reply m).1 ≠ .error .interrupted := by
  unfold reply
  cases h : c.perform m with
  | ok result => nofun
  | error e =>
    rintro ⟨⟩
    exact (perform_failsWith m c).ne (by decide) h

end PortableFiles
