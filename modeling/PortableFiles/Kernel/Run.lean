import PortableFiles.Kernel.Entries
set_option autoImplicit false

/-!
# Running programs

`Call.perform` is what one call does to a machine, `Query.answer` what one question does, and
`Program.run` follows a program to its value.
-/

namespace PortableFiles

/-- The name of an account.  The accounts are in files, so a process that cannot open one cannot
ask. -/
def Machine.accountName (m : Machine) (accounts : List (Nat × String)) (id : Nat) :
    Except Errno (Option String × Machine) :=
  if m.mayOpen then .ok ((accounts.find? fun a => a.1 = id).map (·.2), m)
  else .error .tooManyFiles

/-- What a call leads to. -/
def Call.perform (m : Machine) : (c : Call) → Except Errno (c.Value × Machine)
  | .openFile path how perm => m.openFile path how perm
  | .write file data => m.write file data
  | .sync file => m.sync file
  | .statOpen file => m.statOpen file
  | .pathOfOpen file => m.pathOfOpen file
  | .close file => m.close file
  | .stat path follow => m.stat path follow
  | .chmod path perm => m.chmod path perm
  | .chown path uid gid => m.chown path uid gid
  | .rename source destination => m.rename source destination
  | .unlink path => m.unlink path
  | .symlink target path => m.symlink target path
  | .makeDirectory path perm => m.makeDirectory path perm
  | .removeDirectory path => m.removeDirectory path
  | .openSocket => if m.mayOpen then .ok ((), m) else .error .tooManyFiles
  | .makeSpecial path which perm => m.makeSpecial path which perm
  | .link source destination => m.link source destination
  | .setTimes path access modify => m.setTimes path access modify
  | .list path => m.list path
  | .userName uid => m.accountName m.accounts.users uid
  | .groupName gid => m.accountName m.accounts.groups gid

/-- The answer to a call, and the machine after it. -/
def Call.reply (m : Machine) (c : Call) : Except Errno c.Value × Machine :=
  match c.perform m with
  | .ok (value, m') => (.ok value, m')
  | .error e => (.error e, m)

/-- The answer to a question, and the machine after it. -/
def Query.answer (m : Machine) : (q : Query) → q.Answer × Machine
  | .draw => (m.draws m.drawn, { m with drawn := m.drawn + 1 })
  | .userId => (m.who.uid, m)
  | .groupId => (m.who.gid, m)
  | .effectiveUserId => (m.who.uid, m)
  | .exchangeMask mask => (m.mask, { m with mask := mask &&& 0o777 })
  | .status => (if m.mayOpen then some (m.statusLines.text m.mask) else none, m)
  | .recallMask => (m.rememberedMask, m)
  | .rememberMask mask => ((), { m with rememberedMask := some mask })
  | .variable name => ((m.environment.find? fun v => v.1 = name).map (·.2), m)

namespace Program

variable {α β : Type}

/-- The value of a program, and the machine after it.  On the machine itself no call is
interrupted, so each is made once. -/
def run : Program α → Machine → α × Machine
  | .done value, m => (value, m)
  | .call c _ next, m => run (next (c.reply m).1) (c.reply m).2
  | .ask q next, m => run (next (q.answer m).1) (q.answer m).2

@[simp] theorem run_pure (value : α) (m : Machine) : (pure value : Program α).run m = (value, m) :=
  rfl

/-- A program followed by another runs the one and then the other. -/
theorem run_bind (p : Program α) (f : α → Program β) (m : Machine) :
    (p >>= f).run m = (f (p.run m).1).run (p.run m).2 := by
  change (p.andThen f).run m = _
  induction p generalizing m with
  | done value => rfl
  | call c restarts next ih =>
    simp only [andThen, run]
    exact ih _ _
  | ask q next ih =>
    simp only [andThen, run]
    exact ih _ _

end Program

/-- The outcome of a routine, and the machine after it. -/
def Routine.run {α : Type} (t : Routine α) (m : Machine) : Except Error α × Machine :=
  t.outcome.run m

end PortableFiles
