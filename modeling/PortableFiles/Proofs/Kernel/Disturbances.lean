import PortableFiles.Proofs.Kernel.Calls
set_option autoImplicit false

/-!
# Runs that are disturbed

Signals come while a program runs, and a system may take fewer bytes than a write offers.
`Program.runAmid` follows a program on a machine where this happens by a given pattern: before the
`k`-th call gets through, `signals k` signals come, and of what it offers to write, `limits k` bytes
are taken at most.  A call that is made again outlasts the signals before it, any other one is
interrupted by the first of them.  Every pattern gives a run in which no call fails of its own but
by interruption (`Program.exists_runs_runAmid`), so that what holds of all such runs holds of it.
-/

namespace PortableFiles

/-- Where some bytes from the front cannot be written, none of the others can. -/
theorem Machine.write_eq_error_of_take {m : Machine} {file : Descriptor} {data : Bytes}
    {limit : Nat} {errno : Errno} (h : m.write file (data.take limit) = .error errno) :
    m.write file data = .error errno := by
  unfold write at h ⊢
  cases hfile : m.file? file with
  | none => simpa [hfile] using h
  | some f =>
    simp only [hfile] at h ⊢
    by_cases hwritable : f.writable = true
    · rw [hwritable, Bool.not_true, if_neg Bool.false_ne_true] at h ⊢
      -- Writing nothing does not fail, so neither the front nor the whole is empty.
      have htake : data.take limit ≠ [] := by
        intro hnil
        rw [if_pos hnil] at h
        cases h
      have hdata : data ≠ [] := by
        rintro rfl
        exact htake List.take_nil
      rw [if_neg htake] at h
      rw [if_neg hdata]
      -- What the file is decides both writes, and only a file on a disk looks at how it is open.
      split at h
      · by_cases hdirect : f.direct = true
        · rwa [if_pos hdirect] at h ⊢
        · rw [if_neg hdirect] at h
          cases h
      · cases h
      · exact h
      · exact h
    · rwa [if_pos (by simpa using hwritable)] at h ⊢

namespace Call

/-- The answer to a call, of which at most `limit` bytes are taken if it is a write, and the machine
after it. -/
def replyWithin (limit : Nat) (m : Machine) : (c : Call) → Except Errno c.Value × Machine
  | .write file data => (Call.write file (data.take limit)).reply m
  | c => c.reply m

theorem replyWithin_write {limit : Nat} {m m' : Machine} {file : Descriptor} {data : Bytes}
    {count : Nat} (h : m.write file (data.take limit) = .ok (count, m')) :
    (Call.write file data).replyWithin limit m = (.ok count, m') := by
  change (Call.write file (data.take limit)).reply m = _
  rw [reply, perform, h]

/-- A write of which some bytes are taken is one of the ways in which it can end. -/
theorem Outcome.of_replyWithin {fails : Call → Errno → Prop} (limit : Nat) (m : Machine)
    (c : Call) : c.Outcome fails m (c.replyWithin limit m).1 (c.replyWithin limit m).2 := by
  cases c
  case write file data =>
    change Outcome fails m (.write file data) ((Call.write file (data.take limit)).reply m).1
      ((Call.write file (data.take limit)).reply m).2
    unfold reply
    cases h : (Call.write file (data.take limit)).perform m with
    | error errno => exact .refused (c := .write file data) (Machine.write_eq_error_of_take h)
    | ok result =>
      obtain ⟨count, m'⟩ := result
      change m.write file (data.take limit) = .ok (count, m') at h
      by_cases hshort : limit < data.length
      · have hcount : count = limit := by
          rw [(Machine.write_cases h).1, List.length_take, Nat.min_eq_left (Nat.le_of_lt hshort)]
        rw [← hcount] at hshort h
        exact .short hshort h
      · rw [List.take_of_length_le (Nat.le_of_not_lt hshort)] at h
        exact .done h
  all_goals exact .of_reply m _

theorem replyWithin_ne_interrupted (limit : Nat) (m : Machine) (c : Call) :
    (c.replyWithin limit m).1 ≠ .error .interrupted := by
  cases c
  case write file data => exact reply_ne_interrupted m (.write file (data.take limit))
  all_goals exact reply_ne_interrupted m _

/-- The answer to a call before which some signals come, and the machine after it.  Each of them
interrupts an attempt, after which the call is made again if it restarts. -/
def replyAmid (restarts : Bool) (limit : Nat) (m : Machine) (c : Call) :
    Nat → Except Errno c.Value × Machine
  | 0 => c.replyWithin limit m
  | signals + 1 =>
    if restarts then c.replyAmid restarts limit m signals else (.error .interrupted, m)

/-- Whether an error is that of a call that a signal has interrupted. -/
def BySignal (_ : Call) (errno : Errno) : Prop := errno = .interrupted

/-- The attempts that lead to the answer were interrupted, or ended as the limit says. -/
theorem exists_attempts (c : Call) (restarts : Bool) (limit : Nat) (m : Machine) (signals : Nat) :
    ∃ tries, c.Attempts BySignal restarts m tries (c.replyAmid restarts limit m signals).1
        (c.replyAmid restarts limit m signals).2
      ∧ ∀ e ∈ tries, e.reply = .error .interrupted
          ∨ (e.reply, e.after) = e.call.replyWithin limit e.before := by
  induction signals with
  | zero =>
    refine ⟨_, .last (.of_replyWithin limit m c) fun _ => c.replyWithin_ne_interrupted limit m, ?_⟩
    intro e he
    obtain rfl := List.mem_singleton.1 he
    exact Or.inr rfl
  | succ signals ih =>
    rw [replyAmid]
    cases restarts with
    | true =>
      obtain ⟨tries, hmore, htries⟩ := ih
      refine ⟨_, .again rfl (.failed rfl) hmore, fun e he => ?_⟩
      rcases List.mem_cons.1 he with rfl | he
      · exact Or.inl rfl
      · exact htries e he
    | false =>
      refine ⟨_, .once (.failed rfl), fun e he => ?_⟩
      obtain rfl := List.mem_singleton.1 he
      exact Or.inl rfl

end Call

/-- What comes in the way of the calls of a program, counted from its first one. -/
structure Disturbance where
  /-- How many signals come before a call gets through. -/
  signals : Nat → Nat
  /-- How many bytes a write takes at most. -/
  limits : Nat → Nat
  /-- A write that gets through takes something. -/
  progress : ∀ k, 0 < limits k

/-- What comes in the way after the first call. -/
def Disturbance.later (d : Disturbance) : Disturbance where
  signals k := d.signals (k + 1)
  limits k := d.limits (k + 1)
  progress k := d.progress (k + 1)

namespace Program

variable {α : Type}

/-- The value of a program, and the machine after it, where calls are disturbed. -/
def runAmid : Program α → Disturbance → Machine → α × Machine
  | .done value, _, m => (value, m)
  | .call c restarts next, d, m =>
    let result := c.replyAmid restarts (d.limits 0) m (d.signals 0)
    runAmid (next result.1) d.later result.2
  | .ask q next, d, m => runAmid (next (q.answer m).1) d (q.answer m).2

/-- Whatever the pattern, this is one of the runs in which calls fail by signals alone, and every
attempt in it was interrupted or ended as the pattern says. -/
theorem exists_runs_runAmid (p : Program α) (d : Disturbance) (m : Machine) :
    ∃ events, Runs Call.BySignal p m events (p.runAmid d m).1 (p.runAmid d m).2
      ∧ ∀ e ∈ events, e.reply = .error .interrupted
          ∨ ∃ k, (e.reply, e.after) = e.call.replyWithin (d.limits k) e.before := by
  induction p generalizing d m with
  | done value => exact ⟨[], .done, fun e he => by cases he⟩
  | call c restarts next ih =>
    obtain ⟨tries, hcall, htries⟩ :=
      c.exists_attempts restarts (d.limits 0) m (d.signals 0)
    obtain ⟨events, hruns, hevents⟩ := ih _ d.later _
    refine ⟨tries ++ events, .call hcall hruns, fun e he => ?_⟩
    rcases List.mem_append.1 he with he | he
    · exact (htries e he).imp_right fun h => ⟨0, h⟩
    · exact (hevents e he).imp_right fun ⟨k, h⟩ => ⟨k + 1, h⟩
  | ask q next ih =>
    obtain ⟨events, hruns, hevents⟩ := ih (q.answer m).1 d (q.answer m).2
    exact ⟨events, .ask hruns, hevents⟩

end Program

end PortableFiles
