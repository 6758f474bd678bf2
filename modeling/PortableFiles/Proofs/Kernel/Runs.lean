import PortableFiles.Proofs.Kernel.Errors
set_option autoImplicit false

/-!
# Runs in which calls may fail

`Program.run` lets every call do what it does on the machine.  Here a call may also fail for
reasons of its own, and a write may take a part of its bytes.  A call that is made again after an
interruption is made as often as it is interrupted, and once more (`Call.Attempts`).  A run is a
relation between a program, the machine it starts on, one event for each attempt at a call, and the
value and the machine it ends with; it splits where the program does (`runs_bind_iff`).  What each
attempt preserves, a whole run preserves (`Runs.invariant`), and which calls a program can make is
seen on the program itself (`Program.Uses`).
-/

namespace PortableFiles

/-- What may come of a call on a machine.  `fails` says which errors may befall a call that would
succeed there; such a call has no effect. -/
inductive Call.Outcome (fails : Call → Errno → Prop) (m : Machine) :
    (c : Call) → Except Errno c.Value → Machine → Prop where
  | done {c : Call} {value : c.Value} {m' : Machine} (h : c.perform m = .ok (value, m')) :
      Outcome fails m c (.ok value) m'
  | refused {c : Call} {e : Errno} (h : c.perform m = .error e) : Outcome fails m c (.error e) m
  | failed {c : Call} {e : Errno} (h : fails c e) : Outcome fails m c (.error e) m
  /-- Some bytes from the front are written, and only these. -/
  | short {file : Descriptor} {data : Bytes} {count : Nat} {m' : Machine}
      (hcount : count < data.length) (h : m.write file (data.take count) = .ok (count, m')) :
      Outcome fails m (.write file data) (.ok count) m'

/-- One attempt at a call: what was asked and answered, and the machine before and after. -/
structure Event where
  call : Call
  reply : Except Errno call.Value
  before : Machine
  after : Machine

/-- The attempt at a call that a signal has interrupted. -/
def Event.interrupted (c : Call) (m : Machine) : Event := ⟨c, .error .interrupted, m, m⟩

namespace Call.Outcome

variable {fails : Call → Errno → Prop} {m m' : Machine} {c : Call}

/-- What a call does on a machine may come of it. -/
theorem of_reply (m : Machine) (c : Call) : Outcome fails m c (c.reply m).1 (c.reply m).2 := by
  unfold Call.reply
  cases h : c.perform m with
  | ok result => exact .done h
  | error e => exact .refused h

/-- A call that fails has changed nothing. -/
theorem eq_of_error {e : Errno} (h : Outcome fails m c (.error e) m') : m' = m := by
  cases h <;> rfl

/-- What succeeds, except for writing, is what the call does on the machine. -/
theorem perform_eq_ok {value : c.Value} (h : Outcome fails m c (.ok value) m')
    (hwrite : ∀ file data, c ≠ .write file data) : c.perform m = .ok (value, m') := by
  cases h with
  | done h => exact h
  | short _ _ => exact absurd rfl (hwrite _ _)

/-- A call that cannot fail of its own does what it does on the machine. -/
theorem perform_eq_error {e : Errno} (h : Outcome fails m c (.error e) m')
    (hfails : ¬ fails c e) : c.perform m = .error e := by
  cases h with
  | refused h => exact h
  | failed h => exact absurd h hfails

/-- What a write took was written. -/
theorem write_eq_ok {file : Descriptor} {data : Bytes} {count : Nat}
    (h : Outcome fails m (.write file data) (.ok count) m') :
    (m.write file data = .ok (count, m'))
      ∨ (count < data.length ∧ m.write file (data.take count) = .ok (count, m')) := by
  cases h with
  | done h => exact Or.inl h
  | short hcount h => exact Or.inr ⟨hcount, h⟩

end Call.Outcome

/-- The attempts at a call, with what comes of the last one.  If the call restarts, the attempts
before it were interrupted and it was not. -/
inductive Call.Attempts (fails : Call → Errno → Prop) (c : Call) (restarts : Bool) (m : Machine) :
    List Event → Except Errno c.Value → Machine → Prop where
  | last {reply : Except Errno c.Value} {after : Machine} (h : c.Outcome fails m reply after)
      (hends : restarts = true → reply ≠ .error .interrupted) :
      Attempts fails c restarts m [⟨c, reply, m, after⟩] reply after
  | again {tries : List Event} {reply : Except Errno c.Value} {after : Machine}
      (hrestarts : restarts = true) (hinterrupted : c.Outcome fails m (.error .interrupted) m)
      (hmore : Attempts fails c restarts m tries reply after) :
      Attempts fails c restarts m (.interrupted c m :: tries) reply after

namespace Call.Attempts

variable {fails : Call → Errno → Prop} {c : Call} {restarts : Bool} {m after : Machine}
  {tries : List Event} {reply : Except Errno c.Value}

/-- What comes of the attempts comes of the call. -/
theorem outcome (h : c.Attempts fails restarts m tries reply after) :
    c.Outcome fails m reply after := by
  induction h with
  | last h _ => exact h
  | again _ _ _ ih => exact ih

/-- The one attempt at a call that does not restart. -/
theorem once (h : c.Outcome fails m reply after) :
    c.Attempts fails false m [⟨c, reply, m, after⟩] reply after := .last h nofun

theorem once_iff :
    c.Attempts fails false m tries reply after ↔
      c.Outcome fails m reply after ∧ tries = [⟨c, reply, m, after⟩] := by
  constructor
  · intro h
    cases h with
    | last h _ => exact ⟨h, rfl⟩
    | again hrestarts _ _ => cases hrestarts
  · rintro ⟨h, rfl⟩
    exact once h

/-- What the call does on the machine comes of one attempt. -/
theorem of_reply (m : Machine) (c : Call) (restarts : Bool) :
    c.Attempts fails restarts m [⟨c, (c.reply m).1, m, (c.reply m).2⟩] (c.reply m).1
      (c.reply m).2 := .last (.of_reply m c) fun _ => c.reply_ne_interrupted m

/-- Some attempts were interrupted, and then there is the last one. -/
theorem exists_append (h : c.Attempts fails restarts m tries reply after) :
    ∃ earlier, tries = earlier ++ [⟨c, reply, m, after⟩]
      ∧ ∀ e ∈ earlier, e = .interrupted c m ∧ c.Outcome fails m (.error .interrupted) m := by
  induction h with
  | last _ _ => exact ⟨[], rfl, fun e he => by cases he⟩
  | again _ hinterrupted _ ih =>
    obtain ⟨earlier, rfl, hearlier⟩ := ih
    exact ⟨_ :: earlier, rfl, List.forall_mem_cons.2 ⟨⟨rfl, hinterrupted⟩, hearlier⟩⟩

theorem last_mem (h : c.Attempts fails restarts m tries reply after) :
    ⟨c, reply, m, after⟩ ∈ tries := by
  obtain ⟨earlier, rfl, -⟩ := h.exists_append
  exact List.mem_append_right earlier List.mem_cons_self

/-- Every attempt was interrupted or is the last one. -/
theorem eq_of_mem (h : c.Attempts fails restarts m tries reply after) {e : Event}
    (he : e ∈ tries) :
    e = ⟨c, reply, m, after⟩
      ∨ (e = .interrupted c m ∧ c.Outcome fails m (.error .interrupted) m) := by
  obtain ⟨earlier, rfl, hearlier⟩ := h.exists_append
  rcases List.mem_append.1 he with he | he
  · exact Or.inr (hearlier e he)
  · exact Or.inl (List.mem_singleton.1 he)

/-- What comes of a call that restarts is no interruption. -/
theorem ne_interrupted (h : c.Attempts fails true m tries reply after) :
    reply ≠ .error .interrupted := by
  induction h with
  | last _ hends => exact hends rfl
  | again _ _ _ ih => exact ih

end Call.Attempts

namespace Program

variable {α β : Type} {fails : Call → Errno → Prop} {m m' : Machine} {events : List Event}

/-- The runs of a program from a machine, with their events, values and last machines. -/
inductive Runs (fails : Call → Errno → Prop) :
    Program α → Machine → List Event → α → Machine → Prop where
  | done {value : α} {m : Machine} : Runs fails (.done value) m [] value m
  | call {c : Call} {restarts : Bool} {next : Except Errno c.Value → Program α}
      {reply : Except Errno c.Value} {m after m' : Machine} {tries events : List Event} {value : α}
      (hcall : c.Attempts fails restarts m tries reply after)
      (hnext : Runs fails (next reply) after events value m') :
      Runs fails (.call c restarts next) m (tries ++ events) value m'
  | ask {q : Query} {next : q.Answer → Program α} {m m' : Machine} {events : List Event} {value : α}
      (hnext : Runs fails (next (q.answer m).1) (q.answer m).2 events value m') :
      Runs fails (.ask q next) m events value m'

/-! ## Runs by the form of the program -/

theorem runs_done_iff {value value' : α} :
    Runs fails (.done value) m events value' m' ↔ events = [] ∧ value' = value ∧ m' = m := by
  constructor
  · intro h
    cases h
    exact ⟨rfl, rfl, rfl⟩
  · rintro ⟨rfl, rfl, rfl⟩
    exact .done

theorem runs_call_iff {c : Call} {restarts : Bool} {next : Except Errno c.Value → Program α}
    {value : α} :
    Runs fails (.call c restarts next) m events value m' ↔
      ∃ tries reply after rest, c.Attempts fails restarts m tries reply after
        ∧ events = tries ++ rest ∧ Runs fails (next reply) after rest value m' := by
  constructor
  · intro h
    cases h with
    | call hcall hnext => exact ⟨_, _, _, _, hcall, rfl, hnext⟩
  · rintro ⟨tries, reply, after, rest, hcall, rfl, hnext⟩
    exact .call hcall hnext

theorem runs_ask_iff {q : Query} {next : q.Answer → Program α} {value : α} :
    Runs fails (.ask q next) m events value m' ↔
      Runs fails (next (q.answer m).1) (q.answer m).2 events value m' := by
  constructor
  · intro h
    cases h with
    | ask hnext => exact hnext
  · exact .ask

theorem runs_question_iff {q : Query} {answer : q.Answer} :
    Runs fails (question q) m events answer m' ↔
      events = [] ∧ answer = (q.answer m).1 ∧ m' = (q.answer m).2 :=
  runs_ask_iff.trans runs_done_iff

theorem runs_perform_iff {c : Call} {reply : Except Errno c.Value} :
    Runs fails (perform c) m events reply m' ↔
      c.Outcome fails m reply m' ∧ events = [⟨c, reply, m, m'⟩] := by
  refine Iff.trans ⟨?_, ?_⟩ Call.Attempts.once_iff
  · intro h
    obtain ⟨tries, reply, after, rest, hcall, rfl, hnext⟩ := runs_call_iff.1 h
    obtain ⟨rfl, rfl, rfl⟩ := runs_done_iff.1 hnext
    rwa [List.append_nil]
  · intro h
    exact runs_call_iff.2 ⟨_, _, _, [], h, (List.append_nil _).symm, .done⟩

/-- A run of two programs is a run of the one and then a run of the other. -/
theorem runs_bind_iff {p : Program α} {f : α → Program β} {value : β} :
    Runs fails (p >>= f) m events value m' ↔
      ∃ first rest between middle, events = first ++ rest
        ∧ Runs fails p m first middle between ∧ Runs fails (f middle) between rest value m' := by
  change Runs fails (p.andThen f) m events value m' ↔ _
  constructor
  · intro h
    induction p generalizing m events with
    | done middle => exact ⟨[], events, m, middle, rfl, .done, h⟩
    | call c restarts next ih =>
      obtain ⟨tries, reply, after, tail, hcall, rfl, hnext⟩ := runs_call_iff.1 h
      obtain ⟨first, rest, between, middle, rfl, hfirst, hrest⟩ := ih reply hnext
      exact ⟨tries ++ first, rest, between, middle, (List.append_assoc ..).symm,
        .call hcall hfirst, hrest⟩
    | ask q next ih =>
      obtain ⟨first, rest, between, middle, rfl, hfirst, hrest⟩ := ih _ (runs_ask_iff.1 h)
      exact ⟨first, rest, between, middle, rfl, .ask hfirst, hrest⟩
  · rintro ⟨first, rest, between, middle, rfl, hfirst, hrest⟩
    induction hfirst with
    | done => exact hrest
    | call hcall _ ih =>
      rw [List.append_assoc]
      exact .call hcall (ih hrest)
    | ask _ ih => exact .ask (ih hrest)

/-! ## The run without failures of its own -/

/-- The events of the run in which every call does what it does on the machine. -/
def trace : Program α → Machine → List Event
  | .done _, _ => []
  | .call c _ next, m =>
    ⟨c, (c.reply m).1, m, (c.reply m).2⟩ :: trace (next (c.reply m).1) (c.reply m).2
  | .ask q next, m => trace (next (q.answer m).1) (q.answer m).2

/-- The run that the machine itself makes is one of the runs. -/
theorem runs_run (fails : Call → Errno → Prop) (p : Program α) (m : Machine) :
    Runs fails p m (p.trace m) (p.run m).1 (p.run m).2 := by
  induction p generalizing m with
  | done value => exact .done
  | call c restarts next ih => exact .call (.of_reply m c restarts) (ih _ _)
  | ask q next ih => exact .ask (ih _ _)

/-! ## Invariants -/

/-- Every event of a run is one of the ways in which an attempt at its call can end. -/
theorem Runs.outcome_of_mem {p : Program α} {value : α} (h : Runs fails p m events value m')
    {e : Event} (he : e ∈ events) : e.call.Outcome fails e.before e.reply e.after := by
  induction h with
  | done => cases he
  | call hcall _ ih =>
    rcases List.mem_append.1 he with he | he
    · rcases hcall.eq_of_mem he with rfl | ⟨rfl, hinterrupted⟩
      · exact hcall.outcome
      · exact hinterrupted
    · exact ih he
  | ask _ ih => exact ih he

/-- Every call that a program can make satisfies `C`. -/
def Uses (C : Call → Prop) : Program α → Prop
  | .done _ => True
  | .call c _ next => C c ∧ ∀ reply, Uses C (next reply)
  | .ask _ next => ∀ answer, Uses C (next answer)

theorem Uses.mono {C D : Call → Prop} {p : Program α} (h : p.Uses C) (hCD : ∀ c, C c → D c) :
    p.Uses D := by
  induction p with
  | done value => trivial
  | call c restarts next ih => exact ⟨hCD c h.1, fun reply => ih reply (h.2 reply)⟩
  | ask q next ih => exact fun answer => ih answer (h answer)

/-- Of a program that may make any call nothing is asked. -/
theorem uses_true (p : Program α) : p.Uses fun _ => True := by
  induction p with
  | done value => trivial
  | call c restarts next ih => exact ⟨trivial, ih⟩
  | ask q next ih => exact ih

theorem uses_bind {C : Call → Prop} {p : Program α} {f : α → Program β} (hp : p.Uses C)
    (hf : ∀ value, (f value).Uses C) : (p >>= f).Uses C := by
  change (p.andThen f).Uses C
  induction p with
  | done value => exact hf value
  | call c restarts next ih => exact ⟨hp.1, fun reply => ih reply (hp.2 reply)⟩
  | ask q next ih => exact fun answer => ih answer (hp answer)

/-- What the calls of a program and all questions preserve holds at every moment of its runs. -/
theorem Runs.invariant {C : Call → Prop} {I : Machine → Prop} {p : Program α} {value : α}
    (hcall : ∀ c reply m m', C c → c.Outcome fails m reply m' → I m → I m')
    (hask : ∀ (q : Query) m, I m → I (q.answer m).2)
    (hrun : Runs fails p m events value m') (huses : p.Uses C) (hm : I m) :
    I m' ∧ ∀ e ∈ events, C e.call ∧ I e.before ∧ I e.after := by
  induction hrun with
  | done => exact ⟨hm, fun e he => by cases he⟩
  | call hattempts _ ih =>
    have hafter := hcall _ _ _ _ huses.1 hattempts.outcome hm
    obtain ⟨hend, hevents⟩ := ih (huses.2 _) hafter
    refine ⟨hend, ?_⟩
    intro e he
    rcases List.mem_append.1 he with he | he
    · rcases hattempts.eq_of_mem he with rfl | ⟨rfl, -⟩
      · exact ⟨huses.1, hm, hafter⟩
      · exact ⟨huses.1, hm, hm⟩
    · exact hevents e he
  | ask _ ih => exact ih (huses _) (hask _ _ hm)

end Program

namespace Routine

variable {α β : Type} {fails : Call → Errno → Prop} {m m' : Machine} {events : List Event}

/-- The runs of a routine, with their outcomes. -/
def Runs (fails : Call → Errno → Prop) (t : Routine α) (m : Machine) (events : List Event)
    (outcome : Except Error α) (m' : Machine) : Prop :=
  Program.Runs fails t.outcome m events outcome m'

/-- The run that the machine itself makes is one of the runs. -/
theorem runs_run (fails : Call → Errno → Prop) (t : Routine α) (m : Machine) :
    Runs fails t m (t.outcome.trace m) (t.run m).1 (t.run m).2 :=
  Program.runs_run fails t.outcome m

/-- Every call that a routine can make satisfies `C`. -/
def Uses (C : Call → Prop) (t : Routine α) : Prop := t.outcome.Uses C

/-! ## Runs by the form of the routine -/

theorem runs_pure_iff {value : α} {outcome : Except Error α} :
    Runs fails (pure value : Routine α) m events outcome m' ↔
      events = [] ∧ outcome = .ok value ∧ m' = m := Program.runs_done_iff

theorem runs_fail_iff {e : Error} {outcome : Except Error α} :
    Runs fails (fail e : Routine α) m events outcome m' ↔
      events = [] ∧ outcome = .error e ∧ m' = m := Program.runs_done_iff

theorem runs_callWith_iff {restarts : Bool} {operation : Operation} {path : Path} {c : Call}
    {outcome : Except Error c.Value} :
    Runs fails (callWith restarts operation path c) m events outcome m' ↔
      ∃ reply, c.Attempts fails restarts m events reply m'
        ∧ outcome = reply.mapError (Error.ofErrno operation path) := by
  refine Program.runs_call_iff.trans ⟨?_, ?_⟩
  · rintro ⟨tries, reply, after, rest, hcall, rfl, hnext⟩
    obtain ⟨rfl, rfl, rfl⟩ := Program.runs_done_iff.1 hnext
    rw [List.append_nil]
    exact ⟨reply, hcall, rfl⟩
  · rintro ⟨reply, hcall, rfl⟩
    exact ⟨events, reply, m', [], hcall, (List.append_nil _).symm, .done⟩

theorem runs_call_iff {operation : Operation} {path : Path} {c : Call}
    {outcome : Except Error c.Value} :
    Runs fails (call operation path c) m events outcome m' ↔
      ∃ reply, c.Outcome fails m reply m' ∧ events = [⟨c, reply, m, m'⟩]
        ∧ outcome = reply.mapError (Error.ofErrno operation path) := by
  simp only [call, runs_callWith_iff, Call.Attempts.once_iff, and_assoc]

/-- A call of a routine that succeeded. -/
theorem Runs.callWith_ok {restarts : Bool} {operation : Operation} {path : Path} {c : Call}
    {value : c.Value}
    (h : Runs fails (callWith restarts operation path c) m events (.ok value) m') :
    c.Attempts fails restarts m events (.ok value) m' := by
  obtain ⟨reply, hcall, houtcome⟩ := runs_callWith_iff.1 h
  cases reply with
  | error e => cases houtcome
  | ok value' =>
    cases houtcome
    exact hcall

theorem Runs.call_ok {operation : Operation} {path : Path} {c : Call} {value : c.Value}
    (h : Runs fails (call operation path c) m events (.ok value) m') :
    c.Outcome fails m (.ok value) m' ∧ events = [⟨c, .ok value, m, m'⟩] :=
  Call.Attempts.once_iff.1 h.callWith_ok

/-- A call of a routine that failed. -/
theorem Runs.callWith_error {restarts : Bool} {operation : Operation} {path : Path} {c : Call}
    {e : Error} (h : Runs fails (callWith restarts operation path c) m events (.error e) m') :
    ∃ errno, c.Attempts fails restarts m events (.error errno) m'
      ∧ e = .ofErrno operation path errno := by
  obtain ⟨reply, hcall, houtcome⟩ := runs_callWith_iff.1 h
  cases reply with
  | ok value => cases houtcome
  | error errno =>
    cases houtcome
    exact ⟨errno, hcall, rfl⟩

theorem Runs.call_error {operation : Operation} {path : Path} {c : Call} {e : Error}
    (h : Runs fails (call operation path c) m events (.error e) m') :
    ∃ errno, c.Outcome fails m (.error errno) m' ∧ events = [⟨c, .error errno, m, m'⟩]
      ∧ e = .ofErrno operation path errno := by
  obtain ⟨errno, hcall, rfl⟩ := h.callWith_error
  obtain ⟨houtcome, rfl⟩ := Call.Attempts.once_iff.1 hcall
  exact ⟨errno, houtcome, rfl, rfl⟩

theorem runs_lift_iff {p : Program α} {outcome : Except Error α} :
    Runs fails (lift p) m events outcome m' ↔
      ∃ value, outcome = .ok value ∧ Program.Runs fails p m events value m' := by
  refine Program.runs_bind_iff.trans ⟨?_, ?_⟩
  · rintro ⟨first, rest, between, value, rfl, hp, hrest⟩
    obtain ⟨rfl, rfl, rfl⟩ := Program.runs_done_iff.1 hrest
    rw [List.append_nil]
    exact ⟨value, rfl, hp⟩
  · rintro ⟨value, rfl, hp⟩
    exact ⟨events, [], m', value, (List.append_nil _).symm, hp, .done⟩

theorem runs_attempt_iff {t : Routine α} {outcome : Except Error (Except Error α)} :
    Runs fails t.attempt m events outcome m' ↔
      ∃ result, outcome = .ok result ∧ Runs fails t m events result m' := runs_lift_iff

/-- A run of two routines is a failing run of the one, or a run of the one and a run of the
other. -/
theorem runs_bind_iff {t : Routine α} {f : α → Routine β} {outcome : Except Error β} :
    Runs fails (t >>= f) m events outcome m' ↔
      (∃ e, outcome = .error e ∧ Runs fails t m events (.error e) m')
        ∨ ∃ first rest between value, events = first ++ rest
            ∧ Runs fails t m first (.ok value) between
            ∧ Runs fails (f value) between rest outcome m' := by
  refine Program.runs_bind_iff.trans ⟨?_, ?_⟩
  · rintro ⟨first, rest, between, result, rfl, ht, hrest⟩
    cases result with
    | error e =>
      obtain ⟨rfl, rfl, rfl⟩ := Program.runs_done_iff.1 hrest
      rw [List.append_nil]
      exact Or.inl ⟨e, rfl, ht⟩
    | ok value => exact Or.inr ⟨first, rest, between, value, rfl, ht, hrest⟩
  · rintro (⟨e, rfl, ht⟩ | ⟨first, rest, between, value, rfl, ht, hrest⟩)
    · exact ⟨events, [], m', .error e, (List.append_nil _).symm, ht, .done⟩
    · exact ⟨first, rest, between, .ok value, rfl, ht, hrest⟩

/-- A run of two routines that succeeds is a run of each that does. -/
theorem Runs.bind_ok {t : Routine α} {f : α → Routine β} {value : β}
    (h : Runs fails (t >>= f) m events (.ok value) m') :
    ∃ first rest between middle, events = first ++ rest
      ∧ Runs fails t m first (.ok middle) between
      ∧ Runs fails (f middle) between rest (.ok value) m' := by
  rcases runs_bind_iff.1 h with ⟨e, he, -⟩ | h
  · cases he
  · exact h

/-- What comes before the end of a routine, and a failure with a cleanup after it. -/
theorem runs_withCleanup_iff {cleanup : Program Unit} {t : Routine α}
    {outcome : Except Error α} :
    Runs fails (t.withCleanup cleanup) m events outcome m' ↔
      (∃ value, outcome = .ok value ∧ Runs fails t m events (.ok value) m')
        ∨ ∃ e first rest between, outcome = .error e ∧ events = first ++ rest
            ∧ Runs fails t m first (.error e) between
            ∧ Program.Runs fails cleanup between rest () m' := by
  refine Program.runs_bind_iff.trans ⟨?_, ?_⟩
  · rintro ⟨first, rest, between, result, rfl, ht, hrest⟩
    cases result with
    | ok value =>
      obtain ⟨rfl, rfl, rfl⟩ := Program.runs_done_iff.1 hrest
      rw [List.append_nil]
      exact Or.inl ⟨value, rfl, ht⟩
    | error e =>
      obtain ⟨clean, tail, after, _, rfl, hclean, htail⟩ := Program.runs_bind_iff.1 hrest
      obtain ⟨rfl, rfl, rfl⟩ := Program.runs_done_iff.1 htail
      rw [List.append_nil]
      exact Or.inr ⟨e, first, clean, between, rfl, rfl, ht, hclean⟩
  · rintro (⟨value, rfl, ht⟩ | ⟨e, first, rest, between, rfl, rfl, ht, hclean⟩)
    · exact ⟨events, [], m', .ok value, (List.append_nil _).symm, ht, .done⟩
    · exact ⟨first, rest, between, .error e, rfl, ht, Program.runs_bind_iff.2
        ⟨rest, [], m', (), (List.append_nil _).symm, hclean, .done⟩⟩

theorem runs_ignoringErrors_iff {t : Routine α} {value : Unit} :
    Program.Runs fails t.ignoringErrors m events value m' ↔
      ∃ outcome, Runs fails t m events outcome m' := by
  refine Program.runs_bind_iff.trans ⟨?_, ?_⟩
  · rintro ⟨first, rest, between, outcome, rfl, ht, hrest⟩
    obtain ⟨rfl, -, rfl⟩ := Program.runs_done_iff.1 hrest
    rw [List.append_nil]
    exact ⟨outcome, ht⟩
  · rintro ⟨outcome, ht⟩
    exact ⟨events, [], m', outcome, (List.append_nil _).symm, ht, .done⟩

/-! ## Calls of a routine -/

variable {C : Call → Prop}

theorem uses_pure (value : α) : Uses C (pure value : Routine α) := trivial

theorem uses_fail (e : Error) : Uses C (fail e : Routine α) := trivial

theorem uses_call {restarts : Bool} {operation : Operation} {path : Path} {c : Call} (h : C c) :
    Uses C (callWith restarts operation path c) := ⟨h, fun _ => trivial⟩

theorem uses_bind {t : Routine α} {f : α → Routine β} (ht : Uses C t)
    (hf : ∀ value, Uses C (f value)) : Uses C (t >>= f) := by
  refine Program.uses_bind ht ?_
  intro result
  cases result with
  | ok value => exact hf value
  | error e => trivial

theorem uses_lift {p : Program α} (h : p.Uses C) : Uses C (lift p) :=
  Program.uses_bind h fun _ => trivial

theorem uses_attempt {t : Routine α} (h : Uses C t) : Uses C t.attempt := uses_lift h

theorem uses_withCleanup {cleanup : Program Unit} {t : Routine α} (hcleanup : cleanup.Uses C)
    (h : Uses C t) : Uses C (t.withCleanup cleanup) := by
  refine Program.uses_bind h ?_
  intro result
  cases result with
  | ok value => trivial
  | error e => exact Program.uses_bind hcleanup fun _ => trivial

end Routine

end PortableFiles
