import Mathlib.Logic.Function.Basic
import PortableFiles.Proofs.Kernel.Calls
import PortableFiles.Proofs.Kernel.Protocol
set_option autoImplicit false

/-!
# Programs that run at once

Several programs share one file system.  Each of them runs in a process, and a process may run
several of them.  One step of a run is an attempt at a call or a question of one program, and any
program may make the next one; a run may stop after any step, so that what holds after every run
holds at every moment (`Crowd.Runs`).  The open files of all processes are in one table, since
moving an entry concerns whoever has the file open; a program knows only the numbers that it was
given.

If every program keeps to its protocol and every step of a program upholds an invariant of the
states of all of them, the invariant holds after every run (`Crowd.Runs.invariant`).
-/

namespace PortableFiles

/-- The machine with another process on it. -/
def Machine.as (m : Machine) (p : Process) : Machine :=
  { m with
    cwd := p.cwd
    who := p.who
    mask := p.mask
    rememberedMask := p.rememberedMask
    statusLines := p.statusLines
    environment := p.environment
    accounts := p.accounts
    mayOpen := p.mayOpen
    draws := p.draws
    drawn := p.drawn }

/-- Programs that run at once.  They are named by `ι`, the processes by `π`. -/
structure Crowd (ι π α : Type) where
  /-- The file system.  Whatever process is on it does not count. -/
  machine : Machine
  process : π → Process
  /-- The process in which a program runs. -/
  home : ι → π
  /-- What is left to do. -/
  todo : ι → Program α

namespace Crowd

variable {ι π α : Type} [DecidableEq ι] [DecidableEq π]

/-- The machine as a program sees it. -/
def view (c : Crowd ι π α) (i : ι) : Machine := c.machine.as (c.process (c.home i))

/-- The crowd after a step of one program, which leaves a machine and goes on with `rest`. -/
def moved (c : Crowd ι π α) (i : ι) (m : Machine) (rest : Program α) : Crowd ι π α :=
  { c with
    machine := m
    process := Function.update c.process (c.home i) m.process
    todo := Function.update c.todo i rest }

variable {fails : Call → Errno → Prop} {c c' c'' : Crowd ι π α}
  {events more : List (ι × Event)} {i : ι}

/-- The steps of one program, with the event if there is one. -/
inductive Step (fails : Call → Errno → Prop) (c : Crowd ι π α) (i : ι) :
    List (ι × Event) → Crowd ι π α → Prop where
  | call {call : Call} {restarts : Bool} {next : Except Errno call.Value → Program α}
      {reply : Except Errno call.Value} {after : Machine}
      (htodo : c.todo i = .call call restarts next)
      (houtcome : call.Outcome fails (c.view i) reply after) :
      Step fails c i [(i, ⟨call, reply, c.view i, after⟩)]
        (c.moved i after (.resume call restarts next reply))
  | ask {q : Query} {next : q.Answer → Program α} (htodo : c.todo i = .ask q next) :
      Step fails c i []
        (c.moved i (q.answer (c.view i)).2 (next (q.answer (c.view i)).1))

/-- The runs of a crowd, in which the programs make their steps in any order. -/
inductive Runs (fails : Call → Errno → Prop) (c : Crowd ι π α) :
    List (ι × Event) → Crowd ι π α → Prop where
  | start : Runs fails c [] c
  | step {events more : List (ι × Event)} {c' c'' : Crowd ι π α} {i : ι}
      (h : Runs fails c events c') (hstep : Step fails c' i more c'') :
      Runs fails c (events ++ more) c''

/-- Whether every program has come to its end. -/
def IsDone (c : Crowd ι π α) : Prop := ∀ i, ∃ value, c.todo i = .done value

/-! ## Runs by a schedule -/

/-- The next step of a program, if it has one, in which a call does what it does on the machine. -/
def turn (c : Crowd ι π α) (i : ι) : List (ι × Event) × Crowd ι π α :=
  match c.todo i with
  | .done _ => ([], c)
  | .call call restarts next =>
    let result := call.reply (c.view i)
    ([(i, ⟨call, result.1, c.view i, result.2⟩)],
      c.moved i result.2 (.resume call restarts next result.1))
  | .ask q next =>
    let result := q.answer (c.view i)
    ([], c.moved i result.2 (next result.1))

/-- The run in which the programs take turns as the schedule says. -/
def play (c : Crowd ι π α) : List ι → List (ι × Event) × Crowd ι π α
  | [] => ([], c)
  | i :: schedule =>
    let rest := (c.turn i).2.play schedule
    ((c.turn i).1 ++ rest.1, rest.2)

theorem Runs.turn (fails : Call → Errno → Prop) (h : Runs fails c events c') (i : ι) :
    Runs fails c (events ++ (c'.turn i).1) (c'.turn i).2 := by
  unfold Crowd.turn
  split
  · rw [List.append_nil]
    exact h
  · rename_i call restarts next htodo
    exact .step h (.call htodo (.of_reply _ call))
  · rename_i q next htodo
    exact .step h (.ask htodo)

/-- What a schedule leads to is a run. -/
theorem runs_play (fails : Call → Errno → Prop) (c : Crowd ι π α) (schedule : List ι) :
    Runs fails c (c.play schedule).1 (c.play schedule).2 := by
  have hfrom : ∀ {events c'}, Runs fails c events c' →
      Runs fails c (events ++ (c'.play schedule).1) (c'.play schedule).2 := by
    induction schedule with
    | nil =>
      intro events c' h
      rw [play, List.append_nil]
      exact h
    | cons i schedule ih =>
      intro events c' h
      rw [play, ← List.append_assoc]
      exact ih (h.turn fails i)
  exact hfrom .start

/-! ## Invariants -/

section Invariant

variable {σ : Type} {P : ι → Protocol σ} {Q : ι → α → σ → Prop}
  {I : (ι → σ) → List (ι × Event) → Crowd ι π α → Prop} {G : ι × Event → Prop}

/-- Whether every program keeps to its protocol from its state on. -/
def Obeys (P : ι → Protocol σ) (Q : ι → α → σ → Prop) (s : ι → σ) (c : Crowd ι π α) : Prop :=
  ∀ i, (c.todo i).Obeys (P i) (Q i) (s i)

/-- After a step of one program the others are where they were. -/
theorem Obeys.moved {s : ι → σ} (h : Obeys P Q s c) (m : Machine) {rest : Program α} {s' : σ}
    (hrest : rest.Obeys (P i) (Q i) s') :
    Obeys P Q (Function.update s i s') (c.moved i m rest) := by
  intro j
  by_cases hj : j = i
  · subst hj
    simpa [Crowd.moved] using hrest
  · simpa [Crowd.moved, hj] using h j

/-- If every step that the protocols allow upholds an invariant, it holds after every run in which
all events satisfy `G`. -/
theorem Runs.invariant
    (hcall : ∀ {s events c i call restarts next reply after}, I s events c →
      c.todo i = .call call restarts next → (P i).Allows (s i) call →
      call.Outcome fails (c.view i) reply after → G (i, ⟨call, reply, c.view i, after⟩) →
      ∃ s', (P i).Moves (s i) call reply s'
        ∧ I (Function.update s i s') (events ++ [(i, ⟨call, reply, c.view i, after⟩)])
            (c.moved i after (.resume call restarts next reply)))
    (hask : ∀ {s events c i q next}, I s events c → c.todo i = .ask q next →
      (P i).MayAsk (s i) q →
      (P i).Answers (s i) q (q.answer (c.view i)).1
        ∧ I s events (c.moved i (q.answer (c.view i)).2 (next (q.answer (c.view i)).1)))
    {s : ι → σ} (hstart : I s [] c) (hobeys : Obeys P Q s c) (hrun : Runs fails c events c')
    (hG : ∀ e ∈ events, G e) : ∃ s', I s' events c' ∧ Obeys P Q s' c' := by
  induction hrun with
  | start => exact ⟨s, hstart, hobeys⟩
  | @step events more c' c'' i _ hstep ih =>
    obtain ⟨s', hI, hobeys'⟩ := ih fun e he => hG e (List.mem_append_left _ he)
    have hprogram := hobeys' i
    cases hstep with
    | call htodo houtcome =>
      rw [htodo] at hprogram
      have hgood := hG _ (List.mem_append_right _ List.mem_cons_self)
      obtain ⟨after, hmoves, hI'⟩ := hcall hI htodo hprogram.1 houtcome hgood
      exact ⟨_, hI', hobeys'.moved _ (hprogram.resume hmoves)⟩
    | @ask q next htodo =>
      rw [htodo] at hprogram
      obtain ⟨hmay, hnext⟩ := hprogram
      obtain ⟨hanswers, hI'⟩ := hask hI htodo hmay
      have hmoved := hobeys'.moved (q.answer (c'.view i)).2 (hnext _ hanswers)
      rw [Function.update_eq_self] at hmoved
      rw [List.append_nil]
      exact ⟨s', hI', hmoved⟩

end Invariant

end Crowd

end PortableFiles
