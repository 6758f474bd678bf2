import PortableFiles.Proofs.Writing.Contest
set_option autoImplicit false

/-!
# Atomic writes in any order

Whatever atomic writes run at once, in whatever order they make their calls and whatever fails,
none of them meets a file that another one has made, and every destination holds what it did at the
start or all that one of them has written (`AtomicWrite.concurrent`).
-/

namespace PortableFiles.AtomicWrite

open Crowd (Made)

variable {ι π : Type} [DecidableEq ι] {w : ι → AtomicWrite} {c₀ c : Crowd ι π (Except Error Unit)}
  {s : ι → Phase} {events : List (ι × Event)} {fails : Call → Errno → Prop}

/-! ## The run -/

/-- A contest in the processes of a crowd, which are as they were in all that counts. -/
structure Underway (w : ι → AtomicWrite) (c₀ : Crowd ι π (Except Error Unit)) (s : ι → Phase)
    (events : List (ι × Event)) (c : Crowd ι π (Except Error Unit)) : Prop where
  home : c.home = c₀.home
  processes : ∀ p, (c₀.process p).Agrees (c.process p)
  contest : Contest w c₀ s events c.machine

namespace Underway

theorem start (w : ι → AtomicWrite) (c₀ : Crowd ι π (Except Error Unit)) :
    Underway w c₀ (fun _ => .unmade) [] c₀ where
  home := rfl
  processes _ := ⟨rfl, rfl, rfl, rfl, rfl, rfl⟩
  contest := .start w c₀

theorem agrees (h : Underway w c₀ s events c) (i : ι) :
    (c₀.view i).process.Agrees (c.view i).process := by
  change (c₀.process (c₀.home i)).Agrees (c.process (c.home i))
  rw [h.home]
  exact h.processes _

theorem follows (h : Underway w c₀ s events c) (i : ι) : (c₀.view i).Follows (c.view i) :=
  ⟨h.contest.tree, h.agrees i⟩

/-- The contest as one of the writes sees it. -/
theorem contest_view (h : Underway w c₀ s events c) (i : ι) : Contest w c₀ s events (c.view i) :=
  h.contest.of_eq rfl rfl

variable [DecidableEq π]

/-- A call of one write is a step of the contest. -/
theorem call (h : Underway w c₀ s events c) (hw : c₀.machine.tree.WellFormed)
    (hdraws : NoneDraws w c₀) {i : ι} {call : Call} {reply : Except Errno call.Value}
    {after : Machine} (hallows : ((w i).protocol (c₀.view i)).Allows (s i) call)
    (houtcome : call.Outcome fails (c.view i) reply after)
    (hremoves : ¬ (⟨call, reply, c.view i, after⟩ : Event).FailsToRemove)
    (rest : Program (Except Error Unit)) :
    ∃ s', ((w i).protocol (c₀.view i)).Moves (s i) call reply s'
      ∧ Underway w c₀ (Function.update s i s') (events ++ [(i, ⟨call, reply, c.view i, after⟩)])
          (c.moved i after rest) := by
  have hcontest := h.contest_view i
  have hapart : ∀ d, s i = .drafting d → ∀ slash,
      (c₀.view i).locate (fun _ => false) (w i).path ≠ .ok (.entry d.dir d.name slash) := by
    intro d hd slash hplace
    exact hcontest.apart hdraws hd ⟨i, slash, hplace⟩
  obtain ⟨s', hmoves, hin, hstep⟩ :=
    Phase.exists_step (h.follows i) hw (hcontest.drafts i) hapart hallows houtcome hremoves
  refine ⟨s', hmoves, h.home, ?_, ?_⟩
  · intro p
    change (c₀.process p).Agrees (Function.update c.process (c.home i) after.process p)
    rw [houtcome.process]
    change (c₀.process p).Agrees (Function.update c.process (c.home i) (c.process (c.home i)) p)
    rw [Function.update_eq_self]
    exact h.processes p
  · have hafter := Contest.step (e := ⟨call, reply, c.view i, after⟩) hcontest hdraws hstep hin
    exact hafter

/-- A question of one write leaves the contest as it is. -/
theorem ask (h : Underway w c₀ s events c) {i : ι} {q : Query}
    (hmay : ((w i).protocol (c₀.view i)).MayAsk (s i) q) (rest : Program (Except Error Unit)) :
    ((w i).protocol (c₀.view i)).Answers (s i) q (q.answer (c.view i)).1
      ∧ Underway w c₀ s events (c.moved i (q.answer (c.view i)).2 rest) := by
  have hcontest := h.contest_view i
  refine ⟨Phase.MayAsk.answers hmay (h.agrees i) (hcontest.drafts i), h.home, ?_, ?_⟩
  · intro p
    change (c₀.process p).Agrees
      (Function.update c.process (c.home i) (q.answer (c.view i)).2.process p)
    by_cases hp : p = c.home i
    · rw [hp, Function.update_self, h.home]
      exact Phase.MayAsk.agrees hmay (h.agrees i)
    · rw [Function.update_of_ne hp]
      exact h.processes p
  · exact hcontest.of_eq (q.tree_answer _) (q.files_answer _)

end Underway

/-! ## What comes of it -/

/-- What is true of writes that run at once, at any moment. -/
structure Concurrent (w : ι → AtomicWrite) (c₀ : Crowd ι π (Except Error Unit))
    (events : List (ι × Event)) (c : Crowd ι π (Except Error Unit)) : Prop where
  /-- A file that a write writes, renames or removes, or whose permissions it sets, is one that it
  has made itself. -/
  own : ∀ i e id, (i, e) ∈ events → e.Touches id → Made events i id
  sole : ∀ i j id, Made events i id → Made events j id → i = j
  /-- Nothing is renamed over a name that is no destination. -/
  aim : ∀ i e dir name, (i, e) ∈ events → e.PublishesAt dir name → IsDestination w c₀ dir name
  /-- The files of the start keep their content and permissions. -/
  files : ∀ id node, c₀.machine.tree.inode? id = some node → node.content.isDirectory = false →
    c.machine.tree.inode? id = some node
  /-- A destination leads to what it did at the start if nothing has been published there, and
  otherwise to the complete file of the write that was the last one to publish. -/
  destinations : ∀ dir name, IsDestination w c₀ dir name →
    Holds w c₀ events c.machine.tree dir name
  /-- When all have come to an end, every other name leads to what it did at the start, and so no
  file is left over. -/
  returned : c.IsDone → ∀ dir name, ¬ IsDestination w c₀ dir name →
    c.machine.tree.child? dir name = c₀.machine.tree.child? dir name

/-- Any number of atomic writes may run at once, in any processes, in any order of their calls, and
any calls may fail but the removals of their own new files.  If none of them draws the name of a
missing destination, none meets a file that another one has made; each destination is at every
moment what it was at the start or the complete file of one of them, with the permissions that this
one should give it; and in the end it is the file of the one that was the last to rename, and no
file is left over. -/
theorem concurrent [DecidableEq π] (hw : c₀.machine.tree.WellFormed)
    (htodo : ∀ i, c₀.todo i = (w i).routine.outcome) (hquiet : ∀ i, (w i).reader.IsQuiet)
    (hdraws : NoneDraws w c₀) (hremoves : ∀ e ∈ events, ¬ e.2.FailsToRemove)
    (hrun : Crowd.Runs fails c₀ events c) : Concurrent w c₀ events c := by
  have hobeys : Crowd.Obeys (fun i => (w i).protocol (c₀.view i))
      (fun _ => Routine.Ends (fun _ s => s = .settled) fun s => s = .unmade ∨ s = .settled)
      (fun _ => .unmade) c₀ := by
    intro i
    rw [htodo]
    exact obeys_routine (hquiet i)
  obtain ⟨s, hunderway, hobeys⟩ := Crowd.Runs.invariant (I := Underway w c₀)
    (G := fun e => ¬ e.2.FailsToRemove)
    (fun h _ hallows houtcome hremoves => h.call hw hdraws hallows houtcome hremoves _)
    (fun h _ hmay => h.ask hmay _) (.start w c₀) hobeys hrun hremoves
  have hcontest := hunderway.contest
  refine ⟨hcontest.touches, hcontest.sole, hcontest.publishes, ?_, ?_, ?_⟩
  · intro id node hnode hplain
    obtain ⟨f, hf⟩ := hcontest.tree.inodes id node hnode
    rwa [Inode.mapEntries_of_not_isDirectory f node hplain] at hf
  · intro dir name hdestination
    rcases hcontest.names dir name with hholds | ⟨i, d, hd, rfl, rfl⟩
    · exact hholds
    · exact absurd hdestination (hcontest.apart hdraws hd)
  · intro hdone dir name hother
    rcases hcontest.names dir name with hholds | ⟨i, d, hd, rfl, rfl⟩
    · cases hholds with
      | initial _ hsame => exact hsame
      | @published before after i e _ _ hevents hpublishes _ _ _ _ _ _ =>
        have he : (i, e) ∈ events := by
          rw [hevents]
          exact List.mem_append_right _ List.mem_cons_self
        exact absurd (hcontest.publishes i e dir name he hpublishes) hother
    · -- A write that has come to its end has no draft.
      obtain ⟨value, hvalue⟩ := hdone i
      have hend := hobeys i
      rw [hvalue, hd] at hend
      cases value with
      | ok _ => cases hend
      | error e => rcases hend with hend | hend <;> cases hend

/-! ## Two writes -/

/-- Two writes to one path, the one with permissions and the other one without. -/
def rivals : Bool → AtomicWrite
  | false => .ofBytes ⟨[97]⟩ [104, 105] (Options.plain.withFileMode 0o644) none
  | true => .ofBytes ⟨[97]⟩ [98, 121, 101] Options.plain none

/-- The small system with a process that draws one word twice. -/
def stutter : Machine := Machine.small fun k => if k < 2 then 7 else 8

/-- Both writes in this process. -/
def race : Crowd Bool Unit (Except Error Unit) where
  machine := stutter
  process _ := stutter.process
  home _ := ()
  todo i := (rivals i).routine.outcome

/-- The run in which the writes take turns. -/
def raced : List (Bool × Event) × Crowd Bool Unit (Except Error Unit) :=
  race.play (List.replicate 10 [false, true]).flatten

theorem noneDraws_rivals : NoneDraws rivals race := by
  rintro i k dir name ⟨j, slash, hplace⟩ -
  have hname : name = [97] := by
    have hroot : (race.view j).locate (fun _ => false) (rivals j).path
        = .ok (.entry 9 [97] false) := by cases j <;> rfl
    rw [hroot] at hplace
    cases hplace
    rfl
  rw [hname]
  change Bytes.ofString (Text.Numeral.decimalString (if k < 2 then 7 else 8 : UInt32).toNat) ≠ _
  split
  · decide +kernel
  · decide +kernel

/-- Both writes draw the same name, and one of them another name then.  When they have come to an
end, the path leads to what the second one has written. -/
theorem concurrent_rivals : Concurrent rivals race raced.1 raced.2 ∧ raced.2.IsDone
    ∧ raced.2.machine.tree.child? 9 [97] = some 34
    ∧ raced.2.machine.tree.content? 34 = some (.file [98, 121, 101]) := by
  have hremoves : ∀ e ∈ raced.1, ¬ e.2.FailsToRemove := by
    have hall : raced.1.all (fun e => match e.2 with
        | ⟨.unlink _, reply, _, _⟩ => reply.isOk
        | _ => true) = true := by decide +kernel
    rintro ⟨i, _⟩ he ⟨path, errno, before, after, rfl⟩
    have hgood : (Except.error errno : Except Errno Unit).isOk = true :=
      List.all_eq_true.1 hall _ he
    cases hgood
  have hquiet : ∀ i, (rivals i).reader.IsQuiet := by
    intro i
    cases i <;> exact isQuiet_ofBytes _ _ _ _
  have hdone : raced.2.IsDone := by
    have hall : ∀ i, (match raced.2.todo i with | .done _ => true | _ => false) = true := by
      decide +kernel
    intro i
    have hi := hall i
    split at hi
    · rename_i value hvalue
      exact ⟨value, hvalue⟩
    · cases hi
  refine ⟨concurrent (Machine.wellFormed_small _).tree (fun _ => rfl)
    hquiet noneDraws_rivals hremoves (Crowd.runs_play (fun _ _ => False) _ _), hdone, ?_, ?_⟩
  · decide +kernel
  · decide +kernel

end PortableFiles.AtomicWrite
