import PortableFiles.Kernel.Run
import PortableFiles.Platform.Basic
set_option autoImplicit false

/-!
# Routines that succeed

What the run of a routine is, part by part (`Routine.run_bind` and its like), and triples for
routines that reach a value (`Routine.Yields`): a triple says that the routine succeeds from every
machine of some kind, and what holds then.
-/

namespace PortableFiles

namespace Routine

variable {α β : Type}

/-! ## Runs by the form of the routine -/

theorem run_pure (value : α) (m : Machine) : (pure value : Routine α).run m = (.ok value, m) := rfl

theorem run_bind (t : Routine α) (f : α → Routine β) (m : Machine) :
    (t >>= f).run m =
      match t.run m with
      | (.ok value, m') => (f value).run m'
      | (.error e, m') => (.error e, m') := by
  refine (Program.run_bind t.outcome _ m).trans ?_
  change Program.run (ExceptT.bindCont f (t.run m).1) (t.run m).2 = _
  rcases t.run m with ⟨outcome, m'⟩
  cases outcome <;> rfl

theorem run_lift (p : Program α) (m : Machine) :
    (lift p).run m = (.ok (p.run m).1, (p.run m).2) := Program.run_bind p _ m

theorem run_call (restarts : Bool) (operation : Operation) (path : Path) (c : Call) (m : Machine) :
    (callWith restarts operation path c).run m =
      ((c.reply m).1.mapError (Error.ofErrno operation path), (c.reply m).2) := rfl

/-- The check of a path that can be asked for leaves no trace. -/
theorem run_checkNul_bind {operation : Operation} {path : Path} (hnul : path.hasNul = false)
    (f : Unit → Routine α) (m : Machine) : (checkNul operation path >>= f).run m = (f ()).run m := by
  rw [checkNul, hnul, if_neg Bool.false_ne_true, run_bind, run_pure]

theorem run_withCleanup (cleanup : Program Unit) (t : Routine α) (m : Machine) :
    (t.withCleanup cleanup).run m =
      match t.run m with
      | (.ok value, m') => (.ok value, m')
      | (.error e, m') => (.error e, (cleanup.run m').2) := by
  refine (Program.run_bind t.outcome _ m).trans ?_
  have hrun : t.run m = t.outcome.run m := rfl
  rw [hrun]
  rcases t.outcome.run m with ⟨outcome, m'⟩
  cases outcome with
  | ok value => rfl
  | error e => exact Program.run_bind cleanup _ m'

/-! ## Triples -/

/-- Whether a routine succeeds from every machine of one kind, with a value and a machine of
another. -/
def Yields (I : Machine → Prop) (t : Routine α) (Q : α → Machine → Prop) : Prop :=
  ∀ m, I m → ∃ value m', t.run m = (.ok value, m') ∧ Q value m'

namespace Yields

variable {I : Machine → Prop} {t : Routine α} {Q : α → Machine → Prop}

theorem pure {value : α} (h : ∀ m, I m → Q value m) : Yields I (pure value) Q :=
  fun m hm => ⟨value, m, rfl, h m hm⟩

theorem bind {f : α → Routine β} {S : β → Machine → Prop} (ht : Yields I t Q)
    (hf : ∀ value, Yields (Q value) (f value) S) : Yields I (t >>= f) S := by
  intro m hm
  obtain ⟨value, between, hrun, hvalue⟩ := ht m hm
  obtain ⟨result, m', hrest, hresult⟩ := hf value between hvalue
  exact ⟨result, m', by rw [run_bind, hrun]; exact hrest, hresult⟩

theorem call {restarts : Bool} {operation : Operation} {path : Path} {c : Call}
    {Q : c.Value → Machine → Prop}
    (h : ∀ m, I m → ∃ value m', c.perform m = .ok (value, m') ∧ Q value m') :
    Yields I (callWith restarts operation path c) Q := by
  intro m hm
  obtain ⟨value, m', hperform, hvalue⟩ := h m hm
  refine ⟨value, m', ?_, hvalue⟩
  rw [run_call, Call.reply, hperform]
  rfl

theorem lift {p : Program α} (h : ∀ m, I m → Q (p.run m).1 (p.run m).2) :
    Yields I (lift p) Q := fun m hm => ⟨_, _, run_lift p m, h m hm⟩

theorem withCleanup {cleanup : Program Unit} (h : Yields I t Q) :
    Yields I (t.withCleanup cleanup) Q := by
  intro m hm
  obtain ⟨value, m', hrun, hvalue⟩ := h m hm
  exact ⟨value, m', by rw [run_withCleanup, hrun], hvalue⟩

theorem checkNul {operation : Operation} {path : Path} (h : path.hasNul = false) :
    Yields I (checkNul operation path) fun _ m => I m := by
  unfold Routine.checkNul
  rw [h]
  exact .pure fun m hm => hm

end Yields

end Routine

end PortableFiles
