import PortableFiles.Proofs.Kernel.AlikeMachines
import PortableFiles.Proofs.Kernel.Runs
import PortableFiles.Proofs.Kernel.Triples
set_option autoImplicit false

/-!
# Routines that go in step

Two routines go in step (`Routine.InStep`) if, from machines that stand in a relation, both succeed
or both fail with an error of one kind, and the machines after them stand in a relation again.
Routines that are built alike from parts that go in step go in step.
-/

namespace PortableFiles.Routine

variable {α β α' β' : Type}

/-- Two ends of runs: both have succeeded, or both have failed with errors of one kind. -/
inductive EndTogether (Q : α → α' → Machine → Machine → Prop) (F : Machine → Machine → Prop) :
    Except Error α × Machine → Except Error α' × Machine → Prop where
  | ok {value : α} {value' : α'} {m m' : Machine} (h : Q value value' m m') :
    EndTogether Q F (.ok value, m) (.ok value', m')
  | error {e e' : Error} {m m' : Machine} (hkind : e.kind = e'.kind) (h : F m m') :
    EndTogether Q F (.error e, m) (.error e', m')

/-- Whether two routines go in step from every two machines of one relation.  What they have
succeeded with and the machines then are in another one, and so are the machines after failures. -/
def InStep (I : Machine → Machine → Prop) (t : Routine α) (t' : Routine α')
    (Q : α → α' → Machine → Machine → Prop) (F : Machine → Machine → Prop) : Prop :=
  ∀ m m', I m m' → EndTogether Q F (t.run m) (t'.run m')

namespace InStep

variable {I J F F' : Machine → Machine → Prop} {t : Routine α} {t' : Routine α'}
  {Q Q' : α → α' → Machine → Machine → Prop}

theorem mono (h : InStep I t t' Q F) (hI : ∀ m m', J m m' → I m m')
    (hQ : ∀ a a' m m', Q a a' m m' → Q' a a' m m') (hF : ∀ m m', F m m' → F' m m') :
    InStep J t t' Q' F' := by
  intro m m' hm
  have hends := h m m' (hI m m' hm)
  generalize t.run m = r, t'.run m' = r' at hends
  cases hends with
  | ok h => exact .ok (hQ _ _ _ _ h)
  | error hkind h => exact .error hkind (hF _ _ h)

/-- In step from fewer machines. -/
theorem mono_pre (h : InStep I t t' Q F) (hI : ∀ m m', J m m' → I m m') : InStep J t t' Q F :=
  h.mono hI (fun _ _ _ _ h => h) fun _ _ h => h

/-- In step with less known after failures. -/
theorem mono_error (h : InStep I t t' Q F) (hF : ∀ m m', F m m' → F' m m') : InStep I t t' Q F' :=
  h.mono (fun _ _ h => h) (fun _ _ _ _ h => h) hF

theorem pure {a : α} {a' : α'} (h : ∀ m m', I m m' → Q a a' m m') :
    InStep I (pure a) (pure a') Q F := fun m m' hm => .ok (h m m' hm)

theorem fail {e e' : Error} (hkind : e.kind = e'.kind) :
    InStep I (fail e : Routine α) (fail e' : Routine α') Q I := fun _ _ hm => .error hkind hm

theorem bind {f : α → Routine β} {f' : α' → Routine β'} {S : β → β' → Machine → Machine → Prop}
    (ht : InStep I t t' Q F) (hf : ∀ a a', InStep (Q a a') (f a) (f' a') S F) :
    InStep I (t >>= f) (t' >>= f') S F := by
  intro m m' hm
  have hends := ht m m' hm
  rw [run_bind, run_bind]
  generalize t.run m = r, t'.run m' = r' at hends
  cases hends with
  | ok h => exact hf _ _ _ _ h
  | error hkind h => exact .error hkind h

/-- What the second routine makes of its value is no step. -/
theorem map_right {g : α' → β'} {S : α → β' → Machine → Machine → Prop} (h : InStep I t t' Q F)
    (hS : ∀ a a' m m', Q a a' m m' → S a (g a') m m') :
    InStep I t (t' >>= fun a' => Pure.pure (g a')) S F := by
  intro m m' hm
  have hends := h m m' hm
  rw [run_bind]
  generalize t.run m = r, t'.run m' = r' at hends
  cases hends with
  | ok h => exact .ok (hS _ _ _ _ h)
  | error hkind h => exact .error hkind h

/-- Two calls that agree, of which one that fails changes nothing. -/
theorem call {restarts restarts' : Bool} {operation operation' : Operation} {path path' : Path}
    {c c' : Call}
    {Q : c.Value → c'.Value → Machine → Machine → Prop}
    (h : ∀ m m', I m m' →
      Agree (fun r r' => Q r.1 r'.1 r.2 r'.2) (c.perform m) (c'.perform m')) :
    InStep I (callWith restarts operation path c) (callWith restarts' operation' path' c') Q I := by
  intro m m' hm
  have hagree := h m m' hm
  rw [run_call, run_call, Call.reply, Call.reply]
  generalize c.perform m = r, c'.perform m' = r' at hagree
  cases hagree with
  | ok h => exact .ok h
  | error e => exact .error rfl hm

theorem lift {p : Program α} {p' : Program α'}
    (h : ∀ m m', I m m' → Q (p.run m).1 (p'.run m').1 (p.run m).2 (p'.run m').2) :
    InStep I (lift p) (lift p') Q F := by
  intro m m' hm
  rw [run_lift, run_lift]
  exact .ok (h m m' hm)

theorem attempt (h : InStep I t t' Q F) :
    InStep I t.attempt t'.attempt (fun o o' m m' => EndTogether Q F (o, m) (o', m')) F' := lift h

theorem withCleanup {cleanup cleanup' : Program Unit} (h : InStep I t t' Q F)
    (hcleanup : ∀ m m', F m m' → F' (cleanup.run m).2 (cleanup'.run m').2) :
    InStep I (t.withCleanup cleanup) (t'.withCleanup cleanup') Q F' := by
  intro m m' hm
  have hends := h m m' hm
  rw [run_withCleanup, run_withCleanup]
  generalize t.run m = r, t'.run m' = r' at hends
  cases hends with
  | ok h => exact .ok h
  | error hkind h => exact .error hkind (hcleanup _ _ h)

/-- Routines whose errors are not looked at leave machines in the relation in which both their ends
are. -/
theorem ignoringErrors (h : InStep I t t' (fun _ _ => J) J) {m m' : Machine} (hm : I m m') :
    J (t.ignoringErrors.run m).2 (t'.ignoringErrors.run m').2 := by
  have hends := h m m' hm
  have hrun : ∀ {γ : Type} (t : Routine γ) (m : Machine),
      (t.ignoringErrors.run m).2 = (t.run m).2 := fun t m => by
    rw [Routine.ignoringErrors, Program.run_bind]
    rfl
  rw [hrun, hrun]
  generalize t.run m = r, t'.run m' = r' at hends
  cases hends with
  | ok h => exact h
  | error _ h => exact h

/-- What is known of the first machine after the first routine. -/
theorem and_left (h : InStep I t t' Q F) {L : Machine → Prop}
    (hleft : ∀ m m', I m m' → L (t.run m).2) :
    InStep I t t' (fun a a' m m' => Q a a' m m' ∧ L m) fun m m' => F m m' ∧ L m := by
  intro m m' hm
  have hends := h m m' hm
  have hleft := hleft m m' hm
  generalize t.run m = r, t'.run m' = r' at hends hleft
  cases hends with
  | ok h => exact .ok ⟨h, hleft⟩
  | error hkind h => exact .error hkind ⟨h, hleft⟩

end InStep

end PortableFiles.Routine
