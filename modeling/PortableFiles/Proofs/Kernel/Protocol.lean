import PortableFiles.Proofs.Kernel.Runs
set_option autoImplicit false

/-!
# Programs that keep to a protocol

What is known of a program between two of its calls is a state of its own, whatever else happens
on the machine meanwhile.  A protocol says which calls may be made in a state and to which states
their answers lead, and likewise for questions.  That a program keeps to it is seen on the program
alone (`Program.Obeys`), part by part (`Program.obeys_bind`), and it still does after each attempt
at a call (`Program.Obeys.resume`).
-/

namespace PortableFiles

/-- What may be done in a state, and what may come of it. -/
structure Protocol (σ : Type) where
  Allows : σ → Call → Prop
  Moves : σ → (c : Call) → Except Errno c.Value → σ → Prop
  MayAsk : σ → Query → Prop
  Answers : σ → (q : Query) → q.Answer → Prop

/-- Whether a call can be made again in the state in which it was interrupted. -/
def Protocol.Stays {σ : Type} (P : Protocol σ) (s : σ) (c : Call) : Prop :=
  ∀ s', P.Moves s c (.error .interrupted) s' → s' = s

namespace Program

variable {α β σ : Type} {P : Protocol σ}

/-- Whether a program keeps to a protocol from a state on, and whether its value and the state in
which it ends satisfy `Q`.  A call that is made again is made in the same state. -/
def Obeys (P : Protocol σ) (Q : α → σ → Prop) : Program α → σ → Prop
  | .done value, s => Q value s
  | .call c restarts next, s => P.Allows s c ∧ (restarts = true → P.Stays s c)
      ∧ ∀ reply s', P.Moves s c reply s' → Obeys P Q (next reply) s'
  | .ask q next, s => P.MayAsk s q ∧ ∀ answer, P.Answers s q answer → Obeys P Q (next answer) s

theorem Obeys.mono {Q Q' : α → σ → Prop} {p : Program α} {s : σ} (h : p.Obeys P Q s)
    (hQ : ∀ value s, Q value s → Q' value s) : p.Obeys P Q' s := by
  induction p generalizing s with
  | done value => exact hQ value s h
  | call c restarts next ih =>
    exact ⟨h.1, h.2.1, fun reply s' hs' => ih reply (h.2.2 reply s' hs')⟩
  | ask q next ih => exact ⟨h.1, fun answer hanswer => ih answer (h.2 answer hanswer)⟩

/-- Two programs keep to a protocol if the one does and the other one does from where it ends. -/
theorem obeys_bind {Q : β → σ → Prop} {p : Program α} {f : α → Program β} {s : σ}
    (h : p.Obeys P (fun value s => (f value).Obeys P Q s) s) : (p >>= f).Obeys P Q s := by
  change (p.andThen f).Obeys P Q s
  induction p generalizing s with
  | done value => exact h
  | call c restarts next ih =>
    exact ⟨h.1, h.2.1, fun reply s' hs' => ih reply (h.2.2 reply s' hs')⟩
  | ask q next ih => exact ⟨h.1, fun answer hanswer => ih answer (h.2 answer hanswer)⟩

/-- After an attempt at a call, what is left to do keeps to the protocol. -/
theorem Obeys.resume {Q : α → σ → Prop} {c : Call} {restarts : Bool}
    {next : Except Errno c.Value → Program α} {reply : Except Errno c.Value} {s s' : σ}
    (h : (call c restarts next).Obeys P Q s) (hmoves : P.Moves s c reply s') :
    (resume c restarts next reply).Obeys P Q s' := by
  have hnext := h.2.2 reply s' hmoves
  cases restarts with
  | false => exact hnext
  | true =>
    cases reply with
    | ok value => exact hnext
    | error e =>
      rw [Program.resume]
      split
      · rename_i he
        subst he
        rw [h.2.1 rfl s' hmoves]
        exact h
      · exact hnext

theorem obeys_question {q : Query} {Q : q.Answer → σ → Prop} {s : σ} (hmay : P.MayAsk s q)
    (h : ∀ answer, P.Answers s q answer → Q answer s) : (question q).Obeys P Q s := ⟨hmay, h⟩

end Program

namespace Routine

variable {α β σ : Type} {P : Protocol σ} {Q : α → σ → Prop} {E : σ → Prop} {s : σ}

/-- What is asked of the end of a routine: `Q` of a value, or `E` where it fails. -/
def Ends (Q : α → σ → Prop) (E : σ → Prop) : Except Error α → σ → Prop
  | .ok value, s => Q value s
  | .error _, s => E s

/-- Whether a routine keeps to a protocol, and whether it ends as asked. -/
def Obeys (P : Protocol σ) (Q : α → σ → Prop) (E : σ → Prop) (t : Routine α) (s : σ) : Prop :=
  t.outcome.Obeys P (Ends Q E) s

theorem Obeys.mono {Q' : α → σ → Prop} {E' : σ → Prop} {t : Routine α} (h : Obeys P Q E t s)
    (hQ : ∀ value s, Q value s → Q' value s) (hE : ∀ s, E s → E' s) : Obeys P Q' E' t s := by
  refine Program.Obeys.mono h ?_
  rintro (e | value) s hend
  · exact hE s hend
  · exact hQ value s hend

theorem obeys_pure {value : α} (h : Q value s) : Obeys P Q E (pure value) s := h

theorem obeys_fail {e : Error} (h : E s) : Obeys P Q E (fail e) s := h

theorem obeys_callWith {restarts : Bool} {operation : Operation} {path : Path} {c : Call}
    {Q : c.Value → σ → Prop} (hallows : P.Allows s c) (hstays : restarts = true → P.Stays s c)
    (h : ∀ value s', P.Moves s c (.ok value) s' → Q value s')
    (herror : ∀ e s', P.Moves s c (.error e) s' → E s') :
    Obeys P Q E (callWith restarts operation path c) s := by
  refine ⟨hallows, hstays, ?_⟩
  rintro (e | value) s' hs'
  · exact herror e s' hs'
  · exact h value s' hs'

theorem obeys_call {operation : Operation} {path : Path} {c : Call} {Q : c.Value → σ → Prop}
    (hallows : P.Allows s c)
    (h : ∀ value s', P.Moves s c (.ok value) s' → Q value s')
    (herror : ∀ e s', P.Moves s c (.error e) s' → E s') :
    Obeys P Q E (call operation path c) s := obeys_callWith hallows nofun h herror

theorem obeys_bind {Q : β → σ → Prop} {t : Routine α} {f : α → Routine β}
    (h : Obeys P (fun value s => Obeys P Q E (f value) s) E t s) : Obeys P Q E (t >>= f) s := by
  refine Program.obeys_bind (Program.Obeys.mono h ?_)
  rintro (e | value) s hend
  · exact hend
  · exact hend

theorem obeys_lift {p : Program α} (h : p.Obeys P Q s) : Obeys P Q E (lift p) s :=
  Program.obeys_bind (h.mono fun _ _ hvalue => hvalue)

theorem obeys_attempt {Q : Except Error α → σ → Prop} {t : Routine α}
    (h : t.outcome.Obeys P Q s) : Obeys P Q E t.attempt s := obeys_lift h

/-- A failure is followed by the cleanup. -/
theorem obeys_withCleanup {cleanup : Program Unit} {t : Routine α}
    (h : Obeys P Q (fun s => cleanup.Obeys P (fun _ s => E s) s) t s) :
    Obeys P Q E (t.withCleanup cleanup) s := by
  refine Program.obeys_bind (Program.Obeys.mono h ?_)
  rintro (e | value) s hend
  · exact Program.obeys_bind (hend.mono fun _ _ hclean => hclean)
  · exact hend

theorem obeys_ignoringErrors {t : Routine α} (h : Obeys P (fun _ s => E s) E t s) :
    t.ignoringErrors.Obeys P (fun _ s => E s) s := by
  refine Program.obeys_bind (Program.Obeys.mono h ?_)
  rintro (e | value) s hend
  · exact hend
  · exact hend

end Routine

end PortableFiles
