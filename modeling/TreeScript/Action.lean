import TreeScript.Journal

/-!
# Actions

Reading and running a program are *actions*. An action starts in a state and ends
in one of three ways. It gives a value and a new state, or it stops with an error
and the state it got to, or it does not finish within its budget. The first two
come with the journal of what happened, oldest event first. An action never sees a
journal, so nothing that it computes can depend on one.

Actions form a monad. The journal of two actions in a row is the journal of the
first followed by that of the second.

`iterate` repeats an action until it says to stop. It keeps the journal backwards
while it goes, so that a long loop needs no stack. `iterate_succ` says that it is
the plain recursion.
-/

namespace TreeScript

/-- How an action ends. -/
inductive Outcome (σ ε α : Type) where
  /-- The action gave a value. -/
  | value (result : α) (state : σ) (journal : List Event)
  /-- The action stopped with an error. -/
  | error (cause : ε) (state : σ) (journal : List Event)
  /-- The budget ran out. -/
  | unfinished

namespace Outcome

variable {σ τ ε ε' α β : Type}

/-- Two journals in a row. -/
def joined : List Event → List Event → List Event
  | journal, [] => journal
  | journal, journal' => journal ++ journal'

@[simp] theorem joined_eq_append (journal journal' : List Event) :
    joined journal journal' = journal ++ journal' := by
  unfold joined
  split <;> simp

/-- An outcome with an earlier journal before its own. -/
def after (journal : List Event) : Outcome σ ε α → Outcome σ ε α
  | .value result state journal' => .value result state (joined journal journal')
  | .error cause state journal' => .error cause state (joined journal journal')
  | .unfinished => .unfinished

@[simp] theorem after_nil (outcome : Outcome σ ε α) : outcome.after [] = outcome := by
  cases outcome <;> simp [after]

@[simp] theorem after_after (journal journal' : List Event) (outcome : Outcome σ ε α) :
    (outcome.after journal').after journal = outcome.after (journal ++ journal') := by
  cases outcome <;> simp [after]

/-- The outcome with its error renamed. -/
def mapError (f : ε → ε') : Outcome σ ε α → Outcome σ ε' α
  | .value result state journal => .value result state journal
  | .error cause state journal => .error (f cause) state journal
  | .unfinished => .unfinished

/-- The result of a finished action, without its journal. -/
def result? : Outcome σ ε α → Option (Except ε α × σ)
  | .value result state _ => some (.ok result, state)
  | .error cause state _ => some (.error cause, state)
  | .unfinished => none

/-- The journal of a finished action. -/
def journal : Outcome σ ε α → List Event
  | .value _ _ journal => journal
  | .error _ _ journal => journal
  | .unfinished => []

@[simp] theorem result?_after (journal : List Event) (outcome : Outcome σ ε α) :
    (outcome.after journal).result? = outcome.result? := by
  cases outcome <;> rfl

end Outcome

/-- A step of reading or running a program. -/
def Action (σ ε α : Type) : Type := σ → Outcome σ ε α

namespace Action

variable {σ τ ε ε' α β : Type}

/-! ## The monad -/

/-- Gives a value and does nothing. -/
protected def pure (a : α) : Action σ ε α := fun s => .value a s []

/-- One action and then another, which sees the value of the first. -/
protected def bind (x : Action σ ε α) (f : α → Action σ ε β) : Action σ ε β := fun s =>
  match x s with
  | .value a t [] => f a t
  | .value a t journal => (f a t).after journal
  | .error e t journal => .error e t journal
  | .unfinished => .unfinished

instance : Monad (Action σ ε) where
  pure := Action.pure
  bind := Action.bind

theorem pure_apply (a : α) (s : σ) : (pure a : Action σ ε α) s = .value a s [] := rfl

/-- What follows goes on in the state that is left, and its events come after those told so far. -/
theorem bind_of_value {x : Action σ ε α} (f : α → Action σ ε β) {s t : σ} {a : α}
    {journal : List Event} (h : x s = .value a t journal) :
    (x >>= f) s = (f a t).after journal := by
  show Action.bind x f s = _
  cases journal <;> simp [Action.bind, h]

/-- An error skips what follows. -/
theorem bind_of_error {x : Action σ ε α} (f : α → Action σ ε β) {s t : σ} {e : ε}
    {journal : List Event} (h : x s = .error e t journal) :
    (x >>= f) s = .error e t journal := by
  show Action.bind x f s = _
  simp [Action.bind, h]

theorem bind_of_unfinished {x : Action σ ε α} (f : α → Action σ ε β) {s : σ}
    (h : x s = .unfinished) : (x >>= f) s = .unfinished := by
  show Action.bind x f s = _
  simp [Action.bind, h]

theorem bind_pure_id (x : Action σ ε α) : (x >>= fun a => pure (id a)) = x := by
  funext s
  cases h : x s with
  | value a t journal =>
      rw [bind_of_value _ h]
      simp [pure_apply, Outcome.after]
  | error e t journal => rw [bind_of_error _ h]
  | unfinished => rw [bind_of_unfinished _ h]

theorem bind_bind {γ : Type} (x : Action σ ε α) (f : α → Action σ ε β) (g : β → Action σ ε γ) :
    (x >>= f >>= g) = (x >>= fun a => f a >>= g) := by
  funext s
  cases h : x s with
  | value a t journal =>
      rw [bind_of_value _ h]
      cases h' : f a t with
      | value b u journal' =>
          have hb : (x >>= f) s = .value b u (journal ++ journal') := by
            rw [bind_of_value _ h, h']; simp [Outcome.after]
          rw [bind_of_value _ hb, bind_of_value _ h']
          simp
      | error e u journal' =>
          have hb : (x >>= f) s = .error e u (journal ++ journal') := by
            rw [bind_of_value _ h, h']; simp [Outcome.after]
          rw [bind_of_error _ hb, bind_of_error _ h']
          simp [Outcome.after]
      | unfinished =>
          have hb : (x >>= f) s = .unfinished := by
            rw [bind_of_value _ h, h']; rfl
          rw [bind_of_unfinished _ hb, bind_of_unfinished _ h']
          rfl
  | error e t journal =>
      rw [bind_of_error _ h, bind_of_error _ (bind_of_error f h)]
  | unfinished =>
      rw [bind_of_unfinished _ h, bind_of_unfinished _ (bind_of_unfinished f h)]

instance : LawfulMonad (Action σ ε) :=
  LawfulMonad.mk' (Action σ ε) bind_pure_id (fun _ _ => rfl) bind_bind

/-! ## Single steps -/

/-- Stops with an error. -/
def fail (e : ε) : Action σ ε α := fun s => .error e s []

/-- Does not finish. -/
def unfinished : Action σ ε α := fun _ => .unfinished

/-- Tells an event. -/
def tell (event : Event) : Action σ ε Unit := fun s => .value () s [event]

/-- Reads the state. -/
def view (f : σ → α) : Action σ ε α := fun s => .value (f s) s []

/-- Changes the state. -/
def update (f : σ → σ) : Action σ ε Unit := fun s => .value () (f s) []

/-- Changes the state and gives a value. -/
def transition (f : σ → α × σ) : Action σ ε α := fun s =>
  match f s with
  | (a, t) => .value a t []

/-- Gives the value of a computation that may fail. -/
def ofExcept : Except ε α → Action σ ε α
  | .ok a => pure a
  | .error e => fail e

/-- The action with its error renamed. -/
def mapError (f : ε → ε') (x : Action σ ε α) : Action σ ε' α := fun s => (x s).mapError f

/-- Runs an action on a state of its own and gives back that state with the value.
An error of it drops that state. -/
def inside (t : τ) (x : Action τ ε α) : Action σ ε (α × τ) := fun s =>
  match x t with
  | .value a t journal => .value (a, t) s journal
  | .error e _ journal => .error e s journal
  | .unfinished => .unfinished

/-- The value or the error of an action. The state is the one it got to. -/
def attempt (x : Action σ ε α) : Action σ ε' (Except ε α) := fun s =>
  match x s with
  | .value a t journal => .value (.ok a) t journal
  | .error e t journal => .value (.error e) t journal
  | .unfinished => .unfinished

/-! ## Repetition -/

/-- Repeats an action until it says to stop. `past` is the journal so far, latest
event first. -/
def iterateFrom (body : β → Action σ ε (β ⊕ α)) :
    Nat → β → σ → List Event → Outcome σ ε α
  | 0, _, _, _ => .unfinished
  | n + 1, b, s, past =>
      match body b s with
      | .value (.inl b) t journal => iterateFrom body n b t (journal.reverse ++ past)
      | .value (.inr a) t journal => .value a t (past.reverse ++ journal)
      | .error e t journal => .error e t (past.reverse ++ journal)
      | .unfinished => .unfinished
termination_by structural n => n

/-- Repeats an action until it says to stop, at most as often as the budget
allows. The action gets what it gave the time before. -/
def iterate (body : β → Action σ ε (β ⊕ α)) (budget : Nat) (b : β) : Action σ ε α :=
  fun s => iterateFrom body budget b s []

/-- The events that the loop starts with are the first of its journal. -/
theorem iterateFrom_eq_after (body : β → Action σ ε (β ⊕ α)) :
    ∀ (n : Nat) (b : β) (s : σ) (past : List Event),
      iterateFrom body n b s past = (iterate body n b s).after past.reverse
  | 0, _, _, _ => rfl
  | n + 1, b, s, past => by
      simp only [iterate, iterateFrom]
      cases body b s with
      | value result t journal =>
          cases result with
          | inl b' =>
              simp only
              rw [iterateFrom_eq_after body n b' t (journal.reverse ++ past),
                iterateFrom_eq_after body n b' t (journal.reverse ++ [])]
              simp
          | inr a => simp [Outcome.after]
      | error e t journal => simp [Outcome.after]
      | unfinished => rfl

/-- Repetition runs the action once and goes on if it says so. -/
theorem iterate_succ (body : β → Action σ ε (β ⊕ α)) (n : Nat) (b : β) :
    iterate body (n + 1) b = (body b >>= fun
      | .inl b' => iterate body n b'
      | .inr a => pure a) := by
  funext s
  cases h : body b s with
  | value result t journal =>
      rw [bind_of_value _ h]
      cases result with
      | inl b' =>
          simp only [iterate, iterateFrom, h]
          rw [iterateFrom_eq_after]
          simp [iterate]
      | inr a => simp [iterate, iterateFrom, h, pure_apply, Outcome.after]
  | error e t journal =>
      rw [bind_of_error _ h]
      simp [iterate, iterateFrom, h]
  | unfinished =>
      rw [bind_of_unfinished _ h]
      simp [iterate, iterateFrom, h]

end Action

end TreeScript
