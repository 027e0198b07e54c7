import TreeScript.Proofs.Action

/-!
# Actions that simulate each other

`Simulates` compares two actions over states that a relation ties together. Where the first one
finishes, the second one finishes in the same way, and further relations tie the values, the errors
and the states that they end in. Nothing is said where the first one runs out of budget, so the
second one may have the larger budget.

As for `Ensures`, each step of the monad has one law. A repetition is opened by an invariant that
ties the two runs turn by turn.
-/

namespace TreeScript

namespace Action

variable {σ σ' ε ε' δ δ' α α' β β' : Type}

/-- Where `x` finishes from a state, `x'` finishes in the same way from every state that `P` ties to
it. `Q` ties the values and the states they come with, and `E` the errors. -/
def Simulates (P : σ → σ' → Prop) (Q : α → σ → α' → σ' → Prop) (E : ε → σ → ε' → σ' → Prop)
    (x : Action σ ε α) (x' : Action σ' ε' α') : Prop :=
  ∀ s s', P s s' → x.Ensures s (fun a t => ∃ a' t', x'.Gives s' a' t' ∧ Q a t a' t')
    fun e t => ∃ e' t', x'.Stops s' e' t' ∧ E e t e' t'

variable {P P' : σ → σ' → Prop} {Q Q' : α → σ → α' → σ' → Prop} {R : β → σ → β' → σ' → Prop}
  {E E' : ε → σ → ε' → σ' → Prop} {x : Action σ ε α} {x' : Action σ' ε' α'}

/-! ## What a simulation gives -/

theorem Simulates.of_gives {s t : σ} {s' : σ'} {a : α} (h : Simulates P Q E x x') (hp : P s s')
    (hx : x.Gives s a t) : ∃ a' t', x'.Gives s' a' t' ∧ Q a t a' t' := (h s s' hp).of_gives hx

theorem Simulates.of_stops {s t : σ} {s' : σ'} {e : ε} (h : Simulates P Q E x x') (hp : P s s')
    (hx : x.Stops s e t) : ∃ e' t', x'.Stops s' e' t' ∧ E e t e' t' := (h s s' hp).of_stops hx

/-- A simulation also shows that the second action ends. -/
theorem Simulates.ends {s : σ} {s' : σ'} (h : Simulates P Q E x x') (hp : P s s')
    (hx : x.Ends s) : x'.Ends s' := by
  rcases hx.gives_or_stops with ⟨a, t, hx⟩ | ⟨e, t, hx⟩
  · obtain ⟨a', t', hx', -⟩ := h.of_gives hp hx
    exact hx'.ends
  · obtain ⟨e', t', hx', -⟩ := h.of_stops hp hx
    exact hx'.ends

/-- Less may be asked of the states before, and more may be told of what comes out. -/
theorem Simulates.mono (h : Simulates P Q E x x') (hP : ∀ s s', P' s s' → P s s')
    (hQ : ∀ a t a' t', Q a t a' t' → Q' a t a' t')
    (hE : ∀ e t e' t', E e t e' t' → E' e t e' t') : Simulates P' Q' E' x x' := by
  intro s s' hp
  refine (h s s' (hP s s' hp)).mono ?_ ?_
  · rintro a t ⟨a', t', hx', hq⟩
    exact ⟨a', t', hx', hQ a t a' t' hq⟩
  · rintro e t ⟨e', t', hx', he⟩
    exact ⟨e', t', hx', hE e t e' t' he⟩

/-! ## The monad -/

theorem simulates_pure {a : α} {a' : α'} (h : ∀ s s', P s s' → Q a s a' s') :
    Simulates P Q E (pure a) (pure a' : Action σ' ε' α') :=
  fun s s' hp => ⟨a', s', gives_pure a', h s s' hp⟩

/-- What follows goes on from states that the first parts tie. -/
theorem Simulates.bind {f : α → Action σ ε β} {f' : α' → Action σ' ε' β'}
    (h : Simulates P Q E x x')
    (hf : ∀ a a', Simulates (fun t t' => Q a t a' t') R E (f a) (f' a')) :
    Simulates P R E (x >>= f) (x' >>= f') := by
  intro s s' hp
  rw [ensures_bind]
  refine (h s s' hp).mono ?_ ?_
  · rintro a t ⟨a', t', hx', hq⟩
    refine (hf a a' t t' hq).mono ?_ ?_
    · rintro b u ⟨b', u', hf', hr⟩
      exact ⟨b', u', hx'.bind hf', hr⟩
    · rintro e u ⟨e', u', hf', he⟩
      exact ⟨e', u', hx'.bind_stops hf', he⟩
  · rintro e t ⟨e', t', hx', he⟩
    exact ⟨e', t', hx'.bind f', he⟩

/-! ## Single steps -/

theorem simulates_fail {e : ε} {e' : ε'} (h : ∀ s s', P s s' → E e s e' s') :
    Simulates P Q E (fail e) (fail e' : Action σ' ε' α') :=
  fun s s' hp => ⟨e', s', ⟨[], rfl⟩, h s s' hp⟩

/-- What never ends is simulated by anything. -/
theorem simulates_unfinished : Simulates P Q E unfinished x' := fun _ _ _ => trivial

theorem simulates_tell {Q : Unit → σ → Unit → σ' → Prop} (event event' : Event)
    (h : ∀ s s', P s s' → Q () s () s') :
    Simulates P Q E (tell event) (tell event' : Action σ' ε' Unit) :=
  fun s s' hp => ⟨(), s', ⟨[event'], rfl⟩, h s s' hp⟩

theorem simulates_view {f : σ → α} {f' : σ' → α'} (h : ∀ s s', P s s' → Q (f s) s (f' s') s') :
    Simulates P Q E (view f) (view f' : Action σ' ε' α') :=
  fun s s' hp => ⟨f' s', s', ⟨[], rfl⟩, h s s' hp⟩

/-- Updates keep states tied. -/
theorem simulates_update {Q : Unit → σ → Unit → σ' → Prop} {f : σ → σ} {f' : σ' → σ'}
    (h : ∀ s s', P s s' → Q () (f s) () (f' s')) :
    Simulates P Q E (update f) (update f' : Action σ' ε' Unit) :=
  fun s s' hp => ⟨(), f' s', ⟨[], rfl⟩, h s s' hp⟩

theorem simulates_transition {f : σ → α × σ} {f' : σ' → α' × σ'}
    (h : ∀ s s', P s s' → Q (f s).1 (f s).2 (f' s').1 (f' s').2) :
    Simulates P Q E (transition f) (transition f' : Action σ' ε' α') :=
  fun s s' hp => ⟨(f' s').1, (f' s').2, ⟨[], rfl⟩, h s s' hp⟩

theorem Simulates.mapError {E' : δ → σ → δ' → σ' → Prop} {f : ε → δ} {f' : ε' → δ'}
    (h : Simulates P Q E x x') (hE : ∀ e t e' t', E e t e' t' → E' (f e) t (f' e') t') :
    Simulates P Q E' (x.mapError f) (x'.mapError f') := by
  intro s s' hp
  rw [ensures_mapError]
  refine (h s s' hp).mono ?_ ?_
  · rintro a t ⟨a', t', hx', hq⟩
    exact ⟨a', t', hx'.mapError f', hq⟩
  · rintro e t ⟨e', t', hx', he⟩
    exact ⟨f' e', t', hx'.mapError f', hE e t e' t' he⟩

/-! ## Repetition -/

/-- Two repetitions keep an invariant that ties them, if each turn of the first one keeps it and
the second one may go on for at least as long. -/
theorem simulates_iterate {body : β → Action σ ε (β ⊕ α)} {body' : β' → Action σ' ε' (β' ⊕ α')}
    (Inv : β → σ → β' → σ' → Prop)
    (step : ∀ b b', Simulates (fun s s' => Inv b s b' s')
      (fun r t r' t' => (∃ c c', r = .inl c ∧ r' = .inl c' ∧ Inv c t c' t') ∨
        ∃ a a', r = .inr a ∧ r' = .inr a' ∧ Q a t a' t') E (body b) (body' b')) :
    ∀ {n m : Nat}, n ≤ m → ∀ b b', Simulates (fun s s' => Inv b s b' s') Q E
      (iterate body n b) (iterate body' m b')
  | 0, _, _, _, _ => simulates_unfinished
  | n + 1, m + 1, hle, b, b' => by
      rw [iterate_succ, iterate_succ]
      refine (step b b').bind fun r r' t t' hr => ?_
      rcases hr with ⟨c, c', rfl, rfl, hi⟩ | ⟨a, a', rfl, rfl, hq⟩
      · exact simulates_iterate Inv step (Nat.le_of_succ_le_succ hle) c c' t t' hi
      · exact ⟨a', t', gives_pure a', hq⟩

end Action

end TreeScript
