import TreeScript.Action

/-!
# What an action ensures

`Ensures` is partial correctness: an action that finishes meets one condition on
its value or another one on its error, and nothing is said of an action that runs
out of budget. `Ends` is the other half: the action does not run out of budget.
`Gives` says that the action finishes with a value, whatever its journal.

Each step of the monad has one law for `Ensures`, and the law of `bind` is an
equivalence, so a sequence of steps is opened from its first step on. A repetition is
opened by an invariant.
-/

namespace TreeScript

/-- The error of an outcome, if it has one. -/
def Outcome.error? {σ ε α : Type} : Outcome σ ε α → Option (ε × σ)
  | .error e t _ => some (e, t)
  | _ => none

/-- The value of an outcome, if it has one. -/
def Outcome.value? {σ ε α : Type} : Outcome σ ε α → Option (α × σ)
  | .value a t _ => some (a, t)
  | _ => none

theorem Outcome.eq_unfinished_of_after {σ ε α : Type} {journal : List Event}
    {outcome : Outcome σ ε α} (h : outcome.after journal = .unfinished) :
    outcome = .unfinished := by
  cases outcome with
  | value => cases h
  | error => cases h
  | unfinished => rfl

namespace Action

variable {σ τ ε ε' α β : Type}

/-- If the action finishes from `s`, a value meets `Q` and an error meets `E`. -/
def Ensures (x : Action σ ε α) (s : σ) (Q : α → σ → Prop) (E : ε → σ → Prop) : Prop :=
  match x s with
  | .value a t _ => Q a t
  | .error e t _ => E e t
  | .unfinished => True

/-- The action finishes from `s`. -/
def Ends (x : Action σ ε α) (s : σ) : Prop := x s ≠ .unfinished

/-- The action gives a value from `s`. -/
def Gives (x : Action σ ε α) (s : σ) (a : α) (t : σ) : Prop := ∃ journal, x s = .value a t journal

/-- The action stops with an error from `s`. -/
def Stops (x : Action σ ε α) (s : σ) (e : ε) (t : σ) : Prop := ∃ journal, x s = .error e t journal

variable {x : Action σ ε α} {s t : σ} {Q Q' : α → σ → Prop} {E E' : ε → σ → Prop}

/-- The action leads from `s` to `t`, with a value or with an error. -/
def Leads (x : Action σ ε α) (s t : σ) : Prop := (∃ a, x.Gives s a t) ∨ ∃ e, x.Stops s e t

/-! ## The notions together -/

theorem ensures_iff :
    x.Ensures s Q E ↔ (∀ a t, x.Gives s a t → Q a t) ∧ (∀ e t, x.Stops s e t → E e t) := by
  unfold Ensures Gives Stops
  cases x s with
  | value a t journal => simp
  | error e t journal => simp
  | unfinished => simp

theorem Ensures.of_gives {a : α} (h : x.Ensures s Q E) (hx : x.Gives s a t) : Q a t :=
  (ensures_iff.1 h).1 a t hx

theorem Ensures.of_stops {e : ε} (h : x.Ensures s Q E) (hx : x.Stops s e t) : E e t :=
  (ensures_iff.1 h).2 e t hx

/-- What is ensured of values and errors may be weakened. -/
theorem Ensures.mono (h : x.Ensures s Q E) (hQ : ∀ a t, Q a t → Q' a t)
    (hE : ∀ e t, E e t → E' e t) : x.Ensures s Q' E' := by
  obtain ⟨h₁, h₂⟩ := ensures_iff.1 h
  exact ensures_iff.2 ⟨fun a t hx => hQ a t (h₁ a t hx), fun e t hx => hE e t (h₂ e t hx)⟩

/-- Two things that are ensured hold of the same value or error. -/
theorem Ensures.and (h : x.Ensures s Q E) (h' : x.Ensures s Q' E') :
    x.Ensures s (fun a t => Q a t ∧ Q' a t) (fun e t => E e t ∧ E' e t) := by
  obtain ⟨h₁, h₂⟩ := ensures_iff.1 h
  obtain ⟨h₁', h₂'⟩ := ensures_iff.1 h'
  exact ensures_iff.2
    ⟨fun a t hx => ⟨h₁ a t hx, h₁' a t hx⟩, fun e t hx => ⟨h₂ e t hx, h₂' e t hx⟩⟩

/-- An action ensures what it does. -/
theorem ensures_self (x : Action σ ε α) (s : σ) : x.Ensures s (x.Gives s) (x.Stops s) :=
  ensures_iff.2 ⟨fun _ _ hx => hx, fun _ _ hx => hx⟩

/-- What holds of the state whether there is a value or an error. -/
theorem Ensures.of_leads {P : σ → Prop} (h : x.Ensures s (fun _ t => P t) fun _ t => P t)
    (hx : x.Leads s t) : P t := by
  rcases hx with ⟨a, hx⟩ | ⟨e, hx⟩
  · exact h.of_gives hx
  · exact h.of_stops hx

/-- An action that ends and cannot stop with an error gives a value. -/
theorem Ensures.exists_gives (h : x.Ensures s Q fun _ _ => False) (he : x.Ends s) :
    ∃ a t, x.Gives s a t ∧ Q a t := by
  unfold Ensures at h
  unfold Gives
  cases hx : x s with
  | value a t journal =>
      rw [hx] at h
      exact ⟨a, t, ⟨journal, rfl⟩, h⟩
  | error e t journal =>
      rw [hx] at h
      exact h.elim
  | unfinished => exact absurd hx he

/-- An action that ends gives a value or stops with an error. -/
theorem Ends.gives_or_stops (he : x.Ends s) :
    (∃ a t, x.Gives s a t) ∨ ∃ e t, x.Stops s e t := by
  unfold Gives Stops
  cases hx : x s with
  | value a t journal => exact .inl ⟨a, t, journal, rfl⟩
  | error e t journal => exact .inr ⟨e, t, journal, rfl⟩
  | unfinished => exact absurd hx he

theorem Gives.ends {a : α} (h : x.Gives s a t) : x.Ends s := by
  obtain ⟨journal, hx⟩ := h
  unfold Ends
  rw [hx]
  intro hn
  cases hn

theorem Stops.ends {e : ε} (h : x.Stops s e t) : x.Ends s := by
  obtain ⟨journal, hx⟩ := h
  unfold Ends
  rw [hx]
  intro hn
  cases hn

/-- To end is to give a value or to stop with an error. -/
theorem ends_iff : x.Ends s ↔ (∃ a t, x.Gives s a t) ∨ ∃ e t, x.Stops s e t := by
  constructor
  · exact Ends.gives_or_stops
  · rintro (⟨a, t, h⟩ | ⟨e, t, h⟩)
    · exact h.ends
    · exact h.ends

/-- An action has one outcome. -/
theorem Gives.not_stops {a : α} {e : ε} {u : σ} (h : x.Gives s a t) : ¬ x.Stops s e u := by
  obtain ⟨journal, hx⟩ := h
  rintro ⟨journal', hx'⟩
  rw [hx] at hx'
  cases hx'

/-- An action gives at most one value and leaves at most one state. -/
theorem Gives.unique {a b : α} {u : σ} (h : x.Gives s a t) (h' : x.Gives s b u) :
    a = b ∧ t = u := by
  obtain ⟨journal, hx⟩ := h
  obtain ⟨journal', hx'⟩ := h'
  rw [hx] at hx'
  cases hx'
  exact ⟨rfl, rfl⟩

/-- An action stops with at most one error. -/
theorem Stops.unique {e e' : ε} {u : σ} (h : x.Stops s e t) (h' : x.Stops s e' u) :
    e = e' ∧ t = u := by
  obtain ⟨journal, hx⟩ := h
  obtain ⟨journal', hx'⟩ := h'
  rw [hx] at hx'
  cases hx'
  exact ⟨rfl, rfl⟩

theorem Stops.error_eq {e e' : ε} {u : σ} (h : x.Stops s e t) (h' : x.Stops s e' u) : e = e' :=
  (h.unique h').1

/-- A value is given exactly if the result without its journal is that value. -/
theorem gives_iff {a : α} : x.Gives s a t ↔ (x s).result? = some (.ok a, t) := by
  unfold Gives
  cases x s with
  | value b u journal => simp [Outcome.result?]
  | error e u journal => simp [Outcome.result?]
  | unfinished => simp [Outcome.result?]

theorem stops_iff {e : ε} : x.Stops s e t ↔ (x s).result? = some (.error e, t) := by
  unfold Stops
  cases x s with
  | value b u journal => simp [Outcome.result?]
  | error e u journal => simp [Outcome.result?]
  | unfinished => simp [Outcome.result?]

theorem gives_of_value? {a : α} (h : (x s).value? = some (a, t)) : x.Gives s a t := by
  unfold Gives
  cases hx : x s with
  | value b u journal =>
      rw [hx] at h
      cases h
      exact ⟨journal, rfl⟩
  | error e u journal =>
      rw [hx] at h
      cases h
  | unfinished =>
      rw [hx] at h
      cases h

theorem stops_of_error? {e : ε} (h : (x s).error? = some (e, t)) : x.Stops s e t := by
  unfold Stops
  cases hx : x s with
  | value a u journal =>
      rw [hx] at h
      cases h
  | error e' u journal =>
      rw [hx] at h
      cases h
      exact ⟨journal, rfl⟩
  | unfinished =>
      rw [hx] at h
      cases h

/-! ## The monad -/

@[simp] theorem ensures_pure (a : α) : (pure a : Action σ ε α).Ensures s Q E ↔ Q a s := Iff.rfl

@[simp] theorem ensures_bind {f : α → Action σ ε β} {Q : β → σ → Prop} :
    (x >>= f).Ensures s Q E ↔ x.Ensures s (fun a t => (f a).Ensures t Q E) E := by
  cases h : x s with
  | value a t journal =>
      simp only [Ensures, bind_of_value f h, h]
      cases f a t with
      | value b u journal' => exact Iff.rfl
      | error e u journal' => exact Iff.rfl
      | unfinished => exact Iff.rfl
  | error e t journal => simp only [Ensures, bind_of_error f h, h]
  | unfinished => simp only [Ensures, bind_of_unfinished f h, h]

@[simp] theorem ends_pure (a : α) : (pure a : Action σ ε α).Ends s := by
  intro h
  cases h

@[simp] theorem ends_bind {f : α → Action σ ε β} :
    (x >>= f).Ends s ↔ x.Ends s ∧ x.Ensures s (fun a t => (f a).Ends t) fun _ _ => True := by
  cases h : x s with
  | value a t journal =>
      simp only [Ends, Ensures, bind_of_value f h, h]
      cases f a t with
      | value b u journal' => simp [Outcome.after]
      | error e u journal' => simp [Outcome.after]
      | unfinished => simp [Outcome.after]
  | error e t journal => simp [Ends, Ensures, bind_of_error f h, h]
  | unfinished => simp [Ends, Ensures, bind_of_unfinished f h, h]

/-- Two actions in a row give what the second gives on the value of the first. -/
theorem Gives.bind {f : α → Action σ ε β} {a : α} {b : β} {u : σ} (h : x.Gives s a t)
    (hf : (f a).Gives t b u) : (x >>= f).Gives s b u := by
  obtain ⟨journal, hx⟩ := h
  obtain ⟨journal', hf⟩ := hf
  exact ⟨journal ++ journal', by rw [bind_of_value f hx, hf]; simp [Outcome.after]⟩

/-- An error of the second action is one of both. -/
theorem Gives.bind_stops {f : α → Action σ ε β} {a : α} {e : ε} {u : σ} (h : x.Gives s a t)
    (hf : (f a).Stops t e u) : (x >>= f).Stops s e u := by
  obtain ⟨journal, hx⟩ := h
  obtain ⟨journal', hf⟩ := hf
  exact ⟨journal ++ journal', by rw [bind_of_value f hx, hf]; simp [Outcome.after]⟩

/-- An error of the first action is one of both. -/
theorem Stops.bind {e : ε} (h : x.Stops s e t) (f : α → Action σ ε β) : (x >>= f).Stops s e t := by
  obtain ⟨journal, hx⟩ := h
  exact ⟨journal, bind_of_error f hx⟩

/-- After a value, the result is that of the continuation. -/
theorem Gives.result?_bind {f : α → Action σ ε β} {a : α} (h : x.Gives s a t) :
    ((x >>= f) s).result? = (f a t).result? := by
  obtain ⟨journal, hx⟩ := h
  rw [bind_of_value f hx, Outcome.result?_after]

/-- After an error, the result is that error. -/
theorem Stops.result?_bind {f : α → Action σ ε β} {e : ε} (h : x.Stops s e t) :
    ((x >>= f) s).result? = some (.error e, t) := stops_iff.1 (h.bind f)

/-- Two actions have the same result after the same action if they have it on each value. -/
theorem result?_bind_congr {f g : α → Action σ ε β}
    (h : ∀ a t, ((f a) t).result? = ((g a) t).result?) :
    ((x >>= f) s).result? = ((x >>= g) s).result? := by
  cases hx : x s with
  | value a t journal =>
      rw [bind_of_value f hx, bind_of_value g hx, Outcome.result?_after, Outcome.result?_after, h]
  | error e t journal => rw [bind_of_error f hx, bind_of_error g hx]
  | unfinished => rw [bind_of_unfinished f hx, bind_of_unfinished g hx]

/-- If an action has the same result from two states, so it has with another one after it. -/
theorem result?_bind_of_eq {f : α → Action σ ε β} (h : (x t).result? = (x s).result?) :
    ((x >>= f) t).result? = ((x >>= f) s).result? := by
  cases hs : x s with
  | value a u journal =>
      have hg : x.Gives s a u := ⟨journal, hs⟩
      rw [hg.result?_bind, (gives_iff.2 (h.trans (gives_iff.1 hg))).result?_bind]
  | error e u journal =>
      have he : x.Stops s e u := ⟨journal, hs⟩
      rw [he.result?_bind, (stops_iff.2 (h.trans (stops_iff.1 he))).result?_bind]
  | unfinished =>
      have ht : x t = .unfinished := by
        cases ht : x t with
        | value | error =>
            rw [hs, ht] at h
            cases h
        | unfinished => rfl
      rw [bind_of_unfinished f hs, bind_of_unfinished f ht]

/-- What comes after an action that does as another one does comes after that one. -/
theorem bind_of_after {y : Action σ ε α} {journal : List Event}
    (h : x s = (y t).after journal) (f : α → Action σ ε β) :
    (x >>= f) s = ((y >>= f) t).after journal := by
  cases hy : y t with
  | value a u journal' =>
      rw [hy, Outcome.after, Outcome.joined_eq_append] at h
      rw [bind_of_value f h, bind_of_value f hy, Outcome.after_after]
  | error e u journal' =>
      rw [hy] at h
      rw [bind_of_error f h, bind_of_error f hy, Outcome.after]
  | unfinished =>
      rw [hy] at h
      rw [bind_of_unfinished f h, bind_of_unfinished f hy, Outcome.after]

/-- If two actions in a row give a value, so does each of them. -/
theorem Gives.of_bind {f : α → Action σ ε β} {b : β} {u : σ} (h : (x >>= f).Gives s b u) :
    ∃ a t, x.Gives s a t ∧ (f a).Gives t b u := by
  have hensures : (x >>= f).Ensures s (fun b u => ∃ a t, x.Gives s a t ∧ (f a).Gives t b u)
      fun _ _ => True := by
    rw [ensures_bind]
    refine (ensures_self x s).mono (fun a t hx => ?_) fun _ _ _ => trivial
    exact (ensures_self (f a) t).mono (fun _ _ hf => ⟨a, t, hx, hf⟩) fun _ _ _ => trivial
  exact hensures.of_gives h

/-- Two actions in a row stop where the first one stops, or where the second one does. -/
theorem stops_bind_iff {f : α → Action σ ε β} {e : ε} {u : σ} : (x >>= f).Stops s e u ↔
    x.Stops s e u ∨ ∃ a t, x.Gives s a t ∧ (f a).Stops t e u := by
  constructor
  · intro h
    have hensures : (x >>= f).Ensures s (fun _ _ => True)
        fun e u => x.Stops s e u ∨ ∃ a t, x.Gives s a t ∧ (f a).Stops t e u := by
      rw [ensures_bind]
      refine (ensures_self x s).mono (fun a t hx => ?_) fun _ _ hx => .inl hx
      exact (ensures_self (f a) t).mono (fun _ _ _ => trivial) fun _ _ hf => .inr ⟨a, t, hx, hf⟩
    exact hensures.of_stops h
  · rintro (h | ⟨a, t, hx, hf⟩)
    · exact h.bind f
    · exact hx.bind_stops hf

/-- Two actions in a row lead where the first one stops, or where the second one leads. -/
theorem Leads.of_bind {f : α → Action σ ε β} (h : (x >>= f).Leads s t) :
    (∃ e, x.Stops s e t) ∨ ∃ a u, x.Gives s a u ∧ (f a).Leads u t := by
  have hensures : (x >>= f).Ensures s
      (fun _ t => (∃ e, x.Stops s e t) ∨ ∃ a u, x.Gives s a u ∧ (f a).Leads u t)
      fun _ t => (∃ e, x.Stops s e t) ∨ ∃ a u, x.Gives s a u ∧ (f a).Leads u t := by
    rw [ensures_bind]
    refine (ensures_self x s).mono (fun a u hx => ?_) fun e u hx => .inl ⟨e, hx⟩
    exact (ensures_self (f a) u).mono (fun b v hf => .inr ⟨a, u, hx, .inl ⟨b, hf⟩⟩)
      fun e v hf => .inr ⟨a, u, hx, .inr ⟨e, hf⟩⟩
  exact hensures.of_leads h

/-- A sequence leads to a state by an error of its first part, or by way of a value of it. -/
theorem leads_bind_iff {f : α → Action σ ε β} : (x >>= f).Leads s t ↔
    (∃ e, x.Stops s e t) ∨ ∃ a u, x.Gives s a u ∧ (f a).Leads u t := by
  constructor
  · exact Leads.of_bind
  · rintro (⟨e, h⟩ | ⟨a, u, hx, ⟨b, hf⟩ | ⟨e, hf⟩⟩)
    · exact .inr ⟨e, h.bind f⟩
    · exact .inl ⟨b, hx.bind hf⟩
    · exact .inr ⟨e, hx.bind_stops hf⟩

theorem Gives.ensures {a : α} (h : x.Gives s a t) (hq : Q a t) : x.Ensures s Q E := by
  obtain ⟨journal, hx⟩ := h
  simp only [Ensures, hx]
  exact hq

theorem Stops.ensures {e : ε} (h : x.Stops s e t) (he : E e t) : x.Ensures s Q E := by
  obtain ⟨journal, hx⟩ := h
  simp only [Ensures, hx]
  exact he

/-- What runs on a state of its own leaves the outer state alone and hands its own one back. -/
theorem Gives.inside {y : Action τ ε α} {u v : τ} {a : α} (h : y.Gives u a v) :
    (inside u y : Action σ ε (α × τ)).Gives s (a, v) s := by
  obtain ⟨journal, hy⟩ := h
  exact ⟨journal, by simp [Action.inside, hy]⟩

theorem Stops.inside {y : Action τ ε α} {u v : τ} {e : ε} (h : y.Stops u e v) :
    (inside u y : Action σ ε (α × τ)).Stops s e s := by
  obtain ⟨journal, hy⟩ := h
  exact ⟨journal, by simp [Action.inside, hy]⟩

theorem Gives.mapError {a : α} (h : x.Gives s a t) (f : ε → ε') : (x.mapError f).Gives s a t := by
  obtain ⟨journal, hx⟩ := h
  exact ⟨journal, by simp [Action.mapError, hx, Outcome.mapError]⟩

theorem Stops.mapError {e : ε} (h : x.Stops s e t) (f : ε → ε') :
    (x.mapError f).Stops s (f e) t := by
  obtain ⟨journal, hx⟩ := h
  exact ⟨journal, by simp [Action.mapError, hx, Outcome.mapError]⟩

theorem Gives.attempt {a : α} (h : x.Gives s a t) :
    (x.attempt : Action σ ε' (Except ε α)).Gives s (.ok a) t := by
  obtain ⟨journal, hx⟩ := h
  exact ⟨journal, by simp [Action.attempt, hx]⟩

theorem Stops.attempt {e : ε} (h : x.Stops s e t) :
    (x.attempt : Action σ ε' (Except ε α)).Gives s (.error e) t := by
  obtain ⟨journal, hx⟩ := h
  exact ⟨journal, by simp [Action.attempt, hx]⟩

theorem gives_pure (a : α) : (pure a : Action σ ε α).Gives s a s := ⟨[], rfl⟩

theorem gives_pure_iff {a b : α} : (pure a : Action σ ε α).Gives s b t ↔ b = a ∧ t = s := by
  constructor
  · intro h
    obtain ⟨rfl, rfl⟩ := (gives_pure a).unique h
    exact ⟨rfl, rfl⟩
  · intro ⟨hb, ht⟩
    subst hb ht
    exact gives_pure _

/-- A value on its own leads nowhere else. -/
theorem leads_pure_iff {a : α} : (pure a : Action σ ε α).Leads s t ↔ t = s := by
  constructor
  · rintro (⟨b, h⟩ | ⟨e, journal, h⟩)
    · exact (gives_pure_iff.1 h).2
    · cases h
  · rintro rfl
    exact .inl ⟨a, gives_pure a⟩

/-- Two actions in a row end if the first ends and the second ends whatever it is given. -/
theorem Ends.bind {f : α → Action σ ε β} (h : x.Ends s) (hf : ∀ a t, (f a).Ends t) :
    (x >>= f).Ends s :=
  ends_bind.2 ⟨h, ensures_iff.2 ⟨fun a t _ => hf a t, fun _ _ _ => trivial⟩⟩

/-! ## Single steps -/

@[simp] theorem ensures_fail (e : ε) : (fail e : Action σ ε α).Ensures s Q E ↔ E e s := Iff.rfl

@[simp] theorem ensures_unfinished : (unfinished : Action σ ε α).Ensures s Q E ↔ True := Iff.rfl

@[simp] theorem ensures_tell (event : Event) {Q : Unit → σ → Prop} :
    (tell event : Action σ ε Unit).Ensures s Q E ↔ Q () s := Iff.rfl

@[simp] theorem ensures_view (f : σ → α) :
    (view f : Action σ ε α).Ensures s Q E ↔ Q (f s) s := Iff.rfl

@[simp] theorem ensures_update (f : σ → σ) {Q : Unit → σ → Prop} :
    (update f : Action σ ε Unit).Ensures s Q E ↔ Q () (f s) := Iff.rfl

@[simp] theorem ensures_transition (f : σ → α × σ) :
    (transition f : Action σ ε α).Ensures s Q E ↔ Q (f s).1 (f s).2 := Iff.rfl

@[simp] theorem ensures_ofExcept (r : Except ε α) :
    (ofExcept r : Action σ ε α).Ensures s Q E ↔
      (∀ a, r = .ok a → Q a s) ∧ (∀ e, r = .error e → E e s) := by
  cases r with
  | ok a => simp [ofExcept]
  | error e => simp [ofExcept]

@[simp] theorem ensures_mapError {f : ε → ε'} {E : ε' → σ → Prop} :
    (x.mapError f).Ensures s Q E ↔ x.Ensures s Q fun e t => E (f e) t := by
  unfold Ensures mapError
  cases x s with
  | value a t journal => exact Iff.rfl
  | error e t journal => exact Iff.rfl
  | unfinished => exact Iff.rfl

theorem Gives.of_mapError {a : α} {f : ε → ε'} (h : (x.mapError f).Gives s a t) :
    x.Gives s a t := by
  have hensures : (x.mapError f).Ensures s (x.Gives s) fun _ _ => True := by
    rw [ensures_mapError]
    exact (ensures_self x s).mono (fun _ _ hx => hx) fun _ _ _ => trivial
  exact hensures.of_gives h

theorem stops_mapError_iff {f : ε → ε'} {e' : ε'} :
    (x.mapError f).Stops s e' t ↔ ∃ e, x.Stops s e t ∧ e' = f e := by
  constructor
  · intro h
    have hensures : (x.mapError f).Ensures s (fun _ _ => True)
        fun e' t => ∃ e, x.Stops s e t ∧ e' = f e := by
      rw [ensures_mapError]
      exact (ensures_self x s).mono (fun _ _ _ => trivial) fun e _ hx => ⟨e, hx, rfl⟩
    exact hensures.of_stops h
  · rintro ⟨e, h, rfl⟩
    exact h.mapError f

@[simp] theorem ensures_inside {y : Action τ ε α} {u : τ} {Q : α × τ → σ → Prop} :
    (inside u y).Ensures s Q E ↔ y.Ensures u (fun a v => Q (a, v) s) fun e _ => E e s := by
  unfold Ensures inside
  cases y u with
  | value a t journal => exact Iff.rfl
  | error e t journal => exact Iff.rfl
  | unfinished => exact Iff.rfl

@[simp] theorem ends_fail (e : ε) : (fail e : Action σ ε α).Ends s := by
  intro h
  cases h

@[simp] theorem ends_tell (event : Event) : (tell event : Action σ ε Unit).Ends s := by
  intro h
  cases h

@[simp] theorem ends_view (f : σ → α) : (view f : Action σ ε α).Ends s := by
  intro h
  cases h

@[simp] theorem ends_transition (f : σ → α × σ) : (transition f : Action σ ε α).Ends s := by
  intro h
  cases h

@[simp] theorem ends_ofExcept (r : Except ε α) : (ofExcept r : Action σ ε α).Ends s := by
  cases r with
  | ok a => exact ends_pure a
  | error e => exact ends_fail e

@[simp] theorem ends_mapError {f : ε → ε'} : (x.mapError f).Ends s ↔ x.Ends s := by
  unfold Ends mapError
  cases x s with
  | value a t journal => simp [Outcome.mapError]
  | error e t journal => simp [Outcome.mapError]
  | unfinished => simp [Outcome.mapError]

/-! ## Repetition -/

/-- A repetition keeps an invariant that each turn keeps. -/
theorem ensures_iterate {body : β → Action σ ε (β ⊕ α)} (Inv : β → σ → Prop)
    (step : ∀ b s, Inv b s →
      (body b).Ensures s (fun r t => r.elim (fun b' => Inv b' t) (fun a => Q a t)) E) :
    ∀ (n : Nat) (b : β) (s : σ), Inv b s → (iterate body n b).Ensures s Q E
  | 0, _, _, _ => trivial
  | n + 1, b, s, hi => by
      rw [iterate_succ, ensures_bind]
      refine (step b s hi).mono ?_ (fun _ _ h => h)
      intro r t hr
      cases r with
      | inl b' => exact ensures_iterate Inv step n b' t hr
      | inr a => exact hr

/-- A repetition ends if each turn ends and makes a measure smaller. -/
theorem ends_iterate {body : β → Action σ ε (β ⊕ α)} (Inv : Nat → β → σ → Prop)
    (ends : ∀ k b s, Inv k b s → (body b).Ends s)
    (step : ∀ k b s, Inv k b s → (body b).Ensures s
      (fun r t => r.elim (fun b' => ∃ k', k' < k ∧ Inv k' b' t) (fun _ => True)) fun _ _ => True) :
    ∀ (n k : Nat) (b : β) (s : σ), Inv k b s → k < n → (iterate body n b).Ends s
  | 0, _, _, _, _, hn => absurd hn (Nat.not_lt_zero _)
  | n + 1, k, b, s, hi, hn => by
      rw [iterate_succ, ends_bind]
      refine ⟨ends k b s hi, (step k b s hi).mono ?_ (fun _ _ h => h)⟩
      intro r t hr
      cases r with
      | inl b' =>
          obtain ⟨k', hk, hi'⟩ := hr
          exact ends_iterate Inv ends step n k' b' t hi' (by omega)
      | inr a => exact ends_pure a

/-- A repetition whose turns all go on does not end. -/
theorem not_ends_iterate {body : β → Action σ ε (β ⊕ α)} (Inv : β → σ → Prop)
    (step : ∀ b s, Inv b s → ∃ c t, (body b).Gives s (.inl c) t ∧ Inv c t) :
    ∀ (n : Nat) (b : β) (s : σ), Inv b s → ¬ (iterate body n b).Ends s
  | 0, _, _, _ => fun h => h rfl
  | n + 1, b, s, hi => by
      obtain ⟨c, t, hbody, hi'⟩ := step b s hi
      rw [iterate_succ, ends_bind]
      exact fun h => not_ends_iterate Inv step n c t hi' (h.2.of_gives hbody)

/-! ## Lists -/

section Lists

variable {f : α → Action σ ε β}

/-- Actions on a list give values one after the other. -/
theorem gives_mapM_cons_iff {a : α} {as : List α} {bs : List β} :
    ((a :: as).mapM f).Gives s bs t ↔
      ∃ b u bs', (f a).Gives s b u ∧ (as.mapM f).Gives u bs' t ∧ bs = b :: bs' := by
  rw [List.mapM_cons]
  constructor
  · intro h
    obtain ⟨b, u, hb, h⟩ := h.of_bind
    obtain ⟨bs', v, hbs, h⟩ := h.of_bind
    obtain ⟨hcons, hv⟩ := gives_pure_iff.1 h
    subst hv
    exact ⟨b, u, bs', hb, hbs, hcons⟩
  · intro ⟨b, u, bs', hb, hbs, hcons⟩
    subst hcons
    exact hb.bind (hbs.bind (gives_pure _))

/-- Actions on a list lead where the first one stops, or where the others lead after it. -/
theorem leads_mapM_cons_iff {a : α} {as : List α} :
    ((a :: as).mapM f).Leads s t ↔
      (∃ e, (f a).Stops s e t) ∨ ∃ b u, (f a).Gives s b u ∧ (as.mapM f).Leads u t := by
  rw [List.mapM_cons, leads_bind_iff]
  refine or_congr Iff.rfl (exists_congr fun b => exists_congr fun u => and_congr Iff.rfl ?_)
  rw [leads_bind_iff]
  constructor
  · rintro (⟨e, h⟩ | ⟨bs, v, h, hpure⟩)
    · exact .inr ⟨e, h⟩
    · rw [leads_pure_iff.1 hpure]
      exact .inl ⟨bs, h⟩
  · rintro (⟨bs, h⟩ | ⟨e, h⟩)
    · exact .inr ⟨bs, t, h, leads_pure_iff.2 rfl⟩
    · exact .inl ⟨e, h⟩

/-- On a list, all actions give values, or there is a first one that stops or does not end. -/
theorem mapM_cases (f : α → Action σ ε β) : ∀ (as : List α) (s : σ),
    (∃ bs t, (as.mapM f).Gives s bs t) ∨
      ∃ first a rest bs t, as = first ++ a :: rest ∧ (first.mapM f).Gives s bs t ∧
        ((∃ e u, (f a).Stops t e u) ∨ ¬ (f a).Ends t)
  | [], s => .inl ⟨[], s, gives_pure []⟩
  | a :: as, s => by
      by_cases hends : (f a).Ends s
      · cases hends.gives_or_stops with
        | inl hgives =>
            obtain ⟨b, t, hb⟩ := hgives
            cases mapM_cases f as t with
            | inl hall =>
                obtain ⟨bs, u, hbs⟩ := hall
                exact .inl ⟨b :: bs, u, gives_mapM_cons_iff.2 ⟨b, t, bs, hb, hbs, rfl⟩⟩
            | inr hfirst =>
                obtain ⟨first, a', rest, bs, u, has, hbs, hlast⟩ := hfirst
                subst has
                exact .inr ⟨a :: first, a', rest, b :: bs, u, rfl,
                  gives_mapM_cons_iff.2 ⟨b, t, bs, hb, hbs, rfl⟩, hlast⟩
        | inr hstops => exact .inr ⟨[], a, as, [], s, rfl, gives_pure [], .inl hstops⟩
      · exact .inr ⟨[], a, as, [], s, rfl, gives_pure [], .inr hends⟩

end Lists

end Action

end TreeScript
