/-!
# Computations and verdicts

A computation with a state (`EStateM`) ends with a result or with an error, and in both cases in a
state. A verdict (`Except`) is one that has no state. When a computation succeeds, each of its parts
has succeeded, one in the state that the other has left; when it fails, one of its parts has, and
what it had changed until then stays. The statements here take a computation apart in these two
ways, one for each of the combinators that the assembler and the machine are written with.
-/

namespace RegisterMachine

variable {ε ε' σ α β : Type}

/-! ## Ends -/

/-- Whether a computation has succeeded. -/
def succeeded : EStateM.Result ε σ α → Bool
  | .ok _ _ => true
  | .error _ _ => false

/-- What has succeeded has a result. -/
theorem exists_of_succeeded {result : EStateM.Result ε σ α} (h : succeeded result = true) :
    ∃ a t, result = .ok a t := by
  rcases result with ⟨a, t⟩ | ⟨e, t⟩
  · exact ⟨a, t, rfl⟩
  · cases h

/-- The state that a computation leaves, whether it succeeds or not. -/
def ending : EStateM.Result ε σ α → σ
  | .ok _ s => s
  | .error _ s => s

/-- To return something else does not change where a computation ends. -/
theorem ending_map (f : α → β) (x : EStateM ε σ α) (s : σ) :
    ending ((do return f (← x) : EStateM ε σ β).run s) = ending (x.run s) := by
  rw [EStateM.run_bind]
  cases x.run s <;> rfl

/-- The error with which a computation has failed. -/
def error? : EStateM.Result ε σ α → Option ε
  | .ok _ _ => none
  | .error e _ => some e

/-- What has failed with an error has that error and no result. -/
theorem exists_of_error?_eq_some {result : EStateM.Result ε σ α} {e : ε}
    (h : error? result = some e) : ∃ t, result = .error e t := by
  rcases result with ⟨a, t⟩ | ⟨e', t⟩
  · cases h
  · cases h
    exact ⟨t, rfl⟩

/-! ## Success -/

/-- A sequence of two computations succeeds when both do. -/
theorem bind_run_eq_ok_iff {first : EStateM ε σ α} {then_ : α → EStateM ε σ β} {b : β} {s t : σ} :
    (first >>= then_).run s = .ok b t ↔
      ∃ a u, first.run s = .ok a u ∧ (then_ a).run u = .ok b t := by
  rw [EStateM.run_bind]
  cases first.run s with
  | error e u =>
    constructor
    · intro h
      cases h
    · rintro ⟨_, _, h, _⟩
      cases h
  | ok a u =>
    constructor
    · intro h
      exact ⟨a, u, rfl, h⟩
    · rintro ⟨_, _, ⟨⟩, h⟩
      exact h

/-- A verdict that is not on the state leaves the state. -/
theorem ofExcept_run_eq_ok_iff {verdict : Except ε α} {a : α} {s t : σ} :
    EStateM.run (MonadExcept.ofExcept verdict : EStateM ε σ α) s = .ok a t ↔
      verdict = .ok a ∧ t = s := by
  cases verdict with
  | error e =>
    constructor
    · intro h
      cases h
    · rintro ⟨h, _⟩
      cases h
  | ok a' =>
    constructor
    · intro h
      cases h
      exact ⟨rfl, rfl⟩
    · rintro ⟨⟨⟩, rfl⟩
      rfl

/-- A sequence that starts with a verdict. -/
theorem ofExcept_bind_run_eq_ok_iff {verdict : Except ε α} {then_ : α → EStateM ε σ β} {b : β}
    {s t : σ} :
    (MonadExcept.ofExcept verdict >>= then_).run s = .ok b t ↔
      ∃ a, verdict = .ok a ∧ (then_ a).run s = .ok b t := by
  rw [bind_run_eq_ok_iff]
  constructor
  · rintro ⟨a, u, hverdict, h⟩
    obtain ⟨rfl, rfl⟩ := ofExcept_run_eq_ok_iff.mp hverdict
    exact ⟨a, rfl, h⟩
  · rintro ⟨a, rfl, h⟩
    exact ⟨a, s, rfl, h⟩

/-- A sequence of two verdicts accepts when both do. -/
theorem bind_eq_ok_iff {first : Except ε α} {then_ : α → Except ε β} {b : β} :
    first >>= then_ = .ok b ↔ ∃ a, first = .ok a ∧ then_ a = .ok b := by
  cases first with
  | error e =>
    constructor
    · intro h
      cases h
    · rintro ⟨_, h, _⟩
      cases h
  | ok a =>
    constructor
    · intro h
      exact ⟨a, rfl, h⟩
    · rintro ⟨_, ⟨⟩, h⟩
      exact h

/-- A verdict whose value is changed accepts when the verdict does. -/
theorem map_eq_ok_iff {verdict : Except ε α} {f : α → β} {b : β} :
    f <$> verdict = .ok b ↔ ∃ a, verdict = .ok a ∧ f a = b := by
  cases verdict with
  | error e =>
    constructor
    · intro h
      cases h
    · rintro ⟨_, h, _⟩
      cases h
  | ok a =>
    constructor
    · intro h
      cases h
      exact ⟨a, rfl, rfl⟩
    · rintro ⟨_, ⟨⟩, rfl⟩
      rfl

/-- Rewording the errors of a computation changes no success. -/
theorem adaptExcept_run_eq_ok_iff {f : ε → ε'} {x : EStateM ε σ α} {a : α} {s t : σ} :
    (x.adaptExcept f).run s = .ok a t ↔ x.run s = .ok a t := by
  rw [EStateM.run_adaptExcept]
  cases x.run s with
  | error e u => simp
  | ok a' u => simp

/-- A sequence that starts by reading the state. -/
theorem get_bind_run_eq_ok_iff {then_ : σ → EStateM ε σ β} {b : β} {s t : σ} :
    (get >>= then_).run s = .ok b t ↔ (then_ s).run s = .ok b t := Iff.rfl

/-- A demand, and then a computation. -/
theorem demand_run_eq_ok_iff {c : Prop} [Decidable c] {e : ε} {rest : Unit → EStateM ε σ β} {b : β}
    {s t : σ} :
    (if c then throw e >>= rest else rest ()).run s = .ok b t ↔
      ¬ c ∧ (rest ()).run s = .ok b t := by
  by_cases h : c
  · rw [if_pos h]
    constructor
    · intro h'
      cases h'
    · exact fun h' => absurd h h'.1
  · rw [if_neg h]
    exact ⟨fun h' => ⟨h, h'⟩, fun h' => h'.2⟩

/-! ## Failure -/

/-- A sequence of two computations fails when the first one does, or when the second one does after
it. -/
theorem bind_run_eq_error_iff {first : EStateM ε σ α} {then_ : α → EStateM ε σ β} {e : ε}
    {s t : σ} :
    (first >>= then_).run s = .error e t ↔
      first.run s = .error e t ∨ ∃ a u, first.run s = .ok a u ∧ (then_ a).run u = .error e t := by
  rw [EStateM.run_bind]
  cases first.run s with
  | error e' u =>
    constructor
    · rintro ⟨⟩
      exact .inl rfl
    · rintro (⟨⟨⟩⟩ | ⟨_, _, ⟨⟩, -⟩)
      rfl
  | ok a u =>
    constructor
    · intro h
      exact .inr ⟨a, u, rfl, h⟩
    · rintro (⟨⟨⟩⟩ | ⟨_, _, ⟨⟩, h⟩)
      exact h

/-- A verdict that refuses leaves the state. -/
theorem ofExcept_run_eq_error_iff {verdict : Except ε α} {e : ε} {s t : σ} :
    EStateM.run (MonadExcept.ofExcept verdict : EStateM ε σ α) s = .error e t ↔
      verdict = .error e ∧ t = s := by
  cases verdict with
  | error e' =>
    constructor
    · rintro ⟨⟩
      exact ⟨rfl, rfl⟩
    · rintro ⟨⟨⟩, rfl⟩
      rfl
  | ok a =>
    constructor
    · rintro ⟨⟩
    · rintro ⟨⟨⟩, -⟩

/-- A sequence that starts with a verdict. -/
theorem ofExcept_bind_run_eq_error_iff {verdict : Except ε α} {then_ : α → EStateM ε σ β} {e : ε}
    {s t : σ} :
    (MonadExcept.ofExcept verdict >>= then_).run s = .error e t ↔
      verdict = .error e ∧ t = s ∨ ∃ a, verdict = .ok a ∧ (then_ a).run s = .error e t := by
  rw [bind_run_eq_error_iff, ofExcept_run_eq_error_iff]
  simp only [ofExcept_run_eq_ok_iff]
  constructor
  · rintro (h | ⟨a, _, ⟨hverdict, rfl⟩, h⟩)
    · exact .inl h
    · exact .inr ⟨a, hverdict, h⟩
  · rintro (h | ⟨a, hverdict, h⟩)
    · exact .inl h
    · exact .inr ⟨a, s, ⟨hverdict, rfl⟩, h⟩

/-- A computation with its errors reworded fails when it does. -/
theorem adaptExcept_run_eq_error_iff {f : ε → ε'} {x : EStateM ε σ α} {e' : ε'} {s t : σ} :
    (x.adaptExcept f).run s = .error e' t ↔ ∃ e, x.run s = .error e t ∧ f e = e' := by
  rw [EStateM.run_adaptExcept]
  cases x.run s with
  | error e u =>
    constructor
    · rintro ⟨⟩
      exact ⟨e, rfl, rfl⟩
    · rintro ⟨_, ⟨⟩, rfl⟩
      rfl
  | ok a u =>
    constructor
    · rintro ⟨⟩
    · rintro ⟨_, ⟨⟩, -⟩

/-- A sequence that starts by reading the state. -/
theorem get_bind_run_eq_error_iff {then_ : σ → EStateM ε σ β} {e : ε} {s t : σ} :
    (get >>= then_).run s = .error e t ↔ (then_ s).run s = .error e t := Iff.rfl

/-- A demand, and then a computation. -/
theorem demand_run_eq_error_iff {c : Prop} [Decidable c] {e e' : ε}
    {rest : Unit → EStateM ε σ β} {s t : σ} :
    (if c then throw e >>= rest else rest ()).run s = .error e' t ↔
      c ∧ e' = e ∧ t = s ∨ ¬ c ∧ (rest ()).run s = .error e' t := by
  by_cases h : c
  · rw [if_pos h]
    constructor
    · rintro ⟨⟩
      exact .inl ⟨h, rfl, rfl⟩
    · rintro (⟨-, rfl, rfl⟩ | h')
      · rfl
      · exact absurd h h'.1
  · rw [if_neg h]
    constructor
    · exact fun h' => .inr ⟨h, h'⟩
    · rintro (h' | h')
      · exact absurd h'.1 h
      · exact h'.2

end RegisterMachine
