/-!
# Computations that fail and keep their state

The compiler and the machine are computations over a state that is there after a failure, too. Here
is what the parts of such a computation do when they are applied to a state.
-/

namespace Covenant.Computation

variable {ε σ α β : Type}

theorem pure_apply (a : α) (s : σ) : (pure a : EStateM ε σ α) s = .ok a s := rfl

theorem throw_apply (e : ε) (s : σ) : (throw e : EStateM ε σ α) s = .error e s := rfl

theorem get_apply (s : σ) : (get : EStateM ε σ σ) s = .ok s s := rfl

theorem set_apply (t s : σ) : (set t : EStateM ε σ PUnit) s = .ok ⟨⟩ t := rfl

theorem modify_apply (f : σ → σ) (s : σ) :
    (modify f : EStateM ε σ PUnit) s = .ok ⟨⟩ (f s) := rfl

theorem modifyGet_apply (f : σ → α × σ) (s : σ) :
    (modifyGet f : EStateM ε σ α) s = .ok (f s).1 (f s).2 := rfl

theorem bind_of_ok {x : EStateM ε σ α} {k : α → EStateM ε σ β} {s t : σ} {a : α}
    (h : x s = .ok a t) : (x >>= k) s = k a t := by
  change EStateM.bind x k s = _
  rw [EStateM.bind, h]

theorem bind_of_error {x : EStateM ε σ α} {k : α → EStateM ε σ β} {s t : σ} {e : ε}
    (h : x s = .error e t) : (x >>= k) s = .error e t := by
  change EStateM.bind x k s = _
  rw [EStateM.bind, h]

/-- A bind that succeeds has two parts that do. -/
theorem bind_eq_ok {x : EStateM ε σ α} {k : α → EStateM ε σ β} {s t : σ} {b : β}
    (h : (x >>= k) s = .ok b t) : ∃ a s', x s = .ok a s' ∧ k a s' = .ok b t := by
  change EStateM.bind x k s = _ at h
  unfold EStateM.bind at h
  split at h
  · exact ⟨_, _, ‹_›, h⟩
  · cases h

/-- A bind that fails has a part that does. -/
theorem bind_eq_error {x : EStateM ε σ α} {k : α → EStateM ε σ β} {s t : σ} {e : ε}
    (h : (x >>= k) s = .error e t) :
    x s = .error e t ∨ ∃ a s', x s = .ok a s' ∧ k a s' = .error e t := by
  change EStateM.bind x k s = _ at h
  unfold EStateM.bind at h
  split at h
  · exact .inr ⟨_, _, ‹_›, h⟩
  · cases h
    exact .inl ‹_›

/-- What does not touch the state and succeeds has two parts that do. -/
theorem except_bind_eq_ok {x : Except ε α} {k : α → Except ε β} {b : β} (h : (x >>= k) = .ok b) :
    ∃ a, x = .ok a ∧ k a = .ok b := by
  cases x with
  | error e => cases h
  | ok a => exact ⟨a, rfl, h⟩

theorem get_bind_apply (k : σ → EStateM ε σ β) (s : σ) :
    ((get : EStateM ε σ σ) >>= k) s = k s s := rfl

theorem modify_bind_apply (f : σ → σ) (k : PUnit → EStateM ε σ β) (s : σ) :
    ((modify f : EStateM ε σ PUnit) >>= k) s = k ⟨⟩ (f s) := rfl

end Covenant.Computation
