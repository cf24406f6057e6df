import Mathlib.Order.Basic

/-! # Code with labels

A loop that jumps to labels in its body is a machine: control is at a label, and what stands
there ends in a jump or leaves the loop. `none` is a part that has not ended. -/

namespace Labels

variable {ℓ σ : Type*}

/-- Where control goes. -/
inductive Jump (ℓ σ : Type*)
  | goto (label : ℓ) (state : σ)
  | exit (ok : Bool) (state : σ)

/-- At most `fuel` jumps. -/
def run (step : ℓ → σ → Option (Jump ℓ σ)) : ℕ → ℓ → σ → Option (Bool × σ)
  | 0, _, _ => none
  | fuel + 1, label, state =>
      match step label state with
      | none => none
      | some (.exit ok state') => some (ok, state')
      | some (.goto label' state') => run step fuel label' state'

/-- One jump from a state in which `n` bounds what is left to do. -/
inductive Advances (inv : ℕ → ℓ → σ → Prop) (post : σ → Prop) (n : ℕ) :
    Option (Jump ℓ σ) → Prop
  | goto {label state} (m : ℕ) (hlt : m < n) (h : inv m label state) :
      Advances inv post n (some (.goto label state))
  | exit {state} (h : post state) : Advances inv post n (some (.exit true state))

variable {step : ℓ → σ → Option (Jump ℓ σ)} {inv : ℕ → ℓ → σ → Prop} {post : σ → Prop}

/-- If each jump leaves less to do, the loop is left. -/
theorem run_eq {bound : ℕ} (hstep : ∀ n label state, n < bound → inv n label state →
      Advances inv post n (step label state)) {n fuel : ℕ} {label : ℓ} {state : σ}
    (h : inv n label state) (hbound : n < bound) (hfuel : n < fuel) :
    ∃ state', run step fuel label state = some (true, state') ∧ post state' := by
  induction fuel generalizing n label state with
  | zero => omega
  | succ fuel ih =>
      have hadvances := hstep n label state hbound h
      rw [run]
      generalize step label state = jump at hadvances
      cases hadvances with
      | exit hpost => exact ⟨_, rfl, hpost⟩
      | goto m hlt hm => exact ih hm (by omega) (by omega)

end Labels
