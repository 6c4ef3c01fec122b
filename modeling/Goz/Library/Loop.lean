import Mathlib.Tactic

/-! A loop whose body either goes round again or returns. -/

namespace Loop

variable {σ ρ : Type*} {s : σ}

/-- `none`: the fuel ran out before the loop returned. -/
def loop (turn : σ → σ ⊕ ρ) : Nat → σ → Option ρ
  | 0, _ => none
  | fuel + 1, s =>
    match turn s with
    | .inl again => loop turn fuel again
    | .inr result => some result

variable {turn : σ → σ ⊕ ρ}

/-- Partial correctness: an invariant of the rounds and what it gives of the result. -/
theorem correct (inv : σ → Prop) {post : ρ → Prop} (rounds : ∀ s again, inv s → turn s = .inl again → inv again)
    (returns : ∀ s result, inv s → turn s = .inr result → post result) {fuel : Nat} {result : ρ} (first : inv s)
    (done : loop turn fuel s = some result) : post result := by
  induction fuel generalizing s with
  | zero => cases done
  | succ fuel ih =>
    rw [loop] at done
    cases next : turn s with
    | inl again =>
      rw [next] at done
      exact ih (rounds s again first next) done
    | inr last =>
      rw [next] at done
      cases done
      exact returns s _ first next

/-- A measure that goes down with each round makes the loop return, whatever more fuel it is given. -/
theorem ends (inv : σ → Prop) (measure : σ → Nat)
    (rounds : ∀ s again, inv s → turn s = .inl again → inv again ∧ measure again < measure s) (first : inv s) :
    ∃ result, ∀ fuel, measure s < fuel → loop turn fuel s = some result := by
  induction size : measure s using Nat.strong_induction_on generalizing s with
  | _ n ih =>
    cases next : turn s with
    | inl again =>
      obtain ⟨kept, down⟩ := rounds s again first next
      obtain ⟨result, enough⟩ := ih _ (size ▸ down) kept rfl
      refine ⟨result, ?_⟩
      intro fuel many
      cases fuel with
      | zero => omega
      | succ fuel =>
        rw [loop, next]
        exact enough fuel (by omega)
    | inr result =>
      refine ⟨result, ?_⟩
      intro fuel many
      cases fuel with
      | zero => omega
      | succ fuel => rw [loop, next]

end Loop
