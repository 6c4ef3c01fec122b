import Mathlib.Tactic

namespace Machine

variable {σ ε : Type*} {p q : Nat → Prop} {i j : Nat}

def run (step : σ → ε → σ) (start : σ) (events : Nat → ε) : Nat → σ
  | 0 => start
  | n + 1 => step (run step start events n) (events n)

variable {step : σ → ε → σ} {start : σ} {events : Nat → ε}

theorem invariant {p : σ → Prop} (first : p start)
    (keeps : ∀ n, p (run step start events n) → p (step (run step start events n) (events n))) (n : Nat) :
    p (run step start events n) := by
  induction n with
  | zero => exact first
  | succ n ih => exact keeps n ih

/-- What every step keeps unless it is one that may end it, lasts until such a step. -/
theorem lasts_until (first : p i)
    (keeps : ∀ n, i ≤ n → p n → ¬ q n → p (n + 1)) (le : i ≤ j) :
    p j ∨ ∃ k, i ≤ k ∧ k < j ∧ p k ∧ q k := by
  induction j, le using Nat.le_induction with
  | base => exact .inl first
  | succ n le ih =>
    rcases ih with now | ⟨k, after, before, ended⟩
    · by_cases ended : q n
      · exact .inr ⟨n, le, by omega, now, ended⟩
      · exact .inl (keeps n le now ended)
    · exact .inr ⟨k, after, by omega, ended⟩

/-- What only one kind of step ends is still there when the first such step comes. -/
theorem meets (first : p i) (keeps : ∀ n, i ≤ n → p n → ¬ q n → p (n + 1))
    (le : i ≤ j) (comes : q j) : ∃ k, i ≤ k ∧ p k ∧ q k := by
  rcases lasts_until first keeps le with now | ⟨k, after, -, both⟩
  · exact ⟨j, le, now, comes⟩
  · exact ⟨k, after, both⟩

theorem leaves (first : p i) (le : i ≤ j) (last : ¬ p j) : ∃ k, i ≤ k ∧ k < j ∧ p k ∧ ¬ p (k + 1) := by
  rcases lasts_until (q := fun n => ¬ p (n + 1)) first (fun _ _ _ => not_not.mp) le with now | ends
  · exact absurd now last
  · exact ends

end Machine
