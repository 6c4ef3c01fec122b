import Mathlib.Tactic

/-- A program that reads places of a store, each read giving a `β`, and that may stop with an error. -/
inductive Reading (ι β ε α : Type)
  | done (value : α)
  | stop (error : ε)
  | read (place : ι) (next : β → Reading ι β ε α)

namespace Reading

open List

variable {ι β ε α γ : Type} {condition : Prop}

def bind : Reading ι β ε α → (α → Reading ι β ε γ) → Reading ι β ε γ
  | done value, next => next value
  | stop error, _ => stop error
  | read place rest, next => read place fun found => (rest found).bind next

instance : Monad (Reading ι β ε) where
  pure := done
  bind := bind

def fetch (place : ι) : Reading ι β ε β := read place done

def require (condition : Prop) [Decidable condition] (error : ε) : Reading ι β ε Unit :=
  if condition then done () else stop error

variable (store : ι → β)

def run : Reading ι β ε α → Except ε α
  | done value => .ok value
  | stop error => .error error
  | read place next => (next (store place)).run

def reads : Reading ι β ε α → List ι
  | done _ => []
  | stop _ => []
  | read place next => place :: (next (store place)).reads

section Run

variable {store} {prog : Reading ι β ε α} {next : α → Reading ι β ε γ}

@[simp] theorem run_pure (value : α) : (pure value : Reading ι β ε α).run store = .ok value := rfl

@[simp] theorem run_stop (error : ε) : (stop error : Reading ι β ε α).run store = .error error := rfl

@[simp] theorem run_fetch (place : ι) : (fetch place : Reading ι β ε β).run store = .ok (store place) := rfl

@[simp] theorem run_require (condition : Prop) [Decidable condition] (error : ε) :
    (require condition error : Reading ι β ε Unit).run store = if condition then .ok () else .error error := by
  unfold require
  split <;> rfl

@[simp] theorem run_bind : (prog >>= next).run store = prog.run store >>= fun value => (next value).run store := by
  show (prog.bind next).run store = _
  induction prog with
  | done value => rfl
  | stop error => rfl
  | read place rest ih => exact ih (store place)

theorem run_bind_eq_ok {value : γ} :
    (prog >>= next).run store = .ok value ↔ ∃ middle, prog.run store = .ok middle ∧ (next middle).run store = .ok value := by
  rw [run_bind]
  cases prog.run store with
  | error error =>
    constructor
    · intro impossible
      cases impossible
    · rintro ⟨_, impossible, -⟩
      cases impossible
  | ok middle =>
    constructor
    · intro ended
      exact ⟨middle, rfl, ended⟩
    · rintro ⟨_, same, ended⟩
      exact Except.ok.inj same ▸ ended

theorem run_bind_ok {middle : α} (first : prog.run store = .ok middle) : (prog >>= next).run store = (next middle).run store := by
  rw [run_bind, first]
  rfl

theorem run_fetch_bind {place : ι} {next : β → Reading ι β ε γ} :
    (fetch place >>= next).run store = (next (store place)).run store := rfl

theorem run_require_bind [Decidable condition] {error : ε} {next : Unit → Reading ι β ε γ} (holds : condition) :
    (require condition error >>= next).run store = (next ()).run store := by
  rw [run_bind, run_require, if_pos holds]
  rfl

theorem run_require_bind_eq_ok [Decidable condition] {error : ε} {next : Unit → Reading ι β ε γ} {value : γ} :
    (require condition error >>= next).run store = .ok value ↔ condition ∧ (next ()).run store = .ok value := by
  rw [run_bind, run_require]
  split
  case isTrue holds =>
    constructor
    · intro ended
      exact ⟨holds, ended⟩
    · exact And.right
  case isFalse fails =>
    constructor
    · intro impossible
      cases impossible
    · intro both
      exact absurd both.1 fails

end Run

section Trace

def trace (prog : Reading ι β ε α) : List ι × Except ε α := (prog.reads store, prog.run store)

variable {store} {prog prog' : Reading ι β ε α} {next next' : α → Reading ι β ε γ}

theorem reads_bind : (prog >>= next).reads store =
    prog.reads store ++ (match prog.run store with | .ok value => (next value).reads store | .error _ => []) := by
  show (prog.bind next).reads store = _
  induction prog with
  | done value => rfl
  | stop error => rfl
  | read place rest ih => exact congrArg (place :: ·) (ih (store place))

/-- Two binds do the same if their parts do, the second ones where they are reached. -/
theorem trace_bind (first : prog.trace store = prog'.trace store)
    (second : ∀ value, prog.run store = .ok value → (next value).trace store = (next' value).trace store) :
    (prog >>= next).trace store = (prog' >>= next').trace store := by
  obtain ⟨sameReads, sameRun⟩ := Prod.mk.inj first
  rw [trace, trace, reads_bind, reads_bind, run_bind, run_bind, ← sameReads, ← sameRun]
  cases ran : prog.run store with
  | error error => rfl
  | ok value =>
    obtain ⟨laterReads, laterRun⟩ := Prod.mk.inj (second value ran)
    exact Prod.ext (congrArg (prog.reads store ++ ·) laterReads) laterRun

end Trace

section Safe

def Reads (P : ι → Prop) (prog : Reading ι β ε α) : Prop := ∀ place ∈ prog.reads store, P place

variable {store} {P : ι → Prop} {prog : Reading ι β ε α} {next : α → Reading ι β ε γ}

theorem Reads.pure (value : α) : Reads store P (pure value : Reading ι β ε α) := nofun

theorem Reads.stop (error : ε) : Reads store P (stop error : Reading ι β ε α) := nofun

theorem Reads.fetch {place : ι} (holds : P place) : Reads store P (fetch place : Reading ι β ε β) := by
  intro other mem
  rw [mem_singleton.mp mem]
  exact holds

theorem Reads.bind (first : Reads store P prog) (second : ∀ value, prog.run store = .ok value → Reads store P (next value)) :
    Reads store P (prog >>= next) := by
  show Reads store P (prog.bind next)
  induction prog with
  | done value => exact second value rfl
  | stop error => exact .stop error
  | read place rest ih =>
    intro other mem
    rcases mem_cons.mp mem with rfl | later
    · exact first other (mem_cons_self ..)
    · apply ih (store place) _ _ other later
      · intro seen inside
        exact first seen (mem_cons_of_mem _ inside)
      · exact second

theorem Reads.fetch_bind {place : ι} {next : β → Reading ι β ε γ} (holds : P place) (second : Reads store P (next (store place))) :
    Reads store P (Reading.fetch place >>= next) := by
  intro other mem
  rcases mem_cons.mp mem with rfl | later
  · exact holds
  · exact second other later

theorem Reads.require_bind [Decidable condition] {error : ε} {next : Unit → Reading ι β ε γ}
    (second : condition → Reads store P (next ())) : Reads store P (require condition error >>= next) := by
  unfold Reading.require
  split
  case isTrue holds => exact second holds
  case isFalse => exact .stop error

end Safe

end Reading

structure Span where
  lo : Nat
  hi : Nat
  deriving DecidableEq, Repr

namespace Span

open List

variable {α : Type}

def Inside (span whole : Span) : Prop := whole.lo ≤ span.lo ∧ span.hi ≤ whole.hi

def slice (list : List α) (span : Span) : List α := (list.drop span.lo).take (span.hi - span.lo)

theorem length_slice_le (list : List α) (span : Span) : (span.slice list).length ≤ span.hi - span.lo := by
  rw [slice, length_take]
  exact Nat.min_le_left ..

theorem slice_append {front rest : List α} {at_ lo hi : Nat} (start : front.length = at_) :
    slice (front ++ rest) ⟨at_ + lo, at_ + hi⟩ = slice rest ⟨lo, hi⟩ := by
  simp only [slice]
  rw [← start, drop_append, drop_eq_nil_of_le (by omega), nil_append, Nat.add_sub_cancel_left, Nat.add_sub_add_left]

theorem slice_append_left {list rest : List α} {lo hi : Nat} (within : hi ≤ list.length) :
    slice (list ++ rest) ⟨lo, hi⟩ = slice list ⟨lo, hi⟩ := by
  simp only [slice]
  rcases Nat.le_total lo hi with forward | backward
  · rw [drop_append_of_le_length (by omega), take_append_of_le_length (by rw [length_drop]; omega)]
  · rw [Nat.sub_eq_zero_of_le backward, take_zero, take_zero]

end Span
