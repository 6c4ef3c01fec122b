import Mathlib.Data.List.Basic
import Mathlib.Tactic

namespace Replay

variable {σ α : Type*} {act : σ → α → σ} {ops : List α} {op : α}

/-- Operations that overwrite what earlier ones wrote: once an operation would see no difference
    between two states, it sees none after other operations on both either. -/
structure Overwrites (act : σ → α → σ) : Prop where
  idem : ∀ state op, act (act state op) op = act state op
  congr : ∀ op other state state', act state op = act state' op → act (act state other) op = act (act state' other) op

variable (law : Overwrites act)
include law

theorem Overwrites.congr_foldl (ops : List α) {state state' : σ}
    (same : act state op = act state' op) : act (ops.foldl act state) op = act (ops.foldl act state') op := by
  induction ops generalizing state state' with
  | nil => exact same
  | cons first rest ih => exact ih (law.congr op first state state' same)

theorem Overwrites.absorb (mem : op ∈ ops) (state : σ) :
    ops.foldl act (act state op) = ops.foldl act state := by
  obtain ⟨before, after, rfl⟩ := List.append_of_mem mem
  have same := law.congr_foldl before (law.idem state op)
  rw [List.foldl_append, List.foldl_append, List.foldl_cons, List.foldl_cons, same]

theorem Overwrites.absorb_all {again : List α} (members : ∀ op ∈ again, op ∈ ops) (state : σ) :
    ops.foldl act (again.foldl act state) = ops.foldl act state := by
  induction again generalizing state with
  | nil => rfl
  | cons first rest ih =>
    have later := ih (fun op mem => members op (List.mem_cons_of_mem first mem)) (act state first)
    rw [List.foldl_cons, later]
    exact law.absorb (members first (by simp)) state

theorem Overwrites.replay (ops : List α) (state : σ) :
    ops.foldl act (ops.foldl act state) = ops.foldl act state :=
  law.absorb_all (fun _ mem => mem) state

end Replay
