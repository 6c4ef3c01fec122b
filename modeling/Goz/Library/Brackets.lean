import Mathlib.Data.List.Basic
import Mathlib.Order.Basic
import Mathlib.Tactic

namespace Brackets

open List

inductive Event (α : Type*)
  | enter (x : α)
  | exit (x : α)

section Sweep

variable {α : Type*} (inside : α → α → Bool)

def close (y : α) : List α → List (Event α) × List α
  | [] => ([], [])
  | x :: rest =>
    if inside x y then ([], x :: rest)
    else
      let closed := close y rest
      (.exit x :: closed.1, closed.2)

/-- The ends of intervals that come by their first ends, where `opened` are still open, the innermost first. -/
def events : List α → List α → List (Event α)
  | [], opened => opened.map .exit
  | y :: rest, opened =>
    let closed := close inside y opened
    closed.1 ++ .enter y :: events rest (y :: closed.2)

end Sweep

variable {α κ : Type*} [LinearOrder κ] {enter exit : α → κ} {inside : α → α → Bool} {member : α → Prop}
  {opened rest : List α}

def Event.key (enter exit : α → κ) : Event α → κ
  | .enter x => enter x
  | .exit x => exit x

/-- Of two intervals the later one ends inside the earlier one, or begins after it. -/
structure Nested (enter exit : α → κ) (inside : α → α → Bool) (member : α → Prop) : Prop where
  proper : ∀ x, member x → enter x < exit x
  within : ∀ x y, member x → member y → enter x < enter y → inside x y = true → enter y < exit x ∧ exit y < exit x
  apart : ∀ x y, member x → member y → enter x < enter y → inside x y = false → exit x < enter y

variable (inside) in
theorem close_split (y : α) (opened : List α) :
    ∃ done still, opened = done ++ still ∧ close inside y opened = (done.map .exit, still) ∧
      (∀ x ∈ done, inside x y = false) ∧ ∀ x, still.head? = some x → inside x y = true := by
  induction opened with
  | nil => exact ⟨[], [], rfl, rfl, by simp, by simp⟩
  | cons x rest ih =>
    unfold close
    split
    case isTrue held => exact ⟨[], x :: rest, rfl, rfl, by simp, by simpa using held⟩
    case isFalse out =>
      obtain ⟨done, still, split, closed, outside, first⟩ := ih
      refine ⟨x :: done, still, by simp [split], by simp [closed], ?_, first⟩
      intro z inDone
      rcases mem_cons.mp inDone with rfl | inDone
      · simpa using out
      · exact outside z inDone

theorem perm_events (inside : α → α → Bool) (rest opened : List α) :
    (events inside rest opened).Perm (opened.map .exit ++ rest.flatMap fun y => [.enter y, .exit y]) := by
  induction rest generalizing opened with
  | nil => simp [events]
  | cons y rest ih =>
    obtain ⟨done, still, rfl, closed, -, -⟩ := close_split inside y opened
    simp only [events, closed, map_append, append_assoc, flatMap_cons]
    apply Perm.append_left
    have swap : ([Event.enter y, Event.exit y] ++ still.map Event.exit).Perm (still.map Event.exit ++ [Event.enter y, Event.exit y]) :=
      perm_append_comm
    have moved := swap.append_right (rest.flatMap fun y => [Event.enter y, .exit y])
    rw [append_assoc, append_assoc] at moved
    apply ((ih (y :: still)).cons (Event.enter y)).trans
    exact moved

theorem mem_events {a : Event α} : a ∈ events inside rest opened ↔
    (∃ x ∈ opened, a = .exit x) ∨ ∃ y ∈ rest, a = .enter y ∨ a = .exit y := by
  rw [(perm_events inside rest opened).mem_iff]
  simp [eq_comm]

theorem sorted_events (nested : Nested enter exit inside mem) (restIn : ∀ y ∈ rest, mem y)
    (openedIn : ∀ x ∈ opened, mem x) (sorted : rest.Pairwise fun x y => enter x < enter y)
    (stack : opened.Pairwise fun x y => exit x < exit y) (before : ∀ x ∈ opened, ∀ y ∈ rest, enter x < enter y) :
    (events inside rest opened).Pairwise fun a b => a.key enter exit < b.key enter exit := by
  induction rest generalizing opened with
  | nil => simpa [events, pairwise_map, Event.key] using stack
  | cons y rest ih =>
    obtain ⟨done, still, rfl, closed, outside, first⟩ := close_split inside y opened
    obtain ⟨later, sorted⟩ := pairwise_cons.mp sorted
    obtain ⟨doneSorted, stillSorted, across⟩ := pairwise_append.mp stack
    have yIn := restIn y (by simp)
    have stillIn : ∀ x ∈ still, mem x := fun x inStill => openedIn x (by simp [inStill])
    have doneIn : ∀ x ∈ done, mem x := fun x inDone => openedIn x (by simp [inDone])
    -- what is still open ends after `y`, as its innermost interval does
    have around : ∀ x ∈ still, enter y < exit x ∧ exit y < exit x := by
      cases still with
      | nil => simp
      | cons z still =>
        have inner := nested.within z y (stillIn z (by simp)) yIn (before z (by simp) y (by simp)) (first z rfl)
        intro x inStill
        rcases mem_cons.mp inStill with rfl | inStill
        · exact inner
        · have outer := (pairwise_cons.mp stillSorted).1 x inStill
          exact ⟨inner.1.trans outer, inner.2.trans outer⟩
    have tail := @ih (y :: still) (fun z inRest => restIn z (by simp [inRest]))
      (by simpa using ⟨yIn, stillIn⟩) sorted (pairwise_cons.mpr ⟨fun x inStill => (around x inStill).2, stillSorted⟩)
      (by
        intro x inOpen z inRest
        rcases mem_cons.mp inOpen with rfl | inStill
        · exact later z inRest
        · exact before x (by simp [inStill]) z (by simp [inRest]))
    have after : ∀ a ∈ events inside rest (y :: still), enter y < a.key enter exit := by
      intro a due
      rcases mem_events.mp due with ⟨x, inOpen, rfl⟩ | ⟨z, inRest, rfl | rfl⟩
      · rcases mem_cons.mp inOpen with rfl | inStill
        · exact nested.proper x yIn
        · exact (around x inStill).1
      · exact later z inRest
      · exact (later z inRest).trans (nested.proper z (restIn z (by simp [inRest])))
    have ended : ∀ x ∈ done, exit x < enter y := fun x inDone =>
      nested.apart x y (doneIn x inDone) yIn (before x (by simp [inDone]) y (by simp)) (outside x inDone)
    simp only [events, closed]
    apply pairwise_append.mpr
    refine ⟨by simpa [pairwise_map, Event.key] using doneSorted, pairwise_cons.mpr ⟨after, tail⟩, ?_⟩
    intro a aIn b bIn
    obtain ⟨x, inDone, rfl⟩ := mem_map.mp aIn
    rcases mem_cons.mp bIn with rfl | due
    · exact ended x inDone
    · exact (ended x inDone).trans (after b due)

end Brackets
