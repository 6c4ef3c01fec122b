import Goz.Core.Types
import Goz.Library.Chain

namespace Goz

open Function List

structure EntryFlags where
  dir : Bool := false
  tombstone : Bool := false
  lostFound : Bool := false
  placeholder : Bool := false
  nonUnicodeName : Bool := false
  deriving DecidableEq, Repr, Inhabited

def sizeUnknown : UInt64 := 0xFFFFFFFFFFFFFFFF

def mtimeUnknown : Int64 := Int64.minValue

def nilName : NameId := 0xFFFFFFFF

/-- The columns, one value per slot. Slots from `capacity` on were never allocated; `free` is a
    stack, its top first. -/
structure EntryTable where
  frn : EntryIdx → Frn
  parent : EntryIdx → Option EntryIdx
  nameId : EntryIdx → NameId
  flags : EntryIdx → EntryFlags
  size : EntryIdx → UInt64
  mtime : EntryIdx → Int64
  nextLink : EntryIdx → Option EntryIdx
  nextSame : EntryIdx → Option EntryIdx
  prevSame : EntryIdx → Option EntryIdx
  firstChild : EntryIdx → Option EntryIdx
  nextChild : EntryIdx → Option EntryIdx
  prevChild : EntryIdx → Option EntryIdx
  free : List EntryIdx
  live : Nat
  capacity : Nat

namespace EntryTable

variable {t : EntryTable}

def new : EntryTable where
  frn := fun _ => ⟨0⟩
  parent := fun _ => none
  nameId := fun _ => nilName
  flags := fun _ => { tombstone := true }
  size := fun _ => 0
  mtime := fun _ => 0
  nextLink := fun _ => none
  nextSame := fun _ => none
  prevSame := fun _ => none
  firstChild := fun _ => none
  nextChild := fun _ => none
  prevChild := fun _ => none
  free := []
  live := 0
  capacity := 0

def isTombstone (t : EntryTable) (idx : EntryIdx) : Bool := (t.flags idx).tombstone

def nextSlot (t : EntryTable) : EntryIdx := t.free.head?.getD t.capacity

def alloc (t : EntryTable) (frn : Frn) (parent : Option EntryIdx) (nameId : NameId) (flags : EntryFlags)
    (size : UInt64) (mtime : Int64) (nextLink : Option EntryIdx) : EntryTable × EntryIdx :=
  let idx := t.nextSlot
  ({ frn := update t.frn idx frn
     parent := update t.parent idx parent
     nameId := update t.nameId idx nameId
     flags := update t.flags idx flags
     size := update t.size idx size
     mtime := update t.mtime idx mtime
     nextLink := update t.nextLink idx nextLink
     nextSame := update t.nextSame idx none
     prevSame := update t.prevSame idx none
     firstChild := update t.firstChild idx none
     nextChild := update t.nextChild idx none
     prevChild := update t.prevChild idx none
     free := t.free.tail
     live := t.live + 1
     capacity := if t.free.isEmpty then t.capacity + 1 else t.capacity }, idx)

def tombstone (t : EntryTable) (idx : EntryIdx) : EntryTable :=
  { t with
    flags := update t.flags idx { tombstone := true }
    parent := update t.parent idx none
    nameId := update t.nameId idx nilName
    nextLink := update t.nextLink idx none
    nextSame := update t.nextSame idx none
    prevSame := update t.prevSame idx none
    firstChild := update t.firstChild idx none
    nextChild := update t.nextChild idx none
    prevChild := update t.prevChild idx none
    free := idx :: t.free
    live := t.live - 1 }

def iterLive (t : EntryTable) : List EntryIdx := (range t.capacity).filter (fun i => !t.isTombstone i)

def Live (t : EntryTable) (idx : EntryIdx) : Prop := t.isTombstone idx = false

instance (t : EntryTable) (idx : EntryIdx) : Decidable (t.Live idx) := inferInstanceAs (Decidable (_ = _))

/-- The free list holds the dead slots, once each, and nothing past the end is live. -/
structure Slots (t : EntryTable) : Prop where
  live_lt : ∀ e, t.Live e → e < t.capacity
  free_nodup : t.free.Nodup
  mem_free : ∀ e, e ∈ t.free ↔ e < t.capacity ∧ ¬ t.Live e
  live_count : t.live = t.iterLive.length

theorem slots_new : Slots new where
  live_lt := by simp [Live, isTombstone, new]
  free_nodup := nodup_nil
  mem_free := by simp [new]
  live_count := rfl

theorem Slots.of_same {t' : EntryTable} (slots : t.Slots) (dead : ∀ e, t'.isTombstone e = t.isTombstone e)
    (free : t'.free = t.free) (live : t'.live = t.live) (capacity : t'.capacity = t.capacity) : t'.Slots := by
  have alive : ∀ e, t'.Live e ↔ t.Live e := fun e => by rw [Live, Live, dead]
  have same : t'.iterLive = t.iterLive := by simp only [iterLive, dead, capacity]
  refine ⟨?_, ?_, ?_, ?_⟩
  · exact fun e there => capacity ▸ slots.live_lt e ((alive e).mp there)
  · exact free ▸ slots.free_nodup
  · exact fun e => by rw [free, capacity, alive e, slots.mem_free e]
  · rw [live, same, slots.live_count]

theorem mem_iterLive (slots : t.Slots) {e : EntryIdx} : e ∈ t.iterLive ↔ t.Live e := by
  simp only [iterLive, mem_filter, mem_range, Bool.not_eq_eq_eq_not, Bool.not_true]
  exact ⟨fun mem => mem.2, fun live => ⟨slots.live_lt e live, live⟩⟩

theorem Slots.nextSlot_dead (slots : t.Slots) : ¬ t.Live t.nextSlot := by
  unfold nextSlot
  cases free : t.free with
  | nil =>
    intro live
    exact Nat.lt_irrefl _ (slots.live_lt _ live)
  | cons top rest => exact ((slots.mem_free top).mp (by simp [free])).2

variable {t : EntryTable} {frn : Frn} {parent : Option EntryIdx} {nameId : NameId} {flags : EntryFlags}
variable {size : UInt64} {mtime : Int64} {nextLink : Option EntryIdx}

theorem live_alloc (alive : flags.tombstone = false) (e : EntryIdx) :
    (t.alloc frn parent nameId flags size mtime nextLink).1.Live e ↔ t.Live e ∨ e = t.nextSlot := by
  by_cases here : e = t.nextSlot
  · simp [Live, isTombstone, alloc, here, alive]
  · simp [Live, isTombstone, alloc, here]

theorem nodup_iterLive (t : EntryTable) : t.iterLive.Nodup := nodup_range.filter _

theorem Slots.alloc (slots : t.Slots) (frn : Frn) (parent : Option EntryIdx) (nameId : NameId) (flags : EntryFlags)
    (size : UInt64) (mtime : Int64) (nextLink : Option EntryIdx) (alive : flags.tombstone = false) :
    (t.alloc frn parent nameId flags size mtime nextLink).1.Slots := by
  have live : ∀ e, (t.alloc frn parent nameId flags size mtime nextLink).1.Live e ↔ t.Live e ∨ e = t.nextSlot :=
    live_alloc alive
  have dead := slots.nextSlot_dead
  set t' := (t.alloc frn parent nameId flags size mtime nextLink).1 with made
  -- an empty free list opens a new slot, otherwise its top is taken
  have room : t.nextSlot < t'.capacity ∧ t.capacity ≤ t'.capacity ∧ t'.free.Nodup ∧
      ∀ e, e ∈ t'.free ↔ e < t'.capacity ∧ ¬ t.Live e ∧ e ≠ t.nextSlot := by
    cases free : t.free with
    | nil =>
      have slot : t.nextSlot = t.capacity := by simp [nextSlot, free]
      have cap : t'.capacity = t.capacity + 1 := by simp [made, EntryTable.alloc, free]
      have rest : t'.free = [] := by simp [made, EntryTable.alloc, free]
      refine ⟨by rw [slot, cap]; exact Nat.lt_succ_self _, by omega, by simp [rest], fun e => ?_⟩
      have none := slots.mem_free e
      rw [free] at none
      simp only [rest, not_mem_nil, false_iff, not_and, not_not, slot] at none ⊢
      intro lt notLive
      by_contra ne
      rw [cap] at lt
      exact notLive (none (Nat.lt_of_le_of_ne (Nat.le_of_lt_succ lt) ne))
    | cons top rest =>
      have slot : t.nextSlot = top := by simp [nextSlot, free]
      have cap : t'.capacity = t.capacity := by simp [made, EntryTable.alloc, free]
      have tail : t'.free = rest := by simp [made, EntryTable.alloc, free]
      have nodup := slots.free_nodup
      rw [free] at nodup
      have mem := slots.mem_free
      simp only [free, mem_cons] at mem
      refine ⟨by rw [slot, cap]; exact ((mem top).mp (.inl rfl)).1, by omega, by rw [tail]; exact nodup.of_cons, ?_⟩
      intro e
      rw [tail, cap, slot]
      have absent := (nodup_cons.mp nodup).1
      constructor
      · intro member
        obtain ⟨lt, notLive⟩ := (mem e).mp (.inr member)
        exact ⟨lt, notLive, fun same => absent (same ▸ member)⟩
      · rintro ⟨lt, notLive, ne⟩
        exact ((mem e).mpr ⟨lt, notLive⟩).resolve_left ne
  obtain ⟨slot_lt, grow, nodup, mem⟩ := room
  have live_lt : ∀ e, t'.Live e → e < t'.capacity := by
    intro e alive
    rcases (live e).mp alive with alive | rfl
    · exact Nat.lt_of_lt_of_le (slots.live_lt e alive) grow
    · exact slot_lt
  refine ⟨live_lt, nodup, ?_, ?_⟩
  · intro e
    rw [mem e, live e, not_or]
  · have perm : t'.iterLive.Perm (t.nextSlot :: t.iterLive) := by
      refine (perm_ext_iff_of_nodup (nodup_iterLive _) ?_).mpr fun e => ?_
      · exact nodup_cons.mpr ⟨fun member => dead ((mem_iterLive slots).mp member), nodup_iterLive _⟩
      · have there : e ∈ t'.iterLive ↔ t'.Live e := by
          simp only [iterLive, mem_filter, mem_range, Bool.not_eq_eq_eq_not, Bool.not_true]
          exact ⟨fun member => member.2, fun alive => ⟨live_lt e alive, alive⟩⟩
        rw [there, live e, mem_cons, mem_iterLive slots, or_comm]
    rw [perm.length_eq, length_cons, ← slots.live_count]
    rfl

theorem live_tombstone (idx e : EntryIdx) : (t.tombstone idx).Live e ↔ t.Live e ∧ e ≠ idx := by
  by_cases here : e = idx
  · simp [Live, isTombstone, tombstone, here]
  · simp [Live, isTombstone, tombstone, here]

theorem Slots.tombstone (slots : t.Slots) {idx : EntryIdx} (alive : t.Live idx) : (t.tombstone idx).Slots := by
  have live := live_tombstone (t := t) idx
  refine ⟨fun e there => slots.live_lt e ((live e).mp there).1, ?_, ?_, ?_⟩
  · exact nodup_cons.mpr ⟨fun mem => ((slots.mem_free idx).mp mem).2 alive, slots.free_nodup⟩
  · intro e
    rw [live e]
    show e ∈ idx :: t.free ↔ e < t.capacity ∧ _
    rw [mem_cons, slots.mem_free e]
    by_cases here : e = idx
    · simp [here, slots.live_lt idx alive]
    · simp [here]
  · have perm : t.iterLive.Perm (idx :: (t.tombstone idx).iterLive) := by
      refine (perm_ext_iff_of_nodup (nodup_iterLive _) ?_).mpr fun e => ?_
      · refine nodup_cons.mpr ⟨fun mem => ?_, nodup_iterLive _⟩
        have there := (mem_filter.mp mem).2
        simp [isTombstone, EntryTable.tombstone] at there
      · have there : e ∈ (t.tombstone idx).iterLive ↔ e < t.capacity ∧ (t.tombstone idx).Live e := by
          simp [iterLive, Live, EntryTable.tombstone]
        rw [mem_iterLive slots, mem_cons, there, live e]
        by_cases here : e = idx
        · simp [here, alive]
        · simpa [here] using slots.live_lt e
    have count := perm.length_eq
    rw [length_cons, ← slots.live_count] at count
    show t.live - 1 = _
    omega

end EntryTable

end Goz
