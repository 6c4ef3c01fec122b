import Goz.Index.FrnMap
import Mathlib.Data.Finmap

namespace Goz.FrnMap

open List

variable {records : List (Nat × EntryIdx)}

/-- The mark of an empty slot. -/
def nil : EntryIdx := 0xFFFFFFFF

def slotOf (idx : EntryIdx) : Option EntryIdx := if idx = nil then none else some idx

/-- The map as it is stored, with `nil` in the empty slots of the vector. -/
inductive Stored
  | dense (slots : List EntryIdx)
  | sparse (records : List (Nat × EntryIdx))

namespace Stored

def get : Stored → Nat → Option EntryIdx
  | dense slots, record => slots[record]?.filter (· ≠ nil)
  | sparse records, record => records.lookup record

def set : Stored → Nat → EntryIdx → Stored
  | dense slots, record, idx =>
    if record > slots.length * 2 + denseGrowthSlack then sparse (insert (toSparse (slots.map slotOf)) record idx)
    else dense ((slots ++ replicate (record + 1 - slots.length) nil).set record idx)
  | sparse records, record, idx => sparse (insert records record idx)

def remove : Stored → Nat → Stored
  | dense slots, record => dense (slots.set record nil)
  | sparse records, record => sparse (records.filter (·.1 ≠ record))

def densifyIfSmaller (capacity : Nat) : Stored → Stored
  | dense slots => dense slots
  | sparse records =>
    match (records.map (·.1)).max? with
    | none => sparse records
    | some top =>
      if (top + 1) * 4 < (capacity * 8 / 7).nextPowerOfTwo * 17 then
        dense (records.foldr (fun entry slots => slots.set entry.1 entry.2) (replicate (top + 1) nil))
      else sparse records

def view : Stored → FrnMap
  | dense slots => .dense (slots.map slotOf)
  | sparse records => .sparse records

variable {m : Stored} {idx : EntryIdx}

theorem get_view (m : Stored) (r : Nat) : m.view.get r = m.get r := by
  cases m with
  | dense slots =>
    simp only [view, FrnMap.get, get, getElem?_map]
    cases slots[r]? with
    | none => rfl
    | some idx => by_cases empty : idx = nil <;> simp [slotOf, empty, Option.filter]
  | sparse records => rfl

theorem view_set (full : idx ≠ nil) (m : Stored) (r : Nat) : (m.set r idx).view = m.view.set r idx := by
  cases m with
  | dense slots =>
    by_cases far : r > slots.length * 2 + denseGrowthSlack
    · simp only [set, view, FrnMap.set, length_map, if_pos far]
    · simp only [set, view, FrnMap.set, length_map, if_neg far]
      simp [store, map_set, slotOf, full]
  | sparse records => rfl

theorem view_remove (m : Stored) (r : Nat) : (m.remove r).view = m.view.remove r := by
  cases m with
  | dense slots => simp [remove, view, FrnMap.remove, map_set, slotOf]
  | sparse records => rfl

theorem getElem?_filled {n r : Nat} (below : r < n) :
    (records.foldr (fun entry slots => slots.set entry.1 entry.2) (replicate n nil))[r]? =
      some ((records.lookup r).getD nil) := by
  induction records with
  | nil => simp [below]
  | cons entry rest ih =>
    have inside := (List.getElem?_eq_some_iff.mp ih).1
    rw [foldr_cons, lookup_cons]
    by_cases same : entry.1 = r
    · subst same
      rw [getElem?_set_self inside]
      simp
    · rw [getElem?_set_ne same, ih, beq_false_of_ne (Ne.symm same)]

theorem map_slotOf_filled (solid : ∀ r, records.lookup r ≠ some nil) (n : Nat) :
    (records.foldr (fun entry slots => slots.set entry.1 entry.2) (replicate n nil)).map slotOf =
      (range n).map fun r => records.lookup r := by
  have size : (records.foldr (fun entry slots => slots.set entry.1 entry.2) (replicate n nil)).length = n := by
    clear solid
    induction records with
    | nil => simp
    | cons entry rest ih => rw [foldr_cons, length_set, ih]
  apply ext_getElem?
  intro r
  by_cases below : r < n
  · rw [getElem?_map, getElem?_filled below, getElem?_map, getElem?_range below]
    cases found : records.lookup r with
    | none => simp [slotOf, found]
    | some idx =>
      have full : idx ≠ nil := fun empty => solid r (empty ▸ found)
      simp [slotOf, full, found]
  · rw [getElem?_eq_none (by simpa [size] using below), getElem?_eq_none (by simpa using below)]

theorem view_densifyIfSmaller (solid : ∀ r, m.get r ≠ some nil) (capacity : Nat) :
    (m.densifyIfSmaller capacity).view = m.view.densifyIfSmaller capacity := by
  cases m with
  | dense slots => rfl
  | sparse records =>
    cases most : (records.map (·.1)).max? with
    | none => simp only [densifyIfSmaller, view, FrnMap.densifyIfSmaller, most]
    | some top =>
      by_cases smaller : (top + 1) * 4 < (capacity * 8 / 7).nextPowerOfTwo * 17
      · simp only [densifyIfSmaller, view, FrnMap.densifyIfSmaller, most, if_pos smaller, map_slotOf_filled solid]
      · simp only [densifyIfSmaller, view, FrnMap.densifyIfSmaller, most, if_neg smaller]

theorem get_set (full : idx ≠ nil) (m : Stored) (record r : Nat) :
    (m.set record idx).get r = if r = record then some idx else m.get r := by
  rw [← get_view, view_set full, FrnMap.get_set, get_view]

theorem get_remove (m : Stored) (record r : Nat) : (m.remove record).get r = if r = record then none else m.get r := by
  rw [← get_view, view_remove, FrnMap.get_remove, get_view]

theorem get_densifyIfSmaller (solid : ∀ r, m.get r ≠ some nil) (capacity r : Nat) :
    (m.densifyIfSmaller capacity).get r = m.get r := by
  rw [← get_view, view_densifyIfSmaller solid, FrnMap.get_densifyIfSmaller, get_view]

end Stored

inductive Op
  | get (record : Nat)
  | set (record : Nat) (idx : EntryIdx)
  | remove (record : Nat)
  | densifyIfSmaller (capacity : Nat)

/-- What the gets of a run answer. -/
def Stored.answers (m : Stored) : List Op → List (Option EntryIdx)
  | [] => []
  | .get record :: ops => m.get record :: m.answers ops
  | .set record idx :: ops => (m.set record idx).answers ops
  | .remove record :: ops => (m.remove record).answers ops
  | .densifyIfSmaller capacity :: ops => (m.densifyIfSmaller capacity).answers ops

/-- What the gets of the run answer on one finite partial map. -/
def mapAnswers (map : Finmap fun _ : Nat => EntryIdx) : List Op → List (Option EntryIdx)
  | [] => []
  | .get record :: ops => map.lookup record :: mapAnswers map ops
  | .set record idx :: ops => mapAnswers (map.insert record idx) ops
  | .remove record :: ops => mapAnswers (map.erase record) ops
  | .densifyIfSmaller _ :: ops => mapAnswers map ops

/-- Whichever backing a map starts from and switches to, its gets answer as one finite map does. -/
theorem backing_invisible {m : Stored} {map : Finmap fun _ : Nat => EntryIdx} (same : ∀ r, m.get r = map.lookup r)
    (solid : ∀ r, m.get r ≠ some nil) {ops : List Op} (full : ∀ r idx, Op.set r idx ∈ ops → idx ≠ nil) :
    m.answers ops = mapAnswers map ops := by
  induction ops generalizing m map with
  | nil => rfl
  | cons op ops ih =>
    have later : ∀ r idx, Op.set r idx ∈ ops → idx ≠ nil := fun r idx mem => full r idx (mem_cons_of_mem _ mem)
    cases op with
    | get record =>
      simp only [Stored.answers, mapAnswers, same record]
      rw [ih same solid later]
    | set record idx =>
      have stored := full record idx mem_cons_self
      apply ih _ _ later
      all_goals
        intro r
        rw [Stored.get_set stored]
        by_cases here : r = record
      · subst here
        simp
      · simp [here, same, Finmap.lookup_insert_of_ne]
      · simp [here, stored]
      · simpa [here] using solid r
    | remove record =>
      apply ih _ _ later
      all_goals
        intro r
        rw [Stored.get_remove]
        by_cases here : r = record
      · subst here
        simp
      · simp [here, same, Finmap.lookup_erase_ne]
      · simp [here]
      · simpa [here] using solid r
    | densifyIfSmaller capacity =>
      have kept := Stored.get_densifyIfSmaller solid capacity
      exact ih (fun r => (kept r).trans (same r)) (fun r => kept r ▸ solid r) later

/-- A far record sends the vector to a hash map, and the map returns to a vector once it is gone. -/
def switching : List Op :=
  [.set 1 5, .set 70000 7, .get 70000, .remove 70000, .densifyIfSmaller 3, .get 1, .get 70000]

theorem backing_invisible_switching :
    (Stored.dense (replicate 2 nil)).answers switching = mapAnswers ∅ switching ∧
      (Stored.dense (replicate 2 nil)).answers switching = [some 7, some 5, none] := by
  have empty : ∀ r, (Stored.dense (replicate 2 nil)).get r = (∅ : Finmap fun _ : Nat => EntryIdx).lookup r := by
    intro r
    rcases r with _ | _ | r
    · rfl
    · rfl
    · simp [Stored.get]
  have full : ∀ r idx, Op.set r idx ∈ switching → idx ≠ nil := by
    intro r idx mem
    simp only [switching, mem_cons, Op.set.injEq, reduceCtorEq, or_false, not_mem_nil] at mem
    rcases mem with ⟨_, rfl⟩ | ⟨_, rfl⟩ <;> decide
  have solid : ∀ r, (Stored.dense (replicate 2 nil)).get r ≠ some nil := fun r => by simp only [empty]; simp
  exact ⟨backing_invisible empty solid full, by decide +kernel⟩

end Goz.FrnMap
