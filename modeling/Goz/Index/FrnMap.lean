import Goz.Core.Types

namespace Goz

open List

def denseGrowthSlack : Nat := 65536

/-- The chain head of each record number: a vector indexed by record number, or a hash map,
    whose entries are listed here with the latest first. -/
inductive FrnMap
  | dense (slots : List (Option EntryIdx))
  | sparse (records : List (Nat × EntryIdx))

namespace FrnMap

def get : FrnMap → Nat → Option EntryIdx
  | dense slots, record => (slots[record]?).join
  | sparse records, record => records.lookup record

def toSparse (slots : List (Option EntryIdx)) : List (Nat × EntryIdx) :=
  (range slots.length).filterMap fun r => ((slots[r]?).join).map (r, ·)

def insert (records : List (Nat × EntryIdx)) (record : Nat) (idx : EntryIdx) : List (Nat × EntryIdx) :=
  (record, idx) :: records.filter (·.1 ≠ record)

def store (slots : List (Option EntryIdx)) (record : Nat) (idx : EntryIdx) : List (Option EntryIdx) :=
  (slots ++ replicate (record + 1 - slots.length) none).set record (some idx)

def set : FrnMap → Nat → EntryIdx → FrnMap
  | dense slots, record, idx =>
    if record > slots.length * 2 + denseGrowthSlack then sparse (insert (toSparse slots) record idx)
    else dense (store slots record idx)
  | sparse records, record, idx => sparse (insert records record idx)

def remove : FrnMap → Nat → FrnMap
  | dense slots, record => dense (slots.set record none)
  | sparse records, record => sparse (records.filter (·.1 ≠ record))

/-- The dense form, when a vector costs less than the buckets of a hash map with this capacity. -/
def densifyIfSmaller (capacity : Nat) : FrnMap → FrnMap
  | dense slots => dense slots
  | sparse records =>
    match (records.map (·.1)).max? with
    | none => sparse records
    | some top =>
      if (top + 1) * 4 < (capacity * 8 / 7).nextPowerOfTwo * 17 then
        dense ((range (top + 1)).map fun r => records.lookup r)
      else sparse records

theorem lookup_filter_ne (records : List (Nat × EntryIdx)) (record r : Nat) :
    (records.filter (·.1 ≠ record)).lookup r = if r = record then none else records.lookup r := by
  induction records with
  | nil => simp
  | cons entry rest ih =>
    obtain ⟨key, idx⟩ := entry
    by_cases here : key = record
    · subst here
      rw [filter_cons_of_neg (by simp), ih]
      by_cases same : r = key
      · simp [same]
      · simp [same, lookup_cons, beq_eq_false_iff_ne.mpr same]
    · rw [filter_cons_of_pos (by simpa using here)]
      rw [lookup_cons, lookup_cons, ih]
      by_cases same : r = key
      · simp [same, here]
      · simp [beq_eq_false_iff_ne.mpr same]

theorem lookup_insert (records : List (Nat × EntryIdx)) (record r : Nat) (idx : EntryIdx) :
    (insert records record idx).lookup r = if r = record then some idx else records.lookup r := by
  by_cases same : r = record
  · simp [insert, same]
  · rw [insert, lookup_cons, beq_eq_false_iff_ne.mpr same]
    simp only [lookup_filter_ne, if_neg same]

theorem lookup_keyed (keys : List Nat) (value : Nat → Option EntryIdx) (r : Nat) :
    (keys.filterMap fun key => (value key).map (key, ·)).lookup r = if r ∈ keys then value r else none := by
  induction keys with
  | nil => simp
  | cons key rest ih =>
    cases stored : value key with
    | none =>
      simp only [filterMap_cons, stored, Option.map_none, ih, mem_cons]
      by_cases same : r = key
      · simp [same, stored]
      · simp [same]
    | some idx =>
      simp only [filterMap_cons, stored, Option.map_some, lookup_cons, ih, mem_cons]
      by_cases same : r = key
      · simp [same, stored]
      · simp [same, beq_eq_false_iff_ne.mpr same]

theorem lookup_toSparse (slots : List (Option EntryIdx)) (r : Nat) : (toSparse slots).lookup r = (slots[r]?).join := by
  rw [toSparse, lookup_keyed]
  by_cases inside : r < slots.length
  · simp [inside]
  · simp [inside]

theorem getElem?_store (slots : List (Option EntryIdx)) (record r : Nat) (idx : EntryIdx) :
    ((store slots record idx)[r]?).join = if r = record then some idx else (slots[r]?).join := by
  unfold store
  by_cases same : record = r
  · subst same
    rw [getElem?_set_self (by simp; omega)]
    simp
  · rw [getElem?_set_ne same, if_neg (Ne.symm same)]
    by_cases inside : r < slots.length
    · rw [getElem?_append_left inside]
    · rw [getElem?_append_right (by omega), getElem?_eq_none (Nat.le_of_not_lt inside),
        getElem?_replicate]
      split <;> rfl

@[simp] theorem get_set (m : FrnMap) (record r : Nat) (idx : EntryIdx) :
    (m.set record idx).get r = if r = record then some idx else m.get r := by
  cases m with
  | dense slots =>
    simp only [set]
    split
    · simp only [get, lookup_insert, lookup_toSparse]
    · simp only [get, getElem?_store]
  | sparse records => simp only [set, get, lookup_insert]

@[simp] theorem get_remove (m : FrnMap) (record r : Nat) :
    (m.remove record).get r = if r = record then none else m.get r := by
  cases m with
  | dense slots =>
    simp only [remove, get]
    by_cases same : record = r
    · subst same
      by_cases inside : record < slots.length
      · simp [getElem?_set_self inside]
      · rw [getElem?_eq_none (by simpa using inside)]
        simp
    · rw [getElem?_set_ne same, if_neg (Ne.symm same)]
  | sparse records => simp only [remove, get, lookup_filter_ne]

theorem lookup_past_max {records : List (Nat × EntryIdx)} {top r : Nat}
    (most : (records.map (·.1)).max? = some top) (past : top < r) : records.lookup r = none := by
  refine lookup_eq_none_iff.mpr fun entry mem => ?_
  have le := (List.max?_eq_some_iff.mp most).2 entry.1 (mem_map_of_mem mem)
  simp only [bne_iff_ne, ne_eq]
  omega

@[simp] theorem get_densifyIfSmaller (capacity : Nat) (m : FrnMap) (r : Nat) :
    (m.densifyIfSmaller capacity).get r = m.get r := by
  cases m with
  | dense slots => rfl
  | sparse records =>
    cases most : (records.map (·.1)).max? with
    | none => simp only [densifyIfSmaller, most]
    | some top =>
      simp only [densifyIfSmaller, most]
      split
      · simp only [get, getElem?_map]
        by_cases inside : r < top + 1
        · simp [getElem?_range inside]
        · rw [getElem?_eq_none (by simpa using inside), lookup_past_max most (by omega)]
          rfl
      · rfl

end FrnMap

end Goz
