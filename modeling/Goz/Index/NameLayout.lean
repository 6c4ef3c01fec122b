import Goz.Index.NameStore

namespace Goz.NameStore

open Function Arena

variable {raw folded : Bytes} {pairs : NameId → NamePair} {ids : Nat} {cells rawCells : List Bytes}
variable {rawAt : NameId → Nat}

variable {id : NameId}

/-- The arenas are separated cells: folded name `id` is cell `id`, and a raw name kept apart from
    its folded form has the cell `rawAt id` to itself. -/
structure LaidAs (raw folded : Bytes) (pairs : NameId → NamePair) (ids : Nat)
    (cells rawCells : List Bytes) (rawAt : NameId → Nat) : Prop where
  folded_eq : folded = join 0 cells
  raw_eq : raw = join 0 rawCells
  length_eq : cells.length = ids
  folded_ref : ∀ id cell, cells[id]? = some cell →
    (pairs id).folded = { off := start 0 cells id, len := cell.length }
  shared_ref : ∀ id, id < ids → (pairs id).raw.rawInFolded = true →
    (pairs id).raw = { (pairs id).folded with rawInFolded := true }
  raw_ref : ∀ id, id < ids → (pairs id).raw.rawInFolded = false →
    ∃ cell, rawCells[rawAt id]? = some cell ∧
      (pairs id).raw = { off := start 0 rawCells (rawAt id), len := cell.length }
  raw_apart : ∀ a b, a < ids → b < ids → (pairs a).raw.rawInFolded = false →
    (pairs b).raw.rawInFolded = false → rawAt a = rawAt b → a = b

def Laid (raw folded : Bytes) (pairs : NameId → NamePair) (ids : Nat) : Prop :=
  ∃ cells rawCells rawAt, LaidAs raw folded pairs ids cells rawCells rawAt

section Reads

variable (laid : LaidAs raw folded pairs ids cells rawCells rawAt)
include laid

theorem LaidAs.cell (below : id < ids) :
    ∃ cell, cells[id]? = some cell :=
  ⟨_, List.getElem?_eq_getElem (laid.length_eq ▸ below)⟩

theorem LaidAs.folded_read {cell : Bytes}
    (at_ : cells[id]? = some cell) : foldedIn pairs folded id = cell := by
  simp only [foldedIn, laid.folded_ref id cell at_, laid.folded_eq]
  exact slice_join 0 at_

theorem LaidAs.shared_read (below : id < ids)
    (shared : (pairs id).raw.rawInFolded = true) : rawBytesIn pairs raw folded id = foldedIn pairs folded id := by
  simp [rawBytesIn, foldedIn, laid.shared_ref id below shared]

theorem LaidAs.raw_read {cell : Bytes}
    (below : id < ids) (apart : (pairs id).raw.rawInFolded = false) (at_ : rawCells[rawAt id]? = some cell) :
    rawBytesIn pairs raw folded id = cell := by
  obtain ⟨cell', at', ref⟩ := laid.raw_ref id below apart
  have same : cell' = cell := by simpa [at_] using at'.symm
  subst same
  simp only [rawBytesIn, ref, laid.raw_eq]
  exact slice_join 0 at_

end Reads

theorem laid_nil (pairs : NameId → NamePair) : Laid [] [] pairs 0 :=
  ⟨[], [], fun _ => 0, by constructor <;> simp⟩

section Push

variable {pairs' : NameId → NamePair}

def pushCell (rawCells : List Bytes) (shared : Bool) (name : Bytes) : List Bytes :=
  if shared then rawCells else rawCells ++ [name]

theorem pushCell_keeps {i : Nat} {cell : Bytes} (at_ : rawCells[i]? = some cell) (shared : Bool) (name : Bytes) :
    (pushCell rawCells shared name)[i]? = some cell ∧
      start 0 (pushCell rawCells shared name) i = start 0 rawCells i := by
  obtain ⟨inside, -⟩ := List.getElem?_eq_some_iff.mp at_
  unfold pushCell
  split
  · exact ⟨at_, rfl⟩
  · exact ⟨by rwa [List.getElem?_append_left inside], start_append 0 (by omega)⟩

theorem LaidAs.push (laid : LaidAs raw folded pairs ids cells rawCells rawAt) (shared : Bool)
    (name foldedName : Bytes) (old : ∀ id, id < ids → pairs' id = pairs id)
    (new : pairs' ids = (pushPair raw folded shared name foldedName).2.2) :
    LaidAs (pushPair raw folded shared name foldedName).1 (pushPair raw folded shared name foldedName).2.1 pairs'
      (ids + 1) (cells ++ [foldedName]) (pushCell rawCells shared name) (update rawAt ids rawCells.length) := by
  have len := laid.length_eq
  have rawAt_old : ∀ id, id < ids → update rawAt ids rawCells.length id = rawAt id := fun id below =>
    update_of_ne (Nat.ne_of_lt below) _ _
  refine ⟨?_, ?_, ?_, ?_, ?_, ?_, ?_⟩
  · simp [pushPair, NameStore.push, laid.folded_eq]
  · cases shared <;> simp [pushCell, pushPair, NameStore.push, laid.raw_eq]
  · simp [len]
  · intro id cell at_
    rcases getElem?_concat_cases at_ with ⟨at_, below⟩ | ⟨here, rfl⟩
    · rw [old id (len ▸ below), laid.folded_ref id cell at_, start_append 0 (by omega)]
    · rw [here, len, new, ← len, start_append 0 le_rfl, start_length]
      simp [pushPair, NameStore.push, laid.folded_eq]
  · intro id below inFolded
    rcases Nat.lt_succ_iff_lt_or_eq.mp below with below | rfl
    · rw [old id below] at inFolded ⊢
      exact laid.shared_ref id below inFolded
    · rw [new] at inFolded ⊢
      cases shared <;> simp_all [pushPair, NameStore.push]
  · intro id below apart
    rcases Nat.lt_succ_iff_lt_or_eq.mp below with below | rfl
    · rw [old id below] at apart ⊢
      obtain ⟨cell, at_, ref⟩ := laid.raw_ref id below apart
      obtain ⟨at', start⟩ := pushCell_keeps at_ shared name
      rw [rawAt_old id below]
      exact ⟨cell, at', by rw [ref, start]⟩
    · rw [new] at apart ⊢
      cases shared with
      | true => simp [pushPair] at apart
      | false =>
        refine ⟨name, by simp [pushCell], ?_⟩
        simp [pushPair, NameStore.push, pushCell, laid.raw_eq, start_append, start_length]
  · -- a cell pushed now lies behind every cell an older name has
    have older : ∀ id, id < ids → (pairs' id).raw.rawInFolded = false → rawAt id < rawCells.length := by
      intro id below apart
      rw [old id below] at apart
      obtain ⟨cell, at_, -⟩ := laid.raw_ref id below apart
      exact (List.getElem?_eq_some_iff.mp at_).1
    intro a b ha hb apart_a apart_b same
    rcases Nat.lt_succ_iff_lt_or_eq.mp ha with ha | rfl <;> rcases Nat.lt_succ_iff_lt_or_eq.mp hb with hb | rfl
    · rw [rawAt_old a ha, rawAt_old b hb] at same
      rw [old _ ha] at apart_a
      rw [old _ hb] at apart_b
      exact laid.raw_apart a b ha hb apart_a apart_b same
    · have := older a ha apart_a
      rw [rawAt_old a ha, update_self] at same
      omega
    · have := older b hb apart_b
      rw [rawAt_old b hb, update_self] at same
      omega
    · rfl

theorem Laid.push (laid : Laid raw folded pairs ids)
    (shared : Bool) (name foldedName : Bytes) (pairs' : NameId → NamePair) (own : shared = true → name = foldedName)
    (old : ∀ id, id < ids → pairs' id = pairs id)
    (new : pairs' ids = (pushPair raw folded shared name foldedName).2.2) :
    let pushed := pushPair raw folded shared name foldedName
    Laid pushed.1 pushed.2.1 pairs' (ids + 1) ∧
      rawBytesIn pairs' pushed.1 pushed.2.1 ids = name ∧ foldedIn pairs' pushed.2.1 ids = foldedName ∧
      ∀ id, id < ids → rawBytesIn pairs' pushed.1 pushed.2.1 id = rawBytesIn pairs raw folded id ∧
        foldedIn pairs' pushed.2.1 id = foldedIn pairs folded id := by
  obtain ⟨cells, rawCells, rawAt, laid⟩ := laid
  intro pushed
  have laid' := laid.push shared name foldedName old new
  have folded_new : foldedIn pairs' pushed.2.1 ids = foldedName :=
    laid'.folded_read (by simp [← laid.length_eq])
  refine ⟨⟨_, _, _, laid'⟩, ?_, folded_new, ?_⟩
  · by_cases s : shared
    · have inFolded : (pairs' ids).raw.rawInFolded = true := by simp [new, pushPair, s]
      rw [laid'.shared_read (Nat.lt_succ_self ids) inFolded, folded_new, own s]
    · have apart : (pairs' ids).raw.rawInFolded = false := by simp [new, pushPair, NameStore.push, s]
      exact laid'.raw_read (Nat.lt_succ_self ids) apart (by simp [pushCell, s])
  · intro id below
    obtain ⟨cell, at_⟩ := laid.cell below
    have at' : (cells ++ [foldedName])[id]? = some cell := by
      rwa [List.getElem?_append_left (by have := laid.length_eq; omega)]
    have folded_same : foldedIn pairs' pushed.2.1 id = foldedIn pairs folded id := by
      rw [laid'.folded_read at', laid.folded_read at_]
    refine ⟨?_, folded_same⟩
    cases apart : (pairs id).raw.rawInFolded with
    | true =>
      rw [laid.shared_read below apart, laid'.shared_read (Nat.lt_succ_of_lt below) (by rw [old id below, apart]), folded_same]
    | false =>
      obtain ⟨cell, at_, -⟩ := laid.raw_ref id below apart
      have at' : (pushCell rawCells shared name)[update rawAt ids rawCells.length id]? = some cell := by
        rw [update_of_ne (Nat.ne_of_lt below)]
        exact (pushCell_keeps at_ shared name).1
      rw [laid.raw_read below apart at_,
        laid'.raw_read (Nat.lt_succ_of_lt below) (by rw [old id below, apart]) at']

end Push

theorem Laid.blank (laid : Laid raw folded pairs ids) (below : id < ids) :
    let pair := pairs id
    let folded' := blank 0 folded pair.folded.off pair.folded.len
    let raw' := if pair.raw.rawInFolded then raw else blank 0 raw pair.raw.off pair.raw.len
    Laid raw' folded' pairs ids ∧
      ∀ other, other < ids → other ≠ id → rawBytesIn pairs raw' folded' other = rawBytesIn pairs raw folded other ∧
        foldedIn pairs folded' other = foldedIn pairs folded other := by
  obtain ⟨cells, rawCells, rawAt, laid⟩ := laid
  intro pair folded' raw'
  obtain ⟨cell, at_⟩ := laid.cell below
  let cells' := cells.set id (List.replicate cell.length 0)
  have cells_start : ∀ j, start 0 cells' j = start 0 cells j := fun j =>
    start_set 0 cells id j _ fun old here => by simp_all
  have cells_length : ∀ (j : Nat) (new : Bytes), cells'[j]? = some new →
      ∃ old, cells[j]? = some old ∧ old.length = new.length := by
    intro j new here
    by_cases eq : id = j
    · subst eq
      refine ⟨cell, at_, ?_⟩
      simp only [cells', List.getElem?_set_self (List.getElem?_eq_some_iff.mp at_).1, Option.some.injEq] at here
      simp [← here]
    · exact ⟨new, by simpa [cells', List.getElem?_set_ne eq] using here, rfl⟩
  have folded_eq : folded' = join 0 cells' := by
    simp only [folded', pair, laid.folded_ref id cell at_, laid.folded_eq]
    exact blank_join 0 0 at_
  -- the raw cells: the dead name's own cell is blanked, and there is none when it was shared
  obtain ⟨rawCells', raw_eq, raw_start, raw_length, raw_other⟩ : ∃ rawCells' : List Bytes,
      raw' = join 0 rawCells' ∧ (∀ j, start 0 rawCells' j = start 0 rawCells j) ∧
      (∀ (j : Nat) (old : Bytes), rawCells[j]? = some old →
        ∃ new, rawCells'[j]? = some new ∧ new.length = old.length) ∧
      (∀ other, other < ids → other ≠ id → (pairs other).raw.rawInFolded = false →
        rawCells'[rawAt other]? = rawCells[rawAt other]?) := by
    cases apart : (pairs id).raw.rawInFolded with
    | true =>
      refine ⟨rawCells, ?_, fun _ => rfl, fun _ old here => ⟨old, here, rfl⟩, fun _ _ _ _ => rfl⟩
      simp [raw', pair, apart, laid.raw_eq]
    | false =>
      obtain ⟨rawCell, rawHere, ref⟩ := laid.raw_ref id below apart
      refine ⟨rawCells.set (rawAt id) (List.replicate rawCell.length 0), ?_, ?_, ?_, ?_⟩
      · simp only [raw', pair, ref, laid.raw_eq]
        exact blank_join 0 0 rawHere
      · exact fun j => start_set 0 rawCells _ j _ fun old here => by simp_all
      · intro j old here
        by_cases eq : rawAt id = j
        · subst eq
          have same : rawCell = old := by simpa [rawHere] using here
          exact ⟨_, List.getElem?_set_self (List.getElem?_eq_some_iff.mp here).1, by simp [same]⟩
        · exact ⟨old, by rw [List.getElem?_set_ne eq, here], rfl⟩
      · intro other lt ne away
        exact List.getElem?_set_ne (fun eq => ne (laid.raw_apart id other below lt apart away eq).symm)
  have laid' : LaidAs raw' folded' pairs ids cells' rawCells' rawAt := by
    refine ⟨folded_eq, raw_eq, by simp [cells', laid.length_eq], ?_, laid.shared_ref, ?_, laid.raw_apart⟩
    · intro j new here
      obtain ⟨old, here, len⟩ := cells_length j new here
      rw [laid.folded_ref j old here, cells_start, len]
    · intro j lt away
      obtain ⟨old, here, ref⟩ := laid.raw_ref j lt away
      obtain ⟨new, here', len⟩ := raw_length _ old here
      exact ⟨new, here', by rw [ref, raw_start, len]⟩
  refine ⟨⟨_, _, _, laid'⟩, fun other lt ne => ?_⟩
  obtain ⟨own, here⟩ := laid.cell lt
  have here' : cells'[other]? = some own := by rw [List.getElem?_set_ne (Ne.symm ne), here]
  have folded_same : foldedIn pairs folded' other = foldedIn pairs folded other := by
    rw [laid'.folded_read here', laid.folded_read here]
  refine ⟨?_, folded_same⟩
  cases away : (pairs other).raw.rawInFolded with
  | true => rw [laid'.shared_read lt away, laid.shared_read lt away, folded_same]
  | false =>
    obtain ⟨rawCell, rawHere, -⟩ := laid.raw_ref other lt away
    rw [laid.raw_read lt away rawHere, laid'.raw_read lt away ((raw_other other lt ne away).trans rawHere)]

end Goz.NameStore
