import Goz.Index.Rows
import Goz.Index.Steps

namespace Goz.VolumeIndex

open Function Intrusive List

variable {e head : EntryIdx} {ix' ix : VolumeIndex} {chains : Nat → List EntryIdx}

variable [Externals] {r : Nat} {touched : Frn → Prop} {gone : List EntryIdx}

/-- The record map reaches every entry but lost+found: each record number heads the chain of its
    one tenant's names. -/
structure Tenants (ix : VolumeIndex) (chains : Nat → List EntryIdx) : Prop where
  linked : ∀ r, Linked ix.entries.nextLink (ix.byFrn.get r) (chains r)
  mem : ∀ r e, e ∈ chains r ↔ ix.Live e ∧ e ≠ ix.lostFound ∧ (ix.entries.frn e).recordNumber = r
  one : ∀ r a b, a ∈ chains r → b ∈ chains r → ix.entries.frn a = ix.entries.frn b

structure Invariant (ix : VolumeIndex) : Prop where
  integrity : ix.Integrity
  tenants : ∃ chains, ix.Tenants chains

section Links

variable {frn : Frn}

omit [Externals] in
theorem Tenants.head_mem (tenants : ix.Tenants chains) (first : ix.byFrn.get r = some head) : head ∈ chains r := by
  have at_ := (tenants.linked r).head
  rw [first] at at_
  exact mem_of_mem_head? at_.symm

theorem Tenants.links_of_head (tenants : ix.Tenants chains) (ok : ix.Integrity) (found : ix.headOf frn = some head) :
    ix.links frn = chains frn.recordNumber := by
  have linked := tenants.linked frn.recordNumber
  rw [(headOf_some_iff.mp found).1] at linked
  simp only [links, found, linksFrom]
  refine linked.walk_eq (linked.length_le fun e mem => ?_)
  exact ok.slots.live_lt e ((tenants.mem _ e).mp mem).1

omit [Externals] in
theorem links_of_no_head (missing : ix.headOf frn = none) : ix.links frn = [] := by
  simp only [links, missing]

variable (tenants : ix.Tenants chains)
include tenants

variable (ok : ix.Integrity)
include ok

theorem Tenants.mem_links :
    e ∈ ix.links frn ↔ ix.Live e ∧ e ≠ ix.lostFound ∧ ix.entries.frn e = frn := by
  cases found : ix.headOf frn with
  | some head =>
    rw [tenants.links_of_head ok found, tenants.mem]
    obtain ⟨first, own⟩ := headOf_some_iff.mp found
    refine and_congr_right fun live => and_congr_right fun notLost => ⟨fun at_ => ?_, fun same => by rw [same]⟩
    rw [← own]
    exact tenants.one _ e head ((tenants.mem _ e).mpr ⟨live, notLost, at_⟩) (tenants.head_mem first)
  | none =>
    rw [links_of_no_head found]
    refine ⟨fun mem => absurd mem (by simp), fun ⟨live, notLost, same⟩ => ?_⟩
    have mem : e ∈ chains frn.recordNumber := (tenants.mem _ e).mpr ⟨live, notLost, by rw [same]⟩
    cases first : ix.byFrn.get frn.recordNumber with
    | none =>
      have empty := (tenants.linked frn.recordNumber).head
      rw [first] at empty
      rw [head?_eq_none_iff.mp empty.symm] at mem
      exact absurd mem (by simp)
    | some head =>
      have own := tenants.one _ head e (tenants.head_mem first) mem
      rw [headOf_some_iff.mpr ⟨first, own.trans same⟩] at found
      cases found

theorem Tenants.headOf_none_iff :
    ix.headOf frn = none ↔ ix.rows frn = [] := by
  rw [rows, map_eq_nil_iff]
  refine ⟨links_of_no_head, fun empty => ?_⟩
  cases found : ix.headOf frn with
  | none => rfl
  | some head =>
    obtain ⟨first, own⟩ := headOf_some_iff.mp found
    obtain ⟨live, notLost, -⟩ := (tenants.mem _ head).mp (tenants.head_mem first)
    have mem := (tenants.mem_links ok).mpr ⟨live, notLost, own⟩
    rw [empty] at mem
    exact absurd mem (by simp)

theorem Tenants.rows_ne_nil :
    ix.rows frn ≠ [] ↔ ∃ e, ix.Live e ∧ e ≠ ix.lostFound ∧ ix.entries.frn e = frn := by
  rw [rows, Ne, map_eq_nil_iff, eq_nil_iff_forall_not_mem]
  simp [tenants.mem_links ok]

theorem Tenants.sound : ix.rows.Sound where
  tenant f g hf hg same := by
    obtain ⟨a, liveA, lostA, rfl⟩ := (tenants.rows_ne_nil ok).mp hf
    obtain ⟨b, liveB, lostB, rfl⟩ := (tenants.rows_ne_nil ok).mp hg
    exact tenants.one _ a b ((tenants.mem _ a).mpr ⟨liveA, lostA, rfl⟩) ((tenants.mem _ b).mpr ⟨liveB, lostB, same.symm⟩)
  parents f row g mem at_ := by
    obtain ⟨e, inside, rfl⟩ := mem_map.mp mem
    obtain ⟨live, -, -⟩ := (tenants.mem_links ok).mp inside
    simp only [row, parentRef] at at_
    split at at_
    case h_1 => cases at_
    case h_2 p parent =>
      split at at_
      case isTrue => cases at_
      case isFalse notLost =>
        exact (tenants.rows_ne_nil ok).mpr ⟨p, ok.parent_live e p live parent, notLost, ParentRef.of.inj at_⟩

end Links

section Clear

variable {nodes : List EntryIdx} {ix₁ ix₂ ix₃ : VolumeIndex}

theorem Removed.refl (ok : ix.Integrity) : Removed ix [] ix where
  integrity := ok
  frame := ⟨rfl, rfl, rfl⟩
  byFrn := rfl
  suspects := rfl
  live := by simp
  same := fun _ _ => ⟨rfl, rfl, rfl, rfl, rfl, rfl, rfl⟩
  parents := by simp

omit [Externals] in
theorem SameEntry.trans (first : SameEntry ix₁ ix₂ e)
    (second : SameEntry ix₂ ix₃ e) : SameEntry ix₁ ix₃ e where
  frn := second.frn.trans first.frn
  flags := second.flags.trans first.flags
  size := second.size.trans first.size
  mtime := second.mtime.trans first.mtime
  nextLink := second.nextLink.trans first.nextLink
  rawName := second.rawName.trans first.rawName
  foldedName := second.foldedName.trans first.foldedName

omit [Externals] in
theorem SameFrame.trans (first : SameFrame ix₁ ix₂) (second : SameFrame ix₂ ix₃) :
    SameFrame ix₁ ix₃ :=
  ⟨second.root.trans first.root, second.lostFound.trans first.lostFound, second.generation.trans first.generation⟩

theorem Removed.trans {more : List EntryIdx} (first : Removed ix₁ gone ix₂)
    (second : Removed ix₂ more ix₃) : Removed ix₁ (gone ++ more) ix₃ where
  integrity := second.integrity
  frame := first.frame.trans second.frame
  byFrn := second.byFrn.trans first.byFrn
  suspects := second.suspects.trans first.suspects
  live e := by rw [second.live, first.live, mem_append, not_or, and_assoc]
  same e there := (first.same e ((second.live e).mp there).1).trans (second.same e there)
  parents e there := by
    rw [second.parents e there, first.parents e ((second.live e).mp there).1, first.frame.lostFound]
    by_cases orphan : ∃ p ∈ gone, ix₁.entries.parent e = some p
    · have either : ∃ p ∈ gone ++ more, ix₁.entries.parent e = some p := by
        obtain ⟨p, mem, at_⟩ := orphan
        exact ⟨p, mem_append_left _ mem, at_⟩
      simp only [if_pos orphan, if_pos either, ite_self]
    · have either : (∃ p ∈ gone ++ more, ix₁.entries.parent e = some p) ↔ ∃ p ∈ more, ix₁.entries.parent e = some p := by
        refine ⟨fun ⟨p, mem, at_⟩ => ?_, fun ⟨p, mem, at_⟩ => ⟨p, mem_append_right _ mem, at_⟩⟩
        rcases mem_append.mp mem with mem | mem
        · exact absurd ⟨p, mem, at_⟩ orphan
        · exact ⟨p, mem, at_⟩
      simp only [if_neg orphan, either]

theorem Integrity.removeFirst {e : EntryIdx} {rest : List EntryIdx} (ok : ix.Integrity) (apart : e ∉ rest)
    (live : ∀ other ∈ e :: rest, ix.Live other ∧ other ≠ ix.lostFound) : Removed ix [e] (ix.removeEntry e) ∧
      ∀ other ∈ rest, (ix.removeEntry e).Live other ∧ other ≠ (ix.removeEntry e).lostFound := by
  have first := ok.removeEntry (live e (by simp)).1 (live e (by simp)).2
  refine ⟨first, fun other mem => ?_⟩
  obtain ⟨alive, notLost⟩ := live other (by simp [mem])
  rw [first.live, first.frame.lostFound, mem_singleton]
  exact ⟨⟨alive, fun same => apart (same ▸ mem)⟩, notLost⟩

theorem Integrity.removeAll (ok : ix.Integrity) (distinct : nodes.Nodup)
    (live : ∀ e ∈ nodes, ix.Live e ∧ e ≠ ix.lostFound) : Removed ix nodes (nodes.foldl VolumeIndex.removeEntry ix) := by
  induction nodes generalizing ix with
  | nil => exact Removed.refl ok
  | cons e rest ih =>
    obtain ⟨apart, distinct⟩ := nodup_cons.mp distinct
    obtain ⟨first, still⟩ := ok.removeFirst apart live
    exact first.trans (show Removed _ rest _ from ih first.integrity distinct still)

theorem Integrity.removeAll_steps (ok : ix.Integrity)
    (distinct : nodes.Nodup) (live : ∀ e ∈ nodes, ix.Live e ∧ e ≠ ix.lostFound)
    (touch : ∀ e ∈ nodes, touched (ix.entries.frn e)) : Steps touched ix (nodes.foldl VolumeIndex.removeEntry ix) := by
  induction nodes generalizing ix with
  | nil => exact .refl
  | cons e rest ih =>
    obtain ⟨apart, distinct⟩ := nodup_cons.mp distinct
    obtain ⟨alive, notLost⟩ := live e (by simp)
    obtain ⟨first, still⟩ := ok.removeFirst apart live
    refine .head (.remove alive notLost (touch e (by simp))) (ih first.integrity distinct still ?_)
    intro other mem
    rw [(first.same other (still other mem).1).frn]
    exact touch other (by simp [mem])

theorem Integrity.tombstoneFrom_eq {head : Option EntryIdx} {fuel : Nat} (ok : ix.Integrity)
    (linked : Linked ix.entries.nextLink head nodes) (live : ∀ e ∈ nodes, ix.Live e ∧ e ≠ ix.lostFound)
    (enough : nodes.length ≤ fuel) : tombstoneFrom fuel head ix = nodes.foldl VolumeIndex.removeEntry ix := by
  induction nodes generalizing ix head fuel with
  | nil =>
    rw [show head = none from linked]
    cases fuel <;> rfl
  | cons e rest ih =>
    cases fuel with
    | zero => simp at enough
    | succ fuel =>
      have apart := (nodup_cons.mp linked.nodup).1
      obtain ⟨first, still⟩ := ok.removeFirst apart live
      rw [linked.1, tombstoneFrom, foldl_cons]
      refine ih first.integrity (linked.2.congr fun other mem => ?_) still (by simpa using enough)
      exact (first.same other (still other mem).1).nextLink

omit [Externals] in
theorem Tenants.replace {chain : List EntryIdx} (tenants : ix.Tenants chains)
    (lost : ix'.lostFound = ix.lostFound) (maps : ∀ k ≠ r, ix'.byFrn.get k = ix.byFrn.get k)
    (linked : Linked ix'.entries.nextLink (ix'.byFrn.get r) chain)
    (mem : ∀ e, e ∈ chain ↔ ix'.Live e ∧ e ≠ ix.lostFound ∧ (ix'.entries.frn e).recordNumber = r)
    (one : ∀ a ∈ chain, ∀ b ∈ chain, ix'.entries.frn a = ix'.entries.frn b)
    (others : ∀ e, ix'.Live e ∧ (ix'.entries.frn e).recordNumber ≠ r ↔ ix.Live e ∧ (ix.entries.frn e).recordNumber ≠ r)
    (same : ∀ e, ix.Live e → (ix.entries.frn e).recordNumber ≠ r →
      ix'.entries.frn e = ix.entries.frn e ∧ ix'.entries.nextLink e = ix.entries.nextLink e) : ix'.Tenants (update chains r chain) := by
  have kept : ∀ k, k ≠ r → ∀ e ∈ chains k, ix'.entries.frn e = ix.entries.frn e ∧ ix'.entries.nextLink e = ix.entries.nextLink e := by
    intro k here e member
    obtain ⟨live, -, at_⟩ := (tenants.mem k e).mp member
    exact same e live (at_ ▸ here)
  refine ⟨fun k => ?_, fun k e => ?_, fun k a b ha hb => ?_⟩ <;> by_cases here : k = r
  · rwa [here, update_self]
  · rw [update_of_ne here, maps k here]
    exact (tenants.linked k).congr fun e member => (kept k here e member).2
  · rw [here, update_self, lost]
    exact mem e
  · rw [update_of_ne here, tenants.mem, lost]
    constructor
    · rintro ⟨live, notLost, at_⟩
      have away : (ix.entries.frn e).recordNumber ≠ r := at_ ▸ here
      exact ⟨((others e).mpr ⟨live, away⟩).1, notLost, by rw [(same e live away).1, at_]⟩
    · rintro ⟨live', notLost, at_⟩
      obtain ⟨live, away⟩ := (others e).mp ⟨live', at_ ▸ here⟩
      exact ⟨live, notLost, by rw [← (same e live away).1, at_]⟩
  · rw [here, update_self] at ha hb
    exact one a ha b hb
  · rw [update_of_ne here] at ha hb
    rw [(kept k here a ha).1, (kept k here b hb).1]
    exact tenants.one k a b ha hb

theorem Tenants.tombstoneChain (tenants : ix.Tenants chains)
    (ok : ix.Integrity) (first : ix.byFrn.get r = some head) :
    Removed ix (chains r) (ix.tombstoneChain head) ∧
      Steps (· = ix.entries.frn head) ix (ix.tombstoneChain head) ∧
      Tenants { ix.tombstoneChain head with byFrn := (ix.tombstoneChain head).byFrn.remove r } (update chains r []) := by
  have linked := tenants.linked r
  have live : ∀ e ∈ chains r, ix.Live e ∧ e ≠ ix.lostFound := fun e mem =>
    ⟨((tenants.mem r e).mp mem).1, ((tenants.mem r e).mp mem).2.1⟩
  have eq : ix.tombstoneChain head = (chains r).foldl VolumeIndex.removeEntry ix := by
    rw [first] at linked
    exact ok.tombstoneFrom_eq linked live (linked.length_le fun e mem => ok.slots.live_lt e (live e mem).1)
  have removed := ok.removeAll linked.nodup live
  have steps : Steps (· = ix.entries.frn head) ix _ := ok.removeAll_steps linked.nodup live fun e mem =>
    tenants.one r e head mem (tenants.head_mem first)
  rw [← eq] at removed steps
  have still : ∀ e, ix.Live e → (ix.entries.frn e).recordNumber ≠ r → (ix.tombstoneChain head).Live e := fun e alive away =>
    (removed.live e).mpr ⟨alive, fun gone => away ((tenants.mem r e).mp gone).2.2⟩
  refine ⟨removed, steps, tenants.replace removed.frame.lostFound (fun k here => ?_) (by simp [Linked]) (fun e => ?_) nofun (fun e => ?_)
    fun e alive away => ?_⟩
  · simp only [FrnMap.get_remove, if_neg here, removed.byFrn]
  · simp only [not_mem_nil, false_iff]
    rintro ⟨there, notLost, at_⟩
    change ((ix.tombstoneChain head).entries.frn e).recordNumber = r at at_
    rw [(removed.same e there).frn] at at_
    exact ((removed.live e).mp there).2 ((tenants.mem r e).mpr ⟨((removed.live e).mp there).1, notLost, at_⟩)
  · constructor
    · rintro ⟨there, away⟩
      exact ⟨((removed.live e).mp there).1, (removed.same e there).frn ▸ away⟩
    · rintro ⟨alive, away⟩
      exact ⟨still e alive away, (removed.same e (still e alive away)).frn.symm ▸ away⟩
  · have same := removed.same e (still e alive away)
    exact ⟨same.frn, same.nextLink⟩

end Clear

/-- `ix'` comes from `ix` by writes that touch only what `touched` allows, and stores `after`. -/
structure Does (touched : Frn → Prop) (ix ix' : VolumeIndex) (after : Rows) : Prop where
  steps : Steps touched ix ix'
  tenants : ∃ chains, ix'.Tenants chains
  rows : ix'.rows = after

theorem Does.invariant {ix : VolumeIndex} {after : Rows} (does : Does touched ix ix' after)
    (inv : ix.Invariant) : ix'.Invariant := ⟨Steps.integrity does.steps inv.integrity, does.tenants⟩

variable {chains' : Nat → List EntryIdx}

theorem Tenants.links_eq (tenants : ix.Tenants chains) (ok : ix.Integrity) (frn : Frn) :
    ix.links frn = (chains frn.recordNumber).filter (fun e => ix.entries.frn e = frn) := by
  cases found : ix.headOf frn with
  | some head =>
    obtain ⟨first, own⟩ := headOf_some_iff.mp found
    rw [tenants.links_of_head ok found, filter_eq_self.mpr]
    intro e mem
    simpa [← own] using tenants.one _ e head mem (tenants.head_mem first)
  | none =>
    rw [links_of_no_head found, eq_comm, filter_eq_nil_iff]
    intro e mem own
    obtain ⟨live, notLost, -⟩ := (tenants.mem _ e).mp mem
    have inside : e ∈ ix.links frn := (tenants.mem_links ok).mpr ⟨live, notLost, by simpa using own⟩
    rw [links_of_no_head found] at inside
    exact absurd inside (by simp)

theorem Tenants.links_congr (tenants : ix.Tenants chains) (ok : ix.Integrity) (tenants' : ix'.Tenants chains')
    (ok' : ix'.Integrity) {frn : Frn} (same : chains' frn.recordNumber = chains frn.recordNumber)
    (frns : ∀ e ∈ chains frn.recordNumber, ix'.entries.frn e = ix.entries.frn e) : ix'.links frn = ix.links frn := by
  rw [tenants.links_eq ok, tenants'.links_eq ok', same]
  exact filter_congr fun e mem => by rw [frns e mem]

omit [Externals] in
theorem row_congr (same : SameEntry ix ix' e) (parent : ix'.parentRef e = ix.parentRef e) : ix'.row e = ix.row e := by
  simp only [row, parent, same.rawName, same.flags, same.size, same.mtime]

omit [Externals] in
theorem parentRef_congr (lost : ix'.lostFound = ix.lostFound)
    (parent : ix'.entries.parent e = ix.entries.parent e)
    (frns : ∀ p, ix.entries.parent e = some p → ix'.entries.frn p = ix.entries.frn p) :
    ix'.parentRef e = ix.parentRef e := by
  unfold parentRef
  rw [parent]
  cases at_ : ix.entries.parent e with
  | none => rfl
  | some p => simp only [lost, frns p at_]

theorem Removed.row_eq {away : Frn → Prop} [DecidablePred away] (removed : Removed ix gone ix') (ok : ix.Integrity)
    (fate : ∀ p, ix.Live p → p ≠ ix.lostFound → (p ∈ gone ↔ away (ix.entries.frn p))) (alive : ix'.Live e) :
    ix'.row e = Rows.orphan away (ix.row e) := by
  have kept := removed.same e alive
  have others : ix'.row e = { ix.row e with parent := ix'.parentRef e } := by
    simp only [row, kept.rawName, kept.flags, kept.size, kept.mtime]
  rw [others, Rows.orphan]
  simp only [row, parentRef, removed.parents e alive, removed.frame.lostFound]
  cases at_ : ix.entries.parent e with
  | none => simp
  | some p =>
    by_cases lostParent : p = ix.lostFound
    · simp [lostParent]
    · have parentLive := ok.parent_live e p ((removed.live e).mp alive).1 at_
      have fate := fate p parentLive lostParent
      by_cases inside : p ∈ gone
      · simp [inside, lostParent, fate.mp inside]
      · simp [inside, lostParent, mt fate.mpr inside, (removed.same p ((removed.live p).mpr ⟨parentLive, inside⟩)).frn]

theorem Tenants.clear (tenants : ix.Tenants chains) (ok : ix.Integrity)
    (first : ix.byFrn.get r = some head) (stats : IndexStats) :
    Does (· = ix.entries.frn head) ix
      { ix.tombstoneChain head with byFrn := (ix.tombstoneChain head).byFrn.remove r, stats := stats }
      (Rows.destroy (· = ix.entries.frn head) ix.rows) := by
  obtain ⟨removed, steps, tenants'⟩ := tenants.tombstoneChain ok first
  have headIn := tenants.head_mem first
  obtain ⟨-, -, record⟩ := (tenants.mem r head).mp headIn
  set cleared := ix.tombstoneChain head
  have heads : KeepsHeads (· = ix.entries.frn head) cleared (cleared.byFrn.remove r) := by
    intro g other _ live found
    have mapped := (headOf_some_iff.mp found).1
    by_cases here : g.recordNumber = r
    · rw [here, removed.byFrn, first] at mapped
      obtain rfl := Option.some.inj mapped
      exact absurd headIn ((removed.live _).mp live).2
    · rw [FrnMap.get_remove, if_neg here]
      exact mapped
  set final : VolumeIndex := { cleared with byFrn := cleared.byFrn.remove r, stats := stats }
  have relabelled : Steps (· = ix.entries.frn head) ix final :=
    .tail steps (.relabel (cleared.byFrn.remove r) cleared.entries.nextLink cleared.entries.size
      cleared.entries.mtime stats cleared.dirty cleared.generation heads)
  have ok' := Steps.integrity relabelled ok
  replace tenants' : final.Tenants (update chains r []) := { tenants' with }
  have empty : ∀ g, g.recordNumber = r → final.rows g = [] := by
    intro g at_
    rw [rows, tenants'.links_eq ok', at_]
    simp
  refine ⟨relabelled, ⟨_, tenants'⟩, funext fun g => ?_⟩
  rw [Rows.destroy]
  split_ifs with gone
  · exact empty g (gone ▸ record)
  by_cases there : g.recordNumber = r
  · have none_ : ix.rows g = [] := by
      by_contra present
      obtain ⟨e, live, notLost, rfl⟩ := (tenants.rows_ne_nil ok).mp present
      exact gone (tenants.one r e head ((tenants.mem r e).mpr ⟨live, notLost, there⟩) headIn)
    rw [none_, empty g there]
    rfl
  · have still : ∀ e, ix.Live e → (ix.entries.frn e).recordNumber ≠ r → cleared.Live e := fun e live ne =>
      (removed.live e).mpr ⟨live, fun inside => ne ((tenants.mem r e).mp inside).2.2⟩
    have same : final.links g = ix.links g := by
      refine tenants.links_congr ok tenants' ok' (update_of_ne there _ _) fun e mem => ?_
      obtain ⟨live, -, at_⟩ := (tenants.mem _ e).mp mem
      exact (removed.same e (still e live (at_ ▸ there))).frn
    simp only [rows, same, map_map]
    refine map_congr_left fun e mem => ?_
    obtain ⟨live, -, rfl⟩ := (tenants.mem_links ok).mp mem
    refine removed.row_eq ok (fun p parentLive notLost => ?_) (still e live there)
    exact ⟨fun inside => tenants.one r p head inside headIn, fun orphaned => (tenants.mem r p).mpr ⟨parentLive, notLost, by rw [orphaned, record]⟩⟩

end Goz.VolumeIndex
