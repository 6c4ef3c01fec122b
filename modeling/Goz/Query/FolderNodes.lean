import Goz.Index.Integrity
import Goz.Query.FolderRank

namespace Goz

open List Option Function

variable {ix : VolumeIndex} {fr : FolderRanks} {slots : List EntryIdx} {e p : EntryIdx}

def VolumeIndex.IsFolder (ix : VolumeIndex) (e : EntryIdx) : Prop :=
  ix.Live e ∧ ((ix.entries.flags e).dir = true ∨ ∃ child, ix.Live child ∧ ix.entries.parent child = some e)

theorem VolumeIndex.isFolder_parent [Externals] {ix : VolumeIndex} (ok : ix.Integrity) (live : ix.Live e)
    (above : ix.entries.parent e = some p) : ix.IsFolder p := ⟨ok.parent_live e p live above, .inr ⟨e, live, above⟩⟩

namespace Query.FolderRanks

open VolumeIndex

section Nodes

variable {child : Nat} {dir : EntryIdx} {node m : Nat}

structure Nodes (ix : VolumeIndex) (slots : List EntryIdx) (fr : FolderRanks) : Prop where
  node : ∀ e m, fr.nodeOf e = some m ↔ slots[m]? = some e
  size : fr.parent.length = slots.length
  names : fr.name = slots.map ix.entries.nameId
  root : slots[0]? = some ix.root
  folders : ∀ e ∈ slots, e = ix.root ∨ ix.IsFolder e
  last : ∀ d n, fr.last = some (d, n) → fr.nodeOf d = some n

/-- The node of an entry has the node of its parent for a parent, and the root's has none. -/
def Attached (ix : VolumeIndex) (fr : FolderRanks) (e : EntryIdx) (m : Nat) : Prop :=
  if e = ix.root then fr.parent[m]? = some none
  else
    match ix.entries.parent e with
    | none => fr.parent[m]? = some none
    | some p => ∃ n, fr.nodeOf p = some n ∧ fr.parent[m]? = some (some n)

structure Complete (ix : VolumeIndex) (slots : List EntryIdx) (fr : FolderRanks) : Prop extends Nodes ix slots fr where
  attached : ∀ (e : EntryIdx) (m : Nat), slots[m]? = some e → Attached ix fr e m

variable (nodes : Nodes ix slots fr)
include nodes

theorem Nodes.nodup : slots.Nodup := by
  apply nodup_iff_getElem?_ne_getElem?.mpr
  intro i j lt bound same
  have there : slots[j]? = some slots[j] := getElem?_eq_getElem bound
  have first := (nodes.node _ i).mpr (same.trans there)
  rw [(nodes.node _ j).mpr there] at first
  exact absurd (some.inj first) lt.ne'

theorem Nodes.absent (unseen : fr.nodeOf e = none) : e ∉ slots := by
  intro mem
  obtain ⟨m, at_⟩ := getElem?_of_mem mem
  rw [(nodes.node e m).mpr at_] at unseen
  cases unseen

theorem Nodes.length_le (ok : ix.entries.Slots) : slots.length ≤ ix.entries.capacity + 1 := by
  have sub : slots ⊆ ix.root :: range ix.entries.capacity := by
    intro e mem
    rcases nodes.folders e mem with rfl | folder
    · simp
    · exact mem_cons_of_mem _ (mem_range.mpr (ok.live_lt e folder.1))
  simpa using (nodes.nodup.subperm sub).length_le

theorem Nodes.push (unseen : fr.nodeOf dir = none) (folder : ix.IsFolder dir) :
    Nodes ix (slots ++ [dir]) (fr.push ix dir).1 ∧ (fr.push ix dir).2 = slots.length := by
  have out := nodes.absent unseen
  refine ⟨⟨fun e m => ?_, ?_, ?_, ?_, fun e mem => ?_, fun d n at_ => ?_⟩, nodes.size⟩
  · simp only [FolderRanks.push, nodes.size]
    by_cases own : e = dir
    · subst own
      rw [update_self, Option.some.injEq]
      constructor
      · rintro rfl
        simp
      · intro at_
        by_contra other
        have bound := (List.getElem?_eq_some_iff.mp at_).1
        rw [length_append, length_singleton] at bound
        rw [getElem?_append_left (by omega)] at at_
        exact out (mem_of_getElem? at_)
    · rw [update_of_ne own, nodes.node]
      constructor
      · intro at_
        rw [List.getElem?_append_left (List.getElem?_eq_some_iff.mp at_).1]
        exact at_
      · intro at_
        by_cases bound : m < slots.length
        · rwa [getElem?_append_left bound] at at_
        · rw [getElem?_append_right (by omega), getElem?_singleton] at at_
          split at at_
          · exact absurd (some.inj at_).symm own
          · cases at_
  · simp [FolderRanks.push, nodes.size]
  · simp [FolderRanks.push, nodes.names]
  · rw [List.getElem?_append_left (List.getElem?_eq_some_iff.mp nodes.root).1]
    exact nodes.root
  · rcases mem_append.mp mem with mem | mem
    · exact nodes.folders e mem
    · rw [mem_singleton.mp mem]
      exact .inr folder
  · have before := nodes.last d n at_
    have other : d ≠ dir := by
      rintro rfl
      rw [unseen] at before
      cases before
    simpa [FolderRanks.push, update_of_ne other] using before

theorem Nodes.attach (child node : Nat) : Nodes ix slots (fr.attach child node) :=
  { nodes with size := by simp [FolderRanks.attach, nodes.size] }

omit nodes

theorem Attached.push (attached : Attached ix fr e m) (unseen : fr.nodeOf dir = none) :
    Attached ix (fr.push ix dir).1 e m := by
  have longer : ∀ {value : Option Nat}, fr.parent[m]? = some value → (fr.push ix dir).1.parent[m]? = some value := by
    intro value at_
    rw [FolderRanks.push, List.getElem?_append_left (List.getElem?_eq_some_iff.mp at_).1]
    exact at_
  unfold Attached at attached ⊢
  split
  case isTrue root =>
    rw [if_pos root] at attached
    exact longer attached
  case isFalse root =>
    rw [if_neg root] at attached
    cases above : ix.entries.parent e with
    | none =>
      rw [above] at attached
      exact longer attached
    | some p =>
      rw [above] at attached
      obtain ⟨n, known, at_⟩ := attached
      have other : p ≠ dir := by
        rintro rfl
        rw [unseen] at known
        cases known
      exact ⟨n, by simpa [FolderRanks.push, update_of_ne other] using known, longer at_⟩

theorem Attached.attach (attached : Attached ix fr e m) (other : m ≠ child) :
    Attached ix (fr.attach child node) e m := by
  have same : (fr.attach child node).parent[m]? = fr.parent[m]? := getElem?_set_ne other.symm
  unfold Attached at attached ⊢
  rw [same]
  exact attached

theorem attached_child (notRoot : e ≠ ix.root) (above : ix.entries.parent e = some p)
    (known : fr.nodeOf p = some node) (bound : child < fr.parent.length) : Attached ix (fr.attach child node) e child := by
  unfold Attached
  rw [if_neg notRoot, above]
  exact ⟨node, known, getElem?_set_self bound⟩

theorem Nodes.pushAbove [Externals] (ok : ix.Integrity) {fuel : Nat} {cur : EntryIdx} (nodes : Nodes ix slots fr)
    (at_ : slots[child]? = some cur) (notRoot : cur ≠ ix.root) (bare : fr.parent[child]? = some none)
    (others : ∀ (e : EntryIdx) (m : Nat), slots[m]? = some e → m ≠ child → Attached ix fr e m)
    (enough : ix.entries.capacity + 1 - slots.length < fuel) :
    ∃ more, Complete ix (slots ++ more) (pushAbove ix fuel fr child cur) := by
  induction fuel generalizing slots fr child cur with
  | zero => omega
  | succ fuel ih =>
    have live := ((nodes.folders cur (mem_of_getElem? at_)).resolve_left notRoot).1
    have bound : child < fr.parent.length := (List.getElem?_eq_some_iff.mp bare).1
    unfold pushAbove
    cases above : ix.entries.parent cur with
    | none =>
      have attached : ∀ (e : EntryIdx) (m : Nat), slots[m]? = some e → Attached ix fr e m := by
        intro e m here
        by_cases own : m = child
        · subst own
          rw [at_, Option.some.injEq] at here
          rw [← here, Attached, if_neg notRoot, above]
          exact bare
        · exact others e m here own
      exact ⟨[], (append_nil slots).symm ▸ ⟨nodes, attached⟩⟩
    | some up =>
      simp only
      cases known : fr.nodeOf up with
      | some node =>
        have attached : ∀ (e : EntryIdx) (m : Nat), slots[m]? = some e → Attached ix (fr.attach child node) e m := by
          intro e m here
          by_cases own : m = child
          · subst own
            rw [at_, Option.some.injEq] at here
            exact here ▸ attached_child notRoot above known bound
          · exact (others e m here own).attach own
        exact ⟨[], (append_nil slots).symm ▸ ⟨nodes.attach child node, attached⟩⟩
      | none =>
        obtain ⟨pushed, number⟩ := nodes.push known (isFolder_parent ok live above)
        have upRoot : up ≠ ix.root := by
          rintro rfl
          rw [(nodes.node _ 0).mpr nodes.root] at known
          cases known
        have unlike : slots.length ≠ child := by
          rw [nodes.size] at bound
          omega
        have longer := pushed.length_le ok.slots
        rw [length_append, length_singleton] at longer
        rw [number]
        have bare' : ((fr.push ix up).1.attach child slots.length).parent[slots.length]? = some none := by
          rw [FolderRanks.attach, getElem?_set_ne unlike.symm, FolderRanks.push, ← nodes.size]
          simp
        have others' : ∀ (e : EntryIdx) (m : Nat), (slots ++ [up])[m]? = some e → m ≠ slots.length →
            Attached ix ((fr.push ix up).1.attach child slots.length) e m := by
          intro e m here away
          have inside : m < slots.length := by
            have bound := (List.getElem?_eq_some_iff.mp here).1
            rw [length_append, length_singleton] at bound
            omega
          rw [getElem?_append_left inside] at here
          by_cases own : m = child
          · subst own
            rw [at_, Option.some.injEq] at here
            rw [← here]
            apply attached_child notRoot above
            · exact (pushed.node up slots.length).mpr (by simp)
            · rw [FolderRanks.push, length_append]
              omega
          · exact ((others e m here own).push known).attach own
        have enough' : ix.entries.capacity + 1 - (slots ++ [up]).length < fuel := by
          rw [length_append, length_singleton]
          omega
        obtain ⟨more, complete⟩ := ih (pushed.attach child slots.length) (by simp) upRoot bare' others' enough'
        exact ⟨up :: more, by simpa using complete⟩

end Nodes

variable {d : EntryIdx}

theorem complete_new (ix : VolumeIndex) : Complete ix [ix.root] (new ix) := by
  have only : ∀ m, ([ix.root] : List EntryIdx)[m]? = some ix.root ↔ m = 0 := by
    intro m
    rw [getElem?_singleton]
    split <;> simp_all
  refine ⟨⟨fun e m => ?_, rfl, rfl, rfl, by simp, nofun⟩, fun e m at_ => ?_⟩
  · by_cases own : e = ix.root
    · subst own
      rw [only]
      simp [new, push, eq_comm]
    · have other : [ix.root][m]? ≠ some e := by
        rw [getElem?_singleton]
        split
        · simpa using Ne.symm own
        · simp
      simp [new, push, update_of_ne own, other]
  · obtain rfl : e = ix.root := mem_singleton.mp (mem_of_getElem? at_)
    rw [(only m).mp at_, Attached, if_pos rfl]
    rfl

theorem Complete.withLast (complete : Complete ix slots fr) {n : Nat} (known : fr.nodeOf d = some n) :
    Complete ix slots { fr with last := some (d, n) } := by
  refine { complete with last := ?_ }
  intro d' n' same
  obtain ⟨rfl, rfl⟩ := Prod.mk.inj (some.inj same)
  exact known

variable [Externals]

theorem Complete.pushChain (complete : Complete ix slots fr) (ok : ix.Integrity) (folder : ix.IsFolder d)
    (unseen : fr.nodeOf d = none) :
    ∃ more, Complete ix (slots ++ more) (fr.pushChain ix d).1 ∧ (fr.pushChain ix d).1.nodeOf d = some (fr.pushChain ix d).2 := by
  obtain ⟨pushed, number⟩ := complete.toNodes.push unseen folder
  have notRoot : d ≠ ix.root := by
    rintro rfl
    rw [(complete.node _ 0).mpr complete.root] at unseen
    cases unseen
  have rooted : 0 < slots.length := (List.getElem?_eq_some_iff.mp complete.root).1
  unfold FolderRanks.pushChain
  simp only [number]
  have bare : (fr.push ix d).1.parent[slots.length]? = some none := by
    rw [push, ← complete.size]
    simp
  have others : ∀ (e : EntryIdx) (m : Nat), (slots ++ [d])[m]? = some e → m ≠ slots.length → Attached ix (fr.push ix d).1 e m := by
    intro e m at_ away
    have inside : m < slots.length := by
      have bound := (List.getElem?_eq_some_iff.mp at_).1
      rw [length_append, length_singleton] at bound
      omega
    rw [getElem?_append_left inside] at at_
    exact (complete.attached e m at_).push unseen
  have enough : ix.entries.capacity + 1 - (slots ++ [d]).length < ix.entries.capacity + 1 := by
    rw [length_append, length_singleton]
    omega
  obtain ⟨more, made⟩ := pushed.pushAbove ok (by simp) notRoot bare others enough
  refine ⟨d :: more, by simpa using made, (made.node d slots.length).mpr ?_⟩
  simp

theorem Complete.asked (complete : Complete ix slots fr) (ok : ix.Integrity) (folder : d = ix.root ∨ ix.IsFolder d) :
    ∃ more, Complete ix (slots ++ more) (fr.node ix d).1 ∧ (fr.node ix d).1.nodeOf d = some (fr.node ix d).2 := by
  have looked : ∃ more, Complete ix (slots ++ more) (node.lookup ix fr d).1 ∧
      (node.lookup ix fr d).1.nodeOf d = some (node.lookup ix fr d).2 := by
    unfold node.lookup
    split
    case h_1 n known => exact ⟨[], (append_nil slots).symm ▸ complete.withLast known, known⟩
    case h_2 unseen =>
      have proper : ix.IsFolder d := by
        rcases folder with rfl | folder
        · rw [(complete.node _ 0).mpr complete.root] at unseen
          cases unseen
        · exact folder
      obtain ⟨more, made, known⟩ := complete.pushChain ok proper unseen
      exact ⟨more, made.withLast known, known⟩
  unfold node
  split
  case h_1 seen n last =>
    split
    case isTrue same =>
      refine ⟨[], (append_nil slots).symm ▸ complete, ?_⟩
      exact complete.last d n (same ▸ last)
    case isFalse => exact looked
  case h_2 => exact looked

def gather (ix : VolumeIndex) (dirs : List EntryIdx) : FolderRanks × List Nat :=
  dirs.foldl (fun found dir =>
    let asked := found.1.node ix dir
    (asked.1, found.2 ++ [asked.2])) (new ix, [])

omit [Externals] in
theorem gather_concat (ix : VolumeIndex) (dirs : List EntryIdx) (d : EntryIdx) :
    gather ix (dirs ++ [d]) = (((gather ix dirs).1.node ix d).1, (gather ix dirs).2 ++ [((gather ix dirs).1.node ix d).2]) := by
  simp [gather]

theorem complete_gather (ok : ix.Integrity) {dirs : List EntryIdx} (folders : ∀ d ∈ dirs, d = ix.root ∨ ix.IsFolder d) :
    ∃ slots, Complete ix slots (gather ix dirs).1 ∧ (gather ix dirs).2.map some = dirs.map (gather ix dirs).1.nodeOf := by
  induction dirs using reverseRecOn with
  | nil => exact ⟨[ix.root], complete_new ix, rfl⟩
  | append_singleton dirs d ih =>
    obtain ⟨slots, complete, nodes⟩ := ih fun e mem => folders e (by simp [mem])
    obtain ⟨more, complete', known⟩ := complete.asked ok (folders d (by simp))
    have stays : ∀ e ∈ dirs, ((gather ix dirs).1.node ix d).1.nodeOf e = (gather ix dirs).1.nodeOf e := by
      intro e mem
      have there : (gather ix dirs).1.nodeOf e ∈ (gather ix dirs).2.map some := by
        rw [nodes]
        exact mem_map_of_mem mem
      obtain ⟨m, -, at_⟩ := mem_map.mp there
      have place := (complete.node e m).mp at_.symm
      rw [← at_, complete'.node, List.getElem?_append_left (List.getElem?_eq_some_iff.mp place).1]
      exact place
    rw [gather_concat]
    refine ⟨slots ++ more, complete', ?_⟩
    rw [map_append, map_append, nodes, map_singleton, map_singleton, known,
      map_congr_left stays]

end Query.FolderRanks

end Goz
