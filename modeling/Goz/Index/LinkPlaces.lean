import Goz.Index.Collateral

namespace Goz.VolumeIndex

open Function Intrusive List Option Rows Externals

variable {name : Bytes} {ix ix' : VolumeIndex} {frn : Frn} {slot : EntryIdx} {n m : LayoutName}

variable [Externals] {names : List LayoutName} {e : EntryIdx}

section Heads

variable {touched : Frn → Prop} {g : Frn} {head : EntryIdx}

theorem Prim.keeps_head (spared : ¬ touched g) (step : Prim touched ix ix') (ok : ix.Integrity)
    (found : ix.Live head ∧ ix.headOf g = some head) : ix'.Live head ∧ ix'.headOf g = some head := by
  have own := (headOf_some_iff.mp found.2).2
  have effect := step.effect ok
  obtain ⟨live, carried⟩ := effect.kept head found.1 (.inr (own ▸ spared))
  exact ⟨live, headOf_some_iff.mpr ⟨effect.heads g head spared found.1 found.2, carried.frn.trans own⟩⟩

theorem Invariant.head_live (inv : ix.Invariant) (found : ix.headOf g = some head) : ix.Live head ∧ head ≠ ix.lostFound := by
  obtain ⟨-, -, live, notLost⟩ := inv.rows_of_mapped (headOf_some_iff.mp found).1
  exact ⟨live, notLost⟩

theorem Invariant.keeps_head (inv : ix.Invariant) (steps : Steps touched ix ix') (spared : ¬ touched g)
    (found : ix.headOf g = some head) : ix'.headOf g = some head :=
  (Steps.preserves (fun step => step.keeps_head spared) steps inv.integrity ⟨(inv.head_live found).1, found⟩).2

theorem Invariant.mem_links (inv : ix.Invariant) :
    e ∈ ix.links g ↔ ix.Live e ∧ e ≠ ix.lostFound ∧ ix.entries.frn e = g := by
  obtain ⟨chains, tenants⟩ := inv.tenants
  exact tenants.mem_links inv.integrity

theorem Invariant.links_same (inv : ix.Invariant) (inv' : ix'.Invariant) (head : ix'.headOf g = ix.headOf g)
    (same : ∀ e ∈ ix.links g, ix'.Live e ∧ ix'.entries.nextLink e = ix.entries.nextLink e) : ix'.links g = ix.links g := by
  obtain ⟨chains, tenants⟩ := inv.tenants
  cases found : ix.headOf g with
  | none => rw [links_of_no_head found, links_of_no_head (head.trans found)]
  | some first =>
    have linked := tenants.linked g.recordNumber
    have listed := tenants.links_of_head inv.integrity found
    rw [(headOf_some_iff.mp found).1, ← listed] at linked
    have linked' := linked.congr fun e mem => (same e mem).2
    rw [links, head.trans found]
    apply linked'.walk_eq
    apply linked'.length_le
    intro e mem
    exact inv'.integrity.slots.live_lt e (same e mem).1

end Heads

section Homes

variable {parentFrn : Frn}

def homeOf (ix : VolumeIndex) (frn parentFrn : Frn) : Option EntryIdx :=
  if frn.Stale parentFrn then some ix.lostFound else ix.headOf parentFrn

theorem resolve_of_home (home : ix.homeOf frn parentFrn = some slot) : ix.resolveLinkParent frn parentFrn = (ix, slot) := by
  unfold homeOf at home
  unfold resolveLinkParent
  split at home
  case isTrue stale => rw [if_pos stale, some.inj home]
  case isFalse fresh => simp [fresh, resolveOrPlaceholderParent, home]

theorem Invariant.home_of_resolve (inv : ix.Invariant) (frn parentFrn : Frn) :
    (ix.resolveLinkParent frn parentFrn).1.homeOf frn parentFrn = some (ix.resolveLinkParent frn parentFrn).2 := by
  unfold VolumeIndex.resolveLinkParent homeOf
  by_cases stale : frn.Stale parentFrn
  · simp [stale]
  · simp only [stale, if_false]
    unfold VolumeIndex.resolveOrPlaceholderParent
    split
    case h_1 idx found => exact found
    case h_2 =>
      have ok := ((inv.reclaimStale parentFrn).invariant inv).integrity
      have added := ok.newEntry parentFrn placeholderName { dir := true, placeholder := true } sizeUnknown mtimeUnknown
        ok.lost_live rfl
      apply headOf_some_iff.mpr
      refine ⟨by simp [FrnMap.get_set], ?_⟩
      have own := added.entry.frn
      simpa [dirIndexInsert] using own

omit [Externals] in
theorem chainHasLink_iff : ix.chainHasLink frn slot name = true ↔
    ∃ e ∈ ix.links frn, ix.entries.parent e = some slot ∧ ix.rawName e = name := by
  simp [chainHasLink]

def Settled (ix : VolumeIndex) (frn : Frn) (n : LayoutName) : Prop :=
  ∃ slot, ix.homeOf frn n.parentFrn = some slot ∧ ∃ e ∈ ix.links frn, ix.entries.parent e = some slot ∧ ix.rawName e = n.name

def Held (ix : VolumeIndex) (frn : Frn) (n : LayoutName) : Prop :=
  ∃ e ∈ ix.links frn, ix.rawName e = n.name ∧
    ∃ slot, ix.entries.parent e = some slot ∧ (slot = ix.lostFound ∨ ix.entries.frn slot = n.parentFrn)

theorem addMissingLink_of_settled (settled : ix.Settled frn n) : addMissingLink frn ix n = ix := by
  obtain ⟨slot, home, link⟩ := settled
  simp [addMissingLink, resolve_of_home home, chainHasLink_iff.mpr link]

omit [Externals] in
theorem Settled.held (settled : ix.Settled frn n) : ix.Held frn n := by
  obtain ⟨slot, home, e, mem, parent, name⟩ := settled
  refine ⟨e, mem, name, slot, parent, ?_⟩
  unfold homeOf at home
  split at home
  · exact .inl (some.inj home).symm
  · exact .inr (headOf_some_iff.mp home).2

theorem Invariant.resolve_kept (inv : ix.Invariant) (frn parentFrn : Frn) (live : ix.Live e)
    (out : e = ix.lostFound ∨ ¬ Rows.ParentTouches frn parentFrn (ix.entries.frn e)) :
    (ix.resolveLinkParent frn parentFrn).1.Live e ∧ SameEntry ix (ix.resolveLinkParent frn parentFrn).1 e ∧
      Follows ix (fun p => p ≠ ix.lostFound ∧ Rows.ParentTouches frn parentFrn (ix.entries.frn p))
        (ix.resolveLinkParent frn parentFrn).1 e := by
  -- any subject but the entry's own file will do
  obtain ⟨other, apart⟩ : ∃ other : Frn, ix.entries.frn e ≠ other := by
    by_cases zero : ix.entries.frn e = ⟨0⟩
    · exact ⟨⟨1⟩, by rw [zero]; decide⟩
    · exact ⟨⟨0⟩, zero⟩
  have spares := inv.spares_resolveLinkParent other frn parentFrn
  have taken : ∀ p, Taken ix other (Rows.ParentTouches frn parentFrn) (fun _ => False) p ↔
      p ≠ ix.lostFound ∧ Rows.ParentTouches frn parentFrn (ix.entries.frn p) := fun p => by simp [Taken]
  have spared : ¬ Taken ix other (Rows.ParentTouches frn parentFrn) (fun _ => False) e := by
    rw [taken]
    rintro ⟨notLost, touch⟩
    exact out.elim notLost fun away => away touch
  obtain ⟨same, follows⟩ := spares.kept e live apart spared
  refine ⟨(spares.alive e live spared).1, same, follows.top, fun p at_ stays => ?_, fun p at_ moved => ?_⟩
  · exact follows.stays p at_ fun moved => stays ((taken p).mp moved)
  · exact follows.orphaned p at_ ((taken p).mpr moved)

theorem Invariant.head_of_present (inv : ix.Invariant) (present : ix.Present frn) : ∃ head, ix.headOf frn = some head := by
  obtain ⟨head, mapped⟩ := inv.mapped_of_rows (inv.present_iff.mp present)
  exact ⟨head, headOf_some_iff.mpr mapped⟩

theorem Invariant.resolve_links (inv : ix.Invariant) (frn parentFrn : Frn) (present : ix.Present frn) :
    (ix.resolveLinkParent frn parentFrn).1.links frn = ix.links frn := by
  have resolved := inv.resolveLinkParent frn parentFrn
  have inv' := resolved.does.invariant inv
  obtain ⟨head, found⟩ := inv.head_of_present present
  apply inv.links_same inv'
  · rw [found]
    exact inv.keeps_head resolved.does.steps not_parentTouches_self found
  · intro e mem
    obtain ⟨live, -, mine⟩ := inv.mem_links.mp mem
    obtain ⟨live', same, -⟩ := inv.resolve_kept frn parentFrn live (.inr (mine ▸ not_parentTouches_self))
    exact ⟨live', same.nextLink⟩

end Homes

theorem Invariant.settled_resolve (inv : ix.Invariant) (present : ix.Present frn) (settled : ix.Settled frn n) {parentFrn : Frn}
    (agree : ¬ frn.Stale n.parentFrn → ¬ Rows.ParentTouches frn parentFrn n.parentFrn) :
    (ix.resolveLinkParent frn parentFrn).1.Settled frn n := by
  have resolved := inv.resolveLinkParent frn parentFrn
  have lost := (inv.spares_resolveLinkParent frn frn parentFrn).lost
  obtain ⟨slot, home, e, mem, parent, name⟩ := settled
  obtain ⟨live, -, mine⟩ := inv.mem_links.mp mem
  obtain ⟨-, same, follows⟩ := inv.resolve_kept frn parentFrn live (.inr (mine ▸ not_parentTouches_self))
  have stays : ¬ (slot ≠ ix.lostFound ∧ Rows.ParentTouches frn parentFrn (ix.entries.frn slot)) := by
    rintro ⟨notLost, touch⟩
    unfold homeOf at home
    split at home
    · exact notLost (some.inj home).symm
    case isFalse fresh =>
      rw [(headOf_some_iff.mp home).2] at touch
      exact agree fresh touch
  refine ⟨slot, ?_, e, ?_, follows.stays slot parent stays, same.rawName.trans name⟩
  · unfold homeOf at home ⊢
    split at home
    case isTrue stale =>
      rw [if_pos stale, lost]
      exact home
    case isFalse fresh =>
      rw [if_neg fresh]
      exact inv.keeps_head resolved.does.steps (agree fresh) home
  · rw [inv.resolve_links frn parentFrn present]
    exact mem

theorem Invariant.held_resolve (inv : ix.Invariant) (present : ix.Present frn) (held : ix.Held frn n) (parentFrn : Frn) :
    (ix.resolveLinkParent frn parentFrn).1.Held frn n := by
  have lost := (inv.spares_resolveLinkParent frn frn parentFrn).lost
  obtain ⟨e, mem, name, slot, parent, place⟩ := held
  obtain ⟨live, -, mine⟩ := inv.mem_links.mp mem
  obtain ⟨-, same, follows⟩ := inv.resolve_kept frn parentFrn live (.inr (mine ▸ not_parentTouches_self))
  refine ⟨e, by rwa [inv.resolve_links frn parentFrn present], same.rawName.trans name, ?_⟩
  by_cases moved : slot ≠ ix.lostFound ∧ Rows.ParentTouches frn parentFrn (ix.entries.frn slot)
  · exact ⟨_, follows.orphaned slot parent moved, .inl lost.symm⟩
  · refine ⟨slot, follows.stays slot parent moved, ?_⟩
    by_cases atLost : slot = ix.lostFound
    · exact .inl (atLost.trans lost.symm)
    · have slotLive := inv.integrity.parent_live e slot live parent
      obtain ⟨-, slotSame, -⟩ := inv.resolve_kept frn parentFrn slotLive (.inr fun touch => moved ⟨atLost, touch⟩)
      exact .inr (slotSame.frn.trans (place.resolve_left atLost))

structure Extended (ix : VolumeIndex) (frn : Frn) (slot : EntryIdx) (name : Bytes) (ix' : VolumeIndex) : Prop where
  lost : ix'.lostFound = ix.lostFound
  heads : ∀ g, ix'.headOf g = ix.headOf g
  same : ∀ e, ix.Live e → ix'.Live e ∧ ix'.entries.frn e = ix.entries.frn e ∧ ix'.rawName e = ix.rawName e ∧
    ix'.entries.parent e = ix.entries.parent e
  links : ∃ new, ix'.links frn = ix.links frn ++ [new] ∧ ix'.entries.parent new = some slot ∧ ix'.rawName new = name

theorem Invariant.extended_addLink (inv : ix.Invariant) (present : ix.Present frn) (slotLive : ix.Live slot) (name : Bytes)
    (nameLossy : Bool) : Extended ix frn slot name (ix.addLink frn slot name nameLossy) := by
  obtain ⟨chains, tenants⟩ := inv.tenants
  obtain ⟨runs, present'⟩ := inv.addLink present slotLive name nameLossy
  have tenants' := tenants.addLink inv.integrity present slotLive name nameLossy
  have ok' := (runs.invariant inv).integrity
  obtain ⟨added, -⟩ := inv.integrity.newEntry_name frn slotLive name nameLossy
  obtain ⟨-, tail, -, eq⟩ := inv.addLink_eq present slotLive name nameLossy
  obtain ⟨head, found⟩ := inv.head_of_present present
  have byFrn : (ix.addLink frn slot name nameLossy).byFrn = ix.byFrn := by
    rw [eq]
    exact added.byFrn
  have frns : ∀ e, ix.Live e → (ix.addLink frn slot name nameLossy).entries.frn e = ix.entries.frn e := by
    intro e live
    rw [eq]
    exact (added.same e live).frn
  have heads : ∀ g, (ix.addLink frn slot name nameLossy).headOf g = ix.headOf g := by
    intro g
    apply Option.ext
    intro other
    rw [headOf_some_iff, headOf_some_iff, byFrn]
    refine and_congr_right fun mapped => ?_
    obtain ⟨-, -, live, -⟩ := inv.rows_of_mapped mapped
    rw [frns other live]
  refine ⟨?_, heads, fun e live => ?_,
    (ix.newEntry frn slot name { nonUnicodeName := nameLossy } sizeUnknown mtimeUnknown).2, ?_, ?_, ?_⟩
  · rw [eq]
    exact added.frame.lostFound
  · refine ⟨?_, frns e live, ?_, ?_⟩
    · rw [eq]
      exact (added.live e).mpr (.inl live)
    · rw [eq]
      exact (added.same e live).rawName
    · rw [eq]
      exact added.parents e live
  · rw [tenants'.links_of_head ok' ((heads frn).trans found), update_self, tenants.links_of_head inv.integrity found]
  · rw [eq]
    exact added.entry.parent
  · rw [eq]
    exact added.entry.rawName

omit [Externals] in
theorem Extended.settles (extended : Extended ix frn slot n.name ix') (home : ix.homeOf frn n.parentFrn = some slot) :
    ix'.Settled frn n := by
  obtain ⟨new, links, parent, name⟩ := extended.links
  refine ⟨slot, ?_, new, by simp [links], parent, name⟩
  rw [← home, homeOf, homeOf, extended.lost, extended.heads]

theorem Extended.settled (extended : Extended ix frn slot name ix') (inv : ix.Invariant) (settled : ix.Settled frn n) :
    ix'.Settled frn n := by
  obtain ⟨new, links, -, -⟩ := extended.links
  obtain ⟨slot, home, e, mem, parent, name⟩ := settled
  obtain ⟨-, -, raw, up⟩ := extended.same e (inv.mem_links.mp mem).1
  refine ⟨slot, ?_, e, by simp [links, mem], up.trans parent, raw.trans name⟩
  rw [← home, homeOf, homeOf, extended.lost, extended.heads]

theorem Extended.held (extended : Extended ix frn slot name ix') (inv : ix.Invariant) (held : ix.Held frn n) : ix'.Held frn n := by
  obtain ⟨new, links, -, -⟩ := extended.links
  obtain ⟨e, mem, name, slot, parent, place⟩ := held
  have live := (inv.mem_links.mp mem).1
  obtain ⟨-, -, raw, up⟩ := extended.same e live
  obtain ⟨-, own, -, -⟩ := extended.same slot (inv.integrity.parent_live e slot live parent)
  refine ⟨e, by simp [links, mem], raw.trans name, slot, up.trans parent, ?_⟩
  rw [extended.lost, own]
  exact place

theorem Invariant.addMissingLink_places (inv : ix.Invariant) (present : ix.Present frn) (n : LayoutName) :
    (VolumeIndex.addMissingLink frn ix n).Settled frn n ∧
    (∀ m, ix.Held frn m → (VolumeIndex.addMissingLink frn ix n).Held frn m) ∧
    ∀ m, (¬ frn.Stale m.parentFrn → ¬ Rows.ParentTouches frn n.parentFrn m.parentFrn) → ix.Settled frn m →
      (VolumeIndex.addMissingLink frn ix n).Settled frn m := by
  have resolved := inv.resolveLinkParent frn n.parentFrn
  have inv' := resolved.does.invariant inv
  have home := inv.home_of_resolve frn n.parentFrn
  have extended := inv'.extended_addLink (inv.resolve_present n.parentFrn present) resolved.live n.name n.nameLossy
  unfold VolumeIndex.addMissingLink
  simp only
  split
  case isTrue there =>
    refine ⟨⟨_, home, chainHasLink_iff.mp there⟩, fun m held => ?_, fun m agree settled => ?_⟩
    · exact inv.held_resolve present held n.parentFrn
    · exact inv.settled_resolve present settled agree
  case isFalse =>
    refine ⟨extended.settles home, fun m held => ?_, fun m agree settled => ?_⟩
    · exact extended.held inv' (inv.held_resolve present held n.parentFrn)
    · exact extended.settled inv' (inv.settled_resolve present settled agree)

/-- No two names of the record give one record number with different sequences, but for names that go under lost+found. -/
def ParentsAgree (frn : Frn) (names : List LayoutName) : Prop :=
  ∀ n ∈ names, ∀ m ∈ names, ¬ frn.Stale n.parentFrn → ¬ frn.Stale m.parentFrn → ¬ n.parentFrn.Stale m.parentFrn

instance (frn : Frn) (names : List LayoutName) : Decidable (ParentsAgree frn names) :=
  inferInstanceAs (Decidable (∀ n ∈ names, ∀ m ∈ names, _))

theorem Invariant.addMissingLinks_places (inv : ix.Invariant) (present : ix.Present frn) (names : List LayoutName) :
    (∀ n ∈ names, (names.foldl (VolumeIndex.addMissingLink frn) ix).Held frn n) ∧
    (ParentsAgree frn names → ∀ n ∈ names, (names.foldl (VolumeIndex.addMissingLink frn) ix).Settled frn n) := by
  suffices run : ∀ done rest, done ++ rest = names → ∀ ix : VolumeIndex, ix.Invariant → ix.Present frn →
      ((∀ n ∈ done, ix.Held frn n) → ∀ n ∈ names, (rest.foldl (VolumeIndex.addMissingLink frn) ix).Held frn n) ∧
      (ParentsAgree frn names → (∀ n ∈ done, ix.Settled frn n) →
        ∀ n ∈ names, (rest.foldl (VolumeIndex.addMissingLink frn) ix).Settled frn n) by
    obtain ⟨held, settled⟩ := run [] names rfl ix inv present
    exact ⟨held (by simp), fun agree => settled agree (by simp)⟩
  intro done rest
  induction rest generalizing done with
  | nil =>
    intro all ix _ _
    rw [append_nil] at all
    subst all
    exact ⟨id, fun _ => id⟩
  | cons n rest ih =>
    intro all ix inv present
    obtain ⟨runs, present'⟩ := inv.addMissingLink present n
    obtain ⟨here, held, settled⟩ := inv.addMissingLink_places present n
    obtain ⟨heldAll, settledAll⟩ := ih (done ++ [n]) (by simp [← all]) _ (runs.invariant inv) present'
    constructor
    · intro before
      apply heldAll
      intro m mem
      rcases mem_append.mp mem with mem | mem
      · exact held m (before m mem)
      · rw [mem_singleton.mp mem]
        exact here.held
    · intro agree before
      apply settledAll agree
      intro m mem
      rcases mem_append.mp mem with mem | mem
      · have inNames : m ∈ names := by simp [← all, mem]
        have nIn : n ∈ names := by simp [← all]
        exact settled m (fun fresh touch => agree n nIn m inNames touch.1 fresh touch.2) (before m mem)
      · rw [mem_singleton.mp mem]
        exact here

section Growth

variable {a : Frn} (inv : ix.Invariant)
include inv

variable (present : ix.Present frn)
include present

theorem Invariant.length_addMissingLink (n : LayoutName) :
    (ix.links frn).length ≤ ((VolumeIndex.addMissingLink frn ix n).links frn).length := by
  have resolved := inv.resolveLinkParent frn n.parentFrn
  have extended := (resolved.does.invariant inv).extended_addLink (inv.resolve_present n.parentFrn present) resolved.live
    n.name n.nameLossy
  have same := inv.resolve_links frn n.parentFrn present
  unfold VolumeIndex.addMissingLink
  simp only
  split
  · rw [same]
  · obtain ⟨new, links, -⟩ := extended.links
    rw [links, same]
    simp

theorem Invariant.length_addMissingLinks (names : List LayoutName) :
    (ix.links frn).length ≤ ((names.foldl (VolumeIndex.addMissingLink frn) ix).links frn).length := by
  induction names generalizing ix with
  | nil => exact le_rfl
  | cons n rest ih =>
    obtain ⟨runs, present'⟩ := inv.addMissingLink present n
    exact (inv.length_addMissingLink present n).trans (ih (runs.invariant inv) present')

theorem Invariant.addMissingLink_grows (fresh : ¬ frn.Stale n.parentFrn)
    (absent : ¬ ix.Present n.parentFrn) :
    (ix.links frn).length < ((VolumeIndex.addMissingLink frn ix n).links frn).length := by
  have resolved := inv.resolveLinkParent frn n.parentFrn
  have inv' := resolved.does.invariant inv
  have extended := inv'.extended_addLink (inv.resolve_present n.parentFrn present) resolved.live n.name n.nameLossy
  have home := inv.home_of_resolve frn n.parentFrn
  rw [homeOf, if_neg fresh] at home
  have missing : ¬ (ix.resolveLinkParent frn n.parentFrn).1.chainHasLink frn (ix.resolveLinkParent frn n.parentFrn).2
      n.name = true := by
    rw [chainHasLink_iff]
    rintro ⟨e, mem, under, -⟩
    rw [inv.resolve_links frn n.parentFrn present] at mem
    obtain ⟨live, -, mine⟩ := inv.mem_links.mp mem
    obtain ⟨-, -, follows⟩ := inv.resolve_kept frn n.parentFrn live (.inr (mine ▸ not_parentTouches_self))
    have lost := (inv.spares_resolveLinkParent frn frn n.parentFrn).lost
    have notLost := (inv'.head_live home).2
    cases up : ix.entries.parent e with
    | none =>
      rw [follows.top up] at under
      cases under
    | some p =>
      by_cases moved : p ≠ ix.lostFound ∧ Rows.ParentTouches frn n.parentFrn (ix.entries.frn p)
      · rw [follows.orphaned p up moved] at under
        exact notLost (lost ▸ (some.inj under).symm)
      · rw [follows.stays p up moved] at under
        obtain rfl := some.inj under
        have pLive := inv.integrity.parent_live e _ live up
        have pLost := lost ▸ notLost
        obtain ⟨-, same, -⟩ := inv.resolve_kept frn n.parentFrn pLive (.inr fun touch => moved ⟨pLost, touch⟩)
        exact absent ⟨_, pLive, pLost, same.frn.symm.trans (headOf_some_iff.mp home).2⟩
  obtain ⟨new, links, -⟩ := extended.links
  unfold VolumeIndex.addMissingLink
  simp only [missing, Bool.false_eq_true, if_false]
  rw [links, inv.resolve_links frn n.parentFrn present]
  simp

theorem Invariant.pass_spares (there : ix.Present a)
    (even : ((names.foldl (VolumeIndex.addMissingLink frn) ix).links frn).length = (ix.links frn).length) :
    ∀ n ∈ names, ¬ frn.Stale n.parentFrn → ¬ a.Stale n.parentFrn := by
  induction names generalizing ix with
  | nil => simp
  | cons n rest ih =>
    obtain ⟨runs, present'⟩ := inv.addMissingLink present n
    have inv' := runs.invariant inv
    have first := inv.length_addMissingLink present n
    have more := inv'.length_addMissingLinks present' rest
    rw [foldl_cons] at even
    have here : ¬ frn.Stale n.parentFrn → ¬ a.Stale n.parentFrn := by
      intro fresh stale
      have absent : ¬ ix.Present n.parentFrn := by
        rintro ⟨e, live, notLost, own⟩
        exact inv.not_stale there live notLost (own ▸ stale)
      have grows := inv.addMissingLink_grows present fresh absent
      omega
    have there' : (VolumeIndex.addMissingLink frn ix n).Present a := by
      obtain ⟨head, found⟩ := inv.head_of_present there
      have kept := inv.keeps_head runs.steps (fun touch => here touch.1 touch.2.symm) found
      obtain ⟨live, notLost⟩ := inv'.head_live kept
      exact ⟨head, live, notLost, (headOf_some_iff.mp kept).2⟩
    intro m mem
    rcases mem_cons.mp mem with rfl | mem
    · exact here
    · exact ih inv' present' there' (by omega) m mem

theorem Invariant.pass_agrees (even : ((names.foldl (VolumeIndex.addMissingLink frn) ix).links frn).length = (ix.links frn).length) :
    ParentsAgree frn names := by
  induction names generalizing ix with
  | nil => simp [ParentsAgree]
  | cons n rest ih =>
    obtain ⟨runs, present'⟩ := inv.addMissingLink present n
    have inv' := runs.invariant inv
    have first := inv.length_addMissingLink present n
    have more := inv'.length_addMissingLinks present' rest
    rw [foldl_cons] at even
    have later : ∀ m ∈ rest, ¬ frn.Stale n.parentFrn → ¬ frn.Stale m.parentFrn → ¬ n.parentFrn.Stale m.parentFrn := by
      intro m mem fresh
      have there : (VolumeIndex.addMissingLink frn ix n).Present n.parentFrn := by
        obtain ⟨slot, home, -⟩ := (inv.addMissingLink_places present n).1
        rw [homeOf, if_neg fresh] at home
        obtain ⟨live, notLost⟩ := inv'.head_live home
        exact ⟨slot, live, notLost, (headOf_some_iff.mp home).2⟩
      exact inv'.pass_spares present' there (by omega) m mem
    have among := ih inv' present' (by omega)
    intro x xIn y yIn xFresh yFresh
    rcases mem_cons.mp xIn with rfl | xRest
    · rcases mem_cons.mp yIn with rfl | yRest
      · exact fun stale => stale.1 rfl
      · exact later y yRest xFresh yFresh
    · rcases mem_cons.mp yIn with rfl | yRest
      · exact fun stale => later x xRest yFresh xFresh stale.symm
      · exact among x xRest y yRest xFresh yFresh

end Growth

section Repeat

variable {ix'' : VolumeIndex} {file : LayoutFile}

def linkNames (ix : VolumeIndex) (frn : Frn) : List (ParentRef × Bytes) :=
  (ix.links frn).map fun e => (ix.parentRef e, ix.rawName e)

/-- The chain of `frn` and the places of all entries are the same. -/
structure SamePlaces (ix : VolumeIndex) (frn : Frn) (ix' : VolumeIndex) : Prop where
  lost : ix'.lostFound = ix.lostFound
  heads : ∀ g, ix'.headOf g = ix.headOf g
  links : ix'.links frn = ix.links frn
  same : ∀ e, ix.Live e → ix'.Live e ∧ ix'.entries.frn e = ix.entries.frn e ∧ ix'.rawName e = ix.rawName e ∧
    ix'.entries.parent e = ix.entries.parent e

omit [Externals] in
theorem SamePlaces.trans (first : SamePlaces ix frn ix') (second : SamePlaces ix' frn ix'') : SamePlaces ix frn ix'' where
  lost := second.lost.trans first.lost
  heads g := (second.heads g).trans (first.heads g)
  links := second.links.trans first.links
  same e live := by
    obtain ⟨live', own, raw, up⟩ := first.same e live
    obtain ⟨live'', own', raw', up'⟩ := second.same e live'
    exact ⟨live'', own'.trans own, raw'.trans raw, up'.trans up⟩

omit [Externals] in
theorem SamePlaces.refl (ix : VolumeIndex) (frn : Frn) : SamePlaces ix frn ix :=
  ⟨rfl, fun _ => rfl, rfl, fun _ live => ⟨live, rfl, rfl, rfl⟩⟩

omit [Externals] in
theorem samePlaces_setLinkStat (ix : VolumeIndex) (frn : Frn) (size : Option UInt64) (mtime : Option Int64) :
    SamePlaces ix frn (ix.setLinkStat frn size mtime) :=
  ⟨rfl, fun _ => rfl, rfl, fun _ live => ⟨live, rfl, rfl, rfl⟩⟩

theorem SamePlaces.linkNames (same : SamePlaces ix frn ix') (inv : ix.Invariant) : ix'.linkNames frn = ix.linkNames frn := by
  unfold VolumeIndex.linkNames
  rw [same.links]
  apply map_congr_left
  intro e mem
  have live := (inv.mem_links.mp mem).1
  obtain ⟨-, -, raw, up⟩ := same.same e live
  have ref : ix'.parentRef e = ix.parentRef e := parentRef_congr same.lost up fun p at_ =>
    (same.same p (inv.integrity.parent_live e p live at_)).2.1
  rw [raw, ref]

theorem SamePlaces.settled (same : SamePlaces ix frn ix') (inv : ix.Invariant) (settled : ix.Settled frn n) :
    ix'.Settled frn n := by
  obtain ⟨slot, home, e, mem, parent, name⟩ := settled
  obtain ⟨-, -, raw, up⟩ := same.same e (inv.mem_links.mp mem).1
  refine ⟨slot, ?_, e, by rwa [same.links], up.trans parent, raw.trans name⟩
  rw [← home, homeOf, homeOf, same.lost, same.heads]

/-- The parent of the name is known, and the file's only link, if it has only one, is the name. -/
def Placed (ix : VolumeIndex) (frn : Frn) (n : LayoutName) : Prop :=
  ∃ slot, ix.homeOf frn n.parentFrn = some slot ∧
    ∀ e, ix.links frn = [e] → ix.entries.parent e = some slot ∧ ix.rawName e = n.name

omit [Externals] in
theorem Settled.placed (settled : ix.Settled frn n) : ix.Placed frn n := by
  obtain ⟨slot, home, e, mem, parent, name⟩ := settled
  refine ⟨slot, home, fun only single => ?_⟩
  rw [single, mem_singleton] at mem
  rw [← mem]
  exact ⟨parent, name⟩

theorem SamePlaces.placed (same : SamePlaces ix frn ix') (inv : ix.Invariant) (placed : ix.Placed frn n) : ix'.Placed frn n := by
  obtain ⟨slot, home, only⟩ := placed
  refine ⟨slot, ?_, fun e single => ?_⟩
  · rw [← home, homeOf, homeOf, same.lost, same.heads]
  · rw [same.links] at single
    have mem : e ∈ ix.links frn := by simp [single]
    obtain ⟨-, -, raw, up⟩ := same.same e (inv.mem_links.mp mem).1
    obtain ⟨parent, name⟩ := only e single
    exact ⟨up.trans parent, raw.trans name⟩

variable (inv : ix.Invariant)
include inv

theorem Rewritten.chain {head parent : EntryIdx} {nameLossy isDir : Bool} (inv' : ix'.Invariant) (rewritten : Rewritten ix head parent name nameLossy isDir ix') :
    (∀ g, ix'.headOf g = ix.headOf g) ∧ ix'.links frn = ix.links frn := by
  have heads : ∀ g, ix'.headOf g = ix.headOf g := by
    intro g
    apply Option.ext
    intro other
    rw [headOf_some_iff, headOf_some_iff, rewritten.byFrn]
    refine and_congr_right fun mapped => ?_
    obtain ⟨-, -, alive, -⟩ := inv.rows_of_mapped mapped
    rw [(rewritten.frn_next alive).1]
  refine ⟨heads, inv.links_same inv' (heads frn) fun e mem => ?_⟩
  have alive := (inv.mem_links.mp mem).1
  exact ⟨(rewritten.live e).mpr alive, (rewritten.frn_next alive).2⟩

theorem Invariant.upsertLink_present (present : ix.Present frn) (parentFrn : Frn) (name : Bytes)
    (nameLossy isDir : Bool) :
    ∃ head, ix.headOf frn = some head ∧ (ix.upsertLink frn parentFrn name nameLossy isDir).1 =
      let resolved := ix.resolveLinkParent frn parentFrn
      if resolved.1.entries.nextLink head = none then resolved.1.rewriteEntry head resolved.2 name nameLossy isDir
      else resolved.1 := by
  obtain ⟨head, found⟩ := inv.head_of_present present
  have reclaimed : ix.reclaimStale frn = ix := by simp [VolumeIndex.reclaimStale, headOf_some_iff.mp found]
  have resolved := inv.resolveLinkParent frn parentFrn
  have kept := inv.keeps_head resolved.does.steps not_parentTouches_self found
  refine ⟨head, found, ?_⟩
  unfold VolumeIndex.upsertLink
  simp only [reclaimed, (headOf_some_iff.mp kept).1]
  split <;> rfl

theorem Invariant.upsert_links (present : ix.Present frn) (parentFrn : Frn) (name : Bytes)
    (nameLossy isDir : Bool) : (ix.upsertLink frn parentFrn name nameLossy isDir).1.links frn = ix.links frn := by
  have resolved := inv.resolveLinkParent frn parentFrn
  have inv' := resolved.does.invariant inv
  have inv'' := (inv.upsertLink frn parentFrn name nameLossy isDir).invariant inv
  obtain ⟨head, found, eq⟩ := inv.upsertLink_present present parentFrn name nameLossy isDir
  rw [eq] at inv'' ⊢
  simp only at inv'' ⊢
  rw [← inv.resolve_links frn parentFrn present]
  split
  case isTrue last =>
    rw [if_pos last] at inv''
    have kept := inv.keeps_head resolved.does.steps not_parentTouches_self found
    obtain ⟨live, notLost⟩ := inv'.head_live kept
    exact (Rewritten.chain inv' inv'' (inv'.integrity.rewriteEntry live notLost resolved.live name nameLossy isDir)).2
  case isFalse => rfl

theorem Invariant.samePlaces_upsert (present : ix.Present frn) (placed : ix.Placed frn n)
    (nameLossy isDir : Bool) : SamePlaces ix frn (ix.upsertLink frn n.parentFrn n.name nameLossy isDir).1 := by
  have inv' := (inv.upsertLink frn n.parentFrn n.name nameLossy isDir).invariant inv
  have resolvedLive := (inv.resolveLinkParent frn n.parentFrn).live
  obtain ⟨slot, home, only⟩ := placed
  obtain ⟨head, found, eq⟩ := inv.upsertLink_present present n.parentFrn n.name nameLossy isDir
  rw [resolve_of_home home] at resolvedLive
  rw [eq, resolve_of_home home] at inv' ⊢
  simp only at inv' ⊢
  split
  case isTrue last =>
    rw [if_pos last] at inv'
    obtain ⟨live, notLost⟩ := inv.head_live found
    have single : ix.links frn = [head] := inv.single_link_iff.mpr ⟨found, last⟩
    obtain ⟨parent, name⟩ := only head single
    have rewritten := inv.integrity.rewriteEntry live notLost resolvedLive n.name nameLossy isDir
    obtain ⟨heads, links⟩ := Rewritten.chain inv inv' rewritten
    refine ⟨rewritten.frame.lostFound, heads, links, fun e alive => ⟨(rewritten.live e).mpr alive, ?_⟩⟩
    by_cases same : e = head
    · rw [same, rewritten.entry.frn, rewritten.entry.rawName, rewritten.entry.parent, parent, name]
      exact ⟨rfl, rfl, rfl⟩
    · have kept := rewritten.same e alive same
      exact ⟨kept.frn, kept.rawName, rewritten.parents e alive same⟩
  case isFalse => exact SamePlaces.refl ix frn

theorem Invariant.placed_upsert (apart : n.parentFrn ≠ frn) (nameLossy isDir : Bool) :
    (ix.upsertLink frn n.parentFrn n.name nameLossy isDir).1.Placed frn n := by
  have inv₁ := (inv.reclaimStale frn).invariant inv
  have resolved := inv₁.resolveLinkParent frn n.parentFrn
  have inv₂ := resolved.does.invariant inv₁
  have inv₃ := (inv.upsertLink frn n.parentFrn n.name nameLossy isDir).invariant inv
  have home := inv₁.home_of_resolve frn n.parentFrn
  have slotLive := resolved.live
  have clean : ∀ g, frn.Stale g → ((ix.reclaimStale frn).resolveLinkParent frn n.parentFrn).1.rows g = [] := fun g stale => by
    rw [resolved.does.rows, (inv.reclaimStale frn).rows]
    exact rows_resolve_stale ix.rows stale
  unfold VolumeIndex.upsertLink at inv₃ ⊢
  simp only at inv₃ ⊢
  set mid := (ix.reclaimStale frn).resolveLinkParent frn n.parentFrn
  split
  case h_1 head first =>
    obtain ⟨present, record, live, notLost⟩ := inv₂.rows_of_mapped first
    have own : mid.1.entries.frn head = frn := by
      by_contra other
      exact present (clean _ ⟨other, record⟩)
    have found : mid.1.headOf frn = some head := headOf_some_iff.mpr ⟨first, own⟩
    simp only [first] at inv₃
    split
    case isTrue last =>
      rw [if_pos last] at inv₃
      have rewritten := inv₂.integrity.rewriteEntry live notLost slotLive n.name nameLossy isDir
      obtain ⟨heads, links⟩ : _ ∧ (mid.1.rewriteEntry head mid.2 n.name nameLossy isDir).links frn = _ :=
        Rewritten.chain inv₂ inv₃ rewritten
      refine ⟨mid.2, ?_, fun e single => ?_⟩
      · rw [← home, homeOf, homeOf, heads, rewritten.frame.lostFound]
      · rw [links, inv₂.single_link_iff.mpr ⟨found, last⟩] at single
        rw [← singleton_inj.mp single]
        exact ⟨rewritten.entry.parent, rewritten.entry.rawName⟩
    case isFalse several =>
      refine ⟨mid.2, home, fun e single => ?_⟩
      obtain ⟨same, last⟩ := inv₂.single_link_iff.mp single
      rw [found, Option.some.injEq] at same
      exact absurd (same ▸ last) several
  case h_2 free =>
    simp only [free] at inv₃
    have added := inv₂.integrity.newEntry frn n.name { dir := isDir, nonUnicodeName := nameLossy } sizeUnknown mtimeUnknown
      slotLive rfl
    set new := mid.1.newEntry frn mid.2 n.name { dir := isDir, nonUnicodeName := nameLossy } sizeUnknown mtimeUnknown
    have insert : ∀ byFrn : FrnMap, ({ new.1 with byFrn := byFrn }.dirIndexInsert new.2 : VolumeIndex).entries =
        (new.1.dirIndexInsert new.2).entries := fun byFrn => by simp [dirIndexInsert]
    refine ⟨mid.2, ?_, fun e single => ?_⟩
    · unfold homeOf at home ⊢
      split
      case isTrue stale =>
        rw [if_pos stale] at home
        rw [← home]
        simp only [dirIndexInsert]
        exact congrArg some added.frame.lostFound
      case isFalse fresh =>
        rw [if_neg fresh] at home
        obtain ⟨mapped, own⟩ := headOf_some_iff.mp home
        apply headOf_some_iff.mpr
        constructor
        · have away : n.parentFrn.recordNumber ≠ frn.recordNumber := fun same => fresh ⟨apart, same⟩
          simp only [dirIndexInsert, FrnMap.get_set, if_neg away]
          have kept := added.byFrn
          simp only [dirIndexInsert] at kept
          rw [kept, mapped]
        · simp only [insert]
          exact (added.same mid.2 slotLive).frn.trans own
    · have mem : new.2 ∈ [e] := by
        rw [← single]
        apply inv₃.mem_links.mpr
        simp only [VolumeIndex.Live, insert]
        refine ⟨(added.live _).mpr (.inr rfl), ?_, added.entry.frn⟩
        intro lost
        simp only [dirIndexInsert] at lost
        have frame := added.frame.lostFound
        simp only [dirIndexInsert] at frame
        rw [frame] at lost
        exact added.fresh (lost ▸ inv₂.integrity.lost_live)
      rw [← mem_singleton.mp mem]
      have parent := added.entry.parent
      have name := added.entry.rawName
      constructor
      · simp only [insert]
        exact parent
      · simp only [rawName, insert] at name ⊢
        simpa [dirIndexInsert] using name

theorem Invariant.enrich_known (some_ : ix.Present file.frn ∨ longNames file ≠ []) :
    ∃ known : VolumeIndex, known.Invariant ∧ known.Present file.frn ∧ (ix.Present file.frn → known = ix) ∧
      ix.enrich file = (if file.isDir then known else (longNames file).foldl (VolumeIndex.addMissingLink file.frn)
        known).setLinkStat file.frn (if file.isDir then none else file.size) file.mtimeFt := by
  have known_iff : (ix.headOf file.frn).isNone = false ↔ ix.Present file.frn := by
    rw [inv.present_iff, Ne, ← inv.headOf_none_iff]
    cases ix.headOf file.frn <;> simp
  by_cases present : ix.Present file.frn
  · refine ⟨ix, inv, present, fun _ => rfl, ?_⟩
    simp [VolumeIndex.enrich, known_iff.mpr present, longNames]
  · have missing : (ix.headOf file.frn).isNone = true := by
      rw [← Bool.not_eq_false, known_iff]
      exact present
    have named := some_.resolve_left present
    obtain ⟨resolved, length⟩ := inv.resolveTargets file.frn (longNames file)
    have targets : (VolumeIndex.resolveTargets file.frn (longNames file) ix).2 ≠ [] := fun empty => by
      rw [empty] at length
      exact named (eq_nil_of_length_eq_zero length.symm)
    have inv' := resolved.invariant inv
    obtain ⟨set, present'⟩ := inv'.setChainLinks file.frn file.isDir targets
    refine ⟨_, set.invariant inv', present', fun there => absurd there present, ?_⟩
    have full : (List.filter (fun n => !n.dosOnly) file.names).isEmpty = false := by
      simpa [longNames, isEmpty_eq_false_iff] using named
    simp only [VolumeIndex.enrich, missing, full, Bool.and_false, Bool.false_eq_true, if_false, if_true, longNames]

theorem enrich_nothing (absent : ¬ ix.Present file.frn) (empty : longNames file = []) :
    ix.enrich file = ix := by
  have missing : ix.headOf file.frn = none := by
    rw [inv.headOf_none_iff]
    by_contra present
    exact absent (inv.present_iff.mpr present)
  have none_ : List.filter (fun n => !n.dosOnly) file.names = [] := empty
  simp [enrich, missing, none_]

theorem Invariant.insertLayout_known (file : LayoutFile) :
    (ix.insertLayout file = ix ∧ longNames file = []) ∨
    ∃ known : VolumeIndex, known.Invariant ∧ known.Present file.frn ∧
      (∀ n, layoutName file = some n → known.Placed file.frn n) ∧
      (ix.Present file.frn → known.links file.frn = ix.links file.frn) ∧
      ix.insertLayout file = (if file.isDir then known else (longNames file).foldl (VolumeIndex.addMissingLink file.frn)
        known).setLinkStat file.frn (if file.isDir then none else file.size) file.mtimeFt := by
  unfold VolumeIndex.insertLayout
  cases named : layoutName file with
  | none =>
    by_cases some_ : ix.Present file.frn ∨ longNames file ≠ []
    · obtain ⟨known, inv', present, same, eq⟩ := inv.enrich_known some_
      exact .inr ⟨known, inv', present, nofun, fun there => by rw [same there], eq⟩
    · rw [not_or, not_not] at some_
      exact .inl ⟨enrich_nothing inv some_.1 some_.2, some_.2⟩
  | some n =>
    have inv' := (inv.upsertLink file.frn n.parentFrn n.name n.nameLossy file.isDir).invariant inv
    have present := inv.upsert_present file.frn n.parentFrn n.name n.nameLossy file.isDir
    obtain ⟨known, -, -, same, eq⟩ := inv'.enrich_known (.inl present)
    rw [same present] at eq
    have apart : n.parentFrn ≠ file.frn := by simpa using (filter_eq_some_iff.mp named).2
    refine .inr ⟨_, inv', present, fun m chosen => ?_, fun there => ?_, eq⟩
    · rw [← some.inj chosen]
      exact inv.placed_upsert apart n.nameLossy file.isDir
    · exact inv.upsert_links there n.parentFrn n.name n.nameLossy file.isDir

omit inv

theorem SamePlaces.held (same : SamePlaces ix frn ix') (inv : ix.Invariant) (held : ix.Held frn n) : ix'.Held frn n := by
  obtain ⟨e, mem, name, slot, parent, place⟩ := held
  have live := (inv.mem_links.mp mem).1
  obtain ⟨-, -, raw, up⟩ := same.same e live
  obtain ⟨-, own, -, -⟩ := same.same slot (inv.integrity.parent_live e slot live parent)
  refine ⟨e, by rwa [same.links], raw.trans name, slot, up.trans parent, ?_⟩
  rw [same.lost, own]
  exact place

omit [Externals] in
theorem SamePlaces.present (same : SamePlaces ix frn ix') (present : ix.Present frn) : ix'.Present frn := by
  obtain ⟨e, live, notLost, own⟩ := present
  obtain ⟨live', own', -, -⟩ := same.same e live
  exact ⟨e, live', by rwa [same.lost], own'.trans own⟩

theorem Invariant.insertLayout_places (inv : ix.Invariant) (file : LayoutFile) :
    (file.isDir = false → ∀ n ∈ longNames file, (ix.insertLayout file).Held file.frn n) ∧
    (file.isDir = false → ParentsAgree file.frn (longNames file) → ∀ n ∈ longNames file, (ix.insertLayout file).Settled file.frn n) ∧
    (file.isDir = true → ∀ n, layoutName file = some n → (ix.insertLayout file).Placed file.frn n) ∧
    (longNames file ≠ [] → (ix.insertLayout file).Present file.frn) := by
  rcases inv.insertLayout_known file with ⟨-, empty⟩ | ⟨known, inv', present, placed, -, eq⟩
  · have none_ : ∀ n, layoutName file ≠ some n := fun n named => by simpa [empty] using layoutName_mem named
    simp [empty, none_]
  · rw [eq]
    by_cases folder : file.isDir = true
    · have same : SamePlaces known file.frn (known.setLinkStat file.frn none file.mtimeFt) := samePlaces_setLinkStat _ _ _ _
      simp only [folder, if_true]
      exact ⟨nofun, nofun, fun _ n named => same.placed inv' (placed n named), fun _ => same.present present⟩
    · simp only [folder, Bool.false_eq_true, if_false]
      obtain ⟨held, settled⟩ := inv'.addMissingLinks_places present (longNames file)
      have inv'' := (inv'.addMissingLinks present (longNames file)).invariant inv'
      have same : SamePlaces _ file.frn (((longNames file).foldl (VolumeIndex.addMissingLink file.frn) known).setLinkStat
        file.frn file.size file.mtimeFt) := samePlaces_setLinkStat _ _ _ _
      refine ⟨fun _ n mem => same.held inv'' (held n mem), fun _ agree n mem => same.settled inv'' (settled agree n mem),
        by simp, fun some_ => ?_⟩
      obtain ⟨n, mem⟩ := exists_mem_of_ne_nil _ some_
      obtain ⟨e, inside, -⟩ := held n mem
      exact same.present ⟨e, inv''.mem_links.mp inside⟩

omit [Externals] in
theorem foldl_addMissingLink_settled [Externals] (settled : ∀ n ∈ names, ix.Settled frn n) :
    names.foldl (addMissingLink frn) ix = ix := by
  induction names with
  | nil => rfl
  | cons n rest ih =>
    rw [foldl_cons, addMissingLink_of_settled (settled n (by simp))]
    exact ih fun m mem => settled m (by simp [mem])

theorem Invariant.insertLayout_again (inv : ix.Invariant) (present : ix.Present file.frn)
    (placed : ∀ n, layoutName file = some n → ix.Placed file.frn n)
    (settled : file.isDir = true ∨ ∀ n ∈ longNames file, ix.Settled file.frn n) :
    (ix.insertLayout file).linkNames file.frn = ix.linkNames file.frn := by
  obtain ⟨upserted, inv', same, eq⟩ : ∃ upserted : VolumeIndex, upserted.Invariant ∧ SamePlaces ix file.frn upserted ∧
      ix.insertLayout file = upserted.enrich file := by
    unfold VolumeIndex.insertLayout
    cases named : layoutName file with
    | none => exact ⟨ix, inv, SamePlaces.refl ix file.frn, rfl⟩
    | some n =>
      exact ⟨_, (inv.upsertLink file.frn n.parentFrn n.name n.nameLossy file.isDir).invariant inv,
        inv.samePlaces_upsert present (placed n named) n.nameLossy file.isDir, rfl⟩
  have present' := same.present present
  obtain ⟨known, -, -, known_eq, enriched⟩ := inv'.enrich_known (.inl present')
  rw [known_eq present'] at enriched
  have unchanged : (if file.isDir then upserted else (longNames file).foldl (VolumeIndex.addMissingLink file.frn) upserted) =
      upserted := by
    split
    case isTrue => rfl
    case isFalse plain =>
      exact foldl_addMissingLink_settled fun n mem => same.settled inv (settled.resolve_left plain n mem)
  rw [eq, enriched, unchanged]
  exact (same.trans (samePlaces_setLinkStat _ _ _ _)).linkNames inv

theorem Invariant.agree_of_insertLayout (inv : ix.Invariant) (present : ix.Present file.frn) (plain : file.isDir = false)
    (same : (ix.insertLayout file).linkNames file.frn = ix.linkNames file.frn) : ParentsAgree file.frn (longNames file) := by
  rcases inv.insertLayout_known file with ⟨-, empty⟩ | ⟨known, inv', present', -, links, eq⟩
  · simp [empty, ParentsAgree]
  · rw [eq] at same
    simp only [plain, Bool.false_eq_true, if_false] at same
    have length := congrArg List.length same
    simp only [linkNames, length_map, (samePlaces_setLinkStat _ file.frn _ _).links, ← links present] at length
    exact inv'.pass_agrees present' length

end Repeat

/-- Each name of a file is under the parent its record gives or under lost+found, and the record once more changes nothing
    exactly if its parents agree on their sequence numbers (a folder's further names are not read). -/
theorem layout_links_settle {ix : VolumeIndex} {rootFrn : Frn} (reachable : Reachable rootFrn ix) (file : LayoutFile) :
    ((file.isDir = false → ∀ n ∈ longNames file, (ix.insertLayout file).Held file.frn n) ∧
      ((ix.insertLayout file).insertLayout file).linkNames file.frn = (ix.insertLayout file).linkNames file.frn) ↔
    file.isDir = true ∨ ParentsAgree file.frn (longNames file) := by
  have inv := reachable.invariant
  have inv' := (inv.insertLayout file).invariant inv
  obtain ⟨held, settled, placed, present⟩ := inv.insertLayout_places file
  by_cases empty : longNames file = []
  · have unnamed : layoutName file = none := eq_none_iff_forall_ne_some.mpr fun n named => by
      simpa [empty] using layoutName_mem named
    refine iff_of_true ⟨held, ?_⟩ (.inr (by simp [empty, ParentsAgree]))
    by_cases there : (ix.insertLayout file).Present file.frn
    · exact inv'.insertLayout_again there (by simp [unnamed]) (.inr (by simp [empty]))
    · generalize ix.insertLayout file = again at inv' there
      rw [insertLayout, unnamed]
      simp only
      rw [enrich_nothing inv' there empty]
  · constructor
    · rintro ⟨-, same⟩
      by_cases folder : file.isDir = true
      · exact .inl folder
      · exact .inr (inv'.agree_of_insertLayout (present empty) (by simpa using folder) same)
    · intro either
      refine ⟨held, ?_⟩
      by_cases folder : file.isDir = true
      · exact inv'.insertLayout_again (present empty) (placed folder) (.inl folder)
      · have plain : file.isDir = false := by simpa using folder
        have all := settled plain (either.resolve_left folder)
        exact inv'.insertLayout_again (present empty) (fun n named => (all n (layoutName_mem named)).placed) (.inr all)

def tornRecord : LayoutFile where
  frn := ⟨0x0001000000000009⟩
  attributes := 0
  names := [⟨⟨0x000100000000000A⟩, [0x78], false, false⟩, ⟨⟨0x000200000000000A⟩, [0x79], false, false⟩]
  size := none
  mtimeFt := none

omit [Externals] in
/-- Inserted again, both names are in the chain twice. -/
theorem torn_record_grows :
    letI := ascii
    Reachable ntfsRootFrn folderIndex ∧
      (∀ n ∈ tornRecord.names, ¬ n.parentFrn.Stale ntfsRootFrn) ∧ ¬ tornRecord.frn.Stale ntfsRootFrn ∧
      (folderIndex.insertLayout tornRecord).linkNames tornRecord.frn =
        [(.lostFound, [0x78]), (.of ⟨0x000200000000000A⟩, [0x79])] ∧
      ((folderIndex.insertLayout tornRecord).insertLayout tornRecord).linkNames tornRecord.frn =
        [(.lostFound, [0x78]), (.lostFound, [0x79]), (.lostFound, [0x78]), (.of ⟨0x000200000000000A⟩, [0x79])] := by
  let _ := ascii
  refine ⟨reachable_folderIndex, by decide, by decide, by decide, by decide⟩

omit [Externals] in
/-- With one sequence number for both names the record is in the chain once. -/
theorem whole_record_settles :
    letI := ascii
    let file : LayoutFile :=
      { tornRecord with names := [⟨⟨0x000100000000000A⟩, [0x78], false, false⟩, ⟨⟨0x000100000000000A⟩, [0x79], false, false⟩] }
    ParentsAgree file.frn (longNames file) ∧ (∀ n ∈ longNames file, (folderIndex.insertLayout file).Held file.frn n) ∧
      ((folderIndex.insertLayout file).insertLayout file).linkNames file.frn = (folderIndex.insertLayout file).linkNames file.frn := by
  let _ := ascii
  intro file
  have agree : ParentsAgree file.frn (longNames file) := by decide
  obtain ⟨held, same⟩ := (layout_links_settle reachable_folderIndex file).mpr (.inr agree)
  exact ⟨agree, held (by decide), same⟩

end Goz.VolumeIndex
