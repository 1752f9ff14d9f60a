import Mathlib.Data.List.Nodup
import ServiceRegistry.Proofs.Registry.Runs

/-! # What a cycle removes

A cycle looks for the expired leases, takes a sample if they are too many, tests each again as it
evicts it, and drops the applications that are left empty. `Sound.exact_run` says what these passes
come to: no lease is missed or counted twice, and the second test refuses none of the sample.
-/

namespace ServiceRegistry

set_option autoImplicit false

/-- A list names all that has a property, each once. -/
structure Enumerates {α : Type} (l : List α) (P : α → Prop) : Prop where
  nodup : l.Nodup
  mem_iff : ∀ a, a ∈ l ↔ P a

theorem Enumerates.congr {α : Type} {l : List α} {P Q : α → Prop} (h : Enumerates l P)
    (hiff : ∀ a, P a ↔ Q a) : Enumerates l Q :=
  ⟨h.nodup, fun a => (h.mem_iff a).trans (hiff a)⟩

theorem Enumerates.length_eq {α : Type} {l l' : List α} {P : α → Prop} (h : Enumerates l P)
    (h' : Enumerates l' P) : l.length = l'.length := by
  have hmem (a : α) : a ∈ l ↔ a ∈ l' := (h.mem_iff a).trans (h'.mem_iff a).symm
  exact ((List.perm_ext_iff_of_nodup h.nodup h'.nodup).mpr hmem).length_eq

namespace Registry

variable {r after : Registry} {keys : List Key} {effects : List Effect}

def keysWhere (r : Registry) (test : Lease Instance → Bool) : List Key :=
  r.apps.entries.flatMap fun (app, leases) =>
    (leases.entries.filter fun (_, l) => test l).map fun (id, _) => (app, id)

theorem enumerates_keysWhere (r : Registry) (test : Lease Instance → Bool) :
    Enumerates (r.keysWhere test) fun k => ∃ l, r.stored? k = some l ∧ test l = true where
  nodup := by
    refine List.nodup_flatMap.mpr ⟨?_, ?_⟩
    · rintro ⟨app, leases⟩ -
      have hids : ((leases.entries.filter fun (_, l) => test l).map Prod.fst).Nodup :=
        (List.filter_sublist.map _).nodup leases.distinct
      have hpairs := hids.map (f := fun id => (app, id)) fun _ _ h => (Prod.mk.inj h).2
      rw [List.map_map] at hpairs
      exact hpairs
    · refine (List.pairwise_map.mp r.apps.distinct).imp ?_
      intro a b hab k hka hkb
      obtain ⟨_, -, rfl⟩ := List.mem_map.mp hka
      obtain ⟨_, -, hk⟩ := List.mem_map.mp hkb
      exact hab (congrArg Prod.fst hk).symm
  mem_iff := by
    rintro ⟨app, id⟩
    simp only [keysWhere, stored?, List.mem_flatMap, List.mem_map, List.mem_filter, Prod.exists,
      Prod.mk.injEq, Option.bind_eq_some_iff, KeyMap.get?_eq_some_iff]
    constructor
    · rintro ⟨_, leases, happ, _, l, ⟨hl, htest⟩, rfl, rfl⟩
      exact ⟨l, ⟨leases, happ, hl⟩, htest⟩
    · rintro ⟨l, ⟨leases, happ, hl⟩, htest⟩
      exact ⟨app, leases, happ, id, l, ⟨hl, htest⟩, rfl, rfl⟩

theorem instanceCount_eq (r : Registry) :
    r.instanceCount = (r.keysWhere fun _ => true).length := by
  unfold instanceCount keysWhere KeyMap.values
  induction r.apps.entries with
  | nil => rfl
  | cons entry rest ih =>
    rw [List.map_cons, List.foldr_cons, ih, List.flatMap_cons, List.length_append, List.length_map,
      List.filter_true]
    rfl

def Lapsed (r : Registry) (now grace : Int) (k : Key) : Prop :=
  ∃ l, r.stored? k = some l ∧ l.isExpired now grace = true

theorem Lapsed.isSome {now grace : Int} {k : Key} (h : r.Lapsed now grace k) :
    (r.stored? k).isSome := by
  obtain ⟨l, hl, -⟩ := h
  exact Option.isSome_iff_exists.mpr ⟨l, hl⟩

theorem enumerates_expired (r : Registry) (now grace : Int) :
    Enumerates (r.expired now grace) (r.Lapsed now grace) :=
  r.enumerates_keysWhere (·.isExpired now grace)

/-- The slots of some instances are emptied and no others change. The peers are told so once for
each. -/
structure Removal (r : Registry) (keys : List Key) (after : Registry) (effects : List Effect) :
    Prop where
  slot : ∀ k, after.slot k = if k ∈ keys then {} else r.slot k
  told : (shipped effects).map (fun i => (i.operation, i.key)) = keys.map (Prod.mk .cancel)

theorem Removal.none (r : Registry) : r.Removal [] r [] where
  slot _ := (if_neg List.not_mem_nil).symm
  told := rfl

theorem Removal.trans {final : Registry} {others : List Key} {later : List Effect}
    (h : r.Removal keys after effects) (hlater : after.Removal others final later) :
    r.Removal (keys ++ others) final (effects ++ later) where
  slot k := by
    rw [hlater.slot k, h.slot k]
    by_cases hothers : k ∈ others
    · rw [if_pos hothers, if_pos (List.mem_append_right keys hothers)]
    · simp only [hothers, List.mem_append, or_false, if_false]
  told := by
    rw [shipped, List.filterMap_append, List.map_append, List.map_append, ← h.told,
      ← hlater.told]
    rfl

theorem Removal.instanceCount (h : r.Removal keys after effects) (hnodup : keys.Nodup)
    (hstored : ∀ k ∈ keys, (r.stored? k).isSome) :
    after.instanceCount + keys.length = r.instanceCount := by
  have hafter (k : Key) : after.stored? k = if k ∈ keys then Option.none else r.stored? k := by
    rw [← slot_lease, h.slot k]
    split <;> rfl
  have hall : Enumerates ((after.keysWhere fun _ => true) ++ keys)
      fun k => ∃ l, r.stored? k = some l ∧ true = true := by
    constructor
    · refine List.nodup_append.mpr ⟨(enumerates_keysWhere ..).nodup, hnodup, ?_⟩
      rintro k hk _ hmem rfl
      obtain ⟨l, hl, -⟩ := ((enumerates_keysWhere ..).mem_iff k).mp hk
      rw [hafter, if_pos hmem] at hl
      cases hl
    · intro k
      rw [List.mem_append, (enumerates_keysWhere ..).mem_iff, hafter]
      by_cases hmem : k ∈ keys
      · have hk := Option.isSome_iff_exists.mp (hstored k hmem)
        simpa [hmem] using hk
      · simp [hmem]
  rw [instanceCount_eq, instanceCount_eq, ← List.length_append]
  exact hall.length_eq (enumerates_keysWhere ..)

theorem get?_prune_ne_empty {app : String} {leases : KeyMap String (Lease Instance)}
    (h : r.prune.2.apps.get? app = some leases) : leases.isEmpty = false := by
  rw [prune, KeyMap.get?_filter] at h
  simpa using (Option.filter_eq_some_iff.mp h).2

end Registry

theorem Slot.withdraw_of_test {s : Slot} {now : Millis} {test : Lease Instance → Bool}
    {l : Lease Instance} (hl : s.lease = some l) (htest : test l = true) :
    s.withdraw now test = ⟨.removed true, {},
      some (.deleted, { l.holder with lastChange := some .deleted, updatedAt := now },
        l.holder.terms.duration)⟩ := by
  have hfilter : s.lease.filter test = some l := by rw [hl, Option.filter_some, if_pos htest]
  rw [Slot.withdraw, hfilter]

namespace Registry

variable {r : Registry} {now : Millis} {grace : Int}

/-- An expired lease is evicted: the test that the eviction makes is the one that found it. -/
theorem Sound.evict_lapsed (hr : r.Sound) {k : Key} (hk : r.Lapsed now.toInt grace k) :
    (r.evict now now k.1 k.2 grace).answer = true ∧
      r.Removal [k] (r.evict now now k.1 k.2 grace).registry
        (r.evict now now k.1 k.2 grace).effects := by
  obtain ⟨l, hl, hexpired⟩ := hk
  have htended := (hr k).tended hl
  have hkey : keyOf k.1 k.2 = k := Prod.ext htended.upper rfl
  have hacts := perform_acts hr.filed now (.evict now k.1 k.2 grace)
  have hmove : (r.slot (keyOf k.1 k.2)).move now (.evict now k.1 k.2 grace) = ⟨.removed true, {},
      some (.deleted, { l.holder with lastChange := some .deleted, updatedAt := now },
        l.holder.terms.duration)⟩ := by
    rw [hkey]
    change (r.slot k).withdraw now (fun l => l.isExpired now.toInt grace) = _
    exact Slot.withdraw_of_test hl hexpired
  change Acts r now _ ((r.slot (keyOf k.1 k.2)).move now _) _ at hacts
  rw [hmove] at hacts
  refine ⟨CommandAnswer.removed.inj hacts.answer, ?slot, ?told⟩
  case slot =>
    intro k'
    simp only [List.mem_singleton, eq_comm (a := k')]
    have hslot := hacts.slot k'
    rw [show (Command.evict now k.1 k.2 grace).key = k from hkey] at hslot
    exact hslot
  case told =>
    have htold : shipped (r.evict now now k.1 k.2 grace).effects = _ :=
      (congrArg shipped hacts.effects).trans
        ((shipped_effects_of_change rfl ..).trans (shipped_shipments ..))
    rw [htold]
    exact congrArg (fun key => [(Operation.cancel, key)]) htended.filed

end Registry

namespace EvictionController

variable {r : Registry} {now : Millis}

theorem evictAll_lapsed (hr : r.Sound) {grace : Int} {keys : List Key} (hnodup : keys.Nodup)
    (hlapsed : ∀ k ∈ keys, r.Lapsed now.toInt grace k) :
    (evictAll r now grace keys).answer = keys.length ∧
      r.Removal keys (evictAll r now grace keys).registry (evictAll r now grace keys).effects := by
  induction keys generalizing r with
  | nil => exact ⟨rfl, .none r⟩
  | cons k rest ih =>
    obtain ⟨hnot, hrest⟩ := List.nodup_cons.mp hnodup
    obtain ⟨hk, hothers⟩ := List.forall_mem_cons.mp hlapsed
    obtain ⟨hanswer, hremoval⟩ := hr.evict_lapsed hk
    -- The first eviction leaves the slots of the others alone, so these are expired as before.
    have hstill : ∀ k' ∈ rest,
        (r.evict now now k.1 k.2 grace).registry.Lapsed now.toInt grace k' := by
      intro k' hmem
      have hne : k' ∉ [k] := fun h => hnot (List.mem_singleton.mp h ▸ hmem)
      have hslot := hremoval.slot k'
      rw [if_neg hne] at hslot
      obtain ⟨l, hl, hexpired⟩ := hothers k' hmem
      exact ⟨l, (congrArg Slot.lease hslot).trans hl, hexpired⟩
    obtain ⟨hcount, hlater⟩ := ih (hr.perform now (.evict now k.1 k.2 grace)) hrest hstill
    refine ⟨?_, hremoval.trans hlater⟩
    rw [List.length_cons, ← hcount, evictAll, hanswer]
    rfl

end EvictionController

/-- The choice takes the first ones in some order, which may be another one each time. -/
def Choice.Samples (choose : Choice) : Prop :=
  ∀ (n : Nat) (keys : List Key), ∃ shuffled : List Key,
    shuffled.Perm keys ∧ choose n keys = shuffled.take n

theorem Choice.samples_first : Choice.first.Samples := fun _ keys => ⟨keys, .refl keys, rfl⟩

namespace EvictionController

variable {c : EvictionController} {r : Registry} {now : Millis} {isolated : Bool} {choose : Choice}

/-- What a cycle made of a registry, by the list of its expired leases and of those removed. -/
structure Exact (c : EvictionController) (r : Registry) (now : Millis)
    (s : Response EvictionReport) (expired removed : List Key) : Prop where
  found : Enumerates expired (r.Lapsed now.toInt s.answer.compensation)
  nodup : removed.Nodup
  sampled : removed ⊆ expired
  capped : removed.length =
    if s.answer.mode = .normal then min expired.length s.answer.cap else 0
  cap_pos : 1 ≤ s.answer.cap
  compensation : s.answer.compensation = c.compensation now
  tallied : s.answer.expired = expired.length
  evicted : s.answer.evicted = removed.length
  removal : r.Removal removed s.registry s.effects
  count : s.registry.instanceCount + s.answer.evicted = r.instanceCount
  pruned : ∀ app leases, s.registry.apps.get? app = some leases → leases.isEmpty = false

theorem chosen_sample (c : EvictionController) (r : Registry) (now : Millis) (isolated : Bool)
    (hchoose : choose.Samples) :
    (c.chosen r now isolated choose).Nodup ∧
      c.chosen r now isolated choose ⊆ r.expired now.toInt (c.compensation now) ∧
      (c.chosen r now isolated choose).length =
        let report := (c.run r now isolated choose).2.answer
        if report.mode = .normal then
          min (r.expired now.toInt (c.compensation now)).length report.cap
        else 0 := by
  have hexpired := (r.enumerates_expired now.toInt (c.compensation now)).nodup
  have hallowed : (c.preservation.evaluate
        ⟨now, r.instanceCount, r.renewals.last, isolated⟩).evictionAllowed = true ↔
      (c.run r now isolated choose).2.answer.mode = .normal := beq_iff_eq
  have hcap : (c.run r now isolated choose).2.answer.cap =
    evictionCap r.instanceCount c.settings.capFraction := rfl
  simp only [chosen, hallowed, hcap, ite_not]
  split
  · split
    · obtain ⟨shuffled, hperm, htake⟩ := hchoose
        (evictionCap r.instanceCount c.settings.capFraction)
        (r.expired now.toInt (c.compensation now))
      rw [htake]
      refine ⟨(List.take_sublist ..).nodup (hperm.nodup_iff.mpr hexpired), ?_, ?_⟩
      · exact fun k hk => hperm.mem_iff.mp (List.mem_of_mem_take hk)
      · rw [List.length_take, hperm.length_eq, Nat.min_comm]
    · rename_i hfew
      exact ⟨hexpired, List.Subset.refl _, (Nat.min_eq_left (Nat.le_of_not_lt hfew)).symm⟩
  · exact ⟨List.nodup_nil, List.nil_subset _, rfl⟩

theorem exact_run (hr : r.Sound) (c : EvictionController) (now : Millis) (isolated : Bool)
    (hchoose : choose.Samples) :
    ∃ expired removed, c.Exact r now (c.run r now isolated choose).2 expired removed := by
  have hexpired := r.enumerates_expired now.toInt (c.compensation now)
  obtain ⟨hnodup, hsubset, hlength⟩ := c.chosen_sample r now isolated hchoose
  have hlapsed : ∀ k ∈ c.chosen r now isolated choose,
      r.Lapsed now.toInt (c.compensation now) k :=
    fun k hk => (hexpired.mem_iff k).mp (hsubset hk)
  obtain ⟨hanswer, hslot, htold⟩ := evictAll_lapsed hr hnodup hlapsed
  have hremoval : r.Removal (c.chosen r now isolated choose)
      (c.run r now isolated choose).2.registry (c.run r now isolated choose).2.effects := by
    constructor
    · intro k
      rw [run_registry, Registry.slot_prune]
      exact hslot k
    · rw [shipped_run_eq]
      exact htold
  have hevicted : (c.run r now isolated choose).2.answer.evicted =
    (c.chosen r now isolated choose).length := hanswer
  refine ⟨r.expired now.toInt (c.compensation now), c.chosen r now isolated choose, hexpired,
    hnodup, hsubset, hlength, Nat.le_max_left .., rfl, rfl, hevicted, hremoval, ?_, ?_⟩
  · rw [hevicted]
    exact hremoval.instanceCount hnodup fun k hk => (hlapsed k hk).isSome
  · intro app leases happ
    rw [run_registry] at happ
    exact Registry.get?_prune_ne_empty happ

end EvictionController

end ServiceRegistry
