import ServiceRegistry.Proofs.Eviction.Departure
import ServiceRegistry.Proofs.Replication.Coalescing
import ServiceRegistry.Proofs.Replication.Redelivery

/-! # Renewals that peers miss

An item renews the lease of a peer if it registers, or is a heartbeat that finds a lease; a change
of the status does not. So of items that were coalesced a registration still renews, and so do
heartbeats alone, but a heartbeat that a change of the status stands in for is lost to the peer:
`renewal_enqueueAll_iff`.
-/

namespace ServiceRegistry

set_option autoImplicit false

open Replication

def Operation.renewal (now : Millis) : Operation → Option Millis → Option Millis
  | .register, _ => some now
  | .heartbeat, t => t.map fun _ => now
  | .cancel, _ => none
  | .statusUpdate, t | .deleteStatusOverride, t => t

namespace Replication

def renewal (now : Millis) (items : List Item) (t : Option Millis) : Option Millis :=
  items.foldl (fun t i => i.operation.renewal now t) t

variable {now : Millis} {items before after pending : List Item} {i j b : Item}
  {t : Option Millis}

theorem renewal_append (now : Millis) (before after : List Item) (t : Option Millis) :
    renewal now (before ++ after) t = renewal now after (renewal now before t) :=
  List.foldl_append

theorem renewal_heartbeats (hitems : ∀ i ∈ items, i.operation = .heartbeat) (hne : items ≠ []) :
    renewal now items t = t.map fun _ => now := by
  induction items generalizing t with
  | nil => exact absurd rfl hne
  | cons i rest ih =>
    obtain ⟨hi, hrest⟩ := List.forall_mem_cons.mp hitems
    have hstep : renewal now (i :: rest) t = renewal now rest (t.map fun _ => now) := by
      rw [renewal, List.foldl_cons, hi]
      rfl
    rw [hstep]
    cases rest with
    | nil => rfl
    | cons j rest =>
      rw [ih hrest (List.cons_ne_nil j rest), Option.map_map]
      rfl

theorem renewal_of_renewed (hitems : ∀ i ∈ items, i.operation ≠ .cancel) :
    renewal now items (some now) = some now := by
  induction items with
  | nil => rfl
  | cons i rest ih =>
    obtain ⟨hi, hrest⟩ := List.forall_mem_cons.mp hitems
    have hfirst : i.operation.renewal now (some now) = some now := by
      cases hop : i.operation with
      | cancel => exact absurd hop hi
      | register | heartbeat | statusUpdate | deleteStatusOverride => rfl
    rw [renewal, List.foldl_cons, hfirst]
    exact ih hrest

/-- Without cancellations, a registration anywhere leaves the lease renewed. -/
theorem renewal_of_register (hitems : ∀ i ∈ items, i.operation ≠ .cancel)
    (hregister : ∃ i ∈ items, i.operation = .register) : renewal now items t = some now := by
  obtain ⟨i, hi, hop⟩ := hregister
  obtain ⟨before, after, rfl⟩ := List.append_of_mem hi
  have hafter : ∀ j ∈ after, j.operation ≠ .cancel :=
    fun j hj => hitems j (List.mem_append_right _ (List.mem_cons_of_mem i hj))
  rw [renewal_append, renewal, List.foldl_cons, hop]
  exact renewal_of_renewed hafter

theorem renewal_of_gone (hitems : ∀ i ∈ items, i.operation ≠ .register) :
    renewal now items none = none := by
  induction items with
  | nil => rfl
  | cons i rest ih =>
    obtain ⟨hi, hrest⟩ := List.forall_mem_cons.mp hitems
    have hfirst : i.operation.renewal now none = none := by
      cases hop : i.operation with
      | register => exact absurd hop hi
      | heartbeat | cancel | statusUpdate | deleteStatusOverride => rfl
    rw [renewal, List.foldl_cons, hfirst]
    exact ih hrest

namespace Pending

theorem enqueueAll_ne_nil (hne : items ≠ []) (pending : List Item) :
    enqueueAll items pending ≠ [] := by
  rcases List.eq_nil_or_concat items with rfl | ⟨before, i, rfl⟩
  · exact absurd rfl hne
  · rw [List.concat_eq_append, enqueueAll_append]
    exact enqueue_ne_nil i _

theorem operation_absorb_register (hj : j.operation = .register) (hi : ¬ i.Resets) {merged : Item}
    (h : j.absorb i = some merged) : merged.operation = .register := by
  cases hop : i.operation with
  | register => exact absurd (.inl hop) hi
  | cancel => exact absurd (.inr hop) hi
  | deleteStatusOverride => cases (Slot.absorb_register_release hj hop).symm.trans h
  | heartbeat | statusUpdate =>
    simp only [Item.absorb, hj, hop] at h
    cases h
    rfl

theorem exists_register_enqueue (hi : ¬ i.Resets) (h : ∃ j ∈ pending, j.operation = .register) :
    ∃ j ∈ enqueue i pending, j.operation = .register := by
  obtain ⟨j, hj, hop⟩ := h
  rcases List.eq_nil_or_concat pending with rfl | ⟨first, last, rfl⟩
  · cases hj
  rw [List.concat_eq_append] at hj ⊢
  rw [enqueue_concat]
  rcases List.mem_append.mp hj with hj | hj
  · exact ⟨j, List.mem_append_left _ hj, hop⟩
  cases List.mem_singleton.mp hj
  rw [enqueue]
  cases habsorb : j.absorb i with
  | none => exact ⟨j, by simp, hop⟩
  | some merged => exact ⟨merged, by simp, operation_absorb_register hop hi habsorb⟩

theorem exists_register_enqueueAll (hitems : ∀ i ∈ items, ¬ i.Resets)
    (h : ∃ j ∈ pending, j.operation = .register) :
    ∃ j ∈ enqueueAll items pending, j.operation = .register := by
  induction items generalizing pending with
  | nil => exact h
  | cons i rest ih =>
    obtain ⟨hi, hrest⟩ := List.forall_mem_cons.mp hitems
    exact ih hrest (exists_register_enqueue hi h)

theorem forall_operation_enqueueAll {P : Operation → Prop} (hitems : ∀ i ∈ items, P i.operation)
    (hpending : ∀ j ∈ pending, P j.operation) : ∀ j ∈ enqueueAll items pending, P j.operation := by
  refine forall_enqueueAll (fun i j merged hi hj habsorb => ?_) hitems hpending
  rcases Item.absorb_operation habsorb with hop | hop
  · rw [hop]
    exact hi
  · rw [hop]
    exact hj

end Pending

theorem renewal_enqueueAll_register (hop : b.operation = .register)
    (hafter : ∀ i ∈ after, ¬ i.Resets) :
    renewal now (Pending.enqueueAll (before ++ b :: after) []) t = some now := by
  have hregister : ∃ j ∈ Pending.enqueueAll after [b], j.operation = .register :=
    Pending.exists_register_enqueueAll hafter ⟨b, List.mem_singleton_self b, hop⟩
  have hkeeps : ∀ j ∈ Pending.enqueueAll after [b], j.operation ≠ .cancel := by
    apply Pending.forall_operation_enqueueAll (P := (· ≠ .cancel))
    · exact fun i hi hcancel => hafter i hi (.inr hcancel)
    · rintro i hi hcancel
      cases List.mem_singleton.mp hi
      cases hop.symm.trans hcancel
  rw [Pending.enqueueAll_replaced (.inl hop), renewal_append]
  exact renewal_of_register hkeeps hregister

theorem renewal_enqueueAll_heartbeats (hitems : ∀ i ∈ items, i.operation = .heartbeat) :
    renewal now (Pending.enqueueAll items []) t = renewal now items t := by
  by_cases hne : items = []
  · subst hne
    rfl
  have hbeats : ∀ i ∈ Pending.enqueueAll items [], i.operation = .heartbeat :=
    Pending.forall_operation_enqueueAll (P := (· = .heartbeat)) hitems (List.forall_mem_nil _)
  rw [renewal_heartbeats hbeats (Pending.enqueueAll_ne_nil hne []), renewal_heartbeats hitems hne]

/-- Items that renew a lease one by one still renew it once they are coalesced, if one of them is a
registration, or if all are heartbeats. Otherwise it stays renewed when it was. -/
theorem renewal_enqueueAll_iff (h : renewal now items t = some now) :
    renewal now (Pending.enqueueAll items []) t = some now ↔
      (∃ i ∈ items, i.operation = .register) ∨ (∀ i ∈ items, i.operation = .heartbeat) ∨
        t = some now := by
  rcases Pending.split_last Item.Resets items with hnone | ⟨before, b, after, rfl, hb, hafter⟩
  · rcases Pending.split_last (fun i : Item => i.operation ≠ .heartbeat) items with
      hbeats | ⟨before, x, after, rfl, hx, hafter⟩
    · have hbeats : ∀ i ∈ items, i.operation = .heartbeat := by simpa using hbeats
      rw [renewal_enqueueAll_heartbeats hbeats]
      exact iff_of_true h (.inr (.inl hbeats))
    · obtain ⟨hbefore, hrest⟩ := List.forall_mem_append.mp hnone
      have hother : ¬ x.Resets := hrest x List.mem_cons_self
      have hbeats : ∀ i ∈ after, i.operation = .heartbeat := by simpa using hafter
      obtain ⟨time, hwaits⟩ := Pending.enqueueAll_change hbefore hother hx hbeats
      have hkept : renewal now (Pending.enqueueAll (before ++ x :: after) []) t = t := by
        rw [hwaits]
        cases hop : x.operation with
        | register => exact absurd (.inl hop) hother
        | cancel => exact absurd (.inr hop) hother
        | heartbeat => exact absurd hop hx
        | statusUpdate | deleteStatusOverride =>
          simp only [renewal, List.foldl_cons, List.foldl_nil, Operation.renewal]
      rw [hkept]
      constructor
      · exact fun ht => .inr (.inr ht)
      · rintro (⟨i, hi, hop⟩ | hall | ht)
        · exact absurd (.inl hop) (hnone i hi)
        · exact absurd (hall x (by simp)) hx
        · exact ht
  rcases hb with hop | hop
  · rw [renewal_enqueueAll_register hop hafter]
    exact iff_of_true rfl (.inl ⟨b, by simp, hop⟩)
  · have hothers : ∀ i ∈ after, i.operation ≠ .register := fun i hi hop => hafter i hi (.inl hop)
    rw [renewal_append, renewal, List.foldl_cons, hop] at h
    cases (renewal_of_gone hothers).symm.trans h

end Replication

theorem Instance.admissible_of_frame {x y : Instance} (h : x.frame = y.frame) :
    x.Admissible ↔ y.Admissible := by
  have happ : x.frame.app = y.frame.app := congrArg _ h
  have hid : x.frame.id = y.frame.id := congrArg _ h
  have hhost : x.frame.host = y.frame.host := congrArg _ h
  have hterms : x.frame.terms = y.frame.terms := congrArg _ h
  exact check_congr (congrArg Text.upper happ) hid hhost hterms

structure Replication.Item.Admissible (i : Item) : Prop where
  record : ∃ x, i.record = some x ∧ x.Admissible
  lease : ∃ d, i.lease = some d ∧ checkLease i.id d = .ok ()

theorem Replication.Item.Admissible.absorb {pending incoming merged : Item}
    (h : pending.Admissible) (h' : incoming.Admissible)
    (habsorb : pending.absorb incoming = some merged) : merged.Admissible := by
  unfold Item.absorb at habsorb
  split at habsorb <;> cases habsorb
  case h_2 | h_3 =>
    obtain ⟨x, hx, hadmissible⟩ := h'.record
    exact ⟨⟨x, by rw [hx, Option.some_or], hadmissible⟩, h.lease⟩
  case h_4 | h_5 => exact ⟨h.record, h.lease⟩
  case h_6 => exact h'

namespace Slot

variable {k : Key} {s : Slot} {now : Millis} {c : Command} {i : Item} {items : List Item}

def renewed (s : Slot) : Option Millis := s.term.map (·.1)

theorem Sound.renewed_receive (hs : s.Sound k) (hi : i.Admissible) (now : Millis) :
    (s.receive now i).renewed = i.operation.renewal now s.renewed := by
  obtain ⟨⟨x, hx, hadmissible⟩, d, hd, hlease⟩ := hi
  cases hop : i.operation with
  | register =>
    have hgranted : Registry.grantedDuration (some d) x = d :=
      if_neg (checkLease_eq_ok_iff.mp hlease).1
    have haccept : accept now x (some d) = .ok ({ x with
        app := Text.upper x.app
        dirtyAt := if x.dirtyAt = 0 then now else x.dirtyAt }, d) :=
      accept_eq_ok_iff.mpr ⟨hadmissible, hgranted.symm, checkLease_congr hlease, rfl⟩
    simp only [Slot.receive, Item.command?, hop, hx, hd, Option.map_some, Slot.move, haccept]
    rw [renewed, term_enroll]
    rfl
  | heartbeat =>
    simp only [Slot.receive, Item.command?, hop, Slot.move]
    rw [renewed, hs.term_renew, Option.map_map, renewed, Operation.renewal, Option.map_map]
    rfl
  | cancel =>
    rw [hs.receive_cancel hop]
    rfl
  | statusUpdate =>
    simp only [Slot.receive, Item.command?, hop, Operation.renewal]
    cases i.status with
    | none => rfl
    | some status => exact congrArg (Option.map _) (term_changeStatus ..)
  | deleteStatusOverride =>
    simp only [Slot.receive, Item.command?, hop, Operation.renewal]
    exact congrArg (Option.map _) (term_changeStatus ..)

theorem Sound.renewed_foldl_receive (hs : s.Sound k) (now : Millis)
    (hitems : ∀ i ∈ items, i.Addressed k ∧ i.Admissible) :
    (items.foldl (fun s i => s.receive now i) s).renewed = renewal now items s.renewed := by
  induction items generalizing s with
  | nil => rfl
  | cons i rest ih =>
    obtain ⟨⟨haddressed, hi⟩, hrest⟩ := List.forall_mem_cons.mp hitems
    rw [List.foldl_cons, ih (hs.receive haddressed now) hrest, hs.renewed_receive hi]
    rfl

theorem Valid.admissible (hv : s.Valid) (hs : s.Sound k) {x : Instance} {d : UInt64}
    (hx : s.kept = some (x, d)) : x.Admissible ∧ checkLease x.id d = .ok () := by
  obtain ⟨l, hl, hlx⟩ := Option.map_eq_some_iff.mp hx
  cases hlx
  obtain ⟨hcheck, hd⟩ := hv _ _ hx
  obtain ⟨hfiled, hupper, -, -⟩ := hs.tended hl
  have happ : Text.upper l.holder.app = l.holder.app := by
    have hkey : l.holder.app = k.1 := congrArg Prod.fst hfiled
    rw [hkey, hupper]
  rw [Instance.Admissible, happ]
  exact ⟨hcheck, hd⟩

section Told

variable {kind : ChangeKind} {x : Instance} {d : UInt64}

theorem told_withdraw {test : Lease Instance → Bool}
    (h : (s.withdraw now test).change = some (kind, x, d)) :
    ∃ l, s.lease = some l ∧ x.frame = l.holder.frame ∧ d = l.holder.terms.duration := by
  unfold withdraw at h
  split at h
  · cases h
  · rename_i l hl
    cases h
    exact ⟨l, Option.eq_some_of_filter_eq_some hl, rfl, rfl⟩

theorem told_changeStatus {m : Move} {dirtyAt : Option Millis} {change : StatusChange}
    (hm : s.changeStatus now dirtyAt change = m) (h : m.change = some (kind, x, d)) :
    m.slot.kept = some (x, d) := by
  unfold changeStatus at hm
  split at hm
  · cases hm
    cases h
  split at hm
  · cases hm
    cases h
  split at hm
  · cases hm
    cases h
  · cases hm
    cases h
    exact (kept_relabel ..).trans (congrArg some (Prod.ext rfl (duration_relabel ..).symm))

/-- What is told of a logged change: the record and the lease that are left, or the record that
was taken away, with the duration that it asks for. -/
theorem told_move (h : (s.move now c).change = some (kind, x, d)) :
    (s.move now c).slot.kept = some (x, d) ∨
      ∃ l, s.lease = some l ∧ x.frame = l.holder.frame ∧ d = l.holder.terms.duration := by
  cases c with
  | register origin record duration =>
    simp only [Slot.move] at h ⊢
    split at h
    · cases h
    · rw [change_enroll] at h
      cases h
      exact .inl (kept_enroll ..)
  | renew origin app id dirtyAt =>
    simp only [Slot.move, Slot.renew] at h
    split at h <;> cases h
  | cancel origin app id => exact .inr (told_withdraw h)
  | evict seen app id grace => exact .inr (told_withdraw h)
  | updateStatus origin app id status dirtyAt => exact .inl (told_changeStatus rfl h)
  | deleteOverride origin app id status dirtyAt => exact .inl (told_changeStatus rfl h)

end Told

end Slot

namespace Registry

variable {r : Registry} {now : Millis} {c : Command} {i : Item}

theorem Reachable.admissible_of_shipped (hr : r.Reachable)
    (hi : i ∈ shipped (r.perform now c).effects) : i.Admissible := by
  have hacts := perform_acts hr.sound.filed now c
  rw [hacts.effects] at hi
  have hafter : (r.perform now c).registry.Reachable := .perform now c hr
  have hslot : (r.perform now c).registry.slot c.key = ((r.slot c.key).move now c).slot :=
    (hacts.slot c.key).trans (if_pos rfl)
  have hsound := hafter.sound c.key
  have hvalid := hafter.valid c.key
  rw [hslot] at hsound hvalid
  obtain ⟨-, operation, x, d, rfl, htold⟩ := Slot.item_of_shipped hi
  have hkept : ((r.slot c.key).move now c).slot.kept = some (x, d) →
      x.Admissible ∧ checkLease x.id d = .ok () := hvalid.admissible hsound
  have hadmissible : x.Admissible ∧ checkLease x.id d = .ok () := by
    rcases htold with ⟨kind, hchange⟩ | hheld
    · rcases Slot.told_move hchange with hheld | ⟨l, hl, hframe, rfl⟩
      · exact hkept hheld
      · have hbefore := Slot.kept_of_lease hl
        obtain ⟨hl, -⟩ := (hr.valid c.key).admissible (hr.sound c.key) hbefore
        obtain ⟨hcheck, -⟩ := hr.valid c.key _ _ hbefore
        obtain ⟨-, -, -, hlease, -⟩ := Instance.check_eq_ok_iff.mp hcheck
        exact ⟨(Instance.admissible_of_frame hframe).mpr hl, checkLease_congr hlease⟩
    · exact hkept hheld
  exact ⟨⟨x, rfl, hadmissible.1⟩, d, rfl, hadmissible.2⟩

end Registry

/-- What an origin sends to its peers: what it told of, or a heartbeat among that, sent again as a
registration to a peer that did not find the instance. -/
inductive Replication.Item.Sent : Item → Prop where
  | told {r : Registry} {now : Millis} {c : Command} {i : Item} : r.Reachable →
    i ∈ shipped (r.perform now c).effects → Sent i
  | again {i : Item} : Sent i → i.operation = .heartbeat → Sent { i with operation := .register }

theorem Replication.Item.Sent.addressed {i : Item} (h : i.Sent) : i.Addressed i.key := by
  induction h with
  | told hr hi => exact hr.addressed_of_shipped hi
  | again _ _ ih => exact ⟨ih.key, ih.upper, ih.record⟩

theorem Replication.Item.Sent.admissible {i : Item} (h : i.Sent) : i.Admissible := by
  induction h with
  | told hr hi => exact hr.admissible_of_shipped hi
  | again _ _ ih => exact ⟨ih.record, ih.lease⟩

theorem Registry.Reachable.sent_of_emitted {r : Registry} (hr : r.Reachable)
    (calls : List (Millis × Command)) : ∀ i ∈ r.emitted calls, i.Sent := by
  induction calls generalizing r with
  | nil => exact List.forall_mem_nil _
  | cons call rest ih =>
    obtain ⟨now, c⟩ := call
    intro i hi
    rcases List.mem_append.mp hi with hnow | hlater
    · exact .told hr hnow
    · exact ih (.perform now c hr) i hlater

namespace Registry

variable {peer : Registry} {app id : String} {items : List Item} {now : Millis}

def renewedAt? (r : Registry) (app id : String) : Option Millis :=
  (r.lease? app id).map (·.renewedAt)

theorem Sound.renewedAt?_eq (hr : peer.Sound) :
    peer.renewedAt? app id = (peer.slot (keyOf app id)).renewed := by
  rw [renewedAt?, hr.lease?_eq_slot_lease, Slot.renewed, Slot.term, Option.map_map]
  rfl

theorem Sound.renewedAt?_receiveAll (hr : peer.Sound) (now : Millis)
    (hitems : ∀ i ∈ items, i.Addressed (keyOf app id) ∧ i.Admissible) :
    (peer.receiveAll now items).registry.renewedAt? app id =
      renewal now items (peer.renewedAt? app id) := by
  have hown : ∀ i ∈ items, i.Addressed i.key := by
    intro i hi
    rw [(hitems i hi).1.key]
    exact (hitems i hi).1
  have hall : items.filter (·.key = keyOf app id) = items := by
    simpa using fun i hi => (hitems i hi).1.key
  obtain ⟨hafter, hslot⟩ := hr.receiveAll now items hown
  rw [hafter.renewedAt?_eq, hslot, hall, (hr _).renewed_foldl_receive now hitems,
    hr.renewedAt?_eq]

theorem Sound.renewedAt?_receiveEach (hr : peer.Sound) (now : Millis)
    (hitems : ∀ i ∈ items, i.Addressed (keyOf app id) ∧ i.Admissible) :
    (peer.receiveEach (items.map (Prod.mk now))).renewedAt? app id =
      renewal now items (peer.renewedAt? app id) := by
  have hcommand : ∀ d ∈ items.map (Prod.mk now), ∀ c, d.2.command? = some c →
      c.key = keyOf app id :=
    List.forall_mem_map.mpr fun i hi c => (hitems i hi).1.command_key
  obtain ⟨hafter, hslot⟩ := hr.slot_receiveEach hcommand
  rw [hafter.renewedAt?_eq, hslot, Slot.receiveEach, List.foldl_map,
    (hr _).renewed_foldl_receive now hitems, hr.renewedAt?_eq]

/-- Items that renew the lease of a peer one by one still do so once they are coalesced, if one of
them is a registration or all of them are heartbeats. Otherwise, that is where a change of the
status stands in for the heartbeats, nothing is renewed. -/
theorem Reachable.renewed_coalesced_iff (hpeer : peer.Reachable)
    (hitems : ∀ i ∈ items, i.Sent ∧ i.key = keyOf app id)
    (hsingle : (peer.receiveEach (items.map (Prod.mk now))).renewedAt? app id = some now)
    {capacity most : Nat} (hroom : ((Queue.ofCapacity capacity).pushAll items).dropped = 0)
    (hmost : ((Queue.ofCapacity capacity).pushAll items).length ≤ most) :
    let drained := (((Queue.ofCapacity capacity).pushAll items).drain most).1
    (peer.receiveAll now drained).registry.renewedAt? app id = some now ↔
      (∃ i ∈ items, i.operation = .register) ∨ (∀ i ∈ items, i.operation = .heartbeat) ∨
        peer.renewedAt? app id = some now := by
  intro drained
  have hkey : ∀ i ∈ items, i.key = keyOf app id := fun i hi => (hitems i hi).2
  have hdrained : drained = Pending.enqueueAll items [] := by
    rw [← Queue.toList_pushAll_ofCapacity hkey hroom]
    exact ((Queue.tidy_ofCapacity capacity).pushAll items).1.drain_of_length_le hmost
  have hmine : ∀ i ∈ items, i.Addressed (keyOf app id) ∧ i.Admissible := by
    intro i hi
    obtain ⟨hsent, hk⟩ := hitems i hi
    exact ⟨hk ▸ hsent.addressed, hsent.admissible⟩
  have hwaiting : ∀ i ∈ drained, i.Addressed (keyOf app id) ∧ i.Admissible := by
    rw [hdrained]
    exact Pending.forall_enqueueAll
      (fun _ _ _ hi hj habsorb => ⟨hi.1.absorb hj.1 habsorb, hi.2.absorb hj.2 habsorb⟩) hmine
      (List.forall_mem_nil _)
  rw [hpeer.sound.renewedAt?_receiveEach now hmine] at hsingle
  rw [hpeer.sound.renewedAt?_receiveAll now hwaiting, hdrained]
  exact renewal_enqueueAll_iff hsingle

/-- A heartbeat is folded into the change of the status before it, and the lease of the peer is not
renewed. -/
theorem renewed_coalesced_iff_missed :
    let register := Command.register .client (.named "WEB" "web-1" "host" 80) none
    let held := ((start {} 1).perform 2 register).registry
    let items := held.emitted [(3, .updateStatus .client "WEB" "web-1" .outOfService none),
      (4, .renew .client "WEB" "web-1" none)]
    let q := (Queue.ofCapacity 8).pushAll items
    held.Reachable ∧ (∀ i ∈ items, i.Sent ∧ i.key = keyOf "WEB" "web-1") ∧ q.dropped = 0 ∧
      q.length ≤ 8 ∧ (q.drain 8).1.map (·.operation) = [.statusUpdate] ∧
      (held.receiveEach (items.map (Prod.mk 9))).renewedAt? "WEB" "web-1" = some 9 ∧
      (held.receiveAll 9 (q.drain 8).1).registry.renewedAt? "WEB" "web-1" ≠ some 9 := by
  intro register held items q
  have hheld : held.Reachable := .perform 2 _ (.start {} 1)
  have hkey : ∀ i ∈ items, i.key = keyOf "WEB" "web-1" := by decide +kernel
  have hitems : ∀ i ∈ items, i.Sent ∧ i.key = keyOf "WEB" "web-1" :=
    fun i hi => ⟨hheld.sent_of_emitted _ i hi, hkey i hi⟩
  have hroom : q.dropped = 0 := by decide +kernel
  have hmost : q.length ≤ 8 := by decide +kernel
  have hsingle : (held.receiveEach (items.map (Prod.mk 9))).renewedAt? "WEB" "web-1" = some 9 := by
    decide +kernel
  refine ⟨hheld, hitems, hroom, hmost, by decide +kernel, hsingle, ?_⟩
  intro hbatched
  rcases (hheld.renewed_coalesced_iff hitems hsingle hroom hmost).mp hbatched with
    hregister | hbeats | hbefore
  · exact absurd hregister (by decide +kernel)
  · exact absurd hbeats (by decide +kernel)
  · exact absurd hbefore (by decide +kernel)

end Registry

end ServiceRegistry
