import ServiceRegistry.Proofs.Registry.Admission
import ServiceRegistry.Proofs.Registry.Receipt

/-! # Older writes of peers

An item that is older than the stored record leaves the record as it is, with two exceptions. A
cancellation is carried out whatever its time of change. And a registration settles the newer
record anew, as if a peer had sent that, by which an override `unknown` is lost.
-/

namespace ServiceRegistry

set_option autoImplicit false

open Replication

/-- The older writes that change a newer record: cancellations, and registrations over an
override `unknown`. -/
def Operation.Breaches (operation : Operation) (older newer : Instance) : Prop :=
  operation = .cancel ∨
    operation = .register ∧ newer.overridden = some .unknown ∧ older.Admissible

namespace Slot

variable {k : Key} {s : Slot} {l : Lease Instance} {now : Millis}

def content (s : Slot) : Option Instance := s.lease.map (·.holder.content)

theorem settle_peer_snd {override : Option Status} {x : Instance} (h : Agrees override x) :
    (settle override .peer x).2 =
      if x.overridden = some .unknown then { x with overridden := none } else x := by
  cases himposed : Registry.imposed x with
  | some s =>
    have hoverridden := overridden_of_imposed himposed
    have hknown : s ≠ .unknown := by
      simpa using (Option.filter_eq_some_iff.mp himposed).2
    rcases h with ⟨hoverride, hstatus⟩ | ⟨-, hunknown⟩
    · have hs := hstatus s (hoverride.trans hoverridden)
      rw [hoverridden, if_neg fun h => hknown (Option.some.inj h)]
      simp only [settle, himposed, ← hs]
    · exact absurd (Option.some.inj (hoverridden.symm.trans hunknown)) hknown
  | none =>
    simp only [settle, himposed]
    rcases overridden_of_not_imposed himposed with hnone | hunknown
    · rw [hnone, if_neg (Option.some_ne_none _).symm, ← hnone]
    · rw [if_pos hunknown]

theorem content_of_lease (h : s.lease = some l) : s.content = some l.holder.content := by
  rw [content, h]
  rfl

theorem Sound.chosen_of_stale (hs : s.Sound k) (hl : s.lease = some l) {incoming : Instance}
    (hstale : incoming.dirtyAt < l.holder.dirtyAt) : s.chosen incoming = l.holder := by
  rw [chosen, hs.held_eq_lease, hl]
  exact if_pos hstale

theorem Sound.content_enroll_stale (hs : s.Sound k) (hl : s.lease = some l) {incoming : Instance}
    (hstale : incoming.dirtyAt < l.holder.dirtyAt) (now : Millis) (duration : UInt64) :
    (s.enroll now .peer incoming duration).slot.content =
      some (if l.holder.overridden = some .unknown then { l.holder with overridden := none }
        else l.holder).content := by
  have hchosen := hs.chosen_of_stale hl hstale
  rw [← settle_peer_snd (hs.tended hl).agrees, content_of_lease rfl, leaseFor_holder]
  exact congrArg some ((content_enrolled ..).trans (by rw [hchosen]))

theorem Sound.content_renew (hs : s.Sound k) (origin : Origin) (dirtyAt : Option Millis) :
    (s.renew now origin dirtyAt).slot.content = s.content := by
  rw [Slot.renew, hs.held_eq_lease]
  cases hl : s.lease with
  | none => rfl
  | some l => exact (content_of_lease hl).symm

theorem Sound.changeStatus_stale (hs : s.Sound k) (hl : s.lease = some l) {d : Millis}
    (hstale : d < l.holder.dirtyAt) (change : StatusChange) :
    s.changeStatus now (some d) change = ⟨.changed .conflict, s, none⟩ := by
  simp [Slot.changeStatus, hs.held_eq_lease, hl, hstale]

theorem Sound.content_register_stale {record : Instance}
    (hs : s.Sound (Registry.keyOf record.app record.id)) (hl : s.lease = some l)
    (hpositive : 0 < record.dirtyAt) (hstale : record.dirtyAt < l.holder.dirtyAt) (now : Millis) :
    (s.move now (.register .peer record (some record.terms.duration))).slot.content =
        some l.holder.content ↔
      ¬ (l.holder.overridden = some .unknown ∧ record.Admissible) := by
  simp only [Slot.move]
  by_cases hadmissible : record.Admissible
  · have hdirty : record.dirtyAt ≠ 0 := fun h => by simp [h] at hpositive
    have hincoming : (if record.dirtyAt = 0 then now else record.dirtyAt) < l.holder.dirtyAt := by
      rwa [if_neg hdirty]
    rw [accept_own_terms hadmissible]
    simp only
    rw [hs.content_enroll_stale hl]
    · split
      · rename_i hunknown
        simp [Instance.content, hunknown, hadmissible]
      · rename_i hknown
        simp [hknown]
    · exact hincoming
  · obtain ⟨e, he⟩ := accept_eq_error now (some record.terms.duration) hadmissible
    simp [he, content_of_lease hl, hadmissible]

theorem Sound.content_told_stale {record : Instance}
    (hs : s.Sound (Registry.keyOf record.app record.id)) (hl : s.lease = some l)
    (hpositive : 0 < record.dirtyAt) (hstale : record.dirtyAt < l.holder.dirtyAt) (now : Millis)
    (operation : Operation) :
    (s.move now (.told record (some record.terms.duration) operation)).slot.content =
        some l.holder.content ↔
      ¬ operation.Breaches record l.holder := by
  have hsame := content_of_lease hl
  cases operation with
  | register =>
    rw [Command.told, hs.content_register_stale hl hpositive hstale]
    simp [Operation.Breaches]
  | heartbeat => simp [Command.told, Slot.move, Operation.Breaches, hs.content_renew, hsame]
  | cancel =>
    simp [Command.told, Slot.move, Operation.Breaches, Slot.withdraw, hl, Option.filter_some,
      content]
  | statusUpdate =>
    simp [Command.told, Slot.move, Operation.Breaches, Registry.positive_of_pos hpositive,
      hs.changeStatus_stale hl hstale, hsame]
  | deleteStatusOverride =>
    simp [Command.told, Slot.move, Operation.Breaches, Registry.positive_of_pos hpositive,
      hs.changeStatus_stale hl hstale, hsame]

end Slot

namespace Registry

variable {r : Registry}

theorem instance?_content (hr : r.Sound) (app id : String) :
    (r.instance? app id).map Instance.content = (r.slot (keyOf app id)).content := by
  rw [instance?, lease?, hr.held?_eq_stored?, Option.map_map]
  rfl

/-- An item older than the stored record leaves the record's content, unless it is a breach. -/
theorem receive_stale_content_iff (hr : r.Reachable) (now time : Millis) (operation : Operation)
    {record : Instance} {l : Lease Instance} (hheld : r.lease? record.app record.id = some l)
    (hpositive : 0 < record.dirtyAt) (hstale : record.dirtyAt < l.holder.dirtyAt) :
    ((r.receive now (.of operation record time)).registry.instance? record.app record.id).map
        Instance.content = some l.holder.content ↔
      ¬ operation.Breaches record l.holder := by
  have hc : (Item.of operation record time).command? = some _ := Item.command?_of ..
  have hlease : (r.slot (keyOf record.app record.id)).lease = some l := by
    rw [slot_lease, ← hr.sound.held?_eq_stored?]
    exact hheld
  rw [instance?_content (hr.receive now _).sound, hr.sound.slot_receive now hc,
    if_pos (Command.key_told ..)]
  exact (hr.sound _).content_told_stale hlease hpositive hstale now operation

/-- A newer record survives an older heartbeat, but neither an older cancellation nor, when its
override is `unknown`, an older registration. -/
theorem receive_stale_breaches :
    let older := { Instance.named "WEB" "web-1" "host" 80 with dirtyAt := 100 }
    let newer := { older with overridden := some .unknown, dirtyAt := 200 }
    let r := ((Registry.start {} 1).perform 2 (.register .client newer none)).registry
    let after (operation : Operation) :=
      ((r.receive 3 (.of operation older 3)).registry.instance? "WEB" "web-1").map Instance.content
    r.Reachable ∧ ∃ l, r.lease? "WEB" "web-1" = some l ∧ 0 < older.dirtyAt ∧
      older.dirtyAt < l.holder.dirtyAt ∧ after .heartbeat = some l.holder.content ∧
      after .cancel ≠ some l.holder.content ∧ after .register ≠ some l.holder.content := by
  intro older newer r after
  have hr : r.Reachable := .perform 2 _ (.start {} 1)
  have hheld : r.lease? "WEB" "web-1" =
      some { Lease.grant { newer with lastChange := some .added, updatedAt := 2 } 90 2 with
        upSince := 2 } := by decide +kernel
  have hadmissible : older.Admissible := by decide +kernel
  have hiff := fun operation =>
    receive_stale_content_iff hr 3 3 operation hheld (by decide : 0 < older.dirtyAt) (by decide)
  refine ⟨hr, _, hheld, by decide, by decide, ?_, fun h => ?_, fun h => ?_⟩
  · exact (hiff .heartbeat).mpr (by simp [Operation.Breaches])
  · exact (hiff .cancel).mp h (.inl rfl)
  · exact (hiff .register).mp h (.inr ⟨rfl, rfl, hadmissible⟩)

end Registry

end ServiceRegistry
