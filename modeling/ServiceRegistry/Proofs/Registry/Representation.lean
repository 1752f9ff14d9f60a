import ServiceRegistry.Proofs.Registry.History
import ServiceRegistry.Proofs.Registry.Override
import ServiceRegistry.Proofs.Registry.Rewind
import ServiceRegistry.Proofs.Registry.Receipt

/-! # What a registry stores

The representation invariant of a registry whose clock never reads zero, the time that stands for
"never": every lease is filed under its own valid names, is in force and of admissible length, and
its record is the one that the log shows last. `Timely.represents` holds after any commands, batches
of peers and adopted records.
-/

namespace ServiceRegistry

set_option autoImplicit false

open Replication

structure Lease.Regular (k : Key) (l : Lease Instance) : Prop where
  filed : l.holder.key = k
  upper : Text.upper k.1 = k.1
  app : checkApp k.1 = .ok ()
  id : checkId k.2 = .ok ()
  inForce : l.evictedAt = 0
  least : 1 ≤ l.duration
  most : l.duration ≤ maxLeaseSeconds
  touched : l.touchedAt = l.renewedAt
  lastChange : l.holder.lastChange = some .added ∨ l.holder.lastChange = some .modified
  upSince : l.holder.status = .up → l.upSince ≠ 0

theorem bounds_of_checkLease {id : String} {d : UInt64} (h : checkLease id d = .ok ()) :
    1 ≤ d ∧ d ≤ maxLeaseSeconds := by
  obtain ⟨hpos, hmost⟩ := checkLease_eq_ok_iff.mp h
  refine ⟨?_, UInt64.not_lt.mp hmost⟩
  have hne : d.toNat ≠ 0 := fun h => hpos (UInt64.toNat_inj.mp h)
  rw [UInt64.le_iff_toNat_le]
  exact Nat.one_le_iff_ne_zero.mpr hne

theorem upSince_ne_zero {p : Prop} [Decidable p] {now since : Millis} (hp : p) (hnow : now ≠ 0) :
    (if p ∧ since = 0 then now else since) ≠ 0 := by
  split
  · exact hnow
  · rename_i h
    exact fun hzero => h ⟨hp, hzero⟩

namespace Slot

variable {k : Key} {s : Slot} {l : Lease Instance} {now : Millis}

def Regular (k : Key) (s : Slot) : Prop := ∀ l, s.lease = some l → l.Regular k

theorem Sound.regular_enroll (hs : s.Sound k) (hnow : now ≠ 0) {origin : Origin}
    {record incoming : Instance} {duration : Option UInt64} {granted : UInt64}
    (haccept : accept now record duration = .ok (incoming, granted))
    (hkey : Registry.keyOf record.app record.id = k) :
    (s.enroll now origin incoming granted).slot.Regular k := by
  obtain ⟨hadmissible, -, hlease, hincoming⟩ := accept_eq_ok_iff.mp haccept
  obtain ⟨happ, hid, -⟩ := Instance.check_eq_ok_iff.mp hadmissible
  obtain ⟨hleast, hmost⟩ := bounds_of_checkLease hlease
  have hfiled : (s.enrolled now origin incoming).2.2.key = k :=
    (key_settle ..).trans (hs.key_chosen ((Registry.accept_key haccept).trans hkey))
  subst hkey
  rintro _ ⟨⟩
  rw [leaseFor_eq]
  refine ⟨hfiled, Text.upper_upper _, happ, hid, rfl, hleast, hmost, rfl, ?_,
    fun hup => upSince_ne_zero hup hnow⟩
  change some (if s.held.isSome then ChangeKind.modified else .added) = _ ∨ _
  split
  · exact .inr rfl
  · exact .inl rfl

theorem Regular.renew (h : s.Regular k) (origin : Origin) (dirtyAt : Option Millis) :
    (s.renew now origin dirtyAt).slot.Regular k := by
  unfold Slot.renew
  split
  · exact h
  · rename_i l hheld
    have hl := h l (Option.eq_some_of_filter_eq_some hheld)
    rintro _ ⟨⟩
    exact { hl with touched := rfl }

theorem Regular.withdraw (h : s.Regular k) (test : Lease Instance → Bool) :
    (s.withdraw now test).slot.Regular k := by
  unfold Slot.withdraw
  split
  · exact h
  · rintro _ ⟨⟩

theorem Regular.changeStatus (h : s.Regular k) (hnow : now ≠ 0) (dirtyAt : Option Millis)
    {change : StatusChange}
    (hchange : Consistent change) : (s.changeStatus now dirtyAt change).slot.Regular k := by
  unfold Slot.changeStatus
  split
  · exact h
  rename_i l hheld
  have hl := h l (Option.eq_some_of_filter_eq_some hheld)
  split
  · exact h
  split
  · exact h
  · rename_i override changed hp
    obtain ⟨hkey, -, -⟩ := hchange _ _ _ hp
    rintro _ ⟨⟩
    rw [relabel_eq]
    exact { hl with
      filed := hkey.trans hl.filed
      lastChange := .inr rfl
      upSince := fun hup => upSince_ne_zero hup hnow }

theorem Regular.move {c : Command} (h : s.Regular c.key) (hs : s.Sound c.key) (hnow : now ≠ 0) :
    (s.move now c).slot.Regular c.key := by
  cases c with
  | register origin record duration =>
    simp only [Slot.move]
    split
    · exact h
    · rename_i haccept
      exact hs.regular_enroll hnow haccept rfl
  | renew origin app id dirtyAt => exact h.renew origin dirtyAt
  | cancel origin app id => exact h.withdraw _
  | evict seen app id grace => exact h.withdraw _
  | updateStatus origin app id status dirtyAt =>
    exact h.changeStatus hnow dirtyAt (consistent_impose status)
  | deleteOverride origin app id status dirtyAt =>
    exact h.changeStatus hnow dirtyAt (consistent_release status)

end Slot

def ChangeLog.newest? (l : ChangeLog) (k : Key) : Option Change :=
  (l.entries.filter (·.record.key = k)).getLast?

theorem Records.replay_eq (f : Records) (changes : List Change) (k : Key) :
    f.replay changes k =
      match (changes.filter (·.record.key = k)).getLast? with
      | some c => if c.kind = .deleted then none else some c.record
      | none => f k := by
  induction changes generalizing f with
  | nil => rfl
  | cons c rest ih =>
    rw [show f.replay (c :: rest) = (f.apply c).replay rest from rfl, ih, apply]
    by_cases hk : c.record.key = k
    · rw [List.filter_cons_of_pos (by simpa using hk), List.getLast?_cons]
      cases (rest.filter (·.record.key = k)).getLast? <;> simp [hk]
    · simp [hk]

namespace Registry

variable {r : Registry}

theorem Traced.record_of_newest {history : List Change} (h : r.Traced history) {k : Key}
    {c : Change} (hc : r.log.newest? k = some c) {l : Lease Instance} (hl : r.stored? k = some l) :
    c.record = l.holder := by
  have hnewest : (history.filter (·.record.key = k)).getLast? = some c := by
    rw [ChangeLog.newest?, h.tracks.entries] at hc
    rw [← List.take_append_drop r.log.floor history, List.filter_append, List.getLast?_append, hc]
    rfl
  have hrecord : r.records k = some l.holder := by
    rw [Registry.records, hl]
    rfl
  rw [h.records, Records.replay_eq, hnewest] at hrecord
  simp only at hrecord
  split at hrecord
  · cases hrecord
  · exact Option.some.inj hrecord

/-- Registries that arise from an empty one while the clock does not read zero. -/
inductive Timely : Registry → Prop where
  | start (settings : RegistrySettings) (now : Millis) : Timely (.start settings now)
  | perform {r : Registry} {now : Millis} (hnow : now ≠ 0) (c : Command) :
    Timely r → Timely (r.perform now c).registry
  | receiveAll {r : Registry} {now : Millis} (hnow : now ≠ 0) (items : List Item) :
    Timely r → Timely (r.receiveAll now items).registry
  | adopt {r : Registry} {now : Millis} (hnow : now ≠ 0) {record : Instance} {lease : Option UInt64}
    {s : Response Unit} (h : r.adopt now record lease = .ok s) : Timely r → Timely s.registry
  | takeDirty {r : Registry} : Timely r → Timely r.takeDirty.2
  | prune {r : Registry} : Timely r → Timely r.prune.2
  | purge {r : Registry} (now : Millis) : Timely r → Timely (r.purge now).2
  | rotate {r : Registry} : Timely r → Timely { r with renewals := r.renewals.rotate }

def Regular (r : Registry) : Prop := ∀ k, (r.slot k).Regular k

theorem Regular.perform (h : r.Regular) (hr : r.Sound) {now : Millis} (hnow : now ≠ 0)
    (c : Command) : (r.perform now c).registry.Regular := by
  intro k
  rw [hr.slot_perform now c k]
  split
  · rename_i hk
    subst hk
    exact (h c.key).move (hr c.key) hnow
  · exact h k

theorem Timely.regular (h : r.Timely) : r.Reachable ∧ r.Regular := by
  have hperform {r : Registry} {now : Millis} (hnow : now ≠ 0) (c : Command)
      (h : r.Reachable ∧ r.Regular) :
      (r.perform now c).registry.Reachable ∧ (r.perform now c).registry.Regular :=
    ⟨.perform now c h.1, h.2.perform h.1.sound hnow c⟩
  induction h with
  | start settings now => exact ⟨.start settings now, fun _ _ h => nomatch h⟩
  | perform hnow c _ ih => exact hperform hnow c ih
  | receiveAll hnow items _ ih =>
    exact receiveAll_induction (P := fun r => r.Reachable ∧ r.Regular) (hperform hnow) items ih
  | adopt hnow hadopt _ ih =>
    obtain ⟨duration, hregistry⟩ := adopt_registry _ _ _ _ hadopt
    rw [hregistry]
    exact hperform hnow _ ih
  | takeDirty _ ih => exact ⟨ih.1.takeDirty, ih.2⟩
  | prune _ ih =>
    refine ⟨ih.1.prune, fun k => ?_⟩
    rw [slot_prune]
    exact ih.2 k
  | purge now _ ih => exact ⟨ih.1.purge now, ih.2⟩
  | rotate _ ih => exact ⟨ih.1.rotate, ih.2⟩

/-- Every stored lease is regular and holds the record that the newest entry about it shows, and
statuses are imposed on held instances only. -/
theorem Timely.represents (h : r.Timely) :
    (∀ k l, r.stored? k = some l →
      l.Regular k ∧ ∀ c, r.log.newest? k = some c → c.record = l.holder) ∧
    ∀ k ∈ r.overrides.keys, (r.held? k).isSome := by
  obtain ⟨hreachable, hregular⟩ := h.regular
  obtain ⟨history, hhistory⟩ := hreachable.traced
  refine ⟨fun k l hl => ⟨hregular k l hl, fun c hc => hhistory.record_of_newest hc hl⟩, ?_⟩
  intro k hk
  obtain ⟨⟨_, s⟩, hmem, rfl⟩ := List.mem_map.mp hk
  have hoverride := (r.overrides.get?_eq_some_iff _ s).mpr hmem
  obtain ⟨l, hl, -⟩ := (hreachable.sound _).of_override hoverride
  rw [hreachable.sound.held?_eq_stored?, Option.isSome_iff_exists]
  exact ⟨l, hl⟩

/-- A client's instance whose status a peer imposes. -/
theorem represents_imposed :
    let item : Item :=
      { operation := .statusUpdate, app := "web", id := "web-1", status := some .down, dirtyAt := 5
        time := 4 }
    let r := ((Registry.start {} 1).perform 2
      (.register .client (.named "web" "web-1" "host" 80) none)).registry
    let s := (r.receiveAll 4 [item]).registry
    let k := ("WEB", "web-1")
    s.Timely ∧ (∃ l, s.stored? k = some l ∧ l.Regular k ∧
      ∃ c, s.log.newest? k = some c ∧ c.record = l.holder) ∧
      k ∈ s.overrides.keys ∧ (s.held? k).isSome := by
  intro item r s k
  have hs : s.Timely := .receiveAll (by decide) _ (.perform (by decide) _ (.start {} 1))
  have hstored : (s.stored? k).isSome := by decide +kernel
  have hnewest : (s.log.newest? k).isSome := by decide +kernel
  have hkeys : k ∈ s.overrides.keys := by decide +kernel
  obtain ⟨l, hl⟩ := Option.isSome_iff_exists.mp hstored
  obtain ⟨c, hc⟩ := Option.isSome_iff_exists.mp hnewest
  obtain ⟨hleases, hoverrides⟩ := hs.represents
  obtain ⟨hregular, hrecord⟩ := hleases k l hl
  exact ⟨hs, ⟨l, hl, hregular, c, hc, hrecord c hc⟩, hkeys, hoverrides k hkeys⟩

end Registry

end ServiceRegistry
