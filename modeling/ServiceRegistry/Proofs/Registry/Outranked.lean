import ServiceRegistry.Proofs.Registry.Stale

/-! # Registrations that come too late

A registration that is older than the held record is let in all the same: the newer record stays,
under a lease for the duration that the older one asked for, and is settled once more by the origin
of the older one. `Reachable.register_outranked` says what of the winner is left by that.
-/

namespace ServiceRegistry

set_option autoImplicit false

/-- What is left of a lease and its override once a registration has lost to its record. -/
structure Lease.Outlasts (l l' : Lease Instance) (override override' : Option Status)
    (now : Millis) (origin : Origin) (granted : UInt64) : Prop where
  duration : l'.duration = granted
  upSince : l'.upSince = l.upSince ↔ ¬ (l.holder.status = .up ∧ l.upSince = 0 ∧ now ≠ 0)
  content : l'.holder.content = l.holder.content ↔
    ¬ (origin = .peer ∧ l.holder.overridden = some .unknown)
  override : override' = override ↔ ¬ (origin = .peer ∧ override = some .unknown)

namespace Slot

variable {k : Key} {s : Slot} {l : Lease Instance} {override : Option Status} {x : Instance}
  {now : Millis}

theorem settle_client_of_agrees (h : Agrees override x) :
    settle override .client x = (override, x) := by
  rcases h with ⟨rfl, hstatus⟩ | ⟨rfl, hunknown⟩
  · cases hoverridden : x.overridden with
    | none =>
      have himposed : Registry.imposed x = none := by
        rw [Registry.imposed, hoverridden]
        rfl
      simp only [settle, himposed]
    | some s =>
      have hsame : { x with overridden := some s, status := s } = x := by
        rw [← hoverridden, ← hstatus s hoverridden]
      simp only [settle, hsame]
  · have himposed : Registry.imposed x = none := by
      rw [Registry.imposed, hunknown]
      rfl
    simp only [settle, himposed]

theorem settle_peer_fst (override : Option Status) (x : Instance) :
    (settle override .peer x).1 = Registry.imposed x := by
  cases himposed : Registry.imposed x <;> simp only [settle, himposed]

theorem imposed_eq_override_iff (h : Agrees override x) :
    Registry.imposed x = override ↔ override ≠ some .unknown := by
  rcases h with ⟨rfl, -⟩ | ⟨rfl, hunknown⟩
  · cases hoverridden : x.overridden with
    | none => simp [Registry.imposed, hoverridden]
    | some s => by_cases hs : s = .unknown <;> simp [Registry.imposed, hoverridden, hs]
  · rw [Registry.imposed, hunknown]
    exact iff_of_true rfl nofun

theorem settle_agreed (h : Agrees override x) (origin : Origin) :
    ((settle override origin x).1 = override ↔ ¬ (origin = .peer ∧ override = some .unknown)) ∧
      ((settle override origin x).2.content = x.content ↔
        ¬ (origin = .peer ∧ x.overridden = some .unknown)) ∧
      (settle override origin x).2.status = x.status := by
  cases origin with
  | client =>
    rw [settle_client_of_agrees h]
    simp
  | peer =>
    rw [settle_peer_fst, settle_peer_snd h]
    refine ⟨by simpa using imposed_eq_override_iff h, ?_, ?_⟩
    · split
      · rename_i hunknown
        simp [Instance.content, hunknown]
      · rename_i hknown
        simp [hknown]
    · split <;> rfl

theorem upSince_eq_iff {status : Status} {since : Millis} :
    (if status = .up ∧ since = 0 then now else since) = since ↔
      ¬ (status = .up ∧ since = 0 ∧ now ≠ 0) := by
  split
  · rename_i h
    obtain ⟨hup, rfl⟩ := h
    simp [hup]
  · rename_i h
    exact iff_of_true rfl fun hall => h ⟨hall.1, hall.2.1⟩

theorem Sound.outlasts_enroll (hs : s.Sound k) (hl : s.lease = some l) {incoming : Instance}
    (hstale : incoming.dirtyAt < l.holder.dirtyAt) (now : Millis) (origin : Origin) (d : UInt64) :
    ∃ l', (s.enroll now origin incoming d).slot.lease = some l' ∧
      l.Outlasts l' s.override (s.enroll now origin incoming d).slot.override now origin d := by
  have hchosen := hs.chosen_of_stale hl hstale
  have hsince : (s.held.map (·.upSince)).getD 0 = l.upSince := by
    rw [hs.held_eq_lease, hl]
    rfl
  obtain ⟨hoverride, hcontent, hstatus⟩ := settle_agreed (hs.tended hl).agrees origin
  rw [← hchosen] at hoverride hcontent hstatus
  refine ⟨_, rfl, ?_⟩
  rw [leaseFor_eq, hsince]
  constructor
  · rfl
  · have hup : (s.enrolled now origin incoming).2.2.status = l.holder.status :=
      hstatus.trans (congrArg Instance.status hchosen)
    rw [← hup]
    exact upSince_eq_iff
  · rw [← hchosen, ← hcontent]
    exact Iff.rfl
  · exact hoverride

end Slot

namespace Registry

variable {r : Registry} {x : Instance} {l : Lease Instance}

/-- A registration that is older than the held record is refused, or replaces the lease: the record
and the imposed status stay but for an override `unknown` that a peer's registration takes away,
and the duration is what the older registration asked for. -/
theorem Reachable.register_outranked (hr : r.Reachable) (hl : r.lease? x.app x.id = some l)
    (hdirty : x.dirtyAt ≠ 0) (hstale : x.dirtyAt < l.holder.dirtyAt) (now : Millis)
    (origin : Origin) (duration : Option UInt64) :
    let s := r.perform now (.register origin x duration)
    (∃ e, s.answer = .registered (.error e) ∧ s.registry = r) ∨
      s.answer = .registered (.ok ()) ∧ ∃ l', s.registry.lease? x.app x.id = some l' ∧
        l.Outlasts l' (r.override? x.app x.id) (s.registry.override? x.app x.id) now origin
          (grantedDuration duration x) := by
  intro s
  have hacts := perform_acts hr.sound.filed now (.register origin x duration)
  have hslot : s.registry.slot (keyOf x.app x.id) =
      ((r.slot (keyOf x.app x.id)).move now (.register origin x duration)).slot :=
    (hacts.slot _).trans (if_pos rfl)
  have hanswer : s.answer = _ := hacts.answer
  have hafter : s.registry.Sound := hr.sound.perform now _
  rw [hr.sound.lease?_eq_slot_lease] at hl
  rw [hafter.lease?_eq_slot_lease]
  simp only [Command.key, Slot.move] at hslot hanswer
  cases haccept : Slot.accept now x duration with
  | error e =>
    rw [haccept] at hanswer
    refine .inl ⟨e, hanswer, ?_⟩
    have hrefused : r.register now origin x duration = .error e := by
      rw [register_eq, haccept]
      rfl
    simp only [s, Registry.perform, hrefused]
  | ok p =>
    obtain ⟨incoming, granted⟩ := p
    obtain ⟨-, rfl, -, hincoming⟩ := Slot.accept_eq_ok_iff.mp haccept
    rw [haccept] at hanswer hslot
    have hlate : incoming.dirtyAt < l.holder.dirtyAt := by
      rw [hincoming, if_neg hdirty]
      exact hstale
    obtain ⟨l', hl', houtlasts⟩ := (hr.sound _).outlasts_enroll hl hlate now origin _
    rw [← hslot] at hl' houtlasts
    exact .inr ⟨hanswer, l', hl', houtlasts⟩

/-- A late registration of a peer shortens the lease and takes an override `unknown` away. -/
theorem register_outranked_shortens :
    let older := { Instance.named "WEB" "web-1" "host" 80 with dirtyAt := 100 }
    let registered := ((Registry.start {} 1).perform 2
      (.register .client { older with dirtyAt := 200 } none)).registry
    let r := (registered.perform 3
      (.updateStatus .client "WEB" "web-1" .unknown (some 300))).registry
    let after := (r.perform 4 (.register .peer older (some 30))).registry
    r.Reachable ∧ ∃ l, r.lease? "WEB" "web-1" = some l ∧ older.dirtyAt ≠ 0 ∧
      older.dirtyAt < l.holder.dirtyAt ∧ l.duration = 90 ∧
      ∃ l', after.lease? "WEB" "web-1" = some l' ∧ l'.duration = 30 ∧
        l'.holder.content ≠ l.holder.content ∧
        after.override? "WEB" "web-1" ≠ r.override? "WEB" "web-1" := by
  intro older registered r after
  have hr : r.Reachable := .perform 3 _ (.perform 2 _ (.start {} 1))
  have hlease : (r.lease? "WEB" "web-1").map
      (fun l => (l.holder.dirtyAt, l.duration, l.holder.overridden)) =
        some (300, 90, some .unknown) := by decide +kernel
  have hoverride : r.override? "WEB" "web-1" = some .unknown := by decide +kernel
  obtain ⟨l, hl, hheld⟩ := Option.map_eq_some_iff.mp hlease
  obtain ⟨hnewer, hrest⟩ := Prod.mk.inj hheld
  obtain ⟨hduration, hunknown⟩ := Prod.mk.inj hrest
  have hstale : older.dirtyAt < l.holder.dirtyAt := by
    rw [hnewer]
    decide
  refine ⟨hr, l, hl, by decide, hstale, hduration, ?_⟩
  rcases hr.register_outranked hl (by decide) hstale 4 .peer (some 30) with
    ⟨-, -, hrefused⟩ | ⟨-, l', hl', houtlasts⟩
  · have hversion : after.log.version ≠ r.log.version := by decide +kernel
    exact absurd (congrArg (·.log.version) hrefused) hversion
  · refine ⟨l', hl', houtlasts.duration.trans (by decide), ?_, ?_⟩
    · exact fun hsame => houtlasts.content.mp hsame ⟨rfl, hunknown⟩
    · exact fun hsame => houtlasts.override.mp hsame ⟨rfl, hoverride⟩

end Registry

end ServiceRegistry
