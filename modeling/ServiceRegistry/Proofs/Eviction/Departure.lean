import ServiceRegistry.Proofs.Registry.Admission
import ServiceRegistry.Proofs.Registry.Runs

/-! # How instances leave

A registry whose expired leases one controller evicts, over whole runs. What a lease says of its
last renewal and of its length is what the run says: `Attested` relates the two. So an instance
that is not cancelled leaves only when it was silent for the time that its last registration
granted, and for the time by which the cycle was late.
-/

namespace ServiceRegistry

set_option autoImplicit false

/-- Two to the power of 62. Readings below it lie less than the greatest time apart. -/
def Millis.horizon : Int := 0x4000000000000000

def Millis.Usual (t : Millis) : Prop := 0 ≤ t.toInt ∧ t.toInt < horizon

instance (t : Millis) : Decidable t.Usual :=
  inferInstanceAs (Decidable (0 ≤ t.toInt ∧ t.toInt < Millis.horizon))

inductive Occurrence where
  | turn (t : Registry.Turn)
  | cycle (now : Millis) (isolated : Bool) (choose : Choice)

structure Patrolled where
  registry : Registry
  controller : EvictionController

namespace Patrolled

def start (settings : RegistrySettings) (eviction : EvictionSettings) (startedAt : Millis) :
    Patrolled :=
  ⟨.start settings startedAt, .ofSettings eviction startedAt⟩

def step (p : Patrolled) : Occurrence → Patrolled
  | .turn t => { p with registry := p.registry.step t }
  | .cycle now isolated choose =>
    let outcome := p.controller.run p.registry now isolated choose
    { registry := outcome.2.registry, controller := outcome.1 }

def run (p : Patrolled) (history : List Occurrence) : Patrolled := history.foldl step p

/-- The last value that is read off an occurrence and the state it meets. -/
def last? {β : Type} (read : Patrolled → Occurrence → Option β) (p : Patrolled) :
    List Occurrence → Option β
  | [] => none
  | o :: rest => (last? read (p.step o) rest).or (read p o)

theorem last?_of_forall {β : Type} {P : β → Prop} {read : Patrolled → Occurrence → Option β}
    {history : List Occurrence} (h : ∀ o ∈ history, ∀ p b, read p o = some b → P b)
    {p : Patrolled} {b : β} (hb : last? read p history = some b) : P b := by
  induction history generalizing p with
  | nil => cases hb
  | cons o rest ih =>
    obtain ⟨ho, hrest⟩ := List.forall_mem_cons.mp h
    rcases Option.or_eq_some_iff.mp hb with hlater | ⟨-, hnow⟩
    · exact ih hrest hlater
    · exact ho p b hnow

end Patrolled

namespace Registry

/-- The duration that a command grants, if it is a registration that is let in. -/
def granted? (r : Registry) (now : Millis) : Command → Option UInt64
  | .register origin record duration =>
    match r.register now origin record duration with
    | .ok _ => some (grantedDuration duration record)
    | .error _ => none
  | _ => none

/-- The time of a command, if it is a registration that is let in or a heartbeat that finds its
lease. -/
def heard? (r : Registry) (now : Millis) : Command → Option Millis
  | .register origin record duration =>
    match r.register now origin record duration with
    | .ok _ => some now
    | .error _ => none
  | .renew _ app id _ => (r.lease? app id).map fun _ => now
  | _ => none

theorem eq_of_heard? {r : Registry} {now t : Millis} {c : Command} (h : r.heard? now c = some t) :
    t = now := by
  cases c with
  | register origin record duration =>
    simp only [heard?] at h
    split at h
    · exact (Option.some.inj h).symm
    · cases h
  | renew origin app id dirtyAt =>
    obtain ⟨-, -, rfl⟩ := Option.map_eq_some_iff.mp h
    rfl
  | _ => cases h

end Registry

namespace Occurrence

def heard? (k : Key) (p : Patrolled) : Occurrence → Option Millis
  | turn t => (p.registry.deed? t).bind fun d =>
    if d.command.key = k then p.registry.heard? d.now d.command else none
  | cycle .. => none

def granted? (k : Key) (p : Patrolled) : Occurrence → Option UInt64
  | turn t => (p.registry.deed? t).bind fun d =>
    if d.command.key = k then p.registry.granted? d.now d.command else none
  | cycle .. => none

/-- Evictions are left to the controller, and the clock reads a time within reason. -/
def Ordinary : Occurrence → Prop
  | turn (.perform now c) => c.evicts = false ∧ now.Usual
  | turn (.receive now _) | turn (.adopt now _ _) | cycle now _ _ => now.Usual
  | turn .takeDirty | turn .prune | turn (.purge _) | turn .rotate => True

instance (o : Occurrence) : Decidable o.Ordinary :=
  match o with
  | turn (.perform now c) => inferInstanceAs (Decidable (c.evicts = false ∧ now.Usual))
  | turn (.receive now _) | turn (.adopt now _ _) | cycle now _ _ =>
    inferInstanceAs (Decidable now.Usual)
  | turn .takeDirty | turn .prune | turn (.purge _) | turn .rotate =>
    inferInstanceAs (Decidable True)

end Occurrence

theorem Replication.Item.evicts_command? {i : Item} {c : Command} (h : i.command? = some c) :
    c.evicts = false := by
  unfold command? at h
  split at h
  case h_1 | h_4 =>
    obtain ⟨-, -, rfl⟩ := Option.map_eq_some_iff.mp h
    rfl
  case h_2 | h_3 | h_5 =>
    cases h
    rfl

theorem Occurrence.Ordinary.deed {t : Registry.Turn} (h : (turn t).Ordinary) {r : Registry}
    {d : Deed} (hd : r.deed? t = some d) : d.command.evicts = false ∧ d.now.Usual := by
  cases t with
  | perform now c =>
    cases hd
    exact h
  | receive now item =>
    obtain ⟨c, hc, rfl⟩ := Option.map_eq_some_iff.mp hd
    exact ⟨item.evicts_command? hc, h⟩
  | adopt now record lease =>
    cases hd
    exact ⟨rfl, h⟩
  | takeDirty | prune | purge | rotate => cases hd

theorem Millis.toInt_add_ofNat {t : Millis} {n : Nat} (hfits : t.toInt + n ≤ greatest) :
    (t + Int64.ofNat n).toInt = t.toInt + n := by
  have ht := t.le_toInt
  have hgreatest : greatest = 0x7FFFFFFFFFFFFFFF := rfl
  have hofNat : (Int64.ofNat n).toInt = (n : Int).bmod (2 ^ 64) := Int64.toInt_ofNat'
  rw [Int64.toInt_add, hofNat, Int.add_bmod_bmod, Int.bmod_eq_of_le (by omega) (by omega)]

theorem Millis.le_of_clamp_le {n m : Int} (h : Millis.clamp n ≤ m) (hm : m < Millis.greatest) :
    n ≤ m := by
  unfold Millis.clamp at h
  omega

theorem Millis.clamp_of_mem {n : Int} (hleast : Millis.least ≤ n)
    (hgreatest : n ≤ Millis.greatest) : Millis.clamp n = n := by
  unfold Millis.clamp
  omega

/-- Between readings that are not absurd, saturation does not bring the end of a lease forward. -/
theorem Lease.silent_of_isExpired {α : Type} {l : Lease α} {now : Millis} {grace : Int}
    (hlive : l.isEvicted = false) (hnow : now.Usual) (hrenewed : l.renewedAt.Usual)
    (h : l.isExpired now.toInt grace = true) :
    1000 * (l.duration.toNat : Int) + grace ≤ now.toInt - l.renewedAt.toInt := by
  obtain ⟨hnonneg, hnow⟩ := hnow
  obtain ⟨hsome, hrenewed⟩ := hrenewed
  have hleast : Millis.least = -0x8000000000000000 := rfl
  have hgreatest : Millis.greatest = 0x7FFFFFFFFFFFFFFF := rfl
  have hhorizon : Millis.horizon = 0x4000000000000000 := rfl
  simp only [isExpired, hlive, Bool.false_or, decide_eq_true_eq] at h
  rw [Millis.clamp_of_mem (n := now.toInt - l.renewedAt.toInt) (by omega) (by omega)] at h
  have hsum := Millis.le_of_clamp_le h (by omega)
  have hmillis :
      Millis.clamp l.duration.toNat * 1000 ≤ now.toInt - l.renewedAt.toInt - max grace 0 :=
    Millis.le_of_clamp_le (by rw [← Lease.millis]; omega) (by omega)
  have hduration :
      (l.duration.toNat : Int) ≤ (now.toInt - l.renewedAt.toInt - max grace 0) / 1000 :=
    Millis.le_of_clamp_le (by omega) (by omega)
  omega

namespace Slot

variable {s : Slot} {k : Key} {now : Millis} {c : Command}

/-- When the lease was last renewed, and for how long it is good. -/
def term (s : Slot) : Option (Millis × UInt64) := s.lease.map fun l => (l.renewedAt, l.duration)

theorem term_eq_none_iff : s.term = none ↔ s.lease = none := Option.map_eq_none_iff

theorem term_enroll (s : Slot) (now : Millis) (origin : Origin) (incoming : Instance)
    (duration : UInt64) :
    (s.enroll now origin incoming duration).slot.term = some (now, duration) := by
  have hlease : (s.enroll now origin incoming duration).slot.lease = some
      (Registry.leaseFor (s.enrolled now origin incoming).2.2 duration now
        ((s.held.map (·.upSince)).getD 0)) := rfl
  rw [term, hlease, leaseFor_eq]
  rfl

theorem Sound.term_renew (hs : s.Sound k) (now : Millis) (origin : Origin)
    (dirtyAt : Option Millis) :
    (s.renew now origin dirtyAt).slot.term = s.term.map fun t => (now, t.2) := by
  rw [Slot.renew, hs.held_eq_lease]
  cases h : s.lease with
  | none => simp [term, h]
  | some l => simp [term, h, Lease.renew]

theorem withdraw_slot (s : Slot) (now : Millis) (test : Lease Instance → Bool) :
    (s.withdraw now test).slot = s ∨
      (s.withdraw now test).slot = {} ∧ ∃ l, s.lease = some l ∧ test l = true := by
  unfold withdraw
  split
  · exact .inl rfl
  · rename_i l h
    exact .inr ⟨rfl, l, Option.filter_eq_some_iff.mp h⟩

theorem term_changeStatus (s : Slot) (now : Millis) (dirtyAt : Option Millis)
    (change : StatusChange) :
    (s.changeStatus now dirtyAt change).slot.term = s.term := by
  unfold changeStatus
  split
  · rfl
  rename_i l hheld
  split
  · rfl
  split
  · rfl
  · rw [show s.term = some (l.renewedAt, l.duration) from
      congrArg (Option.map _) (Option.eq_some_of_filter_eq_some hheld), term]
    simp only [relabel_eq]
    rfl

theorem Sound.lease_move_eq_none (hs : s.Sound c.key) (h : (s.move now c).slot.lease = none) :
    s.lease = none ∨ c.operation = .cancel := by
  rw [← term_eq_none_iff] at h ⊢
  cases c with
  | register origin record duration =>
    simp only [Slot.move] at h
    split at h
    · exact .inl h
    · rw [term_enroll] at h
      cases h
  | renew origin app id dirtyAt =>
    rw [Slot.move, hs.term_renew, Option.map_eq_none_iff] at h
    exact .inl h
  | cancel origin app id => exact .inr rfl
  | evict seen app id grace => exact .inr rfl
  | updateStatus origin app id status dirtyAt =>
    rw [Slot.move, term_changeStatus] at h
    exact .inl h
  | deleteOverride origin app id status dirtyAt =>
    rw [Slot.move, term_changeStatus] at h
    exact .inl h

end Slot

namespace Registry

variable {r : Registry} {now : Millis} {c : Command}

/-- After a command, a lease counts from the command if that was a sign of life, and is as long as
the command granted if it granted anything; else both are as before. -/
theorem Sound.term_perform (hr : r.Sound) {t : Millis × UInt64}
    (h : ((r.perform now c).registry.slot c.key).term = some t) :
    (r.heard? now c).or ((r.slot c.key).term.map (·.1)) = some t.1 ∧
      (r.granted? now c).or ((r.slot c.key).term.map (·.2)) = some t.2 := by
  have hs := hr c.key
  have hkept {s : Slot} (hs : s.term = some t) :
      s.term.map (·.1) = some t.1 ∧ s.term.map (·.2) = some t.2 := by
    rw [hs]
    exact ⟨rfl, rfl⟩
  have hwithdraw {s : Slot} (test : Lease Instance → Bool)
      (h : (s.withdraw now test).slot.term = some t) :
      s.term.map (·.1) = some t.1 ∧ s.term.map (·.2) = some t.2 := by
    rcases s.withdraw_slot now test with hunchanged | ⟨hempty, -⟩
    · exact hkept (hunchanged ▸ h)
    · rw [hempty] at h
      cases h
  rw [hr.slot_perform now c, if_pos rfl] at h
  cases c with
  | register origin record duration =>
    simp only [heard?, granted?, register_eq, Slot.move] at h ⊢
    split at h
    · rename_i haccept
      rw [haccept]
      exact hkept h
    · rename_i incoming granted haccept
      obtain ⟨-, hgranted, -⟩ := Slot.accept_eq_ok_iff.mp haccept
      rw [Slot.term_enroll] at h
      cases h
      rw [haccept]
      exact ⟨rfl, congrArg some hgranted.symm⟩
  | renew origin app id dirtyAt =>
    rw [Slot.move, hs.term_renew] at h
    obtain ⟨_, hterm, rfl⟩ := Option.map_eq_some_iff.mp h
    obtain ⟨l, hl, rfl⟩ := Option.map_eq_some_iff.mp hterm
    have hheard : r.heard? now (.renew origin app id dirtyAt) = some now := by
      rw [heard?, hr.lease?_eq_slot_lease]
      exact congrArg (Option.map fun _ => now) hl
    rw [hheard, hterm]
    exact ⟨rfl, rfl⟩
  | cancel origin app id => exact hwithdraw _ h
  | evict seen app id grace => exact hwithdraw _ h
  | updateStatus origin app id status dirtyAt => exact hkept (Slot.term_changeStatus .. ▸ h)
  | deleteOverride origin app id status dirtyAt => exact hkept (Slot.term_changeStatus .. ▸ h)

theorem Sound.cancels_of_left (hr : r.Sound) {k : Key} (hbefore : r.stored? k ≠ none)
    (hafter : (r.perform now c).registry.stored? k = none) :
    c.key = k ∧ c.operation = .cancel := by
  rw [← slot_lease, hr.slot_perform now c] at hafter
  split at hafter
  · rename_i hk
    subst hk
    exact ⟨rfl, ((hr c.key).lease_move_eq_none hafter).resolve_left hbefore⟩
  · exact absurd hafter hbefore

end Registry

theorem PreservationSettings.evaluate_mode_eq_normal_iff (s : PreservationSettings)
    (o : Observation) :
    (s.evaluate o).mode = .normal ↔ s.warmupUntil ≤ o.now.toInt ∧
      (s.enabled = true → o.isolated = false ∧
        renewalThreshold (expectedRenewals o.active s.renewalInterval.toNat) s.fraction ≤
          o.renewals) := by
  simp only [evaluate]
  split
  · rename_i hwarming
    exact iff_of_false nofun fun h => Int.not_lt.mpr h.1 hwarming
  rename_i hwarm
  rw [Int.not_lt] at hwarm
  split
  · rename_i hsuspended
    simp only [Bool.and_eq_true, Bool.or_eq_true, decide_eq_true_eq] at hsuspended
    refine iff_of_false nofun fun h => ?_
    obtain ⟨hpeers, hrenewals⟩ := h.2 hsuspended.1
    rcases hsuspended.2 with hisolated | hlow
    · exact nomatch hpeers.symm.trans hisolated
    · omega
  · rename_i hnormal
    simp only [Bool.and_eq_true, Bool.or_eq_true, decide_eq_true_eq, not_and, not_or,
      Bool.not_eq_true, Nat.not_lt] at hnormal
    exact iff_of_true rfl ⟨hwarm, hnormal⟩

namespace EvictionController

variable {r : Registry}

theorem slot_evictAll (hr : r.Sound) (now : Millis) (grace : Int) (keys : List Key) (k : Key) :
    (evictAll r now grace keys).registry.slot k = r.slot k ∨
      (evictAll r now grace keys).registry.slot k = {} ∧
        ∃ l, r.stored? k = some l ∧ l.isExpired now.toInt grace = true := by
  induction keys generalizing r with
  | nil => exact .inl rfl
  | cons key rest ih =>
    obtain ⟨app, id⟩ := key
    have hslot := hr.slot_perform now (.evict now app id grace) k
    have hfirst : (r.perform now (.evict now app id grace)).registry.slot k = r.slot k ∨
        (r.perform now (.evict now app id grace)).registry.slot k = {} ∧
          ∃ l, r.stored? k = some l ∧ l.isExpired now.toInt grace = true := by
      rw [hslot]
      split
      · exact Slot.withdraw_slot ..
      · exact .inl rfl
    rcases ih (hr.perform now (.evict now app id grace)) with hkept | ⟨hempty, l, hl, hexpired⟩
    · rcases hfirst with hfirst | ⟨hfirst, hexpired⟩
      · exact .inl (hkept.trans hfirst)
      · exact .inr ⟨hkept.trans hfirst, hexpired⟩
    · refine .inr ⟨hempty, l, ?_, hexpired⟩
      rcases hfirst with hfirst | ⟨hfirst, -⟩
      · rw [← Registry.slot_lease, ← hfirst]
        exact hl
      · rw [← Registry.slot_lease, hfirst] at hl
        cases hl

/-- A cycle takes the slots of expired instances at most, and none unless it may evict. -/
theorem slot_run (hr : r.Sound) (c : EvictionController) (now : Millis) (isolated : Bool)
    (choose : Choice) (k : Key) :
    (c.run r now isolated choose).2.registry.slot k = r.slot k ∨
      (c.run r now isolated choose).2.registry.slot k = {} ∧
        (c.run r now isolated choose).2.answer.mode = .normal ∧
        ∃ l, r.stored? k = some l ∧ l.isExpired now.toInt (c.compensation now) = true := by
  rw [run_registry, Registry.slot_prune]
  by_cases hmode : (c.run r now isolated choose).2.answer.mode = .normal
  · exact (slot_evictAll hr now (c.compensation now) _ k).imp_right
      fun ⟨hempty, hexpired⟩ => ⟨hempty, hmode, hexpired⟩
  · rw [chosen_eq_nil hmode]
    exact .inl rfl

end EvictionController

namespace Patrolled

variable {p : Patrolled} {heard : Key → Option Millis} {granted : Key → Option UInt64}

/-- Every lease counts from the last sign of life, and is as long as was granted last. -/
structure Attested (p : Patrolled) (heard : Key → Option Millis)
    (granted : Key → Option UInt64) : Prop where
  sound : p.registry.Sound
  heard : ∀ k t, (p.registry.slot k).term = some t → heard k = some t.1
  granted : ∀ k t, (p.registry.slot k).term = some t → granted k = some t.2

theorem attested_start (settings : RegistrySettings) (eviction : EvictionSettings)
    (startedAt : Millis) :
    (start settings eviction startedAt).Attested (fun _ => none) (fun _ => none) where
  sound k := .empty k
  heard _ _ h := by cases h
  granted _ _ h := by cases h

theorem Attested.of_slots (h : p.Attested heard granted) {q : Patrolled}
    (hslots : ∀ k, q.registry.slot k = p.registry.slot k ∨ q.registry.slot k = {}) :
    q.Attested heard granted := by
  have hterm {k : Key} {t : Millis × UInt64} (ht : (q.registry.slot k).term = some t) :
      (p.registry.slot k).term = some t := by
    rcases hslots k with hkept | hempty
    · rw [← hkept]
      exact ht
    · rw [hempty] at ht
      cases ht
  refine ⟨fun k => ?_, fun k t ht => h.heard k t (hterm ht), fun k t ht => h.granted k t (hterm ht)⟩
  rcases hslots k with hkept | hempty
  · rw [hkept]
    exact h.sound k
  · rw [hempty]
    exact .empty k

theorem or_of_term {β : Type} {s : Slot} {latest before : Option β} {f : Millis × UInt64 → β}
    {b : β} (hbefore : ∀ t, s.term = some t → before = some (f t))
    (h : latest.or (s.term.map f) = some b) : latest.or before = some b := by
  cases latest with
  | some a => exact h
  | none =>
    obtain ⟨t, ht, rfl⟩ := Option.map_eq_some_iff.mp h
    exact hbefore t ht

theorem Attested.deed (h : p.Attested heard granted) {t : Registry.Turn} {now : Millis}
    {c : Command} (hdeed : p.registry.deed? t = some ⟨p.registry, now, c⟩)
    (hstep : p.registry.step t = (p.registry.perform now c).registry) :
    (p.step (.turn t)).Attested (fun k => ((Occurrence.turn t).heard? k p).or (heard k))
      (fun k => ((Occurrence.turn t).granted? k p).or (granted k)) := by
  have hregistry : (p.step (.turn t)).registry = (p.registry.perform now c).registry := hstep
  have hterm {k : Key} {term : Millis × UInt64}
      (ht : ((p.registry.perform now c).registry.slot k).term = some term) :
      ((Occurrence.turn t).heard? k p).or (heard k) = some term.1 ∧
        ((Occurrence.turn t).granted? k p).or (granted k) = some term.2 := by
    rw [Occurrence.heard?, Occurrence.granted?, hdeed, Option.bind_some, Option.bind_some]
    by_cases hk : c.key = k
    · subst hk
      rw [if_pos rfl, if_pos rfl]
      obtain ⟨hheard, hgranted⟩ := h.sound.term_perform ht
      exact ⟨or_of_term (h.heard c.key) hheard, or_of_term (h.granted c.key) hgranted⟩
    · rw [h.sound.slot_perform now c, if_neg hk] at ht
      rw [if_neg hk, if_neg hk]
      exact ⟨h.heard k term ht, h.granted k term ht⟩
  rw [← hregistry] at hterm
  exact ⟨hregistry ▸ h.sound.perform now c, fun k t ht => (hterm ht).1,
    fun k t ht => (hterm ht).2⟩

theorem Attested.step (h : p.Attested heard granted) (o : Occurrence) :
    (p.step o).Attested (fun k => (o.heard? k p).or (heard k))
      (fun k => (o.granted? k p).or (granted k)) := by
  cases o with
  | turn t =>
    rcases p.registry.step_cases t with ⟨⟨_, now, c⟩, hdeed, rfl, hstep⟩ | ⟨hdeed, hspares⟩
    · exact h.deed hdeed hstep
    · simp only [Occurrence.heard?, Occurrence.granted?, hdeed]
      exact h.of_slots fun k => .inl (hspares.slot k)
  | cycle now isolated choose =>
    refine h.of_slots fun k => ?_
    exact (EvictionController.slot_run h.sound p.controller now isolated choose k).imp_right (·.1)

theorem Attested.run (h : p.Attested heard granted) (history : List Occurrence) :
    (p.run history).Attested (fun k => (last? (Occurrence.heard? k) p history).or (heard k))
      (fun k => (last? (Occurrence.granted? k) p history).or (granted k)) := by
  induction history generalizing p heard granted with
  | nil => exact h
  | cons o rest ih =>
    simp only [last?, Option.or_assoc]
    exact ih (h.step o)

theorem preservation_run (p : Patrolled) (history : List Occurrence) :
    (p.run history).controller.preservation = p.controller.preservation := by
  induction history generalizing p with
  | nil => rfl
  | cons o rest ih =>
    refine (ih (p.step o)).trans ?_
    cases o <;> rfl

theorem heard_ordinary {k : Key} {history : List Occurrence}
    (hhistory : ∀ o ∈ history, o.Ordinary) {since : Millis}
    (h : last? (Occurrence.heard? k) p history = some since) : since.Usual := by
  refine last?_of_forall (fun o ho q now hnow => ?_) h
  cases o with
  | turn t =>
    obtain ⟨d, hdeed, hheard⟩ := Option.bind_eq_some_iff.mp hnow
    split at hheard
    · rw [Registry.eq_of_heard? hheard]
      exact ((hhistory _ ho).deed hdeed).2
    · cases hheard
  | cycle => cases hnow

/-- When a cycle takes place, the warm-up is over, and neither the peers nor the renewals give cause
to mistrust the network. -/
structure Trusting (p : Patrolled) (eviction : EvictionSettings) (startedAt now : Millis)
    (isolated : Bool) : Prop where
  warm : startedAt + Int64.ofNat eviction.warmup ≤ now
  elapsed : startedAt.toInt + eviction.warmup ≤ Millis.greatest →
    startedAt.toInt + eviction.warmup ≤ now.toInt
  peers : eviction.selfPreservation = true → isolated = false
  renewals : eviction.selfPreservation = true →
    renewalThreshold (expectedRenewals p.registry.instanceCount eviction.renewalInterval.toNat)
      eviction.fraction ≤ p.registry.renewals.last

theorem trusting_of_mode {p : Patrolled} {eviction : EvictionSettings} {startedAt now : Millis}
    {isolated : Bool} {choose : Choice}
    (hsettings : p.controller.preservation =
      (EvictionController.ofSettings eviction startedAt).preservation)
    (hmode : (p.controller.run p.registry now isolated choose).2.answer.mode = .normal) :
    p.Trusting eviction startedAt now isolated := by
  obtain ⟨hwarm, htrust⟩ := (PreservationSettings.evaluate_mode_eq_normal_iff _ _).mp hmode
  rw [hsettings] at hwarm htrust
  refine ⟨Int64.le_iff_toInt_le.mpr hwarm, fun hfits => ?_, fun h => (htrust h).1,
    fun h => (htrust h).2⟩
  rwa [← Millis.toInt_add_ofNat hfits]

/-- An instance leaves by a cancellation, or in a cycle that may evict, once it was silent for as
long as its last registration granted and the cycle was late. -/
theorem leaves_cancelled_or_silent {settings : RegistrySettings} {eviction : EvictionSettings}
    {startedAt : Millis} {history : List Occurrence} {o : Occurrence} {k : Key}
    (hhistory : ∀ o ∈ history, o.Ordinary) (ho : o.Ordinary)
    (hbefore : (((start settings eviction startedAt).run history).registry.held? k).isSome)
    (hafter : (((start settings eviction startedAt).run history).step o).registry.held? k = none) :
    let first := start settings eviction startedAt
    let p := first.run history
    (∃ t d origin app id, o = .turn t ∧ p.registry.deed? t = some d ∧
        d.command = .cancel origin app id ∧ Registry.keyOf app id = k) ∨
      ∃ now isolated choose, o = .cycle now isolated choose ∧
        let report := (p.controller.run p.registry now isolated choose).2.answer
        report.mode = .normal ∧ p.Trusting eviction startedAt now isolated ∧
        ∃ since duration, last? (Occurrence.heard? k) first history = some since ∧
          last? (Occurrence.granted? k) first history = some duration ∧
          1000 * (duration.toNat : Int) + report.compensation ≤ now.toInt - since.toInt := by
  intro first p
  have hattested : p.Attested (fun k => (last? (Occurrence.heard? k) first history).or none)
      (fun k => (last? (Occurrence.granted? k) first history).or none) :=
    (attested_start settings eviction startedAt).run history
  simp only [Option.or_none] at hattested
  have hsound := hattested.sound
  rw [hsound.held?_eq_stored?] at hbefore
  rw [(hattested.step o).sound.held?_eq_stored?] at hafter
  obtain ⟨l, hl⟩ := Option.isSome_iff_exists.mp hbefore
  have hstored : p.registry.stored? k ≠ none := fun hnone => nomatch hl.symm.trans hnone
  have hleft : (p.step o).registry.slot k ≠ p.registry.slot k := fun hsame =>
    hstored ((congrArg Slot.lease hsame).symm.trans hafter)
  cases o with
  | turn t =>
    rcases p.registry.step_cases t with ⟨⟨_, now, c⟩, hdeed, rfl, hstep⟩ | ⟨-, hspares⟩
    · have hperformed : (p.registry.perform now c).registry.stored? k = none :=
        (congrArg (·.stored? k) hstep).symm.trans hafter
      obtain ⟨hkey, hcancel⟩ := hsound.cancels_of_left hstored hperformed
      cases c with
      | cancel origin app id => exact .inl ⟨t, _, origin, app, id, rfl, hdeed, rfl, hkey⟩
      | evict seen app id grace => exact nomatch (ho.deed hdeed).1
      | register | renew | updateStatus | deleteOverride => cases hcancel
    · exact absurd (hspares.slot k) hleft
  | cycle now isolated choose =>
    obtain ⟨-, hmode, l', hl', hexpired⟩ :=
      (EvictionController.slot_run hsound p.controller now isolated choose k).resolve_left hleft
    cases hl.symm.trans hl'
    have hterm : (p.registry.slot k).term = some (l.renewedAt, l.duration) :=
      congrArg (Option.map _) hl
    have hheard := hattested.heard k _ hterm
    have hsilent := Lease.silent_of_isExpired ((hsound k).tended hl).live ho
      (heard_ordinary hhistory hheard) hexpired
    exact .inr ⟨now, isolated, choose, rfl, hmode,
      trusting_of_mode (preservation_run first history) hmode, l.renewedAt, l.duration, hheard,
      hattested.granted k _ hterm, hsilent⟩

/-- A lease of ten seconds that a refused heartbeat still renews, and a cycle that is twenty seconds
late. -/
theorem leaves_silent_after_refused_heartbeat :
    let eviction : EvictionSettings := { selfPreservation := false }
    let k : Key := ("WEB", "web-1")
    let history : List Occurrence :=
      [.turn (.perform 1000 (.register .client (.named "WEB" "web-1" "host" 80) (some 10))),
        .turn (.perform 50000 (.renew .peer "WEB" "web-1" (some 2000))),
        .turn (.perform 60000 (.updateStatus .client "WEB" "web-1" .down none)),
        .cycle 61000 false .first]
    let late : Occurrence := .cycle 141000 false fun _ keys => keys
    let first := start {} eviction 1000
    let p := first.run history
    (∀ o ∈ history, o.Ordinary) ∧ late.Ordinary ∧ (p.registry.held? k).isSome ∧
      (p.step late).registry.held? k = none ∧
      ∃ since duration, last? (Occurrence.heard? k) first history = some since ∧
        last? (Occurrence.granted? k) first history = some duration ∧
        1000 * (duration.toNat : Int) + 20000 ≤ 141000 - since.toInt := by
  intro eviction k history late first p
  have hhistory : ∀ o ∈ history, o.Ordinary := by
    simp only [history, List.forall_mem_cons]
    exact ⟨by decide +kernel, by decide +kernel, by decide +kernel, by decide +kernel,
      List.forall_mem_nil _⟩
  have hlate : late.Ordinary := by decide +kernel
  have hbefore : (p.registry.held? k).isSome := by decide +kernel
  have hafter : (p.step late).registry.held? k = none := by
    simp only [late, step, EvictionController.run, ite_self]
    decide +kernel
  have hlateness : (p.controller.run p.registry 141000 false
      fun _ keys => keys).2.answer.compensation = 20000 := by
    decide +kernel
  refine ⟨hhistory, hlate, hbefore, hafter, ?_⟩
  rcases leaves_cancelled_or_silent hhistory hlate hbefore hafter with
    ⟨_, _, _, _, _, hturn, -⟩ |
      ⟨now, isolated, choose, hcycle, -, -, since, duration, hheard, hgranted, hsilent⟩
  · exact nomatch hturn
  · obtain ⟨rfl, rfl, rfl⟩ := Occurrence.cycle.inj hcycle
    rw [hlateness] at hsilent
    exact ⟨since, duration, hheard, hgranted, hsilent⟩

end Patrolled

end ServiceRegistry
