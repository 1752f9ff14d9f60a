import Mathlib.Data.List.Chain
import ServiceRegistry.Eviction.Controller
import ServiceRegistry.Proofs.Registry.Deeds

/-! # Runs of a registry

A run is a sequence of turns: commands, what peers send, and chores. The deeds of a run are the
commands that were carried out, whoever asked for them. What they logged, in order, is the history
of the registry that the run leads to. A batch of a peer is a run, and so is a cycle of eviction;
a cache or a node asks its registry for a run at a time.
-/

namespace ServiceRegistry

set_option autoImplicit false

namespace Registry

/-- One thing that a registry is asked to do, at some reading of the clock. -/
inductive Turn where
  | perform (now : Millis) (c : Command)
  | receive (now : Millis) (item : Replication.Item)
  | adopt (now : Millis) (record : Instance) (lease : Option UInt64)
  | takeDirty
  | prune
  | purge (now : Millis)
  | rotate

def step (r : Registry) : Turn → Registry
  | .perform now c => (r.perform now c).registry
  | .receive now item => (r.receive now item).registry
  | .adopt now record lease =>
    match r.adopt now record lease with
    | .ok s => s.registry
    | .error _ => r
  | .takeDirty => r.takeDirty.2
  | .prune => r.prune.2
  | .purge now => (r.purge now).2
  | .rotate => { r with renewals := r.renewals.rotate }

def deed? (r : Registry) : Turn → Option Deed
  | .perform now c => some ⟨r, now, c⟩
  | .receive now item => item.command?.map fun c => ⟨r, now, c⟩
  | .adopt now record lease =>
    let duration := ((r.lease? record.app record.id).map (·.duration)).or lease
    some ⟨r, now, .register .peer record duration⟩
  | .takeDirty | .prune | .purge _ | .rotate => none

def run (r : Registry) (turns : List Turn) : Registry := turns.foldl step r

def done (r : Registry) : List Turn → List Deed
  | [] => []
  | t :: rest => (r.deed? t).toList ++ done (r.step t) rest

def logged (r : Registry) (turns : List Turn) : List Change := (r.done turns).flatMap (·.changes)

/-- The registries that a run goes through, its first and its last one among them. -/
def Passes (r : Registry) (turns : List Turn) (s : Registry) : Prop :=
  ∃ before, before <+: turns ∧ r.run before = s

variable {r s : Registry} {t : Turn} {turns : List Turn} {history : List Change} {now : Millis}

structure Spares (r : Registry) (t : Turn) : Prop where
  slot : ∀ k, (r.step t).slot k = r.slot k
  settings : (r.step t).settings = r.settings
  dirty : t ≠ .takeDirty → (r.step t).dirty = r.dirty
  entries : (r.step t).log.entries <:+ r.log.entries
  reachable : r.Reachable → (r.step t).Reachable
  traced : ∀ history, r.Traced history → (r.step t).Traced history

theorem Spares.of_eq (h : r.step t = r) : Spares r t where
  slot _ := by rw [h]
  settings := by rw [h]
  dirty _ := by rw [h]
  entries := by simp only [h, List.suffix_rfl]
  reachable hr := by rwa [h]
  traced _ hr := by rwa [h]

theorem step_adopt (r : Registry) (now : Millis) (record : Instance) (lease : Option UInt64) :
    r.step (.adopt now record lease) =
      (r.perform now (.register .peer record
        (((r.lease? record.app record.id).map (·.duration)).or lease))).registry := by
  rw [step, adopt, perform]
  cases r.register now .peer record _ <;> rfl

/-- A turn is a deed, or spares the registrations. -/
theorem step_cases (r : Registry) (t : Turn) :
    (∃ d, r.deed? t = some d ∧ d.before = r ∧ r.step t = d.after) ∨
      r.deed? t = none ∧ Spares r t := by
  cases t with
  | perform now c => exact .inl ⟨_, rfl, rfl, rfl⟩
  | receive now item =>
    cases hc : item.command? with
    | none => exact .inr ⟨by rw [deed?, hc]; rfl, .of_eq (by rw [step, receive_registry, hc])⟩
    | some c => exact .inl ⟨_, by rw [deed?, hc]; rfl, rfl, by rw [step, receive_registry, hc]; rfl⟩
  | adopt now record lease => exact .inl ⟨_, rfl, rfl, step_adopt ..⟩
  | takeDirty =>
    exact .inr ⟨rfl, fun _ => rfl, rfl, absurd rfl, List.suffix_rfl, .takeDirty,
      fun _ => .takeDirty⟩
  | prune =>
    exact .inr ⟨rfl, slot_prune r, rfl, fun _ => rfl, List.suffix_rfl, .prune, fun _ => .prune⟩
  | purge now =>
    exact .inr ⟨rfl, fun _ => rfl, rfl, fun _ => rfl, List.drop_suffix .., .purge now,
      fun _ h => h.purge now⟩
  | rotate =>
    exact .inr ⟨rfl, fun _ => rfl, rfl, fun _ => rfl, List.suffix_rfl, .rotate, fun _ => .rotate⟩

/-- What a turn makes of a slot is a matter of this slot only. -/
theorem Sound.slot_step_congr {k : Key} (hr : r.Sound) (hs : s.Sound)
    (hslot : r.slot k = s.slot k) (t : Turn) : (r.step t).slot k = (s.step t).slot k := by
  have hperform (now : Millis) (c : Command) :
      (r.perform now c).registry.slot k = (s.perform now c).registry.slot k := by
    rw [hr.slot_perform, hs.slot_perform, hslot]
  cases t with
  | perform now c => exact hperform now c
  | receive now item =>
    rw [step, step, receive_registry, receive_registry]
    cases item.command? with
    | none => exact hslot
    | some c => exact hperform now c
  | adopt now record lease =>
    rw [step_adopt, step_adopt]
    by_cases hkey : keyOf record.app record.id = k
    · rw [hr.lease?_eq_slot_lease, hs.lease?_eq_slot_lease, hkey, hslot]
      exact hperform now _
    · rw [hr.slot_perform, hs.slot_perform]
      exact (if_neg hkey).trans (hslot.trans (if_neg hkey).symm)
  | prune => exact (slot_prune r k).trans (hslot.trans (slot_prune s k).symm)
  | takeDirty | purge | rotate => exact hslot

theorem Reachable.step (hr : r.Reachable) (t : Turn) : (r.step t).Reachable := by
  rcases r.step_cases t with ⟨d, -, rfl, hstep⟩ | ⟨-, hspares⟩
  · rw [hstep]
    exact .perform d.now d.command hr
  · exact hspares.reachable hr

theorem Reachable.settings_step (hr : r.Reachable) (t : Turn) :
    (r.step t).settings = r.settings := by
  rcases r.step_cases t with ⟨d, -, rfl, hstep⟩ | ⟨-, hspares⟩
  · rw [hstep]
    exact (perform_acts hr.sound.filed d.now d.command).settings
  · exact hspares.settings

theorem Reachable.traced_step (hr : r.Reachable) (h : r.Traced history) (t : Turn) :
    (r.step t).Traced (history ++ (r.deed? t).toList.flatMap (·.changes)) := by
  rcases r.step_cases t with ⟨d, hdeed, rfl, hstep⟩ | ⟨hdeed, hspares⟩
  · rw [hdeed, hstep, Option.toList_some, List.flatMap_singleton]
    exact Deed.traced_after hr h
  · rw [hdeed, Option.toList_none, List.flatMap_nil, List.append_nil]
    exact hspares.traced history h

theorem Reachable.dirty_step (hr : r.Reachable) (ht : t ≠ .takeDirty) :
    (r.step t).dirty = (r.dirty || !((r.deed? t).toList.flatMap (·.changes)).isEmpty) := by
  rcases r.step_cases t with ⟨d, hdeed, rfl, hstep⟩ | ⟨hdeed, hspares⟩
  · rw [hdeed, hstep, Option.toList_some, List.flatMap_singleton]
    exact Deed.dirty_after hr
  · rw [hdeed, hspares.dirty ht]
    exact (Bool.or_false _).symm

theorem run_append (r : Registry) (turns more : List Turn) :
    r.run (turns ++ more) = (r.run turns).run more := List.foldl_append ..

theorem done_append (r : Registry) (turns more : List Turn) :
    r.done (turns ++ more) = r.done turns ++ (r.run turns).done more := by
  induction turns generalizing r with
  | nil => rfl
  | cons t rest ih =>
    rw [List.cons_append, done, done, ih, List.append_assoc]
    rfl

theorem done_singleton (r : Registry) (t : Turn) : r.done [t] = (r.deed? t).toList :=
  List.append_nil _

theorem logged_cons (r : Registry) (t : Turn) (rest : List Turn) :
    r.logged (t :: rest) = (r.deed? t).toList.flatMap (·.changes) ++ (r.step t).logged rest :=
  List.flatMap_append

theorem logged_append (r : Registry) (turns more : List Turn) :
    r.logged (turns ++ more) = r.logged turns ++ (r.run turns).logged more := by
  rw [logged, done_append, List.flatMap_append]
  rfl

theorem Reachable.run (hr : r.Reachable) (turns : List Turn) : (r.run turns).Reachable :=
  List.foldlRecOn turns Registry.step hr fun _ hr t _ => hr.step t

theorem Reachable.done (hr : r.Reachable) {d : Deed} (hd : d ∈ r.done turns) :
    d.before.Reachable := by
  induction turns generalizing r with
  | nil => cases hd
  | cons t rest ih =>
    rcases List.mem_append.mp hd with hd | hd
    · rcases r.step_cases t with ⟨d', hdeed, rfl, -⟩ | ⟨hdeed, -⟩
      · rw [hdeed, Option.toList_some, List.mem_singleton] at hd
        rwa [hd]
      · rw [hdeed] at hd
        cases hd
    · exact ih (hr.step t) hd

theorem Reachable.settings_run (hr : r.Reachable) (turns : List Turn) :
    (r.run turns).settings = r.settings := by
  induction turns generalizing r with
  | nil => rfl
  | cons t rest ih => exact (ih (hr.step t)).trans (hr.settings_step t)

theorem Reachable.traced_run (hr : r.Reachable) (h : r.Traced history) (turns : List Turn) :
    (r.run turns).Traced (history ++ r.logged turns) := by
  induction turns generalizing r history with
  | nil =>
    rw [logged, Registry.done, List.flatMap_nil, List.append_nil]
    exact h
  | cons t rest ih =>
    rw [logged_cons, ← List.append_assoc]
    exact ih (hr.step t) (hr.traced_step h t)

theorem Reachable.dirty_run (hr : r.Reachable) (hturns : ∀ t ∈ turns, t ≠ .takeDirty) :
    (r.run turns).dirty = (r.dirty || !(r.logged turns).isEmpty) := by
  induction turns generalizing r with
  | nil => exact (Bool.or_false _).symm
  | cons t rest ih =>
    obtain ⟨ht, hrest⟩ := List.forall_mem_cons.mp hturns
    refine (ih (hr.step t) hrest).trans ?_
    rw [hr.dirty_step ht, logged_cons, Bool.or_assoc]
    cases (r.deed? t).toList.flatMap (·.changes) <;> simp

theorem traced_of_passes {settings : RegistrySettings} {startedAt : Millis} {turns : List Turn}
    (hs : (start settings startedAt).Passes turns s) :
    s.Reachable ∧ s.Traced (((start settings startedAt).logged turns).take s.log.version) := by
  obtain ⟨before, ⟨after, rfl⟩, rfl⟩ := hs
  have hr := Reachable.start settings startedAt
  have htraced := hr.traced_run ⟨.start _, rfl⟩ before
  rw [List.nil_append] at htraced
  refine ⟨hr.run before, ?_⟩
  rw [logged_append, htraced.tracks.version, List.take_left]
  exact htraced

def Turn.reading? : Turn → Option Millis
  | .perform now _ | .receive now _ | .adopt now _ _ | .purge now => some now
  | .takeDirty | .prune | .rotate => none

/-- The clock, which read `now`, does not go back in these turns. -/
def Steady (now : Millis) (turns : List Turn) : Prop :=
  (now :: turns.filterMap Turn.reading?).IsChain (· ≤ ·)

instance (now : Millis) (turns : List Turn) : Decidable (Steady now turns) :=
  inferInstanceAs (Decidable (List.IsChain _ _))

theorem steady_cons (h : Steady now (t :: turns)) :
    now ≤ t.reading?.getD now ∧ Steady (t.reading?.getD now) turns := by
  cases hreading : t.reading? with
  | none =>
    rw [Steady, List.filterMap_cons, hreading] at h
    exact ⟨Int64.le_refl now, h⟩
  | some later =>
    rw [Steady, List.filterMap_cons, hreading] at h
    exact List.isChain_cons_cons.mp h

theorem reading?_of_deed? {d : Deed} (h : r.deed? t = some d) : t.reading? = some d.now := by
  cases t with
  | perform now c => exact Option.some.inj h ▸ rfl
  | receive now item =>
    obtain ⟨c, -, rfl⟩ := Option.map_eq_some_iff.mp h
    rfl
  | adopt now record lease => exact Option.some.inj h ▸ rfl
  | takeDirty | prune | purge | rotate => cases h

theorem Reachable.dated_step (hr : r.Reachable) (h : r.log.Dated now)
    (hle : now ≤ t.reading?.getD now) : (r.step t).log.Dated (t.reading?.getD now) := by
  rcases r.step_cases t with ⟨d, hdeed, rfl, hstep⟩ | ⟨-, hspares⟩
  · rw [reading?_of_deed? hdeed] at hle ⊢
    rw [hstep, show d.after.log = _ from (perform_acts hr.sound.filed d.now d.command).log]
    unfold Move.logged
    split
    · exact (h.wait hle).append _ _
    · exact h.wait hle
  · exact (h.wait hle).of_suffix hspares.entries

theorem Reachable.dated_run (hr : r.Reachable) (h : r.log.Dated now) (hsteady : Steady now turns) :
    ∃ last, (r.run turns).log.Dated last := by
  induction turns generalizing r now with
  | nil => exact ⟨now, h⟩
  | cons t rest ih =>
    obtain ⟨hle, hrest⟩ := steady_cons hsteady
    exact ih (hr.step t) (hr.dated_step h hle) hrest

theorem announced_told_deeds {deeds : List Deed} (hdeeds : ∀ d ∈ deeds, d.before.Reachable) :
    (deeds.flatMap (·.told)).filterMap Event.announced? =
      (deeds.flatMap (·.changes)).map .ofChange := by
  induction deeds with
  | nil => rfl
  | cons d rest ih =>
    obtain ⟨hd, hrest⟩ := List.forall_mem_cons.mp hdeeds
    rw [List.flatMap_cons, List.flatMap_cons, List.filterMap_append, List.map_append, ih hrest,
      Deed.announced_told hd]

def deedEffects (deeds : List Deed) : List Effect := deeds.flatMap (·.response.effects)

theorem eventsOf_deedEffects (deeds : List Deed) :
    eventsOf (deedEffects deeds) = deeds.flatMap (·.told) := List.filterMap_flatMap ..

theorem receive_effects (r : Registry) (now : Millis) (i : Replication.Item) :
    (r.receive now i).effects =
      match i.command? with
      | some c => (r.perform now c).effects
      | none => [] := by
  unfold receive Replication.Item.command?
  cases i.operation with
  | register =>
    cases i.record with
    | none => rfl
    | some record =>
      simp only [Option.map_some, perform]
      cases r.register now .peer record i.lease <;> rfl
  | statusUpdate => cases i.status <;> rfl
  | heartbeat | cancel | deleteStatusOverride => rfl

theorem deedEffects_receive (r : Registry) (now : Millis) (i : Replication.Item) :
    deedEffects (r.deed? (.receive now i)).toList = (r.receive now i).effects := by
  rw [receive_effects, deed?]
  cases i.command? with
  | none => rfl
  | some c => exact List.append_nil _

/-- A batch of a peer is a run, item by item. -/
theorem receiveAll_eq (r : Registry) (now : Millis) (items : List Replication.Item) :
    (r.receiveAll now items).registry = r.run (items.map (.receive now)) ∧
      (r.receiveAll now items).effects = deedEffects (r.done (items.map (.receive now))) := by
  induction items generalizing r with
  | nil => exact ⟨rfl, rfl⟩
  | cons i rest ih =>
    obtain ⟨hregistry, heffects⟩ := ih (r.receive now i).registry
    refine ⟨hregistry, ?_⟩
    rw [List.map_cons, Registry.done, deedEffects, List.flatMap_append]
    exact congrArg₂ (· ++ ·) (deedEffects_receive ..).symm heffects

end Registry

namespace EvictionController

open Registry

def evictions (now : Millis) (grace : Int) (keys : List Key) : List Turn :=
  keys.map fun k => .perform now (.evict now k.1 k.2 grace)

theorem evictAll_eq (r : Registry) (now : Millis) (grace : Int) (keys : List Key) :
    (evictAll r now grace keys).registry = r.run (evictions now grace keys) ∧
      (evictAll r now grace keys).effects = deedEffects (r.done (evictions now grace keys)) := by
  induction keys generalizing r with
  | nil => exact ⟨rfl, rfl⟩
  | cons k rest ih =>
    obtain ⟨hregistry, heffects⟩ := ih (r.evict now now k.1 k.2 grace).registry
    simp only [evictAll, hregistry, heffects]
    exact ⟨rfl, rfl⟩

def chosen (c : EvictionController) (r : Registry) (now : Millis) (isolated : Bool)
    (choose : Choice) : List Key :=
  let status := c.preservation.evaluate ⟨now, r.instanceCount, r.renewals.last, isolated⟩
  let expired := r.expired now.toInt (c.compensation now)
  let cap := evictionCap r.instanceCount c.settings.capFraction
  if ¬ status.evictionAllowed then [] else if cap < expired.length then choose cap expired
  else expired

def turns (c : EvictionController) (r : Registry) (now : Millis) (isolated : Bool)
    (choose : Choice) : List Turn :=
  evictions now (c.compensation now) (c.chosen r now isolated choose) ++ [.prune]

variable {c : EvictionController} {r : Registry} {now : Millis} {isolated : Bool} {choose : Choice}

theorem run_registry :
    (c.run r now isolated choose).2.registry =
      (evictAll r now (c.compensation now) (c.chosen r now isolated choose)).registry.prune.2 := rfl

theorem run_registry_eq :
    (c.run r now isolated choose).2.registry = r.run (c.turns r now isolated choose) := by
  rw [turns, run_append, ← (evictAll_eq r now (c.compensation now) _).1]
  rfl

theorem done_turns :
    r.done (c.turns r now isolated choose) =
      r.done (evictions now (c.compensation now) (c.chosen r now isolated choose)) := by
  rw [turns, done_append, done_singleton]
  exact List.append_nil _

theorem chosen_eq_nil (h : (c.run r now isolated choose).2.answer.mode ≠ .normal) :
    c.chosen r now isolated choose = [] := if_pos fun hallowed => h (eq_of_beq hallowed)

theorem run_effects :
    (c.run r now isolated choose).2.effects =
      modeEffects c.status (c.run r now isolated choose).1.status ++
        (evictAll r now (c.compensation now) (c.chosen r now isolated choose)).effects ++
        [.emit (.evictionCycle (c.run r now isolated choose).2.answer.expired
          (c.run r now isolated choose).2.answer.evicted
          ((c.run r now isolated choose).2.answer.mode ≠ .normal))] := rfl

theorem shipped_run_eq :
    shipped (c.run r now isolated choose).2.effects =
      shipped (evictAll r now (c.compensation now) (c.chosen r now isolated choose)).effects := by
  have hmode (before after : PreservationStatus) : shipped (modeEffects before after) = [] := by
    unfold modeEffects
    split <;> rfl
  rw [run_effects, shipped, List.filterMap_append, List.filterMap_append]
  exact (List.append_nil _).trans (congrArg (· ++ _) (hmode ..))

end EvictionController

end ServiceRegistry
