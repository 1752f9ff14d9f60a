import ServiceRegistry.Proofs.Eviction.Cycle
import ServiceRegistry.Proofs.Eviction.Departure

/-! # How long an eviction takes

A cycle may have to leave expired leases to later ones, but it takes at least one if there is any.
So the leases that are due are gone after as many cycles, unless their holders are heard of, and in
the meantime the cycles touch nothing else: `Patrolled.exact_and_cleared`.
-/

namespace ServiceRegistry

set_option autoImplicit false

namespace Lease

variable {α : Type} {l l' : Lease α} {now later grace : Int}

theorem isExpired_mono (hle : now ≤ later) (h : l.isExpired now grace = true) :
    l.isExpired later grace = true := by
  simp only [isExpired, Bool.or_eq_true, decide_eq_true_eq] at h ⊢
  refine h.imp_right fun h => Int.le_trans h ?_
  unfold Millis.clamp
  omega

theorem isExpired_congr (hevicted : l.isEvicted = l'.isEvicted)
    (hrenewed : l.renewedAt = l'.renewedAt) (hduration : l.duration = l'.duration) :
    l.isExpired now grace = l'.isExpired now grace := by
  unfold isExpired millis
  rw [hevicted, hrenewed, hduration]

end Lease

namespace Occurrence

def isCycle : Occurrence → Bool
  | cycle .. => true
  | _ => false

end Occurrence

namespace Patrolled

variable {p : Patrolled} {since : Millis} {due : List Key} {o : Occurrence}

def left (p : Patrolled) (due : List Key) : List Key :=
  due.filter fun k => (p.registry.stored? k).isSome

/-- The leases that are left had expired by the given time. -/
def Overdue (since : Millis) (due : List Key) (p : Patrolled) : Prop :=
  ∀ k ∈ due, ∀ l, p.registry.stored? k = some l → l.isExpired since.toInt 0 = true

/-- A cycle may evict and is not late, and all that has expired by then is due. -/
structure Clears (since : Millis) (due : List Key) (p : Patrolled) (now : Millis)
    (isolated : Bool) (choose : Choice) : Prop where
  samples : choose.Samples
  elapsed : since.toInt ≤ now.toInt
  mode : (p.controller.run p.registry now isolated choose).2.answer.mode = .normal
  compensation : (p.controller.run p.registry now isolated choose).2.answer.compensation = 0
  complete : ∀ k, p.registry.Lapsed now.toInt 0 k → k ∈ due

/-- Nothing is heard of the instances that are due, and any cycle clears them. -/
def Unheard (since : Millis) (due : List Key) (p : Patrolled) : Occurrence → Prop
  | .cycle now isolated choose => Clears since due p now isolated choose
  | o => ∀ k ∈ due, o.heard? k p = none

def Throughout (P : Patrolled → Occurrence → Prop) (p : Patrolled) : List Occurrence → Prop
  | [] => True
  | o :: rest => P p o ∧ Throughout P (p.step o) rest

theorem slot_step (hp : p.registry.Sound) (o : Occurrence) (k : Key) :
    (p.step o).registry.slot k = p.registry.slot k ∨ (p.step o).registry.slot k = {} ∨
      ∃ t now c, o = .turn t ∧ p.registry.deed? t = some ⟨p.registry, now, c⟩ ∧ c.key = k ∧
        (p.step o).registry = (p.registry.perform now c).registry := by
  cases o with
  | turn t =>
    rcases p.registry.step_cases t with ⟨⟨_, now, c⟩, hdeed, rfl, hstep⟩ | ⟨-, hspares⟩
    · by_cases hkey : c.key = k
      · exact .inr (.inr ⟨t, now, c, rfl, hdeed, hkey, hstep⟩)
      · refine .inl ?_
        rw [show (p.step (.turn t)).registry = _ from hstep]
        exact (hp.slot_perform now c k).trans (if_neg hkey)
    · exact .inl (hspares.slot k)
  | cycle now isolated choose =>
    exact (EvictionController.slot_run hp p.controller now isolated choose k).imp_right
      fun h => .inl h.1

theorem sound_step (hp : p.registry.Sound) (o : Occurrence) : (p.step o).registry.Sound := by
  intro k
  rcases slot_step hp o k with hkept | hempty | ⟨_, now, c, -, -, -, hstep⟩
  · exact hkept ▸ hp k
  · exact hempty ▸ .empty k
  · exact hstep ▸ hp.perform now c k

theorem sound_run (hp : p.registry.Sound) (history : List Occurrence) :
    (p.run history).registry.Sound :=
  List.foldlRecOn (motive := fun p => p.registry.Sound) history step hp
    fun _ hp o _ => sound_step hp o

end Patrolled

theorem Registry.granted?_of_heard? {r : Registry} {now : Millis} {c : Command}
    (h : r.heard? now c = none) : r.granted? now c = none := by
  cases c with
  | register origin record duration =>
    simp only [heard?, granted?] at h ⊢
    split at h
    · cases h
    · rfl
  | _ => rfl

namespace Patrolled

variable {p : Patrolled} {since : Millis} {due : List Key} {o : Occurrence}

theorem term_step (hp : p.registry.Sound) (ho : Unheard since due p o) {k : Key} (hk : k ∈ due)
    {t : Millis × UInt64} (ht : ((p.step o).registry.slot k).term = some t) :
    (p.registry.slot k).term = some t := by
  rcases slot_step hp o k with hkept | hempty | ⟨t', now, c, rfl, hdeed, rfl, hstep⟩
  · exact hkept ▸ ht
  · rw [hempty] at ht
    cases ht
  · have hheard : (Occurrence.turn t').heard? c.key p = none := ho c.key hk
    rw [Occurrence.heard?, hdeed, Option.bind_some, if_pos rfl] at hheard
    rw [hstep] at ht
    obtain ⟨hrenewed, hduration⟩ := hp.term_perform ht
    rw [hheard, Option.none_or] at hrenewed
    rw [Registry.granted?_of_heard? hheard, Option.none_or] at hduration
    obtain ⟨before, hbefore, hfirst⟩ := Option.map_eq_some_iff.mp hrenewed
    rw [hbefore, Option.map_some, Option.some.injEq] at hduration
    rw [hbefore]
    exact congrArg some (Prod.ext hfirst hduration)

theorem Overdue.step (h : Overdue since due p) (hp : p.registry.Sound)
    (ho : Unheard since due p o) : Overdue since due (p.step o) := by
  intro k hk l hl
  have hafter : ((p.step o).registry.slot k).term = some (l.renewedAt, l.duration) :=
    congrArg (Option.map _) hl
  obtain ⟨l', hl', hsame⟩ := Option.map_eq_some_iff.mp (term_step hp ho hk hafter)
  obtain ⟨hrenewed, hduration⟩ := Prod.mk.inj hsame
  have hlive := (((sound_step hp o) k).tended hl).live
  have hlive' := ((hp k).tended hl').live
  rw [← Lease.isExpired_congr (hlive'.trans hlive.symm) hrenewed hduration]
  exact h k hk l' hl'

theorem normal_of_disabled (hdisabled : p.controller.preservation.enabled = false) {now : Millis}
    (hwarm : p.controller.preservation.warmupUntil ≤ now.toInt) {isolated : Bool}
    {choose : Choice} :
    (p.controller.run p.registry now isolated choose).2.answer.mode = .normal := by
  refine (PreservationSettings.evaluate_mode_eq_normal_iff _ _).mpr ⟨hwarm, fun henabled => ?_⟩
  exact absurd henabled (Bool.eq_false_iff.mp hdisabled)

theorem left_step (hp : p.registry.Sound) (ho : Unheard since due p o) :
    (p.step o).left due = (p.left due).filter fun k => ((p.step o).registry.stored? k).isSome := by
  rw [left, left, List.filter_filter]
  refine List.filter_congr fun k hk => ?_
  refine (Bool.and_eq_left_iff_imp.mpr fun hafter => ?_).symm
  obtain ⟨l, hl⟩ := Option.isSome_iff_exists.mp hafter
  have hterm := term_step (t := (l.renewedAt, l.duration)) hp ho hk (congrArg (Option.map _) hl)
  obtain ⟨l', hl', -⟩ := Option.map_eq_some_iff.mp hterm
  exact Option.isSome_iff_exists.mpr ⟨l', hl'⟩

theorem exists_evicted (h : Overdue since due p) (hp : p.registry.Sound) {now : Millis}
    {isolated : Bool} {choose : Choice} (hclears : Clears since due p now isolated choose)
    (hleft : p.left due ≠ []) :
    ∃ k ∈ p.left due, (p.step (.cycle now isolated choose)).registry.stored? k = none := by
  obtain ⟨expired, removed, hexact⟩ :=
    EvictionController.exact_run hp p.controller now isolated hclears.samples
  have hmem (k : Key) : k ∈ expired ↔ p.registry.Lapsed now.toInt 0 k := by
    rw [hexact.found.mem_iff k, hclears.compensation]
  obtain ⟨k, hk⟩ := List.exists_mem_of_ne_nil _ hleft
  obtain ⟨hkdue, hstored⟩ := List.mem_filter.mp hk
  obtain ⟨l, hl⟩ := Option.isSome_iff_exists.mp hstored
  have hfound : k ∈ expired :=
    (hmem k).mpr ⟨l, hl, Lease.isExpired_mono hclears.elapsed (h k hkdue l hl)⟩
  have hsome : removed ≠ [] := by
    rw [← List.length_pos_iff, hexact.capped, if_pos hclears.mode]
    exact Nat.lt_min.mpr ⟨List.length_pos_of_mem hfound, hexact.cap_pos⟩
  -- What is removed need not be the lease that was found, but it has expired too.
  obtain ⟨k', hk'⟩ := List.exists_mem_of_ne_nil _ hsome
  have hlapsed := (hmem k').mp (hexact.sampled hk')
  refine ⟨k', List.mem_filter.mpr ⟨hclears.complete k' hlapsed, hlapsed.isSome⟩, ?_⟩
  exact congrArg Slot.lease ((hexact.removal.slot k').trans (if_pos hk'))

theorem length_left_step (h : Overdue since due p) (hp : p.registry.Sound)
    (ho : Unheard since due p o) :
    ((p.step o).left due).length ≤ (p.left due).length - if o.isCycle then 1 else 0 := by
  rw [left_step hp ho]
  cases o with
  | cycle now isolated choose =>
    by_cases hnone : p.left due = []
    · rw [hnone]
      exact Nat.le_refl _
    · obtain ⟨k, hk, hgone⟩ := exists_evicted h hp ho hnone
      refine Nat.le_sub_one_of_lt (List.length_filter_lt_length_iff_exists.mpr ⟨k, hk, ?_⟩)
      rw [hgone]
      exact Bool.false_ne_true
  | turn => exact List.length_filter_le ..

theorem length_left_run (h : Overdue since due p) (hp : p.registry.Sound)
    {history : List Occurrence} (hhistory : Throughout (Unheard since due) p history) :
    ((p.run history).left due).length ≤
      (p.left due).length - history.countP Occurrence.isCycle := by
  induction history generalizing p with
  | nil => exact Nat.le_refl _
  | cons o rest ih =>
    obtain ⟨ho, hrest⟩ := hhistory
    have hstep := length_left_step h hp ho
    have hrun := ih (h.step hp ho) (sound_step hp o) hrest
    rw [List.countP_cons]
    change ((((p.step o).run rest).left due).length) ≤ _
    omega

/-- Two states with the same slot for an instance still have the same after an occurrence, and also
if only the first goes through it and it is a cycle. -/
theorem slot_step_congr {q : Patrolled} {k : Key} (hp : p.registry.Sound) (hq : q.registry.Sound)
    (hslot : p.registry.slot k = q.registry.slot k) (ho : Unheard since due p o) (hk : k ∉ due) :
    (p.step o).registry.slot k = (q.run ([o].filter (!·.isCycle))).registry.slot k := by
  cases o with
  | turn t => exact hp.slot_step_congr hq hslot t
  | cycle now isolated choose =>
    rcases EvictionController.slot_run hp p.controller now isolated choose k with
      hkept | ⟨-, -, hlapsed⟩
    · exact hkept.trans hslot
    · exact absurd (ho.complete k (ho.compensation ▸ hlapsed)) hk

theorem slot_run_congr {q : Patrolled} {k : Key} (hp : p.registry.Sound) (hq : q.registry.Sound)
    (hslot : p.registry.slot k = q.registry.slot k) {history : List Occurrence}
    (hhistory : Throughout (Unheard since due) p history) (hk : k ∉ due) :
    (p.run history).registry.slot k =
      (q.run (history.filter (!·.isCycle))).registry.slot k := by
  induction history generalizing p q with
  | nil => exact hslot
  | cons o rest ih =>
    obtain ⟨ho, hrest⟩ := hhistory
    have hlater := ih (sound_step hp o) (sound_run hq ([o].filter (!·.isCycle)))
      (slot_step_congr hp hq hslot ho hk) hrest
    refine hlater.trans ?_
    rw [run, run, run, ← List.foldl_append, ← List.filter_append, List.singleton_append]

/-- A cycle removes as many of the expired leases as the cap allows, and if it is suspended none,
and reports so. Hence leases that are due are gone after as many cycles, and but for these leases
the cycles make no difference. -/
theorem exact_and_cleared (hp : p.registry.Reachable) :
    (∀ now isolated (choose : Choice), choose.Samples → ∃ expired removed,
      p.controller.Exact p.registry now
        (p.controller.run p.registry now isolated choose).2 expired removed) ∧
    ∀ since due history, Overdue since due p → Throughout (Unheard since due) p history →
      due.length ≤ history.countP Occurrence.isCycle →
      (∀ k ∈ due, (p.run history).registry.held? k = none) ∧
      ∀ k ∉ due, (p.run history).registry.slot k =
        (p.run (history.filter (!·.isCycle))).registry.slot k := by
  have hsound := hp.sound
  constructor
  · intro now isolated choose hchoose
    exact EvictionController.exact_run hsound p.controller now isolated hchoose
  · intro since due history hdue hhistory hcycles
    have hrun := length_left_run hdue hsound hhistory
    have hatmost : (p.left due).length ≤ due.length := List.length_filter_le ..
    have hnone : (p.run history).left due = [] := List.eq_nil_of_length_eq_zero (by omega)
    constructor
    · intro k hk
      rw [(sound_run hsound history).held?_eq_stored?]
      have hgone := List.filter_eq_nil_iff.mp hnone k hk
      simpa using hgone
    · intro k hk
      exact slot_run_congr hsound hsound rfl hhistory hk

/-- Three leases, of which one cycle may remove one: two have expired, and go in two cycles. -/
theorem cleared_in_two_cycles :
    let registered (now : Millis) (id : String) (duration : Option UInt64) : Occurrence :=
      .turn (.perform now (.register .client (.named "WEB" id "host" 80) duration))
    let p := (start {} { selfPreservation := false, warmup := 0 } 1).run
      [registered 1000 "web-1" (some 10), registered 2000 "web-2" (some 10),
        registered 90000 "web-3" none]
    let due : List Key := [("WEB", "web-1"), ("WEB", "web-2")]
    let history : List Occurrence := [.cycle 100000 false .first, .cycle 160000 false .first]
    p.registry.Reachable ∧ (∀ k ∈ due, (p.registry.held? k).isSome) ∧
      Overdue 100000 due p ∧ Throughout (Unheard 100000 due) p history ∧
      (∃ expired removed, p.controller.Exact p.registry 100000
        (p.controller.run p.registry 100000 false .first).2 expired removed) ∧
      (∀ k ∈ due, (p.run history).registry.held? k = none) ∧
      (p.run history).registry.slot ("WEB", "web-3") = p.registry.slot ("WEB", "web-3") ∧
      (p.registry.held? ("WEB", "web-3")).isSome := by
  intro registered p due history
  have hreachable : p.registry.Reachable :=
    .perform _ _ (.perform _ _ (.perform _ _ (.start ..)))
  have hheld : ∀ k ∈ due, (p.registry.held? k).isSome := by decide +kernel
  have hother : (p.registry.held? ("WEB", "web-3")).isSome := by decide +kernel
  have hexpired : ∀ k ∈ due, (p.registry.stored? k).all (·.isExpired 100000 0) := by
    decide +kernel
  have hfirst : ∀ k ∈ p.registry.expired 100000 0, k ∈ due := by decide +kernel
  have hsecond : ∀ k ∈ p.registry.expired 160000 0, k ∈ due := by decide +kernel
  have hdisabled : p.controller.preservation.enabled = false := rfl
  have hwarm : p.controller.preservation.warmupUntil ≤ (100000 : Millis).toInt := by
    decide +kernel
  have hnever : p.controller.lastCycle = none := rfl
  have hinterval : p.controller.settings.interval = 60000 := rfl
  clear_value p
  have hoverdue : Overdue 100000 due p := by
    intro k hk l hl
    have hall := hexpired k hk
    rw [hl] at hall
    exact hall
  have hfirst : Clears 100000 due p 100000 false .first := by
    refine ⟨Choice.samples_first, Int.le_refl _, normal_of_disabled hdisabled hwarm, ?_, ?_⟩
    · change p.controller.compensation 100000 = 0
      rw [EvictionController.compensation, hnever]
    · intro k hk
      exact hfirst k (((p.registry.enumerates_expired ..).mem_iff k).mpr hk)
  have hsecond : Clears 100000 due (p.step (.cycle 100000 false .first)) 160000 false .first := by
    have hwarm' : p.controller.preservation.warmupUntil ≤ (160000 : Millis).toInt :=
      Int.le_trans hwarm (by decide)
    refine ⟨Choice.samples_first, by decide,
      normal_of_disabled (p := p.step (.cycle 100000 false .first)) hdisabled hwarm', ?_, ?_⟩
    · change max (160000 - 100000 - Int64.ofNat p.controller.settings.interval).toInt 0 = 0
      rw [hinterval]
      decide
    · rintro k ⟨l, hl, hl'⟩
      refine hsecond k (((p.registry.enumerates_expired ..).mem_iff k).mpr ⟨l, ?_, hl'⟩)
      rcases slot_step hreachable.sound (.cycle 100000 false .first) k with
        hkept | hempty | ⟨_, _, _, hturn, -⟩
      · exact (congrArg Slot.lease hkept).symm.trans hl
      · cases (congrArg Slot.lease hempty).symm.trans hl
      · cases hturn
  have hhistory : Throughout (Unheard 100000 due) p history := ⟨hfirst, hsecond, trivial⟩
  obtain ⟨hexact, hcleared⟩ := exact_and_cleared hreachable
  obtain ⟨hgone, hkept⟩ := hcleared 100000 due history hoverdue hhistory (by decide)
  exact ⟨hreachable, hheld, hoverdue, hhistory, hexact 100000 false .first Choice.samples_first,
    hgone, hkept _ (by decide), hother⟩

end Patrolled

end ServiceRegistry
