import ServiceRegistry.Proofs.Cluster.Requeue
import ServiceRegistry.Proofs.Registry.Rewind
import ServiceRegistry.Proofs.Replication.Redelivery

/-! # Repair by heartbeats

A heartbeat carries the record of its sender, and the receiver compares times of change. A receiver
that is behind is sent a registration; a sender that is behind adopts the record it is answered
with. After two exchanges both hold the newer record: `Reachable.exchange_heartbeat`.
-/

namespace ServiceRegistry

set_option autoImplicit false

open Replication

theorem Tended.settled {k : Key} {o : Option Status} {l : Lease Instance} (h : Tended k o l)
    (hvalid : l.holder.check = .ok ()) (hdirty : 0 < l.holder.dirtyAt)
    (hknown : l.holder.overridden ≠ some .unknown) : l.holder.Settled where
  upper := by
    have happ : l.holder.app = k.1 := congrArg Prod.fst h.filed
    rw [happ]
    exact h.upper
  valid := hvalid
  dirty := hdirty
  known := hknown
  imposed status hstatus := by
    rcases h.agrees with ⟨hsame, hshown⟩ | ⟨-, hunknown⟩
    · exact hshown status (hsame.trans hstatus)
    · exact absurd hunknown hknown

namespace Instance

variable {x : Instance}

theorem Settled.received (hx : x.Settled) : x.received = x.content := by
  obtain ⟨-, hcontent⟩ := Slot.settle_peer none x
  rw [← hcontent, hx.settle_peer]

end Instance

namespace Registry

variable {r s : Registry} {app id : String} {l : Lease Instance} {x : Instance} {d : UInt64}
  {i : Item}

theorem Reachable.settled (hr : r.Reachable) (hl : r.lease? app id = some l)
    (hdirty : 0 < l.holder.dirtyAt) (hknown : l.holder.overridden ≠ some .unknown) :
    l.holder.Settled ∧ checkLease l.holder.id l.duration = .ok () ∧
      l.holder.key = keyOf app id := by
  rw [hr.sound.lease?_eq_slot_lease] at hl
  have htended := (hr.sound _).tended hl
  obtain ⟨hvalid, hd⟩ := hr.valid _ _ _ (Slot.kept_of_lease hl)
  exact ⟨htended.settled hvalid hdirty hknown, hd, htended.filed⟩

theorem Sound.lease?_renew (hr : r.Sound) (hl : r.lease? app id = some l) (now : Millis)
    (dirtyAt : Option Millis) :
    (r.perform now (.renew .client app id dirtyAt)).registry.lease? app id =
      some (l.renew now) := by
  have hslot := (perform_acts hr.filed now (.renew .client app id dirtyAt)).slot (keyOf app id)
  have hmine : Command.key (.renew .client app id dirtyAt) = keyOf app id := rfl
  have hmove : ((r.slot (keyOf app id)).move now (.renew .client app id dirtyAt)).slot.lease =
      some (l.renew now) := by
    rw [hr.lease?_eq_slot_lease] at hl
    simp only [Slot.move, Slot.renew, (hr _).held_eq_lease, hl]
  rw [if_pos hmine, hmine] at hslot
  rw [(hr.perform now _).lease?_eq_slot_lease, hslot]
  exact hmove

theorem receive_heartbeat_answer (hop : i.operation = .heartbeat) (hpos : 0 < i.dirtyAt)
    (now : Millis) :
    (s.receive now i).answer =
      match s.lease? i.app i.id with
      | none => .notFound
      | some l =>
        if l.holder.dirtyAt < i.dirtyAt then .notFound
        else if i.dirtyAt < l.holder.dirtyAt then .conflict (some l.holder)
        else .success := by
  simp only [receive, hop, positive_of_pos hpos, Response.map, renew, lease?]
  cases s.held? (keyOf i.app i.id) with
  | none => rfl
  | some l =>
    have hholder : (l.renew now).holder = l.holder := rfl
    simp only [hholder, Option.any_some]
    by_cases hbehind : l.holder.dirtyAt < i.dirtyAt
    · simp only [hbehind, decide_true, if_true]
    · by_cases hahead : i.dirtyAt < l.holder.dirtyAt <;> simp [hbehind, hahead]

theorem receive_register_answer (hop : i.operation = .register) (hrecord : i.record = some x)
    (hlease : i.lease = some d) (hx : x.Settled) (hd : checkLease x.id d = .ok ())
    (now : Millis) : (s.receive now i).answer = .success := by
  simp only [receive, hop, hrecord, hlease, register_eq, hx.accept hd, Except.map, Response.map]

/-- What comes of a batch: what is sent again, and the registries of the sender and the receiver. -/
def exchange (r s : Registry) (now there : Millis) (items : List Item) :
    List Item × Registry × Registry :=
  let a := s.receiveAll there items
  (resent items a.answer, r.reacted now (reactions items a.answer), a.registry)

theorem Reachable.receiveAll (hs : s.Reachable) (now : Millis) (items : List Item) :
    (s.receiveAll now items).registry.Reachable := by
  induction items generalizing s with
  | nil => exact hs
  | cons i rest ih => exact ih (hs.receive now i)

theorem Reachable.reacted (hr : r.Reachable) (now : Millis) (reactions : List Reaction) :
    (r.reacted now reactions).Reachable := by
  induction reactions generalizing r with
  | nil => exact hr
  | cons reaction rest ih =>
    refine ih ?_
    cases reaction with
    | resend i => exact hr
    | adopt record lease =>
      simp only
      split
      · rename_i u hadopt
        obtain ⟨duration, hregistry⟩ := adopt_registry r now record lease hadopt
        rw [hregistry]
        exact .perform now _ hr
      · exact hr

theorem Reachable.after_exchange (hr : r.Reachable) (hs : s.Reachable) (now there : Millis)
    (items : List Item) :
    (r.exchange s now there items).2.1.Reachable ∧ (r.exchange s now there items).2.2.Reachable :=
  ⟨hr.reacted .., hs.receiveAll ..⟩

theorem exchange_nil (r s : Registry) (now there : Millis) :
    exchange r s now there [] = ([], r, s) := rfl

theorem exchange_singleton (r s : Registry) (now there : Millis) (i : Item) :
    exchange r s now there [i] =
      let reactions := (reaction? i (s.receive there i).answer).toList
      (reactions.filterMap Reaction.resent?, r.reacted now reactions,
        (s.receive there i).registry) := by
  cases h : reaction? i (s.receive there i).answer <;>
    simp [exchange, receiveAll, resent, reactions, h]

theorem exchange_few (r s : Registry) (now there : Millis) (i : Item) :
    (exchange r s now there [i]).1 = [] ∨ ∃ j, (exchange r s now there [i]).1 = [j] := by
  rw [exchange_singleton]
  cases reaction? i (s.receive there i).answer with
  | none => exact .inl rfl
  | some reaction =>
    cases reaction with
    | resend j => exact .inr ⟨j, rfl⟩
    | adopt record lease => exact .inl rfl

theorem Sound.view_adopt (hr : r.Sound) (hx : x.Settled) (hkey : x.key = keyOf app id)
    (hl : r.lease? app id = some l) (hd : checkLease x.id l.duration = .ok ()) (now : Millis)
    (lease : Option UInt64) :
    ∃ s, r.adopt now x lease = .ok s ∧
      s.registry.Sound ∧ (s.registry.slot (keyOf app id)).view =
        (r.slot (keyOf app id)).view.enlist (some (x, l.duration)) := by
  have hsame : keyOf x.app x.id = keyOf app id := by
    have hupper : keyOf x.app x.id = x.key := Prod.ext hx.upper rfl
    exact hupper.trans hkey
  have hheld : r.lease? x.app x.id = some l := by
    rw [lease?, hsame]
    exact hl
  have hadopt : r.adopt now x lease = .ok (r.enroll now .peer x l.duration) := by
    rw [adopt, hheld, register_eq, Option.map_some, Option.some_or, hx.accept hd]
    rfl
  have hregistry : (r.perform now (.register .peer x (some l.duration))).registry =
      (r.enroll now .peer x l.duration).registry := by
    simp only [Registry.perform, register_eq, hx.accept hd, Except.map, Response.map]
  have hmove : (r.slot (keyOf app id)).move now (.register .peer x (some l.duration)) =
      (r.slot (keyOf app id)).enroll now .peer x l.duration := by
    simp only [Slot.move, hx.accept hd]
  have hslot := (perform_acts hr.filed now (.register .peer x (some l.duration))).slot
    (keyOf app id)
  have hmine : Command.key (.register .peer x (some l.duration)) = keyOf app id := hsame
  rw [if_pos hmine, hregistry, hmine, hmove] at hslot
  refine ⟨_, hadopt, hregistry ▸ hr.perform now _, ?_⟩
  rw [hslot]
  exact (hr _).live.view_enroll now x l.duration

def beat (l : Lease Instance) (time : Millis) : Item :=
  { Item.of .heartbeat l.holder time with lease := some l.duration }

theorem stamped_beat (hdirty : 0 < l.holder.dirtyAt)
    (hupper : Text.upper l.holder.app = l.holder.app) (time : Millis) : (beat l time).Stamped := by
  refine ⟨⟨hdirty, fun x hx => ?_⟩, Item.addressed_of rfl hupper ..⟩
  cases hx
  exact hdirty

theorem Sound.view_receive (hs : s.Sound) (hi : i.Stamped) (now : Millis) (k : Key) :
    ((s.receive now i).registry.slot k).view =
      if i.key = k then i.effect (s.slot k).view else (s.slot k).view := by
  rw [hs.slot_receive_addressed now hi.addressed]
  split
  · exact (hs k).view_receive hi.toDated now
  · rfl

theorem lease?_of_key (hx : x.Settled) (hkey : x.key = keyOf app id) (r : Registry) :
    r.lease? x.app x.id = r.lease? app id := by
  have hsame : keyOf x.app x.id = x.key := Prod.ext hx.upper rfl
  rw [lease?, lease?, hsame, hkey]

theorem Sound.receive_beat (hs : s.Sound) (hx : l.holder.Settled)
    (hkey : l.holder.key = keyOf app id) (time now : Millis) :
    (s.receive now (beat l time)).answer =
        (match s.lease? app id with
        | none => .notFound
        | some l' =>
          if l'.holder.dirtyAt < l.holder.dirtyAt then .notFound
          else if l.holder.dirtyAt < l'.holder.dirtyAt then .conflict (some l'.holder)
          else .success) ∧
      ((s.receive now (beat l time)).registry.slot (keyOf app id)).view =
        (s.slot (keyOf app id)).view := by
  have hanswer := receive_heartbeat_answer (s := s) (i := beat l time) rfl hx.dirty now
  have hlease : s.lease? (beat l time).app (beat l time).id = s.lease? app id :=
    lease?_of_key hx hkey s
  rw [hlease] at hanswer
  refine ⟨hanswer, ?_⟩
  rw [hs.view_receive (stamped_beat hx.dirty hx.upper time)]
  exact ite_self _

theorem Sound.exchange_behind (hs : s.Sound) (hx : l.holder.Settled)
    (hd : checkLease l.holder.id l.duration = .ok ()) (hkey : l.holder.key = keyOf app id)
    (hbehind : ∀ l', s.lease? app id = some l' → l'.holder.dirtyAt < l.holder.dirtyAt)
    (r : Registry) (time now there now' there' : Millis) :
    let a := exchange r s now there [beat l time]
    let b := exchange a.2.1 a.2.2 now' there' a.1
    b.1 = [] ∧ b.2.1 = r ∧
      (b.2.2.slot (keyOf app id)).view.1 = some (l.holder.content, l.duration) := by
  intro a b
  let j : Item := { beat l time with operation := .register }
  obtain ⟨hanswer, hview⟩ := hs.receive_beat hx hkey time there
  have hmissing : (s.receive there (beat l time)).answer = .notFound := by
    rw [hanswer]
    cases hl' : s.lease? app id with
    | none => rfl
    | some l' => exact if_pos (hbehind l' hl')
  have ha : a = ([j], r, (s.receive there (beat l time)).registry) := by
    simp only [a, exchange_singleton, hmissing]
    rfl
  have hs' : (s.receive there (beat l time)).registry.Sound := hs.receive _ _
  have hregistered := receive_register_answer (s := (s.receive there (beat l time)).registry)
    (i := j) rfl rfl rfl hx hd there'
  have hb : b = ([], r, ((s.receive there (beat l time)).registry.receive there' j).registry) := by
    simp only [b, ha, exchange_singleton, hregistered]
    rfl
  have hj : j.Stamped :=
    (stamped_beat hx.dirty hx.upper time).again
  have hregistrant : j.registrant? = some (l.holder, l.duration) := by
    simp only [Item.registrant?, j, beat, Item.of, Option.bind_some, hx.accept hd]
    rfl
  have hchosen : (s.slot (keyOf app id)).view.chosen l.holder = l.holder := by
    rw [hs.view_slot]
    cases hl' : s.lease? app id with
    | none => rfl
    | some l' => exact if_neg (Int64.not_lt.mpr (Int64.le_of_lt (hbehind l' hl')))
  refine ⟨by rw [hb], by rw [hb], ?_⟩
  have hjkey : j.key = keyOf app id := hkey
  have heffect : j.effect (s.slot (keyOf app id)).view =
      (s.slot (keyOf app id)).view.enlist (some (l.holder, l.duration)) := by
    rw [← hregistrant]
    rfl
  rw [hb, hs'.view_receive hj, if_pos hjkey, hview, heffect, Slot.View.enlist, hchosen,
    hx.received]

theorem Sound.exchange_ahead (hr : r.Sound) (hs : s.Sound)
    (hl : r.lease? app id = some l) (hx : l.holder.Settled)
    (hd : checkLease l.holder.id l.duration = .ok ()) (hkey : l.holder.key = keyOf app id)
    {l' : Lease Instance} (hl' : s.lease? app id = some l') (hx' : l'.holder.Settled)
    (hkey' : l'.holder.key = keyOf app id)
    (hahead : l.holder.dirtyAt < l'.holder.dirtyAt) (time now there : Millis) :
    let a := exchange r s now there [beat l time]
    a.1 = [] ∧ (a.2.1.slot (keyOf app id)).view.1 = some (l'.holder.content, l.duration) ∧
      (a.2.2.slot (keyOf app id)).view = (s.slot (keyOf app id)).view := by
  intro a
  obtain ⟨hanswer, hview⟩ := hs.receive_beat hx hkey time there
  have hle : ¬ l'.holder.dirtyAt < l.holder.dirtyAt := Int64.not_lt.mpr (Int64.le_of_lt hahead)
  simp only [hl', if_neg hle, if_pos hahead] at hanswer
  obtain ⟨u, hadopt, -, hafter⟩ :=
    hr.view_adopt hx' hkey' hl (checkLease_congr hd) now (some l.duration)
  have ha : a = ([], u.registry, (s.receive there (beat l time)).registry) := by
    have hreacted : r.reacted now [.adopt l'.holder (some l.duration)] = u.registry := by
      simp only [reacted, List.foldl_cons, List.foldl_nil, hadopt]
    rw [← hreacted]
    simp only [a, exchange_singleton, hanswer]
    rfl
  have hchosen : (r.slot (keyOf app id)).view.chosen l'.holder = l'.holder := by
    rw [hr.view_slot, hl]
    exact if_neg hle
  refine ⟨by rw [ha], ?_, by rw [ha, hview]⟩
  rw [ha, hafter, Slot.View.enlist, hchosen, hx'.received]

theorem Sound.exchange_level (hs : s.Sound) (hx : l.holder.Settled)
    (hkey : l.holder.key = keyOf app id) {l' : Lease Instance} (hl' : s.lease? app id = some l')
    (hlevel : l'.holder.dirtyAt = l.holder.dirtyAt) (r : Registry) (time now there : Millis) :
    let a := exchange r s now there [beat l time]
    a.1 = [] ∧ a.2.1 = r ∧ (a.2.2.slot (keyOf app id)).view = (s.slot (keyOf app id)).view := by
  intro a
  obtain ⟨hanswer, hview⟩ := hs.receive_beat hx hkey time there
  have hsame : ¬ l.holder.dirtyAt < l.holder.dirtyAt := Int64.not_lt.mpr (Int64.le_refl _)
  simp only [hl', hlevel, if_neg hsame] at hanswer
  have ha : a = ([], r, (s.receive there (beat l time)).registry) := by
    simp only [a, exchange_singleton, hanswer]
    rfl
  exact ⟨by rw [ha], by rw [ha], by rw [ha, hview]⟩

/-- A heartbeat of a lease, and what is sent again upon its answer, leave the newer of two records
at both ends. The sender's lease keeps its length, and a receiver that was behind takes it over. -/
theorem Reachable.exchange_heartbeat (hr : r.Reachable) (hs : s.Reachable)
    (hl : r.lease? app id = some l) (hdirty : 0 < l.holder.dirtyAt)
    (hknown : l.holder.overridden ≠ some .unknown)
    (hpeer : ∀ l', s.lease? app id = some l' → 0 < l'.holder.dirtyAt ∧
      l'.holder.overridden ≠ some .unknown ∧
      (l'.holder.dirtyAt = l.holder.dirtyAt → l'.holder.content = l.holder.content))
    (time now there now' there' : Millis) :
    let a := exchange r s now there [beat l time]
    let b := exchange a.2.1 a.2.2 now' there' a.1
    let x := ((s.lease? app id).map fun l' => newer l'.holder l.holder).getD l.holder
    b.1 = [] ∧
      (b.2.1.slot (keyOf app id)).view.1 = some (x.content, l.duration) ∧
      ∃ d, (b.2.2.slot (keyOf app id)).view.1 = some (x.content, d) ∧
        ((∀ l', s.lease? app id = some l' → l'.holder.dirtyAt < l.holder.dirtyAt) →
          d = l.duration) := by
  intro a b x
  obtain ⟨hx, hd, hkey⟩ := hr.settled hl hdirty hknown
  have hown : (r.slot (keyOf app id)).view.1 = some (l.holder.content, l.duration) := by
    rw [hr.sound.view_slot, hl]
    rfl
  by_cases hbehind : ∀ l', s.lease? app id = some l' → l'.holder.dirtyAt < l.holder.dirtyAt
  · obtain ⟨hrest, hsame, hafter⟩ :=
      hs.sound.exchange_behind hx hd hkey hbehind r time now there now' there'
    have hnewest : x = l.holder := by
      cases hl' : s.lease? app id with
      | none => simp only [x, hl', Option.map_none, Option.getD_none]
      | some l' =>
        simp only [x, hl', Option.map_some, Option.getD_some]
        exact if_neg (Int64.not_lt.mpr (Int64.le_of_lt (hbehind l' hl')))
    rw [hnewest]
    exact ⟨hrest, hsame ▸ hown, l.duration, hafter, fun _ => rfl⟩
  -- The receiver holds a record that is not older, so nothing is left for a second exchange.
  obtain ⟨l', hl', hle⟩ : ∃ l', s.lease? app id = some l' ∧
      l.holder.dirtyAt ≤ l'.holder.dirtyAt := by
    simpa only [Classical.not_forall, Int64.not_lt, exists_prop] using hbehind
  obtain ⟨hdirty', hknown', hequal⟩ := hpeer l' hl'
  obtain ⟨hx', -, hkey'⟩ := hs.settled hl' hdirty' hknown'
  have htheirs : (s.slot (keyOf app id)).view.1 = some (l'.holder.content, l'.duration) := by
    rw [hs.sound.view_slot, hl']
    rfl
  have hnewest : x = newer l'.holder l.holder := by
    simp only [x, hl', Option.map_some, Option.getD_some]
  have hlast (hnone : a.1 = []) : b = ([], a.2.1, a.2.2) := by
    simp only [b, a, hnone, exchange_nil]
  by_cases hahead : l.holder.dirtyAt < l'.holder.dirtyAt
  · obtain ⟨hnone, hadopted, hsame⟩ :=
      hr.sound.exchange_ahead hs.sound hl hx hd hkey hl' hx' hkey' hahead time now there
    rw [hnewest, newer, if_pos hahead, hlast hnone]
    exact ⟨rfl, hadopted, l'.duration, hsame ▸ htheirs, fun h => absurd h hbehind⟩
  · have hlevel : l'.holder.dirtyAt = l.holder.dirtyAt :=
      Int64.le_antisymm (Int64.not_lt.mp hahead) hle
    obtain ⟨hnone, hmine, hsame⟩ :=
      hs.sound.exchange_level hx hkey hl' hlevel r time now there
    rw [hnewest, newer, if_neg hahead, hlast hnone, ← hequal hlevel]
    exact ⟨rfl, hequal hlevel ▸ hmine ▸ hown, l'.duration, hsame ▸ htheirs,
      fun h => absurd h hbehind⟩

end Registry

end ServiceRegistry
