import Mathlib.Data.List.Infix
import ServiceRegistry.Proofs.Node.Acts

/-! # What a watcher is told

A watcher subscribes to the events, then reads the log, and from then on follows the events. What
the log held is told first; of the events the ones above the version that the log was read at are
told. So every change is told once and in order (`Watching.delivers`), unless the channel drops its
event before the watcher comes to it.
-/

namespace ServiceRegistry

set_option autoImplicit false

open Replication

def announcements (events : List Event) : List WatchEvent := events.filterMap Event.announced?

theorem announcements_append (before after : List Event) :
    announcements (before ++ after) = announcements before ++ announcements after :=
  List.filterMap_append

section Lost

variable {α : Type} [DecidableEq α] {xs ys lost : List α}

theorem filter_notMem_append (hnodup : (xs ++ ys).Nodup) (hlost : lost ⊆ xs) :
    (xs ++ ys).filter (· ∉ lost) = xs.filter (· ∉ lost) ++ ys := by
  rw [List.filter_append]
  congr 1
  refine List.filter_eq_self.mpr fun a ha => decide_eq_true fun hmem => ?_
  exact (List.nodup_append.mp hnodup).2.2 a (hlost hmem) a ha rfl

theorem filter_notMem_append_lost (hnodup : (xs ++ ys).Nodup) :
    (xs ++ ys).filter (· ∉ lost ++ ys) = xs.filter (· ∉ lost) := by
  have hpassed : ys.filter (· ∉ lost ++ ys) = [] :=
    List.filter_eq_nil_iff.mpr fun a ha => by simp [ha]
  rw [List.filter_append, hpassed, List.append_nil]
  refine List.filter_congr fun a ha => ?_
  have hother : a ∉ ys := fun hmem => (List.nodup_append.mp hnodup).2.2 a ha a hmem rfl
  simp [hother]

end Lost

/-- A follower of the events from some first place on has come to a later place. What it was to say
of the events in between it has said, apart from those that it missed. -/
structure Followed (sent : List Event) (oldest first place : Nat) (tells : WatchEvent → Bool)
    (opened said : List WatchEvent) (missed : List Event) : Prop where
  first_le : first ≤ place
  place_le : place ≤ sent.length
  said_eq : said = opened ++
    ((announcements ((sent.take place).drop first)).filter (· ∉ announcements missed)).filter tells
  missed_between : missed.Sublist ((sent.take place).drop first)
  missed_overwritten : missed.Sublist (sent.take oldest)

namespace Followed

variable {sent : List Event} {oldest first place : Nat} {tells : WatchEvent → Bool}
  {opened said : List WatchEvent} {missed : List Event}

theorem start (hplace : place ≤ sent.length) (oldest : Nat) (tells : WatchEvent → Bool)
    (opened : List WatchEvent) : Followed sent oldest place place tells opened opened [] := by
  refine ⟨Nat.le_refl _, hplace, ?_, List.nil_sublist _, List.nil_sublist _⟩
  rw [List.drop_eq_nil_of_le (List.length_take_le ..)]
  exact (List.append_nil _).symm

theorem extend (h : Followed sent oldest first place tells opened said missed) (later : List Event)
    {oldest' : Nat} (holdest : oldest ≤ oldest') :
    Followed (sent ++ later) oldest' first place tells opened said missed := by
  have htake : (sent ++ later).take place = sent.take place :=
    List.take_append_of_le_length h.place_le
  have hlonger : (sent.take oldest).Sublist ((sent ++ later).take oldest') := by
    rw [List.take_append]
    exact (List.take_sublist_take_left holdest).trans (List.sublist_append_left ..)
  refine ⟨h.first_le, ?_, ?_, ?_, h.missed_overwritten.trans hlonger⟩
  · rw [List.length_append]
    exact Nat.le_add_right_of_le h.place_le
  · rw [htake]
    exact h.said_eq
  · rw [htake]
    exact h.missed_between

theorem between_add (h : Followed sent oldest first place tells opened said missed) (n : Nat) :
    (sent.take (place + n)).drop first =
      (sent.take place).drop first ++ (sent.drop place).take n := by
  have hlength : first ≤ (sent.take place).length := by
    rw [List.length_take_of_le h.place_le]
    exact h.first_le
  rw [List.take_add, List.drop_append_of_le_length hlength]

theorem nodup_between (hnodup : (announcements sent).Nodup) (place first : Nat) :
    (announcements ((sent.take place).drop first)).Nodup :=
  (((List.drop_sublist ..).trans (List.take_sublist ..)).filterMap _).nodup hnodup

theorem listen (h : Followed sent oldest first place tells opened said missed)
    (hnodup : (announcements sent).Nodup) {n : Nat} (hn : place + n ≤ sent.length) :
    Followed sent oldest first (place + n) tells opened
      (said ++ (announcements ((sent.drop place).take n)).filter tells) missed := by
  have hbetween := h.between_add n
  have hdistinct := nodup_between hnodup (place + n) first
  rw [hbetween, announcements_append] at hdistinct
  have hmissed : announcements missed ⊆ announcements ((sent.take place).drop first) :=
    (h.missed_between.filterMap _).subset
  refine ⟨Nat.le_add_right_of_le h.first_le, hn, ?_, ?_, h.missed_overwritten⟩
  · rw [hbetween, announcements_append,
      filter_notMem_append hdistinct hmissed, List.filter_append,
      ← List.append_assoc, ← h.said_eq]
  · rw [hbetween]
    exact h.missed_between.trans (List.sublist_append_left ..)

theorem listenAll (h : Followed sent oldest first place tells opened said missed)
    (hnodup : (announcements sent).Nodup) :
    Followed sent oldest first sent.length tells opened
      (said ++ (announcements (sent.drop place)).filter tells) missed := by
  have hall : place + (sent.length - place) = sent.length := Nat.add_sub_cancel' h.place_le
  have hlisten := h.listen hnodup (n := sent.length - place) (Nat.le_of_eq hall)
  rw [hall, ← List.length_drop, List.take_length] at hlisten
  exact hlisten

theorem pass (h : Followed sent oldest first place tells opened said missed)
    (hnodup : (announcements sent).Nodup) (hbehind : place ≤ oldest)
    (holdest : oldest ≤ sent.length) :
    Followed sent oldest first oldest tells opened said
      (missed ++ (sent.drop place).take (oldest - place)) := by
  have hbetween := h.between_add (oldest - place)
  have hdistinct := nodup_between hnodup (place + (oldest - place)) first
  rw [hbetween, announcements_append] at hdistinct
  rw [Nat.add_sub_cancel' hbehind] at hbetween
  refine ⟨Nat.le_trans h.first_le hbehind, holdest, ?_, ?_, ?_⟩
  · rw [hbetween, announcements_append, announcements_append, filter_notMem_append_lost hdistinct]
    exact h.said_eq
  · rw [hbetween]
    exact h.missed_between.append (List.Sublist.refl _)
  · have hsplit := List.take_add (l := sent) (i := place) (j := oldest - place)
    rw [Nat.add_sub_cancel' hbehind] at hsplit
    rw [hsplit]
    exact (h.missed_between.trans (List.drop_sublist ..)).append (List.Sublist.refl _)

end Followed

/-- A watcher of a node, with all that it was told and all the events that it came to too late. -/
structure Watching where
  chronicle : Chronicle
  watch : Watch
  told : List WatchEvent := []
  missed : List Event := []

namespace Watching

inductive Step where
  | act (a : Act)
  | hear
  | read

def passed (sent : List Event) (r : Receiver) : Delivery Event → List Event
  | .lagged missed => (sent.drop r.next).take missed
  | _ => []

/-- The events come from a node as it was subscribed to, the log from the node after some acts. -/
def start (subscribed : Chronicle) (between : List Act) (app : String) (version : Nat) : Watching :=
  let opened := subscribed.run between
  { chronicle := opened
    watch := .start opened.node.registry.log subscribed.node.events app version }

def hear (w : Watching) : Watching :=
  match w.watch.replay with
  | e :: rest => { w with watch := { w.watch with replay := rest }, told := w.told ++ [e] }
  | [] =>
    let (delivery, events) := w.chronicle.node.events.receive w.watch.events
    { w with
      watch := { w.watch with events }
      told := w.told ++ (w.watch.live delivery).toList
      missed := w.missed ++ passed w.chronicle.events w.watch.events delivery }

def read (w : Watching) : Watching :=
  let (told, watch) := w.watch.read w.chronicle.node.events
  let (deliveries, _) := w.chronicle.node.events.readAll w.watch.events
  { w with
    watch
    told := w.told ++ told
    missed := w.missed ++ deliveries.flatMap (passed w.chronicle.events w.watch.events) }

def step (w : Watching) : Step → Watching
  | .act a => { w with chronicle := w.chronicle.act a }
  | .hear => w.hear
  | .read => w.read

def run (w : Watching) (steps : List Step) : Watching := steps.foldl step w

def CaughtUp (w : Watching) : Prop :=
  w.watch.replay = [] ∧ w.chronicle.node.events.hasNews w.watch.events = false

def InReach (w : Watching) : Prop :=
  w.chronicle.node.events.sent ≤ w.watch.events.next + w.chronicle.node.events.capacity

end Watching

def Watch.tells (w : Watch) (v : WatchEvent) : Bool := w.replayed < v.version && wants w.app v.app

theorem Watch.live_message (w : Watch) (e : Event) :
    w.live (.message e) = e.announced?.filter w.tells := by
  cases e with
  | changed version kind operation app id replicated =>
    simp only [live, Event.announced?, Option.filter_some, tells, Bool.and_eq_true,
      decide_eq_true_eq]
  | _ => rfl

theorem Watch.filterMap_live_messages (w : Watch) (events : List Event) :
    (events.map Delivery.message).filterMap w.live = (announcements events).filter w.tells := by
  rw [List.filterMap_map, announcements, List.filter_filterMap]
  exact List.filterMap_congr fun e _ => w.live_message e

namespace Watching

variable {w : Watching} {first : Nat} {opened : List WatchEvent}

/-- What was told and is still to be replayed covers the events up to the place of the watcher. -/
def Tells (first : Nat) (opened : List WatchEvent) (w : Watching) : Prop :=
  Followed w.chronicle.events w.chronicle.node.events.oldest first w.watch.events.next w.watch.tells
    opened (w.told ++ w.watch.replay) w.missed

theorem nodup_announcements {h : Chronicle} (hh : h.Faithful) :
    (announcements h.events).Nodup := by
  rw [announcements, hh.announced]
  refine List.Nodup.of_map WatchEvent.version ?_
  rw [List.map_map]
  change (h.changes.map (·.version)).Nodup
  rw [hh.registry.tracks.numbered]
  exact List.nodup_range'

theorem oldest_act (hw : w.chronicle.Faithful) (a : Act) :
    w.chronicle.node.events.oldest ≤ (w.chronicle.act a).node.events.oldest := by
  rw [hw.channel.oldest_eq, (hw.act a).channel.oldest_eq]
  have hcapacity : (w.chronicle.act a).node.events.capacity = w.chronicle.node.events.capacity := by
    rw [Chronicle.act, Node.events_act, Broadcast.capacity_sendAll]
  rw [hcapacity, Chronicle.act, List.length_append]
  omega

theorem Tells.act (h : w.Tells first opened) (hw : w.chronicle.Faithful) (a : Act) :
    (w.step (.act a)).Tells first opened :=
  Followed.extend h (w.chronicle.node.announces a) (oldest_act hw a)

theorem Tells.hear (h : w.Tells first opened) (hw : w.chronicle.Faithful) :
    w.hear.Tells first opened := by
  have hnodup := nodup_announcements hw
  unfold Watching.hear
  split
  · rename_i e rest hreplay
    have hsame : w.told ++ [e] ++ rest = w.told ++ w.watch.replay := by
      rw [hreplay, List.append_assoc, List.singleton_append]
    rw [Tells, ← hsame] at h
    exact h
  rename_i hreplay
  rw [Tells, hreplay, List.append_nil] at h
  have hreads := hw.channel.reads h.place_le
  simp only
  generalize w.chronicle.node.events.receive w.watch.events = delivered at hreads ⊢
  obtain ⟨delivery, events⟩ := delivered
  rw [Tells]
  simp only [hreplay, List.append_nil] at hreads ⊢
  cases hreads with
  | @message e hkept he =>
    obtain ⟨hlt, hget⟩ := List.getElem?_eq_some_iff.mp he
    have hone : (w.chronicle.events.drop w.watch.events.next).take 1 = [e] := by
      rw [List.drop_eq_getElem_cons hlt, hget]
      rfl
    have hlisten := Followed.listen h hnodup (n := 1) hlt
    rw [hone, ← w.watch.filterMap_live_messages] at hlisten
    have hlive : [Delivery.message e].filterMap w.watch.live =
        (w.watch.live (.message e)).toList := by
      cases hlive : w.watch.live (.message e) <;> simp [hlive]
    rw [List.map_singleton, hlive] at hlisten
    simp only [passed, List.append_nil]
    exact hlisten
  | lagged hbehind =>
    simp only [Watch.live, Option.toList_none, List.append_nil]
    exact Followed.pass h hnodup (Nat.le_of_lt hbehind) hw.channel.oldest_le
  | empty _ =>
    simp only [Watch.live, passed, Option.toList_none, List.append_nil]
    exact h

theorem passed_messages (sent events : List Event) (r : Receiver) :
    (events.map Delivery.message).flatMap (passed sent r) = [] := by
  rw [List.flatMap_map]
  exact List.flatMap_eq_nil_iff.mpr fun _ _ => rfl

theorem Tells.read (h : w.Tells first opened) (hw : w.chronicle.Faithful) :
    w.read.Tells first opened := by
  have hnodup := nodup_announcements hw
  rw [Tells, Watching.read]
  simp only [Watch.read, hw.channel.readAll_eq, List.filterMap_append, List.flatMap_append,
    Watch.filterMap_live_messages, List.append_nil, passed_messages]
  rw [← List.append_assoc, ← List.append_assoc]
  split
  · rename_i hkept
    rw [Nat.max_eq_left hkept, List.filterMap_nil, List.flatMap_nil, List.append_nil,
      List.append_nil]
    exact Followed.listenAll h hnodup
  · rename_i hbehind
    have hbehind := Nat.le_of_not_le hbehind
    rw [Nat.max_eq_right hbehind]
    have hpass := Followed.pass h hnodup hbehind hw.channel.oldest_le
    have hlisten := Followed.listenAll hpass hnodup
    rw [List.flatMap_singleton, passed, List.filterMap_cons_none rfl, List.filterMap_nil,
      List.append_nil]
    exact hlisten

end Watching

namespace Chronicle

variable {h h' h'' : Chronicle}

structure Leads (h h' : Chronicle) : Prop where
  events : h.events <+: h'.events
  changes : h.changes <+: h'.changes

theorem Leads.refl (h : Chronicle) : h.Leads h := ⟨List.prefix_refl _, List.prefix_refl _⟩

theorem Leads.act (hleads : h.Leads h') (a : Act) : h.Leads (h'.act a) := by
  refine ⟨hleads.events.trans (List.prefix_append ..), ?_⟩
  rw [changes_act]
  exact hleads.changes.trans (List.prefix_append ..)

theorem Leads.run (hleads : h.Leads h') (acts : List Act) : h.Leads (h'.run acts) := by
  induction acts generalizing h' with
  | nil => exact hleads
  | cons a rest ih => exact ih (hleads.act a)

theorem Leads.trans (hleads : h.Leads h') (hleads' : h'.Leads h'') : h.Leads h'' :=
  ⟨hleads.events.trans hleads'.events, hleads.changes.trans hleads'.changes⟩

theorem Leads.announcements_drop (hleads : h.Leads h') (hh : h.Faithful) (hh' : h'.Faithful) :
    announcements (h'.events.drop h.events.length) =
      (h'.changes.drop h.changes.length).map .ofChange := by
  obtain ⟨later, hevents⟩ := hleads.events
  obtain ⟨more, hchanges⟩ := hleads.changes
  have hall := hh'.announced
  rw [← hevents, ← hchanges, List.filterMap_append, List.map_append, hh.announced] at hall
  rw [← hevents, ← hchanges, List.drop_left, List.drop_left]
  exact List.append_cancel_left hall

end Chronicle

/-- The watch events of the changes above a version that a watcher of an application wants. -/
def due (app : String) (version : Nat) (changes : List Change) : List WatchEvent :=
  (changes.filter fun c => version < c.version && Watch.wants app c.record.app).map .ofChange

theorem due_eq {history : List Change} (h : Numbered history) (app : String) (version : Nat) :
    due app version history =
      ((history.drop version).filter fun c => Watch.wants app c.record.app).map .ofChange := by
  rw [due, ← h.filter_version, List.filter_filter]
  congr 1
  exact List.filter_congr fun c _ => Bool.and_comm ..

theorem pairwise_due {history : List Change} (h : Numbered history) (app : String)
    (version : Nat) : (due app version history).Pairwise (·.version < ·.version) := by
  have hversions : (history.map (·.version)).Pairwise (· < ·) := by
    rw [h]
    exact List.pairwise_lt_range'
  rw [due, List.pairwise_map]
  exact (List.pairwise_map.mp hversions).filter _

namespace Watching

variable {w : Watching} {subscribed h : Chronicle}

theorem due_split (hsubscribed : subscribed.Faithful) (between : List Act) (app : String)
    (version : Nat) (hh : h.Faithful) (hleads : (subscribed.run between).Leads h) :
    let opened := subscribed.run between
    let w := start subscribed between app version
    due w.watch.app (max (min version opened.node.registry.log.version)
      opened.node.registry.log.floor) h.changes =
      w.watch.replay ++
        (announcements (h.events.drop subscribed.events.length)).filter w.watch.tells := by
  intro opened w
  have hopened : opened.Faithful := hsubscribed.run between
  have hsince : subscribed.Leads opened := (Chronicle.Leads.refl subscribed).run between
  have hnumbered := hh.registry.tracks.numbered
  have hcurrent : opened.node.registry.log.version = opened.changes.length :=
    hopened.registry.tracks.version
  have hfloor : opened.node.registry.log.floor ≤ opened.changes.length :=
    hopened.registry.tracks.floor_le
  have hprefix := hsince.changes.length_le
  have hreplay : w.watch.replay = ((opened.changes.drop
      (max (min version opened.changes.length) opened.node.registry.log.floor)).filter
        fun c => Watch.wants w.watch.app c.record.app).map .ofChange := by
    have hwindow := hopened.registry.tracks.changes_since version
    have hdrop : opened.changes.drop (max version opened.node.registry.log.floor) =
        opened.changes.drop
          (max (min version opened.changes.length) opened.node.registry.log.floor) := by
      rcases Nat.le_total version opened.changes.length with hle | hle
      · rw [Nat.min_eq_left hle]
      · rw [List.drop_eq_nil_of_le (by omega), List.drop_eq_nil_of_le (by omega)]
    rw [← hdrop, ← hwindow]
    rfl
  have hlive : (announcements (h.events.drop subscribed.events.length)).filter w.watch.tells =
      ((h.changes.drop opened.changes.length).filter
        fun c => Watch.wants w.watch.app c.record.app).map .ofChange := by
    have habove := hnumbered.filter_drop subscribed.changes.length opened.changes.length
    rw [Nat.max_eq_left hprefix] at habove
    rw [(hsince.trans hleads).announcements_drop hsubscribed hh, List.filter_map, ← habove,
      List.filter_filter, ← hcurrent]
    congr 1
    exact List.filter_congr fun c _ => Bool.and_comm ..
  have hbound : max (min version opened.changes.length) opened.node.registry.log.floor ≤
      opened.changes.length := Nat.max_le.mpr ⟨Nat.min_le_right .., hfloor⟩
  obtain ⟨more, hchanges⟩ := hleads.changes
  rw [due_eq hnumbered, hreplay, hlive, ← hchanges, hcurrent, List.drop_left,
    List.drop_append_of_le_length hbound, List.filter_append, List.map_append]

structure Goes (subscribed opened : Chronicle) (start w : Watching) : Prop where
  faithful : w.chronicle.Faithful
  leads : opened.Leads w.chronicle
  tells : w.Tells subscribed.events.length start.watch.replay
  wants : w.watch.tells = start.watch.tells

variable {opened : Chronicle} {w₀ : Watching}

theorem goes_start (hsubscribed : subscribed.Faithful) (between : List Act) (app : String)
    (version : Nat) :
    Goes subscribed (subscribed.run between) (start subscribed between app version)
      (start subscribed between app version) where
  faithful := hsubscribed.run between
  leads := .refl _
  tells := by
    have hsince := ((Chronicle.Leads.refl subscribed).run between).events.length_le
    have hplace : subscribed.node.events.sent = subscribed.events.length :=
      hsubscribed.channel.count
    rw [← hplace] at hsince ⊢
    exact Followed.start hsince _ _ _
  wants := rfl

theorem Goes.step (hw : Goes subscribed opened w₀ w) (t : Step) :
    Goes subscribed opened w₀ (w.step t) := by
  cases t with
  | act a => exact ⟨hw.faithful.act a, hw.leads.act a, hw.tells.act hw.faithful a, hw.wants⟩
  | hear =>
    have htells := hw.tells.hear hw.faithful
    have hsame : w.hear.chronicle = w.chronicle ∧ w.hear.watch.tells = w.watch.tells := by
      unfold Watching.hear
      split <;> exact ⟨rfl, rfl⟩
    refine ⟨?_, ?_, htells, hsame.2.trans hw.wants⟩
    · rw [Watching.step, hsame.1]
      exact hw.faithful
    · rw [Watching.step, hsame.1]
      exact hw.leads
  | read => exact ⟨hw.faithful, hw.leads, hw.tells.read hw.faithful, hw.wants⟩

theorem Goes.run (hw : Goes subscribed opened w₀ w) (steps : List Step) :
    Goes subscribed opened w₀ (w.run steps) := by
  induction steps generalizing w with
  | nil => exact hw
  | cons t rest ih => exact ih (hw.step t)

theorem Goes.missed_step (hw : Goes subscribed opened w₀ w) (hreach : w.InReach) (t : Step) :
    (w.step t).missed = w.missed := by
  have hkept : w.chronicle.node.events.oldest ≤ w.watch.events.next := by
    have hsent : w.chronicle.node.events.sent = w.chronicle.events.length :=
      hw.faithful.channel.count
    rw [InReach, hsent] at hreach
    rw [hw.faithful.channel.oldest_eq]
    omega
  cases t with
  | act a => rfl
  | hear =>
    simp only [Watching.step, Watching.hear]
    split
    · rfl
    · have hreads := hw.faithful.channel.reads hw.tells.place_le
      generalize w.chronicle.node.events.receive w.watch.events = delivered at hreads ⊢
      obtain ⟨delivery, events⟩ := delivered
      simp only at hreads ⊢
      cases hreads with
      | message _ _ => exact List.append_nil _
      | lagged hbehind => exact absurd hbehind (Nat.not_lt_of_le hkept)
      | empty _ => exact List.append_nil _
  | read =>
    simp only [Watching.step, Watching.read, hw.faithful.channel.readAll_eq, if_pos hkept,
      List.nil_append, passed_messages, List.append_nil]

theorem Goes.missed_run (hw : Goes subscribed opened w₀ w) {steps : List Step}
    (hreach : ∀ done, done <+: steps → (w.run done).InReach) :
    (w.run steps).missed = w.missed := by
  induction steps generalizing w with
  | nil => rfl
  | cons t rest ih =>
    refine (ih (hw.step t) fun done hdone => ?_).trans (hw.missed_step (hreach [] ⟨_, rfl⟩) t)
    exact hreach (t :: done) ((List.prefix_cons_inj t).mpr hdone)

theorem version_le_of_mem_replay (hsubscribed : subscribed.Faithful) (between : List Act)
    (app : String) (version : Nat) {v : WatchEvent}
    (hv : v ∈ (start subscribed between app version).watch.replay) :
    v.version ≤ (subscribed.run between).node.registry.log.version := by
  have htracks := (hsubscribed.run between).registry.tracks
  obtain ⟨c, hc, rfl⟩ := List.mem_map.mp hv
  have hmem : c ∈ ((subscribed.run between).node.registry.log.since version).changes :=
    List.mem_of_mem_filter hc
  rw [htracks.changes_since] at hmem
  rw [htracks.version]
  exact htracks.numbered.version_le (List.mem_of_mem_drop hmem)

/-- Of what is due, the changes that were in the log when it was read are heard in any case. -/
theorem Goes.heard_split (hsubscribed : subscribed.Faithful) {between : List Act} {app : String}
    {version : Nat}
    (hw : Goes subscribed (subscribed.run between) (start subscribed between app version) w) :
    let log := (subscribed.run between).node.registry.log
    ((due (Text.uppercase app) (max (min version log.version) log.floor)
        w.chronicle.changes).filter fun v =>
      v.version ≤ log.version || v ∉ announcements w.missed) =
      (start subscribed between app version).watch.replay ++
        ((announcements (w.chronicle.events.drop subscribed.events.length)).filter
          (· ∉ announcements w.missed)).filter w.watch.tells := by
  intro log
  have hsplit : due (Text.uppercase app) (max (min version log.version) log.floor)
      w.chronicle.changes = _ := due_split hsubscribed between app version hw.faithful hw.leads
  simp only [hsplit, List.filter_append, List.filter_filter, hw.wants]
  congr 1
  · refine List.filter_eq_self.mpr fun v hv => ?_
    rw [Bool.or_eq_true, decide_eq_true_eq]
    exact .inl (version_le_of_mem_replay hsubscribed between app version hv)
  · refine List.filter_congr fun v _ => ?_
    have habove : (start subscribed between app version).watch.tells v = true →
        ¬ v.version ≤ log.version := by
      intro htells
      exact Nat.not_le_of_lt (of_decide_eq_true (Bool.and_eq_true_iff.mp htells).1)
    cases htells : (start subscribed between app version).watch.tells v with
    | false => rw [Bool.and_false, Bool.false_and]
    | true => simp [habove htells]

/-- A watcher is told the changes that are due to it, each once and in order, and all of them once
it has caught up. If it falls behind, what it misses is announced by events that the channel no
longer keeps. The changes that were in the log when it was read are never missed. -/
theorem delivers (s : NodeSettings) (now : Millis) (outbox : Option Queue)
    (dispatcher : Option (DispatcherSettings × List Peer)) (before between : List Act)
    (app : String) (version : Nat) (steps : List Step) :
    let subscribed := (Chronicle.fresh s now outbox dispatcher).run before
    let log := (subscribed.run between).node.registry.log
    let w := (start subscribed between app version).run steps
    let promised := due (Text.uppercase app) (max (min version log.version) log.floor)
      w.chronicle.changes
    let heard := promised.filter fun v => v.version ≤ log.version || v ∉ announcements w.missed
    w.told.Pairwise (·.version < ·.version) ∧
      ((∀ done, done <+: steps → ((start subscribed between app version).run done).InReach) →
        w.told <+: promised ∧ (w.CaughtUp → w.told = promised)) ∧
      w.told <+: heard ∧ (w.CaughtUp → w.told = heard) ∧
      w.missed.Sublist (w.chronicle.events.take w.chronicle.node.events.oldest) := by
  intro subscribed log w promised heard
  have hsubscribed : subscribed.Faithful := (Chronicle.faithful_fresh ..).run before
  have hstart := goes_start hsubscribed between app version
  have hgoes : Goes subscribed _ _ w := hstart.run steps
  have hheard : heard = _ := hgoes.heard_split hsubscribed
  have hbetween : (w.chronicle.events.take w.watch.events.next).drop subscribed.events.length <+:
      w.chronicle.events.drop subscribed.events.length := List.IsPrefix.drop (List.take_prefix ..) _
  have htold : w.told <+: heard := by
    rw [hheard]
    refine (List.prefix_append w.told w.watch.replay).trans ?_
    rw [hgoes.tells.said_eq, List.prefix_append_right_inj]
    exact ((hbetween.filterMap _).filter _).filter _
  have hcaught : w.CaughtUp → w.told = heard := by
    rintro ⟨hreplay, hread⟩
    have hend := (hgoes.faithful.channel.hasNews_eq_false_iff hgoes.tells.place_le).mp hread
    have hsaid := hgoes.tells.said_eq
    rw [hreplay, List.append_nil, hend, List.take_length] at hsaid
    rw [hsaid, hheard]
  have hpairwise : promised.Pairwise (·.version < ·.version) :=
    pairwise_due hgoes.faithful.registry.tracks.numbered _ _
  refine ⟨?_, fun hreach => ?_, htold, hcaught, hgoes.tells.missed_overwritten⟩
  · exact (hpairwise.filter _).sublist htold.sublist
  · have hmissed : w.missed = [] := hstart.missed_run hreach
    have hall : heard = promised :=
      List.filter_eq_self.mpr fun v _ => by simp [hmissed, announcements]
    exact hall ▸ ⟨htold, hcaught⟩

instance (w : Watching) : Decidable w.CaughtUp := inferInstanceAs (Decidable (_ ∧ _))

instance (w : Watching) : Decidable w.InReach := inferInstanceAs (Decidable (_ ≤ _))

/-- A node with one instance, to which a watcher subscribes. -/
def populated : Chronicle := (Chronicle.fresh {} 1 none none).run [.enter "WEB" "web-0"]

/-- Another instance registers before the watcher reads the log. -/
def overlapped (steps : List Step) : Watching :=
  (start populated [.enter "WEB" "web-1"] "web" 0).run steps

/-- The channel keeps two events, and three come before the watcher hears of any. -/
def overtaken (steps : List Step) : Watching :=
  (start (Chronicle.fresh { eventCapacity := 2 } 1 none none) [] "" 0).run steps

theorem delivers_overlapped_overtaken :
    let steps : List Step := [.hear, .act (.enter "WEB" "web-2"), .act (.enter "API" "api"), .read]
    let steps' : List Step := [.act (.enter "WEB" "web-0"), .act (.enter "WEB" "web-1"),
      .act (.enter "WEB" "web-2"), .hear, .read]
    let log := (populated.run [.enter "WEB" "web-1"]).node.registry.log
    log.version = 2 ∧
      (∀ done, done <+: steps → (overlapped done).InReach) ∧ (overlapped steps).CaughtUp ∧
      (overlapped steps).told.map (·.version) = [1, 2, 3] ∧
      (overlapped steps).told = due (Text.uppercase "web") (max (min 0 log.version) log.floor)
        (overlapped steps).chronicle.changes ∧
      (overtaken steps').CaughtUp ∧ (overtaken steps').told.map (·.version) = [2, 3] ∧
      (overtaken steps').told = (due (Text.uppercase "") (max (min 0 0) 0)
        (overtaken steps').chronicle.changes).filter fun v =>
          v.version ≤ 0 || v ∉ announcements (overtaken steps').missed := by
  intro steps steps' log
  have hreach : ∀ done, done <+: steps → (overlapped done).InReach := by
    intro done hdone
    have hall : ∀ done ∈ steps.inits, (overlapped done).InReach := by decide +kernel
    exact hall done ((List.mem_inits ..).mpr hdone)
  have hcaught : (overlapped steps).CaughtUp := by decide +kernel
  have hcaught' : (overtaken steps').CaughtUp := by decide +kernel
  refine ⟨by decide +kernel, hreach, hcaught, by decide +kernel, ?_, hcaught',
    by decide +kernel, ?_⟩
  · have hdelivers :=
      delivers {} 1 none none [.enter "WEB" "web-0"] [.enter "WEB" "web-1"] "web" 0 steps
    exact (hdelivers.2.1 hreach).2 hcaught
  · have hdelivers := delivers { eventCapacity := 2 } 1 none none [] [] "" 0 steps'
    exact hdelivers.2.2.2.1 hcaught'

end Watching

end ServiceRegistry
