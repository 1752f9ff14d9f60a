import ServiceRegistry.Proofs.Replication.Peer
import ServiceRegistry.Proofs.Replication.Queue

/-! # What pending items lead to

The items that wait for one instance lead a peer's slot to the origin's: however many of them
have been received, the rest brings the peer where the origin is. `Leads.enqueue` says that this
stays true when the origin tells of one more operation, whether its item waits on its own or is
absorbed by the last one that waits.
-/

namespace ServiceRegistry

set_option autoImplicit false

open Replication

namespace Replication.Pending

def enqueue (incoming : Item) : List Item → List Item
  | [] => [incoming]
  | [i] => match i.absorb incoming with
    | some merged => [merged]
    | none => [i, incoming]
  | i :: j :: rest => i :: enqueue incoming (j :: rest)

theorem enqueue_concat (incoming i : Item) (items : List Item) :
    enqueue incoming (items ++ [i]) = items ++ enqueue incoming [i] := by
  induction items with
  | nil => rfl
  | cons j rest ih =>
    cases rest with
    | nil => rfl
    | cons j' rest => exact congrArg (j :: ·) ih

theorem enqueue_ne_nil (incoming : Item) (items : List Item) : enqueue incoming items ≠ [] := by
  rcases List.eq_nil_or_concat items with rfl | ⟨before, i, rfl⟩
  · exact List.cons_ne_nil _ _
  · rw [List.concat_eq_append, enqueue_concat, enqueue]
    cases i.absorb incoming <;> simp

theorem enqueue_append (incoming : Item) (before : List Item) {items : List Item}
    (h : items ≠ []) : enqueue incoming (before ++ items) = before ++ enqueue incoming items := by
  rcases List.eq_nil_or_concat items with rfl | ⟨rest, i, rfl⟩
  · exact absurd rfl h
  · rw [List.concat_eq_append, ← List.append_assoc, enqueue_concat, enqueue_concat,
      List.append_assoc]

theorem filter_place (incoming : Item) (items : List Item) (k : String × String) :
    (place incoming items).filter (·.key = k) =
      if incoming.key = k then enqueue incoming (items.filter (·.key = k))
      else items.filter (·.key = k) := by
  rcases split_last (fun i : Item => i.key = incoming.key) items with
    hnone | ⟨before, i, after, rfl, hi, hafter⟩
  · rw [place_of_absent hnone, List.filter_append]
    by_cases hk : incoming.key = k
    · subst hk
      have hfilter : items.filter (·.key = incoming.key) = [] := by simpa using hnone
      rw [if_pos rfl, hfilter]
      simp [enqueue]
    · rw [if_neg hk]
      simp [hk]
  · rw [place_of_split hi hafter]
    by_cases hk : incoming.key = k
    · subst hk
      have hend : after.filter (·.key = incoming.key) = [] := by simpa using hafter
      have hitems : (before ++ i :: after).filter (·.key = incoming.key) =
          before.filter (·.key = incoming.key) ++ [i] := by
        rw [List.filter_append, List.filter_cons_of_pos (by simpa using hi), hend]
      rw [if_pos rfl, hitems, enqueue_concat, enqueue]
      cases habsorb : i.absorb incoming with
      | some merged =>
        have hmerged : merged.key = incoming.key := Item.key_absorb hi habsorb
        simp only
        rw [List.filter_append, List.filter_cons_of_pos (by simpa using hmerged), hend]
      | none =>
        simp only
        rw [List.filter_append, hitems]
        simp
    · rw [if_neg hk]
      cases habsorb : i.absorb incoming with
      | some merged => simp [hi, Item.key_absorb hi habsorb, hk]
      | none => simp [hi, hk]

/-- What waits for an instance after items about it have come in. -/
def enqueueAll (incoming items : List Item) : List Item :=
  incoming.foldl (fun l i => enqueue i l) items

theorem filter_foldl_place (incoming items : List Item) (k : String × String) :
    (incoming.foldl (fun l i => place i l) items).filter (·.key = k) =
      enqueueAll (incoming.filter (·.key = k)) (items.filter (·.key = k)) := by
  induction incoming generalizing items with
  | nil => rfl
  | cons i rest ih =>
    rw [List.foldl_cons, ih, filter_place]
    by_cases hk : i.key = k
    · rw [if_pos hk, List.filter_cons_of_pos (by simpa using hk)]
      rfl
    · rw [if_neg hk, List.filter_cons_of_neg (by simpa using hk)]

end Replication.Pending

def Replication.Queue.waiting (k : Key) (q : Queue) : List Item := q.toList.filter (·.key = k)

theorem Replication.Queue.Tidy.waiting_pushAll {q : Queue} (h : q.Tidy) {items : List Item}
    (hroom : (q.pushAll items).dropped = q.dropped) (k : Key) :
    (q.pushAll items).waiting k =
      Pending.enqueueAll (items.filter (·.key = k)) (q.waiting k) := by
  rw [waiting, h.toList_pushAll hroom, Pending.filter_foldl_place]
  rfl

namespace Replication.Item

structure Addressed (k : Key) (i : Item) : Prop where
  key : i.key = k
  upper : Text.upper k.1 = k.1
  record : ∀ x, i.record = some x → x.key = k

theorem Addressed.command_key {k : Key} {i : Item} (h : i.Addressed k) {c : Command}
    (hc : i.command? = some c) : c.key = k := by
  have hkey : Registry.keyOf i.app i.id = k := by
    have happ : i.app = k.1 := congrArg Prod.fst h.key
    have hid : i.id = k.2 := congrArg Prod.snd h.key
    rw [Registry.keyOf, happ, hid, h.upper]
  unfold command? at hc
  cases hop : i.operation <;> simp only [hop] at hc
  case register =>
    obtain ⟨x, hx, rfl⟩ := Option.map_eq_some_iff.mp hc
    have happ : x.app = k.1 := congrArg Prod.fst (h.record x hx)
    have hid : x.id = k.2 := congrArg Prod.snd (h.record x hx)
    rw [Command.key, Registry.keyOf, happ, hid, h.upper]
  case statusUpdate =>
    obtain ⟨s, -, rfl⟩ := Option.map_eq_some_iff.mp hc
    exact hkey
  all_goals
    cases hc
    exact hkey

theorem Addressed.absorb {k : Key} {pending incoming merged : Item} (h : pending.Addressed k)
    (h' : incoming.Addressed k) (habsorb : pending.absorb incoming = some merged) :
    merged.Addressed k := by
  refine ⟨(key_absorb (h.key.trans h'.key.symm) habsorb).trans h'.key, h.upper, ?_⟩
  unfold Item.absorb at habsorb
  split at habsorb <;> cases habsorb
  case h_2 | h_3 =>
    intro x hx
    rcases Option.or_eq_some_iff.mp hx with hx | ⟨-, hx⟩
    · exact h'.record x hx
    · exact h.record x hx
  all_goals first | exact h.record | exact h'.record

/-- An item that a peer can carry out, of a change at some time or before. -/
inductive Sendable (t : Millis) (i : Item) : Prop where
  | register {x : Instance} {d : UInt64} : i.operation = .register → i.record = some x →
    i.lease = some d → x.Settled → checkLease x.id d = .ok () → x.dirtyAt ≤ t → Sendable t i
  | status {s : Status} :
    i.operation = .statusUpdate ∧ s ≠ .unknown ∨ i.operation = .deleteStatusOverride →
    i.status = some s → 0 < i.dirtyAt → i.dirtyAt ≤ t → Sendable t i
  | heartbeat : i.operation = .heartbeat → Sendable t i
  | cancel : i.operation = .cancel → Sendable t i

theorem Sendable.mono {t t' : Millis} {i : Item} (h : i.Sendable t) (ht : t ≤ t') :
    i.Sendable t' := by
  cases h with
  | register hop hrecord hlease hx hd hle =>
    exact .register hop hrecord hlease hx hd (Int64.le_trans hle ht)
  | status hop hstatus hpos hle => exact .status hop hstatus hpos (Int64.le_trans hle ht)
  | heartbeat hop => exact .heartbeat hop
  | cancel hop => exact .cancel hop

end Replication.Item

namespace Slot

variable {k : Key} {t t' now : Millis} {i pending merged : Item} {p o o' : Slot}

theorem Sound.receive (hp : p.Sound k) (hi : i.Addressed k) (now : Millis) :
    (p.receive now i).Sound k := by
  unfold Slot.receive
  split
  · rename_i c hc
    have hkey := hi.command_key hc
    subst hkey
    exact hp.move now
  · exact hp

theorem receive_status {status : Status}
    (hop : i.operation = .statusUpdate ∧ status ≠ .unknown ∨ i.operation = .deleteStatusOverride)
    (hstatus : i.status = some status) (hpositive : 0 < i.dirtyAt) :
    let override := if i.operation = .statusUpdate then some status else none
    override ≠ some .unknown ∧ ∃ change, Puts change status override ∧
      ∀ (s : Slot) (now : Millis),
        s.receive now i = (s.changeStatus now (some i.dirtyAt) change).slot := by
  have hdirty := Registry.positive_of_pos hpositive
  rcases hop with ⟨hop, hknown⟩ | hop
  · simp only [hop, if_true]
    refine ⟨fun h => hknown (Option.some.inj h), impose status, puts_impose status, fun s now => ?_⟩
    simp only [Slot.receive, Item.command?, hop, hstatus, hdirty, Option.map_some, Slot.move]
  · simp only [hop, reduceCtorEq, if_false]
    refine ⟨(Option.some_ne_none _).symm, release status, puts_release status, fun s now => ?_⟩
    simp only [Slot.receive, Item.command?, hop, hstatus, hdirty, Option.getD_some, Slot.move]

theorem Within.receive (hw : p.Within t) (hp : p.Sound k) (hi : i.Sendable t) (now : Millis) :
    (p.receive now i).Within t := by
  cases hi with
  | register hop hrecord hlease hx hd hle =>
    obtain ⟨y, hkept, -, hbound⟩ := hp.kept_receive_register hop hrecord hlease hx hd now
    intro q hq
    cases hkept.symm.trans hq
    exact hbound t hw hle
  | status hop hstatus hpos hle =>
    obtain ⟨-, change, hputs, hreceive⟩ := receive_status hop hstatus hpos
    rw [hreceive]
    exact (hp.base_changeStatus hputs _ now).2 t hw hle
  | heartbeat hop =>
    intro q hq
    rw [(hp.receive_heartbeat hop now).1] at hq
    exact hw q hq
  | cancel hop =>
    intro q hq
    rw [hp.receive_cancel hop now] at hq
    cases hq

/-- A slot of an origin: its record is settled, and shows the override. -/
def Own (t : Millis) (o : Slot) : Prop :=
  ∀ x d, o.kept = some (x, d) → x.Settled ∧ checkLease x.id d = .ok () ∧ x.dirtyAt ≤ t ∧
    o.override = x.overridden

/-- A peer's slot agrees with the origin's, and its record did not change later. -/
structure Follows (p o : Slot) : Prop where
  face : p.face = o.face
  within : ∀ q, o.kept = some q → p.Within q.1.dirtyAt

/-- What an operation at the origin, after a time, tells of the slot that it changed. -/
inductive Tells (t : Millis) (o o' : Slot) (i : Item) : Prop where
  | registers {x : Instance} {d : UInt64} : o'.kept = some (x, d) → t ≤ x.dirtyAt →
    i.operation = .register → i.record = some x → i.lease = some d → Tells t o o' i
  | beats {x : Instance} {d : UInt64} : o.kept = some (x, d) → o'.kept = o.kept →
    o'.override = o.override → i.operation = .heartbeat → i.record = some x → Tells t o o' i
  | cancels : o' = {} → i.operation = .cancel → Tells t o o' i
  | sets {x : Instance} {d : UInt64} : o'.kept = some (x, d) → o'.base = o.base →
    t ≤ x.dirtyAt →
    i.operation = .statusUpdate ∧ x.overridden = some x.status ∨
      i.operation = .deleteStatusOverride ∧ x.overridden = none →
    i.record = some x → i.status = some x.status → i.dirtyAt = x.dirtyAt → Tells t o o' i

theorem face_congr {s s' : Slot} (hkept : s.kept = s'.kept) (hoverride : s.override = s'.override) :
    s.face = s'.face := by
  rw [face, face, hkept, hoverride]

theorem Follows.congr {p' : Slot} (h : p.Follows o) (hp : p'.kept = p.kept)
    (hpo : p'.override = p.override) (ho : o'.kept = o.kept) (hoo : o'.override = o.override) :
    p'.Follows o' := by
  refine ⟨?_, fun q hq r hr => ?_⟩
  · rw [face_congr hp hpo, h.face, face_congr ho hoo]
  · rw [hp] at hr
    rw [ho] at hq
    exact h.within q hq r hr

theorem Own.follows_register {x : Instance} {d : UInt64} (ho : Own t o)
    (hkept : o.kept = some (x, d)) (hp : p.Sound k) (hw : p.Within x.dirtyAt)
    (hop : i.operation = .register)
    (hrecord : i.record = some x) (hlease : i.lease = some d) (now : Millis) :
    (p.receive now i).Follows o := by
  obtain ⟨hx, hd, -, hoverride⟩ := ho x d hkept
  obtain ⟨y, hy, hsubstance, hdirty, himposed⟩ :=
    hp.receive_register hop hrecord hlease hx hd hw now
  refine ⟨?_, fun q hq r hr => ?_⟩
  · simp only [face, hy, hkept, Option.map_some, hsubstance, himposed, hoverride]
  · cases hkept.symm.trans hq
    cases hy.symm.trans hr
    exact Int64.le_of_eq hdirty

theorem kept_of_base {s : Slot} {f : Instance} {d : UInt64} (h : s.base = some (f, d)) :
    ∃ y, s.kept = some (y, d) ∧ y.frame = f := by
  obtain ⟨⟨y, e⟩, hkept, heq⟩ := Option.map_eq_some_iff.mp h
  cases heq
  exact ⟨y, hkept, rfl⟩

theorem Own.follows_sets {x : Instance} {d : UInt64} (ho : Own t' o) (hkept : o.kept = some (x, d))
    (hp : p.Sound k) (hw : p.Within t) (ht : t ≤ x.dirtyAt) (hbase : p.base = o.base)
    (hop : i.operation = .statusUpdate ∧ x.overridden = some x.status ∨
      i.operation = .deleteStatusOverride ∧ x.overridden = none)
    (hstatus : i.status = some x.status) (hdirty : i.dirtyAt = x.dirtyAt) (now : Millis) :
    (p.receive now i).Follows o := by
  obtain ⟨hx, -, -, hoverride⟩ := ho x d hkept
  have hop' : i.operation = .statusUpdate ∧ x.status ≠ .unknown ∨
      i.operation = .deleteStatusOverride :=
    hop.imp (fun ⟨hop, himposed⟩ => ⟨hop, fun h => hx.known (h ▸ himposed)⟩) And.left
  have himposed : (if i.operation = .statusUpdate then some x.status else none) = x.overridden := by
    rcases hop with ⟨hop, h⟩ | ⟨hop, h⟩ <;> simp [hop, h]
  obtain ⟨hknown, change, hputs, hreceive⟩ := receive_status hop' hstatus (hdirty ▸ hx.dirty)
  rw [himposed] at hknown hputs
  have hobase : o.base = some (x.frame, d) := by rw [base, hkept]; rfl
  obtain ⟨z, hz, -⟩ := kept_of_base (hbase.trans hobase)
  obtain ⟨l, hl, hlz⟩ := Option.map_eq_some_iff.mp hz
  have hnewer : (some i.dirtyAt).any (· < l.holder.dirtyAt) = false := by
    have hle := Int64.le_trans (hw _ (kept_of_lease hl)) ht
    simpa [hdirty] using hle
  have hturned := hp.turned_changeStatus hputs hknown hl hnewer now
  rw [← hreceive] at hturned
  obtain ⟨y, hy, hframe⟩ := kept_of_base (hturned.base.trans (hbase.trans hobase))
  obtain ⟨hystatus, hyoverridden⟩ := hturned.shows _ hy
  refine ⟨?_, fun q hq => ?_⟩
  · have hsubstance : y.substance = x.substance :=
      Instance.substance_eq_of_frame hframe hystatus hyoverridden
    simp only [face, hy, hkept, Option.map_some, hsubstance, hturned.imposes, hoverride]
  · cases hkept.symm.trans hq
    exact hturned.within _ (hw.mono ht) (Int64.le_of_eq hdirty)

/-- An operation that the origin tells of brings a peer to the origin: a registration or a
cancellation any peer that is not ahead, the others a peer that shares what they leave. -/
theorem Tells.follows (h : Tells t o o' i) (ho' : o'.Own t') (hp : p.Sound k) (hw : p.Within t)
    (hbase : p.base = o.base ∨ i.operation = .register ∨ i.operation = .cancel)
    (hfollows : p.Follows o ∨ i.operation ≠ .heartbeat) (now : Millis) :
    (p.receive now i).Follows o' := by
  cases h with
  | registers hkept ht hop hrecord hlease =>
    exact ho'.follows_register hkept hp (hw.mono ht) hop hrecord hlease now
  | beats hkept hkept' hoverride hop hrecord =>
    obtain ⟨hp', hpo'⟩ := hp.receive_heartbeat hop now
    exact (hfollows.resolve_right fun hne => hne hop).congr hp' hpo' hkept' hoverride
  | cancels hempty hop =>
    rw [hp.receive_cancel hop, hempty]
    exact ⟨rfl, fun q hq => nomatch hq⟩
  | sets hkept hbase' ht hop hrecord hstatus hdirty =>
    have hother : ¬ (i.operation = .register ∨ i.operation = .cancel) := by
      rcases hop with ⟨hop, -⟩ | ⟨hop, -⟩ <;> simp [hop]
    exact ho'.follows_sets hkept hp hw ht ((hbase.resolve_right hother).trans hbase'.symm) hop
      hstatus hdirty now

theorem absorb_eq_incoming
    (h : i.operation = .register ∨ i.operation = .cancel ∨ pending.operation = .heartbeat ∨
      pending.operation = .cancel) : pending.absorb i = some i := by
  unfold Item.absorb
  split <;> simp_all

theorem absorb_status (hpending : pending.operation = .statusUpdate ∨
      pending.operation = .deleteStatusOverride) :
    pending.absorb i =
      if i.operation = .heartbeat then some { pending with time := i.time } else some i := by
  unfold Item.absorb
  rcases hpending with hpending | hpending <;> cases hi : i.operation <;> simp [hpending]

theorem absorb_register {x : Instance} (hpending : pending.operation = .register)
    (hop : i.operation = .heartbeat ∨ i.operation = .statusUpdate) (hrecord : i.record = some x)
    (habsorb : pending.absorb i = some merged) :
    merged.operation = .register ∧ merged.record = some x ∧ merged.lease = pending.lease := by
  unfold Item.absorb at habsorb
  rcases hop with hop | hop <;> rw [hpending, hop] at habsorb <;> cases habsorb <;>
    exact ⟨rfl, by rw [hrecord]; rfl, rfl⟩

theorem absorb_register_release (hpending : pending.operation = .register)
    (hop : i.operation = .deleteStatusOverride) : pending.absorb i = none :=
  Item.absorb_eq_none_iff.mpr ⟨hpending, hop⟩

theorem Tells.operation_of_empty (h : Tells t o o' i) (ho : o.kept = none) :
    i.operation = .register ∨ i.operation = .cancel := by
  cases h with
  | registers _ _ hop => exact .inl hop
  | beats hkept => cases ho.symm.trans hkept
  | cancels _ hop => exact .inr hop
  | sets hkept hbase =>
    rw [base, base, ho, hkept] at hbase
    cases hbase

theorem Tells.eq_of_cancel (h : Tells t o o' i) (hop : i.operation = .cancel) : o' = {} := by
  cases h with
  | cancels hempty => exact hempty
  | registers _ _ hop' | beats _ _ _ hop' => cases hop.symm.trans hop'
  | sets _ _ _ hop' => rcases hop' with ⟨hop', -⟩ | ⟨hop', -⟩ <;> cases hop.symm.trans hop'

theorem Tells.kept_of_register (h : Tells t o o' i) (hop : i.operation = .register) :
    ∃ x d, o'.kept = some (x, d) ∧ i.record = some x ∧ i.lease = some d := by
  cases h with
  | registers hkept _ _ hrecord hlease => exact ⟨_, _, hkept, hrecord, hlease⟩
  | beats _ _ _ hop' | cancels _ hop' => cases hop.symm.trans hop'
  | sets _ _ _ hop' => rcases hop' with ⟨hop', -⟩ | ⟨hop', -⟩ <;> cases hop.symm.trans hop'

theorem duration_of_pending {x : Instance} {d e : UInt64} (hp : p.Sound k)
    (hop : pending.operation = .register) (hrecord : pending.record = some x)
    (hlease : pending.lease = some d) (hx : x.Settled) (hd : checkLease x.id d = .ok ())
    (hbefore : (p.receive now pending).Follows o) {y : Instance} (hkept : o.kept = some (y, e)) :
    e = d ∧ p.Within y.dirtyAt := by
  obtain ⟨z, hz, hwithin, -⟩ := hp.kept_receive_register hop hrecord hlease hx hd now
  have hface := congrArg Prod.fst hbefore.face
  simp only [face, hz, hkept, Option.map_some, Option.some.injEq, Prod.mk.injEq] at hface
  have hle : z.dirtyAt ≤ y.dirtyAt := hbefore.within (y, e) hkept (z, d) hz
  exact ⟨hface.2.symm, hwithin.mono hle⟩

theorem Tells.follows_absorbed_register {x : Instance} {d : UInt64} (h : Tells t o o' i)
    (ho' : o'.Own t') (hp : p.Sound k) (hw : p.Within t) (hop : pending.operation = .register)
    (hrecord : pending.record = some x) (hlease : pending.lease = some d) (hx : x.Settled)
    (hd : checkLease x.id d = .ok ()) (hbefore : (p.receive now pending).Follows o)
    (habsorb : pending.absorb i = some merged)
    (hother : ¬ (i.operation = .register ∨ i.operation = .cancel)) :
    (p.receive now merged).Follows o' := by
  cases h with
  | registers _ _ hiop => exact absurd (.inl hiop) hother
  | cancels _ hiop => exact absurd (.inr hiop) hother
  | beats hkept hkept' hoverride hiop hirecord =>
    obtain ⟨hmop, hmrecord, hmlease⟩ := absorb_register hop (.inl hiop) hirecord habsorb
    obtain ⟨rfl, hwithin⟩ := duration_of_pending hp hop hrecord hlease hx hd hbefore hkept
    exact ho'.follows_register (hkept'.trans hkept) hp hwithin hmop hmrecord
      (hmlease.trans hlease) now
  | @sets y e hkept hbase ht hiop hirecord =>
    rcases hiop with ⟨hiop, -⟩ | ⟨hiop, -⟩
    · obtain ⟨hmop, hmrecord, hmlease⟩ := absorb_register hop (.inr hiop) hirecord habsorb
      have hobase : o.base = some (y.frame, e) := by
        rw [← hbase, base, hkept]
        rfl
      obtain ⟨z, hz, -⟩ := kept_of_base hobase
      obtain ⟨rfl, -⟩ := duration_of_pending hp hop hrecord hlease hx hd hbefore hz
      exact ho'.follows_register hkept hp (hw.mono ht) hmop hmrecord (hmlease.trans hlease) now
    · cases habsorb.symm.trans (absorb_register_release hop hiop)

theorem Tells.follows_absorbed_status {status : Status} (h : Tells t o o' i) (ho' : o'.Own t')
    (hp : p.Sound k) (hw : p.Within t)
    (hop : pending.operation = .statusUpdate ∧ status ≠ .unknown ∨
      pending.operation = .deleteStatusOverride)
    (hstatus : pending.status = some status) (hpos : 0 < pending.dirtyAt)
    (hbefore : (p.receive now pending).Follows o) (habsorb : pending.absorb i = some merged)
    (hother : ¬ (i.operation = .register ∨ i.operation = .cancel)) :
    (p.receive now merged).Follows o' := by
  have htells := h
  rw [absorb_status (hop.imp_left And.left)] at habsorb
  cases h with
  | registers _ _ hiop => exact absurd (.inl hiop) hother
  | cancels _ hiop => exact absurd (.inr hiop) hother
  | beats hkept hkept' hoverride hiop =>
    rw [if_pos hiop] at habsorb
    cases habsorb
    exact hbefore.congr rfl rfl hkept' hoverride
  | sets _ _ _ hiop =>
    have hheartbeat : i.operation ≠ .heartbeat := by
      rcases hiop with ⟨hiop, -⟩ | ⟨hiop, -⟩ <;> simp [hiop]
    rw [if_neg hheartbeat] at habsorb
    cases habsorb
    obtain ⟨-, change, hputs, hreceive⟩ := receive_status hop hstatus hpos
    have hbase : p.base = o.base := by
      rw [← (hp.base_changeStatus hputs _ now).1, ← hreceive]
      exact base_eq_of_face hbefore.face
    exact htells.follows ho' hp hw (.inl hbase) (.inr hheartbeat) now

theorem Tells.follows_absorbed (h : Tells t o o' i) (ho' : o'.Own t') (hp : p.Sound k)
    (hw : p.Within t) (hpending : pending.Sendable t)
    (hbefore : ∀ now, (p.receive now pending).Follows o)
    (habsorb : pending.absorb i = some merged) (now : Millis) :
    (p.receive now merged).Follows o' := by
  by_cases hreplaces : i.operation = .register ∨ i.operation = .cancel
  · have hmerged : pending.absorb i = some i := absorb_eq_incoming (hreplaces.imp_right .inl)
    cases habsorb.symm.trans hmerged
    have hheartbeat : i.operation ≠ .heartbeat := by
      rcases hreplaces with hop | hop <;> simp [hop]
    exact h.follows ho' hp hw (.inr hreplaces) (.inr hheartbeat) now
  cases hpending with
  | register hop hrecord hlease hx hd =>
    exact h.follows_absorbed_register ho' hp hw hop hrecord hlease hx hd (hbefore now) habsorb
      hreplaces
  | status hop hstatus hpos =>
    exact h.follows_absorbed_status ho' hp hw hop hstatus hpos (hbefore now) habsorb hreplaces
  | heartbeat hop =>
    cases habsorb.symm.trans (absorb_eq_incoming (.inr (.inr (.inl hop))))
    obtain ⟨hkept, hoverride⟩ := hp.receive_heartbeat hop now
    have hfollows : p.Follows o := (hbefore now).congr hkept.symm hoverride.symm rfl rfl
    exact h.follows ho' hp hw (.inl (base_eq_of_face hfollows.face)) (.inl hfollows) now
  | cancel hop =>
    -- behind a cancellation the origin is empty, so nothing but `hreplaces` can be told of
    have hface := congrArg Prod.fst (hbefore now).face
    rw [hp.receive_cancel hop now] at hface
    exact absurd (h.operation_of_empty (Option.map_eq_none_iff.mp hface.symm)) hreplaces

theorem Tells.sendable (h : Tells t o o' i) (ho' : o'.Own t') : i.Sendable t' := by
  cases h with
  | registers hkept _ hop hrecord hlease =>
    obtain ⟨hx, hd, hle, -⟩ := ho' _ _ hkept
    exact .register hop hrecord hlease hx hd hle
  | beats _ _ _ hop => exact .heartbeat hop
  | cancels _ hop => exact .cancel hop
  | sets hkept _ _ hop _ hstatus hdirty =>
    obtain ⟨hx, -, hle, -⟩ := ho' _ _ hkept
    refine .status (hop.imp ?_ And.left) hstatus (hdirty ▸ hx.dirty) (hdirty ▸ hle)
    exact fun ⟨hop, himposed⟩ => ⟨hop, fun h => hx.known (h ▸ himposed)⟩

theorem Tells.sendable_absorbed (h : Tells t o o' i) (ho' : o'.Own t')
    (hpending : pending.Sendable t') (habsorb : pending.absorb i = some merged) :
    merged.Sendable t' := by
  have hsendable := h.sendable ho'
  cases hpending with
  | @register z e hop hrecord hlease hz he hle =>
    have hmerge {x : Instance} {d : UInt64} (hkept : o'.kept = some (x, d))
        (hiop : i.operation = .heartbeat ∨ i.operation = .statusUpdate)
        (hirecord : i.record = some x) : merged.Sendable t' := by
      obtain ⟨hmop, hmrecord, hmlease⟩ := absorb_register hop hiop hirecord habsorb
      obtain ⟨hx, -, hle, -⟩ := ho' _ _ hkept
      exact .register hmop hmrecord (hmlease.trans hlease) hx (checkLease_congr he) hle
    cases h with
    | registers _ _ hiop =>
      cases habsorb.symm.trans (absorb_eq_incoming (.inl hiop))
      exact hsendable
    | cancels _ hiop =>
      cases habsorb.symm.trans (absorb_eq_incoming (.inr (.inl hiop)))
      exact hsendable
    | beats hkept hkept' _ hiop hirecord => exact hmerge (hkept'.trans hkept) (.inl hiop) hirecord
    | sets hkept _ _ hiop hirecord =>
      rcases hiop with ⟨hiop, -⟩ | ⟨hiop, -⟩
      · exact hmerge hkept (.inr hiop) hirecord
      · cases habsorb.symm.trans (absorb_register_release hop hiop)
  | status hop hstatus hpos hle =>
    rw [absorb_status (hop.imp_left And.left)] at habsorb
    split at habsorb <;> cases habsorb
    · exact .status hop hstatus hpos hle
    · exact hsendable
  | heartbeat hop =>
    cases habsorb.symm.trans (absorb_eq_incoming (.inr (.inr (.inl hop))))
    exact hsendable
  | cancel hop =>
    cases habsorb.symm.trans (absorb_eq_incoming (.inr (.inr (.inr hop))))
    exact hsendable

/-- However they are received, the pending items bring a peer's slot to the origin's. -/
def Leads (k : Key) (t : Millis) : Slot → List Item → Slot → Prop
  | p, [], o => p.Follows o
  | p, i :: rest, o =>
    i.Addressed k ∧ i.Sendable t ∧ ∀ now, Leads k t (p.receive now i) rest o

variable {items rest : List Item}

theorem Leads.mono (h : Leads k t p items o) (ht : t ≤ t') : Leads k t' p items o := by
  induction items generalizing p with
  | nil => exact h
  | cons i rest ih => exact ⟨h.1, h.2.1.mono ht, fun now => ih (h.2.2 now)⟩

theorem Leads.congr (h : Leads k t p items o) (hkept : o'.kept = o.kept)
    (hoverride : o'.override = o.override) : Leads k t p items o' := by
  induction items generalizing p with
  | nil => exact Follows.congr h rfl rfl hkept hoverride
  | cons i rest ih => exact ⟨h.1, h.2.1, fun now => ih (h.2.2 now)⟩

theorem Leads.concat (h : Leads k t p items o) (hp : p.Sound k) (hw : p.Within t)
    (htells : Tells t o o' i) (hi : i.Addressed k) (ho' : o'.Own t') (ht : t ≤ t') :
    Leads k t' p (items ++ [i]) o' := by
  induction items generalizing p with
  | nil =>
    refine ⟨hi, htells.sendable ho', fun now => ?_⟩
    exact htells.follows ho' hp hw (.inl (base_eq_of_face (Follows.face h))) (.inl h) now
  | cons j rest ih =>
    obtain ⟨hj, hsendable, hrest⟩ := h
    exact ⟨hj, hsendable.mono ht, fun now =>
      ih (hrest now) (hp.receive hj now) (hw.receive hp hsendable now)⟩

/-- The items still lead to the origin after it has told of one more operation. -/
theorem Leads.enqueue (h : Leads k t p items o) (hp : p.Sound k) (hw : p.Within t)
    (htells : Tells t o o' i) (hi : i.Addressed k) (ho' : o'.Own t') (ht : t ≤ t') :
    Leads k t' p (Pending.enqueue i items) o' := by
  induction items generalizing p with
  | nil => exact h.concat hp hw htells hi ho' ht
  | cons j rest ih =>
    obtain ⟨hj, hsendable, hrest⟩ := h
    cases rest with
    | nil =>
      rw [Pending.enqueue]
      cases habsorb : j.absorb i with
      | some merged =>
        exact ⟨hj.absorb hi habsorb,
          htells.sendable_absorbed ho' (hsendable.mono ht) habsorb,
          fun now => htells.follows_absorbed ho' hp hw hsendable hrest habsorb now⟩
      | none =>
        exact ⟨hj, hsendable.mono ht, fun now =>
          (hrest now).concat (hp.receive hj now) (hw.receive hp hsendable now) htells hi ho' ht⟩
    | cons j' rest =>
      exact ⟨hj, hsendable.mono ht, fun now =>
        ih (hrest now) (hp.receive hj now) (hw.receive hp hsendable now)⟩

theorem Leads.receive (h : Leads k t p (items ++ rest) o) (hp : p.Sound k) (hw : p.Within t)
    (now : Millis) :
    let p' := items.foldl (fun p i => p.receive now i) p
    Leads k t p' rest o ∧ p'.Sound k ∧ p'.Within t := by
  induction items generalizing p with
  | nil => exact ⟨h, hp, hw⟩
  | cons i items ih =>
    obtain ⟨hi, hsendable, hrest⟩ := h
    exact ih (hrest now) (hp.receive hi now) (hw.receive hp hsendable now)

end Slot

theorem Replication.Pending.enqueue_replaces {i : Item}
    (h : i.operation = .register ∨ i.operation = .cancel) (items : List Item) :
    enqueue i items = items.dropLast ++ [i] := by
  rcases List.eq_nil_or_concat items with rfl | ⟨before, j, rfl⟩
  · rfl
  · have habsorb : j.absorb i = some i := Slot.absorb_eq_incoming (h.imp_right .inl)
    rw [List.concat_eq_append, enqueue_concat, List.dropLast_concat, enqueue, habsorb]

end ServiceRegistry
