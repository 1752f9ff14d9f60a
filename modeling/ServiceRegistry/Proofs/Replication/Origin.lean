import ServiceRegistry.Proofs.Registry.Lockstep
import ServiceRegistry.Proofs.Replication.Pending

/-! # Operations at an origin

A client's operations that do not set a time of change themselves, and impose no status
`unknown`, keep the slots of an origin its own. Each tells the peers of nothing, if it changed
nothing that they look at, or of one item that says what changed.
-/

namespace ServiceRegistry

set_option autoImplicit false

open Replication

/-- The operations that leave times of change to the registry, and `unknown` unimposed. -/
inductive Command.Plain : Command → Prop where
  | register {record : Instance} (duration : Option UInt64) : record.dirtyAt = 0 →
    record.overridden ≠ some .unknown → Plain (.register .client record duration)
  | renew (app id : String) (dirtyAt : Option Millis) : Plain (.renew .client app id dirtyAt)
  | cancel (app id : String) : Plain (.cancel .client app id)
  | evict (seen : Millis) (app id : String) (grace : Int) : Plain (.evict seen app id grace)
  | updateStatus (app id : String) {s : Status} : s ≠ .unknown →
    Plain (.updateStatus .client app id s none)
  | deleteOverride (app id : String) (s : Status) : Plain (.deleteOverride .client app id s none)

theorem Replication.Item.addressed_of {k : Key} {x : Instance} (hkey : x.key = k)
    (hupper : Text.upper k.1 = k.1) (operation : Operation) (time : Millis)
    (lease : Option UInt64) :
    ({ Item.of operation x time with lease } : Item).Addressed k :=
  ⟨hkey, hupper, fun _ hx => Option.some.inj hx ▸ hkey⟩

namespace Slot

variable {k : Key} {t now : Millis} {o o' : Slot} {c : Command} {m : Move}

/-- What a move at an origin tells: nothing of what peers look at, or one item. -/
inductive Reports (t now : Millis) (c : Command) (o : Slot) (m : Move) : Prop where
  | silent : (∀ version, shipped (m.effects now c version) = []) → m.slot.kept = o.kept →
    m.slot.override = o.override → Reports t now c o m
  | item (i : Item) : (∀ version, shipped (m.effects now c version) = [i]) →
    i.Addressed c.key → Tells t o m.slot i → Reports t now c o m

theorem Own.mono {t' : Millis} (h : o.Own t) (ht : t ≤ t') : o.Own t' := by
  intro x d hkept
  obtain ⟨hx, hd, hle, hoverride⟩ := h x d hkept
  exact ⟨hx, hd, Int64.le_trans hle ht, hoverride⟩

theorem Own.within (h : o.Own t) : o.Within t := fun p hp => (h p.1 p.2 hp).2.2.1

theorem Own.congr (h : o.Own t) (hkept : o'.kept = o.kept) (hoverride : o'.override = o.override) :
    o'.Own t := by
  intro x d hx
  rw [hkept] at hx
  rw [hoverride]
  exact h x d hx

theorem own_of_kept {x : Instance} {d : UInt64} (hkept : o.kept = some (x, d)) (hx : x.Settled)
    (hd : checkLease x.id d = .ok ()) (ht : x.dirtyAt ≤ t) (hoverride : o.override = x.overridden) :
    o.Own t := by
  intro y e hy
  cases hkept.symm.trans hy
  exact ⟨hx, hd, ht, hoverride⟩

theorem Own.known (h : o.Own t) (hs : o.Sound k) : o.override ≠ some .unknown := by
  rcases hs with rfl | ⟨l, hl, -⟩
  · nofun
  · obtain ⟨hx, -, -, hoverride⟩ := h _ _ (kept_of_lease hl)
    rw [hoverride]
    exact hx.known

theorem Reports.of_change {kind : ChangeKind} {record : Instance} {told : UInt64}
    (hchange : m.change = some (kind, record, told)) (horigin : c.origin = .client)
    (hkey : record.key = c.key)
    (htells : Tells t o m.slot { Item.of c.operation record now with lease := some told }) :
    Reports t now c o m := by
  refine .item _ (fun version => ?_) (Item.addressed_of hkey (upper_key c) ..) htells
  rw [Registry.shipped_effects_of_change hchange, shipped_shipments, horigin]

theorem settle_client {override : Option Status} {x : Instance}
    (hoverride : override ≠ some .unknown) (hx : x.overridden ≠ some .unknown) :
    (settle override .client x).1 = (settle override .client x).2.overridden ∧
      (settle override .client x).2.overridden ≠ some .unknown ∧
      (∀ s, (settle override .client x).2.overridden = some s →
        (settle override .client x).2.status = s) ∧
      (settle override .client x).2.frame = x.frame := by
  cases override with
  | some s =>
    refine ⟨rfl, hoverride, fun s' hs' => ?_, rfl⟩
    exact Option.some.inj hs'
  | none =>
    cases hoverridden : x.overridden with
    | some s =>
      have hknown : s ≠ .unknown := fun h => hx (h ▸ hoverridden)
      have himposed : Registry.imposed x = some s := by
        simp [Registry.imposed, hoverridden, hknown]
      simp only [settle, himposed]
      exact ⟨hoverridden.symm, hx, fun s' hs' => Option.some.inj (hoverridden.symm.trans hs'), rfl⟩
    | none =>
      have himposed : Registry.imposed x = none := by
        rw [Registry.imposed, hoverridden]
        rfl
      simp only [settle, himposed]
      refine ⟨hoverridden.symm, hx, fun s' hs' => ?_, trivial⟩
      cases hoverridden.symm.trans hs'

theorem settled_enrolled {x : Instance} (hchosen : o.chosen x = x)
    (hoverride : o.override ≠ some .unknown) (hknown : x.overridden ≠ some .unknown)
    (hupper : Text.upper x.app = x.app) (hvalid : x.check = .ok ()) (hpos : 0 < x.dirtyAt)
    (now : Millis) :
    let y := (o.enrolled now .client x).2.2
    y.Settled ∧ y.frame = x.frame ∧ y.dirtyAt = x.dirtyAt ∧
      (settle o.override .client (o.chosen x)).1 = y.overridden := by
  intro y
  obtain ⟨hagrees, hknown', himposed, hsettled⟩ := settle_client hoverride hknown
  have hdirtySettled := dirtyAt_settle o.override .client x
  rw [← hchosen] at hagrees hknown' himposed hsettled hdirtySettled
  have hframe : y.frame = x.frame := by
    rw [← hchosen, ← hsettled]
    rfl
  have hdirty : y.dirtyAt = x.dirtyAt := by
    rw [← hchosen, ← hdirtySettled]
    rfl
  obtain ⟨hkey, hcheck⟩ := Instance.check_of_frame hframe
  have happ : y.app = x.app := congrArg Prod.fst hkey
  have hy : y.Settled :=
    ⟨happ ▸ hupper, hcheck.mpr hvalid, hdirty ▸ hpos, hknown', himposed⟩
  exact ⟨hy, hframe, hdirty, hagrees⟩

theorem Own.enroll (ho : o.Own t) (hs : o.Sound c.key) (ht : t ≤ now) (hpos : 0 < now)
    (hop : c.operation = .register) (horigin : c.origin = .client) {x : Instance} {d : UInt64}
    (hkey : x.key = c.key) (hvalid : x.check = .ok ()) (hd : checkLease x.id d = .ok ())
    (hdirty : x.dirtyAt = now) (hknown : x.overridden ≠ some .unknown) :
    (o.enroll now .client x d).slot.Own now ∧
      Reports t now c o (o.enroll now .client x d) := by
  have hchosen : o.chosen x = x := hs.chosen_of_within (hdirty ▸ ho.within.mono ht)
  have hupper : Text.upper x.app = x.app := by
    have happ : x.app = c.key.1 := congrArg Prod.fst hkey
    rw [happ, upper_key]
  obtain ⟨hy, hframe, hydirty, hagrees⟩ :=
    settled_enrolled hchosen (ho.known hs) hknown hupper hvalid (hdirty ▸ hpos) now
  rw [hdirty] at hydirty
  have hkept := kept_enroll o now .client x d
  have hykey := (Instance.check_of_frame hframe).1.trans hkey
  refine ⟨own_of_kept hkept hy (checkLease_congr hd) (Int64.le_of_eq hydirty) hagrees, ?_⟩
  exact .of_change (change_enroll ..) horigin hykey
    (.registers hkept (hydirty.symm ▸ ht) hop rfl rfl)

theorem Own.silent (ho : o.Own t) (ht : t ≤ now)
    (heffects : ∀ version, m.effects now c version = []) (hkept : m.slot.kept = o.kept)
    (hoverride : m.slot.override = o.override) :
    m.slot.Own now ∧ Reports t now c o m := by
  refine ⟨(ho.mono ht).congr hkept hoverride, .silent (fun version => ?_) hkept hoverride⟩
  rw [heffects]
  rfl

theorem Own.register {record : Instance} {duration : Option UInt64} (ho : o.Own t)
    (hs : o.Sound (Registry.keyOf record.app record.id)) (ht : t ≤ now) (hpos : 0 < now)
    (hdirty : record.dirtyAt = 0) (hknown : record.overridden ≠ some .unknown) :
    let c := Command.register .client record duration
    (o.move now c).slot.Own now ∧ Reports t now c o (o.move now c) := by
  simp only [Slot.move]
  cases haccept : accept now record duration with
  | error e => exact ho.silent ht (fun _ => rfl) rfl rfl
  | ok p =>
    obtain ⟨incoming, granted⟩ := p
    obtain ⟨hadmissible, -, hlease, hincoming⟩ := accept_eq_ok_iff.mp haccept
    rw [if_pos hdirty] at hincoming
    have hkey := Registry.accept_key haccept
    subst hincoming
    exact ho.enroll (c := .register .client record duration) hs ht hpos rfl rfl hkey hadmissible
      hlease rfl hknown

theorem shipped_of_beat {l : Lease Instance} (hchange : m.change = none)
    (hanswer : m.answer = .renewed .renewed) (hheld : m.slot.held = some l)
    (horigin : c.origin = .client) (version : Nat) :
    shipped (m.effects now c version) =
      [{ Item.of .heartbeat l.holder now with lease := some l.duration }] := by
  simp only [Move.effects, hchange, hanswer, hheld]
  exact (shipped_shipments c.origin ..).trans (by rw [horigin])

theorem Own.renew {app id : String} {dirtyAt : Option Millis} (ho : o.Own t)
    (hs : o.Sound (Registry.keyOf app id)) (ht : t ≤ now) :
    let c := Command.renew .client app id dirtyAt
    (o.move now c).slot.Own now ∧ Reports t now c o (o.move now c) := by
  simp only [Slot.move, Slot.renew, hs.held_eq_lease]
  cases hl : o.lease with
  | none => exact ho.silent ht (fun _ => rfl) rfl rfl
  | some l =>
    have hkept : (⟨some (l.renew now), o.override⟩ : Slot).kept = o.kept := (kept_of_lease hl).symm
    simp only
    cases hanswer : renewalAnswer .client dirtyAt (l.renew now).holder with
    | notFound | conflict =>
      exact ⟨(ho.mono ht).congr hkept rfl, .silent (fun _ => rfl) hkept rfl⟩
    | renewed =>
      obtain ⟨hfiled, hupper, hlive, -⟩ := hs.tended hl
      have hheld : (⟨some (l.renew now), o.override⟩ : Slot).held = some (l.renew now) := by
        simp [held, hlive]
      refine ⟨(ho.mono ht).congr hkept rfl, ?_⟩
      refine .item _ (shipped_of_beat rfl rfl hheld rfl) (Item.addressed_of hfiled hupper ..) ?_
      exact .beats (kept_of_lease hl) hkept rfl rfl rfl

theorem Own.withdraw (ho : o.Own t) (hs : o.Sound c.key) (ht : t ≤ now)
    (hop : c.operation = .cancel) (horigin : c.origin = .client) (test : Lease Instance → Bool) :
    (o.withdraw now test).slot.Own now ∧ Reports t now c o (o.withdraw now test) := by
  unfold Slot.withdraw
  cases hl : o.lease.filter test with
  | none => exact ho.silent ht (fun _ => rfl) rfl rfl
  | some l =>
    have hkey := (hs.tended (Option.eq_some_of_filter_eq_some hl)).filed
    refine ⟨fun x d hx => ?_, ?_⟩
    · cases hx
    · exact .of_change rfl horigin hkey (.cancels rfl hop)

theorem Own.changeStatus {change : StatusChange} {status : Status} {override : Option Status}
    (ho : o.Own t) (hs : o.Sound c.key) (ht : t ≤ now) (hpos : 0 < now)
    (horigin : c.origin = .client)
    (hputs : Puts change status override)
    (hop : c.operation = .statusUpdate ∧ override = some status ∧ status ≠ .unknown ∨
      c.operation = .deleteStatusOverride ∧ override = none) :
    (o.changeStatus now none change).slot.Own now ∧
      Reports t now c o (o.changeStatus now none change) := by
  simp only [Slot.changeStatus, hs.held_eq_lease]
  cases hl : o.lease with
  | none => exact ho.silent ht (fun _ => rfl) rfl rfl
  | some l =>
    simp only [Option.any_none, Bool.false_eq_true, if_false]
    cases hchange : change o.override l.holder with
    | none => exact ho.silent ht (fun _ => rfl) rfl rfl
    | some p =>
      obtain ⟨hx, hd, -⟩ := ho _ _ (kept_of_lease hl)
      have hp := hputs.changed _ _ _ hchange
      subst hp
      simp only
      have hframe :
          (stamp now none { l.holder with status, overridden := override }).frame =
            l.holder.frame := rfl
      obtain ⟨hkey, hcheck⟩ := Instance.check_of_frame hframe
      have himposed : override ≠ some .unknown ∧ ∀ s, override = some s → status = s := by
        rcases hop with ⟨-, rfl, hknown⟩ | ⟨-, rfl⟩
        · exact ⟨fun h => hknown (Option.some.inj h), fun s hs' => Option.some.inj hs'⟩
        · refine ⟨(Option.some_ne_none _).symm, fun s hs' => ?_⟩
          cases hs'
      refine ⟨own_of_kept (kept_relabel ..)
        ⟨hx.upper, hcheck.mpr hx.valid, hpos, himposed.1, himposed.2⟩ hd (Int64.le_refl _) rfl, ?_⟩
      refine .of_change rfl horigin (hkey.trans (hs.tended hl).filed)
        (.sets (kept_relabel ..) ?_ ht (hop.imp (fun h => ⟨h.1, h.2.1⟩) id) rfl rfl rfl)
      rw [base, kept_relabel, base, kept_of_lease hl]
      rfl

/-- A plain command keeps a slot the origin's own, and reports what it changed. -/
theorem Own.move (ho : o.Own t) (hs : o.Sound c.key) (hc : c.Plain) (ht : t ≤ now)
    (hpos : 0 < now) : (o.move now c).slot.Own now ∧ Reports t now c o (o.move now c) := by
  cases hc with
  | register duration hdirty hknown => exact ho.register hs ht hpos hdirty hknown
  | renew app id dirtyAt => exact ho.renew hs ht
  | cancel app id => exact ho.withdraw hs ht rfl rfl _
  | evict seen app id grace => exact ho.withdraw hs ht rfl rfl _
  | updateStatus app id hs' =>
    exact ho.changeStatus hs ht hpos rfl (puts_impose _) (.inl ⟨rfl, rfl, hs'⟩)
  | deleteOverride app id s =>
    exact ho.changeStatus hs ht hpos rfl (puts_release s) (.inr ⟨rfl, rfl⟩)

end Slot

end ServiceRegistry
