import ServiceRegistry.Proofs.Replication.Origin
import ServiceRegistry.Proofs.Replication.Plain

/-! # What an origin tells of an instance

Whatever a client asks of an origin, with any statuses, overrides and times of change, an
operation tells peers of nothing that they could see, or of one item. `Reachable.tale` follows the
items of one instance along a run of such operations.
-/

namespace ServiceRegistry

set_option autoImplicit false

open Replication

namespace Replication.Item

def Known (i : Item) : Prop := i.operation = .statusUpdate → i.status ≠ some .unknown

instance (i : Item) : Decidable i.Known := inferInstanceAs (Decidable (_ → _))

end Replication.Item

namespace Slot

variable {k : Key} {now : Millis} {o o' o₁ : Slot} {c : Command} {m : Move} {i : Item}

theorem frame_enrolled (s : Slot) (now : Millis) (origin : Origin) (x : Instance) :
    (s.enrolled now origin x).2.2.frame = (s.chosen x).frame := by
  have hsettle : (settle s.override origin (s.chosen x)).2.frame = (s.chosen x).frame := by
    unfold settle
    split <;> rfl
  rw [← hsettle]
  rfl

theorem Valid.of_base {s s' : Slot} (h : s.Valid) (hbase : s'.base = s.base) : s'.Valid := by
  intro x d hx
  have hs : s.base = some (x.frame, d) := by
    rw [← hbase, base, hx]
    rfl
  obtain ⟨y, hy, hframe⟩ := kept_of_base hs
  obtain ⟨hcheck, hd⟩ := h y d hy
  exact ⟨(Instance.check_of_frame hframe).2.mp hcheck, checkLease_congr hd⟩

theorem Valid.enroll (h : o.Valid) (hs : o.Sound k) {x : Instance} {d : UInt64}
    (hx : x.check = .ok ()) (hd : checkLease x.id d = .ok ()) (origin : Origin) :
    (o.enroll now origin x d).slot.Valid := by
  intro y e hy
  cases (kept_enroll ..).symm.trans hy
  have hchosen : (o.chosen x).check = .ok () := by
    rw [chosen, hs.held_eq_lease]
    cases hl : o.lease with
    | none => exact hx
    | some l =>
      simp only [Registry.newer]
      split
      · exact (h _ _ (kept_of_lease hl)).1
      · exact hx
  exact ⟨(Instance.check_of_frame (frame_enrolled ..)).2.mpr hchosen, checkLease_congr hd⟩

theorem Sound.kept_renew (hs : o.Sound k) (origin : Origin) (dirtyAt : Option Millis) :
    (o.renew now origin dirtyAt).slot.kept = o.kept := by
  rw [Slot.renew, hs.held_eq_lease]
  cases hl : o.lease with
  | none => rfl
  | some l => exact (kept_of_lease hl).symm

theorem Valid.withdraw (h : o.Valid) (test : Lease Instance → Bool) :
    (o.withdraw now test).slot.Valid := by
  unfold Slot.withdraw
  split
  · exact h
  · exact fun _ _ hx => nomatch hx

theorem Valid.move (h : o.Valid) (hs : o.Sound c.key) (now : Millis) :
    (o.move now c).slot.Valid := by
  cases c with
  | register origin record duration =>
    simp only [Slot.move]
    cases haccept : accept now record duration with
    | error e => exact h
    | ok p =>
      obtain ⟨hadmissible, -, hlease, hincoming⟩ := accept_eq_ok_iff.mp haccept
      have hcheck : p.1.check = .ok () := by
        rw [hincoming]
        exact hadmissible
      exact h.enroll hs hcheck (checkLease_congr hlease) origin
  | renew origin app id dirtyAt =>
    exact h.of_base (congrArg (Option.map _) (hs.kept_renew origin dirtyAt))
  | cancel origin app id => exact h.withdraw _
  | evict seen app id grace => exact h.withdraw _
  | updateStatus origin app id status dirtyAt =>
    exact h.of_base (hs.base_changeStatus (puts_impose status) dirtyAt now).1
  | deleteOverride origin app id status dirtyAt =>
    exact h.of_base (hs.base_changeStatus (puts_release status) dirtyAt now).1

/-- An item says what an operation did to a slot, as peers see it. -/
structure Voices (o o' : Slot) (i : Item) : Prop where
  tells : i.Known → ∀ t, t ≤ i.dirtyAt → Tells t o.plain o'.plain i
  time : ∀ p, o'.kept = some p → p.1.dirtyAt = i.dirtyAt

/-- What a move at an origin tells: nothing that peers could see, or one item. -/
inductive Utters (now : Millis) (c : Command) (o : Slot) (m : Move) : Prop
  | silent : (∀ version, shipped (m.effects now c version) = []) → m.slot.kept = o.kept →
    m.slot.override = o.override → Utters now c o m
  | item (i : Item) : (∀ version, shipped (m.effects now c version) = [i]) →
    i.Addressed c.key → Voices o m.slot i.plain → Utters now c o m

theorem Utters.of_change {kind : ChangeKind} {record : Instance} {told : UInt64}
    (hchange : m.change = some (kind, record, told)) (horigin : c.origin = .client)
    (hkey : record.key = c.key)
    (hvoices : Voices o m.slot
      ({ Item.of c.operation record now with lease := some told } : Item).plain) :
    Utters now c o m := by
  refine .item _ (fun version => ?_) (Item.addressed_of hkey (upper_key c) ..) hvoices
  rw [Registry.shipped_effects_of_change hchange, shipped_shipments, horigin]

theorem plain_congr (hkept : o'.kept = o.kept) (hoverride : o'.override = o.override) :
    o'.plain.kept = o.plain.kept ∧ o'.plain.override = o.plain.override := by
  refine ⟨?_, ?_⟩
  · rw [kept_plain, hkept, kept_plain]
  · simp only [plain, hoverride]

theorem Sound.utters_enroll (hs : o.Sound c.key) (hop : c.operation = .register)
    (horigin : c.origin = .client) {x : Instance} (hkey : x.key = c.key) (d : UInt64) :
    Utters now c o (o.enroll now .client x d) := by
  have hkept := kept_enroll o now .client x d
  have hrecord : (o.enrolled now .client x).2.2.key = c.key := by
    rw [(Instance.check_of_frame (frame_enrolled ..)).1]
    exact hs.key_chosen hkey
  have hplain : (o.enroll now .client x d).slot.plain.kept =
      some ((o.enrolled now .client x).2.2.plain, d) := by
    rw [kept_plain, hkept]
    rfl
  refine .of_change (change_enroll ..) horigin hrecord ⟨fun _ t ht => ?_, fun p hp => ?_⟩
  · exact .registers hplain ht hop rfl rfl
  · cases hkept.symm.trans hp
    rfl

theorem Sound.utters_renew {app id : String} (hs : o.Sound (Registry.keyOf app id))
    (dirtyAt : Option Millis) :
    Utters now (.renew .client app id dirtyAt) o (o.renew now .client dirtyAt) := by
  simp only [Slot.renew, hs.held_eq_lease]
  cases hl : o.lease with
  | none => exact .silent (fun _ => rfl) rfl rfl
  | some l =>
    have hkept : (⟨some (l.renew now), o.override⟩ : Slot).kept = o.kept := (kept_of_lease hl).symm
    simp only
    cases hanswer : renewalAnswer .client dirtyAt (l.renew now).holder with
    | notFound | conflict => exact .silent (fun _ => rfl) hkept rfl
    | renewed =>
      obtain ⟨hfiled, hupper, hlive, -⟩ := hs.tended hl
      have hheld : (⟨some (l.renew now), o.override⟩ : Slot).held = some (l.renew now) := by
        simp [held, hlive]
      obtain ⟨hsame, hoverride⟩ := plain_congr (o := o) hkept rfl
      have hplain : o.plain.kept = some (l.holder.plain, l.duration) := by
        rw [kept_plain, kept_of_lease hl]
        rfl
      refine .item _ (shipped_of_beat rfl rfl hheld rfl) (Item.addressed_of hfiled hupper ..)
        ⟨fun _ t _ => .beats hplain hsame hoverride rfl rfl, fun p hp => ?_⟩
      cases hp
      rfl

theorem Sound.utters_withdraw (hs : o.Sound c.key) (hop : c.operation = .cancel)
    (horigin : c.origin = .client) (test : Lease Instance → Bool) :
    Utters now c o (o.withdraw now test) := by
  unfold Slot.withdraw
  cases hl : o.lease.filter test with
  | none => exact .silent (fun _ => rfl) rfl rfl
  | some l =>
    have hkey := (hs.tended (Option.eq_some_of_filter_eq_some hl)).filed
    exact .of_change rfl horigin hkey ⟨fun _ _ _ => .cancels rfl hop, fun _ hp => nomatch hp⟩

theorem Sound.utters_changeStatus {change : StatusChange} {status : Status}
    {override : Option Status} (hs : o.Sound c.key) (horigin : c.origin = .client)
    (hputs : Puts change status override)
    (hop : c.operation = .statusUpdate ∧ override = some status ∨
      c.operation = .deleteStatusOverride ∧ override = none) (dirtyAt : Option Millis) :
    Utters now c o (o.changeStatus now dirtyAt change) := by
  simp only [Slot.changeStatus, hs.held_eq_lease]
  cases hl : o.lease with
  | none => exact .silent (fun _ => rfl) rfl rfl
  | some l =>
    simp only
    split
    · exact .silent (fun _ => rfl) rfl rfl
    cases hp : change o.override l.holder with
    | none => exact .silent (fun _ => rfl) rfl rfl
    | some p =>
      cases hputs.changed _ _ _ hp
      have hbase : (⟨some (relabel l now (stamp now dirtyAt
          { l.holder with status, overridden := override })), override⟩ : Slot).plain.base =
            o.plain.base := by
        rw [base_plain, base_plain, base, kept_relabel, base, kept_of_lease hl]
        rfl
      have hplain := kept_plain ⟨some (relabel l now (stamp now dirtyAt
        { l.holder with status, overridden := override })), override⟩
      rw [kept_relabel] at hplain
      refine .of_change rfl horigin (hs.tended hl).filed ⟨fun hknown t ht => ?_, fun p hp => ?_⟩
      · refine .sets hplain hbase ht ?_ rfl rfl rfl
        rcases hop with ⟨hop, rfl⟩ | ⟨hop, rfl⟩
        · have hstatus : status ≠ .unknown := fun h => hknown hop (congrArg some h)
          exact .inl ⟨hop, by simp [Instance.plain, Registry.imposed, stamp, hstatus]⟩
        · exact .inr ⟨hop, rfl⟩
      · rw [kept_relabel] at hp
        cases hp
        rfl

theorem Sound.utters (hs : o.Sound c.key) (horigin : c.origin = .client) (now : Millis) :
    Utters now c o (o.move now c) := by
  cases c with
  | register origin record duration =>
    cases horigin
    simp only [Slot.move]
    cases haccept : accept now record duration with
    | error e => exact .silent (fun _ => rfl) rfl rfl
    | ok p => exact hs.utters_enroll rfl rfl (Registry.accept_key haccept) p.2
  | renew origin app id dirtyAt =>
    cases horigin
    exact hs.utters_renew dirtyAt
  | cancel origin app id => exact hs.utters_withdraw rfl horigin _
  | evict seen app id grace => exact hs.utters_withdraw rfl rfl _
  | updateStatus origin app id status dirtyAt =>
    exact hs.utters_changeStatus horigin (puts_impose status) (.inl ⟨rfl, rfl⟩) dirtyAt
  | deleteOverride origin app id status dirtyAt =>
    exact hs.utters_changeStatus horigin (puts_release status) (.inr ⟨rfl, rfl⟩) dirtyAt

structure Told (k : Key) (o o' : Slot) (i : Item) : Prop where
  addressed : i.Addressed k
  tells : ∀ t, t ≤ i.dirtyAt → Tells t o o' i
  own : o'.Own i.dirtyAt
  time : ∀ p, o'.kept = some p → p.1.dirtyAt = i.dirtyAt

/-- What a slot of an origin goes through, as peers see it, while some items are told of it. -/
inductive Tale (k : Key) : Slot → List Item → Slot → Prop where
  | nil (o : Slot) : Tale k o [] o
  | cons {o o₁ o' : Slot} {i : Item} {items : List Item} : Told k o o₁ i →
    Tale k o₁ items o' → Tale k o (i :: items) o'

variable {items rest : List Item}

theorem Voices.told (h : Voices o o' i) (hi : i.Addressed k) (hs : o'.Sound k) (hv : o'.Valid)
    (hknown : i.Known) (hpos : 0 < i.dirtyAt) : Told k o.plain o'.plain i where
  addressed := hi
  tells := h.tells hknown
  own := by
    refine hs.own_plain hv fun p hp => ?_
    rw [h.time p hp]
    exact ⟨hpos, Int64.le_refl _⟩
  time p hp := by
    rw [kept_plain, Option.map_eq_some_iff] at hp
    obtain ⟨q, hq, rfl⟩ := hp
    exact h.time q hq

theorem Tells.congr {t : Millis} (h : Tells t o₁ o' i) (hkept : o₁.kept = o.kept)
    (hoverride : o₁.override = o.override) : Tells t o o' i := by
  cases h with
  | registers hx ht hop hrecord hlease => exact .registers hx ht hop hrecord hlease
  | beats hx hsame hover hop hrecord =>
    exact .beats (hkept ▸ hx) (hsame.trans hkept) (hover.trans hoverride) hop hrecord
  | cancels hempty hop => exact .cancels hempty hop
  | sets hx hbase ht hop hrecord hstatus hdirty =>
    exact .sets hx (hbase.trans (congrArg (Option.map _) hkept)) ht hop hrecord hstatus hdirty

theorem Tale.congr (h : Tale k o₁ items o') (hkept : o₁.kept = o.kept)
    (hoverride : o₁.override = o.override) : ∃ o', Tale k o items o' := by
  cases h with
  | nil => exact ⟨o, .nil o⟩
  | cons htold hrest =>
    refine ⟨o', .cons { htold with tells := fun t ht => ?_ } hrest⟩
    exact (htold.tells t ht).congr hkept hoverride

theorem Tale.append (h : Tale k o (items ++ rest) o') :
    ∃ o₁, Tale k o items o₁ ∧ Tale k o₁ rest o' := by
  induction items generalizing o with
  | nil => exact ⟨o, .nil o, h⟩
  | cons i items ih =>
    cases h with
    | cons htold hrest =>
      obtain ⟨o₂, hitems, hrest⟩ := ih hrest
      exact ⟨o₂, .cons htold hitems, hrest⟩

end Slot

namespace Registry

variable {r : Registry}

theorem Reachable.valid (h : r.Reachable) (k : Key) : (r.slot k).Valid := by
  induction h with
  | start settings now => exact fun _ _ hx => nomatch hx
  | @perform r now c hr ih =>
    rw [hr.sound.slot_perform now c k]
    split
    · rename_i hk
      subst hk
      exact ih.move (hr.sound c.key) now
    · exact ih
  | prune _ ih =>
    rw [slot_prune]
    exact ih
  | takeDirty _ ih | purge _ _ ih | rotate _ ih => exact ih

def emitted (r : Registry) : List (Millis × Command) → List Item
  | [] => []
  | (now, c) :: rest =>
    let s := r.perform now c
    shipped s.effects ++ s.registry.emitted rest

/-- The items about one instance that a client's operations tell of follow its slot, for what peers
can see of them. -/
theorem Reachable.tale (h : r.Reachable) (k : Key) {calls : List (Millis × Command)}
    (hcalls : ∀ call ∈ calls, call.2.origin = .client)
    (hitems : ∀ i ∈ (r.emitted calls).filter (·.key = k), i.Known ∧ 0 < i.dirtyAt) :
    ∃ o', Slot.Tale k (r.slot k).plain (((r.emitted calls).filter (·.key = k)).map Item.plain)
      o' := by
  induction calls generalizing r with
  | nil => exact ⟨_, .nil _⟩
  | cons call rest ih =>
    obtain ⟨now, c⟩ := call
    obtain ⟨horigin, hrest⟩ := List.forall_mem_cons.mp hcalls
    have hr : (r.perform now c).registry.Reachable := .perform now c h
    have hacts := perform_acts h.sound.filed now c
    rw [emitted, List.filter_append, hacts.effects] at hitems ⊢
    obtain ⟨hnew, hlater⟩ := List.forall_mem_append.mp hitems
    obtain ⟨o', htale⟩ := ih hr hrest hlater
    have hutters := (h.sound c.key).utters horigin now
    by_cases hk : c.key = k
    · subst hk
      have hslot := (hacts.slot c.key).trans (if_pos rfl)
      rw [hslot] at htale
      cases hutters with
      | silent hshipped hkept hoverride =>
        obtain ⟨hsame, hover⟩ := Slot.plain_congr hkept hoverride
        rw [hshipped]
        exact htale.congr hsame hover
      | item i hshipped hi hvoices =>
        have hmine : i.key = c.key := hi.key
        rw [hshipped, List.filter_cons_of_pos (by simpa using hmine)] at hnew ⊢
        obtain ⟨hknown, hpos⟩ := hnew i List.mem_cons_self
        have hsound := hr.sound c.key
        have hvalid := hr.valid c.key
        rw [hslot] at hsound hvalid
        exact ⟨o', .cons (hvoices.told (Item.addressed_plain_iff.mpr hi) hsound hvalid hknown hpos)
          htale⟩
    · rw [(hacts.slot k).trans (if_neg hk)] at htale
      cases hutters with
      | silent hshipped =>
        rw [hshipped]
        exact ⟨o', htale⟩
      | item i hshipped hi =>
        have hother : i.key ≠ k := hi.key ▸ hk
        rw [hshipped, List.filter_cons_of_neg (by simpa using hother)]
        exact ⟨o', htale⟩

end Registry

end ServiceRegistry
