import ServiceRegistry.Proofs.Replication.Pending

/-! # Records without an unknown override

An override `unknown` imposes nothing. An origin may keep one in its records and tell of it, but a
peer that registers such a record drops it. So items may be taken for their plain versions, and an
origin for what its peers can see of it.
-/

namespace ServiceRegistry

set_option autoImplicit false

open Replication

/-- The record without an override `unknown`. -/
def Instance.plain (x : Instance) : Instance := { x with overridden := Registry.imposed x }

theorem Registry.imposed_plain (x : Instance) : imposed x.plain = imposed x := by
  simp [imposed, Instance.plain, Option.filter_filter]

theorem Instance.plain_plain (x : Instance) : x.plain.plain = x.plain := by
  rw [Instance.plain, Registry.imposed_plain]
  rfl

namespace Replication.Item

def plain (i : Item) : Item := { i with record := i.record.map Instance.plain }

theorem addressed_plain_iff {k : Key} {i : Item} : i.plain.Addressed k ↔ i.Addressed k := by
  constructor
  · intro h
    exact ⟨h.key, h.upper, fun x hx => h.record x.plain (Option.map_eq_some_iff.mpr ⟨x, hx, rfl⟩)⟩
  · intro h
    refine ⟨h.key, h.upper, fun y hy => ?_⟩
    obtain ⟨x, hx, rfl⟩ := Option.map_eq_some_iff.mp hy
    exact h.record x hx

theorem absorb_plain (pending incoming : Item) :
    pending.plain.absorb incoming.plain = (pending.absorb incoming).map plain := by
  unfold absorb
  cases h : pending.operation <;> cases h' : incoming.operation <;>
    simp [plain, h, h', Option.map_or]

end Replication.Item

theorem Replication.Pending.enqueue_plain (incoming : Item) (items : List Item) :
    enqueue incoming.plain (items.map Item.plain) = (enqueue incoming items).map Item.plain := by
  induction items with
  | nil => rfl
  | cons i rest ih =>
    cases rest with
    | nil =>
      simp only [List.map_cons, List.map_nil, enqueue, Item.absorb_plain]
      cases i.absorb incoming <;> rfl
    | cons j rest => exact congrArg (i.plain :: ·) ih

namespace Slot

variable {k : Key} {s : Slot} {x : Instance}

theorem accept_plain_iff {now : Millis} {duration : Option UInt64} {y : Instance} {d : UInt64} :
    accept now x.plain duration = .ok (y, d) ↔
      ∃ z, accept now x duration = .ok (z, d) ∧ y = z.plain := by
  simp only [accept_eq_ok_iff]
  constructor
  · rintro ⟨hadmissible, hgranted, hlease, rfl⟩
    exact ⟨_, ⟨hadmissible, hgranted, hlease, rfl⟩, rfl⟩
  · rintro ⟨z, ⟨hadmissible, hgranted, hlease, rfl⟩, rfl⟩
    exact ⟨hadmissible, hgranted, hlease, rfl⟩

theorem settle_peer_plain (override : Option Status) (x : Instance) :
    settle override .peer x.plain = settle override .peer x := by
  have hplain := Registry.imposed_plain x
  cases himposed : Registry.imposed x with
  | none =>
    rw [himposed] at hplain
    simp only [settle, hplain, himposed]
    rfl
  | some status =>
    have hsame : x.plain = x := by
      rw [Instance.plain, himposed, ← overridden_of_imposed himposed]
    rw [hsame]

theorem settle_peer_of_agrees {override : Option Status} (h : Agrees override x) :
    settle override .peer x = (Registry.imposed x, x.plain) := by
  cases himposed : Registry.imposed x with
  | none =>
    simp only [settle, himposed, Instance.plain]
  | some status =>
    have hoverridden := overridden_of_imposed himposed
    rcases h with ⟨hsame, hshown⟩ | ⟨-, hunknown⟩
    · have hstatus := hshown status (hsame.trans hoverridden)
      simp only [settle, himposed, Instance.plain, ← hstatus, hoverridden]
    · have hknown : status ≠ .unknown := by
        simpa using (Option.filter_eq_some_iff.mp himposed).2
      exact absurd (Option.some.inj (hoverridden.symm.trans hunknown)) hknown

theorem enroll_peer_plain (s : Slot) (now : Millis) (x : Instance) (d : UInt64) :
    s.enroll now .peer x.plain d = s.enroll now .peer x d := by
  have hsettle : settle s.override .peer (s.chosen x.plain) =
      settle s.override .peer (s.chosen x) := by
    unfold chosen
    split
    · rename_i l _
      have hnewer : Registry.newer l.holder x.plain =
          if x.dirtyAt < l.holder.dirtyAt then l.holder else x.plain := rfl
      rw [hnewer, Registry.newer]
      split
      · rfl
      · exact settle_peer_plain s.override x
    · exact settle_peer_plain s.override x
  simp only [enroll, enrolled, hsettle]

theorem receive_plain (s : Slot) (now : Millis) (i : Item) :
    s.receive now i.plain = s.receive now i := by
  cases hop : i.operation
  case register =>
    cases hrecord : i.record with
    | none => simp [receive, Item.command?, Item.plain, hop, hrecord]
    | some x =>
      simp only [receive, Item.command?, Item.plain, hop, hrecord, Option.map_some, move]
      cases haccept : accept now x i.lease with
      | ok p =>
        rw [accept_plain_iff.mpr ⟨p.1, haccept, rfl⟩]
        exact congrArg Move.slot (enroll_peer_plain s now p.1 p.2)
      | error e =>
        cases hplain : accept now x.plain i.lease with
        | error e' => rfl
        | ok p =>
          obtain ⟨z, hz, -⟩ := accept_plain_iff.mp hplain
          cases haccept.symm.trans hz
  all_goals simp only [receive, Item.command?, Item.plain, hop]

theorem receiveEach_plain (s : Slot) (deliveries : List (Millis × Item)) :
    s.receiveEach (deliveries.map fun d => (d.1, d.2.plain)) = s.receiveEach deliveries := by
  simp only [receiveEach, List.foldl_map, receive_plain]

def plain (s : Slot) : Slot where
  lease := s.lease.map fun l => { l with holder := l.holder.plain }
  override := s.override.filter (· ≠ .unknown)

theorem kept_plain (s : Slot) : s.plain.kept = s.kept.map fun p => (p.1.plain, p.2) := by
  simp [kept, plain, Function.comp_def]

theorem base_plain (s : Slot) : s.plain.base = s.base := by
  rw [base, base, kept_plain, Option.map_map]
  rfl

def Valid (s : Slot) : Prop :=
  ∀ x d, s.kept = some (x, d) → x.check = .ok () ∧ checkLease x.id d = .ok ()

/-- What peers can see of a sound slot is an origin's own. -/
theorem Sound.own_plain (hs : s.Sound k) (hv : s.Valid) {t : Millis}
    (ht : ∀ p, s.kept = some p → 0 < p.1.dirtyAt ∧ p.1.dirtyAt ≤ t) : s.plain.Own t := by
  intro y d hy
  rw [kept_plain, Option.map_eq_some_iff] at hy
  obtain ⟨⟨x, e⟩, hkept, heq⟩ := hy
  cases heq
  obtain ⟨l, hl, hlx⟩ := Option.map_eq_some_iff.mp hkept
  cases hlx
  obtain ⟨hfiled, hupper, -, hagrees⟩ := hs.tended hl
  obtain ⟨hcheck, hd⟩ := hv _ _ hkept
  obtain ⟨hpos, hle⟩ := ht _ hkept
  have happ : l.holder.app = k.1 := congrArg Prod.fst hfiled
  refine ⟨⟨?_, hcheck, hpos, ?_, ?_⟩, hd, hle, ?_⟩
  · rw [← happ] at hupper
    exact hupper
  · intro h
    simpa using (Option.filter_eq_some_iff.mp h).2
  · intro status h
    obtain ⟨hoverridden, hknown⟩ := Option.filter_eq_some_iff.mp h
    rcases hagrees with ⟨hsame, hshown⟩ | ⟨-, hunknown⟩
    · exact hshown status (hsame.trans hoverridden)
    · cases hunknown.symm.trans hoverridden
      simp at hknown
  · rcases hagrees with ⟨hsame, -⟩ | ⟨hnone, hunknown⟩
    · exact congrArg (Option.filter (· ≠ .unknown)) hsame
    · simp only [plain, Instance.plain, Registry.imposed, hnone, hunknown]
      rfl

end Slot

end ServiceRegistry
