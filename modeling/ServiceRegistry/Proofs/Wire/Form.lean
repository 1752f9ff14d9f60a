import Mathlib.Data.List.Perm.Basic
import ServiceRegistry.Json.Typed

/-! # Forms of JSON values

A value can be written in several forms: the members of an object come in any order, and a member
that holds its default may be left out. Encoders and decoders meet in these forms: what is written
is one of them (`form_filter`), and each of them is read as the value (`structureOf_form`,
`tagged_form`).
-/

namespace ServiceRegistry.Json

set_option autoImplicit false

mutual

theorem intact_of_readable {levels : Nat} : (v : Json) → v.readable levels → v.intact
  | .null, _ | .bool _, _ | .int _, _ | .float _, _ | .str _, _ => rfl
  | .arr items, h => by
    cases levels with
    | zero => cases h
    | succ levels => exact intactItems_of_readableItems items h
  | .obj entries, h => by
    cases levels with
    | zero => cases h
    | succ levels => exact intactEntries_of_readableEntries entries h

theorem intactItems_of_readableItems {levels : Nat} :
    (items : List Json) → readableItems levels items → intactItems items
  | [], _ => rfl
  | v :: rest, h => by
    obtain ⟨hv, hrest⟩ := Bool.and_eq_true_iff.mp h
    exact Bool.and_eq_true_iff.mpr
      ⟨intact_of_readable v hv, intactItems_of_readableItems rest hrest⟩

theorem intactEntries_of_readableEntries {levels : Nat} :
    (entries : List (String × Json)) → readableEntries levels entries → intactEntries entries
  | [], _ => rfl
  | (_, v) :: rest, h => by
    obtain ⟨hv, hrest⟩ := Bool.and_eq_true_iff.mp h
    exact Bool.and_eq_true_iff.mpr
      ⟨intact_of_readable v hv, intactEntries_of_readableEntries rest hrest⟩

end

/-- No more containers than these are nested in the value, and each can be read. -/
def Readable (depth : Nat) (v : Json) : Prop := ∀ levels, depth ≤ levels → v.readable levels

namespace Readable

variable {depth : Nat} {v : Json}

theorem intact (h : Readable depth v) : v.intact :=
  intact_of_readable v (h depth (Nat.le_refl depth))

@[simp]
theorem null (depth : Nat) : Readable depth .null := fun _ _ => rfl

@[simp]
theorem bool (depth : Nat) (b : Bool) : Readable depth (.bool b) := fun _ _ => rfl

@[simp]
theorem int (depth : Nat) (n : Int) : Readable depth (.int n) := fun _ _ => rfl

@[simp]
theorem str (depth : Nat) (s : String) : Readable depth (.str s) := fun _ _ => rfl

@[simp]
theorem ofNat (depth n : Nat) : Readable depth (.ofNat n) := .int depth n

@[simp]
theorem ofUInt16 (depth : Nat) (n : UInt16) : Readable depth (.ofUInt16 n) := .int depth n.toNat

@[simp]
theorem ofUInt64 (depth : Nat) (n : UInt64) : Readable depth (.ofUInt64 n) := .int depth n.toNat

@[simp]
theorem ofInt64 (depth : Nat) (n : Int64) : Readable depth (.ofInt64 n) := .int depth n.toInt

@[simp]
theorem ofOption {α : Type} {toJson : α → Json} (h : ∀ a, Readable depth (toJson a))
    (o : Option α) : Readable depth (Json.ofOption toJson o) := by
  cases o with
  | none => exact null depth
  | some a => exact h a

theorem arr {items : List Json} (h : ∀ v ∈ items, Readable depth v) :
    Readable (depth + 1) (.arr items) := by
  intro levels hlevels
  obtain ⟨levels, rfl⟩ := Nat.exists_eq_add_of_le' (Nat.le_trans (Nat.le_add_left 1 depth) hlevels)
  have hinner := Nat.le_of_succ_le_succ hlevels
  rw [readable]
  induction items with
  | nil => rfl
  | cons v rest ih =>
    obtain ⟨hv, hrest⟩ := List.forall_mem_cons.mp h
    exact Bool.and_eq_true_iff.mpr ⟨hv levels hinner, ih hrest⟩

theorem obj {entries : List (String × Json)} (h : ∀ e ∈ entries, Readable depth e.2) :
    Readable (depth + 1) (.obj entries) := by
  intro levels hlevels
  obtain ⟨levels, rfl⟩ := Nat.exists_eq_add_of_le' (Nat.le_trans (Nat.le_add_left 1 depth) hlevels)
  have hinner := Nat.le_of_succ_le_succ hlevels
  rw [readable]
  induction entries with
  | nil => rfl
  | cons e rest ih =>
    obtain ⟨he, hrest⟩ := List.forall_mem_cons.mp h
    exact Bool.and_eq_true_iff.mpr ⟨he levels hinner, ih hrest⟩

end Readable

section Scalars

variable {α : Type}

theorem string_str (s : String) : string (.str s) = .ok s := rfl

theorem boolean_bool (b : Bool) : boolean (.bool b) = .ok b := rfl

theorem wholeIn_int {low high n : Int} (hlow : low ≤ n) (hhigh : n ≤ high) :
    wholeIn low high (.int n) = .ok n := if_pos ⟨hlow, hhigh⟩

theorem count_ofNat {n : Nat} (h : n < UInt64.size) : count (ofNat n) = .ok n := by
  have hhigh : (n : Int) ≤ UInt64.size - 1 := by omega
  rw [count, ofNat, wholeIn_int (Int.natCast_nonneg n) hhigh]
  rfl

theorem uint64_ofUInt64 (n : UInt64) : uint64 (ofUInt64 n) = .ok n := by
  have hcount : count (ofUInt64 n) = .ok n.toNat := count_ofNat n.toNat_lt
  rw [uint64, hcount]
  exact congrArg Except.ok UInt64.ofNat_toNat

theorem uint16_ofUInt16 (n : UInt16) : uint16 (ofUInt16 n) = .ok n := by
  have hlt := n.toNat_lt
  have hhigh : (n.toNat : Int) ≤ UInt16.size - 1 := by
    have hsize : UInt16.size = 2 ^ 16 := rfl
    omega
  rw [uint16, ofUInt16, wholeIn_int (Int.natCast_nonneg _) hhigh]
  exact congrArg Except.ok UInt16.ofNat_toNat

theorem int64_ofInt64 (n : Int64) : int64 (ofInt64 n) = .ok n := by
  have hlow : Int64.minValue.toInt ≤ n.toInt := Int64.le_iff_toInt_le.mp n.minValue_le
  have hhigh : n.toInt ≤ Int64.maxValue.toInt := Int64.le_iff_toInt_le.mp n.le_maxValue
  rw [int64, ofInt64, wholeIn_int hlow hhigh]
  exact congrArg Except.ok (Int64.ofInt_toInt n)

theorem oneOf_str {words : List (String × α)} {word : String} {a : α}
    (h : words.lookup word = some a) (wasRead : Bool) :
    oneOf words wasRead (.str word) = .ok a := by
  rw [oneOf, h]
  rfl

theorem optional_of_ne_null {decode : Decoder α} {v : Json} {a : α} (hv : v ≠ .null)
    (h : decode v = .ok a) : optional decode v = .ok (some a) := by
  unfold optional
  split
  · exact absurd rfl hv
  · rw [h]
    rfl

theorem optional_ofOption {toJson : α → Json} {decode : Decoder α}
    (h : ∀ a, decode (toJson a) = .ok a) (hnull : ∀ a, toJson a ≠ .null) (o : Option α) :
    optional decode (ofOption toJson o) = .ok o := by
  cases o with
  | none => rfl
  | some a => exact optional_of_ne_null (hnull a) (h a)

end Scalars

/-- A member of an object: its name, what is written for it, what else may stand for the same, and
whether it may be left out since it holds its default. -/
structure Member where
  name : String
  value : Json
  Form : Json → Prop
  Spare : Prop

namespace Member

def plain (name : String) (value : Json) : Member := ⟨name, value, (· = value), False⟩

def spare (name : String) (value : Json) (isDefault : Prop) : Member :=
  ⟨name, value, (· = value), isDefault⟩

def entry (p : Member) : String × Json := (p.name, p.value)

@[simp]
theorem name_plain (name : String) (value : Json) : (plain name value).name = name := rfl

/-- What is written for the member is one of its forms, and all of these can be read whole. -/
structure Sound (depth : Nat) (p : Member) : Prop where
  written : p.Form p.value
  readable : ∀ v, p.Form v → Readable depth v

@[simp]
theorem sound_plain {depth : Nat} {value : Json} (h : Readable depth value) (name : String) :
    (plain name value).Sound depth := ⟨rfl, fun _ hv => hv ▸ h⟩

@[simp]
theorem sound_spare {depth : Nat} {value : Json} (h : Readable depth value) (name : String)
    (isDefault : Prop) : (spare name value isDefault).Sound depth := ⟨rfl, fun _ hv => hv ▸ h⟩

end Member

/-- The members of one object, of which no two have the same name. -/
structure Regular (depth : Nat) (members : List Member) : Prop where
  nodup : (members.map Member.name).Nodup
  sound : ∀ p ∈ members, p.Sound depth

theorem Regular.tail {depth : Nat} {p : Member} {members : List Member}
    (h : Regular depth (p :: members)) : Regular depth members :=
  ⟨(List.nodup_cons.mp h.nodup).2, (List.forall_mem_cons.mp h.sound).2⟩

/-- These entries stand for these members, in order. -/
inductive Laid : List Member → List (String × Json) → Prop where
  | nil : Laid [] []
  | put {p : Member} {v : Json} {members : List Member} {entries : List (String × Json)} :
    p.Form v → Laid members entries → Laid (p :: members) ((p.name, v) :: entries)
  | leave {p : Member} {members : List Member} {entries : List (String × Json)} :
    p.Spare → Laid members entries → Laid (p :: members) entries

/-- An object with these members, in any order. -/
def Form (members : List Member) (v : Json) : Prop :=
  ∃ entries laid, v = .obj entries ∧ entries.Perm laid ∧ Laid members laid

variable {members : List Member} {entries laid : List (String × Json)} {p : Member} {v : Json}
  {depth : Nat} {α : Type} {a : α}

/-- Whichever members are left out, if they hold their defaults, the others make up a form. -/
theorem form_filter (hmembers : Regular depth members) (keep : Member → Bool)
    (hspare : ∀ p ∈ members, keep p = false → p.Spare) :
    Form members (.obj ((members.filter keep).map Member.entry)) := by
  refine ⟨_, _, rfl, .refl _, ?_⟩
  -- The induction needs no more than that each member is sound.
  have hsound := hmembers.sound
  clear hmembers
  induction members with
  | nil => exact .nil
  | cons p rest ih =>
    obtain ⟨hp, hrest⟩ := List.forall_mem_cons.mp hsound
    obtain ⟨hpspare, hrestspare⟩ := List.forall_mem_cons.mp hspare
    cases hkeep : keep p with
    | true =>
      rw [List.filter_cons_of_pos hkeep]
      exact .put hp.written (ih hrestspare hrest)
    | false =>
      rw [List.filter_cons_of_neg (by simp [hkeep])]
      exact .leave (hpspare hkeep) (ih hrestspare hrest)

theorem form_full (hmembers : Regular depth members) :
    Form members (.obj (members.map Member.entry)) := by
  have hall := form_filter hmembers (fun _ => true) fun _ _ => nofun
  rwa [List.filter_true] at hall

namespace Laid

theorem names (h : Laid members laid) : (laid.map Prod.fst).Sublist (members.map Member.name) := by
  induction h with
  | nil => exact .slnil
  | put _ _ ih => exact ih.cons_cons _
  | leave _ _ ih => exact ih.cons _

theorem readable (h : Laid members laid) (hsound : ∀ p ∈ members, p.Sound depth) :
    ∀ e ∈ laid, Readable depth e.2 := by
  induction h with
  | nil => exact nofun
  | put hv _ ih =>
    obtain ⟨hp, hrest⟩ := List.forall_mem_cons.mp hsound
    exact List.forall_mem_cons.mpr ⟨hp.readable _ hv, ih hrest⟩
  | leave _ _ ih => exact ih (List.forall_mem_cons.mp hsound).2

theorem filter_eq_nil {name : String} (h : Laid members laid)
    (hname : name ∉ members.map Member.name) : laid.filter (·.1 = name) = [] := by
  refine List.filter_eq_nil_iff.mpr fun e he => ?_
  rw [decide_eq_true_eq]
  rintro rfl
  exact hname (h.names.subset (List.mem_map_of_mem he))

theorem filter_eq (h : Laid members laid) (hnodup : (members.map Member.name).Nodup)
    (hp : p ∈ members) :
    (∃ v, laid.filter (·.1 = p.name) = [(p.name, v)] ∧ p.Form v) ∨
      (laid.filter (·.1 = p.name) = [] ∧ p.Spare) := by
  induction h with
  | nil => cases hp
  | @put q v rest entries hv hrest ih =>
    obtain ⟨hq, hnodup⟩ := List.nodup_cons.mp hnodup
    rcases List.mem_cons.mp hp with rfl | hp
    · left
      refine ⟨v, ?_, hv⟩
      have hself : decide ((p.name, v).1 = p.name) = true := decide_eq_true rfl
      rw [List.filter_cons, if_pos hself, hrest.filter_eq_nil hq]
    · have hne : q.name ≠ p.name := fun hname => hq (hname ▸ List.mem_map_of_mem hp)
      rw [List.filter_cons_of_neg (by simpa using hne)]
      exact ih hnodup hp
  | @leave q rest entries hspare hrest ih =>
    obtain ⟨hq, hnodup⟩ := List.nodup_cons.mp hnodup
    rcases List.mem_cons.mp hp with rfl | hp
    · exact .inr ⟨hrest.filter_eq_nil hq, hspare⟩
    · exact ih hnodup hp

end Laid

theorem Form.readable (h : Form members v) (hmembers : Regular depth members) :
    Readable (depth + 1) v := by
  obtain ⟨entries, laid, rfl, hperm, hlaid⟩ := h
  exact .obj fun e he => hlaid.readable hmembers.sound e (hperm.mem_iff.mp he)

theorem map_occurrences (name : String) (place : Nat) (entries : List (String × Json)) :
    (occurrences name place entries).map Prod.snd = (entries.filter (·.1 = name)).map Prod.snd := by
  induction entries generalizing place with
  | nil => rfl
  | cons e rest ih =>
    rw [occurrences]
    split
    · rename_i hname
      rw [List.filter_cons_of_pos (by simpa using hname), List.map_cons, List.map_cons, ih]
    · rename_i hname
      rw [List.filter_cons_of_neg (by simpa using hname), ih]

/-- Among the entries a member is found once, or not at all if it may be left out. -/
inductive Present (p : Member) (entries : List (String × Json)) : Prop where
  | once {place : Nat} {v : Json} : occurrences p.name 0 entries = [(place, v)] → p.Form v →
    Present p entries
  | missing : occurrences p.name 0 entries = [] → p.Spare → Present p entries

theorem Laid.present (h : Laid members laid) (hnodup : (members.map Member.name).Nodup)
    (hperm : entries.Perm laid) (hp : p ∈ members) : Present p entries := by
  have hfilter := hperm.filter (·.1 = p.name)
  have hoccurrences := map_occurrences p.name 0 entries
  rcases h.filter_eq hnodup hp with ⟨v, hone, hv⟩ | ⟨hnone, hspare⟩
  · rw [hone, List.perm_singleton] at hfilter
    rw [hfilter] at hoccurrences
    obtain ⟨⟨place, w⟩, hsingle, hw⟩ := List.map_eq_singleton_iff.mp hoccurrences
    cases hw
    exact .once hsingle hv
  · rw [hnone, List.perm_nil] at hfilter
    rw [hfilter] at hoccurrences
    exact .missing (List.map_eq_nil_iff.mp hoccurrences) hspare

namespace Present

theorem field {decode : Decoder α} {absent : Option α} (h : Present p entries)
    (hread : ∀ v, p.Form v → decode v = .ok a) (habsent : p.Spare → absent = some a) :
    Json.field entries p.name decode absent = .value a := by
  unfold Json.field
  cases h with
  | once hsingle hv =>
    rw [hsingle]
    simp only [hread _ hv]
  | missing hnone hspare =>
    rw [hnone, habsent hspare]

theorem plain {name : String} {decode : Decoder α} (h : Present (.plain name v) entries)
    (hread : decode v = .ok a) : Json.field entries name decode = .value a :=
  h.field (fun _ hv => hv ▸ hread) nofun

theorem spare {name : String} {isDefault : Prop} {decode : Decoder α} {default : α}
    (h : Present (.spare name v isDefault) entries) (hread : decode v = .ok a)
    (hdefault : isDefault → a = default) :
    Json.field entries name decode (some default) = .value a :=
  h.field (fun _ hv => hv ▸ hread) fun hspare => congrArg some (hdefault hspare).symm

theorem spareOption {name : String} {toJson : α → Json} {decode : Decoder α} {o : Option α}
    (h : Present (.spare name (.ofOption toJson o) (o = none)) entries)
    (hread : ∀ a, decode (toJson a) = .ok a) (hnull : ∀ a, toJson a ≠ .null) :
    Json.field entries name (optional decode) (some none) = .value o :=
  h.spare (optional_ofOption hread hnull o) fun hnone => hnone

end Present

theorem firstBroken_eq_value {entries : List (String × Json)} (h : ∀ e ∈ entries, e.2.intact)
    (place : Nat) : firstBroken place entries = .value () := by
  induction entries generalizing place with
  | nil => rfl
  | cons e rest ih =>
    obtain ⟨he, hrest⟩ := List.forall_mem_cons.mp h
    rw [firstBroken, if_pos he, ih hrest]

/-- A structure is read from any form that it has if its fields are. -/
theorem structureOf_form {names : List String} {read : List (String × Json) → Reading α}
    (h : Form members v) (hmembers : Regular depth members)
    (hread : ∀ entries, (∀ p ∈ members, Present p entries) → read entries = .value a) :
    structureOf names read v = .ok a := by
  obtain ⟨entries, laid, rfl, hperm, hlaid⟩ := h
  have hintact : ∀ e ∈ entries, e.2.intact :=
    fun e he => (hlaid.readable hmembers.sound e (hperm.mem_iff.mp he)).intact
  have hvalue := hread entries fun p hp => hlaid.present hmembers.nodup hperm hp
  show (read entries <* firstBroken 0 entries).toExcept = .ok a
  rw [hvalue, firstBroken_eq_value hintact]
  rfl

theorem splitTag_of_absent {tag : String} {variants : List String} {levels : Nat}
    {entries : List (String × Json)} (htag : ∀ e ∈ entries, e.1 ≠ tag)
    (hreadable : ∀ e ∈ entries, e.2.readable levels) :
    splitTag tag variants levels entries = .ok (none, entries) := by
  induction entries with
  | nil => rfl
  | cons e rest ih =>
    obtain ⟨hname, htag⟩ := List.forall_mem_cons.mp htag
    obtain ⟨he, hreadable⟩ := List.forall_mem_cons.mp hreadable
    rw [splitTag, if_neg hname, if_pos he, ih htag hreadable]
    rfl

theorem splitTag_append {tag variant : String} {variants : List String} {levels : Nat}
    (hvariant : variants.contains variant) {before after : List (String × Json)}
    (htag : ∀ e ∈ before ++ after, e.1 ≠ tag)
    (hreadable : ∀ e ∈ before ++ after, e.2.readable levels) :
    splitTag tag variants levels (before ++ (tag, .str variant) :: after) =
      .ok (some variant, before ++ after) := by
  induction before with
  | nil =>
    rw [List.nil_append] at htag hreadable ⊢
    rw [splitTag, if_pos rfl, splitTag_of_absent htag hreadable]
    simp only [string, bind, Except.bind, hvariant, if_true]
    rfl
  | cons e rest ih =>
    obtain ⟨hname, htag⟩ := List.forall_mem_cons.mp htag
    obtain ⟨he, hreadable⟩ := List.forall_mem_cons.mp hreadable
    rw [List.cons_append, splitTag, if_neg hname, if_pos he, ih htag hreadable]
    rfl

/-- From any form of a variant its tag is told, and what is left is a form of its members. -/
theorem tagged_form {tag variant : String} {variants : List String} {levels : Nat}
    (h : Form (.plain tag (.str variant) :: members) v)
    (hmembers : Regular depth (.plain tag (.str variant) :: members))
    (hvariant : variants.contains variant) (hlevels : depth ≤ levels) :
    ∃ rest, tagged tag variants levels v = .ok (variant, rest) ∧ Form members rest := by
  have htag : tag ∉ members.map Member.name := (List.nodup_cons.mp hmembers.nodup).1
  obtain ⟨entries, laid, rfl, hperm, hlaid⟩ := h
  cases hlaid with
  | leave hspare _ => cases hspare
  | put hv hlaid =>
    cases hv
    obtain ⟨before, after, rfl⟩ := List.append_of_mem (hperm.mem_iff.mpr List.mem_cons_self)
    have hrest := (List.perm_middle.symm.trans hperm).cons_inv
    refine ⟨.obj (before ++ after), ?_, _, _, rfl, hrest, hlaid⟩
    have hsplit : splitTag tag variants levels (before ++ (tag, .str variant) :: after) =
        .ok (some variant, before ++ after) := by
      apply splitTag_append hvariant
      · rintro e he rfl
        exact htag (hlaid.names.subset (List.mem_map_of_mem (hrest.mem_iff.mp he)))
      · intro e he
        exact hlaid.readable hmembers.tail.sound e (hrest.mem_iff.mp he) levels hlevels
    rw [tagged, show (Member.plain tag (.str variant)).name = tag from rfl, hsplit]
    rfl

section Containers

variable {Form : α → Json → Prop} {toJson : α → Json} {decode : Decoder α}

def OptionForm (Form : α → Json → Prop) : Option α → Json → Prop
  | none, v => v = .null
  | some a, v => Form a v

def ListForm (Form : α → Json → Prop) (items : List α) (v : Json) : Prop :=
  ∃ forms, v = .arr forms ∧ List.Forall₂ Form items forms

namespace Member

/-- An optional member with forms of its own, which may be left out if there is nothing. -/
def ofOption (name : String) (toJson : α → Json) (Form : α → Json → Prop) (o : Option α) : Member :=
  ⟨name, .ofOption toJson o, OptionForm Form o, o = none⟩

def ofList (name : String) (toJson : α → Json) (Form : α → Json → Prop) (items : List α) : Member :=
  ⟨name, .ofList toJson items, ListForm Form items, False⟩

@[simp]
theorem name_ofOption (name : String) (o : Option α) :
    (ofOption name toJson Form o).name = name := rfl

@[simp]
theorem name_ofList (name : String) (items : List α) :
    (ofList name toJson Form items).name = name := rfl

theorem sound_ofOption (hwritten : ∀ a, Form a (toJson a))
    (hreadable : ∀ a v, Form a v → Readable depth v) (name : String) (o : Option α) :
    (ofOption name toJson Form o).Sound depth := by
  cases o with
  | none => exact ⟨rfl, fun _ hv => hv ▸ Readable.null depth⟩
  | some a => exact ⟨hwritten a, hreadable a⟩

theorem sound_ofList (hwritten : ∀ a, Form a (toJson a))
    (hreadable : ∀ a v, Form a v → Readable depth v) (name : String) (items : List α) :
    (ofList name toJson Form items).Sound (depth + 1) := by
  refine ⟨⟨_, rfl, ?_⟩, ?_⟩
  · induction items with
    | nil => exact .nil
    | cons a rest ih => exact .cons (hwritten a) ih
  · rintro _ ⟨forms, rfl, hforms⟩
    refine .arr fun v hv => ?_
    induction hforms with
    | nil => cases hv
    | cons ha _ ih =>
      rcases List.mem_cons.mp hv with rfl | hv
      · exact hreadable _ _ ha
      · exact ih hv

end Member

theorem Present.option {name : String} {o : Option α}
    (h : Present (.ofOption name toJson Form o) entries)
    (hread : ∀ a v, Form a v → v ≠ .null ∧ decode v = .ok a) :
    Json.field entries name (optional decode) (some none) = .value o := by
  refine h.field (fun v hv => ?_) fun hnone => congrArg some hnone.symm
  cases o with
  | none =>
    cases hv
    rfl
  | some a => exact optional_of_ne_null (hread a v hv).1 (hread a v hv).2

theorem Present.list {name : String} {items : List α}
    (h : Present (.ofList name toJson Form items) entries)
    (hread : ∀ a ∈ items, ∀ v, Form a v → decode v = .ok a) :
    Json.field entries name (Json.list decode) = .value items := by
  refine h.field (fun v hv => ?_) nofun
  obtain ⟨forms, rfl, hforms⟩ := hv
  rw [Json.list]
  clear h
  induction hforms with
  | nil => rfl
  | cons ha _ ih =>
    obtain ⟨hfirst, hrest⟩ := List.forall_mem_cons.mp hread
    rw [List.mapM_cons, hfirst _ ha, ih hrest]
    rfl

end Containers

end ServiceRegistry.Json
