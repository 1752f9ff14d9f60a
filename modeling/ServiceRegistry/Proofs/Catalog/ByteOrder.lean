import ServiceRegistry.Proofs.Catalog.Canonical

/-! # The order of texts by their bytes

Texts are compared by their characters. The comparison of their bytes in UTF-8 comes to the same,
so that names and ids that ascend do so byte by byte.
-/

namespace ServiceRegistry

set_option autoImplicit false

namespace Text

def bytes (s : String) : List UInt8 := s.toUTF8.data.toList

theorem bytes_eq (s : String) : bytes s = s.toList.flatMap String.utf8EncodeChar := by
  have h : s.toUTF8 = s.toList.utf8Encode := by
    rw [String.toUTF8_eq_toByteArray, String.utf8Encode_toList]
  rw [bytes, h, List.utf8Encode, List.toList_data_toByteArray]

/-- Of two numbers in base 64 the upper digits are compared before the last one. -/
theorem digits_lt {m n : Nat} (h : m < n) :
    m / 64 < n / 64 ∨ m / 64 = n / 64 ∧ m % 64 < n % 64 := by
  omega

theorem encode_lt {c d : Char} (h : c < d) (s t : List UInt8) :
    String.utf8EncodeChar c ++ s < String.utf8EncodeChar d ++ t := by
  have hlt : c.val.toNat < d.val.toNat := h
  have hmax : d.val.toNat < 1114112 := by
    rcases d.valid with hd | ⟨-, hd⟩
    · exact Nat.lt_trans hd (by decide)
    · exact hd
  generalize hm : c.val.toNat = m at hlt
  generalize hn : d.val.toNat = n at hlt hmax
  simp only [String.utf8EncodeChar, hm, hn]
  split_ifs <;>
    simp only [List.cons_append, List.nil_append, List.cons_lt_cons_iff, UInt8.lt_iff_toNat_lt,
      ← UInt8.toNat_inj, UInt8.toNat_ofNat']
  -- The first bytes differ or the last ones do, unless both characters take four bytes.
  any_goals omega
  rcases digits_lt hlt with hupper | ⟨hupper, hlast⟩
  · rcases digits_lt hupper with hupper | ⟨hupper, hlast⟩
    · rcases digits_lt hupper with hupper | ⟨hupper, hlast⟩
      · omega
      · omega
    · omega
  · omega

theorem flatMap_encode_lt {l l' : List Char} (h : l < l') :
    l.flatMap String.utf8EncodeChar < l'.flatMap String.utf8EncodeChar := by
  induction h with
  | @nil c rest =>
    obtain ⟨b, bs, hbytes⟩ := List.exists_cons_of_ne_nil (String.utf8EncodeChar_ne_nil (c := c))
    rw [List.flatMap_cons, hbytes]
    exact List.nil_lt_cons b _
  | rel hlt => exact encode_lt hlt _ _
  | cons _ ih => exact List.append_left_lt ih

theorem bytes_lt {s t : String} (h : s < t) : bytes s < bytes t := by
  rw [bytes_eq, bytes_eq]
  exact flatMap_encode_lt (String.lt_iff.mp h)

end Text

theorem Ascending.byBytes {α : Type} {text : α → String} {l : List α} (h : Ascending text l) :
    l.Pairwise fun a b => Text.bytes (text a) < Text.bytes (text b) :=
  h.imp Text.bytes_lt

end ServiceRegistry
