import Mathlib.Data.List.Basic
import ServiceRegistry.Peer

/-! # Spellings of a peer

A peer that was parsed is printed in two forms. The form with a scheme reads back as the same peer.
The short form does so unless a blank followed the scheme in the text that was parsed: blanks are
trimmed before the scheme is taken off, so that one stays with the host, and is gone once the short
form is read. `parse_printed` says that this is the only exception.
-/

namespace ServiceRegistry

set_option autoImplicit false

namespace Text

variable {p : Char → Bool} {cs : List Char}

theorem dropEndWhile_append_singleton {c : Char} (hc : p c = false) (cs : List Char) :
    dropEndWhile p (cs ++ [c]) = cs ++ [c] := by
  simp [dropEndWhile, hc]

theorem dropEndWhile_isPrefix (p : Char → Bool) (cs : List Char) : dropEndWhile p cs <+: cs := by
  rw [dropEndWhile, ← List.reverse_suffix, List.reverse_reverse]
  exact List.dropWhile_suffix p

end Text

namespace Peer

def digits (port : UInt16) : List Char := Nat.toDigits 10 port.toNat

theorem isDigit_of_mem_digits {port : UInt16} {c : Char} (h : c ∈ digits port) : c.isDigit = true :=
  Nat.isDigit_of_mem_toDigits (by decide) (by decide) h

theorem digits_eq_append_singleton (port : UInt16) :
    ∃ cs c, digits port = cs ++ [c] ∧ c.isDigit = true := by
  have hne : digits port ≠ [] := Nat.toDigits_ne_nil
  refine ⟨_, _, (List.dropLast_append_getLast hne).symm, ?_⟩
  exact isDigit_of_mem_digits (List.getLast_mem hne)

theorem isBlank_of_isDigit {c : Char} (h : c.isDigit = true) : Text.isBlank c = false := by
  obtain ⟨hlow, hhigh⟩ : 48 ≤ c.toNat ∧ c.toNat ≤ 57 := by
    simpa [Char.isDigit, UInt32.le_iff_toNat_le] using h
  simp only [Text.isBlank, Bool.or_eq_false_iff, Bool.and_eq_false_iff, decide_eq_false_iff_not,
    beq_eq_false_iff_ne]
  omega

theorem dropEndWhile_digits {p : Char → Bool} (hp : ∀ c, c.isDigit = true → p c = false)
    (cs : List Char) (port : UInt16) :
    Text.dropEndWhile p (cs ++ ':' :: digits port) = cs ++ ':' :: digits port := by
  obtain ⟨init, c, hdigits, hc⟩ := digits_eq_append_singleton port
  rw [hdigits, ← List.cons_append, ← List.append_assoc]
  exact Text.dropEndWhile_append_singleton (hp c hc) _

theorem trimChars_append (cs : List Char) (port : UInt16) :
    Text.trimChars (cs ++ ':' :: digits port) =
      cs.dropWhile Text.isBlank ++ ':' :: digits port := by
  have hfront : (cs ++ ':' :: digits port).dropWhile Text.isBlank =
      cs.dropWhile Text.isBlank ++ ':' :: digits port := by
    have hcolon : (':' :: digits port).dropWhile Text.isBlank = ':' :: digits port :=
      List.dropWhile_cons_of_neg (by decide)
    rw [List.dropWhile_append, hcolon]
    split
    · rename_i hnone
      rw [List.isEmpty_iff.mp hnone, List.nil_append]
    · rfl
  rw [Text.trimChars, hfront]
  exact dropEndWhile_digits (fun _ => isBlank_of_isDigit) _ port

theorem le_ofDigitChars (n : Nat) (cs : List Char) : n ≤ Nat.ofDigitChars 10 cs n := by
  induction cs generalizing n with
  | nil => simp
  | cons c rest ih =>
    rw [Nat.ofDigitChars_cons]
    exact Nat.le_trans (by omega) (ih _)

theorem portDigits_eq {n : Nat} {cs : List Char} (hdigits : ∀ c ∈ cs, c.isDigit = true)
    (hsize : Nat.ofDigitChars 10 cs n < UInt16.size) :
    portDigits n cs = .ok (UInt16.ofNat (Nat.ofDigitChars 10 cs n)) := by
  induction cs generalizing n with
  | nil => simp [portDigits]
  | cons c rest ih =>
    obtain ⟨hc, hrest⟩ := List.forall_mem_cons.mp hdigits
    rw [Nat.ofDigitChars_cons] at hsize ⊢
    have hsmall := Nat.lt_of_le_of_lt (le_ofDigitChars _ rest) hsize
    simp only [portDigits, hc, Bool.not_true, Bool.false_eq_true, if_false, hsmall, if_true]
    exact ih hrest hsize

theorem parsePort_digits (port : UInt16) : parsePort (digits port) = .ok port := by
  have hvalue : Nat.ofDigitChars 10 (digits port) 0 = port.toNat := Nat.ofDigitChars_ten_toDigits
  have hread : portDigits 0 (digits port) = .ok port := by
    rw [portDigits_eq (fun _ => isDigit_of_mem_digits) (hvalue ▸ port.toNat_lt), hvalue,
      UInt16.ofNat_toNat]
  have hplus : '+' ∉ digits port := fun h => nomatch isDigit_of_mem_digits h
  have hne : digits port ≠ [] := Nat.toDigits_ne_nil
  unfold parsePort
  split
  · exact absurd ‹_› hne
  · rename_i h
    simp [h] at hplus
  · rename_i h
    simp [h] at hplus
  · exact hread

theorem splitLastColon_eq_none {cs : List Char} (h : ':' ∉ cs) : splitLastColon cs = none := by
  induction cs with
  | nil => rfl
  | cons c rest ih =>
    obtain ⟨hc, hrest⟩ : ':' ≠ c ∧ ':' ∉ rest := by simpa using h
    simp [splitLastColon, ih hrest, Ne.symm hc]

theorem splitLastColon_append {port : List Char} (h : ':' ∉ port) (host : List Char) :
    splitLastColon (host ++ ':' :: port) = some (host, port) := by
  induction host with
  | nil => simp [splitLastColon, splitLastColon_eq_none h]
  | cons c rest ih => simp [splitLastColon, ih]

theorem eq_append_of_splitLastColon {cs host port : List Char}
    (h : splitLastColon cs = some (host, port)) : cs = host ++ ':' :: port := by
  induction cs generalizing host with
  | nil => cases h
  | cons c rest ih =>
    simp only [splitLastColon] at h
    split at h
    · rename_i hrest
      cases h
      rw [ih hrest]
      rfl
    · split at h
      · rename_i hc
        cases h
        rw [hc]
        rfl
      · cases h

theorem dropSchemes_isSuffix (cs : List Char) : dropSchemes cs <:+ cs := by
  fun_induction dropSchemes cs with
  | case1 rest ih => exact ih.trans (List.suffix_append ['h', 't', 't', 'p', ':', '/', '/'] rest)
  | case2 cs h => exact List.suffix_rfl

theorem dropSchemes_of_isPrefix {cs host : List Char} (h : host <+: dropSchemes cs) :
    dropSchemes host = host := by
  fun_induction dropSchemes cs with
  | case1 rest ih => exact ih h
  | case2 cs hnone =>
    refine dropSchemes.eq_2 host fun rest hhost => ?_
    obtain ⟨more, rfl⟩ := h
    exact hnone (rest ++ more) (by rw [hhost]; rfl)

/-- The colon before a port belongs to no scheme, since a slash would have to follow. -/
theorem dropSchemes_append (host : List Char) (port : UInt16) :
    dropSchemes (host ++ ':' :: digits port) = dropSchemes host ++ ':' :: digits port := by
  have hslash : '/' ∉ ':' :: digits port := by
    have hdigits : '/' ∉ digits port := fun h => nomatch isDigit_of_mem_digits h
    simpa using hdigits
  fun_induction dropSchemes host with
  | case1 rest ih => exact ih
  | case2 host hnone =>
    refine dropSchemes.eq_2 _ fun rest h => ?_
    have happend : host ++ ':' :: digits port = ['h', 't', 't', 'p', ':', '/', '/'] ++ rest := h
    rcases List.append_eq_append_iff.mp happend with ⟨tail, hscheme, hport⟩ | ⟨more, hhost, -⟩
    · rcases List.eq_nil_or_concat tail with rfl | ⟨init, c, rfl⟩
      · exact hnone [] (by simpa using hscheme.symm)
      · have hlast := congrArg List.getLast? hscheme
        simp at hlast
        exact hslash (by simp [hport, ← hlast])
    · exact hnone more hhost

/-- What a text names once the blanks around it and its schemes are gone. -/
def address (text : String) : List Char := dropSchemes (Text.trimChars text.toList)

theorem parse_eq (text : String) :
    parse text =
      match splitLastColon (Text.dropEndWhile (· == '/') (address text)) with
      | none => .error (.form text)
      | some (host, port) =>
        if host.isEmpty then .error (.emptyHost text)
        else match parsePort port with
          | .error e => .error (.port text e)
          | .ok n => .ok ⟨String.ofList host, n⟩ := rfl

theorem isPrefix_address_of_parse {text : String} {p : Peer} (h : parse text = .ok p) :
    p.host.toList ≠ [] ∧ p.host.toList <+: address text := by
  have hbare := Text.dropEndWhile_isPrefix (· == '/') (address text)
  rw [parse_eq] at h
  split at h
  · cases h
  rename_i host port hsplit
  split at h
  · cases h
  rename_i hhost
  split at h
  · cases h
  cases h
  rw [eq_append_of_splitLastColon hsplit] at hbare
  rw [String.toList_ofList]
  exact ⟨by simpa using hhost, (List.prefix_append host _).trans hbare⟩

theorem parse_of_address {text : String} {host : List Char} {port : UInt16} (hne : host ≠ [])
    (h : address text = host ++ ':' :: digits port) :
    parse text = .ok ⟨String.ofList host, port⟩ := by
  have hcolon : ':' ∉ digits port := fun h => nomatch isDigit_of_mem_digits h
  have hempty : host.isEmpty = false := by simpa using hne
  have hslash : ∀ c : Char, c.isDigit = true → (c == '/') = false := by
    rintro c hc
    rw [beq_eq_false_iff_ne]
    rintro rfl
    cases hc
  rw [parse_eq, h, dropEndWhile_digits hslash, splitLastColon_append hcolon]
  simp only [hempty, Bool.false_eq_true, if_false, parsePort_digits]

theorem toList_display (p : Peer) : p.display.toList = p.host.toList ++ ':' :: digits p.port := by
  have hport : (toString p.port).toList = digits p.port := by
    rw [show toString p.port = toString p.port.toNat from rfl, Nat.toString_eq_repr,
      Nat.toList_repr]
    rfl
  simp [display, hport]

theorem address_display (p : Peer) :
    address p.display =
      dropSchemes (p.host.toList.dropWhile Text.isBlank) ++ ':' :: digits p.port := by
  rw [address, toList_display, trimChars_append, dropSchemes_append]

theorem address_baseUrl (p : Peer) :
    address p.baseUrl = dropSchemes p.host.toList ++ ':' :: digits p.port := by
  have hscheme : p.baseUrl.toList =
      ('h' :: 't' :: 't' :: 'p' :: ':' :: '/' :: '/' :: p.host.toList) ++ ':' :: digits p.port := by
    rw [baseUrl, String.toList_append, toList_display]
    rfl
  rw [address, hscheme, trimChars_append, dropSchemes_append]
  rfl

/-- A blank stands behind the schemes of a text. -/
def Padded (text : String) : Prop := ∃ c ∈ (address text).head?, Text.isBlank c = true

theorem padded_iff {text : String} {p : Peer} (h : parse text = .ok p) :
    Padded text ↔ p.host.toList.dropWhile Text.isBlank ≠ p.host.toList := by
  obtain ⟨hne, rest, hrest⟩ := isPrefix_address_of_parse h
  obtain ⟨c, host, hhost⟩ := List.exists_cons_of_ne_nil hne
  have hshorter : host.dropWhile Text.isBlank ≠ c :: host := fun heq => by
    have hlength := (List.dropWhile_suffix (l := host) Text.isBlank).length_le
    rw [heq, List.length_cons] at hlength
    omega
  rw [Padded, ← hrest, hhost]
  cases hc : Text.isBlank c with
  | false => simp [hc]
  | true => simpa [hc] using hshorter

theorem dropWhile_of_parse_display {p : Peer} (h : parse p.display = .ok p) :
    p.host.toList.dropWhile Text.isBlank = p.host.toList := by
  obtain ⟨hne, hprefix⟩ := isPrefix_address_of_parse h
  have haddress := address_display p
  by_cases hnone : dropSchemes (p.host.toList.dropWhile Text.isBlank) = []
  · rw [haddress, hnone] at hprefix
    obtain ⟨c, host, hhost⟩ := List.exists_cons_of_ne_nil hne
    obtain ⟨rfl, -⟩ := List.cons_prefix_cons.mp (hhost ▸ hprefix)
    rw [hhost]
    exact List.dropWhile_cons_of_neg (by decide)
  · rw [parse_of_address hnone haddress] at h
    have hhost : dropSchemes (p.host.toList.dropWhile Text.isBlank) = p.host.toList := by
      rw [← String.toList_ofList (l := dropSchemes _)]
      exact congrArg (·.host.toList) (Except.ok.inj h)
    have hlength := (dropSchemes_isSuffix (p.host.toList.dropWhile Text.isBlank)).length_le
    rw [hhost] at hlength
    exact (List.dropWhile_suffix _).eq_of_length_le hlength

/-- A peer that was parsed reads back from its form with a scheme, and from its short form unless a
blank stood behind the schemes. -/
theorem parse_printed {text : String} {p : Peer} (h : parse text = .ok p) :
    parse p.baseUrl = .ok p ∧ (parse p.display = .ok p ↔ ¬ Padded text) := by
  obtain ⟨hne, hprefix⟩ := isPrefix_address_of_parse h
  have hscheme : dropSchemes p.host.toList = p.host.toList := dropSchemes_of_isPrefix hprefix
  have hread {text : String} (h : address text = p.host.toList ++ ':' :: digits p.port) :
      parse text = .ok p := by
    rw [parse_of_address hne h, String.ofList_toList]
  rw [padded_iff h, Classical.not_not]
  refine ⟨hread ?_, dropWhile_of_parse_display, fun hplain => hread ?_⟩
  · rw [address_baseUrl, hscheme]
  · rw [address_display, hplain, hscheme]

/-- A blank between scheme and host: the short form names another host. -/
theorem parse_printed_padded :
    let text := "http:// h:80"
    let p : Peer := ⟨" h", 80⟩
    parse text = .ok p ∧ Padded text ∧ p.baseUrl = text ∧ parse p.baseUrl = .ok p ∧
      p.display = " h:80" ∧ parse p.display = .ok ⟨"h", 80⟩ ∧ parse p.display ≠ .ok p := by
  intro text p
  have haddress : address text = [' ', 'h'] ++ ':' :: digits 80 := by decide +kernel
  have hshort : address p.display = ['h'] ++ ':' :: digits 80 := by decide +kernel
  have hparse : parse text = .ok p := parse_of_address (by decide) haddress
  have hpadded : Padded text := ⟨' ', haddress ▸ rfl, by decide⟩
  obtain ⟨hbase, hdisplay⟩ := parse_printed hparse
  exact ⟨hparse, hpadded, by decide +kernel, hbase, by decide +kernel,
    parse_of_address (by decide) hshort, fun h => hdisplay.mp h hpadded⟩

end Peer

end ServiceRegistry
