import Pct.Library.Abnf
import Pct.Text.Normal

/-!
# The grammar of URI and IRI components

The rules of RFC 3986 and RFC 3987 for the segments of a path, queries and fragments,
and the encoding that such a rule asks for: a character stands for itself where the rule
admits it, and everything else is written as the triplets of its UTF-8 bytes.
-/

namespace Pct

open Abnf
open scoped Computability

namespace Grammar

/-! ## RFC 3986 -/

def alpha : Language Char := range 0x41 0x5A + range 0x61 0x7A

def digit : Language Char := range 0x30 0x39

/-- Digits of either case, since strings of a grammar have no case. -/
def hexdig : Language Char := digit + range 0x41 0x46 + range 0x61 0x66

def pctEncoded : Language Char := lit '%' * hexdig * hexdig

def unreserved : Language Char := alpha + digit + lit '-' + lit '.' + lit '_' + lit '~'

def subDelims : Language Char :=
  lit '!' + lit '$' + lit '&' + lit '\'' + lit '(' + lit ')' + lit '*' + lit '+' + lit ',' +
    lit ';' + lit '='

def pchar : Language Char := unreserved + pctEncoded + subDelims + lit ':' + lit '@'

def segment : Language Char := pchar∗

def query : Language Char := (pchar + lit '/' + lit '?')∗

def fragment : Language Char := (pchar + lit '/' + lit '?')∗

/-! ## RFC 3987 -/

def ucschar : Language Char :=
  range 0xA0 0xD7FF + range 0xF900 0xFDCF + range 0xFDF0 0xFFEF +
    range 0x10000 0x1FFFD + range 0x20000 0x2FFFD + range 0x30000 0x3FFFD +
    range 0x40000 0x4FFFD + range 0x50000 0x5FFFD + range 0x60000 0x6FFFD +
    range 0x70000 0x7FFFD + range 0x80000 0x8FFFD + range 0x90000 0x9FFFD +
    range 0xA0000 0xAFFFD + range 0xB0000 0xBFFFD + range 0xC0000 0xCFFFD +
    range 0xD0000 0xDFFFD + range 0xE1000 0xEFFFD

def iprivate : Language Char :=
  range 0xE000 0xF8FF + range 0xF0000 0xFFFFD + range 0x100000 0x10FFFD

def iunreserved : Language Char :=
  alpha + digit + lit '-' + lit '.' + lit '_' + lit '~' + ucschar

def ipchar : Language Char := iunreserved + pctEncoded + subDelims + lit ':' + lit '@'

def isegment : Language Char := ipchar∗

def iquery : Language Char := (ipchar + iprivate + lit '/' + lit '?')∗

def ifragment : Language Char := (ipchar + lit '/' + lit '?')∗

/-! ## Triplets -/

/-- The uppercase digit of a value. -/
def upperChar (v : UInt8) : Char := Char.ofNat (upperByte v).toNat

/-- The triplet of a byte. -/
def pctEncode (b : UInt8) : List Char := ['%', upperChar (b / 16), upperChar (b % 16)]

theorem upperChar_mem_hexdig {v : UInt8} (h : v < 16) : [upperChar v] ∈ hexdig := by
  have all : ∀ n < 16, (0x30 ≤ (upperChar (UInt8.ofNat n)).toNat ∧
      (upperChar (UInt8.ofNat n)).toNat ≤ 0x39) ∨ 0x41 ≤ (upperChar (UInt8.ofNat n)).toNat ∧
      (upperChar (UInt8.ofNat n)).toNat ≤ 0x46 := by
    decide
  have hv := all v.toNat (UInt8.lt_iff_toNat_lt.mp h)
  rw [UInt8.ofNat_toNat] at hv
  exact .inl (hv.imp singleton_mem_range.mpr singleton_mem_range.mpr)

theorem div_mod_lt (b : UInt8) : b / 16 < 16 ∧ b % 16 < 16 := by
  grind

theorem pctEncode_mem (b : UInt8) : pctEncode b ∈ pctEncoded := by
  obtain ⟨hhi, hlo⟩ := div_mod_lt b
  have hfirst : ['%', upperChar (b / 16)] ∈ lit '%' * hexdig :=
    Language.mem_mul.mpr ⟨['%'], rfl, _, upperChar_mem_hexdig hhi, rfl⟩
  exact Language.mem_mul.mpr ⟨_, hfirst, _, upperChar_mem_hexdig hlo, rfl⟩

/-- A triplet is no single character. -/
@[simp] theorem singleton_notMem_pctEncoded (c : Char) : [c] ∉ pctEncoded := by
  have length_pos {w : List Char} (h : w ∈ hexdig) : 0 < w.length := by
    obtain (⟨d, rfl, -⟩ | ⟨d, rfl, -⟩) | ⟨d, rfl, -⟩ := h <;> exact Nat.one_pos
  rintro ⟨_, ⟨p, hp, hi, hhi, rfl⟩, lo, hlo, hw⟩
  obtain rfl := Set.mem_singleton_iff.mp hp
  have hlen := congrArg List.length hw
  have := length_pos hhi
  have := length_pos hlo
  simp only [List.length_append, List.length_singleton] at hlen
  omega

theorem singleton_mem_pchar {c : Char} :
    [c] ∈ pchar ↔ [c] ∈ unreserved ∨ [c] ∈ subDelims ∨ c = ':' ∨ c = '@' := by
  simp [pchar, or_assoc]

theorem singleton_mem_ipchar {c : Char} :
    [c] ∈ ipchar ↔ [c] ∈ iunreserved ∨ [c] ∈ subDelims ∨ c = ':' ∨ c = '@' := by
  simp [ipchar, or_assoc]

/-! ## The encoding of a component -/

open Classical in
/-- Only `%`, what the rule does not admit and what is exempt from it are encoded. -/
noncomputable def minimalChar (rule : Language Char) (exempt : List Char) (c : Char) : List Char :=
  if c = '%' ∨ [c] ∉ rule ∨ c ∈ exempt then (String.utf8EncodeChar c).flatMap pctEncode else [c]

noncomputable def minimalEncoding (rule : Language Char) (exempt src : List Char) : List Char :=
  src.flatMap (minimalChar rule exempt)

/-- The encoding follows a rule that repeats triplets and other things. -/
theorem minimalEncoding_mem {L : Language Char} (h : ∀ w ∈ pctEncoded, w ∈ L)
    (exempt src : List Char) : minimalEncoding L∗ exempt src ∈ L∗ := by
  apply flatMap_mem_kstar
  intro c _
  unfold minimalChar
  split
  · apply flatMap_mem_kstar
    intro b _
    exact mem_kstar_of_mem (h _ (pctEncode_mem b))
  · simp_all

/-- A character that the rule does not admit never shows up, unless in triplets. -/
theorem notMem_minimalEncoding {rule : Language Char} {d : Char} (hrule : [d] ∉ rule)
    (hpercent : d ≠ '%') (hhex : [d] ∉ hexdig) (exempt src : List Char) :
    d ∉ minimalEncoding rule exempt src := by
  intro hd
  obtain ⟨c, -, hc⟩ := List.mem_flatMap.mp hd
  unfold minimalChar at hc
  split at hc
  · obtain ⟨b, -, hb⟩ := List.mem_flatMap.mp hc
    obtain ⟨hhi, hlo⟩ := div_mod_lt b
    simp only [pctEncode, List.mem_cons, List.not_mem_nil, or_false] at hb
    obtain rfl | rfl | rfl := hb
    · exact hpercent rfl
    · exact hhex (upperChar_mem_hexdig hhi)
    · exact hhex (upperChar_mem_hexdig hlo)
  · obtain rfl := List.mem_singleton.mp hc
    simp_all

end Grammar

end Pct
