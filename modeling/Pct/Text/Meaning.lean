import Pct.Text.Normal
import Pct.Text.Split

/-!
# Texts

A text is a token sequence that stands for characters: its octets are well-formed UTF-8.
This is what a percent-encoded string is for, whatever the crate does with its bytes. A
byte string is the spelling of at most one text (`ofBytes_eq_some`), and the texts with
one spelling convention, the normal form, are told apart by `normal`.
-/

namespace Pct

structure Text where
  tokens : List Token
  wellFormed : Utf8.WellFormed (octets tokens)
  deriving DecidableEq

namespace Text

@[ext] theorem ext {t u : Text} (h : t.tokens = u.tokens) : t = u := by
  cases t
  cases u
  simpa using h

/-- The percent-encoded bytes of a text. -/
def raw (t : Text) : List UInt8 := spell t.tokens

/-- The characters of a text. -/
def chars (t : Text) : List Char := (Utf8.decode (octets t.tokens)).getD []

theorem encode_chars (t : Text) : Utf8.encode t.chars = octets t.tokens := by
  obtain ⟨cs, hcs⟩ := t.wellFormed
  rw [chars, Utf8.decode_eq_some.mpr hcs, Option.getD_some, hcs]

theorem chars_eq {t : Text} {cs : List Char} : t.chars = cs ↔ Utf8.encode cs = octets t.tokens := by
  rw [← t.encode_chars, Utf8.encode_injective.eq_iff, eq_comm]

theorem accepted_raw (t : Text) : Accepted t.raw := (accepted_spell t.tokens).mpr t.wellFormed

/-- The text that a byte string spells, if there is one. -/
def ofBytes (bs : List UInt8) : Option Text :=
  (parse bs).bind fun ts => if h : Utf8.WellFormed (octets ts) then some ⟨ts, h⟩ else none

theorem ofBytes_eq_some {bs : List UInt8} {t : Text} : ofBytes bs = some t ↔ t.raw = bs := by
  unfold ofBytes raw
  rw [Option.bind_eq_some_iff]
  constructor
  · rintro ⟨ts, hts, h⟩
    split at h
    · obtain rfl := Option.some.inj h
      exact spell_of_parse hts
    · cases h
  · rintro rfl
    exact ⟨t.tokens, parse_spell t.tokens, dif_pos t.wellFormed⟩

theorem isSome_ofBytes {bs : List UInt8} : (ofBytes bs).isSome ↔ Accepted bs := by
  rw [Option.isSome_iff_exists, accepted_iff]
  constructor
  · rintro ⟨t, ht⟩
    exact ⟨t.tokens, ofBytes_eq_some.mp ht, t.wellFormed⟩
  · rintro ⟨ts, hts, hwf⟩
    exact ⟨⟨ts, hwf⟩, ofBytes_eq_some.mpr hts⟩

/-- The raw text itself, where it can be read. -/
def readable (t : Text) : Option String := (Utf8.decode t.raw).map String.ofList

theorem isSome_readable (t : Text) : t.readable.isSome ↔ ¬ SplitsCharacter t.raw := by
  rw [readable, Option.isSome_map, ← Utf8.wellFormed_iff_decode, t.accepted_raw.wellFormed_iff]

theorem wellFormed_octets_normalize (t : Text) : Utf8.WellFormed (octets (normalize t.tokens)) := by
  rw [octets_normalize]
  exact t.wellFormed

def normal (t : Text) : Text := ⟨normalize t.tokens, wellFormed_octets_normalize t⟩

@[simp] theorem chars_normal (t : Text) : t.normal.chars = t.chars := by
  rw [chars, normal, octets_normalize, chars]

@[simp] theorem normal_normal (t : Text) : t.normal.normal = t.normal :=
  ext (normalize_normalize t.tokens)

theorem raw_eq_nil {t : Text} : t.raw = [] ↔ t.chars = [] := by
  rw [chars_eq, Utf8.encode_nil]
  cases h : t.tokens with
  | nil => simp [raw, h]
  | cons u us => simp [raw, h, Token.spelling_ne_nil]

end Text

end Pct
