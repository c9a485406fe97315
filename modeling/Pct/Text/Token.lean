import Pct.Source.Util

/-!
# Percent-encoded texts as token sequences

A percent-encoded text is a sequence of tokens: a literal byte other than `%`, or a
triplet of `%` and two hex digits. Both carry what makes them well-formed, so a token
sequence is always spelled by a text without malformed triplets, and `parse` takes such
a text apart in exactly one way (`parse_eq_some`). `octets` is the meaning of a text;
`referenceDecode` computes it from the raw bytes.
-/

namespace Pct

/-! ## Tokens -/

def isHexDigit (b : UInt8) : Bool :=
  (0x30 ≤ b ∧ b ≤ 0x39) || (0x41 ≤ b ∧ b ≤ 0x46) || (0x61 ≤ b ∧ b ≤ 0x66)

/-- A hex digit of either case. -/
structure HexDigit where
  byte : UInt8
  isHex : isHexDigit byte = true
  deriving DecidableEq, Repr

def HexDigit.value (d : HexDigit) : UInt8 :=
  if d.byte ≤ 0x39 then d.byte - 0x30
  else if d.byte ≤ 0x46 then d.byte - 0x41 + 10
  else d.byte - 0x61 + 10

theorem HexDigit.byte_ne_percent (d : HexDigit) : d.byte ≠ percent := by
  intro h
  have := d.isHex
  rw [h] at this
  cases this

theorem HexDigit.byte_lt (d : HexDigit) : d.byte < 0x80 := by
  have h := d.isHex
  unfold isHexDigit at h
  grind

theorem HexDigit.value_lt (d : HexDigit) : d.value < 16 := by
  have h := d.isHex
  unfold isHexDigit at h
  unfold value
  grind

/-- A byte that stands for itself. -/
structure Literal where
  byte : UInt8
  ne_percent : byte ≠ percent
  deriving DecidableEq, Repr

inductive Token where
  | literal (b : Literal)
  | triplet (hi lo : HexDigit)
  deriving DecidableEq, Repr

namespace Token

def octet : Token → UInt8
  | literal b => b.byte
  | triplet hi lo => 16 * hi.value + lo.value

def spelling : Token → List UInt8
  | literal b => [b.byte]
  | triplet hi lo => [percent, hi.byte, lo.byte]

def isTriplet : Token → Bool
  | literal _ => false
  | triplet _ _ => true

@[simp] theorem octet_literal (b : Literal) : (literal b).octet = b.byte := rfl
@[simp] theorem spelling_literal (b : Literal) : (literal b).spelling = [b.byte] := rfl
@[simp] theorem spelling_triplet (hi lo : HexDigit) :
    (triplet hi lo).spelling = [percent, hi.byte, lo.byte] := rfl
@[simp] theorem isTriplet_literal (b : Literal) : (literal b).isTriplet = false := rfl
@[simp] theorem isTriplet_triplet (hi lo : HexDigit) : (triplet hi lo).isTriplet = true := rfl

end Token

/-- The digits of an octet. -/
theorem Token.octet_digits (hi lo : HexDigit) :
    (triplet hi lo).octet / 16 = hi.value ∧ (triplet hi lo).octet % 16 = lo.value := by
  have hhi := hi.value_lt
  have hlo := lo.value_lt
  simp only [octet]
  grind

theorem Token.octet_triplet_eq_iff {hi lo hi' lo' : HexDigit} :
    (triplet hi lo).octet = (triplet hi' lo').octet ↔
      hi.value = hi'.value ∧ lo.value = lo'.value := by
  constructor
  · intro h
    rw [← (octet_digits hi lo).1, ← (octet_digits hi lo).2, h]
    exact octet_digits hi' lo'
  · rintro ⟨hhi, hlo⟩
    simp only [octet, hhi, hlo]

theorem Token.spelling_ne_nil (t : Token) : t.spelling ≠ [] := by
  cases t <;> simp

/-- A triplet is spelled in ASCII. -/
theorem Token.spelling_lt {t : Token} (h : t.isTriplet = true) : ∀ b ∈ t.spelling, b < 0x80 := by
  cases t with
  | literal b => cases h
  | triplet hi lo => simpa [hi.byte_lt, lo.byte_lt] using by decide

/-- The raw bytes of a token sequence. -/
def spell (ts : List Token) : List UInt8 := ts.flatMap Token.spelling

/-- The bytes a token sequence stands for. -/
def octets (ts : List Token) : List UInt8 := ts.map Token.octet

@[simp] theorem spell_nil : spell [] = [] := rfl
@[simp] theorem spell_cons (t : Token) (ts : List Token) :
    spell (t :: ts) = t.spelling ++ spell ts := rfl
@[simp] theorem spell_append (ts us : List Token) : spell (ts ++ us) = spell ts ++ spell us :=
  List.flatMap_append

@[simp] theorem octets_nil : octets [] = [] := rfl
@[simp] theorem octets_cons (t : Token) (ts : List Token) :
    octets (t :: ts) = t.octet :: octets ts := rfl
@[simp] theorem octets_append (ts us : List Token) : octets (ts ++ us) = octets ts ++ octets us :=
  List.map_append

theorem spell_lt {ts : List Token} (h : ∀ t ∈ ts, t.isTriplet = true) :
    ∀ b ∈ spell ts, b < 0x80 := by
  intro b hb
  obtain ⟨t, ht, hbt⟩ := List.mem_flatMap.mp hb
  exact Token.spelling_lt (h t ht) b hbt

/-! ## Parsing -/

/-- The only token sequence that a text spells, if there is one. -/
def parse : List UInt8 → Option (List Token)
  | [] => some []
  | b :: rest =>
    if hb : b = percent then
      match rest with
      | h1 :: h2 :: rest =>
        if h : isHexDigit h1 = true ∧ isHexDigit h2 = true then
          (parse rest).map (.triplet ⟨h1, h.1⟩ ⟨h2, h.2⟩ :: ·)
        else none
      | _ => none
    else (parse rest).map (.literal ⟨b, hb⟩ :: ·)

/-- The triplet of two hex digits. -/
@[simp] def Token.ofDigits {a b : UInt8} (h : isHexDigit a = true ∧ isHexDigit b = true) : Token :=
  .triplet ⟨a, h.1⟩ ⟨b, h.2⟩

theorem spell_of_parse {bs : List UInt8} {ts : List Token} (h : parse bs = some ts) :
    spell ts = bs := by
  fun_induction parse bs generalizing ts with
  | case1 =>
    obtain rfl := Option.some.inj h
    rfl
  | case2 h1 h2 rest hd ih =>
    obtain ⟨us, hus, rfl⟩ := Option.map_eq_some_iff.mp h
    simp [ih hus]
  | case3 => cases h
  | case4 => cases h
  | case5 b rest hb ih =>
    obtain ⟨us, hus, rfl⟩ := Option.map_eq_some_iff.mp h
    simp [ih hus]

@[simp] theorem parse_spell (ts : List Token) : parse (spell ts) = some ts := by
  induction ts with
  | nil => rfl
  | cons t ts ih =>
    cases t with
    | literal b =>
      rw [parse.eq_def]
      simp [b.ne_percent, ih]
    | triplet hi lo => simp [parse, hi.isHex, lo.isHex, ih]

theorem parse_eq_some {bs : List UInt8} {ts : List Token} : parse bs = some ts ↔ spell ts = bs :=
  ⟨spell_of_parse, fun h => h ▸ parse_spell ts⟩

theorem spell_injective : Function.Injective spell := fun ts us h => by
  simpa [h] using (parse_spell ts).symm

/-! ## The reference decoder -/

/-- Percent-decoding of raw bytes; undefined on a malformed triplet. -/
def referenceDecode : List UInt8 → Option (List UInt8)
  | [] => some []
  | b :: rest =>
    if b = percent then
      match rest with
      | h1 :: h2 :: rest =>
        if h : isHexDigit h1 = true ∧ isHexDigit h2 = true then
          (referenceDecode rest).map
            ((16 * HexDigit.value ⟨h1, h.1⟩ + HexDigit.value ⟨h2, h.2⟩) :: ·)
        else none
      | _ => none
    else (referenceDecode rest).map (b :: ·)

/-- Decoding is reading the octets off the tokens. -/
theorem referenceDecode_eq (bs : List UInt8) : referenceDecode bs = (parse bs).map octets := by
  fun_induction parse bs with
  | case1 => rfl
  | case2 h1 h2 rest hd ih => simp [referenceDecode, hd, ih, Function.comp_def, Token.octet]
  | case3 h1 h2 rest hd => simp [referenceDecode, hd]
  | case4 rest hrest => simp [referenceDecode]
  | case5 b rest hb ih =>
    rw [referenceDecode.eq_def]
    simp [hb, ih, Function.comp_def]

theorem referenceDecode_eq_some {bs os : List UInt8} :
    referenceDecode bs = some os ↔ ∃ ts, spell ts = bs ∧ octets ts = os := by
  simp only [referenceDecode_eq, Option.map_eq_some_iff, parse_eq_some]

@[simp] theorem referenceDecode_spell (ts : List Token) :
    referenceDecode (spell ts) = some (octets ts) := by
  simp [referenceDecode_eq]

/-- A text without `%` stands for itself. -/
theorem referenceDecode_of_notMem {bs : List UInt8} (h : percent ∉ bs) :
    referenceDecode bs = some bs := by
  induction bs with
  | nil => rfl
  | cons b bs ih =>
    simp only [List.mem_cons, not_or] at h
    rw [referenceDecode.eq_def]
    simp [Ne.symm h.1, ih h.2]

/-- The texts whose decoding is defined and well-formed UTF-8. -/
def Accepted (bs : List UInt8) : Prop := ∃ os, referenceDecode bs = some os ∧ Utf8.WellFormed os

instance (bs : List UInt8) : Decidable (Accepted bs) :=
  decidable_of_iff ((referenceDecode bs).any fun os => decide (Utf8.WellFormed os)) (by
    cases h : referenceDecode bs <;> simp [Accepted, h])

theorem accepted_iff {bs : List UInt8} :
    Accepted bs ↔ ∃ ts, spell ts = bs ∧ Utf8.WellFormed (octets ts) := by
  simp only [Accepted, referenceDecode_eq_some]
  constructor
  · rintro ⟨os, ⟨ts, hts, rfl⟩, hwf⟩
    exact ⟨ts, hts, hwf⟩
  · rintro ⟨ts, hts, hwf⟩
    exact ⟨octets ts, ⟨ts, hts, rfl⟩, hwf⟩

@[simp] theorem accepted_spell (ts : List Token) :
    Accepted (spell ts) ↔ Utf8.WellFormed (octets ts) := by
  simp [Accepted]

/-- ASCII text is accepted however it is spelled. -/
theorem accepted_spell_of_ascii (ts : List Token) (h : ∀ b ∈ octets ts, b < 0x80) :
    Accepted (spell ts) :=
  (accepted_spell ts).mpr (Utf8.wellFormed_of_ascii h)

end Pct
