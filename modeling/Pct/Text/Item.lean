import Pct.Library.Runs
import Pct.Text.Token

/-!
# Percent-encoded strings as item sequences

Where a percent-encoded text is read as characters, it consists of items: a character
that stands for itself, or a triplet. Reading is total; a `%` that starts no triplet
stands for itself, and a text without such a `%` has one reading only (`items_spellItems`).
-/

namespace Pct

/-! ## Digits -/

def HexDigit.char (d : HexDigit) : Char := Char.ofNat d.byte.toNat

/-- The digit that a character is, if it is one. -/
def HexDigit.ofChar? (c : Char) : Option HexDigit :=
  if h : c.toNat < 0x80 ∧ isHexDigit (UInt8.ofNat c.toNat) = true then
    some ⟨UInt8.ofNat c.toNat, h.2⟩
  else none

@[simp] theorem HexDigit.toNat_char (d : HexDigit) : d.char.toNat = d.byte.toNat := by
  have h := UInt8.lt_iff_toNat_lt.mp d.byte_lt
  rw [char, Char.ofNat, dif_pos (.inl (Nat.lt_trans h (by decide)))]
  rfl

@[simp] theorem HexDigit.ofChar?_char (d : HexDigit) : ofChar? d.char = some d := by
  have h := UInt8.lt_iff_toNat_lt.mp d.byte_lt
  simp only [ofChar?, toNat_char, UInt8.ofNat_toNat]
  rw [dif_pos ⟨h, d.isHex⟩]

theorem HexDigit.char_of_ofChar? {c : Char} {d : HexDigit} (h : ofChar? c = some d) :
    d.char = c := by
  unfold ofChar? at h
  split at h
  · rename_i hc
    obtain rfl := Option.some.inj h
    rw [char, UInt8.toNat_ofNat', Nat.mod_eq_of_lt (by omega), Char.ofNat_toNat]
  · cases h

/-- A digit is one byte. -/
@[simp] theorem HexDigit.encodeChar_char (d : HexDigit) :
    String.utf8EncodeChar d.char = [d.byte] := by
  have h := UInt8.lt_iff_toNat_lt.mp d.byte_lt
  rw [Utf8.encodeChar_ascii (by rwa [toNat_char]), toNat_char, UInt8.ofNat_toNat]

/-! ## Items -/

inductive Item where
  | char (c : Char)
  | triplet (hi lo : HexDigit)
  deriving DecidableEq, Repr

namespace Item

def isTriplet : Item → Bool
  | char _ => false
  | triplet _ _ => true

def spelling : Item → List Char
  | char c => [c]
  | triplet hi lo => ['%', hi.char, lo.char]

/-- The bytes that an item stands for. -/
def octets : Item → List UInt8
  | char c => String.utf8EncodeChar c
  | triplet hi lo => [(Token.triplet hi lo).octet]

@[simp] theorem isTriplet_char (c : Char) : (char c).isTriplet = false := rfl
@[simp] theorem isTriplet_triplet (hi lo : HexDigit) : (triplet hi lo).isTriplet = true := rfl
@[simp] theorem spelling_char (c : Char) : (char c).spelling = [c] := rfl
@[simp] theorem spelling_triplet (hi lo : HexDigit) :
    (triplet hi lo).spelling = ['%', hi.char, lo.char] := rfl
@[simp] theorem octets_char (c : Char) : (char c).octets = String.utf8EncodeChar c := rfl
@[simp] theorem octets_triplet (hi lo : HexDigit) :
    (triplet hi lo).octets = [(Token.triplet hi lo).octet] := rfl

end Item

/-- A triplet is spelled with the bytes of its token. -/
theorem encode_spelling_triplet (hi lo : HexDigit) :
    Utf8.encode (Item.triplet hi lo).spelling = (Token.triplet hi lo).spelling := by
  simp
  rfl

/-- The characters of an item sequence. -/
def spellItems (is : List Item) : List Char := is.flatMap Item.spelling

@[simp] theorem spellItems_nil : spellItems [] = [] := rfl
@[simp] theorem spellItems_cons (i : Item) (is : List Item) :
    spellItems (i :: is) = i.spelling ++ spellItems is := rfl
@[simp] theorem spellItems_append (is js : List Item) :
    spellItems (is ++ js) = spellItems is ++ spellItems js := List.flatMap_append

/-- The reading of a string. -/
def items : List Char → List Item
  | [] => []
  | c :: cs =>
    if c = '%' then
      match cs with
      | h1 :: h2 :: rest =>
        match HexDigit.ofChar? h1, HexDigit.ofChar? h2 with
        | some hi, some lo => .triplet hi lo :: items rest
        | _, _ => .char c :: items (h1 :: h2 :: rest)
      | cs => .char c :: items cs
    else .char c :: items cs

theorem spellItems_items (cs : List Char) : spellItems (items cs) = cs := by
  fun_induction items cs with
  | case1 => rfl
  | case2 h1 h2 rest hi lo hhi hlo ih =>
    simp [ih, HexDigit.char_of_ofChar? hhi, HexDigit.char_of_ofChar? hlo]
  | case3 => simp_all
  | case4 => simp_all
  | case5 => simp_all

theorem items_spellItems {is : List Item} (h : Item.char '%' ∉ is) :
    items (spellItems is) = is := by
  induction is with
  | nil => rfl
  | cons i is ih =>
    rw [List.mem_cons, not_or] at h
    cases i with
    | char c =>
      have hc : c ≠ '%' := by
        rintro rfl
        exact h.1 rfl
      rw [spellItems_cons, Item.spelling_char, List.singleton_append, items.eq_def]
      simp [hc, ih h.2]
    | triplet hi lo => simp [items, ih h.2]

end Pct
