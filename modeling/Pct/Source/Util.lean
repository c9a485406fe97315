import Pct.Library.Loop
import Pct.Library.Producer
import Pct.Library.Utf8
import Mathlib.Data.List.Sort

/-!
# Builds, the hex table and the untrusted byte iterator

`Build` fixes one compilation of the crate: which of its features are on, and the
functions of `memchr` and `utf8_decode` it is linked with. `Build.Lawful` states
what the code relies on about these two packages. The hex table and the iterator
`TryEncodedBytes` follow `util.rs`, the error type `error.rs`.
-/

namespace Pct

open Rust

/-- `b'%'` -/
abbrev percent : UInt8 := 0x25

/-- `ε` is `utf8_decode::Utf8Error`. -/
inductive ByteError (ε : Type) where
  | invalidByte (b : UInt8)
  | incompleteEncoding
  | utf8 (e : ε)
  deriving DecidableEq, Repr

structure InvalidPctString (T : Type) where
  input : T
  deriving DecidableEq, Repr

def InvalidPctString.map {T U : Type} (f : T → Exec U) (e : InvalidPctString T) :
    Exec (InvalidPctString U) := do
  return ⟨← f e.input⟩

/-! ## Builds -/

structure Build (ε : Type) where
  /-- The feature `memchr`. -/
  memchrFeature : Bool
  /-- The feature `simd`. -/
  simdFeature : Bool
  memchr : UInt8 → List UInt8 → Option Nat
  memchrIter : UInt8 → List UInt8 → List Nat
  /-- Everything `utf8_decode::TryDecoder` yields over the given items. -/
  tryDecoder : List (Except (ByteError ε) UInt8) → List (Except (ByteError ε) Char)
  /-- Everything `utf8_decode::Decoder` yields over the given bytes. -/
  decoder : List UInt8 → List (Except ε Char)

/-- The documented behaviour of the two packages, as far as the crate relies on it. -/
structure Build.Lawful {ε : Type} (B : Build ε) : Prop where
  memchr_first : ∀ needle haystack,
    B.memchr needle haystack = haystack.findIdx? (· == needle)
  memchrIter_increasing : ∀ needle haystack, (B.memchrIter needle haystack).Pairwise (· < ·)
  memchrIter_all : ∀ needle haystack i,
    i ∈ B.memchrIter needle haystack ↔ haystack[i]? = some needle
  tryDecoder_accepts : ∀ items, (∀ r ∈ B.tryDecoder items, r.isOk) ↔
    ∃ bs, items = bs.map .ok ∧ Utf8.WellFormed bs
  decoder_yields : ∀ cs, B.decoder (Utf8.encode cs) = cs.map .ok

variable {ε : Type} (B : Build ε)

def findPercent (bytes : List UInt8) : Option Nat :=
  if B.memchrFeature then B.memchr percent bytes else bytes.findIdx? (· == percent)

/-! ## Hex digits -/

/-- The match in the body of `build_hex_val`. -/
def hexValEntry (b : UInt8) : UInt8 :=
  if 0x30 ≤ b ∧ b ≤ 0x39 then b - 0x30
  else if 0x41 ≤ b ∧ b ≤ 0x46 then b - 0x41 + 10
  else if 0x61 ≤ b ∧ b ≤ 0x66 then b - 0x61 + 10
  else 0xFF

def buildHexVal : Vector UInt8 256 := Vector.ofFn fun i => hexValEntry (UInt8.ofNat i)

/-- `HEX_VAL[b as usize]`. A byte is always an index of the table. -/
def hexVal (b : UInt8) : UInt8 := buildHexVal.get ⟨b.toNat, b.toNat_lt_size⟩

theorem hexVal_eq (b : UInt8) : hexVal b = hexValEntry b := by
  rw [hexVal, buildHexVal, get_ofFn, UInt8.ofNat_toNat]

/-! ## Untrusted bytes -/

namespace TryEncodedBytes

/-- `try_next`: the item that `next` starts, and what it leaves of the wrapped iterator. -/
def tryNext (rest : List UInt8) (next : UInt8) : Except (ByteError ε) UInt8 × List UInt8 :=
  if next = percent then
    match rest with
    | [] => (.error .incompleteEncoding, [])
    | [_] => (.error .incompleteEncoding, [])
    | a :: b :: rest =>
      let ah := hexVal a
      let bh := hexVal b
      if ah ||| bh = 0xFF then (.error (.invalidByte (if ah = 0xFF then a else b)), rest)
      else (.ok (ah <<< 4 ||| bh), rest)
  else (.ok next, rest)

theorem length_tryNext (rest : List UInt8) (next : UInt8) :
    (tryNext (ε := ε) rest next).2.length ≤ rest.length := by
  unfold tryNext
  split
  · split
    · simp
    · simp
    · dsimp only
      split <;> simp only [List.length_cons] <;> omega
  · rfl

/-- `TryEncodedBytes::next` -/
def next : List UInt8 → Exec (Option (Except (ByteError ε) UInt8 × List UInt8))
  | [] => .ok none
  | b :: rest => .ok (some (tryNext rest b))

theorem next_consumes (s : List UInt8) (a : Except (ByteError ε) UInt8) (s' : List UInt8)
    (h : next s = .ok (some (a, s'))) : s'.length < s.length := by
  cases s with
  | nil => simp [next] at h
  | cons b rest =>
    have hlen := length_tryNext (ε := ε) rest b
    have hs : s' = (tryNext (ε := ε) rest b).2 := by simp_all [next]
    simp only [hs, List.length_cons]
    omega

def iter : Iter (List UInt8) (Except (ByteError ε) UInt8) where
  next := next
  remaining := List.length
  consumes := next_consumes

/-! The same iterator around an arbitrary one. -/

section Wrapped

variable {σ : Type} (S : Producer σ UInt8)

/-- `try_next` -/
def tryNextOf (s : σ) (next : UInt8) : Except (ByteError ε) UInt8 × σ :=
  if next = percent then
    match S.next s with
    | (none, s) => (.error .incompleteEncoding, s)
    | (some a, s) =>
      match S.next s with
      | (none, s) => (.error .incompleteEncoding, s)
      | (some b, s) =>
        let ah := hexVal a
        let bh := hexVal b
        if ah ||| bh = 0xFF then (.error (.invalidByte (if ah = 0xFF then a else b)), s)
        else (.ok (ah <<< 4 ||| bh), s)
  else (.ok next, s)

/-- `TryEncodedBytes::next` -/
def nextOf (s : σ) : Option (Except (ByteError ε) UInt8) × σ :=
  match S.next s with
  | (none, s) => (none, s)
  | (some b, s) => Prod.map some id (tryNextOf S s b)

/-- `TryEncodedBytes::new` -/
def new : Producer σ (Except (ByteError ε) UInt8) := ⟨nextOf S⟩

end Wrapped

end TryEncodedBytes

/-! ## What a lawful build provides -/

namespace Build.Lawful

variable {B} (hB : B.Lawful)
include hB

theorem memchrIter_eq (needle : UInt8) (haystack : List UInt8) :
    B.memchrIter needle haystack = haystack.findIdxs (· == needle) := by
  apply (hB.memchrIter_increasing needle haystack).eq_of_mem_iff List.pairwise_findIdxs
  intro i
  rw [hB.memchrIter_all, List.mem_findIdxs_iff_exists_getElem_pos]
  simp [List.getElem?_eq_some_iff]

/-- What the shortcuts for texts without `%` test. -/
theorem isNone_findPercent {bytes : List UInt8} :
    (findPercent B bytes).isNone = true ↔ percent ∉ bytes := by
  have hfind : findPercent B bytes = bytes.findIdx? (· == percent) := by
    simp [findPercent, hB.memchr_first]
  rw [Option.isNone_iff_eq_none, hfind, List.findIdx?_eq_none_iff]
  grind

end Build.Lawful

end Pct
