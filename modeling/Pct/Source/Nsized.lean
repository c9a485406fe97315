import Pct.Source.Util

/-!
# Percent-encoded string slices

The type `PctStr` of `nsized.rs`: its constructor with the three acceptance paths,
its iterators, comparisons and hashes, and decoding. Each function has the
paths of the source, the ones that depend on the feature `memchr` included. The
source's `HEX_VAL[x]`, `&bytes[a..b]`, `bytes[i]`, `unwrap`, `debug_assert!` and
`from_utf8_unchecked` are the checked operations of `Rust`.
-/

namespace Pct

open Rust

variable {ε : Type} (B : Build ε)

structure PctStr where
  raw : List UInt8
  deriving DecidableEq, Repr

/-- `AsRef<[u8]>` -/
class AsRef (S : Type) where
  asRef : S → List UInt8

instance : AsRef (List UInt8) := ⟨id⟩

instance : AsRef String := ⟨fun s => Utf8.encode s.toList⟩

/-- `core::str::from_utf8` -/
def fromUtf8 (bytes : List UInt8) : Option String := (Utf8.decode bytes).map String.ofList

/-- `core::str::from_utf8_unchecked`, whose behaviour on other bytes is undefined. -/
def fromUtf8Unchecked (bytes : List UInt8) : Exec String :=
  match fromUtf8 bytes with
  | some s => .ok s
  | none => .error .invalidUtf8

theorem fromUtf8Unchecked_eq_ok {bytes : List UInt8} {s : String} :
    fromUtf8Unchecked bytes = .ok s ↔ Utf8.encode s.toList = bytes := by
  rw [← Utf8.decode_eq_some]
  cases h : Utf8.decode bytes <;> simp [fromUtf8Unchecked, fromUtf8, h, String.ext_iff]

@[simp] theorem fromUtf8Unchecked_encode (cs : List Char) :
    fromUtf8Unchecked (Utf8.encode cs) = .ok (String.ofList cs) :=
  fromUtf8Unchecked_eq_ok.mpr (by rw [String.toList_ofList])

/-! ## Validation -/

inductive FastCheck where
  | valid
  | invalid
  | needsFullCheck
  deriving DecidableEq, Repr

/-- `for &b in run { had_non_ascii |= b & 0x80; }` -/
def orNonAscii (hadNonAscii : UInt8) (run : List UInt8) : UInt8 :=
  run.foldl (fun had b => had ||| b &&& 0x80) hadNonAscii

def FastCheck.ofNonAscii (hadNonAscii : UInt8) : FastCheck :=
  if hadNonAscii = 0 then .valid else .needsFullCheck

/-- The loop of `validate_fast` over the positions of `%`. -/
def validateFastMemchr (bytes : List UInt8) : List Nat → Nat → UInt8 → Exec FastCheck
  | [], last, hadNonAscii => do
    let run ← sliceFrom bytes last
    return .ofNonAscii (orNonAscii hadNonAscii run)
  | pct :: pcts, last, hadNonAscii => do
    let run ← slice bytes last pct
    let hadNonAscii := orNonAscii hadNonAscii run
    if pct + 2 ≥ bytes.length then return .invalid
    let a := hexVal (← index bytes (pct + 1))
    let c := hexVal (← index bytes (pct + 2))
    if a ||| c = 0xFF then return .invalid
    validateFastMemchr bytes pcts (pct + 3) (hadNonAscii ||| (a <<< 4 ||| c) &&& 0x80)

/-- One round of the scalar loop of `validate_fast`, on `(i, had_non_ascii)`. -/
def validateFastStep (bytes : List UInt8) : Nat × UInt8 → Exec (ControlFlow (Nat × UInt8) FastCheck)
  | (i, hadNonAscii) => do
    if i < bytes.length then
      let b ← index bytes i
      if b = percent then
        if i + 2 ≥ bytes.length then return .done .invalid
        let a := hexVal (← index bytes (i + 1))
        let c := hexVal (← index bytes (i + 2))
        if a ||| c = 0xFF then return .done .invalid
        return .next (i + 3, hadNonAscii ||| (a <<< 4 ||| c) &&& 0x80)
      else return .next (i + 1, hadNonAscii ||| b &&& 0x80)
    else return .done (.ofNonAscii hadNonAscii)

def validateFastScalar (bytes : List UInt8) : Loop (Nat × UInt8) FastCheck where
  step := validateFastStep bytes
  measure s := bytes.length - s.1
  decreases s s' h := by
    have hlt : s.1 < bytes.length ∧ s.1 < s'.1 := by
      simp only [validateFastStep, Exec.pure_eq] at h
      grind [Exec.bind_eq_ok]
    omega

def validateFast (bytes : List UInt8) : Exec FastCheck :=
  if B.memchrFeature then validateFastMemchr bytes (B.memchrIter percent bytes) 0 0
  else (validateFastScalar bytes).run (0, 0)

/-- `PctStr::validate` -/
def PctStr.validate (input : List UInt8) : Exec Bool := do
  let items ← TryEncodedBytes.iter.collect input
  return (B.tryDecoder items).all (·.isOk)

/-- `PctStr::new` -/
def PctStr.new {S : Type} [AsRef S] (input : S) : Exec (Except (InvalidPctString S) PctStr) := do
  let inputBytes := AsRef.asRef input
  if (findPercent B inputBytes).isNone then
    match fromUtf8 inputBytes with
    | some _ => return .ok ⟨inputBytes⟩
    | none => return .error ⟨input⟩
  else
    match ← validateFast B inputBytes with
    | .valid => return .ok ⟨inputBytes⟩
    | .invalid => return .error ⟨input⟩
    | .needsFullCheck =>
      if ← PctStr.validate B inputBytes then return .ok ⟨inputBytes⟩
      else return .error ⟨input⟩

/-- `as_str` -/
def PctStr.asStr (p : PctStr) : Exec String := fromUtf8Unchecked p.raw

/-! ## Decoded bytes and characters -/

/-- `next().unwrap()` of a slice iterator, twice. -/
def nextTwo : List UInt8 → Exec (UInt8 × UInt8 × List UInt8)
  | a :: b :: rest => .ok (a, b, rest)
  | _ => .error .unwrapFailed

theorem nextTwo_eq_ok {s rest : List UInt8} {a b : UInt8} :
    nextTwo s = .ok (a, b, rest) ↔ s = a :: b :: rest := by
  unfold nextTwo
  split <;> simp_all

/-- The octet of a triplet, where the code relies on its validity. -/
def decodeTriplet (h1 h2 : UInt8) : Exec UInt8 := do
  let a := hexVal h1
  let b := hexVal h2
  debugAssert (a != 0xFF && b != 0xFF)
  return a <<< 4 ||| b

/-- `Bytes::next` -/
def Bytes.next : List UInt8 → Exec (Option (UInt8 × List UInt8))
  | [] => .ok none
  | next :: rest =>
    if next = percent then do
      let (a, b, rest) ← nextTwo rest
      return some (← decodeTriplet a b, rest)
    else .ok (some (next, rest))

theorem Bytes.next_consumes (s : List UInt8) (a : UInt8) (s' : List UInt8)
    (h : Bytes.next s = .ok (some (a, s'))) : s'.length < s.length := by
  simp only [Bytes.next, Exec.pure_eq] at h
  grind [Exec.bind_eq_ok, nextTwo_eq_ok]

def Bytes.iter : Iter (List UInt8) UInt8 where
  next := Bytes.next
  remaining := List.length
  consumes := Bytes.next_consumes

/-- The bytes that `bytes()` yields. -/
def PctStr.bytes (p : PctStr) : Exec (List UInt8) := Bytes.iter.collect p.raw

/-- The characters that `chars()` yields. -/
def PctStr.chars (p : PctStr) : Exec (List Char) := do
  (B.decoder (← p.bytes)).mapM unwrapOk

/-- `len` -/
def PctStr.len (p : PctStr) : Exec Nat := do
  return ((← p.bytes).filter fun b => b &&& 0xC0 != 0x80).length

/-- The loops that copy the runs between the positions of `%` and treat the triplets
in between. `decode` and the two hashes are instances of it. -/
def copyRuns {σ : Type} (write : σ → List UInt8 → σ) (triplet : σ → UInt8 → UInt8 → Exec σ)
    (bytes : List UInt8) : List Nat → Nat → σ → Exec σ
  | [], prev, s => do return write s (← sliceFrom bytes prev)
  | pct :: pcts, prev, s => do
    let s := write s (← slice bytes prev pct)
    let h1 ← index bytes (pct + 1)
    let h2 ← index bytes (pct + 2)
    copyRuns write triplet bytes pcts (pct + 3) (← triplet s h1 h2)

/-- `decode` -/
def PctStr.decode (p : PctStr) : Exec String := do
  if (findPercent B p.raw).isNone then p.asStr
  else
    let out ←
      if B.memchrFeature then
        copyRuns (· ++ ·) (fun out h1 h2 => do return out ++ [← decodeTriplet h1 h2])
          p.raw (B.memchrIter percent p.raw) 0 []
      else p.bytes
    fromUtf8Unchecked out

/-! ## Comparisons -/

/-- `PartialEq for PctStr` -/
def PctStr.eq (p q : PctStr) : Exec Bool :=
  if p.raw = q.raw then .ok true else Bytes.iter.eq Bytes.iter p.raw q.raw

/-- `PartialEq<str> for PctStr` -/
def PctStr.eqStr (p : PctStr) (other : String) : Exec Bool :=
  Bytes.iter.eq .ofSlice p.raw (Utf8.encode other.toList)

/-- `Ord for PctStr` -/
def PctStr.cmp (p q : PctStr) : Exec Ordering := Bytes.iter.cmp Bytes.iter p.raw q.raw

/-! ## Hashing -/

/-- An arbitrary `core::hash::Hasher`. -/
structure Hasher (σ : Type) where
  write : σ → List UInt8 → σ
  writeU8 : σ → UInt8 → σ

/-- `Hash for PctStr` -/
def PctStr.hash {σ : Type} (p : PctStr) (H : Hasher σ) (hasher : σ) : Exec σ := do
  if B.memchrFeature then
    if (findPercent B p.raw).isNone then return H.write hasher p.raw
    copyRuns H.write (fun s h1 h2 => do return H.write s [← decodeTriplet h1 h2])
      p.raw (B.memchrIter percent p.raw) 0 hasher
  else return (← p.bytes).foldl H.writeU8 hasher

/-! ## The RFC 3986 normal form -/

def isUnreservedByte (b : UInt8) : Bool :=
  (0x41 ≤ b ∧ b ≤ 0x5A) || (0x61 ≤ b ∧ b ≤ 0x7A) || (0x30 ≤ b ∧ b ≤ 0x39) ||
    b = 0x2D || b = 0x2E || b = 0x5F || b = 0x7E

def toUpperHexByte (b : UInt8) : UInt8 := if b ≥ 0x61 then b - 0x61 + 0x41 else b

structure Rfc3986Bytes where
  iter : List UInt8
  pending : Vector UInt8 2
  pendingLen : Nat
  pendingPos : Nat
  deriving DecidableEq, Repr

namespace Rfc3986Bytes

def new (bytes : List UInt8) : Rfc3986Bytes := ⟨bytes, #v[0, 0], 0, 0⟩

/-- `Rfc3986Bytes::next` -/
def next (s : Rfc3986Bytes) : Exec (Option (UInt8 × Rfc3986Bytes)) :=
  if s.pendingPos < s.pendingLen then do
    let b ← lookup s.pending s.pendingPos
    return some (b, { s with pendingPos := s.pendingPos + 1 })
  else
    match s.iter with
    | [] => .ok none
    | b :: rest =>
      if b = percent then do
        let (h1, h2, rest) ← nextTwo rest
        let decoded ← decodeTriplet h1 h2
        if isUnreservedByte decoded then return some (decoded, { s with iter := rest })
        return some (percent, ⟨rest, #v[toUpperHexByte h1, toUpperHexByte h2], 2, 0⟩)
      else .ok (some (b, { s with iter := rest }))

/-- At most the raw bytes left and the pending ones are still to come. -/
def remaining (s : Rfc3986Bytes) : Nat := s.iter.length + (s.pendingLen - s.pendingPos)

theorem next_consumes (s : Rfc3986Bytes) (a : UInt8) (s' : Rfc3986Bytes)
    (h : next s = .ok (some (a, s'))) : s'.remaining < s.remaining := by
  simp only [next, Exec.pure_eq] at h
  grind [Exec.bind_eq_ok, nextTwo_eq_ok, remaining]

def iterator : Iter Rfc3986Bytes UInt8 where
  next := next
  remaining := remaining
  consumes := next_consumes

end Rfc3986Bytes

/-- The bytes that `bytes_rfc3986()` yields. -/
def PctStr.bytesRfc3986 (p : PctStr) : Exec (List UInt8) :=
  Rfc3986Bytes.iterator.collect (.new p.raw)

/-- `eq_rfc3986` -/
def PctStr.eqRfc3986 (p q : PctStr) : Exec Bool :=
  if p.raw = q.raw then .ok true
  else Rfc3986Bytes.iterator.eq Rfc3986Bytes.iterator (.new p.raw) (.new q.raw)

/-- `cmp_rfc3986` -/
def PctStr.cmpRfc3986 (p q : PctStr) : Exec Ordering :=
  Rfc3986Bytes.iterator.cmp Rfc3986Bytes.iterator (.new p.raw) (.new q.raw)

/-- `hash_rfc3986` -/
def PctStr.hashRfc3986 {σ : Type} (p : PctStr) (H : Hasher σ) (hasher : σ) : Exec σ := do
  if B.memchrFeature then
    if (findPercent B p.raw).isNone then return H.write hasher p.raw
    let triplet (s : σ) (h1 h2 : UInt8) : Exec σ := do
      let decoded ← decodeTriplet h1 h2
      if isUnreservedByte decoded then return H.write s [decoded]
      return H.write s [percent, toUpperHexByte h1, toUpperHexByte h2]
    copyRuns H.write triplet p.raw (B.memchrIter percent p.raw) 0 hasher
  else return (← p.bytesRfc3986).foldl H.writeU8 hasher

end Pct
