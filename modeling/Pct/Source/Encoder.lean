import Pct.Source.Scan

/-!
# Encoders

The trait `Encoder` with the methods that encoding uses, and its two built-in
families. `UriReserved` and `IriReserved` keep separate predicates, as `uri.rs` and
`iri.rs` do; the two functions that both files repeat are defined once.
-/

namespace Pct

/-- Any implementor of the trait, consistent or not. -/
structure Encoder where
  encode : Char → Bool
  asciiKeepTable : Option KeepTable
  asciiKeepLoShuf : Option LoShuf

/-- `impl<F: Fn(char) -> bool> Encoder for F`, with the default methods. -/
def Encoder.ofFn (f : Char → Bool) : Encoder := ⟨f, none, none⟩

/-- `'lo'..='hi'` -/
def inRange (lo hi : Nat) (c : Char) : Bool := lo ≤ c.toNat ∧ c.toNat ≤ hi

/-! ## Functions that `uri.rs` and `iri.rs` both have -/

/-- The characters `! $ & ' ( ) * + , ; =`. -/
def isSubDelim (c : Char) : Bool :=
  c.toNat ∈ [0x21, 0x24, 0x26, 0x27, 0x28, 0x29, 0x2A, 0x2B, 0x2C, 0x3B, 0x3D]

/-- `build_keep_table` -/
def buildKeepTable (variant : Nat) : KeepTable :=
  Vector.ofFn fun i =>
    let b := UInt8.ofNat i
    let unreserved := (0x41 ≤ b ∧ b ≤ 0x5A) || (0x61 ≤ b ∧ b ≤ 0x7A) || (0x30 ≤ b ∧ b ≤ 0x39) ||
      b = 0x2D || b = 0x2E || b = 0x5F || b = 0x7E
    let subDelim := b ∈ [0x21, 0x24, 0x26, 0x27, 0x28, 0x29, 0x2A, 0x2B, 0x2C, 0x3B, 0x3D]
    let safe := match variant with
      | 0 => false
      | 1 => subDelim || b = 0x40
      | 2 | 3 => subDelim || b = 0x3A || b = 0x40 || b = 0x2F || b = 0x3F
      | _ => false
    let keep := unreserved || safe
    if keep && b != percent then 1 else 0

/-! ## `uri.rs` -/

inductive UriReserved where
  | any | path | query | fragment
  deriving DecidableEq, Repr

namespace UriReserved

def isUnreserved (c : Char) : Bool :=
  c.isAlphanum || c = '-' || c = '.' || c = '_' || c = '~'

def isReservedButSafe : UriReserved → Char → Bool
  | any, _ => false
  | path, c => isSubDelim c || c = '@'
  | query, c | fragment, c => isSubDelim c || c = ':' || c = '@' || c = '/' || c = '?'

def encode (v : UriReserved) (c : Char) : Bool := !isUnreserved c && !v.isReservedButSafe c

def keepTable : UriReserved → KeepTable
  | any => buildKeepTable 0
  | path => buildKeepTable 1
  | query => buildKeepTable 2
  | fragment => buildKeepTable 3

def encoder (v : UriReserved) : Encoder where
  encode := v.encode
  asciiKeepTable := some v.keepTable
  asciiKeepLoShuf := some (buildLoShuf v.keepTable)

end UriReserved

/-! ## `iri.rs` -/

inductive IriReserved where
  | any | path | query | fragment
  deriving DecidableEq, Repr

namespace IriReserved

def isIprivate (c : Char) : Bool :=
  inRange 0xE000 0xF8FF c || inRange 0xF0000 0xFFFFD c || inRange 0x100000 0x10FFFD c

def isUcschar (c : Char) : Bool :=
  inRange 0x00A0 0xD7FF c
    || inRange 0xF900 0xFDCF c
    || inRange 0xFDF0 0xFFEF c
    || inRange 0x10000 0x1FFFD c
    || inRange 0x20000 0x2FFFD c
    || inRange 0x30000 0x3FFFD c
    || inRange 0x40000 0x4FFFD c
    || inRange 0x50000 0x5FFFD c
    || inRange 0x60000 0x6FFFD c
    || inRange 0x70000 0x7FFFD c
    || inRange 0x80000 0x8FFFD c
    || inRange 0x90000 0x9FFFD c
    || inRange 0xA0000 0xAFFFD c
    || inRange 0xB0000 0xBFFFD c
    || inRange 0xC0000 0xCFFFD c
    || inRange 0xD0000 0xDFFFD c
    || inRange 0xE1000 0xEFFFD c

def isIunreserved (c : Char) : Bool :=
  c.isAlphanum || c = '-' || c = '.' || c = '_' || c = '~' || isUcschar c

def isReservedButSafe : IriReserved → Char → Bool
  | any, _ => false
  | path, c => isSubDelim c || c = '@'
  | query, c => isSubDelim c || isIprivate c || c = ':' || c = '@' || c = '/' || c = '?'
  | fragment, c => isSubDelim c || c = ':' || c = '@' || c = '/' || c = '?'

def encode (v : IriReserved) (c : Char) : Bool := !isIunreserved c && !v.isReservedButSafe c

def keepTable : IriReserved → KeepTable
  | any => buildKeepTable 0
  | path => buildKeepTable 1
  | query => buildKeepTable 2
  | fragment => buildKeepTable 3

def encoder (v : IriReserved) : Encoder where
  encode := v.encode
  asciiKeepTable := some v.keepTable
  asciiKeepLoShuf := some (buildLoShuf v.keepTable)

end IriReserved

end Pct
