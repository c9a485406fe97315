import Pct.Source.Sized

/-!
# The rest of the interface

The public functions that pass on to others: the conversions between slices and owned
strings, the unchecked constructors, and the comparisons of the four pairs of types. An
`&str` or a `&[u8]` and its owned form are one value here, so `into_owned` of an error
keeps the input. `encode_ascii` belongs to the trait of the encoders, but nothing calls it.
-/

namespace Pct

open Rust

variable {ε : Type} (B : Build ε)

/-- `into_owned`, where `toOwned` is `T::to_owned`. -/
def InvalidPctString.intoOwned {T U : Type} (toOwned : T → U) (e : InvalidPctString T) :
    Exec (InvalidPctString U) := e.map fun t => .ok (toOwned t)

/-! ## Encoders -/

/-- `encode_ascii`, as the trait provides it. -/
def Encoder.encodeAscii (encoder : Encoder) (b : UInt8) : Option Bool :=
  if b < 0x80 then some (encoder.encode (Char.ofNat b.toNat)) else none

/-- `encode_ascii`, as both built-in families override it. -/
def encodeAsciiOf (table : KeepTable) (b : UInt8) : Exec (Option Bool) := do
  return some ((← lookup table b.toNat) == 0)

def UriReserved.encodeAscii (v : UriReserved) : UInt8 → Exec (Option Bool) :=
  encodeAsciiOf v.keepTable

def IriReserved.encodeAscii (v : IriReserved) : UInt8 → Exec (Option Bool) :=
  encodeAsciiOf v.keepTable

/-! ## Slices -/

namespace PctStr

/-- `new_unchecked` -/
def newUnchecked {S : Type} [AsRef S] (input : S) : PctStr := ⟨AsRef.asRef input⟩

/-- `TryFrom<&str> for &PctStr` -/
def tryFrom (value : String) : Exec (Except (InvalidPctString String) PctStr) := PctStr.new B value

/-- `is_empty` -/
def isEmpty (p : PctStr) : Bool := p.raw.isEmpty

/-- `as_bytes` -/
def asBytes (p : PctStr) : List UInt8 := p.raw

/-- `PartialOrd for PctStr` -/
def partialCmp (p q : PctStr) : Exec (Option Ordering) := some <$> p.cmp q

/-- `PartialEq<PctString> for PctStr` -/
def eqPctString (p : PctStr) (q : PctString) : Exec Bool := p.eq q.asPctStr

/-- `PartialOrd<PctString> for PctStr` -/
def partialCmpPctString (p : PctStr) (q : PctString) : Exec (Option Ordering) :=
  p.partialCmp q.asPctStr

end PctStr

/-! ## Owned strings -/

namespace PctString

/-- `new_unchecked` -/
def newUnchecked {S : Type} [IntoBytes S] (bytes : S) : PctString := ⟨IntoBytes.intoBytes bytes⟩

/-- `FromStr`, `TryFrom<String>` and `TryFrom<&str>` -/
def tryFrom (value : String) : Exec (Except (InvalidPctString String) PctString) :=
  PctString.fromString B value

/-- `into_bytes` -/
def intoBytes (p : PctString) : List UInt8 := p.raw

/-- `Deref`, `Borrow<PctStr>` and `AsRef<PctStr>` -/
def deref (p : PctString) : PctStr := p.asPctStr

/-- `PartialEq for PctString` -/
def eq (p q : PctString) : Exec Bool := p.deref.eq q.deref

/-- `PartialEq<PctStr> for PctString` -/
def eqPctStr (p : PctString) (q : PctStr) : Exec Bool := p.deref.eq q

/-- `PartialEq<str>` and `PartialEq<&str>` for `PctString` -/
def eqStr (p : PctString) (other : String) : Exec Bool := p.deref.eqStr other

/-- `PartialOrd for PctString` -/
def partialCmp (p q : PctString) : Exec (Option Ordering) := p.asPctStr.partialCmp q.asPctStr

/-- `PartialOrd<PctStr> for PctString` -/
def partialCmpPctStr (p : PctString) (q : PctStr) : Exec (Option Ordering) :=
  p.asPctStr.partialCmp q

/-- `Hash for PctString` -/
def hash {σ : Type} (p : PctString) (H : Hasher σ) (hasher : σ) : Exec σ :=
  p.deref.hash B H hasher

end PctString

/-- `ToOwned for PctStr` -/
def PctStr.toOwned (p : PctStr) : PctString := PctString.newUnchecked p.raw

end Pct
