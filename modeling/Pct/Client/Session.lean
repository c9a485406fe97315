import Pct.Library.Machine
import Pct.Refinement.Hashing
import Pct.Source.Interface

/-!
# Sessions of a client

A client of the crate makes values, converts them, and looks at them, in any order. It
holds a pool of slices and owned strings and refers to them by position. Every request is
one call of the safe interface (or, for the comparisons, of one of the four impls that the
kinds of the two values select), and the responses carry everything the call returns. The
hashes are taken with a hasher that keeps its input.
-/

namespace Pct

open Rust

namespace Client

variable {ε : Type} (B : Build ε)

/-- A value that the client holds. -/
inductive Entry where
  | slice (p : PctStr)
  | owned (p : PctString)
  deriving DecidableEq, Repr

/-- The slice of a value; an owned string is dereferenced. -/
def Entry.pctStr : Entry → PctStr
  | slice p => p
  | owned p => p.deref

/-! ## Requests and responses -/

/-- The calls that make a value of something else. -/
inductive Maker where
  | newSlice (bytes : List UInt8)
  | newOwned (bytes : List UInt8)
  | tryFromSlice (value : String)
  | tryFromOwned (value : String)
  | encode (src : List Char) (encoder : Encoder)
  | encodeBytes (src : String) (encoder : Encoder)

/-- The calls on one value. -/
inductive View where
  | asStr
  | asBytes
  | isEmpty
  | len
  | decode
  | bytes
  | chars
  | bytesRfc3986
  | hash
  | hashRfc3986
  | eqStr (other : String)

/-- The calls on two values. -/
inductive Comparison where
  | eq
  | partialCmp
  | eqRfc3986
  | cmpRfc3986

inductive Request where
  | make (m : Maker)
  | toOwned (i : Nat)
  | asPctStr (i : Nat)
  | intoString (i : Nat)
  | intoBytes (i : Nat)
  | view (i : Nat) (v : View)
  | compare (i j : Nat) (c : Comparison)

inductive Response where
  | made
  | refusedBytes (input : List UInt8)
  | refusedText (input : String)
  /-- There is no value of the right kind at the position. -/
  | absent
  | bytes (bs : List UInt8)
  | text (s : String)
  | chars (cs : List Char)
  | count (n : Nat)
  | truth (b : Bool)
  | order (o : Option Ordering)
  deriving DecidableEq, Repr

/-! ## The calls -/

def Maker.make : Maker → Exec (Response × Option Entry)
  | newSlice bytes => do
    match ← PctStr.new B bytes with
    | .ok p => return (.made, some (.slice p))
    | .error e => return (.refusedBytes (← e.intoOwned id).input, none)
  | newOwned bytes => do
    match ← PctString.new B bytes with
    | .ok p => return (.made, some (.owned p))
    | .error e => return (.refusedBytes e.input, none)
  | tryFromSlice value => do
    match ← PctStr.tryFrom B value with
    | .ok p => return (.made, some (.slice p))
    | .error e => return (.refusedText (← e.intoOwned id).input, none)
  | tryFromOwned value => do
    match ← PctString.tryFrom B value with
    | .ok p => return (.made, some (.owned p))
    | .error e => return (.refusedText e.input, none)
  | encode src encoder => return (.made, some (.owned (PctString.encode src encoder)))
  | encodeBytes src encoder => do
    return (.made, some (.owned (← PctString.encodeBytes B src encoder)))

namespace Entry

def hash : Entry → Exec (List UInt8)
  | slice p => p.hash B collector []
  | owned p => p.hash B collector []

def eqStr (other : String) : Entry → Exec Bool
  | slice p => p.eqStr other
  | owned p => p.eqStr other

def view (a : Entry) : View → Exec Response
  | .asStr => .text <$> a.pctStr.asStr
  | .asBytes => .ok (.bytes a.pctStr.asBytes)
  | .isEmpty => .ok (.truth a.pctStr.isEmpty)
  | .len => .count <$> a.pctStr.len
  | .decode => .text <$> a.pctStr.decode B
  | .bytes => .bytes <$> a.pctStr.bytes
  | .chars => .chars <$> a.pctStr.chars B
  | .bytesRfc3986 => .bytes <$> a.pctStr.bytesRfc3986
  | .hash => .bytes <$> a.hash B
  | .hashRfc3986 => .bytes <$> a.pctStr.hashRfc3986 B collector []
  | .eqStr other => .truth <$> a.eqStr other

def eq : Entry → Entry → Exec Bool
  | slice p, slice q => p.eq q
  | slice p, owned q => p.eqPctString q
  | owned p, slice q => p.eqPctStr q
  | owned p, owned q => p.eq q

def partialCmp : Entry → Entry → Exec (Option Ordering)
  | slice p, slice q => p.partialCmp q
  | slice p, owned q => p.partialCmpPctString q
  | owned p, slice q => p.partialCmpPctStr q
  | owned p, owned q => p.partialCmp q

def compare (a b : Entry) : Comparison → Exec Response
  | .eq => .truth <$> a.eq b
  | .partialCmp => .order <$> a.partialCmp b
  | .eqRfc3986 => .truth <$> a.pctStr.eqRfc3986 b.pctStr
  | .cmpRfc3986 => (.order ∘ some) <$> a.pctStr.cmpRfc3986 b.pctStr

end Entry

/-- One request on the pool. `into_string` and `into_bytes` take the string they convert
out of it. -/
def step (pool : List Entry) : Request → Exec (Response × List Entry)
  | .make m => do
    let (response, made) ← m.make B
    return (response, pool ++ made.toList)
  | .toOwned i =>
    match pool[i]? with
    | some a => .ok (.made, pool ++ [.owned a.pctStr.toOwned])
    | none => .ok (.absent, pool)
  | .asPctStr i =>
    match pool[i]? with
    | some a => .ok (.made, pool ++ [.slice a.pctStr])
    | none => .ok (.absent, pool)
  | .intoString i =>
    match pool[i]? with
    | some (.owned p) => do return (.text (← p.intoString), pool.eraseIdx i)
    | _ => .ok (.absent, pool)
  | .intoBytes i =>
    match pool[i]? with
    | some (.owned p) => .ok (.bytes p.intoBytes, pool.eraseIdx i)
    | _ => .ok (.absent, pool)
  | .view i v =>
    match pool[i]? with
    | some a => do return (← a.view B v, pool)
    | none => .ok (.absent, pool)
  | .compare i j c =>
    match pool[i]?, pool[j]? with
    | some a, some b => do return (← a.compare b c, pool)
    | _, _ => .ok (.absent, pool)

/-- The crate, as its clients see it. -/
def machine : Machine (List Entry) Request Response := ⟨step B⟩

end Client

end Pct
