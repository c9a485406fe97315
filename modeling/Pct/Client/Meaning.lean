import Pct.Client.Session
import Pct.Refinement.Encoding
import Pct.Text.Meaning

/-!
# What a session means

The same requests on texts instead of bytes. A text is all there is to a value: equality,
order, length and hash are those of its characters, the RFC 3986 calls are those of its
normal form, and the raw text can be read when it splits no character. Nothing here depends
on the features of a build, and there are no loops, tables or positions.
-/

namespace Pct

open Rust

theorem wellFormed_octets_encodeTokens (encoder : Encoder) (src : List Char) :
    Utf8.WellFormed (octets (encodeTokens encoder src)) :=
  ⟨src, (octets_encodeTokens encoder src).symm⟩

/-- The characters `src`, those that `encoder` selects and `%` written as triplets. -/
def Text.ofChars (encoder : Encoder) (src : List Char) : Text :=
  ⟨encodeTokens encoder src, wellFormed_octets_encodeTokens encoder src⟩

@[simp] theorem Text.chars_ofChars (encoder : Encoder) (src : List Char) :
    (ofChars encoder src).chars = src :=
  Text.chars_eq.mpr (octets_encodeTokens encoder src).symm

namespace Client

inductive Kind where
  | slice
  | owned
  deriving DecidableEq, Repr

/-- A text, held as a slice or as an owned string. -/
structure Holding where
  kind : Kind
  text : Text
  deriving DecidableEq

namespace Meaning

def refuse (response : Response) (kind : Kind) : Option Text → Response × Option Holding
  | some t => (.made, some ⟨kind, t⟩)
  | none => (response, none)

def make : Maker → Response × Option Holding
  | .newSlice bytes => refuse (.refusedBytes bytes) .slice (Text.ofBytes bytes)
  | .newOwned bytes => refuse (.refusedBytes bytes) .owned (Text.ofBytes bytes)
  | .tryFromSlice value =>
    refuse (.refusedText value) .slice (Text.ofBytes (Utf8.encode value.toList))
  | .tryFromOwned value =>
    refuse (.refusedText value) .owned (Text.ofBytes (Utf8.encode value.toList))
  | .encode src encoder => (.made, some ⟨.owned, Text.ofChars encoder src⟩)
  | .encodeBytes src encoder => (.made, some ⟨.owned, Text.ofChars encoder src.toList⟩)

/-- Reading the raw text is undefined where it is no text. -/
def read (t : Text) : Exec String :=
  match t.readable with
  | some s => .ok s
  | none => .error .invalidUtf8

def view (t : Text) : View → Exec Response
  | .asStr => .text <$> read t
  | .asBytes => .ok (.bytes t.raw)
  | .isEmpty => .ok (.truth t.chars.isEmpty)
  | .len => .ok (.count t.chars.length)
  | .decode => .ok (.text (String.ofList t.chars))
  | .bytes => .ok (.bytes (Utf8.encode t.chars))
  | .chars => .ok (.chars t.chars)
  | .bytesRfc3986 => .ok (.bytes t.normal.raw)
  | .hash => .ok (.bytes (Utf8.encode t.chars))
  | .hashRfc3986 => .ok (.bytes t.normal.raw)
  | .eqStr other => .ok (.truth (t.chars = other.toList))

def compare (t u : Text) : Comparison → Response
  | .eq => .truth (t.chars = u.chars)
  | .partialCmp => .order (some (Ord.compare t.chars u.chars))
  | .eqRfc3986 => .truth (t.normal = u.normal)
  | .cmpRfc3986 => .order (some (Ord.compare t.normal.raw u.normal.raw))

def step (pool : List Holding) : Request → Exec (Response × List Holding)
  | .make m => .ok ((make m).1, pool ++ (make m).2.toList)
  | .toOwned i =>
    match pool[i]? with
    | some a => .ok (.made, pool ++ [⟨.owned, a.text⟩])
    | none => .ok (.absent, pool)
  | .asPctStr i =>
    match pool[i]? with
    | some a => .ok (.made, pool ++ [⟨.slice, a.text⟩])
    | none => .ok (.absent, pool)
  | .intoString i =>
    match pool[i]? with
    | some ⟨.owned, t⟩ => do return (.text (← read t), pool.eraseIdx i)
    | _ => .ok (.absent, pool)
  | .intoBytes i =>
    match pool[i]? with
    | some ⟨.owned, t⟩ => .ok (.bytes t.raw, pool.eraseIdx i)
    | _ => .ok (.absent, pool)
  | .view i v =>
    match pool[i]? with
    | some a => do return (← view a.text v, pool)
    | none => .ok (.absent, pool)
  | .compare i j c =>
    match pool[i]?, pool[j]? with
    | some a, some b => .ok (compare a.text b.text c, pool)
    | _, _ => .ok (.absent, pool)

def machine : Machine (List Holding) Request Response := ⟨step⟩

end Meaning

/-- How the crate stores a text. -/
def Entry.of : Holding → Entry
  | ⟨.slice, t⟩ => .slice ⟨t.raw⟩
  | ⟨.owned, t⟩ => .owned ⟨t.raw⟩

@[simp] theorem Entry.of_slice (t : Text) : Entry.of ⟨.slice, t⟩ = .slice ⟨t.raw⟩ := rfl

@[simp] theorem Entry.of_owned (t : Text) : Entry.of ⟨.owned, t⟩ = .owned ⟨t.raw⟩ := rfl

@[simp] theorem Entry.pctStr_of (a : Holding) : (Entry.of a).pctStr = ⟨a.text.raw⟩ := by
  obtain ⟨kind, t⟩ := a
  cases kind <;> rfl

end Client

end Pct
