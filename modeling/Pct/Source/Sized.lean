import Pct.Source.Encoder
import Pct.Source.Nsized

/-!
# Owned percent-encoded strings and encoding

The type `PctString` of `sized.rs`, its validating constructors, and the two ways
to encode a text: character by character (`encode`) and over the bytes of a string
(`encodeBytes`), where runs of kept bytes are skipped by a scanner.
-/

namespace Pct

open Rust

variable {ε : Type} (B : Build ε)

structure PctString where
  raw : List UInt8
  deriving DecidableEq, Repr

/-- `Into<Vec<u8>>` -/
class IntoBytes (S : Type) where
  intoBytes : S → List UInt8

instance : IntoBytes (List UInt8) := ⟨id⟩

instance : IntoBytes String := ⟨fun s => Utf8.encode s.toList⟩

/-- `PctString::new` -/
def PctString.new {S : Type} [IntoBytes S] (bytes : S) :
    Exec (Except (InvalidPctString (List UInt8)) PctString) := do
  let bytes := IntoBytes.intoBytes bytes
  if (findPercent B bytes).isNone then
    match fromUtf8 bytes with
    | some _ => return .ok ⟨bytes⟩
    | none => return .error ⟨bytes⟩
  else if ← PctStr.validate B bytes then return .ok ⟨bytes⟩
  else return .error ⟨bytes⟩

/-- `PctString::from_string` -/
def PctString.fromString (string : String) :
    Exec (Except (InvalidPctString String) PctString) := do
  match ← PctString.new B string with
  | .ok p => return .ok p
  | .error e => return .error (← e.map fromUtf8Unchecked)

/-- `as_pct_str` -/
def PctString.asPctStr (p : PctString) : PctStr := ⟨p.raw⟩

/-- `into_string` -/
def PctString.intoString (p : PctString) : Exec String := fromUtf8Unchecked p.raw

/-! ## Hex digits -/

/-- The table `HEX`, `0123456789ABCDEF`. -/
def hexTable : Vector UInt8 16 :=
  #v[0x30, 0x31, 0x32, 0x33, 0x34, 0x35, 0x36, 0x37, 0x38, 0x39, 0x41, 0x42, 0x43, 0x44, 0x45, 0x46]

theorem hiNibble_lt (b : UInt8) : (b >>> 4).toNat < 16 := by
  revert b
  exact Utf8.byte_all (by decide)

theorem loNibble_lt (b : UInt8) : (b &&& 0x0F).toNat < 16 := by
  revert b
  exact Utf8.byte_all (by decide)

/-- `HEX[(b >> 4) as usize]` -/
def hexHi (b : UInt8) : UInt8 := hexTable.get ⟨(b >>> 4).toNat, hiNibble_lt b⟩

/-- `HEX[(b & 0x0F) as usize]` -/
def hexLo (b : UInt8) : UInt8 := hexTable.get ⟨(b &&& 0x0F).toNat, loNibble_lt b⟩

/-- The three pushes for one encoded byte. -/
def pushTriplet (out : List UInt8) (b : UInt8) : List UInt8 := out ++ [percent, hexHi b, hexLo b]

/-! ## Encoding characters -/

/-- The loop body shared by `encode` and the fallback of `encode_bytes`. -/
def pushChar (encoder : Encoder) (out : List UInt8) (c : Char) : List UInt8 :=
  if encoder.encode c || c = '%' then (String.utf8EncodeChar c).foldl pushTriplet out
  else if c.toNat < 0x80 then out ++ [UInt8.ofNat c.toNat]
  else out ++ String.utf8EncodeChar c

/-- `PctString::encode` -/
def PctString.encode (src : List Char) (encoder : Encoder) : PctString :=
  ⟨src.foldl (pushChar encoder) []⟩

/-! ## Encoding bytes -/

/-- `while i < bytes.len() && (bytes[i] & 0xC0) == 0x80 { i += 1; }` -/
def seqEndStep (bytes : List UInt8) (i : Nat) : Exec (ControlFlow Nat Nat) := do
  if i < bytes.length then
    let b ← index bytes i
    if b &&& 0xC0 = 0x80 then return .next (i + 1) else return .done i
  else return .done i

def seqEnd (bytes : List UInt8) : Loop Nat Nat where
  step := seqEndStep bytes
  measure i := bytes.length - i
  decreases s s' h := by
    simp only [seqEndStep, Exec.pure_eq] at h
    grind [Exec.bind_eq_ok]

/-- The part of the loop body behind the run: it encodes the byte at `i`, or the
multi-byte sequence that starts there. -/
def encodeBreak (encoder : Encoder) (bytes : List UInt8) (i : Nat) (out : List UInt8) :
    Exec (Nat × List UInt8) := do
  let b ← index bytes i
  if b < 0x80 then return (i + 1, pushTriplet out b)
  else
    let stop ← (seqEnd bytes).run (i + 1)
    let seq ← slice bytes i stop
    let c ← unwrap (← fromUtf8Unchecked seq).toList.head?
    if encoder.encode c then return (stop, seq.foldl pushTriplet out)
    else return (stop, out ++ seq)

/-- One round of the main loop of `encode_bytes`, on `(i, out)`. -/
def encodeBytesStep (encoder : Encoder) (table : KeepTable) (loShuf : Option LoShuf)
    (bytes : List UInt8) : Nat × List UInt8 → Exec (ControlFlow (Nat × List UInt8) (List UInt8))
  | (i, out) => do
    if i < bytes.length then
      let runEnd ← scanKeepRun B bytes i table loShuf
      if runEnd > i then
        let out := out ++ (← slice bytes i runEnd)
        if runEnd ≥ bytes.length then return .done out
        else return .next (← encodeBreak encoder bytes runEnd out)
      else return .next (← encodeBreak encoder bytes i out)
    else return .done out

theorem seqEnd_le {bytes : List UInt8} {i j : Nat} (h : (seqEnd bytes).run i = .ok j) : i ≤ j := by
  apply (seqEnd bytes).sound (i ≤ ·) (i ≤ ·) _ _ le_rfl h
  · intro s s' hs hstep
    simp only [seqEnd, seqEndStep, Exec.pure_eq] at hstep
    grind [Exec.bind_eq_ok]
  · intro s r hs hstep
    simp only [seqEnd, seqEndStep, Exec.pure_eq] at hstep
    grind [Exec.bind_eq_ok]

/-- The loop makes progress: what breaks a run is consumed. -/
theorem encodeBreak_lt {encoder : Encoder} {bytes out : List UInt8} {i : Nat}
    {s : Nat × List UInt8} (h : encodeBreak encoder bytes i out = .ok s) : i < s.1 := by
  simp only [encodeBreak, Exec.pure_eq] at h
  obtain ⟨b, -, h⟩ := Exec.bind_eq_ok.mp h
  split at h
  · obtain rfl := Except.ok.inj h
    exact Nat.lt_succ_self i
  · obtain ⟨stop, hstop, h⟩ := Exec.bind_eq_ok.mp h
    obtain ⟨seq, -, h⟩ := Exec.bind_eq_ok.mp h
    obtain ⟨text, -, h⟩ := Exec.bind_eq_ok.mp h
    obtain ⟨c, -, h⟩ := Exec.bind_eq_ok.mp h
    have := seqEnd_le hstop
    split at h <;> obtain rfl := Except.ok.inj h <;> exact this

def encodeBytesLoop (encoder : Encoder) (table : KeepTable) (loShuf : Option LoShuf)
    (bytes : List UInt8) : Loop (Nat × List UInt8) (List UInt8) where
  step := encodeBytesStep B encoder table loShuf bytes
  measure s := bytes.length - s.1
  decreases s s' h := by
    simp only [encodeBytesStep, Exec.pure_eq] at h
    grind [Exec.bind_eq_ok, → encodeBreak_lt]

/-- `PctString::encode_bytes` -/
def PctString.encodeBytes (src : String) (encoder : Encoder) : Exec PctString :=
  match encoder.asciiKeepTable with
  | some table => do
    let loShuf := encoder.asciiKeepLoShuf
    return ⟨← (encodeBytesLoop B encoder table loShuf (Utf8.encode src.toList)).run (0, [])⟩
  | none => .ok ⟨src.toList.foldl (pushChar encoder) []⟩

end Pct
