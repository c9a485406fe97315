import Pct.Source.Util
import Pct.Library.Simd

/-!
# Scanners for runs of kept bytes

The three scanners of `scan.rs` and the dispatch between them. A byte breaks a run
when it is not ASCII, is `%`, or has the entry zero in the keep table. Reading the
table at a byte is checked, so a scanner that returns has not looked up a byte
beyond its 128 entries.
-/

namespace Pct

open Rust Simd

variable {ε : Type} (B : Build ε)

abbrev KeepTable := Vector UInt8 128
abbrev LoShuf := Vector UInt8 16

/-- `build_lo_shuf`: bit `hi` of entry `lo` tells whether `(hi << 4) | lo` is kept. -/
def buildLoShuf (table : KeepTable) : LoShuf :=
  Vector.ofFn fun lo => .ofBitVec (bitmask 8 8 fun hi => table[hi <<< 4 ||| lo.val]?.getD 0 != 0)

/-- `b >= 0x80 || b == b'%' || table[b as usize] == 0` -/
def isBreak (table : KeepTable) (b : UInt8) : Exec Bool :=
  if b ≥ 0x80 || b = percent then .ok true
  else do return (← lookup table b.toNat) == 0

/-! ## The 8-byte scanner -/

/-- The byte loop behind the last full chunk of `scan_keep_run_swar`. -/
def scanTailStep (bytes : List UInt8) (table : KeepTable) (i : Nat) :
    Exec (ControlFlow Nat Nat) := do
  if i < bytes.length then
    let b ← index bytes i
    if ← isBreak table b then return .done i
    else return .next (i + 1)
  else return .done i

def scanTail (bytes : List UInt8) (table : KeepTable) : Loop Nat Nat where
  step := scanTailStep bytes table
  measure i := bytes.length - i
  decreases s s' h := by
    simp only [scanTailStep, Exec.pure_eq] at h
    grind [Exec.bind_eq_ok]

/-- The break mask of a chunk. -/
def swarMask (chunk : List UInt8) (table : KeepTable) : Exec (BitVec 32) := do
  let breaks ← chunk.mapM (isBreak table)
  return bitmask 32 8 fun k => breaks[k]?.getD false

def scanSwarStep (bytes : List UInt8) (table : KeepTable) (i : Nat) :
    Exec (ControlFlow Nat Nat) := do
  if i + 8 ≤ bytes.length then
    let chunk ← slice bytes i (i + 8)
    let mask ← swarMask chunk table
    if mask = 0 then return .next (i + 8)
    else return .done (i + mask.ctz.toNat)
  else return .done (← (scanTail bytes table).run i)

def scanSwar (bytes : List UInt8) (table : KeepTable) : Loop Nat Nat where
  step := scanSwarStep bytes table
  measure i := bytes.length - i
  decreases s s' h := by
    simp only [scanSwarStep, Exec.pure_eq] at h
    grind [Exec.bind_eq_ok]

/-- `scan_keep_run_swar` -/
def scanKeepRunSwar (bytes : List UInt8) (i : Nat) (table : KeepTable) : Exec Nat :=
  (scanSwar bytes table).run i

/-! ## The 16-lane prefilter -/

/-- The first of the lanes `ks` behind `i` that the keep table declines. -/
def firstDeclined (bytes : List UInt8) (table : KeepTable) (i : Nat) :
    List Nat → Exec (Option Nat)
  | [] => .ok none
  | k :: ks => do
    let b ← index bytes (i + k)
    if (← lookup table b.toNat) = 0 then return some (i + k)
    else firstDeclined bytes table i ks

def scanSimdStep (bytes : List UInt8) (table : KeepTable) (i : Nat) :
    Exec (ControlFlow Nat Nat) := do
  if i + 16 ≤ bytes.length then
    let v ← fromSlice 16 (← slice bytes i (i + 16))
    let nonAscii := simdGe v (splat 0x80)
    let isPct := simdEq v (splat percent)
    let breakBits := toBitmask (maskOr nonAscii isPct)
    if breakBits ≠ 0 then
      let pctPos := breakBits.ctz.toNat
      -- a declined byte in front of the break still wins
      match ← firstDeclined bytes table i (List.range pctPos) with
      | some j => return .done j
      | none => return .done (i + pctPos)
    else
      match ← firstDeclined bytes table i (List.range 16) with
      | some j => return .done j
      | none => return .next (i + 16)
  else return .done (← scanKeepRunSwar bytes i table)

def scanSimd (bytes : List UInt8) (table : KeepTable) : Loop Nat Nat where
  step := scanSimdStep bytes table
  measure i := bytes.length - i
  decreases s s' h := by
    simp only [scanSimdStep, Exec.pure_eq] at h
    grind [Exec.bind_eq_ok]

/-- `scan_keep_run_simd` -/
def scanKeepRunSimd (bytes : List UInt8) (i : Nat) (table : KeepTable) : Exec Nat :=
  (scanSimd bytes table).run i

/-! ## The 16-lane nibble shuffle -/

def hiLookup : Vector UInt8 16 := #v[1, 2, 4, 8, 16, 32, 64, 128, 0, 0, 0, 0, 0, 0, 0, 0]

/-- The lanes of a chunk that the shuffle drops. -/
def dropBits (v : Vector UInt8 16) (loShuf : LoShuf) : BitVec 64 :=
  let loNib := bitAnd v (splat 0x0F)
  let hiNib := shr v (splat 4)
  let loBits := swizzleDyn loShuf loNib
  let hiBits := swizzleDyn hiLookup hiNib
  toBitmask (simdEq (bitAnd loBits hiBits) (splat 0))

def scanShufStep (bytes : List UInt8) (table : KeepTable) (loShuf : LoShuf) (i : Nat) :
    Exec (ControlFlow Nat Nat) := do
  if i + 16 ≤ bytes.length then
    let v ← fromSlice 16 (← slice bytes i (i + 16))
    let drop := dropBits v loShuf
    if drop ≠ 0 then return .done (i + drop.ctz.toNat)
    else return .next (i + 16)
  else return .done (← scanKeepRunSwar bytes i table)

def scanShuf (bytes : List UInt8) (table : KeepTable) (loShuf : LoShuf) : Loop Nat Nat where
  step := scanShufStep bytes table loShuf
  measure i := bytes.length - i
  decreases s s' h := by
    simp only [scanShufStep, Exec.pure_eq] at h
    grind [Exec.bind_eq_ok]

/-- `scan_keep_run_simd_shuf` -/
def scanKeepRunSimdShuf (bytes : List UInt8) (i : Nat) (table : KeepTable) (loShuf : LoShuf) :
    Exec Nat :=
  (scanShuf bytes table loShuf).run i

/-- `scan_keep_run` -/
def scanKeepRun (bytes : List UInt8) (i : Nat) (table : KeepTable) (loShuf : Option LoShuf) :
    Exec Nat :=
  if B.simdFeature then
    match loShuf with
    | some ls => scanKeepRunSimdShuf bytes i table ls
    | none => scanKeepRunSimd bytes i table
  else scanKeepRunSwar bytes i table

end Pct
