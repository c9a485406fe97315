import Pct.Source.Encoder

/-!
# The scanners search for the first break

Every scanner is a loop that skips chunks without a break and leaves with the first
one, so each follows the rule `Loop.first` from a statement about one chunk. The two
table scanners search for a byte that `isBreak` reports. The shuffle decides by its
own nibble table inside of full blocks and leaves the tail to the 8-byte scanner.
-/

namespace Pct

open Rust Simd

variable {ε : Type} {B : Build ε}

/-! ## Breaks -/

/-- A byte that is not ASCII, is `%`, or is declined by the table. -/
def breaks (table : KeepTable) (b : UInt8) : Bool :=
  b ≥ 0x80 || b = percent || table[b.toNat]?.getD 0 == 0

theorem getD_table (table : KeepTable) {n : Nat} (h : n < 128) : table[n]?.getD 0 = table[n] := by
  simp [h]

/-- The position holds a byte that `brk` reports. -/
def BreakAt (brk : UInt8 → Bool) (bytes : List UInt8) (k : Nat) : Prop :=
  ∃ b, bytes[k]? = some b ∧ brk b = true

theorem lookup_byte (table : KeepTable) {b : UInt8} (h : b < 0x80) :
    lookup table b.toNat = .ok (table[b.toNat]?.getD 0) := by
  have hb : b.toNat < 128 := UInt8.lt_iff_toNat_lt.mp h
  rw [lookup_eq_ok table hb]
  simp [hb, Vector.get]

theorem isBreak_eq (table : KeepTable) (b : UInt8) : isBreak table b = .ok (breaks table b) := by
  unfold isBreak breaks
  by_cases h : (decide (b ≥ 0x80) || decide (b = percent)) = true
  · rw [if_pos h, h, Bool.true_or]
  · have hascii : b < 0x80 := by
      rw [Bool.or_eq_true, not_or, decide_eq_true_iff] at h
      exact UInt8.not_le.mp h.1
    rw [if_neg h, Bool.eq_false_iff.mpr h, Bool.false_or, lookup_byte table hascii]
    rfl

theorem breakAt_iff {brk : UInt8 → Bool} {bytes : List UInt8} {k : Nat} {b : UInt8}
    (h : bytes[k]? = some b) : BreakAt brk bytes k ↔ brk b = true := by
  simp [BreakAt, h]

theorem exists_of_not_breakAt {brk : UInt8 → Bool} {bytes : List UInt8} {k : Nat}
    (hk : k < bytes.length) (h : ¬ BreakAt brk bytes k) :
    ∃ b, bytes[k]? = some b ∧ brk b = false := by
  have hbyte := List.getElem?_eq_getElem hk
  exact ⟨_, hbyte, by rwa [breakAt_iff hbyte, Bool.not_eq_true] at h⟩

/-! ## Chunks -/

/-- A full chunk and its lanes. -/
theorem slice_chunk {bytes : List UInt8} {i w : Nat} (h : i + w ≤ bytes.length) :
    ∃ chunk, slice bytes i (i + w) = .ok chunk ∧ chunk.length = w ∧
      ∀ k < w, chunk[k]? = bytes[i + k]? := by
  refine ⟨(bytes.drop i).take w, ?_, ?_, ?_⟩
  · simp [slice, h]
  · simp; omega
  · intro k hk
    simp [hk]

/-- The mask of a chunk says where its first break is. -/
theorem isFirst_of_mask {P : Nat → Prop} {W w n i : Nat} {p : Nat → Bool} (hw : w ≤ W)
    (hn : i + w ≤ n) (hp : ∀ k < w, p k = true ↔ P (i + k)) :
    (bitmask W w p = 0#W → ∀ k, i ≤ k → k < i + w → ¬ P k) ∧
      (bitmask W w p ≠ 0#W → (bitmask W w p).ctz.toNat < w ∧
        IsFirst P n i (i + (bitmask W w p).ctz.toNat)) := by
  constructor
  · intro hzero k hik hk hP
    have hlane := (bitmask_eq_zero hw p).mp hzero (k - i) (by omega)
    rw [← Nat.add_sub_of_le hik, ← hp _ (by omega), hlane] at hP
    cases hP
  · intro hne
    obtain ⟨hlt, hhere, hbefore⟩ := bitmask_first hw hne
    refine ⟨hlt, by omega, by omega, fun k hik hk hP => ?_, fun _ => (hp _ hlt).mp hhere⟩
    have hlane := hbefore (k - i) (by omega)
    rw [← Nat.add_sub_of_le hik, ← hp _ (by omega), hlane] at hP
    cases hP

/-! ## The 8-byte scanner -/

theorem scanTail_spec (bytes : List UInt8) (table : KeepTable) {i : Nat} (hi : i ≤ bytes.length) :
    ∃ j, (scanTail bytes table).run i = .ok j ∧
      IsFirst (BreakAt (breaks table) bytes) bytes.length i j := by
  refine Loop.first _ (fun _ => True) (fun i hi _ => ?_) hi trivial
  by_cases hlt : i < bytes.length
  · have hbyte := List.getElem?_eq_getElem hlt
    have hstep : (scanTail bytes table).step i =
        .ok (if breaks table bytes[i] then .done i else .next (i + 1)) := by
      simp only [scanTail, scanTailStep, if_pos hlt, index_eq_ok.mpr hbyte, Exec.ok_bind,
        isBreak_eq]
      split <;> rfl
    by_cases hb : breaks table bytes[i] = true
    · rw [if_pos hb] at hstep
      exact .inr ⟨i, hstep, .of_here hlt ((breakAt_iff hbyte).mpr hb)⟩
    · rw [if_neg hb] at hstep
      refine .inl ⟨i + 1, hstep, by omega, by omega, trivial, fun k hik hk => ?_⟩
      obtain rfl : k = i := by omega
      exact fun h => hb ((breakAt_iff hbyte).mp h)
  · obtain rfl : i = bytes.length := by omega
    refine .inr ⟨bytes.length, ?_, .of_end⟩
    simp [scanTail, scanTailStep]

theorem swarMask_eq (chunk : List UInt8) (table : KeepTable) : swarMask chunk table =
    .ok (bitmask 32 8 fun k => (chunk.map (breaks table))[k]?.getD false) := by
  have hbreaks : chunk.mapM (isBreak table) = .ok (chunk.map (breaks table)) := by
    induction chunk with
    | nil => rfl
    | cons b chunk ih => simp [List.mapM_cons, isBreak_eq, ih]
  rw [swarMask, hbreaks, Exec.ok_bind, Exec.pure_eq]

theorem scanKeepRunSwar_spec (bytes : List UInt8) (table : KeepTable) {i : Nat}
    (hi : i ≤ bytes.length) : ∃ j, scanKeepRunSwar bytes i table = .ok j ∧
      IsFirst (BreakAt (breaks table) bytes) bytes.length i j := by
  refine Loop.first _ (fun _ => True) (fun i hi _ => ?_) hi trivial
  by_cases hlen : i + 8 ≤ bytes.length
  · obtain ⟨chunk, hslice, -, hchunk⟩ := slice_chunk hlen
    have hlane : ∀ k < 8, (chunk.map (breaks table))[k]?.getD false = true ↔
        BreakAt (breaks table) bytes (i + k) := by
      intro k hk
      rw [List.getElem?_map, hchunk k hk, List.getElem?_eq_getElem (by omega), Option.map_some,
        Option.getD_some, breakAt_iff (List.getElem?_eq_getElem (by omega))]
    obtain ⟨hskip, hfirst⟩ := isFirst_of_mask (W := 32) (by decide) hlen hlane
    have hmask := swarMask_eq chunk table
    generalize (bitmask 32 8 fun k => (chunk.map (breaks table))[k]?.getD false) = mask
      at hskip hfirst hmask
    by_cases hzero : mask = 0#32
    · refine .inl ⟨i + 8, ?_, by omega, hlen, trivial, hskip hzero⟩
      simp [scanSwar, scanSwarStep, hlen, hslice, hmask, hzero]
    · refine .inr ⟨i + mask.ctz.toNat, ?_, (hfirst hzero).2⟩
      simp [scanSwar, scanSwarStep, hlen, hslice, hmask, hzero]
  · obtain ⟨j, hrun, hj⟩ := scanTail_spec bytes table hi
    refine .inr ⟨j, ?_, hj⟩
    simp [scanSwar, scanSwarStep, hlen, hrun]

/-! ## 16 lanes -/

/-- The mask of a lane-wise test on a full block. -/
theorem block_mask {bytes : List UInt8} {i : Nat} (h : i + 16 ≤ bytes.length) :
    ∃ block v, slice bytes i (i + 16) = .ok block ∧ fromSlice 16 block = .ok v ∧
      ∀ p : UInt8 → Bool,
        (toBitmask (v.map p) = 0#64 → ∀ k, i ≤ k → k < i + 16 → ¬ BreakAt p bytes k) ∧
        (toBitmask (v.map p) ≠ 0#64 → (toBitmask (v.map p)).ctz.toNat < 16 ∧
          IsFirst (BreakAt p bytes) bytes.length i (i + (toBitmask (v.map p)).ctz.toNat)) := by
  obtain ⟨block, hslice, hlen, hblock⟩ := slice_chunk h
  obtain ⟨v, hv, hlanes⟩ := fromSlice_eq hlen
  refine ⟨block, v, hslice, hv, fun p => isFirst_of_mask (by decide) h fun k hk => ?_⟩
  have hbyte : bytes[i + k]? = some bytes[i + k] := List.getElem?_eq_getElem (by omega)
  rw [Vector.getElem?_map, hlanes, hblock k hk, hbyte, breakAt_iff hbyte]
  rfl

/-- The lanes that the prefilter reports. -/
def prefilter (b : UInt8) : Bool := decide (0x80 ≤ b) || b == percent

/-- The scalar probe of the lanes that passed the prefilter. -/
theorem firstDeclined_spec {bytes : List UInt8} (table : KeepTable) (i a l : Nat)
    (hpass : ∀ k, a ≤ k → k < a + l → ∃ b, bytes[i + k]? = some b ∧ prefilter b = false) :
    ∃ o, firstDeclined bytes table i (List.range' a l) = .ok o ∧
      (o = none → ∀ k, i + a ≤ k → k < i + a + l → ¬ BreakAt (breaks table) bytes k) ∧
      ∀ j, o = some j → IsFirst (BreakAt (breaks table) bytes) bytes.length (i + a) j := by
  induction l generalizing a with
  | zero =>
    refine ⟨none, rfl, fun _ k hk hk' => ?_, by simp⟩
    omega
  | succ l ih =>
    obtain ⟨b, hb, hfilter⟩ := hpass a le_rfl (by omega)
    obtain ⟨hascii, hpct⟩ : b < 0x80 ∧ b ≠ percent := by simpa [prefilter] using hfilter
    have hbreak : BreakAt (breaks table) bytes (i + a) ↔ table[b.toNat]?.getD 0 = 0 := by
      simp [breakAt_iff hb, breaks, UInt8.not_le.mpr hascii, hpct]
    by_cases hzero : table[b.toNat]?.getD 0 = 0
    · refine ⟨some (i + a), ?_, by simp, ?_⟩
      · simp [List.range'_succ, firstDeclined, index_eq_ok.mpr hb, lookup_byte table hascii, hzero]
      · rintro _ ⟨⟩
        exact .of_here (List.getElem?_eq_some_iff.mp hb).1 (hbreak.mpr hzero)
    · obtain ⟨o, ho, hnone, hsome⟩ := ih (a := a + 1) fun k hk hk' => hpass k (by omega) (by omega)
      have hkept : ∀ k, i + a ≤ k → k < i + (a + 1) → ¬ BreakAt (breaks table) bytes k := by
        intro k hk hk'
        obtain rfl : k = i + a := by omega
        rwa [hbreak]
      refine ⟨o, ?_, fun h k hk hk' => ?_, fun j hj => (hsome j hj).skip (by omega) hkept⟩
      · simp [List.range'_succ, firstDeclined, index_eq_ok.mpr hb, lookup_byte table hascii, hzero,
          ho]
      · by_cases hka : k < i + (a + 1)
        · exact hkept k hk hka
        · exact hnone h k (by omega) (by omega)

theorem breakAt_of_prefilter {bytes : List UInt8} (table : KeepTable) {k : Nat}
    (h : BreakAt prefilter bytes k) : BreakAt (breaks table) bytes k := by
  obtain ⟨b, hb, hfilter⟩ := h
  refine ⟨b, hb, ?_⟩
  have : b ≥ 0x80 ∨ b = percent := by simpa [prefilter] using hfilter
  simpa [breaks] using .inl this

/-- A block that passes the prefilter is probed as a whole. -/
theorem scanSimdStep_pass {bytes block : List UInt8} (table : KeepTable) {i : Nat}
    {v : Vector UInt8 16} {o : Option Nat} (hlen : i + 16 ≤ bytes.length)
    (hslice : slice bytes i (i + 16) = .ok block) (hv : fromSlice 16 block = .ok v)
    (hmask : toBitmask (v.map prefilter) = 0#64)
    (ho : firstDeclined bytes table i (List.range' 0 16) = .ok o) :
    scanSimdStep bytes table i = .ok (o.elim (.next (i + 16)) .done) := by
  have hbits : toBitmask (v.map fun a => decide (0x80 ≤ a) || a == percent) = 0#64 := hmask
  cases o <;> simp [scanSimdStep, hlen, hslice, hv, hbits, List.range_eq_range', ho]

/-- The probe looks at the lanes in front of the one that the prefilter reports. -/
theorem scanSimdStep_break {bytes block : List UInt8} (table : KeepTable) {i : Nat}
    {v : Vector UInt8 16} {o : Option Nat} (hlen : i + 16 ≤ bytes.length)
    (hslice : slice bytes i (i + 16) = .ok block) (hv : fromSlice 16 block = .ok v)
    {mask : BitVec 64} (hmask : toBitmask (v.map prefilter) = mask) (hne : mask ≠ 0#64)
    (ho : firstDeclined bytes table i (List.range' 0 mask.ctz.toNat) = .ok o) :
    scanSimdStep bytes table i = .ok (.done (o.getD (i + mask.ctz.toNat))) := by
  have hbits : toBitmask (v.map fun a => decide (0x80 ≤ a) || a == percent) = mask := hmask
  cases o <;> simp [scanSimdStep, hlen, hslice, hv, hbits, hne, List.range_eq_range', ho]

theorem scanKeepRunSimd_spec (bytes : List UInt8) (table : KeepTable) {i : Nat}
    (hi : i ≤ bytes.length) : ∃ j, scanKeepRunSimd bytes i table = .ok j ∧
      IsFirst (BreakAt (breaks table) bytes) bytes.length i j := by
  refine Loop.first _ (fun _ => True) (fun i hi _ => ?_) hi trivial
  by_cases hlen : i + 16 ≤ bytes.length
  · obtain ⟨block, v, hslice, hv, hmask⟩ := block_mask hlen
    obtain ⟨hskip, hfirst⟩ := hmask prefilter
    by_cases hzero : toBitmask (v.map prefilter) = 0#64
    · obtain ⟨o, ho, hnone, hsome⟩ := firstDeclined_spec table i 0 (16)
        fun k _ hk => exists_of_not_breakAt (by omega) (hskip hzero _ (by omega) (by omega))
      have hstep := scanSimdStep_pass table hlen hslice hv hzero ho
      cases o with
      | none => exact .inl ⟨i + 16, hstep, by omega, hlen, trivial, hnone rfl⟩
      | some j => exact .inr ⟨j, hstep, hsome j rfl⟩
    · obtain ⟨hlt, hpos⟩ := hfirst hzero
      generalize hm : toBitmask (v.map prefilter) = mask at hzero hlt hpos
      obtain ⟨o, ho, hnone, hsome⟩ := firstDeclined_spec table i 0 (mask.ctz.toNat)
        fun k _ hk => exists_of_not_breakAt (by omega) (hpos.before _ (by omega) (by omega))
      have hstep := scanSimdStep_break table hlen hslice hv hm hzero ho
      refine .inr ⟨_, hstep, ?_⟩
      cases o with
      | none =>
        have hhere := breakAt_of_prefilter table (hpos.here (by omega))
        exact (IsFirst.of_here (by omega) hhere).skip (by omega) (hnone rfl)
      | some j => exact hsome j rfl
  · obtain ⟨j, hrun, hj⟩ := scanKeepRunSwar_spec bytes table hi
    refine .inr ⟨j, ?_, hj⟩
    simp [scanSimd, scanSimdStep, hlen, hrun]

/-! ## The nibble shuffle -/

/-- The test of one lane. -/
def shufDrops (loShuf : LoShuf) (b : UInt8) : Bool :=
  (loShuf[(b &&& 0x0F).toNat]?.getD 0 &&& hiLookup[(b >>> 4).toNat]?.getD 0) == 0

theorem dropBits_eq (v : Vector UInt8 16) (loShuf : LoShuf) :
    dropBits v loShuf = toBitmask (v.map (shufDrops loShuf)) := by
  simp only [dropBits, bitAnd_splat, shr_splat, swizzleDyn_map, bitAnd_map, simdEq_splat,
    Vector.map_map]
  rfl

/-- Where a run breaks for the shuffle that starts at `i`: its own test decides inside
of the full blocks, the table decides in the tail. -/
def ShufBreakAt (table : KeepTable) (loShuf : LoShuf) (bytes : List UInt8) (i k : Nat) : Prop :=
  if k < i + 16 * ((bytes.length - i) / 16) then BreakAt (shufDrops loShuf) bytes k
  else BreakAt (breaks table) bytes k

theorem scanKeepRunSimdShuf_spec (bytes : List UInt8) (table : KeepTable) (loShuf : LoShuf)
    {i : Nat} (hi : i ≤ bytes.length) : ∃ j, scanKeepRunSimdShuf bytes i table loShuf = .ok j ∧
      IsFirst (ShufBreakAt table loShuf bytes i) bytes.length i j := by
  -- every round starts a multiple of 16 in front of the tail
  refine Loop.first _ (fun s =>
    s + 16 * ((bytes.length - s) / 16) = i + 16 * ((bytes.length - i) / 16))
    (fun s hs htail => ?_) hi rfl
  by_cases hlen : s + 16 ≤ bytes.length
  · obtain ⟨block, v, hslice, hv, hmask⟩ := block_mask hlen
    obtain ⟨hskip, hfirst⟩ := hmask (shufDrops loShuf)
    have hbits := dropBits_eq v loShuf
    have hinside : ∀ k, k < s + 16 →
        (ShufBreakAt table loShuf bytes i k ↔ BreakAt (shufDrops loShuf) bytes k) := by
      intro k hk
      rw [ShufBreakAt, if_pos (by omega)]
    generalize toBitmask (v.map (shufDrops loShuf)) = mask at hskip hfirst hbits
    by_cases hzero : mask = 0#64
    · refine .inl ⟨s + 16, ?_, by omega, hlen, by omega, fun k hk hk' => ?_⟩
      · simp [scanShuf, scanShufStep, hlen, hslice, hv, hbits, hzero]
      · rw [hinside k hk']
        exact hskip hzero k hk hk'
    · obtain ⟨hlt, hpos⟩ := hfirst hzero
      refine .inr ⟨s + mask.ctz.toNat, ?_, hpos.le, hpos.le_end, fun k hk hk' => ?_, fun hend => ?_⟩
      · simp [scanShuf, scanShufStep, hlen, hslice, hv, hbits, hzero]
      · rw [hinside k (by omega)]
        exact hpos.before k hk hk'
      · rw [hinside _ (by omega)]
        exact hpos.here hend
  · obtain ⟨j, hrun, hj⟩ := scanKeepRunSwar_spec bytes table hs
    have htable : ∀ k, s ≤ k →
        (ShufBreakAt table loShuf bytes i k ↔ BreakAt (breaks table) bytes k) := by
      intro k hk
      rw [ShufBreakAt, if_neg (by omega)]
    refine .inr ⟨j, ?_, hj.le, hj.le_end, fun k hk hk' => ?_, fun hend => ?_⟩
    · simp [scanShuf, scanShufStep, hlen, hrun]
    · rw [htable k hk]
      exact hj.before k hk hk'
    · rw [htable j hj.le]
      exact hj.here hend

/-- The high nibble selects a bit of an entry. -/
theorem and_hiLookup (x : UInt8) : ∀ h < 8,
    (x &&& hiLookup[h]?.getD 0 == 0) = !x.toBitVec.getLsbD h := by
  revert x
  exact Utf8.byte_all (by decide)

theorem hiLookup_nonAscii {b : UInt8} (h : b ≥ 0x80) : hiLookup[(b >>> 4).toNat]?.getD 0 = 0 := by
  have all : ∀ b : UInt8, b ≥ 0x80 → hiLookup[(b >>> 4).toNat]?.getD 0 = 0 :=
    Utf8.byte_all (by decide)
  exact all b h

/-- Any shuffle drops a byte beyond ASCII. -/
theorem shufDrops_nonAscii (loShuf : LoShuf) {b : UInt8} (h : b ≥ 0x80) :
    shufDrops loShuf b = true := by
  rw [shufDrops, hiLookup_nonAscii h, UInt8.and_zero]
  rfl

/-- The nibbles of an ASCII byte address its table entry. -/
theorem nibbles_ascii {b : UInt8} (h : b < 0x80) : (b >>> 4).toNat < 8 ∧ (b &&& 0x0F).toNat < 16 ∧
    (b >>> 4).toNat <<< 4 ||| (b &&& 0x0F).toNat = b.toNat := by
  have all : ∀ b : UInt8, b < 0x80 → (b >>> 4).toNat < 8 ∧ (b &&& 0x0F).toNat < 16 ∧
      (b >>> 4).toNat <<< 4 ||| (b &&& 0x0F).toNat = b.toNat := Utf8.byte_all (by decide)
  exact all b h

/-- The shuffle of a table drops what the table declines, and every byte beyond ASCII. -/
theorem shufDrops_buildLoShuf (table : KeepTable) (b : UInt8) :
    shufDrops (buildLoShuf table) b = (decide (b ≥ 0x80) || table[b.toNat]?.getD 0 == 0) := by
  by_cases hb : b ≥ 0x80
  · rw [shufDrops_nonAscii _ hb, decide_eq_true hb, Bool.true_or]
  · obtain ⟨hhi, hlo, hbyte⟩ := nibbles_ascii (UInt8.not_le.mp hb)
    rw [shufDrops, buildLoShuf, Vector.getElem?_ofFn, dif_pos hlo, Option.getD_some,
      and_hiLookup _ _ hhi, UInt8.toBitVec_ofBitVec, getLsbD_bitmask (by decide), hbyte,
      decide_eq_true hhi, decide_eq_false hb, Bool.true_and, Bool.false_or, bne,
      Bool.not_not]

theorem shufDrops_eq_breaks {table : KeepTable} (h : table[percent.toNat]?.getD 0 = 0) (b : UInt8) :
    shufDrops (buildLoShuf table) b = breaks table b := by
  rw [shufDrops_buildLoShuf, breaks]
  by_cases hb : b = percent
  · subst hb
    simp [h]
  · simp [hb]

/-! ## The dispatch -/

/-- Where a run that `scan_keep_run` follows from `i` breaks, by configuration. -/
def ScanBreakAt (simdFeature : Bool) (table : KeepTable) (loShuf : Option LoShuf)
    (bytes : List UInt8) (i k : Nat) : Prop :=
  match simdFeature, loShuf with
  | true, some ls => ShufBreakAt table ls bytes i k
  | _, _ => BreakAt (breaks table) bytes k

theorem scanKeepRun_spec (B : Build ε) (bytes : List UInt8) (table : KeepTable)
    (loShuf : Option LoShuf) {i : Nat} (hi : i ≤ bytes.length) :
    ∃ j, scanKeepRun B bytes i table loShuf = .ok j ∧
      IsFirst (ScanBreakAt B.simdFeature table loShuf bytes i) bytes.length i j := by
  unfold scanKeepRun ScanBreakAt
  cases B.simdFeature with
  | false => exact scanKeepRunSwar_spec bytes table hi
  | true =>
    cases loShuf with
    | none => exact scanKeepRunSimd_spec bytes table hi
    | some ls => exact scanKeepRunSimdShuf_spec bytes table ls hi

/-- With the shuffle of a table that declines `%`, or none, all scanners search for the
breaks of the table. -/
theorem scanBreakAt_eq {table : KeepTable} {loShuf : Option LoShuf}
    (hpct : table[percent.toNat]?.getD 0 = 0)
    (hshuf : loShuf = none ∨ loShuf = some (buildLoShuf table)) (simdFeature : Bool)
    (bytes : List UInt8) (i : Nat) :
    ScanBreakAt simdFeature table loShuf bytes i = BreakAt (breaks table) bytes := by
  funext k
  unfold ScanBreakAt
  rcases hshuf with rfl | rfl <;> cases simdFeature <;>
    simp only [ShufBreakAt, BreakAt, shufDrops_eq_breaks hpct, ite_self]

/-! ## One break for all scanners -/

/-- The position holds a byte beyond ASCII, a `%`, or a byte with the entry zero. -/
def TableBreakAt (table : KeepTable) (bytes : List UInt8) (k : Nat) : Prop :=
  ∃ b, bytes[k]? = some b ∧ (b ≥ 0x80 ∨ b = percent ∨ table[b.toNat]? = some 0)

theorem breaks_iff (table : KeepTable) (b : UInt8) :
    breaks table b = true ↔ b ≥ 0x80 ∨ b = percent ∨ table[b.toNat]? = some 0 := by
  unfold breaks
  by_cases hb : b ≥ 0x80
  · simp [hb]
  · have hlt : b.toNat < 128 := UInt8.lt_iff_toNat_lt.mp (UInt8.not_le.mp hb)
    simp [hb, hlt]

theorem tableBreakAt_eq (table : KeepTable) (bytes : List UInt8) :
    TableBreakAt table bytes = BreakAt (breaks table) bytes := by
  funext k
  simp only [TableBreakAt, BreakAt, breaks_iff]

/-- From any start inside of the slice every scanner returns the first break of the table,
or the end, the shuffle for a table that declines `%`. None of them faults, the shuffle
with any other bits included, so no byte beyond ASCII has indexed the table. -/
theorem scanners_agree (bytes : List UInt8) (table : KeepTable) {i : Nat}
    (hi : i ≤ bytes.length) :
    ∃ j, IsFirst (TableBreakAt table bytes) bytes.length i j ∧
      scanKeepRunSwar bytes i table = .ok j ∧ scanKeepRunSimd bytes i table = .ok j ∧
      (table[percent.toNat] = 0 →
        scanKeepRunSimdShuf bytes i table (buildLoShuf table) = .ok j) ∧
      ∀ loShuf, ∃ j', scanKeepRunSimdShuf bytes i table loShuf = .ok j' ∧
        i ≤ j' ∧ j' ≤ bytes.length := by
  rw [tableBreakAt_eq]
  obtain ⟨j, hswar, hj⟩ := scanKeepRunSwar_spec bytes table hi
  refine ⟨j, hj, hswar, ?_, fun hpct => ?_, fun loShuf => ?_⟩
  · obtain ⟨j', hsimd, hj'⟩ := scanKeepRunSimd_spec bytes table hi
    rw [hsimd, hj'.unique hj]
  · have hdecline : table[percent.toNat]?.getD 0 = 0 := (getD_table table (by decide)).trans hpct
    obtain ⟨j', hshuf, hj'⟩ := scanKeepRunSimdShuf_spec bytes table (buildLoShuf table) hi
    have hbreak := scanBreakAt_eq hdecline (.inr rfl) true bytes i
    change ShufBreakAt table (buildLoShuf table) bytes i = BreakAt (breaks table) bytes at hbreak
    rw [hbreak] at hj'
    rw [hshuf, hj'.unique hj]
  · obtain ⟨j', hshuf, hj'⟩ := scanKeepRunSimdShuf_spec bytes table loShuf hi
    exact ⟨j', hshuf, hj'.le, hj'.le_end⟩

/-- A path segment with a space in the second block of a scan that starts at index 3. -/
def segmentWithSpace : List UInt8 :=
  Utf8.encode "index.html;version=1.2 or something else".toList

theorem scanners_agree_segment :
    IsFirst (TableBreakAt UriReserved.path.keepTable segmentWithSpace)
        segmentWithSpace.length 3 22 ∧
      scanKeepRunSwar segmentWithSpace 3 UriReserved.path.keepTable = .ok 22 ∧
      scanKeepRunSimd segmentWithSpace 3 UriReserved.path.keepTable = .ok 22 ∧
      scanKeepRunSimdShuf segmentWithSpace 3 UriReserved.path.keepTable
        (buildLoShuf UriReserved.path.keepTable) = .ok 22 := by
  obtain ⟨j, hj, hswar, hsimd, hshuf, -⟩ :=
    scanners_agree segmentWithSpace UriReserved.path.keepTable (i := 3) (by decide +kernel)
  have hspace : scanKeepRunSwar segmentWithSpace 3 UriReserved.path.keepTable = .ok 22 := by
    decide +kernel
  obtain rfl : 22 = j := Except.ok.inj (hspace.symm.trans hswar)
  exact ⟨hj, hswar, hsimd, hshuf (by decide +kernel)⟩

end Pct
