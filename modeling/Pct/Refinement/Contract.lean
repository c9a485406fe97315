import Pct.Refinement.Reserved
import Pct.Source.Interface

/-!
# The contract of an encoder

An encoder describes its decisions on ASCII twice, by `encode` and by its keep table, and
with `simd` a third time by its shuffle. `Agrees` states what a build relies on: the table
is right for every byte but `%`, whose entry no scanner reads, and the shuffle, where the
build uses it, drops exactly what is to be encoded. This is the exact contract: the two
ways to encode agree on every source if and only if the encoder meets it.

Enough it is because the scanners then break where those of a table that is computed from
`encode` do. That nothing less is enough is shown by texts of one character, for the table,
and by blocks of one character, for the shuffle.
-/

namespace Pct

open Rust

variable {ε : Type} {B : Build ε}

/-- What a build relies on when it encodes bytes. -/
def Encoder.Agrees (simdFeature : Bool) (encoder : Encoder) : Prop :=
  ∀ table, encoder.asciiKeepTable = some table →
    (∀ (n : Nat) (_ : n < 128), n ≠ percent.toNat →
      (table[n] ≠ 0 ↔ encoder.encode (Char.ofNat n) = false)) ∧
    (simdFeature = true → ∀ ls, encoder.asciiKeepLoShuf = some ls → ∀ b < 0x80,
      (shufDrops ls b = true ↔ b = percent ∨ encoder.encode (Char.ofNat b.toNat) = true))

/-! ## The contract is enough -/

theorem toNat_ofNat {n : Nat} (h : n < 128) : (Char.ofNat n).toNat = n := by
  rw [Char.ofNat, dif_pos (Or.inl (by omega))]
  rfl

theorem ofNat_eq_percent {n : Nat} (h : n < 128) : Char.ofNat n = '%' ↔ n = percent.toNat := by
  rw [← Char.toNat_inj, toNat_ofNat h]
  rfl

/-- A table with the shuffle that the crate derives from it meets the contract. -/
theorem Encoder.Consistent.agrees {encoder : Encoder} (h : encoder.Consistent)
    (simdFeature : Bool) : encoder.Agrees simdFeature := by
  intro table htable
  obtain ⟨hentries, hshuf⟩ := h table htable
  constructor
  · intro n hn hne
    rw [hentries n hn, and_iff_right hne]
  · intro _ ls hls b hb
    have hn : b.toNat < 128 := UInt8.lt_iff_toNat_lt.mp hb
    have hbreak := h.breaks_eq htable ((toNat_ofNat hn).trans_lt hn)
    rw [toNat_ofNat hn, UInt8.ofNat_toNat] at hbreak
    obtain rfl := Option.some.inj (hls.symm.trans (hshuf.resolve_left (by simp [hls])))
    rw [shufDrops_eq_breaks (h.percent_eq htable), hbreak, Bool.or_eq_true, decide_eq_true_iff,
      ofNat_eq_percent hn, UInt8.toNat_inj, or_comm]

/-- An override of `encode_ascii` that reads a consistent table answers as the default does;
beyond ASCII, where the default has no answer, it panics. -/
theorem Encoder.Consistent.encodeAsciiOf_eq {encoder : Encoder} (h : encoder.Consistent)
    {table : KeepTable} (htable : encoder.asciiKeepTable = some table)
    (hpct : encoder.encode '%' = true) (b : UInt8) :
    encodeAsciiOf table b =
      if b < 0x80 then .ok (encoder.encodeAscii b) else .error .indexOutOfBounds := by
  unfold encodeAsciiOf encodeAscii
  split
  · rename_i hb
    have hn : b.toNat < 128 := UInt8.lt_iff_toNat_lt.mp hb
    have hbreak := h.breaks_eq htable ((toNat_ofNat hn).trans_lt hn)
    rw [toNat_ofNat hn, UInt8.ofNat_toNat, Pct.breaks, decide_eq_false (UInt8.not_le.mpr hb),
      Bool.false_or] at hbreak
    rw [lookup_byte table hb, Exec.ok_bind, Exec.pure_eq]
    by_cases hc : Char.ofNat b.toNat = '%'
    · obtain rfl := UInt8.toNat_inj.mp ((ofNat_eq_percent hn).mp hc)
      rw [h.percent_eq htable, hc, hpct]
      rfl
    · have hb' : b ≠ percent := fun hb => hc (by rw [hb]; rfl)
      rw [decide_eq_false hc, decide_eq_false hb', Bool.false_or, Bool.or_false] at hbreak
      rw [hbreak]
  · rename_i hb
    have hn : ¬ b.toNat < 128 := fun hn => hb (UInt8.lt_iff_toNat_lt.mpr hn)
    rw [lookup, dif_neg hn, Exec.error_bind]

theorem UriReserved.encodeAscii_eq (v : UriReserved) (b : UInt8) :
    v.encodeAscii b =
      if b < 0x80 then .ok (v.encoder.encodeAscii b) else .error .indexOutOfBounds :=
  v.consistent.encodeAsciiOf_eq rfl (by cases v <;> decide) b

theorem IriReserved.encodeAscii_eq (v : IriReserved) (b : UInt8) :
    v.encodeAscii b =
      if b < 0x80 then .ok (v.encoder.encodeAscii b) else .error .indexOutOfBounds :=
  v.consistent.encodeAsciiOf_eq rfl (by cases v <;> decide) b

/-- What breaks a run when `encode` decides. -/
def Encoder.breaks (encoder : Encoder) (b : UInt8) : Bool :=
  b ≥ 0x80 || b = percent || encoder.encode (Char.ofNat b.toNat)

/-- Scanners that break at the same bytes break at the same positions. -/
theorem scanBreakAt_eq_breakAt {simdFeature : Bool} {table : KeepTable} {loShuf : Option LoShuf}
    {brk : UInt8 → Bool} (htable : ∀ b, Pct.breaks table b = brk b)
    (hshuf : simdFeature = true → ∀ ls, loShuf = some ls → ∀ b, shufDrops ls b = brk b)
    (bytes : List UInt8) (i : Nat) :
    ScanBreakAt simdFeature table loShuf bytes i = BreakAt brk bytes := by
  have hbreaks : Pct.breaks table = brk := funext htable
  funext k
  unfold ScanBreakAt
  split
  · rename_i ls
    have hdrops : shufDrops ls = brk := funext (hshuf rfl ls rfl)
    rw [ShufBreakAt, hbreaks, hdrops, ite_self]
  · rw [hbreaks]

theorem Encoder.Agrees.scanBreakAt_eq {simdFeature : Bool} {encoder : Encoder}
    (h : encoder.Agrees simdFeature) {table : KeepTable}
    (htable : encoder.asciiKeepTable = some table) (bytes : List UInt8) (i : Nat) :
    ScanBreakAt simdFeature table encoder.asciiKeepLoShuf bytes i =
      BreakAt encoder.breaks bytes := by
  obtain ⟨hentries, hshuf⟩ := h table htable
  apply scanBreakAt_eq_breakAt
  · intro b
    rw [Pct.breaks, Encoder.breaks]
    by_cases hb : b ≥ 0x80 ∨ b = percent
    · have hor : (decide (b ≥ 0x80) || decide (b = percent)) = true := by simpa using hb
      rw [hor, Bool.true_or, Bool.true_or]
    · rw [not_or, UInt8.not_le] at hb
      have hlt : b.toNat < 128 := UInt8.lt_iff_toNat_lt.mp hb.1
      have hentry := hentries b.toNat hlt (mt UInt8.toNat_inj.mp hb.2)
      rw [getD_table table hlt]
      cases he : encoder.encode (Char.ofNat b.toNat) <;> simp_all
  · intro hsimd ls hls b
    rw [Encoder.breaks]
    by_cases hb : b ≥ 0x80
    · rw [shufDrops_nonAscii ls hb, decide_eq_true hb, Bool.true_or, Bool.true_or]
    · rw [Bool.eq_iff_iff, hshuf hsimd ls hls b (UInt8.not_le.mp hb)]
      simp [hb]

/-- The table that `encode` calls for. -/
def Encoder.keepTable (encoder : Encoder) : KeepTable :=
  Vector.ofFn fun n => if n.val = percent.toNat ∨ encoder.encode (Char.ofNat n.val) = true then 0
    else 1

theorem Encoder.getElem_keepTable (encoder : Encoder) {n : Nat} (h : n < 128) :
    encoder.keepTable[n] =
      if n = percent.toNat ∨ encoder.encode (Char.ofNat n) = true then 0 else 1 := by
  rw [keepTable, Vector.getElem_ofFn]

/-- The same encoder with this table. -/
def Encoder.tabulated (encoder : Encoder) : Encoder where
  encode := encoder.encode
  asciiKeepTable := some encoder.keepTable
  asciiKeepLoShuf := none

theorem Encoder.tabulated_consistent (encoder : Encoder) : encoder.tabulated.Consistent := by
  intro table htable
  obtain rfl : encoder.keepTable = table := Option.some.inj htable
  refine ⟨?_, .inl rfl⟩
  intro n hn
  change _ ↔ n ≠ percent.toNat ∧ encoder.encode (Char.ofNat n) = false
  rw [encoder.getElem_keepTable hn, ← Bool.not_eq_true, ← not_or]
  split
  · exact iff_of_false (fun h => h rfl) (not_not.mpr ‹_›)
  · exact iff_of_true (by decide) ‹_›

/-- Scanners that break at the same positions return the same position. -/
theorem scanKeepRun_congr {bytes : List UInt8} {i : Nat} (hi : i ≤ bytes.length)
    {table table' : KeepTable} {loShuf loShuf' : Option LoShuf}
    (h : ScanBreakAt B.simdFeature table loShuf bytes i =
      ScanBreakAt B.simdFeature table' loShuf' bytes i) :
    scanKeepRun B bytes i table loShuf = scanKeepRun B bytes i table' loShuf' := by
  obtain ⟨j, hscan, hj⟩ := scanKeepRun_spec B bytes table loShuf hi
  obtain ⟨j', hscan', hj'⟩ := scanKeepRun_spec B bytes table' loShuf' hi
  rw [h] at hj
  rw [hscan, hscan', hj.unique hj']

/-- An encoder that meets the contract goes through the rounds of its tabulated form. -/
theorem Encoder.Agrees.encodeBytesLoop_eq {encoder : Encoder}
    (h : encoder.Agrees B.simdFeature) {table : KeepTable}
    (htable : encoder.asciiKeepTable = some table) (bytes : List UInt8) :
    encodeBytesLoop B encoder table encoder.asciiKeepLoShuf bytes =
      encodeBytesLoop B encoder.tabulated encoder.keepTable none bytes := by
  have hbreak (i : Nat) := (h.scanBreakAt_eq htable bytes i).trans
    ((encoder.tabulated_consistent.agrees B.simdFeature).scanBreakAt_eq rfl bytes i).symm
  have hstep : encodeBytesStep B encoder table encoder.asciiKeepLoShuf bytes =
      encodeBytesStep B encoder.tabulated encoder.keepTable none bytes := by
    funext ⟨i, out⟩
    simp only [encodeBytesStep]
    split
    · rw [scanKeepRun_congr (Nat.le_of_lt ‹_›) (hbreak i)]
      rfl
    · rfl
  simp only [encodeBytesLoop, hstep]

theorem Encoder.Agrees.encodeBytes_eq {encoder : Encoder} (h : encoder.Agrees B.simdFeature)
    (src : String) :
    PctString.encodeBytes B src encoder = .ok (PctString.encode src.toList encoder) := by
  have htabulated := encoder.tabulated_consistent.encodeBytes_eq B src
  cases htable : encoder.asciiKeepTable with
  | none =>
    rw [PctString.encodeBytes, htable]
    rfl
  | some table =>
    rw [PctString.encodeBytes, htable]
    dsimp only
    rw [h.encodeBytesLoop_eq htable]
    exact htabulated

/-! ## Nothing less is enough -/

/-- Without a break the loop copies a text. -/
theorem encodeBytesLoop_copies {encoder : Encoder} {table : KeepTable} {loShuf : Option LoShuf}
    {src : List Char} (hsrc : src ≠ [])
    (h : ∀ k < (Utf8.encode src).length,
      ¬ ScanBreakAt B.simdFeature table loShuf (Utf8.encode src) 0 k) :
    (encodeBytesLoop B encoder table loShuf (Utf8.encode src)).run (0, []) =
      .ok (Utf8.encode src) := by
  obtain ⟨run, rest, rfl, -, hends, hdone, -⟩ :=
    encodeBytesStep_spec B encoder table loShuf [] hsrc []
  cases rest with
  | nil =>
    have hstep := hdone rfl
    rw [List.append_nil] at hstep ⊢
    exact Loop.run_done _ hstep
  | cons c tail =>
    obtain ⟨b, t, hc, -⟩ := Utf8.encodeChar_shape c
    have hlt : (Utf8.encode run).length < (Utf8.encode (run ++ c :: tail)).length := by simp [hc]
    exact absurd (hends.here hlt) (h _ hlt)

/-- A text that breaks at its first character, an ASCII one, starts with a triplet. -/
theorem encodeBytesLoop_breaks {encoder : Encoder} {table : KeepTable} {loShuf : Option LoShuf}
    {c : Char} {tail : List Char} (hc : c.toNat < 0x80)
    (h : ScanBreakAt B.simdFeature table loShuf (Utf8.encode (c :: tail)) 0 0) :
    ∃ out, (encodeBytesLoop B encoder table loShuf (Utf8.encode (c :: tail))).run (0, []) =
      .ok (percent :: out) := by
  have hrun {run rest : List Char} (hsrc : c :: tail = [] ++ (run ++ rest))
      (hends : RunEnds B table loShuf [] run rest) : run = [] := by
    by_contra hne
    have hpos : 0 < (Utf8.encode run).length :=
      List.length_pos_iff.mpr (mt Utf8.encode_eq_nil.mp hne)
    rw [List.nil_append] at hsrc
    refine hends.before 0 (Nat.zero_le _) hpos ?_
    rwa [hsrc] at h
  obtain ⟨_, hout, out, rfl⟩ := encodeBytesLoop_total B encoder table loShuf (c :: tail)
    (fun done out => done = [] ∧ out = [] ∨ ∃ out', out = percent :: out')
    (fun out => ∃ out', out = percent :: out') (.inl ⟨rfl, rfl⟩)
    (by
      rintro done run d rest _ hsrc - hends (⟨rfl, rfl⟩ | ⟨out', rfl⟩)
      · obtain rfl := hrun hsrc hends
        obtain ⟨rfl, rfl⟩ := List.cons.inj hsrc
        exact .inr ⟨_, by simp [breakTokens, hc, Utf8.encodeChar_ascii hc, tripletOf]; rfl⟩
      · exact .inr ⟨_, rfl⟩)
    (by
      rintro done run _ hsrc - hends (⟨rfl, rfl⟩ | ⟨out', rfl⟩)
      · obtain rfl := hrun hsrc hends
        cases hsrc
      · exact ⟨_, rfl⟩)
  exact ⟨out, hout⟩

/-- The bytes of a repeated ASCII character. -/
theorem encode_replicate {c : Char} (hc : c.toNat < 0x80) (m : Nat) :
    Utf8.encode (List.replicate m c) = List.replicate m (UInt8.ofNat c.toNat) := by
  rw [Utf8.encode, List.flatMap_replicate, Utf8.encodeChar_ascii hc]
  simp

/-- Encoding writes three bytes for a character that it encodes, and the character itself
for an ASCII character that it keeps. -/
theorem spell_encodeTokens_replicate {encoder : Encoder} {c : Char} (hc : c.toNat < 0x80)
    (m : Nat) : spell (encodeTokens encoder (List.replicate m c)) =
      if encoder.encode c || decide (c = '%') then
        spell (List.replicate m (tripletOf (UInt8.ofNat c.toNat)))
      else List.replicate m (UInt8.ofNat c.toNat) := by
  split
  · rename_i h
    simp [encodeTokens, List.flatMap_replicate, charTokens, h, Utf8.encodeChar_ascii hc]
  · rename_i h
    rw [Bool.not_eq_true] at h
    rw [spell_encodeTokens_run, encode_replicate hc]
    intro d hd
    rwa [List.eq_of_mem_replicate hd]

/-- Where the output for a repeated ASCII character is what `encode` writes, with the same
encoder or another one, the scanner breaks at it exactly when that encoder encodes it. -/
theorem break_iff_of_run_eq {encoder encoder' : Encoder} {table : KeepTable}
    {loShuf : Option LoShuf} {c : Char} (hc : c.toNat < 0x80) {m : Nat} (hm : 0 < m) {P : Prop}
    (hP : ∀ k < m, (ScanBreakAt B.simdFeature table loShuf
      (Utf8.encode (List.replicate m c)) 0 k ↔ P))
    (hrun : (encodeBytesLoop B encoder table loShuf
      (Utf8.encode (List.replicate m c))).run (0, []) =
      .ok (spell (encodeTokens encoder' (List.replicate m c)))) :
    P ↔ (encoder'.encode c || decide (c = '%')) = true := by
  rw [spell_encodeTokens_replicate hc] at hrun
  by_cases hp : P
  · -- the output starts with `%`
    refine iff_of_true hp ?_
    by_contra hkept
    obtain ⟨k, rfl⟩ := Nat.exists_eq_succ_of_ne_zero (Nat.pos_iff_ne_zero.mp hm)
    have hfirst := (hP 0 hm).mpr hp
    rw [List.replicate_succ] at hfirst hrun
    obtain ⟨out, hout⟩ := encodeBytesLoop_breaks hc hfirst
    rw [hrun, if_neg hkept, List.replicate_succ, Except.ok.injEq, List.cons.injEq] at hout
    have hmem : percent ∈ String.utf8EncodeChar c := by simp [Utf8.encodeChar_ascii hc, hout.1]
    refine percent_notMem_encodeChar (fun h => hkept ?_) hmem
    rw [decide_eq_true h, Bool.or_true]
  · -- the output is as long as the source
    refine iff_of_false hp fun hencoded => ?_
    have hne : List.replicate m c ≠ [] := by simpa using Nat.pos_iff_ne_zero.mp hm
    rw [encodeBytesLoop_copies hne fun k hk => ?_, if_pos hencoded, encode_replicate hc] at hrun
    · have hlen := congrArg List.length (Except.ok.inj hrun)
      simp [spell, List.flatMap_replicate, tripletOf] at hlen
      omega
    · rw [encode_replicate hc, List.length_replicate] at hk
      exact mt (hP k hk).mp hp

/-- Sixteen characters are a full block, so the shuffle alone decides there. -/
theorem shufDrops_of_run_eq {encoder encoder' : Encoder} {table : KeepTable} {ls : LoShuf}
    {b : UInt8} (hb : b < 0x80) (hsimd : B.simdFeature = true)
    (hrun : (encodeBytesLoop B encoder table (some ls)
      (Utf8.encode (List.replicate 16 (Char.ofNat b.toNat)))).run (0, []) =
      .ok (spell (encodeTokens encoder' (List.replicate 16 (Char.ofNat b.toNat))))) :
    shufDrops ls b = true ↔
      (encoder'.encode (Char.ofNat b.toNat) || decide (Char.ofNat b.toNat = '%')) = true := by
  have hn : b.toNat < 128 := UInt8.lt_iff_toNat_lt.mp hb
  have hc := (toNat_ofNat hn).trans_lt hn
  have hbytes := encode_replicate hc 16
  rw [toNat_ofNat hn, UInt8.ofNat_toNat] at hbytes
  refine break_iff_of_run_eq hc (by decide) ?_ hrun
  intro k hk
  rw [hsimd]
  change ShufBreakAt _ _ _ _ _ ↔ _
  rw [hbytes, ShufBreakAt, if_pos (by simpa using hk)]
  exact breakAt_iff (List.getElem?_replicate_of_lt hk)

/-- A text shorter than a block is scanned by the table. -/
theorem scanBreakAt_of_short {simdFeature : Bool} {table : KeepTable} {loShuf : Option LoShuf}
    {bytes : List UInt8} (h : bytes.length < 16) {i k : Nat} (hik : i ≤ k) :
    ScanBreakAt simdFeature table loShuf bytes i k ↔ BreakAt (Pct.breaks table) bytes k := by
  unfold ScanBreakAt
  split
  · rw [ShufBreakAt, if_neg (by omega)]
  · rfl

/-- One character is too short for a shuffle, so the table alone decides there. -/
theorem breaks_of_run_eq {encoder encoder' : Encoder} {table : KeepTable}
    {loShuf : Option LoShuf} {n : Nat} (hn : n < 128)
    (hrun : (encodeBytesLoop B encoder table loShuf
      (Utf8.encode (List.replicate 1 (Char.ofNat n)))).run (0, []) =
      .ok (spell (encodeTokens encoder' (List.replicate 1 (Char.ofNat n))))) :
    Pct.breaks table (UInt8.ofNat n) = true ↔
      (encoder'.encode (Char.ofNat n) || decide (Char.ofNat n = '%')) = true := by
  have hc := (toNat_ofNat hn).trans_lt hn
  have hbyte := encode_replicate hc 1
  rw [toNat_ofNat hn] at hbyte
  refine break_iff_of_run_eq hc Nat.one_pos ?_ hrun
  intro k hk
  obtain rfl := Nat.lt_one_iff.mp hk
  rw [hbyte, scanBreakAt_of_short (by simp) (Nat.le_refl 0)]
  exact breakAt_iff rfl

/-- What a table says of an ASCII byte other than `%`. -/
theorem breaks_ofNat {table : KeepTable} {n : Nat} (hn : n < 128) (hne : n ≠ percent.toNat) :
    Pct.breaks table (UInt8.ofNat n) = true ↔ table[n] = 0 := by
  have hnat : (UInt8.ofNat n).toNat = n := by
    rw [UInt8.toNat_ofNat']
    omega
  have hascii : ¬ UInt8.ofNat n ≥ 0x80 := by
    rw [ge_iff_le, UInt8.le_iff_toNat_le, hnat]
    exact Nat.not_le.mpr hn
  have hpct : UInt8.ofNat n ≠ percent := by
    intro h
    exact hne (by rw [← hnat, h])
  rw [breaks_iff, hnat, or_iff_right hascii, or_iff_right hpct, Vector.getElem?_eq_getElem hn,
    Option.some.injEq]

/-- With a table, the output is what the loop returns. -/
theorem encodeBytes_eq_ok {encoder : Encoder} {table : KeepTable}
    (htable : encoder.asciiKeepTable = some table) (src : List Char) {out : List UInt8} :
    PctString.encodeBytes B (String.ofList src) encoder = .ok ⟨out⟩ ↔
      (encodeBytesLoop B encoder table encoder.asciiKeepLoShuf (Utf8.encode src)).run (0, []) =
        .ok out := by
  simp only [PctString.encodeBytes, htable, String.toList_ofList, Exec.bind_eq_ok, Exec.pure_eq,
    Except.ok.injEq, PctString.mk.injEq, exists_eq_right]

/-- The two ways to encode agree on every source if and only if the encoder meets its
contract in this build. -/
theorem encodeBytes_eq_encode_iff (B : Build ε) (encoder : Encoder) :
    (∀ src : String,
      PctString.encodeBytes B src encoder = .ok (PctString.encode src.toList encoder)) ↔
      encoder.Agrees B.simdFeature := by
  refine ⟨?_, fun h => h.encodeBytes_eq⟩
  intro h table htable
  have hrun (src : List Char) : (encodeBytesLoop B encoder table encoder.asciiKeepLoShuf
      (Utf8.encode src)).run (0, []) = .ok (spell (encodeTokens encoder src)) := by
    have hsrc := h (String.ofList src)
    rw [String.toList_ofList, PctString.encode_eq] at hsrc
    exact (encodeBytes_eq_ok htable src).mp hsrc
  constructor
  · -- one character is too short for a shuffle
    intro n hn hne
    have hbreak := breaks_of_run_eq hn (hrun _)
    rw [breaks_ofNat hn hne, decide_eq_false (mt (ofNat_eq_percent hn).mp hne), Bool.or_false]
      at hbreak
    rw [ne_eq, hbreak, Bool.not_eq_true]
  · -- sixteen characters are a full block
    intro hsimd ls hls b hb
    have hblock := hrun (List.replicate 16 (Char.ofNat b.toNat))
    rw [hls] at hblock
    rw [shufDrops_of_run_eq hb hsimd hblock, Bool.or_eq_true, decide_eq_true_iff, or_comm,
      ofNat_eq_percent (UInt8.lt_iff_toNat_lt.mp hb), UInt8.toNat_inj]

end Pct
