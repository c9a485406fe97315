import Pct.Refinement.EncodingBytes

/-!
# Encoding bytes with an arbitrary encoder

`encode_bytes` copies a byte or writes its triplet (`Write`). The output is a valid
value that decodes to the source exactly when no `%` was copied (`decodes_iff`): a
copied `%` adds one `%` without the two digits of a triplet. Only the nibble shuffle
copies a `%`, inside of a full block and when the encoder's shuffle keeps it; where
that happens is a condition on the source (`LeaksPercent`).
-/

namespace Pct

open Rust

variable {ε : Type} {B : Build ε}

/-! ## Writes -/

/-- What becomes of a byte of the source. -/
inductive Write where
  | copy (b : UInt8)
  | encode (b : UInt8)
  deriving DecidableEq, Repr

namespace Write

def byte : Write → UInt8
  | copy b => b
  | encode b => b

def out : Write → List UInt8
  | copy b => [b]
  | encode b => (tripletOf b).spelling

def isEncode : Write → Bool
  | copy _ => false
  | encode _ => true

/-- The token of a write that does not copy `%`. -/
def token : Write → Token
  | copy b => keptToken b
  | encode b => tripletOf b

theorem octet_token (w : Write) : w.token.octet = w.byte := by
  cases w <;> simp [token, byte]

theorem spelling_token {w : Write} (h : w ≠ copy percent) : w.token.spelling = w.out := by
  cases w with
  | copy b => exact spelling_keptToken fun hb => h (hb ▸ rfl)
  | encode b => rfl

end Write

/-- The bytes that a sequence of writes consumes. -/
def consumed (ws : List Write) : List UInt8 := ws.map Write.byte

/-- The bytes that a sequence of writes puts out. -/
def written (ws : List Write) : List UInt8 := ws.flatMap Write.out

@[simp] theorem consumed_append (vs ws : List Write) :
    consumed (vs ++ ws) = consumed vs ++ consumed ws := List.map_append

@[simp] theorem written_append (vs ws : List Write) :
    written (vs ++ ws) = written vs ++ written ws := List.flatMap_append

@[simp] theorem consumed_map_copy (bs : List UInt8) : consumed (bs.map .copy) = bs := by
  simp [consumed, Function.comp_def, Write.byte]

@[simp] theorem written_map_copy (bs : List UInt8) : written (bs.map .copy) = bs := by
  simp [written, List.flatMap_map, Write.out]

@[simp] theorem consumed_map_encode (bs : List UInt8) : consumed (bs.map .encode) = bs := by
  simp [consumed, Function.comp_def, Write.byte]

@[simp] theorem written_map_encode (bs : List UInt8) :
    written (bs.map .encode) = spell (bs.map tripletOf) := by
  simp [written, spell, List.flatMap_map, Write.out]

/-- Without a copied `%` the output is a text whose octets are the consumed bytes. -/
theorem written_eq_spell {ws : List Write} (h : .copy percent ∉ ws) :
    written ws = spell (ws.map Write.token) ∧ octets (ws.map Write.token) = consumed ws := by
  constructor
  · rw [written, spell, List.flatMap_map]
    exact List.flatMap_congr fun w hw => (Write.spelling_token fun hc => h (hc ▸ hw)).symm
  · simp [octets, consumed, Function.comp_def, Write.octet_token]

/-! ## Counting -/

theorem length_spell (ts : List Token) :
    (spell ts).length = ts.length + 2 * ts.countP Token.isTriplet := by
  induction ts with
  | nil => rfl
  | cons t ts ih => cases t <;> simp [ih, List.countP_cons] <;> omega

/-- Every `%` of a text starts a triplet. -/
theorem count_percent_spell (ts : List Token) :
    (spell ts).count percent = ts.countP Token.isTriplet := by
  induction ts with
  | nil => rfl
  | cons t ts ih =>
    cases t with
    | literal b => simp [ih, b.ne_percent]
    | triplet hi lo =>
      simp [ih, hi.byte_ne_percent, lo.byte_ne_percent, List.countP_cons]

theorem count_percent_tripletOf (b : UInt8) : (tripletOf b).spelling.count percent = 1 := by
  simpa [tripletOf] using count_percent_spell [tripletOf b]

theorem length_written (ws : List Write) :
    (written ws).length = ws.length + 2 * ws.countP Write.isEncode := by
  induction ws with
  | nil => rfl
  | cons w ws ih =>
    have hlen : (written (w :: ws)).length = w.out.length + (written ws).length := by
      simp [written]
    rw [hlen, ih]
    cases w <;> simp [Write.out, Write.isEncode, tripletOf, List.countP_cons] <;> omega

theorem count_percent_written (ws : List Write) :
    (written ws).count percent = ws.countP Write.isEncode + ws.count (.copy percent) := by
  induction ws with
  | nil => rfl
  | cons w ws ih =>
    have hcount : (written (w :: ws)).count percent =
        w.out.count percent + (written ws).count percent := by
      simp [written]
    rw [hcount, ih]
    cases w with
    | copy b =>
      by_cases hb : b = percent
      · simp [Write.out, Write.isEncode, hb]; omega
      · simp [Write.out, Write.isEncode, hb]
    | encode b =>
      rw [Write.out, count_percent_tripletOf]
      simp [Write.isEncode, List.countP_cons]
      omega

/-- An output with a copied `%` is no spelling of as many octets as were consumed. -/
theorem not_written_eq_spell {ws : List Write} {ts : List Token} (h : .copy percent ∈ ws)
    (hoctets : octets ts = consumed ws) : written ws ≠ spell ts := by
  intro heq
  have hlen : ts.length = ws.length := by
    simpa [octets, consumed] using congrArg List.length hoctets
  have hlength := congrArg List.length heq
  have hcount := congrArg (List.count percent) heq
  rw [length_written, length_spell] at hlength
  rw [count_percent_written, count_percent_spell] at hcount
  have := List.count_pos_iff.mpr h
  omega

/-- An output is valid and decodes to what was consumed exactly when no `%` was copied. -/
theorem decodes_iff (hB : B.Lawful) {ws : List Write} {src : String}
    (hws : consumed ws = Utf8.encode src.toList) :
    (PctStr.Valid B ⟨written ws⟩ ∧ PctStr.decode B ⟨written ws⟩ = .ok src) ↔
      .copy percent ∉ ws := by
  constructor
  · rintro ⟨hvalid, hdecode⟩ hcopy
    obtain ⟨ts, hts, cs, hcs⟩ := hvalid.exists_tokens hB
    have hraw : written ws = spell ts := congrArg PctStr.raw hts
    rw [hraw, hB.decode_spell hcs] at hdecode
    obtain rfl := Except.ok.inj hdecode
    rw [String.toList_ofList, hcs] at hws
    exact not_written_eq_spell hcopy hws.symm hraw
  · intro hcopy
    obtain ⟨hraw, hoctets⟩ := written_eq_spell hcopy
    rw [hraw]
    rw [← hoctets] at hws
    refine ⟨hB.valid_iff.mpr ((accepted_spell _).mpr ⟨_, hws.symm⟩), ?_⟩
    rw [hB.decode_spell hws.symm, String.ofList_toList]

/-! ## The writes of a round -/

/-- The character behind a run is written without copying a `%`. -/
theorem exists_writes_breakTokens (encoder : Encoder) (c : Char) :
    ∃ ws, consumed ws = String.utf8EncodeChar c ∧ written ws = spell (breakTokens encoder c) ∧
      .copy percent ∉ ws := by
  have hencode : ∃ ws, consumed ws = String.utf8EncodeChar c ∧
      written ws = spell ((String.utf8EncodeChar c).map tripletOf) ∧ .copy percent ∉ ws :=
    ⟨(String.utf8EncodeChar c).map .encode, by simp, by simp, by simp⟩
  unfold breakTokens charTokens
  split
  · exact hencode
  split
  · exact hencode
  · have hc : c ≠ '%' := by simp_all
    have hpct := percent_notMem_encodeChar hc
    refine ⟨(String.utf8EncodeChar c).map .copy, by simp, ?_, by simpa using hpct⟩
    rw [written_map_copy, spell_map_keptToken hpct]

/-! ## Copied percent signs -/

/-- The shuffle keeps a `%` of the text and everything between it and the start of its
run, a position behind a dropped byte or the start of the text, and the 16-byte block
of the `%`, counted from there, is complete. -/
def LeaksPercent (loShuf : LoShuf) (bytes : List UInt8) : Prop :=
  ∃ i k, i ≤ k ∧ (i = 0 ∨ BreakAt (shufDrops loShuf) bytes (i - 1)) ∧
    (∀ m, i ≤ m → m ≤ k → ¬ BreakAt (shufDrops loShuf) bytes m) ∧
    bytes[k]? = some percent ∧ i + 16 * ((k - i) / 16) + 16 ≤ bytes.length

/-- Where a round of the shuffle can start. -/
def RoundStart (loShuf : LoShuf) (bytes : List UInt8) (i : Nat) : Prop :=
  (i = 0 ∨ BreakAt (shufDrops loShuf) bytes (i - 1)) ∨ bytes.length < i + 16

/-- The bytes of a character of a text. -/
theorem getElem?_encode_char (pre post : List Char) {c : Char} {q : Nat}
    (hq : q < (String.utf8EncodeChar c).length) :
    (Utf8.encode (pre ++ c :: post))[(Utf8.encode pre).length + q]? =
      some (String.utf8EncodeChar c)[q] := by
  rw [Utf8.encode_append, Utf8.encode_cons, List.getElem?_append_right (by omega),
    Nat.add_sub_cancel_left, List.getElem?_append_left hq, List.getElem?_eq_getElem hq]

section Shuffle

variable {table : KeepTable} {loShuf : LoShuf} {done run rest tail : List Char} {c : Char}
  (hsimd : B.simdFeature = true)
include hsimd

theorem scanBreakAt_shuffle {bytes : List UInt8} {i k : Nat} :
    ScanBreakAt B.simdFeature table (some loShuf) bytes i k ↔
      ShufBreakAt table loShuf bytes i k := by
  rw [hsimd]
  rfl

/-- Rounds start where they can. -/
theorem roundStart_next (h : RunEnds B table (some loShuf) done run (c :: tail)) :
    RoundStart loShuf (Utf8.encode (done ++ (run ++ c :: tail)))
      (Utf8.encode (done ++ run ++ [c])).length := by
  have hhere := (scanBreakAt_shuffle hsimd).mp h.here
  have hstop : (Utf8.encode (done ++ run ++ [c])).length =
      (Utf8.encode (done ++ run)).length + (String.utf8EncodeChar c).length := by
    simp [Nat.add_assoc]
  obtain ⟨b, t, hc, -⟩ := Utf8.encodeChar_shape c
  have hpos : 0 < (String.utf8EncodeChar c).length := by simp [hc]
  rw [hstop]
  unfold ShufBreakAt at hhere
  split at hhere
  · refine .inl (.inr ?_)
    by_cases hascii : c.toNat < 0x80
    · have hone : (String.utf8EncodeChar c).length = 1 := by simp [Utf8.encodeChar_ascii hascii]
      rwa [hone, Nat.add_sub_cancel]
    · have hlast := getElem?_encode_char (done ++ run) tail (c := c)
        (q := (String.utf8EncodeChar c).length - 1) (by omega)
      rw [List.append_assoc, ← Nat.add_sub_assoc hpos] at hlast
      refine ⟨_, hlast, shufDrops_nonAscii loShuf ?_⟩
      exact Utf8.encodeChar_ge (Nat.not_lt.mp hascii) (List.getElem_mem _)
  · refine .inr ?_
    omega

/-- A run that starts where it can copies no `%`, unless the text leaks one. -/
theorem percent_notMem_run (h : RunEnds B table (some loShuf) done run rest)
    (hstart : RoundStart loShuf (Utf8.encode (done ++ (run ++ rest))) (Utf8.encode done).length)
    (hleak : ¬ LeaksPercent loShuf (Utf8.encode (done ++ (run ++ rest)))) : '%' ∉ run := by
  intro hmem
  obtain ⟨r₁, r₂, hrun⟩ := List.append_of_mem hmem
  have hkept := h.kept hrun
  have hbyte : (Utf8.encode (done ++ (run ++ rest)))[(Utf8.encode (done ++ r₁)).length]? =
      some percent := by
    have := getElem?_encode (done ++ r₁) (r₂ ++ rest) (c := '%') (by decide)
    simpa [hrun] using this
  have hik : (Utf8.encode done).length ≤ (Utf8.encode (done ++ r₁)).length := by simp
  rw [scanBreakAt_shuffle hsimd, ShufBreakAt] at hkept
  split at hkept
  · rename_i hblock
    refine hleak ⟨_, _, hik, hstart.resolve_right (by omega), fun m hm hmk hbreak => ?_, hbyte,
      by omega⟩
    refine h.before m hm ?_ ((scanBreakAt_shuffle hsimd).mpr ?_)
    · exact Nat.lt_of_le_of_lt hmk (by simp [hrun, Utf8.encodeChar_ascii (c := '%') (by decide)])
    · rw [ShufBreakAt, if_pos (by omega)]
      exact hbreak
  · exact hkept ((breakAt_iff hbyte).mpr (by simp [breaks]))

/-- A run follows a leak up to its `%`, or stops in front of where the leak starts. -/
theorem lt_of_leak {i k : Nat} (h : RunEnds B table (some loShuf) done run rest)
    (hdone : (Utf8.encode done).length ≤ i) (hik : i ≤ k)
    (hstart : i = 0 ∨ BreakAt (shufDrops loShuf) (Utf8.encode (done ++ (run ++ rest))) (i - 1))
    (hkept : ∀ m, i ≤ m → m ≤ k →
      ¬ BreakAt (shufDrops loShuf) (Utf8.encode (done ++ (run ++ rest))) m)
    (hblock : i + 16 * ((k - i) / 16) + 16 ≤ (Utf8.encode (done ++ (run ++ rest))).length) :
    (Utf8.encode (done ++ run)).length < i ∨ k < (Utf8.encode (done ++ run)).length := by
  by_contra hcon
  rw [not_or, Nat.not_lt, Nat.not_lt] at hcon
  obtain ⟨hij, hjk⟩ := hcon
  rcases Nat.lt_or_eq_of_le hdone with hlt | heq
  · -- the byte in front of the leak breaks the run
    have hbreak := hstart.resolve_left (by omega)
    refine h.before (i - 1) (by omega) (by omega) ((scanBreakAt_shuffle hsimd).mpr ?_)
    rwa [ShufBreakAt, if_pos (by omega)]
  · -- nothing up to the `%` breaks the run
    have hhere := (scanBreakAt_shuffle hsimd).mp (IsFirst.here h (by omega))
    rw [ShufBreakAt, if_pos (by omega)] at hhere
    exact hkept _ hij hjk hhere

end Shuffle

/-- A round that stops in front of a kept byte does not pass it either: inside of a
character beyond ASCII no byte is kept. -/
theorem le_of_kept {loShuf : LoShuf} {pre tail : List Char} {c : Char} {i : Nat}
    (hstop : (Utf8.encode pre).length < i)
    (hkept : ¬ BreakAt (shufDrops loShuf) (Utf8.encode (pre ++ c :: tail)) i) :
    (Utf8.encode (pre ++ [c])).length ≤ i := by
  by_contra hcon
  have hstop' : (Utf8.encode (pre ++ [c])).length =
      (Utf8.encode pre).length + (String.utf8EncodeChar c).length := by simp
  have hq : i - (Utf8.encode pre).length < (String.utf8EncodeChar c).length := by omega
  have hbyte := getElem?_encode_char pre tail hq
  rw [Nat.add_sub_of_le hstop.le] at hbyte
  have hnonAscii : 0x80 ≤ c.toNat := by
    by_contra hascii
    rw [Utf8.encodeChar_ascii (Nat.not_le.mp hascii), List.length_singleton] at hq
    omega
  have hge := Utf8.encodeChar_ge hnonAscii (List.getElem_mem hq)
  exact hkept ⟨_, hbyte, shufDrops_nonAscii loShuf hge⟩

/-- A `%` inside of a run is copied. -/
theorem percent_mem_encode {done run rest : List Char} {k : Nat}
    (hbyte : (Utf8.encode (done ++ (run ++ rest)))[k]? = some percent)
    (hk : (Utf8.encode done).length ≤ k) (hk' : k < (Utf8.encode (done ++ run)).length) :
    percent ∈ Utf8.encode run := by
  rw [Utf8.encode_append, List.length_append] at hk'
  rw [Utf8.encode_append, List.getElem?_append_right hk, Utf8.encode_append,
    List.getElem?_append_left (by omega)] at hbyte
  exact List.mem_of_getElem? hbyte

/-! ## The whole loop -/

/-- No run copies a `%`, in any configuration, as long as the text leaks none. -/
theorem percent_notMem_encode_run {table : KeepTable} {loShuf : Option LoShuf}
    {done run rest : List Char} (h : RunEnds B table loShuf done run rest)
    (hstart : B.simdFeature = true → ∀ ls, loShuf = some ls →
      RoundStart ls (Utf8.encode (done ++ (run ++ rest))) (Utf8.encode done).length ∧
        ¬ LeaksPercent ls (Utf8.encode (done ++ (run ++ rest)))) :
    percent ∉ Utf8.encode run := by
  have hrun : '%' ∉ run := by
    by_cases hmode : B.simdFeature = true ∧ loShuf.isSome = true
    · obtain ⟨hsimd, ls, rfl⟩ := hmode.imp_right Option.isSome_iff_exists.mp
      obtain ⟨hround, hleak⟩ := hstart hsimd ls rfl
      exact percent_notMem_run hsimd h hround hleak
    · -- the table scanners break at every `%`
      intro hmem
      obtain ⟨r₁, r₂, rfl⟩ := List.append_of_mem hmem
      have hbyte := getElem?_encode (done ++ r₁) (r₂ ++ rest) (c := '%') (by decide)
      refine h.kept rfl ?_
      have hbreak : BreakAt (breaks table) (Utf8.encode (done ++ (r₁ ++ '%' :: r₂ ++ rest)))
          (Utf8.encode (done ++ r₁)).length := ⟨percent, by simpa using hbyte, by simp [breaks]⟩
      unfold ScanBreakAt
      split
      · simp_all
      · exact hbreak
  intro hmem
  obtain ⟨c, hc, hpct⟩ := List.mem_flatMap.mp hmem
  have hne : c ≠ '%' := fun h => hrun (h ▸ hc)
  exact percent_notMem_encodeChar hne hpct

/-- Without a leak, the loop writes the source without copying a `%`. -/
theorem encodeBytesLoop_sound (encoder : Encoder) (table : KeepTable) {loShuf : Option LoShuf}
    {src : List Char} (hleak : B.simdFeature = true → ∀ ls, loShuf = some ls →
      ¬ LeaksPercent ls (Utf8.encode src)) :
    ∃ ws, (encodeBytesLoop B encoder table loShuf (Utf8.encode src)).run (0, []) =
        .ok (written ws) ∧
      consumed ws = Utf8.encode src ∧ .copy percent ∉ ws := by
  obtain ⟨out, hout, ws, hconsumed, rfl, hcopy⟩ := encodeBytesLoop_total B encoder table loShuf src
    (fun done out =>
      (∃ ws, consumed ws = Utf8.encode done ∧ written ws = out ∧ .copy percent ∉ ws) ∧
        (B.simdFeature = true → ∀ ls, loShuf = some ls →
          RoundStart ls (Utf8.encode src) (Utf8.encode done).length))
    (fun out =>
      ∃ ws, consumed ws = Utf8.encode src ∧ written ws = out ∧ .copy percent ∉ ws)
    ⟨⟨[], rfl, rfl, by simp⟩, fun _ _ _ => .inl (.inl rfl)⟩
    (by
      rintro done run c tail _ rfl - hends ⟨⟨ws, hconsumed, rfl, hcopy⟩, hstart⟩
      have hrun := percent_notMem_encode_run hends
        fun hsimd ls hls => ⟨hstart hsimd ls hls, hleak hsimd ls hls⟩
      obtain ⟨vs, hvs, hwritten, hvcopy⟩ := exists_writes_breakTokens encoder c
      refine ⟨⟨ws ++ (Utf8.encode run).map .copy ++ vs, ?_, ?_, ?_⟩, ?_⟩
      · simp [hconsumed, hvs]
      · simp [hwritten]
      · simp [hcopy, hvcopy, hrun]
      · rintro hsimd ls rfl
        exact roundStart_next hsimd hends)
    (by
      rintro done run _ rfl - hends ⟨⟨ws, hconsumed, rfl, hcopy⟩, hstart⟩
      have hrun := percent_notMem_encode_run hends
        fun hsimd ls hls => ⟨hstart hsimd ls hls, hleak hsimd ls hls⟩
      exact ⟨ws ++ (Utf8.encode run).map .copy, by simp [hconsumed], by simp,
        by simp [hcopy, hrun]⟩)
  exact ⟨ws, hout, hconsumed, hcopy⟩

/-- With a leak, it copies one: as long as none is copied, the rounds stay in front of
where the leak starts. -/
theorem encodeBytesLoop_leaks (encoder : Encoder) (table : KeepTable) {loShuf : LoShuf}
    {src : List Char} (hsimd : B.simdFeature = true)
    (hleak : LeaksPercent loShuf (Utf8.encode src)) :
    ∃ ws, (encodeBytesLoop B encoder table (some loShuf) (Utf8.encode src)).run (0, []) =
        .ok (written ws) ∧ consumed ws = Utf8.encode src ∧ .copy percent ∈ ws := by
  obtain ⟨i, k, hik, hstart, hkept, hbyte, hblock⟩ := hleak
  obtain ⟨out, hout, ws, hconsumed, rfl, hcopy⟩ := encodeBytesLoop_total B encoder table
    (some loShuf) src
    (fun done out => ∃ ws, consumed ws = Utf8.encode done ∧ written ws = out ∧
      (.copy percent ∈ ws ∨ (Utf8.encode done).length ≤ i))
    (fun out => ∃ ws, consumed ws = Utf8.encode src ∧ written ws = out ∧ .copy percent ∈ ws)
    ⟨[], rfl, rfl, .inr (Nat.zero_le i)⟩
    (by
      rintro done run c tail _ rfl - hends ⟨ws, hconsumed, rfl, hws⟩
      obtain ⟨vs, hvs, hwritten, -⟩ := exists_writes_breakTokens encoder c
      refine ⟨ws ++ (Utf8.encode run).map .copy ++ vs, ?_, ?_, ?_⟩
      · simp [hconsumed, hvs]
      · simp [hwritten]
      rcases hws with hcopy | hdone
      · exact .inl (by simp [hcopy])
      rcases lt_of_leak hsimd hends hdone hik hstart hkept hblock with hstop | hpass
      · exact .inr (le_of_kept hstop (by simpa using hkept i le_rfl hik))
      · have hmem := percent_mem_encode hbyte (hdone.trans hik) hpass
        exact .inl (by simp [hmem]))
    (by
      rintro done run _ rfl - hends ⟨ws, hconsumed, rfl, hws⟩
      refine ⟨ws ++ (Utf8.encode run).map .copy, by simp [hconsumed], by simp, ?_⟩
      rcases hws with hcopy | hdone
      · simp [hcopy]
      rcases lt_of_leak hsimd hends hdone hik hstart hkept hblock with hstop | hpass
      · rw [List.append_nil] at hblock
        omega
      · have hmem := percent_mem_encode hbyte (hdone.trans hik) hpass
        simp [hmem])
  exact ⟨ws, hout, hconsumed, hcopy⟩

/-- What `encode_bytes` returns is valid and decodes to the source, for any encoder,
exactly when the nibble shuffle leaks no `%` of the source. -/
theorem encodeBytes_sound_iff (hB : B.Lawful) (encoder : Encoder) (src : String) :
    (∃ p, PctString.encodeBytes B src encoder = .ok p ∧ p.asPctStr.Valid B ∧
        p.asPctStr.decode B = .ok src) ↔
      ¬ (B.simdFeature = true ∧ encoder.asciiKeepTable ≠ none ∧
        ∃ ls, encoder.asciiKeepLoShuf = some ls ∧ LeaksPercent ls (Utf8.encode src.toList)) := by
  unfold PctString.encodeBytes
  cases htable : encoder.asciiKeepTable with
  | none =>
    have hspec := hB.encode_spec encoder src.toList
    rw [String.ofList_toList] at hspec
    exact iff_of_true ⟨_, rfl, hspec.1, hspec.2.1⟩ fun h => h.2.1 rfl
  | some table =>
    constructor
    · rintro ⟨p, hp, hsound⟩ ⟨hsimd, -, ls, hls, hleak⟩
      obtain ⟨ws, hrun, hconsumed, hcopy⟩ :=
        encodeBytesLoop_leaks encoder table hsimd hleak
      rw [hls] at hp
      dsimp only at hp
      rw [hrun] at hp
      obtain rfl := Except.ok.inj hp
      exact (decodes_iff hB hconsumed).mp hsound hcopy
    · intro hleak
      obtain ⟨ws, hrun, hconsumed, hcopy⟩ :=
        encodeBytesLoop_sound encoder table
          fun hsimd ls hls h => hleak ⟨hsimd, by simp, ls, hls, h⟩
      dsimp only
      rw [hrun]
      exact ⟨_, rfl, (decodes_iff hB hconsumed).mpr hcopy⟩

/-- An encoder that encodes nothing and keeps every ASCII byte. -/
def keepAll : Encoder where
  encode _ := false
  asciiKeepTable := some (.replicate 128 1)
  asciiKeepLoShuf := some (buildLoShuf (.replicate 128 1))

theorem encodeBytes_sound_iff_scalar :
    ∃ p, PctString.encodeBytes (referenceBuild true false) "100% pure sugar!" keepAll = .ok p ∧
      p.asPctStr.Valid (referenceBuild true false) ∧
      p.asPctStr.decode (referenceBuild true false) = .ok "100% pure sugar!" :=
  (encodeBytes_sound_iff (referenceBuild_lawful true false) keepAll "100% pure sugar!").mpr
    fun h => by cases h.1

/-- Sixteen bytes go through the shuffle and come out as they are. -/
theorem encodeBytes_copies_percent :
    PctString.encodeBytes (referenceBuild true true) "100% pure sugar!" keepAll =
        .ok ⟨Utf8.encode "100% pure sugar!".toList⟩ ∧
      ¬ PctStr.Valid (referenceBuild true true) ⟨Utf8.encode "100% pure sugar!".toList⟩ := by
  decide +kernel

end Pct
