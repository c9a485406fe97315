import Pct.Refinement.Comparing
import Pct.Refinement.Contract
import Pct.Refinement.StreamHashing

/-!
# Joined texts

A client may build a text from parts. Joined values are a value, and every way to look at it
is that of the parts, one after the other. `encode` may be applied to the parts too.
`encode_bytes` may be exactly when the scanners do not depend on where a text starts: the
shuffle counts its blocks from there, so it has to break where the table does.
-/

namespace Pct

open Rust

variable {ε : Type} {B : Build ε}

/-! ## Values -/

theorem parse_spell_append (ts : List Token) (rest : List UInt8) :
    parse (spell ts ++ rest) = (parse rest).map (ts ++ ·) := by
  induction ts with
  | nil => simp
  | cons t ts ih =>
    cases t with
    | literal b =>
      rw [spell_cons, Token.spelling_literal, List.append_assoc, List.singleton_append,
        parse.eq_def]
      simp [b.ne_percent, ih, Function.comp_def]
    | triplet hi lo => simp [parse, hi.isHex, lo.isHex, ih, Function.comp_def]

/-- Behind an accepted text only an accepted one makes an accepted one. -/
theorem Accepted.append_iff {bs : List UInt8} (h : Accepted bs) (cs : List UInt8) :
    Accepted (bs ++ cs) ↔ Accepted cs := by
  obtain ⟨ts, rfl, hts⟩ := accepted_iff.mp h
  constructor
  · intro hjoined
    obtain ⟨vs, hvs, hwf⟩ := accepted_iff.mp hjoined
    have hparse := parse_spell_append ts cs
    rw [← hvs, parse_spell] at hparse
    obtain ⟨us, hus, rfl⟩ := Option.map_eq_some_iff.mp hparse.symm
    rw [octets_append] at hwf
    exact accepted_iff.mpr ⟨us, spell_of_parse hus, hwf.cancel hts⟩
  · intro hcs
    obtain ⟨us, rfl, hus⟩ := accepted_iff.mp hcs
    rw [← spell_append, accepted_spell, octets_append]
    exact hts.append hus

/-- Joining a value and raw bytes gives a value exactly when the bytes are one. What is read
off the value are the characters, the length and the normal form of its parts, and a
streaming hasher is left in the state that hashing one part after the other leads to. -/
theorem join_spec (hB : B.Lawful) {p : PctStr} (hp : p.Valid B) (q : PctStr) :
    (PctStr.Valid B ⟨p.raw ++ q.raw⟩ ↔ q.Valid B) ∧
    (q.Valid B → ∃ (s t : String) (m n : List UInt8),
      p.decode B = .ok s ∧ q.decode B = .ok t ∧
      PctStr.decode B ⟨p.raw ++ q.raw⟩ = .ok (s ++ t) ∧
      PctStr.chars B ⟨p.raw ++ q.raw⟩ = .ok (s.toList ++ t.toList) ∧
      PctStr.len ⟨p.raw ++ q.raw⟩ = .ok (s.length + t.length) ∧
      p.bytesRfc3986 = .ok m ∧ q.bytesRfc3986 = .ok n ∧
      PctStr.bytesRfc3986 ⟨p.raw ++ q.raw⟩ = .ok (m ++ n) ∧
      ∀ (σ : Type) (H : Hasher σ), H.Streaming → ∀ s : σ,
        PctStr.hash B ⟨p.raw ++ q.raw⟩ H s = (p.hash B H s >>= q.hash B H) ∧
        PctStr.hashRfc3986 B ⟨p.raw ++ q.raw⟩ H s =
          (p.hashRfc3986 B H s >>= q.hashRfc3986 B H)) := by
  rw [hB.valid_iff, hB.valid_iff]
  refine ⟨(hB.valid_iff.mp hp).append_iff q.raw, ?_⟩
  intro hq
  obtain ⟨ts, rfl, cs, hcs⟩ := hp.exists_tokens hB
  obtain ⟨us, rfl, ds, hds⟩ := (hB.valid_iff.mpr hq).exists_tokens hB
  have hjoined : Utf8.encode (cs ++ ds) = octets (ts ++ us) := by
    rw [Utf8.encode_append, hcs, hds, octets_append]
  have hraw : spell ts ++ spell us = spell (ts ++ us) := (spell_append ts us).symm
  refine ⟨String.ofList cs, String.ofList ds, _, _, hB.decode_spell hcs, hB.decode_spell hds, ?_,
    ?_, ?_, PctStr.bytesRfc3986_spell ts, PctStr.bytesRfc3986_spell us, ?_, ?_⟩
  · rw [hraw, hB.decode_spell hjoined, String.ofList_append]
  · rw [hraw, hB.chars_spell hjoined, String.toList_ofList, String.toList_ofList]
  · rw [hraw, PctStr.len_spell hjoined, List.length_append, String.length_ofList,
      String.length_ofList]
  · rw [hraw, PctStr.bytesRfc3986_spell, normalize_append, spell_append]
  · intro σ H hH s
    rw [hraw, hH.hash_spell hB, hH.hash_spell hB, hH.hashRfc3986_spell hB,
      hH.hashRfc3986_spell hB, Exec.ok_bind, Exec.ok_bind, hH.hash_spell hB,
      hH.hashRfc3986_spell hB, octets_append, normalize_append, spell_append, hH.write_append,
      hH.write_append]
    exact ⟨rfl, rfl⟩

/-- `%61` and `b`, joined and hashed one after the other. -/
theorem join_spec_letters :
    PctStr.Valid (referenceBuild true false) ⟨[0x25, 0x36, 0x31, 0x62]⟩ ∧
      PctStr.hash (referenceBuild true false) ⟨[0x25, 0x36, 0x31, 0x62]⟩ collector [] =
        (PctStr.hash (referenceBuild true false) ⟨[0x25, 0x36, 0x31]⟩ collector [] >>=
          PctStr.hash (referenceBuild true false) ⟨[0x62]⟩ collector) := by
  have hB := referenceBuild_lawful true false
  have hletter := hB.valid_of_ascii [.literal ⟨0x62, by decide⟩] (by simp)
  have hjoin := join_spec hB (hB.valid_of_ascii [tripletOf 0x61] (by simp)) ⟨[0x62]⟩
  obtain ⟨s, t, m, n, -, -, -, -, -, -, -, -, hhash⟩ := hjoin.2 hletter
  exact ⟨hjoin.1.mpr hletter, (hhash _ collector collector_streaming []).1⟩

/-! ## Sources -/

theorem encodeTokens_append (encoder : Encoder) (s t : List Char) :
    encodeTokens encoder (s ++ t) = encodeTokens encoder s ++ encodeTokens encoder t :=
  List.flatMap_append

/-- Where a build uses the shuffle, it breaks at the same bytes as the table. -/
def Encoder.Coherent (simdFeature : Bool) (encoder : Encoder) : Prop :=
  simdFeature = true → ∀ table ls, encoder.asciiKeepTable = some table →
    encoder.asciiKeepLoShuf = some ls → ∀ b, shufDrops ls b = Pct.breaks table b

/-- The decisions that a table takes for ASCII characters, and `encode` for the others. -/
def Encoder.byTable (encoder : Encoder) (table : KeepTable) : Encoder where
  encode c := if c.toNat < 0x80 then Pct.breaks table (UInt8.ofNat c.toNat) else encoder.encode c
  asciiKeepTable := some table
  asciiKeepLoShuf := none

theorem Encoder.encode_byTable_or (encoder : Encoder) (table : KeepTable) {c : Char}
    (hc : c.toNat < 0x80) : ((encoder.byTable table).encode c || decide (c = '%')) =
      Pct.breaks table (UInt8.ofNat c.toNat) := by
  simp only [byTable, if_pos hc]
  by_cases hpct : c = '%'
  · subst hpct
    rw [decide_eq_true rfl, Bool.or_true]
    rfl
  · rw [decide_eq_false hpct, Bool.or_false]

/-- What is written for a break is what the table and `encode` decide on. -/
theorem breakTokens_byTable (encoder : Encoder) (table : KeepTable) {c : Char}
    (h : c.toNat < 0x80 → Pct.breaks table (UInt8.ofNat c.toNat) = true) :
    breakTokens encoder c = charTokens (encoder.byTable table) c := by
  unfold breakTokens charTokens
  split
  · rename_i hc
    rw [encoder.encode_byTable_or table hc, h hc, if_pos rfl]
  · rename_i hc
    simp only [Encoder.byTable, if_neg hc]

/-- A loop whose scanner breaks where the table does encodes character by character. -/
theorem encodeBytesLoop_byTable (B : Build ε) (encoder : Encoder) (table : KeepTable)
    (loShuf : Option LoShuf) (src : List Char)
    (h : ∀ i k, i ≤ k → (ScanBreakAt B.simdFeature table loShuf (Utf8.encode src) i k ↔
      BreakAt (Pct.breaks table) (Utf8.encode src) k)) :
    (encodeBytesLoop B encoder table loShuf (Utf8.encode src)).run (0, []) =
      .ok (spell (encodeTokens (encoder.byTable table) src)) := by
  have hrun {done run rest : List Char} (hsrc : src = done ++ (run ++ rest))
      (hascii : ∀ c ∈ run, c.toNat < 0x80) (hends : RunEnds B table loShuf done run rest) :
      spell (encodeTokens (encoder.byTable table) run) = Utf8.encode run := by
    apply spell_encodeTokens_run
    intro c hc
    obtain ⟨r₁, r₂, rfl⟩ := List.append_of_mem hc
    have hkept := hends.kept rfl
    have hbyte := getElem?_encode (done ++ r₁) (r₂ ++ rest) (hascii c hc)
    rw [← hsrc, h _ _ (by simp)] at hkept
    rw [encoder.encode_byTable_or table (hascii c hc), ← Bool.not_eq_true, ← breakAt_iff hbyte]
    simpa [hsrc] using hkept
  obtain ⟨out, hout, rfl⟩ := encodeBytesLoop_total B encoder table loShuf src
    (fun done out => out = spell (encodeTokens (encoder.byTable table) done))
    (fun out => out = spell (encodeTokens (encoder.byTable table) src)) rfl
    (by
      rintro done run c tail _ hsrc hascii hends rfl
      have hhere := hends.here
      rw [← hsrc, h _ _ (by simp)] at hhere
      have hbreak (hc : c.toNat < 0x80) : Pct.breaks table (UInt8.ofNat c.toNat) = true := by
        rw [hsrc, ← List.append_assoc, breakAt_iff (getElem?_encode _ tail hc)] at hhere
        exact hhere
      rw [breakTokens_byTable encoder table hbreak, ← hrun hsrc hascii hends]
      simp [encodeTokens])
    (by
      rintro done run _ hsrc hascii hends rfl
      rw [← hrun hsrc hascii hends, hsrc]
      simp [encodeTokens])
  exact hout

/-- A coherent encoder encodes bytes as some encoder encodes characters. -/
theorem Encoder.Coherent.exists_encode {encoder : Encoder} (h : encoder.Coherent B.simdFeature) :
    ∃ encoder', ∀ src : List Char, PctString.encodeBytes B (String.ofList src) encoder =
      .ok (PctString.encode src encoder') := by
  cases htable : encoder.asciiKeepTable with
  | none =>
    refine ⟨encoder, ?_⟩
    intro src
    rw [PctString.encodeBytes, htable, String.toList_ofList]
    rfl
  | some table =>
    refine ⟨encoder.byTable table, ?_⟩
    intro src
    rw [PctString.encode_eq, encodeBytes_eq_ok htable]
    apply encodeBytesLoop_byTable
    intro i k _
    rw [scanBreakAt_eq_breakAt (fun _ => rfl) fun hsimd ls hls => h hsimd table ls htable hls]

/-- A short text is scanned by the table. -/
theorem encodeBytes_of_short {encoder : Encoder} {table : KeepTable}
    (htable : encoder.asciiKeepTable = some table) {src : List Char}
    (hsrc : (Utf8.encode src).length < 16) :
    PctString.encodeBytes B (String.ofList src) encoder =
      .ok ⟨spell (encodeTokens (encoder.byTable table) src)⟩ := by
  rw [encodeBytes_eq_ok htable]
  apply encodeBytesLoop_byTable
  intro i k hik
  exact scanBreakAt_of_short hsrc hik

/-- Where outputs can be joined, a long text of one character is made of short ones. -/
theorem encodeBytes_replicate {encoder : Encoder} {table : KeepTable}
    (htable : encoder.asciiKeepTable = some table)
    (hjoin : ∀ s t x y, PctString.encodeBytes B s encoder = .ok x →
      PctString.encodeBytes B t encoder = .ok y →
      PctString.encodeBytes B (s ++ t) encoder = .ok ⟨x.raw ++ y.raw⟩)
    {c : Char} (hc : c.toNat < 0x80) (m : Nat) :
    PctString.encodeBytes B (String.ofList (List.replicate m c)) encoder =
      .ok ⟨spell (encodeTokens (encoder.byTable table) (List.replicate m c))⟩ := by
  induction m with
  | zero => exact encodeBytes_of_short htable (by simp)
  | succ m ih =>
    have hone : PctString.encodeBytes B (String.ofList [c]) encoder =
        .ok ⟨spell (encodeTokens (encoder.byTable table) [c])⟩ :=
      encodeBytes_of_short htable (by simp [Utf8.encodeChar_ascii hc])
    have hboth := hjoin _ _ _ _ hone ih
    rwa [← String.ofList_append, List.singleton_append, ← List.replicate_succ, ← spell_append,
      ← encodeTokens_append, List.singleton_append, ← List.replicate_succ] at hboth

/-- Encoding the parts of a source by bytes and joining the outputs is encoding the source,
for all sources, if and only if the shuffle that the build uses breaks where the table does. -/
theorem encodeBytes_append_iff (B : Build ε) (encoder : Encoder) :
    (∀ s t : String, ∃ x y : PctString, PctString.encodeBytes B s encoder = .ok x ∧
      PctString.encodeBytes B t encoder = .ok y ∧
      PctString.encodeBytes B (s ++ t) encoder = .ok ⟨x.raw ++ y.raw⟩) ↔
      encoder.Coherent B.simdFeature := by
  constructor
  · intro h hsimd table ls htable hls b
    have hjoin (s t : String) (x y : PctString) (hx : PctString.encodeBytes B s encoder = .ok x)
        (hy : PctString.encodeBytes B t encoder = .ok y) :
        PctString.encodeBytes B (s ++ t) encoder = .ok ⟨x.raw ++ y.raw⟩ := by
      obtain ⟨x', y', hx', hy', hboth⟩ := h s t
      obtain rfl := Except.ok.inj (hx.symm.trans hx')
      obtain rfl := Except.ok.inj (hy.symm.trans hy')
      exact hboth
    by_cases hb : b ≥ 0x80
    · rw [shufDrops_nonAscii ls hb, Pct.breaks, decide_eq_true hb, Bool.true_or, Bool.true_or]
    · have hn : b.toNat < 128 := UInt8.lt_iff_toNat_lt.mp (UInt8.not_le.mp hb)
      have hc := (toNat_ofNat hn).trans_lt hn
      have hblock := (encodeBytes_eq_ok htable _).mp (encodeBytes_replicate htable hjoin hc 16)
      rw [hls] at hblock
      have hdrops := shufDrops_of_run_eq (UInt8.not_le.mp hb) hsimd hblock
      rw [encoder.encode_byTable_or table hc, toNat_ofNat hn, UInt8.ofNat_toNat] at hdrops
      rw [Bool.eq_iff_iff, hdrops]
  · intro h s t
    obtain ⟨encoder', hencode⟩ := h.exists_encode
    have hs := hencode s.toList
    have ht := hencode t.toList
    have hst := hencode (s ++ t).toList
    rw [String.ofList_toList] at hs ht hst
    refine ⟨_, _, hs, ht, ?_⟩
    simp only [hst, PctString.encode_eq, String.toList_append, encodeTokens_append, spell_append]

end Pct
