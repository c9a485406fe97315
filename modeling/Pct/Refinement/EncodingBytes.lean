import Pct.Refinement.Encoding
import Pct.Refinement.Scanning

/-!
# Encoding bytes

A round of `encode_bytes` starts in front of a character. It copies the ASCII
characters of a run and encodes the character that breaks it, whatever the encoder and
the scanner (`encodeBytesStep_spec`). For a consistent encoder the rounds write the
tokens of `encode`.
-/

namespace Pct

open Rust

variable {ε : Type} {B : Build ε}

/-! ## The character at a break -/

theorem seqEnd_step (pre post : List UInt8) (b : UInt8) :
    (seqEnd (pre ++ b :: post)).step pre.length =
      .ok (if Utf8.isContinuation b then .next (pre.length + 1) else .done pre.length) := by
  have hlt : pre.length < (pre ++ b :: post).length := by simp
  simp only [seqEnd, seqEndStep, if_pos hlt, index_append pre post b rfl, Exec.ok_bind,
    Utf8.isContinuation, beq_iff_eq]
  split <;> rfl

/-- Continuation bytes are skipped up to the next character. -/
theorem seqEnd_run (pre : List UInt8) {t : List UInt8} (tail : List Char)
    (ht : ∀ b ∈ t, Utf8.isContinuation b = true) :
    (seqEnd (pre ++ t ++ Utf8.encode tail)).run pre.length = .ok (pre.length + t.length) := by
  induction t generalizing pre with
  | nil =>
    apply Loop.run_done
    cases tail with
    | nil => simp [seqEnd, seqEndStep]
    | cons c tail =>
      obtain ⟨b, t, hc, hb, -⟩ := Utf8.encodeChar_shape c
      rw [List.append_nil, Utf8.encode_cons, hc, List.cons_append, seqEnd_step, hb]
      rfl
  | cons b t ih =>
    rw [List.forall_mem_cons] at ht
    have hrun := ih (pre ++ [b]) ht.2
    have hbytes : pre ++ b :: t ++ Utf8.encode tail = pre ++ b :: (t ++ Utf8.encode tail) := by simp
    have hstep := seqEnd_step pre (t ++ Utf8.encode tail) b
    rw [ht.1, if_pos rfl, ← hbytes] at hstep
    rw [Loop.run_next _ hstep]
    simpa [Nat.add_assoc, Nat.add_comm 1] using hrun

/-- From the first byte of a character the sequence ends behind its last one. -/
theorem seqEnd_spec (pre : List UInt8) (c : Char) (tail : List Char) :
    (seqEnd (pre ++ String.utf8EncodeChar c ++ Utf8.encode tail)).run (pre.length + 1) =
      .ok (pre.length + (String.utf8EncodeChar c).length) := by
  obtain ⟨b, t, hc, -, ht⟩ := Utf8.encodeChar_shape c
  have hrun := seqEnd_run (pre ++ [b]) tail ht
  rw [hc]
  simpa [Nat.add_assoc, Nat.add_comm 1] using hrun

/-- The tokens that a round writes for the character that breaks a run. -/
def breakTokens (encoder : Encoder) (c : Char) : List Token :=
  if c.toNat < 0x80 then (String.utf8EncodeChar c).map tripletOf else charTokens encoder c

theorem encodeBreak_spec (encoder : Encoder) (pre : List UInt8) (c : Char) (tail : List Char)
    (out : List UInt8) :
    encodeBreak encoder (pre ++ String.utf8EncodeChar c ++ Utf8.encode tail) pre.length out =
      .ok (pre.length + (String.utf8EncodeChar c).length,
        out ++ spell (breakTokens encoder c)) := by
  obtain ⟨b, t, hc, -⟩ := Utf8.encodeChar_shape c
  have hindex : index (pre ++ String.utf8EncodeChar c ++ Utf8.encode tail) pre.length = .ok b := by
    rw [hc, List.append_assoc, List.cons_append]
    exact index_append pre _ b rfl
  have hmem : b ∈ String.utf8EncodeChar c := by simp [hc]
  rw [encodeBreak, hindex, Exec.ok_bind, breakTokens]
  by_cases hb : b < 0x80
  · have hascii := Utf8.toNat_lt_of_mem_encodeChar hmem hb
    have hone : String.utf8EncodeChar c = [b] := by
      rw [Utf8.encodeChar_ascii hascii] at hc ⊢
      rw [(List.cons.inj hc).1]
    rw [if_pos hb, if_pos hascii, hone, pushTriplet_eq]
    simp
  · have hchar : ¬ c.toNat < 0x80 := fun h => hb (Utf8.encodeChar_lt h hmem)
    have hne : c ≠ '%' := by
      rintro rfl
      exact hchar (by decide)
    have htext : fromUtf8Unchecked (String.utf8EncodeChar c) = .ok (String.ofList [c]) := by
      simpa using fromUtf8Unchecked_encode [c]
    rw [if_neg hb, if_neg hchar, seqEnd_spec, Exec.ok_bind, slice_append _ _ _ rfl rfl,
      Exec.ok_bind, htext, Exec.ok_bind, String.toList_ofList, List.head?_cons, unwrap_some,
      Exec.ok_bind, charTokens]
    by_cases he : encoder.encode c = true
    · simp [he, foldl_pushTriplet]
    · simp [he, hne, spell_map_keptToken (percent_notMem_encodeChar hne)]

/-! ## One round -/

theorem scanBreakAt_of_nonAscii {simdFeature : Bool} {table : KeepTable} {loShuf : Option LoShuf}
    {bytes : List UInt8} {i k : Nat} {b : UInt8} (hk : bytes[k]? = some b) (hb : b ≥ 0x80) :
    ScanBreakAt simdFeature table loShuf bytes i k := by
  have htable : BreakAt (breaks table) bytes k := (breakAt_iff hk).mpr (by simp [breaks, hb])
  unfold ScanBreakAt
  split
  · unfold ShufBreakAt
    split
    · exact (breakAt_iff hk).mpr (shufDrops_nonAscii _ hb)
    · exact htable
  · exact htable

/-- The bytes in front of the first break are characters of the text. -/
theorem exists_run {simdFeature : Bool} {table : KeepTable} {loShuf : Option LoShuf}
    {done rest : List Char} {j : Nat}
    (hj : IsFirst (ScanBreakAt simdFeature table loShuf (Utf8.encode (done ++ rest))
      (Utf8.encode done).length) (Utf8.encode (done ++ rest)).length (Utf8.encode done).length j) :
    ∃ run rest', rest = run ++ rest' ∧ (∀ c ∈ run, c.toNat < 0x80) ∧
      j = (Utf8.encode (done ++ run)).length := by
  have hend := hj.le_end
  rw [Utf8.encode_append, List.length_append] at hend
  obtain ⟨run, rest', rfl, hrun, hlen⟩ := Utf8.exists_ascii_prefix rest
    (m := j - (Utf8.encode done).length) (by omega) fun b hb => by
      obtain ⟨k, hk, hbk⟩ := List.mem_take_iff_getElem.mp hb
      by_contra hascii
      refine hj.before ((Utf8.encode done).length + k) (by omega) (by omega)
        (scanBreakAt_of_nonAscii (b := b) ?_ (UInt8.not_lt.mp hascii))
      rw [Utf8.encode_append, List.getElem?_append_right (by omega), Nat.add_sub_cancel_left,
        ← hbk, List.getElem?_eq_getElem]
  refine ⟨run, rest', rfl, hrun, ?_⟩
  have := hj.le
  rw [Utf8.encode_append, List.length_append]
  omega

/-- A round behind `done` copies a run of ASCII characters up to the first break and
encodes the character there, or leaves the loop when the text ends with the run. -/
theorem encodeBytesStep_spec (B : Build ε) (encoder : Encoder) (table : KeepTable)
    (loShuf : Option LoShuf) (done : List Char) {rest : List Char} (hrest : rest ≠ [])
    (out : List UInt8) :
    ∃ run rest', rest = run ++ rest' ∧ (∀ c ∈ run, c.toNat < 0x80) ∧
      IsFirst (ScanBreakAt B.simdFeature table loShuf (Utf8.encode (done ++ rest))
        (Utf8.encode done).length) (Utf8.encode (done ++ rest)).length (Utf8.encode done).length
        (Utf8.encode (done ++ run)).length ∧
      (rest' = [] → (encodeBytesLoop B encoder table loShuf (Utf8.encode (done ++ rest))).step
        ((Utf8.encode done).length, out) = .ok (.done (out ++ Utf8.encode run))) ∧
      ∀ c tail, rest' = c :: tail →
        (encodeBytesLoop B encoder table loShuf (Utf8.encode (done ++ rest))).step
          ((Utf8.encode done).length, out) =
          .ok (.next ((Utf8.encode (done ++ run ++ [c])).length,
            out ++ Utf8.encode run ++ spell (breakTokens encoder c))) := by
  obtain ⟨j, hscan, hj⟩ := scanKeepRun_spec B (Utf8.encode (done ++ rest)) table loShuf
    (i := (Utf8.encode done).length) (by simp)
  obtain ⟨run, rest', rfl, hrun, rfl⟩ := exists_run hj
  have hlt : (Utf8.encode done).length < (Utf8.encode (done ++ (run ++ rest'))).length := by
    have := List.length_pos_iff.mpr (mt Utf8.encode_eq_nil.mp hrest)
    rw [Utf8.encode_append, List.length_append]
    omega
  have hslice : slice (Utf8.encode (done ++ (run ++ rest'))) (Utf8.encode done).length
      (Utf8.encode (done ++ run)).length = .ok (Utf8.encode run) := by
    have := slice_append (Utf8.encode done) (Utf8.encode run) (Utf8.encode rest') rfl rfl
    simpa using this
  have hgt : (Utf8.encode (done ++ run)).length > (Utf8.encode done).length ↔ run ≠ [] := by
    rw [Utf8.encode_append, List.length_append, ← not_iff_not, not_not, ← Utf8.encode_eq_nil,
      ← List.length_eq_zero_iff]
    omega
  refine ⟨run, rest', rfl, hrun, hj, ?_, ?_⟩
  · rintro rfl
    have hne : run ≠ [] := by simpa using hrest
    rw [List.append_nil] at hlt hscan hslice ⊢
    simp only [encodeBytesLoop, encodeBytesStep, if_pos hlt, hscan, Exec.ok_bind, hslice, ge_iff_le,
      le_refl, if_true]
    rfl
  · rintro c tail rfl
    have hbreak := encodeBreak_spec encoder (Utf8.encode (done ++ run)) c tail
      (out ++ Utf8.encode run)
    have hbytes : Utf8.encode (done ++ (run ++ c :: tail)) =
        Utf8.encode (done ++ run) ++ String.utf8EncodeChar c ++ Utf8.encode tail := by simp
    have hstop : (Utf8.encode (done ++ run ++ [c])).length =
        (Utf8.encode (done ++ run)).length + (String.utf8EncodeChar c).length := by
      simp [Nat.add_assoc]
    rw [hstop]
    by_cases hne : run = []
    · have hstay : ¬ (Utf8.encode (done ++ run)).length > (Utf8.encode done).length := by
        simp [hne]
      simp only [encodeBytesLoop, encodeBytesStep, if_pos hlt, hscan, Exec.ok_bind, if_neg hstay]
      subst hne
      rw [List.append_nil, Utf8.encode_nil, List.append_nil] at hbreak
      rw [hbytes, List.append_nil, hbreak, Utf8.encode_nil, List.append_nil]
      rfl
    · have hshort : ¬ (Utf8.encode (done ++ run)).length ≥
          (Utf8.encode (done ++ (run ++ c :: tail))).length := by
        obtain ⟨b, t, hc, -⟩ := Utf8.encodeChar_shape c
        rw [hbytes, hc]
        simp
      simp only [encodeBytesLoop, encodeBytesStep, if_pos hlt, hscan, Exec.ok_bind,
        if_pos (hgt.mpr hne), hslice, if_neg hshort]
      rw [hbytes, hbreak]
      rfl

/-! ## Whole runs -/

/-- What a scanner reports between two characters of a text. -/
abbrev RunEnds (B : Build ε) (table : KeepTable) (loShuf : Option LoShuf)
    (done run rest : List Char) : Prop :=
  IsFirst (ScanBreakAt B.simdFeature table loShuf (Utf8.encode (done ++ (run ++ rest)))
    (Utf8.encode done).length) (Utf8.encode (done ++ (run ++ rest))).length
    (Utf8.encode done).length (Utf8.encode (done ++ run)).length

/-- Total correctness of the loop, on the characters behind it and the output. -/
theorem encodeBytesLoop_total (B : Build ε) (encoder : Encoder) (table : KeepTable)
    (loShuf : Option LoShuf) (src : List Char) (Inv : List Char → List UInt8 → Prop)
    (Post : List UInt8 → Prop) (init : Inv [] [])
    (round : ∀ done run c tail out, src = done ++ (run ++ c :: tail) →
      (∀ c ∈ run, c.toNat < 0x80) → RunEnds B table loShuf done run (c :: tail) → Inv done out →
      Inv (done ++ run ++ [c]) (out ++ Utf8.encode run ++ spell (breakTokens encoder c)))
    (finish : ∀ done run out, src = done ++ (run ++ []) → (∀ c ∈ run, c.toNat < 0x80) →
      RunEnds B table loShuf done run [] → Inv done out → Post (out ++ Utf8.encode run)) :
    ∃ out, (encodeBytesLoop B encoder table loShuf (Utf8.encode src)).run (0, []) = .ok out ∧
      Post out := by
  refine Loop.total _ (fun s => ∃ done rest, src = done ++ rest ∧
    s.1 = (Utf8.encode done).length ∧ Inv done s.2) Post ?_ (0, []) ⟨[], src, rfl, rfl, init⟩
  rintro ⟨i, out⟩ ⟨done, rest, rfl, rfl, hinv⟩
  by_cases hrest : rest = []
  · subst hrest
    refine .inr ⟨out, ?_, ?_⟩
    · simp [encodeBytesLoop, encodeBytesStep]
    · have := finish done [] out (by simp) (by simp) (by simpa [RunEnds] using IsFirst.of_end) hinv
      simpa using this
  · obtain ⟨run, rest', rfl, hrun, hends, hdone, hnext⟩ :=
      encodeBytesStep_spec B encoder table loShuf done hrest out
    cases rest' with
    | nil => exact .inr ⟨_, hdone rfl, finish done run out (by simp) hrun hends hinv⟩
    | cons c tail =>
      exact .inl ⟨_, hnext c tail rfl, done ++ run ++ [c], tail, by simp, rfl,
        round done run c tail out rfl hrun hends hinv⟩

/-- Every round starts in front of a character. -/
theorem exists_done_of_reaches {B : Build ε} {encoder : Encoder} {table : KeepTable}
    {loShuf : Option LoShuf} {src : List Char} {s : Nat × List UInt8}
    (h : (encodeBytesLoop B encoder table loShuf (Utf8.encode src)).Reaches (0, []) s) :
    ∃ done rest, src = done ++ rest ∧ s.1 = (Utf8.encode done).length := by
  refine h.invariant (fun s => ∃ done rest, src = done ++ rest ∧
    s.1 = (Utf8.encode done).length) ?_ ⟨[], src, rfl, rfl⟩
  rintro ⟨_, out⟩ u ⟨done, rest, rfl, rfl⟩ hstep
  by_cases hrest : rest = []
  · subst hrest
    simp [encodeBytesLoop, encodeBytesStep] at hstep
  · obtain ⟨run, rest', rfl, -, -, hdone, hnext⟩ :=
      encodeBytesStep_spec B encoder table loShuf done hrest out
    cases rest' with
    | nil => rw [hdone rfl] at hstep; cases hstep
    | cons c tail =>
      rw [hnext c tail rfl] at hstep
      cases hstep
      exact ⟨done ++ run ++ [c], tail, by simp, rfl⟩

/-- What the loop cuts out at a byte beyond ASCII is one character of the source. -/
theorem slice_of_reaches {B : Build ε} {encoder : Encoder} {table : KeepTable}
    {loShuf : Option LoShuf} {src : List Char} {i j : Nat} {out : List UInt8} {b : UInt8}
    (h : (encodeBytesLoop B encoder table loShuf (Utf8.encode src)).Reaches (0, []) (i, out))
    (hscan : scanKeepRun B (Utf8.encode src) i table loShuf = .ok j)
    (hb : (Utf8.encode src)[j]? = some b) :
    ∃ pre c post stop, src = pre ++ c :: post ∧ j = (Utf8.encode pre).length ∧
      (seqEnd (Utf8.encode src)).run (j + 1) = .ok stop ∧
      slice (Utf8.encode src) j stop = .ok (String.utf8EncodeChar c) := by
  obtain ⟨done, rest, rfl, hi⟩ := exists_done_of_reaches h
  dsimp only at hi
  subst hi
  obtain ⟨j', hscan', hj⟩ := scanKeepRun_spec B (Utf8.encode (done ++ rest)) table loShuf
    (i := (Utf8.encode done).length) (by simp)
  obtain rfl := Except.ok.inj (hscan'.symm.trans hscan)
  obtain ⟨run, rest', rfl, -, rfl⟩ := exists_run hj
  cases rest' with
  | nil => simp at hb
  | cons c tail =>
    have hbytes : Utf8.encode (done ++ (run ++ c :: tail)) =
        Utf8.encode (done ++ run) ++ String.utf8EncodeChar c ++ Utf8.encode tail := by simp
    have hstop := seqEnd_spec (Utf8.encode (done ++ run)) c tail
    rw [← hbytes] at hstop
    refine ⟨done ++ run, c, tail, _, by simp, rfl, hstop, ?_⟩
    rw [hbytes]
    exact slice_append _ _ _ rfl rfl

/-! ## Consistent encoders -/

/-- The table of the encoder, if it has one, says what `encode` says. -/
def Encoder.Consistent (encoder : Encoder) : Prop :=
  ∀ table, encoder.asciiKeepTable = some table →
    (∀ (n : Nat) (_ : n < 128),
      table[n] ≠ 0 ↔ n ≠ percent.toNat ∧ encoder.encode (Char.ofNat n) = false) ∧
    (encoder.asciiKeepLoShuf = none ∨ encoder.asciiKeepLoShuf = some (buildLoShuf table))

theorem Encoder.Consistent.percent_eq {encoder : Encoder} (h : encoder.Consistent)
    {table : KeepTable} (htable : encoder.asciiKeepTable = some table) :
    table[percent.toNat]?.getD 0 = 0 := by
  have hpct := (h table htable).1 percent.toNat (by decide)
  rw [getD_table table (by decide)]
  simpa using hpct

/-- The breaks of a consistent table are the ASCII characters that `encode` encodes. -/
theorem Encoder.Consistent.breaks_eq {encoder : Encoder} (h : encoder.Consistent)
    {table : KeepTable} (htable : encoder.asciiKeepTable = some table) {c : Char}
    (hc : c.toNat < 0x80) :
    breaks table (UInt8.ofNat c.toNat) = (encoder.encode c || decide (c = '%')) := by
  have hnat : (UInt8.ofNat c.toNat).toNat = c.toNat := by
    rw [UInt8.toNat_ofNat']
    omega
  have hascii : ¬ UInt8.ofNat c.toNat ≥ 0x80 :=
    UInt8.not_le.mpr (Utf8.encodeChar_lt hc (by rw [Utf8.encodeChar_ascii hc]; simp))
  have hpct : UInt8.ofNat c.toNat = percent ↔ c = '%' := by
    rw [← UInt8.toNat_inj, hnat, ← Char.toNat_inj]
    rfl
  have hkeep := (h table htable).1 c.toNat hc
  rw [Char.ofNat_toNat] at hkeep
  rw [breaks, hnat, getD_table table hc, decide_eq_false hascii, Bool.false_or]
  by_cases hc' : c = '%'
  · rw [decide_eq_true (hpct.mpr hc'), decide_eq_true hc', Bool.true_or, Bool.or_true]
  · have hne : c.toNat ≠ percent.toNat := fun h => hc' (Char.toNat_inj.mp h)
    rw [decide_eq_false (mt hpct.mp hc'), decide_eq_false hc', Bool.false_or, Bool.or_false]
    cases he : encoder.encode c <;> simp_all

/-- The first byte of a character of a text. -/
theorem getElem?_encode (pre post : List Char) {c : Char} (hc : c.toNat < 0x80) :
    (Utf8.encode (pre ++ c :: post))[(Utf8.encode pre).length]? = some (UInt8.ofNat c.toNat) := by
  simp [Utf8.encodeChar_ascii hc]

/-- The characters of a run are kept. -/
theorem RunEnds.kept {table : KeepTable} {loShuf : Option LoShuf} {done run rest : List Char}
    (h : RunEnds B table loShuf done run rest) {r₁ r₂ : List Char} {c : Char}
    (hrun : run = r₁ ++ c :: r₂) : ¬ ScanBreakAt B.simdFeature table loShuf
      (Utf8.encode (done ++ (run ++ rest))) (Utf8.encode done).length
      (Utf8.encode (done ++ r₁)).length := by
  obtain ⟨b, t, hc, -⟩ := Utf8.encodeChar_shape c
  apply h.before
  · simp
  · subst hrun
    simp [hc]

/-- The character behind a run is a break. -/
theorem RunEnds.here {table : KeepTable} {loShuf : Option LoShuf} {done run tail : List Char}
    {c : Char} (h : RunEnds B table loShuf done run (c :: tail)) :
    ScanBreakAt B.simdFeature table loShuf (Utf8.encode (done ++ (run ++ c :: tail)))
      (Utf8.encode done).length (Utf8.encode (done ++ run)).length := by
  obtain ⟨b, t, hc, -⟩ := Utf8.encodeChar_shape c
  apply IsFirst.here h
  simp [hc]

theorem spell_encodeTokens_run {encoder : Encoder} {run : List Char}
    (h : ∀ c ∈ run, (encoder.encode c || decide (c = '%')) = false) :
    spell (encodeTokens encoder run) = Utf8.encode run := by
  induction run with
  | nil => rfl
  | cons c run ih =>
    rw [List.forall_mem_cons] at h
    have hc : c ≠ '%' := by simp_all
    rw [encodeTokens_cons, spell_append, ih h.2, charTokens, if_neg (by simp [h.1]),
      spell_map_keptToken (percent_notMem_encodeChar hc), Utf8.encode_cons]

/-- A consistent encoder encodes bytes as it encodes characters. -/
theorem Encoder.Consistent.encodeBytes_eq {encoder : Encoder} (h : encoder.Consistent)
    (B : Build ε) (src : String) :
    PctString.encodeBytes B src encoder = .ok (PctString.encode src.toList encoder) := by
  unfold PctString.encodeBytes
  cases htable : encoder.asciiKeepTable with
  | none => rfl
  | some table =>
    have hbreak := scanBreakAt_eq (h.percent_eq htable) (h table htable).2 B.simdFeature
    have hrun {done run rest : List Char} (hascii : ∀ c ∈ run, c.toNat < 0x80)
        (hends : RunEnds B table encoder.asciiKeepLoShuf done run rest) :
        spell (encodeTokens encoder run) = Utf8.encode run := by
      apply spell_encodeTokens_run
      intro c hc
      obtain ⟨r₁, r₂, rfl⟩ := List.append_of_mem hc
      have hkept := hends.kept rfl
      rw [hbreak] at hkept
      have hbyte := getElem?_encode (done ++ r₁) (r₂ ++ rest) (hascii c hc)
      rw [← h.breaks_eq htable (hascii c hc), ← Bool.not_eq_true, ← breakAt_iff hbyte]
      simpa using hkept
    obtain ⟨out, hout, hpost⟩ := encodeBytesLoop_total B encoder table encoder.asciiKeepLoShuf
      src.toList (fun done out => out = spell (encodeTokens encoder done))
      (fun out => out = spell (encodeTokens encoder src.toList)) rfl
      (by
        rintro done run c tail _ - hascii hends rfl
        have htokens : breakTokens encoder c = charTokens encoder c := by
          unfold breakTokens charTokens
          split
          · rename_i hc
            have hhere := hends.here
            rw [hbreak, ← List.append_assoc, breakAt_iff (getElem?_encode _ tail hc),
              h.breaks_eq htable hc] at hhere
            rw [if_pos hhere]
          · rfl
        rw [htokens, ← hrun hascii hends]
        simp [encodeTokens])
      (by
        rintro done run _ hsrc hascii hends rfl
        rw [hsrc, List.append_nil, ← hrun hascii hends]
        simp [encodeTokens])
    dsimp only
    rw [hout, Exec.ok_bind, hpost, PctString.encode_eq]
    rfl

end Pct
