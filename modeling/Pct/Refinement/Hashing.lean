import Pct.Refinement.Rfc3986

/-!
# Hashing and equality

With `memchr` the two hashes write the literal runs between the triplets, so the calls
a hasher sees depend on where the triplets of a text are, its layout. Without `memchr`
they write byte by byte and depend on the bytes only. Equal values therefore hash alike
in every hasher exactly without `memchr`, or when their layouts agree.
-/

namespace Pct

open Rust

variable {ε : Type} {B : Build ε}

/-! ## `hash_rfc3986` -/

/-- What `hash_rfc3986` writes for a triplet. -/
def emitNormal (hi lo : HexDigit) : List UInt8 := (Token.triplet hi lo).normalize.spelling

/-- The calls that `hash_rfc3986` makes, by configuration. -/
def hashRfc3986Calls (memchrFeature : Bool) (ts : List Token) : List HashCall :=
  if memchrFeature then (slices emitNormal [] ts).map .write
  else (spell (normalize ts)).map .writeU8

theorem Build.Lawful.hashRfc3986_spell (hB : B.Lawful) {σ : Type} (ts : List Token)
    (H : Hasher σ) (s : σ) : PctStr.hashRfc3986 B ⟨spell ts⟩ H s =
      .ok ((hashRfc3986Calls B.memchrFeature ts).foldl H.call s) := by
  unfold PctStr.hashRfc3986 hashRfc3986Calls
  split
  · rw [List.foldl_map]
    apply hB.copyRuns_or_write emitNormal
    intro s hi lo
    simp only [decodeTriplet_byte, Exec.ok_bind, isUnreservedByte_eq, toUpperHexByte_byte,
      emitNormal, Token.normalize]
    split <;> rfl
  · simp only [PctStr.bytesRfc3986_spell, Exec.ok_bind, Exec.pure_eq, List.foldl_map]
    rfl

/-- The slices of a text with normalized triplets are its normal form. -/
theorem flatten_slices_emitNormal (ts : List Token) :
    (slices emitNormal [] ts).flatten = spell (normalize ts) := by
  rw [flatten_slices, List.nil_append, spell, normalize, List.flatMap_map]
  congr 1
  funext t
  cases t <;> rfl

theorem flatMap_hashRfc3986Calls (memchrFeature : Bool) (ts : List Token) :
    (hashRfc3986Calls memchrFeature ts).flatMap HashCall.bytes = spell (normalize ts) := by
  unfold hashRfc3986Calls
  split
  · rw [List.flatMap_map, ← flatten_slices_emitNormal, ← List.flatMap_id]
    rfl
  · simp [List.flatMap_map, HashCall.bytes]

/-- The hasher that concatenates what it is given. -/
def collector : Hasher (List UInt8) where
  write input bs := input ++ bs
  writeU8 input b := input ++ [b]

theorem collector_call (input : List UInt8) (calls : List HashCall) :
    calls.foldl collector.call input = input ++ calls.flatMap HashCall.bytes := by
  induction calls generalizing input with
  | nil => simp
  | cons c calls ih =>
    have hcall : collector.call input c = input ++ c.bytes := by cases c <;> rfl
    rw [List.foldl_cons, hcall, ih, List.flatMap_cons, List.append_assoc]

/-- What `hash_rfc3986` feeds to any hasher is the normal form of a valid value, cut into
calls, and the concatenated inputs of two values agree exactly when `eq_rfc3986` holds. -/
theorem hashRfc3986_stream (hB : B.Lawful) :
    (∀ p : PctStr, p.Valid B → ∃ n, ∃ calls : List HashCall, p.bytesRfc3986 = .ok n ∧
      calls.flatMap HashCall.bytes = n ∧
      ∀ (σ : Type) (H : Hasher σ) (s : σ), p.hashRfc3986 B H s = .ok (calls.foldl H.call s)) ∧
    ∀ a b : PctStr, a.Valid B → b.Valid B → ∃ m n,
      a.hashRfc3986 B collector [] = .ok m ∧ b.hashRfc3986 B collector [] = .ok n ∧
      (m = n ↔ a.eqRfc3986 b = .ok true) := by
  constructor
  · intro p hp
    obtain ⟨ts, rfl, -⟩ := hp.exists_tokens hB
    exact ⟨_, _, PctStr.bytesRfc3986_spell ts, flatMap_hashRfc3986Calls _ ts,
      fun _ => hB.hashRfc3986_spell ts⟩
  · intro a b ha hb
    obtain ⟨ts, rfl, -⟩ := ha.exists_tokens hB
    obtain ⟨us, rfl, -⟩ := hb.exists_tokens hB
    refine ⟨_, _, hB.hashRfc3986_spell ts _ _, hB.hashRfc3986_spell us _ _, ?_⟩
    rw [collector_call, collector_call, flatMap_hashRfc3986Calls, flatMap_hashRfc3986Calls,
      PctStr.eqRfc3986_spell, List.nil_append, List.nil_append, spell_injective.eq_iff,
      Except.ok.injEq, decide_eq_true_iff]

theorem hashRfc3986_stream_letter :
    ∃ n, ∃ calls : List HashCall, PctStr.bytesRfc3986 ⟨[0x25, 0x36, 0x31]⟩ = .ok n ∧
      calls.flatMap HashCall.bytes = n ∧
      PctStr.hashRfc3986 (referenceBuild true false) ⟨[0x25, 0x36, 0x31]⟩ recorder [] =
        .ok (calls.foldl recorder.call []) := by
  have hB := referenceBuild_lawful true false
  obtain ⟨n, calls, hn, hcalls, hhash⟩ := (hashRfc3986_stream hB).1 _
    (hB.valid_of_ascii [tripletOf 0x61] (by simp))
  exact ⟨n, calls, hn, hcalls, hhash _ recorder []⟩

/-! ## Layouts -/

/-- Where the triplets of a text are. -/
def layout (ts : List Token) : List Bool := ts.map Token.isTriplet

@[simp] theorem layout_cons (t : Token) (ts : List Token) :
    layout (t :: ts) = t.isTriplet :: layout ts := rfl

/-- Two texts have as many tokens, and triplets at the same positions. -/
def SameLayout (bs cs : List UInt8) : Prop :=
  ∃ ts us, spell ts = bs ∧ spell us = cs ∧ layout ts = layout us

@[simp] theorem sameLayout_spell (ts us : List Token) :
    SameLayout (spell ts) (spell us) ↔ layout ts = layout us := by
  constructor
  · rintro ⟨ts', us', hts, hus, h⟩
    rwa [spell_injective hts, spell_injective hus] at h
  · exact fun h => ⟨ts, us, rfl, rfl, h⟩

/-- The layout of a text, read off the slices that are written for it. -/
def layoutOfSlices : List (List UInt8) → List Bool
  | [] => []
  | [run] => List.replicate run.length false
  | run :: _ :: slices => List.replicate run.length false ++ true :: layoutOfSlices slices

theorem layoutOfSlices_slices (emit : HexDigit → HexDigit → List UInt8) (run : List UInt8)
    (ts : List Token) : layoutOfSlices (slices emit run ts) =
      List.replicate run.length false ++ layout ts := by
  induction ts generalizing run with
  | nil => simp [slices, layoutOfSlices, layout]
  | cons t ts ih =>
    cases t with
    | literal b => simp [slices, ih, List.replicate_succ']
    | triplet hi lo => simp [slices, layoutOfSlices, ih]

/-- Slices that only depend on octets agree for texts of one layout and decoding. -/
theorem slices_congr {emit : HexDigit → HexDigit → List UInt8}
    (hemit : ∀ {hi lo hi' lo'}, (Token.triplet hi lo).octet = (Token.triplet hi' lo').octet →
      emit hi lo = emit hi' lo')
    (run : List UInt8) {ts us : List Token} (hlayout : layout ts = layout us)
    (hoctets : octets ts = octets us) : slices emit run ts = slices emit run us := by
  induction ts generalizing run us with
  | nil =>
    obtain rfl : us = [] := by simpa [octets] using hoctets.symm
    rfl
  | cons t ts ih =>
    cases us with
    | nil => simp at hoctets
    | cons u us =>
      rw [octets_cons, octets_cons, List.cons.injEq] at hoctets
      rw [layout_cons, layout_cons, List.cons.injEq] at hlayout
      obtain ⟨hoctet, hoctets⟩ := hoctets
      obtain ⟨htriplet, hlayout⟩ := hlayout
      cases t with
      | literal b =>
        cases u with
        | literal c =>
          rw [Token.octet_literal, Token.octet_literal] at hoctet
          simp only [slices, hoctet, ih _ hlayout hoctets]
        | triplet _ _ => cases htriplet
      | triplet hi lo =>
        cases u with
        | literal _ => cases htriplet
        | triplet hi' lo' => simp only [slices, hemit hoctet, ih _ hlayout hoctets]

theorem emitOctet_congr {hi lo hi' lo' : HexDigit}
    (h : (Token.triplet hi lo).octet = (Token.triplet hi' lo').octet) :
    emitOctet hi lo = emitOctet hi' lo' := by
  simp only [emitOctet, h]

theorem emitNormal_congr {hi lo hi' lo' : HexDigit}
    (h : (Token.triplet hi lo).octet = (Token.triplet hi' lo').octet) :
    emitNormal hi lo = emitNormal hi' lo' := by
  simp only [emitNormal, (Token.Equiv.triplet h).normalize_eq]

/-! ## Consistency -/

/-- Without `memchr` the calls follow from the octets, and with it from octets and
layout. -/
theorem hashCalls_congr {memchrFeature : Bool} {ts us : List Token}
    (hoctets : octets ts = octets us) (h : memchrFeature = false ∨ layout ts = layout us) :
    hashCalls memchrFeature ts = hashCalls memchrFeature us := by
  unfold hashCalls
  split
  · rw [slices_congr emitOctet_congr [] (by simp_all) hoctets]
  · rw [hoctets]

theorem hashRfc3986Calls_congr {memchrFeature : Bool} {ts us : List Token}
    (hnormal : normalize ts = normalize us) (h : memchrFeature = false ∨ layout ts = layout us) :
    hashRfc3986Calls memchrFeature ts = hashRfc3986Calls memchrFeature us := by
  unfold hashRfc3986Calls
  split
  · have hoctets : octets ts = octets us := by
      rw [← octets_normalize ts, hnormal, octets_normalize]
    rw [slices_congr emitNormal_congr [] (by simp_all) hoctets]
  · rw [hnormal]

/-- With `memchr` the calls show the layout. -/
theorem layout_eq_of_hashCalls {ts us : List Token} (h : hashCalls true ts = hashCalls true us) :
    layout ts = layout us := by
  have hslices : slices emitOctet [] ts = slices emitOctet [] us :=
    List.map_injective_iff.mpr (fun _ _ => HashCall.write.inj) h
  simpa [layoutOfSlices_slices] using congrArg layoutOfSlices hslices

/-- Equal values hash alike in every hasher, for both equalities, exactly without
`memchr`, or when they are not equal at all, or when their layouts agree. -/
theorem hash_consistent_iff (hB : B.Lawful) {a b : PctStr} (ha : a.Valid B) (hb : b.Valid B) :
    (∀ (σ : Type) (H : Hasher σ) (s : σ),
      (a.eq b = .ok true → ∃ s', a.hash B H s = .ok s' ∧ b.hash B H s = .ok s') ∧
      (a.eqRfc3986 b = .ok true →
        ∃ s', a.hashRfc3986 B H s = .ok s' ∧ b.hashRfc3986 B H s = .ok s')) ↔
      B.memchrFeature = false ∨ referenceDecode a.raw ≠ referenceDecode b.raw ∨
        SameLayout a.raw b.raw := by
  obtain ⟨ts, rfl, -⟩ := ha.exists_tokens hB
  obtain ⟨us, rfl, -⟩ := hb.exists_tokens hB
  simp only [PctStr.eq_spell, PctStr.eqRfc3986_spell, hB.hash_spell, hB.hashRfc3986_spell,
    referenceDecode_spell, sameLayout_spell, Except.ok.injEq, decide_eq_true_iff, ne_eq,
    Option.some.injEq, exists_eq_left']
  constructor
  · intro h
    by_cases hmemchr : B.memchrFeature = true
    · by_cases hoctets : octets ts = octets us
      · -- the recorder shows the calls, and they show the layout
        have hcalls := (h _ recorder []).1 hoctets
        rw [recorder_call, recorder_call, hmemchr] at hcalls
        exact .inr (.inr (layout_eq_of_hashCalls (List.append_cancel_left hcalls).symm))
      · exact .inr (.inl hoctets)
    · exact .inl (Bool.eq_false_iff.mpr hmemchr)
  · intro h σ H s
    have hcond (hoctets : octets ts = octets us) :
        B.memchrFeature = false ∨ layout ts = layout us := by
      rcases h with h | h | h
      · exact .inl h
      · exact absurd hoctets h
      · exact .inr h
    constructor
    · intro hoctets
      rw [hashCalls_congr hoctets (hcond hoctets)]
    · intro hnormal
      have hoctets : octets ts = octets us := by
        rw [← octets_normalize ts, hnormal, octets_normalize]
      rw [hashRfc3986Calls_congr hnormal (hcond hoctets)]

theorem hash_consistent_iff_scalar :
    ∃ s', PctStr.hash (referenceBuild false false) ⟨[0x61]⟩ recorder [] = .ok s' ∧
      PctStr.hash (referenceBuild false false) ⟨[0x25, 0x36, 0x31]⟩ recorder [] = .ok s' := by
  have hB := referenceBuild_lawful false false
  have hcalls := (hash_consistent_iff hB
    (hB.valid_of_ascii [.literal ⟨0x61, by decide⟩] (by simp))
    (hB.valid_of_ascii [tripletOf 0x61] (by simp))).mpr (.inl rfl)
  exact (hcalls _ recorder []).1 (PctStr.eq_spell _ _)

/-- The texts `a` and `%61` are equal under both equalities, and with `memchr` neither
hash makes the same calls for them. -/
theorem hash_of_spellings :
    PctStr.Valid (referenceBuild true false) ⟨[0x61]⟩ ∧
      PctStr.Valid (referenceBuild true false) ⟨[0x25, 0x36, 0x31]⟩ ∧
      PctStr.eq ⟨[0x61]⟩ ⟨[0x25, 0x36, 0x31]⟩ = .ok true ∧
      PctStr.eqRfc3986 ⟨[0x61]⟩ ⟨[0x25, 0x36, 0x31]⟩ = .ok true ∧
      PctStr.hash (referenceBuild true false) ⟨[0x61]⟩ recorder [] = .ok [.write [0x61]] ∧
      PctStr.hash (referenceBuild true false) ⟨[0x25, 0x36, 0x31]⟩ recorder [] =
        .ok [.write [], .write [0x61], .write []] ∧
      PctStr.hashRfc3986 (referenceBuild true false) ⟨[0x61]⟩ recorder [] =
        .ok [.write [0x61]] ∧
      PctStr.hashRfc3986 (referenceBuild true false) ⟨[0x25, 0x36, 0x31]⟩ recorder [] =
        .ok [.write [], .write [0x61], .write []] := by
  decide +kernel

end Pct
