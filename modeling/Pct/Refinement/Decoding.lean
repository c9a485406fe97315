import Pct.Refinement.Validation

/-!
# The decoders of a validated text

The values of `PctStr::new` are the spellings of token sequences with well-formed
octets. On such a text the iterator `Bytes` yields the octets, and a loop over the
positions of `%` is a fold over the tokens (`copyRuns_spec`): the positions split
the raw bytes into literal runs and triplets because no digit of a triplet is a `%`.
-/

namespace Pct

open Rust

variable {ε : Type} (B : Build ε)

/-! ## Valid values -/

/-- The values that `PctStr::new` produces. -/
def PctStr.Valid (p : PctStr) : Prop := PctStr.new B p.raw = .ok (.ok p)

instance (p : PctStr) : Decidable (p.Valid B) :=
  inferInstanceAs (Decidable (PctStr.new B p.raw = .ok (.ok p)))

variable {B}

theorem Build.Lawful.valid_iff (hB : B.Lawful) {p : PctStr} : p.Valid B ↔ Accepted p.raw := by
  unfold PctStr.Valid
  rw [hB.pctStr_new_eq]
  split <;> simp_all [AsRef.asRef]

theorem Build.Lawful.valid_of_ascii (hB : B.Lawful) (ts : List Token)
    (h : ∀ b ∈ octets ts, b < 0x80) : PctStr.Valid B ⟨spell ts⟩ :=
  hB.valid_iff.mpr (accepted_spell_of_ascii ts h)

/-- A valid value is the spelling of a token sequence with well-formed octets. -/
theorem PctStr.Valid.exists_tokens {p : PctStr} (hp : p.Valid B) (hB : B.Lawful) :
    ∃ ts, p = ⟨spell ts⟩ ∧ Utf8.WellFormed (octets ts) := by
  obtain ⟨ts, hts, hwf⟩ := accepted_iff.mp (hB.valid_iff.mp hp)
  exact ⟨ts, by rw [hts], hwf⟩

/-! ## The iterator `Bytes` -/

theorem Bytes.next_spell (t : Token) (bs : List UInt8) :
    Bytes.iter.next (t.spelling ++ bs) = .ok (some (t.octet, bs)) := by
  cases t with
  | literal b => simp [Bytes.iter, Bytes.next, b.ne_percent]
  | triplet hi lo => simp [Bytes.iter, Bytes.next, nextTwo]

theorem Bytes.collect_spell (ts : List Token) :
    Bytes.iter.collect (spell ts) = .ok (octets ts) := by
  induction ts with
  | nil => exact Iter.collect_nil _ rfl
  | cons t ts ih => rw [spell_cons, Iter.collect_cons _ (Bytes.next_spell t _), ih, Exec.map_ok,
      octets_cons]

@[simp] theorem PctStr.bytes_spell (ts : List Token) :
    PctStr.bytes ⟨spell ts⟩ = .ok (octets ts) := Bytes.collect_spell ts

/-- Equality of values is equality of the octets; the shortcut for equal raw bytes
agrees. -/
theorem PctStr.eq_spell (ts us : List Token) :
    PctStr.eq ⟨spell ts⟩ ⟨spell us⟩ = .ok (decide (octets ts = octets us)) := by
  unfold PctStr.eq
  split
  · rename_i hraw
    rw [spell_injective hraw, decide_eq_true rfl]
  · exact Iter.eq_of_collect _ _ (Bytes.collect_spell ts) (Bytes.collect_spell us)

/-! ## Copying runs -/

/-- The slices that a loop over the positions of `%` writes: the literal runs, `run`
being the current one, and between them what it emits for the triplets. -/
def slices (emit : HexDigit → HexDigit → List UInt8) (run : List UInt8) :
    List Token → List (List UInt8)
  | [] => [run]
  | .literal b :: ts => slices emit (run ++ [b.byte]) ts
  | .triplet hi lo :: ts => run :: emit hi lo :: slices emit [] ts

theorem flatten_slices (emit : HexDigit → HexDigit → List UInt8) (run : List UInt8)
    (ts : List Token) : (slices emit run ts).flatten = run ++ ts.flatMap fun
      | .literal b => [b.byte]
      | .triplet hi lo => emit hi lo := by
  induction ts generalizing run with
  | nil => simp [slices]
  | cons t ts ih => cases t <;> simp [slices, ih]

/-- The loop, when `done` is behind it and `run` is the run since the last triplet. -/
theorem copyRuns_spec {σ : Type} {write : σ → List UInt8 → σ}
    {triplet : σ → UInt8 → UInt8 → Exec σ} (emit : HexDigit → HexDigit → List UInt8)
    (h : ∀ s hi lo, triplet s hi.byte lo.byte = .ok (write s (emit hi lo)))
    (ts : List Token) (done run : List UInt8) (s : σ) :
    copyRuns write triplet (done ++ run ++ spell ts)
      ((spell ts).findIdxs (· == percent) (done.length + run.length)) done.length s =
      .ok ((slices emit run ts).foldl write s) := by
  induction ts generalizing done run s with
  | nil => simp [copyRuns, slices, sliceFrom]
  | cons t ts ih =>
    cases t with
    | literal b =>
      have ih := ih done (run ++ [b.byte]) s
      rw [spell_cons, Token.spelling_literal, List.singleton_append, findIdxs_skip b.ne_percent,
        slices]
      simpa [Nat.add_assoc] using ih
    | triplet hi lo =>
      have ih := ih (done ++ run ++ [percent, hi.byte, lo.byte]) []
        (write (write s run) (emit hi lo))
      obtain ⟨hi1, hi2⟩ := index_digits (done ++ run) (spell ts) percent hi.byte lo.byte
        (by simp : done.length + run.length = (done ++ run).length)
      rw [spell_cons, Token.spelling_triplet, List.cons_append, List.cons_append, List.cons_append,
        List.nil_append, findIdxs_percent, findIdxs_skip hi.byte_ne_percent,
        findIdxs_skip lo.byte_ne_percent, copyRuns, slice_append _ _ _ rfl rfl, Exec.ok_bind,
        hi1, Exec.ok_bind, hi2, Exec.ok_bind, h, Exec.ok_bind, slices, List.foldl_cons,
        List.foldl_cons]
      simpa [Nat.add_assoc] using ih

/-- A text without `%` is one run. -/
theorem slices_of_notMem (emit : HexDigit → HexDigit → List UInt8) (run : List UInt8)
    {ts : List Token} (h : percent ∉ spell ts) : slices emit run ts = [run ++ spell ts] := by
  induction ts generalizing run with
  | nil => simp [slices]
  | cons t ts ih =>
    cases t with
    | literal b =>
      have hts : percent ∉ spell ts := by
        rw [spell_cons, List.mem_append, not_or] at h
        exact h.2
      simp [slices, ih _ hts]
    | triplet hi lo => simp at h

/-! ## `decode` and `hash` -/

/-- What decoding emits for a triplet. -/
def emitOctet (hi lo : HexDigit) : List UInt8 := [(Token.triplet hi lo).octet]

theorem flatten_slices_emitOctet (ts : List Token) :
    (slices emitOctet [] ts).flatten = octets ts := by
  rw [flatten_slices, List.nil_append, octets, List.map_eq_flatMap]
  congr 1
  funext t
  cases t <;> rfl

/-- The calls of the two configurations of `Hash::hash`. -/
inductive HashCall where
  | write (bs : List UInt8)
  | writeU8 (b : UInt8)
  deriving DecidableEq, Repr

/-- The bytes of a call; `write_u8` writes one. -/
def HashCall.bytes : HashCall → List UInt8
  | write bs => bs
  | writeU8 b => [b]

def Hasher.call {σ : Type} (H : Hasher σ) (s : σ) : HashCall → σ
  | .write bs => H.write s bs
  | .writeU8 b => H.writeU8 s b

/-- The hasher that keeps a log of its calls. -/
def recorder : Hasher (List HashCall) where
  write log bs := log ++ [.write bs]
  writeU8 log b := log ++ [.writeU8 b]

theorem recorder_call (log calls : List HashCall) :
    calls.foldl recorder.call log = log ++ calls := by
  induction calls generalizing log with
  | nil => simp
  | cons c calls ih =>
    have hcall : recorder.call log c = log ++ [c] := by cases c <;> rfl
    rw [List.foldl_cons, hcall, ih, List.append_assoc, List.singleton_append]

/-- The calls that hashing a text makes, by configuration. -/
def hashCalls (memchrFeature : Bool) (ts : List Token) : List HashCall :=
  if memchrFeature then (slices emitOctet [] ts).map .write else (octets ts).map .writeU8

theorem flatMap_hashCalls (memchrFeature : Bool) (ts : List Token) :
    (hashCalls memchrFeature ts).flatMap HashCall.bytes = octets ts := by
  unfold hashCalls
  split
  · rw [List.flatMap_map, ← flatten_slices_emitOctet, ← List.flatMap_id]
    rfl
  · simp [List.flatMap_map, HashCall.bytes]

namespace Build.Lawful

variable (hB : B.Lawful)
include hB

/-- Both run-copying loops of the crate, over a whole text. -/
theorem copyRuns_spell {σ : Type} {write : σ → List UInt8 → σ}
    {triplet : σ → UInt8 → UInt8 → Exec σ} (emit : HexDigit → HexDigit → List UInt8)
    (h : ∀ s hi lo, triplet s hi.byte lo.byte = .ok (write s (emit hi lo)))
    (ts : List Token) (s : σ) :
    copyRuns write triplet (spell ts) (B.memchrIter percent (spell ts)) 0 s =
      .ok ((slices emit [] ts).foldl write s) := by
  rw [hB.memchrIter_eq]
  exact copyRuns_spec emit h ts [] [] s

/-- Both hashes write a text without `%` as one slice, which is its only run. -/
theorem copyRuns_or_write {σ : Type} {write : σ → List UInt8 → σ}
    {triplet : σ → UInt8 → UInt8 → Exec σ} (emit : HexDigit → HexDigit → List UInt8)
    (h : ∀ s hi lo, triplet s hi.byte lo.byte = .ok (write s (emit hi lo)))
    (ts : List Token) (s : σ) :
    (if (findPercent B (spell ts)).isNone then .ok (write s (spell ts))
      else copyRuns write triplet (spell ts) (B.memchrIter percent (spell ts)) 0 s) =
      .ok ((slices emit [] ts).foldl write s) := by
  split
  · rename_i hnone
    rw [slices_of_notMem _ _ (hB.isNone_findPercent.mp hnone)]
    rfl
  · exact hB.copyRuns_spell emit h ts s

theorem hash_spell {σ : Type} (ts : List Token) (H : Hasher σ) (s : σ) :
    PctStr.hash B ⟨spell ts⟩ H s = .ok ((hashCalls B.memchrFeature ts).foldl H.call s) := by
  unfold PctStr.hash hashCalls
  split
  · rw [List.foldl_map]
    apply hB.copyRuns_or_write emitOctet
    intro s hi lo
    simp [emitOctet]
  · simp only [PctStr.bytes_spell, Exec.ok_bind, Exec.pure_eq, List.foldl_map]
    rfl

/-- Decoding builds the text of the octets, in every configuration. -/
theorem decode_spell {ts : List Token} {cs : List Char} (h : Utf8.encode cs = octets ts) :
    PctStr.decode B ⟨spell ts⟩ = .ok (String.ofList cs) := by
  unfold PctStr.decode
  split
  · rename_i hnone
    have hraw : spell ts = Utf8.encode cs := by
      have := referenceDecode_of_notMem (hB.isNone_findPercent.mp hnone)
      rw [referenceDecode_spell] at this
      rw [h, Option.some.inj this]
    rw [PctStr.asStr, hraw, fromUtf8Unchecked_encode]
  · have hloop : copyRuns (· ++ ·) (fun out h1 h2 => do return out ++ [← decodeTriplet h1 h2])
        (spell ts) (B.memchrIter percent (spell ts)) 0 [] = .ok (octets ts) := by
      rw [hB.copyRuns_spell emitOctet (fun s hi lo => by simp [emitOctet]),
        ← flatten_slices_emitOctet]
      simpa using @List.foldl_append_eq_append _ _ (slices emitOctet [] ts) id []
    split
    · rw [hloop, Exec.ok_bind, ← h]
      exact fromUtf8Unchecked_encode cs
    · rw [PctStr.bytes_spell, Exec.ok_bind, ← h]
      exact fromUtf8Unchecked_encode cs

theorem chars_spell {ts : List Token} {cs : List Char} (h : Utf8.encode cs = octets ts) :
    PctStr.chars B ⟨spell ts⟩ = .ok cs := by
  rw [PctStr.chars, PctStr.bytes_spell, Exec.ok_bind, ← h, hB.decoder_yields, mapM_unwrapOk]

end Build.Lawful

/-- The untrusted iterator, `bytes`, `decode` and the calls of `hash` all produce the
reference decoding of a valid value, and none of them faults. -/
theorem decoders_agree (hB : B.Lawful) {p : PctStr} (hp : p.Valid B) :
    ∃ os, referenceDecode p.raw = some os ∧ Utf8.WellFormed os ∧
      (TryEncodedBytes.iter (ε := ε)).collect p.raw = .ok (os.map .ok) ∧
      p.bytes = .ok os ∧
      (∃ s, p.decode B = .ok s ∧ Utf8.encode s.toList = os) ∧
      ∃ calls : List HashCall, calls.flatMap HashCall.bytes = os ∧
        ∀ (σ : Type) (H : Hasher σ) (s : σ), p.hash B H s = .ok (calls.foldl H.call s) := by
  obtain ⟨ts, rfl, cs, hcs⟩ := hp.exists_tokens hB
  refine ⟨octets ts, referenceDecode_spell ts, ⟨cs, hcs⟩, ?_, PctStr.bytes_spell ts, ?_, ?_⟩
  · obtain ⟨items, hitems⟩ := TryEncodedBytes.collect_total (ε := ε) (spell ts)
    have hos := (TryEncodedBytes.collect_eq_ok hitems _).mpr (referenceDecode_spell ts)
    rw [hitems, hos]
  · exact ⟨_, hB.decode_spell hcs, by rw [String.toList_ofList, hcs]⟩
  · exact ⟨hashCalls B.memchrFeature ts, flatMap_hashCalls _ ts, fun _ => hB.hash_spell ts⟩

theorem decoders_agree_triplet :
    ∃ os, referenceDecode [0x25, 0x34, 0x31, 0x62] = some os ∧
      PctStr.bytes ⟨[0x25, 0x34, 0x31, 0x62]⟩ = .ok os := by
  have hB := referenceBuild_lawful true false
  obtain ⟨os, hos, -, -, hbytes, -⟩ := decoders_agree hB
    (hB.valid_of_ascii [tripletOf 0x41, .literal ⟨0x62, by decide⟩] (by simp))
  exact ⟨os, hos, hbytes⟩

end Pct
