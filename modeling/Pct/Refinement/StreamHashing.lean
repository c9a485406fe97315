import Pct.Refinement.Hashing

/-!
# Hashers that only see a stream

A hasher is free to tell apart how its input was cut into writes, and then equal values of
different layouts may hash differently. A streaming hasher does not: its state follows from
the bytes alone. For such hashers the two hashes depend on what they are meant to depend on,
the decoded text and the normal form, and on nothing else, not on the build either.
-/

namespace Pct

open Rust

/-- The state follows from the bytes written, and `write_u8` writes one as by default. -/
structure Hasher.Streaming {σ : Type} (H : Hasher σ) : Prop where
  write_nil : ∀ s, H.write s [] = s
  write_append : ∀ s xs ys, H.write s (xs ++ ys) = H.write (H.write s xs) ys
  writeU8_eq : ∀ s b, H.writeU8 s b = H.write s [b]

theorem collector_streaming : collector.Streaming where
  write_nil := List.append_nil
  write_append s xs ys := (List.append_assoc s xs ys).symm
  writeU8_eq _ _ := rfl

namespace Hasher.Streaming

variable {σ : Type} {H : Hasher σ} (hH : H.Streaming)
include hH

theorem call_eq (s : σ) (c : HashCall) : H.call s c = H.write s c.bytes := by
  cases c with
  | write bs => rfl
  | writeU8 b => exact hH.writeU8_eq s b

/-- Calls write their bytes, one after the other. -/
theorem foldl_call (calls : List HashCall) (s : σ) :
    calls.foldl H.call s = H.write s (calls.flatMap HashCall.bytes) := by
  induction calls generalizing s with
  | nil => exact (hH.write_nil s).symm
  | cons c calls ih => rw [List.foldl_cons, List.flatMap_cons, hH.write_append, ← hH.call_eq, ih]

variable {ε : Type} {B : Build ε} (hB : B.Lawful)
include hB

theorem hash_spell (ts : List Token) (s : σ) :
    PctStr.hash B ⟨spell ts⟩ H s = .ok (H.write s (octets ts)) := by
  rw [hB.hash_spell, hH.foldl_call, flatMap_hashCalls]

theorem hashRfc3986_spell (ts : List Token) (s : σ) :
    PctStr.hashRfc3986 B ⟨spell ts⟩ H s = .ok (H.write s (spell (normalize ts))) := by
  rw [hB.hashRfc3986_spell, hH.foldl_call, flatMap_hashRfc3986Calls]

end Hasher.Streaming

/-- In a streaming hasher a value hashes as its decoded text and as its normal form, in
every build, so values that are equal hash alike under both equalities, even when they are
hashed in different builds. -/
theorem hash_streaming {ε ε' : Type} {B : Build ε} {B' : Build ε'} (hB : B.Lawful)
    (hB' : B'.Lawful) {σ : Type} {H : Hasher σ} (hH : H.Streaming) :
    (∀ p : PctStr, p.Valid B → ∃ (t : String) (n : List UInt8), p.decode B = .ok t ∧
      p.bytesRfc3986 = .ok n ∧
      (∀ s, p.hash B H s = .ok (H.write s (Utf8.encode t.toList))) ∧
      ∀ s, p.hashRfc3986 B H s = .ok (H.write s n)) ∧
    ∀ p q : PctStr, p.Valid B → q.Valid B' → ∀ s,
      (p.eq q = .ok true → p.hash B H s = q.hash B' H s) ∧
      (p.eqRfc3986 q = .ok true → p.hashRfc3986 B H s = q.hashRfc3986 B' H s) := by
  constructor
  · intro p hp
    obtain ⟨ts, rfl, cs, hcs⟩ := hp.exists_tokens hB
    refine ⟨_, _, hB.decode_spell hcs, PctStr.bytesRfc3986_spell ts, ?_,
      hH.hashRfc3986_spell hB ts⟩
    intro s
    rw [hH.hash_spell hB, String.toList_ofList, hcs]
  · intro p q hp hq s
    obtain ⟨ts, rfl, -⟩ := hp.exists_tokens hB
    obtain ⟨us, rfl, -⟩ := hq.exists_tokens hB'
    rw [hH.hash_spell hB, hH.hash_spell hB', hH.hashRfc3986_spell hB, hH.hashRfc3986_spell hB',
      PctStr.eq_spell, PctStr.eqRfc3986_spell]
    simp only [Except.ok.injEq, decide_eq_true_iff]
    exact ⟨fun h => by rw [h], fun h => by rw [h]⟩

/-- The values that the recorder tells apart, hashed with and without `memchr`. -/
theorem hash_streaming_letter :
    PctStr.hash (referenceBuild true false) ⟨[0x61]⟩ collector [] =
      PctStr.hash (referenceBuild false false) ⟨[0x25, 0x36, 0x31]⟩ collector [] := by
  have hB := referenceBuild_lawful true false
  have hB' := referenceBuild_lawful false false
  have hhash := (hash_streaming hB hB' collector_streaming).2 ⟨[0x61]⟩ ⟨[0x25, 0x36, 0x31]⟩
    (hB.valid_of_ascii [.literal ⟨0x61, by decide⟩] (by simp))
    (hB'.valid_of_ascii [tripletOf 0x61] (by simp)) []
  exact hhash.1 (PctStr.eq_spell [.literal ⟨0x61, by decide⟩] [tripletOf 0x61])

end Pct
