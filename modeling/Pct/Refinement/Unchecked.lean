import Pct.Library.Calls
import Pct.Refinement.Hashing
import Pct.Source.Interface

/-!
# Values that were never checked

`new_unchecked` makes a value of any bytes. What the rest of the crate then relies on is
that every `%` starts a triplet, and for decoding that the octets are UTF-8. Both are
needed: at the first defect (`frontTokens_cases`) each of the iterators and loops faults, in
every configuration that checks its debug assertions.
-/

namespace Pct

open Rust

variable {ε : Type} {B : Build ε}

/-! ## Defects -/

/-- No triplet starts in front of these bytes. -/
def Defect (rest : List UInt8) : Prop :=
  ∀ a b rest', rest = a :: b :: rest' → ¬ (isHexDigit a = true ∧ isHexDigit b = true)

/-- The tokens in front of the first defect. -/
def frontTokens : List UInt8 → List Token
  | [] => []
  | b :: rest =>
    if hb : b = percent then
      match rest with
      | h1 :: h2 :: rest =>
        if h : isHexDigit h1 = true ∧ isHexDigit h2 = true then
          .ofDigits h :: frontTokens rest
        else []
      | _ => []
    else .literal ⟨b, hb⟩ :: frontTokens rest

/-- Every `%` starts a triplet. -/
def Spelled (bs : List UInt8) : Prop := ∃ ts, spell ts = bs

/-- In front of bytes that are spelled by tokens there is no defect, -/
theorem frontTokens_cases (bs : List UInt8) :
    spell (frontTokens bs) = bs ∨
      ∃ rest, bs = spell (frontTokens bs) ++ percent :: rest ∧ Defect rest := by
  fun_induction frontTokens bs with
  | case1 => exact .inl rfl
  | case2 a b rest hd ih =>
    obtain heq | ⟨rest', heq, hdefect⟩ := ih
    · exact .inl (by simp [heq])
    · exact .inr ⟨rest', by simp [← heq], hdefect⟩
  | case3 a b rest hd =>
    refine .inr ⟨a :: b :: rest, rfl, ?_⟩
    rintro _ _ _ ⟨⟩
    exact hd
  | case4 rest hrest => exact .inr ⟨rest, rfl, fun a b rest' h => (hrest a b rest' h).elim⟩
  | case5 b rest hb ih =>
    obtain heq | ⟨rest', heq, hdefect⟩ := ih
    · exact .inl (by simp [heq])
    · exact .inr ⟨rest', by simp [← heq], hdefect⟩

/-- The assertion fails on a malformed triplet. -/
theorem decodeTriplet_eq_error {a b : UInt8} (h : ¬ (isHexDigit a = true ∧ isHexDigit b = true)) :
    decodeTriplet a b = .error .debugAssertion := by
  have hcheck : (hexVal a != 0xFF && hexVal b != 0xFF) = false := by
    rw [Bool.eq_false_iff]
    simpa [hexVal_eq_ff] using h
  simp [decodeTriplet, hcheck, debugAssert]

/-- So does everything that goes on with the octet. -/
theorem decodeTriplet_bind_eq_error {α : Type} {a b : UInt8}
    (h : ¬ (isHexDigit a = true ∧ isHexDigit b = true)) (k : UInt8 → Exec α) :
    ∃ e, decodeTriplet a b >>= k = .error e := by
  rw [decodeTriplet_eq_error h, Exec.error_bind]
  exact ⟨_, rfl⟩

/-! ## The iterators -/

theorem Bytes.next_defect {rest : List UInt8} (h : Defect rest) :
    ∃ e, Bytes.iter.next (percent :: rest) = .error e := by
  match rest with
  | [] => exact ⟨_, rfl⟩
  | [_] => exact ⟨_, rfl⟩
  | a :: b :: rest =>
    refine ⟨.debugAssertion, ?_⟩
    simp [Bytes.iter, Bytes.next, nextTwo, decodeTriplet_eq_error (h a b rest rfl)]

theorem Bytes.stops_defect (ts : List Token) {rest : List UInt8} (h : Defect rest) :
    Bytes.iter.Stops (spell ts ++ percent :: rest) (octets ts) true := by
  induction ts with
  | nil =>
    obtain ⟨e, he⟩ := Bytes.next_defect h
    exact .fault he
  | cons t ts ih =>
    rw [spell_cons, List.append_assoc]
    exact .cons (Bytes.next_spell t _) ih

/-- Tokens with a defect behind them are no tokens. -/
theorem not_spelled (ts : List Token) {rest : List UInt8} (h : Defect rest) :
    ¬ Spelled (spell ts ++ percent :: rest) := by
  rintro ⟨us, hus⟩
  have hcollect := Bytes.collect_spell us
  obtain ⟨e, he⟩ := (Bytes.stops_defect ts h).collect_error
  rw [hus, he] at hcollect
  cases hcollect

namespace Rfc3986Bytes

theorem next_defect {s : Rfc3986Bytes} (hs : s.Drained) {rest : List UInt8}
    (hiter : s.iter = percent :: rest) (h : Defect rest) : ∃ e, iterator.next s = .error e := by
  have hpos : ¬ s.pendingPos < s.pendingLen := Nat.not_lt.mpr hs
  match rest with
  | [] => exact ⟨.unwrapFailed, by simp [iterator, next, hpos, hiter, nextTwo]⟩
  | [_] => exact ⟨.unwrapFailed, by simp [iterator, next, hpos, hiter, nextTwo]⟩
  | a :: b :: rest =>
    refine ⟨.debugAssertion, ?_⟩
    simp [iterator, next, hpos, hiter, nextTwo, decodeTriplet_eq_error (h a b rest rfl)]

theorem stops_defect (ts : List Token) {s : Rfc3986Bytes} (hs : s.Drained)
    {rest : List UInt8} (hiter : s.iter = spell ts ++ percent :: rest) (h : Defect rest) :
    iterator.Stops s (spell (normalize ts)) true := by
  induction ts generalizing s with
  | nil =>
    obtain ⟨e, he⟩ := next_defect hs hiter h
    exact .fault he
  | cons t ts ih =>
    rw [normalize_cons, spell_cons]
    cases t with
    | literal b => exact .cons (next_literal hs hiter) (ih hs rfl)
    | triplet hi lo =>
      have hnext := next_triplet hs hiter
      by_cases hu : isUnreserved (Token.triplet hi lo).octet = true
      · rw [if_pos hu] at hnext
        rw [Token.normalize, dif_pos hu]
        exact .cons hnext (ih hs rfl)
      · -- the two pending bytes are still yielded
        rw [if_neg hu] at hnext
        rw [Token.normalize, dif_neg hu]
        exact .cons hnext (.cons rfl (.cons rfl (ih (Nat.le_refl 2) rfl)))

end Rfc3986Bytes

/-! ## The loops over the positions of `%` -/

/-- At the first defect a digit is missing, or the triplet is refused. -/
theorem copyRuns_defect {σ : Type} {write : σ → List UInt8 → σ}
    {triplet : σ → UInt8 → UInt8 → Exec σ} (emit : HexDigit → HexDigit → List UInt8)
    (hok : ∀ s hi lo, triplet s hi.byte lo.byte = .ok (write s (emit hi lo)))
    (hbad : ∀ s a b, ¬ (isHexDigit a = true ∧ isHexDigit b = true) →
      ∃ e, triplet s a b = .error e)
    (ts : List Token) (done run : List UInt8) (s : σ) {rest : List UInt8} (h : Defect rest) :
    ∃ e, copyRuns write triplet (done ++ run ++ (spell ts ++ percent :: rest))
      ((spell ts ++ percent :: rest).findIdxs (· == percent) (done.length + run.length))
      done.length s = .error e := by
  induction ts generalizing done run s with
  | nil =>
    rw [spell_nil, List.nil_append, findIdxs_percent, copyRuns, slice_append _ _ _ rfl rfl,
      Exec.ok_bind]
    rcases rest with _ | ⟨a, _ | ⟨b, rest⟩⟩
    · rw [index_eq_error (by simp [Nat.add_assoc])]
      exact ⟨_, rfl⟩
    · have hi1 := index_append (done ++ run ++ [percent]) [] a (i := done.length + run.length + 1)
        (by simp [Nat.add_assoc])
      rw [List.append_assoc _ [percent], List.singleton_append] at hi1
      rw [hi1, Exec.ok_bind, index_eq_error (by simp [Nat.add_assoc])]
      exact ⟨_, rfl⟩
    · obtain ⟨hi1, hi2⟩ := index_digits (done ++ run) rest percent a b
        (by simp : done.length + run.length = (done ++ run).length)
      obtain ⟨e, he⟩ := hbad (write s run) a b (h a b rest rfl)
      exact ⟨e, by rw [hi1, Exec.ok_bind, hi2, Exec.ok_bind, he, Exec.error_bind]⟩
  | cons t ts ih =>
    cases t with
    | literal b =>
      have ih := ih done (run ++ [b.byte]) s
      rw [spell_cons, Token.spelling_literal, List.singleton_append, List.cons_append,
        findIdxs_skip b.ne_percent]
      simpa [Nat.add_assoc] using ih
    | triplet hi lo =>
      have ih := ih (done ++ run ++ [percent, hi.byte, lo.byte]) []
        (write (write s run) (emit hi lo))
      obtain ⟨hi1, hi2⟩ := index_digits (done ++ run) (spell ts ++ percent :: rest) percent hi.byte
        lo.byte (by simp : done.length + run.length = (done ++ run).length)
      have hcons : spell (.triplet hi lo :: ts) ++ percent :: rest =
          percent :: hi.byte :: lo.byte :: (spell ts ++ percent :: rest) := by simp
      rw [hcons, findIdxs_percent, findIdxs_skip hi.byte_ne_percent,
        findIdxs_skip lo.byte_ne_percent, copyRuns, slice_append _ _ _ rfl rfl, Exec.ok_bind, hi1,
        Exec.ok_bind, hi2, Exec.ok_bind, hok, Exec.ok_bind]
      simpa [Nat.add_assoc] using ih

/-! ## The contract of `new_unchecked` -/

/-- A call that returns on tokens and faults at a defect does what it is for on exactly the
spelled bytes. -/
theorem returns_iff_spelled {α : Type} (call : List UInt8 → Exec α) {bs : List UInt8}
    (hok : ∀ ts, Exec.Returns (call (spell ts)))
    (hbad : ∀ ts rest, Defect rest → ∃ e, call (spell ts ++ percent :: rest) = .error e) :
    Exec.Returns (call bs) ↔ Spelled bs := by
  constructor
  · intro h
    obtain heq | ⟨rest, heq, hdefect⟩ := frontTokens_cases bs
    · exact ⟨_, heq⟩
    · rw [heq] at h
      exact absurd h (Exec.not_returns (hbad _ rest hdefect))
  · rintro ⟨ts, rfl⟩
    exact hok ts

theorem PctStr.returns_bytes (bs : List UInt8) : Exec.Returns (PctStr.bytes ⟨bs⟩) ↔ Spelled bs :=
  returns_iff_spelled (fun bs => PctStr.bytes ⟨bs⟩) (fun ts => ⟨_, PctStr.bytes_spell ts⟩)
    fun ts _ h => (Bytes.stops_defect ts h).collect_error

theorem PctStr.returns_len (bs : List UInt8) : Exec.Returns (PctStr.len ⟨bs⟩) ↔ Spelled bs := by
  rw [PctStr.len, Exec.returns_bind_pure, PctStr.returns_bytes]

theorem PctStr.returns_bytesRfc3986 (bs : List UInt8) :
    Exec.Returns (PctStr.bytesRfc3986 ⟨bs⟩) ↔ Spelled bs :=
  returns_iff_spelled (fun bs => PctStr.bytesRfc3986 ⟨bs⟩)
    (fun ts => ⟨_, PctStr.bytesRfc3986_spell ts⟩) fun ts _ h =>
      (Rfc3986Bytes.stops_defect ts (s := .new _) (Nat.le_refl 0) rfl h).collect_error

namespace Build.Lawful

variable (hB : B.Lawful)
include hB

theorem not_isNone_findPercent (pre rest : List UInt8) :
    ¬ (findPercent B (pre ++ percent :: rest)).isNone = true := by
  rw [hB.isNone_findPercent]
  simp

theorem copyRuns_eq_error {σ : Type} {write : σ → List UInt8 → σ}
    {triplet : σ → UInt8 → UInt8 → Exec σ} (emit : HexDigit → HexDigit → List UInt8)
    (hok : ∀ s hi lo, triplet s hi.byte lo.byte = .ok (write s (emit hi lo)))
    (hbad : ∀ s a b, ¬ (isHexDigit a = true ∧ isHexDigit b = true) →
      ∃ e, triplet s a b = .error e)
    (ts : List Token) {rest : List UInt8} (h : Defect rest) (s : σ) :
    ∃ e, copyRuns write triplet (spell ts ++ percent :: rest)
      (B.memchrIter percent (spell ts ++ percent :: rest)) 0 s = .error e := by
  rw [hB.memchrIter_eq]
  exact copyRuns_defect emit hok hbad ts [] [] s h

theorem returns_hash {σ : Type} (H : Hasher σ) (s : σ) (bs : List UInt8) :
    Exec.Returns (PctStr.hash B ⟨bs⟩ H s) ↔ Spelled bs := by
  refine returns_iff_spelled (fun bs => PctStr.hash B ⟨bs⟩ H s)
    (fun ts => ⟨_, hB.hash_spell ts H s⟩) ?_
  intro ts rest h
  simp only [PctStr.hash]
  split
  · rw [if_neg (hB.not_isNone_findPercent _ _)]
    exact hB.copyRuns_eq_error emitOctet (fun s hi lo => by simp [emitOctet])
      (fun s a b hab => decodeTriplet_bind_eq_error hab _) ts h s
  · obtain ⟨e, he⟩ := (Bytes.stops_defect ts h).collect_error
    rw [PctStr.bytes, he]
    exact ⟨e, rfl⟩

theorem returns_hashRfc3986 {σ : Type} (H : Hasher σ) (s : σ) (bs : List UInt8) :
    Exec.Returns (PctStr.hashRfc3986 B ⟨bs⟩ H s) ↔ Spelled bs := by
  refine returns_iff_spelled (fun bs => PctStr.hashRfc3986 B ⟨bs⟩ H s)
    (fun ts => ⟨_, hB.hashRfc3986_spell ts H s⟩) ?_
  intro ts rest h
  simp only [PctStr.hashRfc3986]
  split
  · rw [if_neg (hB.not_isNone_findPercent _ _)]
    refine hB.copyRuns_eq_error emitNormal ?_
      (fun s a b hab => decodeTriplet_bind_eq_error hab _) ts h s
    intro s hi lo
    simp only [decodeTriplet_byte, Exec.ok_bind, isUnreservedByte_eq, toUpperHexByte_byte,
      emitNormal, Token.normalize]
    split <;> rfl
  · have hstops := Rfc3986Bytes.stops_defect ts (s := .new _) (Nat.le_refl 0) rfl h
    obtain ⟨e, he⟩ := hstops.collect_error
    rw [PctStr.bytesRfc3986, he]
    exact ⟨e, rfl⟩

/-- Decoding builds the octets and takes them for UTF-8. -/
theorem decode_tokens (ts : List Token) :
    PctStr.decode B ⟨spell ts⟩ = fromUtf8Unchecked (octets ts) := by
  unfold PctStr.decode
  split
  · rename_i hnone
    have hraw := referenceDecode_of_notMem (hB.isNone_findPercent.mp hnone)
    rw [referenceDecode_spell, Option.some.injEq] at hraw
    rw [PctStr.asStr, hraw]
  · split
    · rw [hB.copyRuns_spell emitOctet (fun s hi lo => by simp [emitOctet]), Exec.ok_bind]
      have hflatten := @List.foldl_append_eq_append _ _ (slices emitOctet [] ts) id []
      rw [← flatten_slices_emitOctet ts]
      simpa using congrArg fromUtf8Unchecked hflatten
    · rw [PctStr.bytes_spell, Exec.ok_bind]

theorem decode_defect (ts : List Token) {rest : List UInt8} (h : Defect rest) :
    ∃ e, PctStr.decode B ⟨spell ts ++ percent :: rest⟩ = .error e := by
  simp only [PctStr.decode, if_neg (hB.not_isNone_findPercent (spell ts) rest)]
  split
  · have hloop : ∃ e, copyRuns (· ++ ·)
        (fun out h1 h2 => do return out ++ [← decodeTriplet h1 h2]) (spell ts ++ percent :: rest)
        (B.memchrIter percent (spell ts ++ percent :: rest)) 0 [] = .error e :=
      hB.copyRuns_eq_error emitOctet (fun s hi lo => by simp [emitOctet])
        (fun s a b hab => decodeTriplet_bind_eq_error hab _)
        ts h []
    obtain ⟨e, he⟩ := hloop
    exact ⟨e, by rw [he, Exec.error_bind]⟩
  · obtain ⟨e, he⟩ := (Bytes.stops_defect ts h).collect_error
    exact ⟨e, by rw [PctStr.bytes, he, Exec.error_bind]⟩

end Build.Lawful

theorem returns_fromUtf8Unchecked (bs : List UInt8) :
    Exec.Returns (fromUtf8Unchecked bs) ↔ Utf8.WellFormed bs := by
  simp only [Exec.Returns, fromUtf8Unchecked_eq_ok]
  constructor
  · rintro ⟨s, hs⟩
    exact ⟨s.toList, hs⟩
  · rintro ⟨cs, hcs⟩
    exact ⟨String.ofList cs, by rwa [String.toList_ofList]⟩

theorem Build.Lawful.returns_decode (hB : B.Lawful) (bs : List UInt8) :
    Exec.Returns (PctStr.decode B ⟨bs⟩) ↔ Accepted bs := by
  obtain heq | ⟨rest, heq, hdefect⟩ := frontTokens_cases bs
  · rw [← heq, hB.decode_tokens, returns_fromUtf8Unchecked, accepted_spell]
  · rw [heq]
    refine iff_of_false (Exec.not_returns (hB.decode_defect _ hdefect)) ?_
    intro haccepted
    obtain ⟨ts, hts, -⟩ := accepted_iff.mp haccepted
    exact not_spelled _ hdefect ⟨ts, hts⟩

/-- What the calls on a value that was never checked rely on, exactly, to neither panic nor
take ill-formed bytes for text: the ones that walk over the bytes on the triplets, decoding
on the validity that the constructors check, and reading the raw text on the bytes being
UTF-8. No build that checks debug assertions asks for more or for less. -/
theorem unchecked_returns_iff (hB : B.Lawful) (p : PctStr) :
    (Exec.Returns p.bytes ↔ Spelled p.raw) ∧ (Exec.Returns p.len ↔ Spelled p.raw) ∧
      (Exec.Returns p.bytesRfc3986 ↔ Spelled p.raw) ∧
      (∀ (σ : Type) (H : Hasher σ) (s : σ), Exec.Returns (p.hash B H s) ↔ Spelled p.raw) ∧
      (∀ (σ : Type) (H : Hasher σ) (s : σ),
        Exec.Returns (p.hashRfc3986 B H s) ↔ Spelled p.raw) ∧
      (Exec.Returns (p.decode B) ↔ p.Valid B) ∧
      (Exec.Returns p.asStr ↔ Utf8.WellFormed p.raw) :=
  ⟨PctStr.returns_bytes p.raw, PctStr.returns_len p.raw, PctStr.returns_bytesRfc3986 p.raw,
    fun _ H s => hB.returns_hash H s p.raw, fun _ H s => hB.returns_hashRfc3986 H s p.raw,
    (hB.returns_decode p.raw).trans hB.valid_iff.symm, returns_fromUtf8Unchecked p.raw⟩

theorem unchecked_returns_iff_cut :
    Exec.Returns (PctStr.newUnchecked [0x61, (0x25 : UInt8)]).bytes ↔ Spelled [0x61, 0x25] :=
  (unchecked_returns_iff (referenceBuild_lawful true false) (.newUnchecked [0x61, 0x25])).1

end Pct
