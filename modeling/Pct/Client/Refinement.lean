import Pct.Client.Meaning
import Pct.Refinement.Comparing
import Pct.Refinement.Contract

/-!
# Sessions refine their meaning

Every call on the bytes of texts does what its meaning says, in every lawful build, the
undefined behaviour of reading a split raw text included. So a session with the crate and
its meaning go through the same responses (`run_refines`), and two builds of the crate
cannot be told apart (`run_build_independent`).
-/

namespace Pct

open Rust

variable {ε ε' : Type} {B : Build ε} {B' : Build ε'}

namespace Client

/-! ## Single values -/

theorem asStr_raw (t : Text) : PctStr.asStr ⟨t.raw⟩ = Meaning.read t := rfl

theorem intoString_raw (t : Text) : PctString.intoString ⟨t.raw⟩ = Meaning.read t := asStr_raw t

theorem isEmpty_raw (t : Text) : t.raw.isEmpty = t.chars.isEmpty := by
  rw [Bool.eq_iff_iff, List.isEmpty_iff, List.isEmpty_iff, Text.raw_eq_nil]

theorem hash_of (hB : B.Lawful) (a : Holding) :
    (Entry.of a).hash B = .ok (Utf8.encode a.text.chars) := by
  have hslice : PctStr.hash B ⟨a.text.raw⟩ collector [] = .ok (Utf8.encode a.text.chars) := by
    rw [Text.raw, hB.hash_spell, collector_call, flatMap_hashCalls, Text.encode_chars,
      List.nil_append]
  obtain ⟨kind, t⟩ := a
  cases kind <;> exact hslice

theorem hashRfc3986_raw (hB : B.Lawful) (t : Text) :
    PctStr.hashRfc3986 B ⟨t.raw⟩ collector [] = .ok t.normal.raw := by
  rw [Text.raw, hB.hashRfc3986_spell, collector_call, flatMap_hashRfc3986Calls, List.nil_append]
  rfl

theorem eqStr_of (other : String) (a : Holding) :
    (Entry.of a).eqStr other = .ok (decide (a.text.chars = other.toList)) := by
  have hslice : PctStr.eqStr ⟨a.text.raw⟩ other =
      .ok (decide (a.text.chars = other.toList)) := by
    simp only [Text.raw, PctStr.eqStr_spell, ← Text.encode_chars, Utf8.encode_injective.eq_iff]
  obtain ⟨kind, t⟩ := a
  cases kind <;> exact hslice

/-- A call on one value does what it means. -/
theorem view_of (hB : B.Lawful) (a : Holding) (v : View) :
    (Entry.of a).view B v = Meaning.view a.text v := by
  have hchars := a.text.encode_chars
  cases v with
  | asStr => simp only [Entry.view, Entry.pctStr_of, asStr_raw, Meaning.view]
  | asBytes => simp only [Entry.view, Entry.pctStr_of, PctStr.asBytes, Meaning.view]
  | isEmpty => simp only [Entry.view, Entry.pctStr_of, PctStr.isEmpty, isEmpty_raw, Meaning.view]
  | len =>
    simp only [Entry.view, Entry.pctStr_of, Text.raw, PctStr.len_spell hchars, Exec.map_ok,
      Meaning.view]
  | decode =>
    simp only [Entry.view, Entry.pctStr_of, Text.raw, hB.decode_spell hchars, Exec.map_ok,
      Meaning.view]
  | bytes =>
    simp only [Entry.view, Entry.pctStr_of, Text.raw, PctStr.bytes_spell, Exec.map_ok,
      Meaning.view, hchars]
  | chars =>
    simp only [Entry.view, Entry.pctStr_of, Text.raw, hB.chars_spell hchars, Exec.map_ok,
      Meaning.view]
  | bytesRfc3986 =>
    simp only [Entry.view, Entry.pctStr_of, Text.raw, PctStr.bytesRfc3986_spell, Exec.map_ok,
      Meaning.view, Text.normal]
  | hash => simp only [Entry.view, hash_of hB, Exec.map_ok, Meaning.view]
  | hashRfc3986 =>
    simp only [Entry.view, Entry.pctStr_of, hashRfc3986_raw hB, Exec.map_ok, Meaning.view]
  | eqStr other => simp only [Entry.view, eqStr_of, Exec.map_ok, Meaning.view]

/-! ## Two values -/

/-- The four impls of equality are one, -/
theorem Entry.eq_eq (a b : Entry) : a.eq b = a.pctStr.eq b.pctStr := by
  cases a <;> cases b <;> rfl

/-- and so are those of the order. -/
theorem Entry.partialCmp_eq (a b : Entry) : a.partialCmp b = some <$> a.pctStr.cmp b.pctStr := by
  cases a <;> cases b <;> rfl

theorem compare_of (a b : Holding) (c : Comparison) :
    (Entry.of a).compare (Entry.of b) c = .ok (Meaning.compare a.text b.text c) := by
  cases c with
  | eq =>
    simp only [Entry.compare, Entry.eq_eq, Entry.pctStr_of, Text.raw, PctStr.eq_spell,
      ← Text.encode_chars, Utf8.encode_injective.eq_iff, Exec.map_ok, Meaning.compare]
  | partialCmp =>
    simp only [Entry.compare, Entry.partialCmp_eq, Entry.pctStr_of, Text.raw, PctStr.cmp_spell,
      ← Text.encode_chars, Utf8.compare_encode, Exec.map_ok, Meaning.compare]
  | eqRfc3986 =>
    have hnormal : a.text.normal = b.text.normal ↔
        normalize a.text.tokens = normalize b.text.tokens := by
      rw [Text.ext_iff, Text.normal, Text.normal]
    simp only [Entry.compare, Entry.pctStr_of, Text.raw, PctStr.eqRfc3986_spell, Exec.map_ok,
      Meaning.compare, hnormal]
  | cmpRfc3986 =>
    simp only [Entry.compare, Entry.pctStr_of, Text.raw, PctStr.cmpRfc3986_spell, Exec.map_ok,
      Meaning.compare, Text.normal, Function.comp_apply]

/-! ## New values -/

/-- The encoder that a request encodes bytes with meets its contract. -/
def Request.Agrees (simdFeature : Bool) : Request → Prop
  | .make (.encodeBytes _ encoder) => encoder.Agrees simdFeature
  | _ => True

theorem Request.Agrees.of_simd {r : Request} (h : r.Agrees true) (simdFeature : Bool) :
    r.Agrees simdFeature := by
  cases r with
  | make m =>
    cases m with
    | encodeBytes src encoder =>
      intro table htable
      exact (h table htable).imp_right fun hshuf _ => hshuf rfl
    | _ => trivial
  | _ => trivial

/-- A byte string is a text that is accepted, or it is not. -/
theorem ofBytes_cases (bytes : List UInt8) :
    (∃ t, Text.ofBytes bytes = some t ∧ bytes = t.raw ∧ Accepted bytes) ∨
      (Text.ofBytes bytes = none ∧ ¬ Accepted bytes) := by
  cases h : Text.ofBytes bytes with
  | none => exact .inr ⟨rfl, by simp [← Text.isSome_ofBytes, h]⟩
  | some t =>
    have hraw := Text.ofBytes_eq_some.mp h
    exact .inl ⟨t, rfl, hraw.symm, hraw ▸ t.accepted_raw⟩

/-- Making a value does what it means. -/
theorem make_of (hB : B.Lawful) {m : Maker} (hm : (Request.make m).Agrees B.simdFeature) :
    m.make B = .ok (Prod.map id (Option.map Entry.of) (Meaning.make m)) := by
  cases m with
  | newSlice bytes =>
    rw [Maker.make, hB.pctStr_new_eq, Exec.ok_bind]
    rcases ofBytes_cases bytes with ⟨t, ht, rfl, hacc⟩ | ⟨hnone, hacc⟩
    · simp [AsRef.asRef, hacc, Meaning.make, ht, Meaning.refuse]
    · simp [AsRef.asRef, hacc, Meaning.make, hnone, Meaning.refuse, InvalidPctString.intoOwned,
        InvalidPctString.map]
  | newOwned bytes =>
    rw [Maker.make, hB.pctString_new_eq, Exec.ok_bind]
    rcases ofBytes_cases bytes with ⟨t, ht, rfl, hacc⟩ | ⟨hnone, hacc⟩
    · simp [IntoBytes.intoBytes, hacc, Meaning.make, ht, Meaning.refuse]
    · simp [IntoBytes.intoBytes, hacc, Meaning.make, hnone, Meaning.refuse]
  | tryFromSlice value =>
    rw [Maker.make, PctStr.tryFrom, hB.pctStr_new_eq, Exec.ok_bind]
    rcases ofBytes_cases (Utf8.encode value.toList) with ⟨t, ht, hraw, hacc⟩ | ⟨hnone, hacc⟩
    · rw [hraw] at ht hacc
      simp [AsRef.asRef, hraw, hacc, Meaning.make, ht, Meaning.refuse]
    · simp [AsRef.asRef, hacc, Meaning.make, hnone, Meaning.refuse, InvalidPctString.intoOwned,
        InvalidPctString.map]
  | tryFromOwned value =>
    rw [Maker.make, PctString.tryFrom, hB.fromString_eq, Exec.ok_bind]
    rcases ofBytes_cases (Utf8.encode value.toList) with ⟨t, ht, hraw, hacc⟩ | ⟨hnone, hacc⟩
    · rw [hraw] at ht hacc
      simp [hraw, hacc, Meaning.make, ht, Meaning.refuse]
    · simp [hacc, Meaning.make, hnone, Meaning.refuse]
  | encode src encoder => simp [Maker.make, PctString.encode_eq, Meaning.make, Text.raw,
      Text.ofChars]
  | encodeBytes src encoder =>
    have hagrees : encoder.Agrees B.simdFeature := hm
    rw [Maker.make, hagrees.encodeBytes_eq src]
    simp [PctString.encode_eq, Meaning.make, Text.raw, Text.ofChars]

/-! ## Sessions -/

/-- One request does what it means. -/
theorem step_of (hB : B.Lawful) {r : Request} (hr : r.Agrees B.simdFeature) (pool : List Holding) :
    step B (pool.map Entry.of) r = Prod.map id (List.map Entry.of) <$> Meaning.step pool r := by
  cases r with
  | make m =>
    rw [step, make_of hB hr, Exec.ok_bind]
    cases h : (Meaning.make m).2 <;> simp [Meaning.step, h]
  | toOwned i =>
    rw [step, Meaning.step, List.getElem?_map]
    cases pool[i]? with
    | none => rfl
    | some a => simp [PctStr.toOwned, PctString.newUnchecked, IntoBytes.intoBytes]
  | asPctStr i =>
    rw [step, Meaning.step, List.getElem?_map]
    cases pool[i]? with
    | none => rfl
    | some a => simp
  | intoString i =>
    rw [step, Meaning.step, List.getElem?_map]
    cases pool[i]? with
    | none => rfl
    | some a =>
      obtain ⟨_ | _, t⟩ := a
      · rfl
      · simp only [Option.map_some, Entry.of_owned, intoString_raw]
        cases Meaning.read t <;> simp [List.eraseIdx_map]
  | intoBytes i =>
    rw [step, Meaning.step, List.getElem?_map]
    cases pool[i]? with
    | none => rfl
    | some a =>
      obtain ⟨_ | _, t⟩ := a
      · rfl
      · simp [PctString.intoBytes, List.eraseIdx_map]
  | view i v =>
    rw [step, Meaning.step, List.getElem?_map]
    cases pool[i]? with
    | none => rfl
    | some a =>
      simp only [Option.map_some, view_of hB]
      cases Meaning.view a.text v <;> rfl
  | compare i j c =>
    rw [step, Meaning.step, List.getElem?_map, List.getElem?_map]
    cases pool[i]? with
    | none => rfl
    | some a =>
      cases pool[j]? with
      | none => rfl
      | some b => simp [compare_of]

/-- A session with the crate goes as it means: the same responses, the same fault if it
comes to one, and in the end the bytes of the texts that the client should hold. -/
theorem run_refines (hB : B.Lawful) (requests : List Request)
    (h : ∀ r ∈ requests, r.Agrees B.simdFeature) (pool : List Holding) :
    (machine B).run (pool.map Entry.of) requests =
      Prod.map id (List.map Entry.of) <$> Meaning.machine.run pool requests :=
  Machine.run_map _ _ _ (fun pool r hr => step_of hB (h r hr) pool) pool

theorem run_refines_triplet :
    (machine (referenceBuild true false)).run []
        [.make (.newSlice [0x25, 0x34, 0x31]), .view 0 .chars, .view 0 .asStr] =
      Prod.map id (List.map Entry.of) <$> Meaning.machine.run []
        [.make (.newSlice [0x25, 0x34, 0x31]), .view 0 .chars, .view 0 .asStr] :=
  run_refines (referenceBuild_lawful true false) _ (by simp [Request.Agrees]) []

/-- No session tells two builds apart, as long as its encoders meet the contract of any. -/
theorem run_build_independent (hB : B.Lawful) (hB' : B'.Lawful) (requests : List Request)
    (h : ∀ r ∈ requests, r.Agrees true) :
    (machine B).run [] requests = (machine B').run [] requests := by
  have hmeaning := Machine.run_map (machine B) Meaning.machine (List.map Entry.of)
    (fun pool r hr => step_of hB ((h r hr).of_simd _) pool) []
  have hmeaning' := Machine.run_map (machine B') Meaning.machine (List.map Entry.of)
    (fun pool r hr => step_of hB' ((h r hr).of_simd _) pool) []
  exact hmeaning.trans hmeaning'.symm

theorem run_build_independent_triplet :
    (machine (referenceBuild true true)).run []
        [.make (.newSlice [0x25, 0x34, 0x31]), .view 0 .hash, .view 0 .decode] =
      (machine (referenceBuild false false)).run []
        [.make (.newSlice [0x25, 0x34, 0x31]), .view 0 .hash, .view 0 .decode] :=
  run_build_independent (referenceBuild_lawful true true) (referenceBuild_lawful false false) _
    (by simp [Request.Agrees])

end Client

end Pct
