import Pct.Refinement.Contract
import Pct.Refinement.NormalOutput
import Pct.Source.Interface

/-!
# One text under two encoders

Encoders differ in what they spell as triplets, so their outputs for one text are equal as
values and may differ in their raw bytes. How much of the difference `eq_rfc3986` sees is
decided character by character. Decoding a value and encoding it again makes a canonical
form: one spelling for all equal values.
-/

namespace Pct

open Rust

variable {ε : Type} {B : Build ε}

/-- Concatenations of equally long blocks agree when the blocks do. -/
theorem flatMap_eq_iff {α β : Type} {f g : α → List β} (h : ∀ a, (f a).length = (g a).length)
    (l : List α) : l.flatMap f = l.flatMap g ↔ ∀ a ∈ l, f a = g a := by
  induction l with
  | nil => simp
  | cons a l ih =>
    rw [List.flatMap_cons, List.flatMap_cons, List.forall_mem_cons, ← ih]
    constructor
    · exact fun heq => List.append_inj heq (h a)
    · rintro ⟨ha, hl⟩
      rw [ha, hl]

/-! ## Characters -/

/-- The unreserved characters of `uri.rs` are those of the RFC. -/
theorem UriReserved.isUnreserved_iff_byte {c : Char} :
    isUnreserved c = true ↔
      c.toNat < 0x80 ∧ Pct.isUnreserved (UInt8.ofNat c.toNat) = true := by
  by_cases hc : c.toNat < 0x80
  · have hbytes : ∀ b : UInt8, b < 0x80 →
        isUnreserved (Char.ofNat b.toNat) = Pct.isUnreserved b := Utf8.byte_all (by decide)
    have hb : (UInt8.ofNat c.toNat).toNat = c.toNat := by
      rw [UInt8.toNat_ofNat', Nat.mod_eq_of_lt (by omega)]
    have heq := hbytes (UInt8.ofNat c.toNat) (by rw [UInt8.lt_iff_toNat_lt, hb]; exact hc)
    rw [hb, Char.ofNat_toNat] at heq
    rw [heq, and_iff_right hc]
  · have hencode := UriReserved.any.encode_nonAscii (Nat.not_lt.mp hc)
    simp only [encode, Bool.and_eq_true, Bool.not_eq_true'] at hencode
    simp [hencode.1, hc]

/-- The bytes of a character whose triplets normalizing removes, `%` included. -/
theorem unreserved_bytes_iff (c : Char) :
    (∀ b ∈ String.utf8EncodeChar c, isUnreserved b = true ∨ b = percent) ↔
      c = '%' ∨ UriReserved.isUnreserved c = true := by
  rw [UriReserved.isUnreserved_iff_byte]
  by_cases hc : c.toNat < 0x80
  · have hpct : UInt8.ofNat c.toNat = percent ↔ c = '%' := by
      rw [← UInt8.toNat_inj, UInt8.toNat_ofNat', Nat.mod_eq_of_lt (by omega), ← Char.toNat_inj]
      rfl
    simp only [Utf8.encodeChar_ascii hc, List.mem_singleton, forall_eq, hc, true_and, hpct]
    exact or_comm
  · obtain ⟨b, t, hbt, -⟩ := Utf8.encodeChar_shape c
    have hb : 0x80 ≤ b := Utf8.encodeChar_ge (Nat.not_lt.mp hc) (by simp [hbt])
    refine iff_of_false ?_ ?_
    · intro h
      rcases h b (by simp [hbt]) with hu | rfl
      · exact absurd (isUnreserved_lt hu) (UInt8.not_lt.mpr hb)
      · exact absurd hb (by decide)
    · rintro (rfl | h)
      · exact hc (by decide)
      · exact hc h.1

theorem tripletOf_ne_literal (b : UInt8) (l : Literal) : tripletOf b ≠ .literal l := by
  simp [tripletOf]

theorem normalize_tripletOf_eq_iff (b : UInt8) :
    (tripletOf b).normalize = keptToken b ↔ isUnreserved b = true ∨ b = percent := by
  by_cases hu : isUnreserved b = true
  · have hb := isUnreserved_ne_percent hu
    rw [keptToken, dif_neg hb]
    exact iff_of_true (Token.normalize_triplet_unreserved hu (octet_tripletOf b)) (.inl hu)
  · rw [normalize_tripletOf (Bool.eq_false_iff.mpr hu), keptToken]
    by_cases hb : b = percent
    · simp [hb]
    · rw [dif_neg hb]
      exact iff_of_false (tripletOf_ne_literal b _) (by simp [hu, hb])

theorem charTokens_eq_iff (e e' : Encoder) (c : Char) :
    charTokens e c = charTokens e' c ↔ e.encode c = e'.encode c ∨ c = '%' := by
  by_cases hpct : c = '%'
  · simp [charTokens, hpct]
  have hbytes : (String.utf8EncodeChar c).map tripletOf ≠
      (String.utf8EncodeChar c).map keptToken := by
    obtain ⟨b, t, hbt, -⟩ := Utf8.encodeChar_shape c
    have hb : b ≠ percent := fun h => percent_notMem_encodeChar hpct (by simp [hbt, h])
    rw [hbt, List.map_cons, List.map_cons, keptToken, dif_neg hb]
    exact fun heq => tripletOf_ne_literal b _ (List.cons.inj heq).1
  unfold charTokens
  cases e.encode c <;> cases e'.encode c <;> simp [hpct, hbytes, hbytes.symm]

theorem normalize_charTokens_eq_iff (e e' : Encoder) (c : Char) :
    normalize (charTokens e c) = normalize (charTokens e' c) ↔
      e.encode c = e'.encode c ∨ c = '%' ∨ UriReserved.isUnreserved c = true := by
  by_cases hpct : c = '%'
  · simp [charTokens, hpct]
  have hbytes : normalize ((String.utf8EncodeChar c).map tripletOf) =
      normalize ((String.utf8EncodeChar c).map keptToken) ↔
        UriReserved.isUnreserved c = true := by
    have h := unreserved_bytes_iff c
    rw [or_iff_right hpct] at h
    simp only [normalize, List.map_map, List.map_inj_left, Function.comp_apply,
      normalize_keptToken, normalize_tripletOf_eq_iff, h]
  unfold charTokens
  cases e.encode c <;> cases e'.encode c <;>
    simp [hpct, hbytes, eq_comm (a := normalize (List.map keptToken _))]

/-! ## Texts -/

theorem encodeTokens_eq_iff (e e' : Encoder) (src : List Char) :
    encodeTokens e src = encodeTokens e' src ↔
      ∀ c ∈ src, e.encode c = e'.encode c ∨ c = '%' := by
  simp only [encodeTokens, ← charTokens_eq_iff]
  exact flatMap_eq_iff (fun c => by simp [charTokens]) src

theorem normalize_encodeTokens_eq_iff (e e' : Encoder) (src : List Char) :
    normalize (encodeTokens e src) = normalize (encodeTokens e' src) ↔
      ∀ c ∈ src, e.encode c = e'.encode c ∨ c = '%' ∨ UriReserved.isUnreserved c = true := by
  simp only [normalize, encodeTokens, List.map_flatMap, ← normalize_charTokens_eq_iff]
  exact flatMap_eq_iff (fun c => by simp [charTokens]) src

/-- Outputs of one text only have the same octets. -/
theorem encodeTokens_congr {e e' : Encoder} {s t : List Char} {f : List Token → List Token}
    (hf : ∀ ts, octets (f ts) = octets ts) {P : List Char → Prop}
    (h : ∀ src, f (encodeTokens e src) = f (encodeTokens e' src) ↔ P src) :
    f (encodeTokens e s) = f (encodeTokens e' t) ↔ s = t ∧ P s := by
  constructor
  · intro heq
    have hoctets := congrArg octets heq
    rw [hf, hf, octets_encodeTokens, octets_encodeTokens] at hoctets
    obtain rfl := Utf8.encode_injective hoctets
    exact ⟨rfl, (h s).mp heq⟩
  · rintro ⟨rfl, hP⟩
    exact (h s).mpr hP

/-- The raw bytes of two outputs. -/
theorem encode_raw_iff (e e' : Encoder) (s t : List Char) :
    PctString.encode s e = PctString.encode t e' ↔
      s = t ∧ ∀ c ∈ s, e.encode c = e'.encode c ∨ c = '%' := by
  rw [PctString.encode_eq, PctString.encode_eq, PctString.mk.injEq, spell_injective.eq_iff]
  exact encodeTokens_congr (f := id) (fun _ => rfl) (encodeTokens_eq_iff e e')

/-- All comparisons of two outputs: as values they are their sources, `eq_rfc3986` also sees
where the encoders decide differently on a character that is not unreserved, and the raw
bytes every such difference. Only `%` is always encoded. -/
theorem encode_comparisons (e e' : Encoder) (s t : List Char) :
    (PctString.encode s e).eq (PctString.encode t e') = .ok (decide (s = t)) ∧
      (∃ r, (PctString.encode s e).asPctStr.eqRfc3986 (PctString.encode t e').asPctStr = .ok r ∧
        (r = true ↔ s = t ∧ ∀ c ∈ s,
          e.encode c = e'.encode c ∨ c = '%' ∨ UriReserved.isUnreserved c = true)) ∧
      (PctString.encode s e = PctString.encode t e' ↔
        s = t ∧ ∀ c ∈ s, e.encode c = e'.encode c ∨ c = '%') := by
  have hnormal := encodeTokens_congr (f := normalize) octets_normalize (s := s) (t := t)
    (normalize_encodeTokens_eq_iff e e')
  refine ⟨?_, ?_, encode_raw_iff e e' s t⟩
  · simp only [PctString.eq, PctString.deref, PctString.encode_eq, PctString.asPctStr,
      PctStr.eq_spell, octets_encodeTokens, Utf8.encode_injective.eq_iff]
  · rw [PctString.encode_eq, PctString.encode_eq, PctString.asPctStr, PctString.asPctStr,
      PctStr.eqRfc3986_spell]
    exact ⟨_, rfl, decide_eq_true_iff.trans hnormal⟩

/-- Decoding and encoding again, by bytes and each value in a build of its own, gives equal
values one spelling, which is valid, equal to them and decodes to the same text. -/
theorem recode_canonical {ε' : Type} {B' : Build ε'} (hB : B.Lawful) (hB' : B'.Lawful)
    {e : Encoder} (he : e.Agrees B.simdFeature) (he' : e.Agrees B'.simdFeature) {p q : PctStr}
    (hp : p.Valid B) (hq : q.Valid B') :
    ∃ (s t : String) (x y : PctString), p.decode B = .ok s ∧
      PctString.encodeBytes B s e = .ok x ∧ q.decode B' = .ok t ∧
      PctString.encodeBytes B' t e = .ok y ∧ x.asPctStr.Valid B ∧ x.eqPctStr p = .ok true ∧
      x.asPctStr.decode B = .ok s ∧ (x = y ↔ p.eq q = .ok true) := by
  obtain ⟨ts, rfl, cs, hcs⟩ := hp.exists_tokens hB
  obtain ⟨us, rfl, ds, hds⟩ := hq.exists_tokens hB'
  have hx : PctString.encodeBytes B (String.ofList cs) e = .ok (PctString.encode cs e) := by
    rw [he.encodeBytes_eq, String.toList_ofList]
  have hy : PctString.encodeBytes B' (String.ofList ds) e = .ok (PctString.encode ds e) := by
    rw [he'.encodeBytes_eq, String.toList_ofList]
  obtain ⟨hvalid, hdecode, -⟩ := hB.encode_spec e cs
  refine ⟨_, _, _, _, hB.decode_spell hcs, hx, hB'.decode_spell hds, hy, hvalid, ?_, hdecode, ?_⟩
  · rw [PctString.encode_eq, PctString.eqPctStr, PctString.deref, PctString.asPctStr,
      PctStr.eq_spell, octets_encodeTokens, hcs, decide_eq_true rfl]
  · rw [encode_raw_iff, PctStr.eq_spell, Except.ok.injEq, decide_eq_true_iff,
      ← hcs, ← hds, Utf8.encode_injective.eq_iff]
    simp

theorem recode_canonical_path :
    ∃ (s t : String) (x y : PctString),
      PctStr.decode (referenceBuild true true) ⟨[0x25, 0x36, 0x31]⟩ = .ok s ∧
      PctString.encodeBytes (referenceBuild true true) s UriReserved.path.encoder = .ok x ∧
      PctStr.decode (referenceBuild false false) ⟨[0x61]⟩ = .ok t ∧
      PctString.encodeBytes (referenceBuild false false) t UriReserved.path.encoder = .ok y ∧
      x = y := by
  have hB := referenceBuild_lawful true true
  have hB' := referenceBuild_lawful false false
  obtain ⟨s, t, x, y, hs, hx, ht, hy, -, -, -, heq⟩ := recode_canonical hB hB'
    (UriReserved.path.consistent.agrees true) (UriReserved.path.consistent.agrees false)
    (hB.valid_of_ascii [tripletOf 0x61] (by simp))
    (hB'.valid_of_ascii [.literal ⟨0x61, by decide⟩] (by simp))
  exact ⟨s, t, x, y, hs, hx, ht, hy,
    heq.mpr (PctStr.eq_spell [tripletOf 0x61] [.literal ⟨0x61, by decide⟩])⟩

end Pct
