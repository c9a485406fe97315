import Pct.Refinement.Encoding
import Pct.Text.Item

/-!
# What encoding can write

Read as items, the output of `encode` is made of blocks, one for each character of the
source: the character itself, or the triplets of its bytes. A maximal run of triplets
consists of whole blocks, so it stands for whole characters. Conversely an item sequence
with the properties in `IsOutput` is rebuilt run by run, and the source is its decoding.
-/

namespace Pct

open Rust Runs

variable {ε : Type} {B : Build ε}

/-! ## Blocks -/

theorem isHexDigit_hexHi (b : UInt8) : isHexDigit (hexHi b) = true := (hexTable_digits b).1

theorem isHexDigit_hexLo (b : UInt8) : isHexDigit (hexLo b) = true := (hexTable_digits b).2

/-- The item that encoding writes for a byte. -/
def Item.ofByte (b : UInt8) : Item :=
  .triplet ⟨hexHi b, isHexDigit_hexHi b⟩ ⟨hexLo b, isHexDigit_hexLo b⟩

@[simp] theorem Item.isTriplet_ofByte (b : UInt8) : (ofByte b).isTriplet = true := rfl

@[simp] theorem Item.octets_ofByte (b : UInt8) : (ofByte b).octets = [b] :=
  congrArg (fun x => [x]) (octet_tripletOf b)

theorem Item.encode_spelling_ofByte (b : UInt8) :
    Utf8.encode (ofByte b).spelling = (tripletOf b).spelling :=
  encode_spelling_triplet _ _

/-- Uppercase triplets of one octet are the same triplet. -/
theorem Item.triplet_eq_ofByte {hi lo : HexDigit} (hhi : hi.isUpper = true)
    (hlo : lo.isUpper = true) : Item.triplet hi lo = ofByte (Token.triplet hi lo).octet := by
  obtain ⟨htabhi, htablo⟩ := hexTable_isUpper (Token.triplet hi lo).octet
  obtain ⟨hvalhi, hvallo⟩ := Token.octet_triplet_eq_iff.mp
    (octet_tripletOf (Token.triplet hi lo).octet)
  rw [ofByte, ← HexDigit.upper_of_isUpper htabhi, ← HexDigit.upper_of_isUpper htablo,
    HexDigit.upper_eq_iff.mpr hvalhi, HexDigit.upper_eq_iff.mpr hvallo,
    HexDigit.upper_of_isUpper hhi, HexDigit.upper_of_isUpper hlo]

/-- The items that `encode` writes for a character. -/
def charItems (encoder : Encoder) (c : Char) : List Item :=
  if encoder.encode c || c = '%' then (String.utf8EncodeChar c).map Item.ofByte else [.char c]

/-- The items that `encode` writes for a text. -/
def encodeItems (encoder : Encoder) (src : List Char) : List Item :=
  src.flatMap (charItems encoder)

@[simp] theorem encodeItems_cons (encoder : Encoder) (c : Char) (src : List Char) :
    encodeItems encoder (c :: src) = charItems encoder c ++ encodeItems encoder src := rfl

@[simp] theorem encodeItems_append (encoder : Encoder) (s t : List Char) :
    encodeItems encoder (s ++ t) = encodeItems encoder s ++ encodeItems encoder t :=
  List.flatMap_append

theorem encode_spellItems_map_ofByte (bs : List UInt8) :
    Utf8.encode (spellItems (bs.map Item.ofByte)) = spell (bs.map tripletOf) := by
  induction bs with
  | nil => rfl
  | cons b bs ih =>
    rw [List.map_cons, spellItems_cons, Utf8.encode_append, Item.encode_spelling_ofByte, ih]
    rfl

theorem encode_spellItems_encodeItems (encoder : Encoder) (src : List Char) :
    Utf8.encode (spellItems (encodeItems encoder src)) = spell (encodeTokens encoder src) := by
  induction src with
  | nil => rfl
  | cons c src ih =>
    rw [encodeItems_cons, encodeTokens_cons, spellItems_append, Utf8.encode_append, spell_append,
      ih]
    congr 1
    unfold charItems charTokens
    split
    · exact encode_spellItems_map_ofByte _
    · have hc : c ≠ '%' := by simp_all
      rw [spell_map_keptToken (percent_notMem_encodeChar hc)]
      exact List.append_nil _

/-- An item of an output is the triplet of a byte or a character that is kept. -/
theorem mem_encodeItems {encoder : Encoder} {src : List Char} {i : Item}
    (h : i ∈ encodeItems encoder src) :
    (∃ b, i = .ofByte b) ∨ ∃ c, i = .char c ∧ c ≠ '%' ∧ encoder.encode c = false := by
  obtain ⟨d, -, hd⟩ := List.mem_flatMap.mp h
  unfold charItems at hd
  split at hd
  · obtain ⟨b, -, hb⟩ := List.mem_map.mp hd
    exact .inl ⟨b, hb.symm⟩
  · exact .inr ⟨d, List.mem_singleton.mp hd, by simp_all⟩

theorem char_mem_encodeItems {encoder : Encoder} {src : List Char} {c : Char}
    (h : Item.char c ∈ encodeItems encoder src) : c ≠ '%' ∧ encoder.encode c = false := by
  obtain ⟨b, hb⟩ | ⟨d, hd, hkept⟩ := mem_encodeItems h
  · cases hb
  · rwa [Item.char.inj hd]

/-- A string is an output exactly when its items are. -/
theorem PctString.encode_eq_iff {encoder : Encoder} {src p : List Char} :
    PctString.encode src encoder = ⟨Utf8.encode p⟩ ↔ items p = encodeItems encoder src := by
  rw [PctString.encode_eq, PctString.mk.injEq, ← encode_spellItems_encodeItems,
    Utf8.encode_injective.eq_iff]
  constructor
  · rintro rfl
    exact items_spellItems fun h => (char_mem_encodeItems h).1 rfl
  · intro h
    rw [← h, spellItems_items]

/-! ## Outputs -/

/-- The condition on the items of an output. -/
structure IsOutput (encoder : Encoder) (is : List Item) : Prop where
  char : ∀ c, Item.char c ∈ is → c ≠ '%' ∧ encoder.encode c = false
  upper : ∀ hi lo, Item.triplet hi lo ∈ is → hi.isUpper = true ∧ lo.isUpper = true
  run : ∀ run, MaximalRun Item.isTriplet is run → ∃ cs : List Char,
    run.flatMap Item.octets = Utf8.encode cs ∧ ∀ c ∈ cs, encoder.encode c = true ∨ c = '%'

theorem flatMap_octets_map_ofByte (bs : List UInt8) :
    (bs.map Item.ofByte).flatMap Item.octets = bs := by
  simp [List.flatMap_map]

theorem flatMap_octets_encodeItems (encoder : Encoder) (src : List Char) :
    (encodeItems encoder src).flatMap Item.octets = Utf8.encode src := by
  induction src with
  | nil => rfl
  | cons c src ih =>
    rw [encodeItems_cons, List.flatMap_append, ih, Utf8.encode_cons]
    congr 1
    unfold charItems
    split
    · exact flatMap_octets_map_ofByte _
    · simp

/-- The blocks are runs of triplets and single characters. -/
theorem charItems_block (encoder : Encoder) (c : Char) :
    (∀ i ∈ charItems encoder c, i.isTriplet = true) ∨ (charItems encoder c).length ≤ 1 := by
  unfold charItems
  split
  · left
    exact List.forall_mem_map.mpr fun _ _ => rfl
  · exact .inr (Nat.le_refl 1)

theorem isOutput_encodeItems (encoder : Encoder) (src : List Char) :
    IsOutput encoder (encodeItems encoder src) where
  char c := char_mem_encodeItems
  upper hi lo h := by
    obtain ⟨b, hb⟩ | ⟨d, hd, -⟩ := mem_encodeItems h
    · obtain ⟨rfl, rfl⟩ := Item.triplet.inj hb
      exact hexTable_isUpper b
    · cases hd
  run run h := by
    have htriplet : ∀ i ∈ run, i.isTriplet = true := fun i hi => (h.mem hi).1
    obtain ⟨cs, rfl, -⟩ := h.exists_blocks (charItems_block encoder)
    refine ⟨cs, flatMap_octets_encodeItems encoder cs, ?_⟩
    intro c hc
    by_contra hkept
    -- a character that is kept is no part of a run
    have hchar : Item.char c ∈ encodeItems encoder cs :=
      List.mem_flatMap.mpr ⟨c, hc, by simp_all [charItems]⟩
    exact absurd (htriplet _ hchar) (by simp)

/-! ## Rebuilding the source -/

/-- Uppercase triplets are determined by their octets. -/
theorem map_ofByte_octets {run : List Item} (hrun : ∀ i ∈ run, i.isTriplet = true)
    (hupper : ∀ hi lo, Item.triplet hi lo ∈ run → hi.isUpper = true ∧ lo.isUpper = true) :
    (run.flatMap Item.octets).map Item.ofByte = run := by
  induction run with
  | nil => rfl
  | cons i run ih =>
    rw [List.forall_mem_cons] at hrun
    cases i with
    | char c => cases hrun.1
    | triplet hi lo =>
      obtain ⟨hhi, hlo⟩ := hupper hi lo (List.mem_cons_self ..)
      have htail := ih hrun.2 fun hi lo h => hupper hi lo (List.mem_cons_of_mem _ h)
      rw [List.flatMap_cons, List.map_append, htail, Item.triplet_eq_ofByte hhi hlo,
        Item.octets_ofByte, List.map_singleton, List.singleton_append]

/-- A text whose characters are all encoded. -/
theorem encodeItems_of_encoded {encoder : Encoder} {cs : List Char}
    (h : ∀ c ∈ cs, encoder.encode c = true ∨ c = '%') :
    encodeItems encoder cs = (Utf8.encode cs).map Item.ofByte := by
  induction cs with
  | nil => rfl
  | cons c cs ih =>
    rw [List.forall_mem_cons] at h
    have hc : charItems encoder c = (String.utf8EncodeChar c).map Item.ofByte := by
      simp [charItems, h.1]
    rw [encodeItems_cons, hc, ih h.2, Utf8.encode_cons, List.map_append]

theorem IsOutput.right {encoder : Encoder} {a is : List Item} {c : Char}
    (h : IsOutput encoder (a ++ .char c :: is)) : IsOutput encoder is where
  char d hd := h.char d (by simp [hd])
  upper hi lo hmem := h.upper hi lo (by simp [hmem])
  run run hrun := h.run run (hrun.right rfl a)

/-- A run is rebuilt from the characters that it stands for. -/
theorem IsOutput.exists_source_of_run {encoder : Encoder} {is run : List Item}
    (h : IsOutput encoder is) (hrun : MaximalRun Item.isTriplet is run) :
    ∃ cs, encodeItems encoder cs = run := by
  obtain ⟨cs, hcs, hencoded⟩ := h.run run hrun
  refine ⟨cs, ?_⟩
  rw [encodeItems_of_encoded hencoded, ← hcs]
  apply map_ofByte_octets
  · intro i hi
    exact (hrun.mem hi).1
  · intro hi lo hmem
    exact h.upper hi lo (hrun.mem hmem).2

theorem IsOutput.exists_source {encoder : Encoder} {is : List Item} (h : IsOutput encoder is) :
    ∃ src, encodeItems encoder src = is := by
  induction is using run_induction (p := Item.isTriplet) with
  | run l hl => exact h.exists_source_of_run (.self hl)
  | cut a i is ha hi ih =>
    cases i with
    | triplet hi' lo' => cases hi
    | char c =>
      obtain ⟨cs, hcs⟩ := h.exists_source_of_run (.left ha hi is)
      obtain ⟨src, hsrc⟩ := ih h.right
      have hkept : charItems encoder c = [.char c] := by
        have := h.char c (by simp)
        simp [charItems, this]
      refine ⟨cs ++ c :: src, ?_⟩
      rw [encodeItems_append, encodeItems_cons, hcs, hsrc, hkept, List.singleton_append]

/-! ## The image -/

/-- A string is an output of `encode` exactly when it is a value without `%` or encodable
characters outside of triplets, its triplets are uppercase, and each maximal run of them
stands for encodable characters. Then it is the output for one source only, which `decode`
returns, so encoding its decoding gives it back. -/
theorem encode_image (hB : B.Lawful) (encoder : Encoder) (p : String) :
    ((∃ src : List Char, PctString.encode src encoder = ⟨Utf8.encode p.toList⟩) ↔
      PctStr.Valid B ⟨Utf8.encode p.toList⟩ ∧ IsOutput encoder (items p.toList)) ∧
    ∀ src : List Char, PctString.encode src encoder = ⟨Utf8.encode p.toList⟩ →
      (∀ src' : List Char, PctString.encode src' encoder = ⟨Utf8.encode p.toList⟩ → src' = src) ∧
      ∃ s : String, PctStr.decode B ⟨Utf8.encode p.toList⟩ = .ok s ∧ s.toList = src ∧
        PctString.encode s.toList encoder = ⟨Utf8.encode p.toList⟩ := by
  have hdecode {src : List Char} (h : PctString.encode src encoder = ⟨Utf8.encode p.toList⟩) :
      PctStr.Valid B ⟨Utf8.encode p.toList⟩ ∧
        PctStr.decode B ⟨Utf8.encode p.toList⟩ = .ok (String.ofList src) := by
    obtain ⟨hvalid, hdec, -⟩ := hB.encode_spec encoder src
    rw [h] at hvalid hdec
    exact ⟨hvalid, hdec⟩
  refine ⟨⟨?_, ?_⟩, ?_⟩
  · rintro ⟨src, hsrc⟩
    refine ⟨(hdecode hsrc).1, ?_⟩
    rw [PctString.encode_eq_iff.mp hsrc]
    exact isOutput_encodeItems encoder src
  · rintro ⟨-, hout⟩
    obtain ⟨src, hsrc⟩ := hout.exists_source
    exact ⟨src, PctString.encode_eq_iff.mpr hsrc.symm⟩
  · intro src hsrc
    refine ⟨?_, String.ofList src, (hdecode hsrc).2, String.toList_ofList, ?_⟩
    · intro src' hsrc'
      have heq := (hdecode hsrc').2.symm.trans (hdecode hsrc).2
      exact String.ofList_injective (Except.ok.inj heq)
    · rw [String.toList_ofList, hsrc]

theorem encode_image_percent :
    ∃ s : String, PctStr.decode (referenceBuild true false) ⟨Utf8.encode "%25a".toList⟩ = .ok s ∧
      s.toList = ['%', 'a'] := by
  have hsrc : PctString.encode ['%', 'a'] (.ofFn fun _ => false) =
      ⟨Utf8.encode "%25a".toList⟩ := by decide
  obtain ⟨-, s, hs, hlist, -⟩ := (encode_image (referenceBuild_lawful true false)
    (.ofFn fun _ => false) "%25a").2 ['%', 'a'] hsrc
  exact ⟨s, hs, hlist⟩

end Pct
