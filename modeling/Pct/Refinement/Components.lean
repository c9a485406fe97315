import Pct.Refinement.EncodeImage
import Pct.Refinement.Reserved
import Pct.Text.Grammar

/-!
# The built-in encoders write components

The predicates of `UriReserved` and `IriReserved` are the character classes of the
grammars, so the outputs of both families, by characters and by bytes, are the minimal
encodings for their rules. In a path the encoders exempt `:`, which a segment admits.
-/

namespace Pct

open Rust
open scoped Computability

variable {ε : Type}

/-! ## Character classes -/

theorem isAlphanum_iff_mem {c : Char} :
    c.isAlphanum = true ↔ [c] ∈ Grammar.alpha ∨ [c] ∈ Grammar.digit := by
  simp [isAlphanum_iff, Grammar.alpha, Grammar.digit]

theorem UriReserved.isUnreserved_iff {c : Char} :
    isUnreserved c = true ↔ [c] ∈ Grammar.unreserved := by
  simp [isUnreserved, Grammar.unreserved, isAlphanum_iff_mem, or_assoc]

theorem isSubDelim_iff {c : Char} : isSubDelim c = true ↔ [c] ∈ Grammar.subDelims := by
  simp [isSubDelim, Grammar.subDelims, ← Char.toNat_inj, or_assoc]

theorem IriReserved.isUcschar_iff {c : Char} :
    isUcschar c = true ↔ [c] ∈ Grammar.ucschar := by
  simp [isUcschar, inRange, Grammar.ucschar]

theorem IriReserved.isIprivate_iff {c : Char} :
    isIprivate c = true ↔ [c] ∈ Grammar.iprivate := by
  simp [isIprivate, inRange, Grammar.iprivate]

theorem IriReserved.isIunreserved_iff {c : Char} :
    isIunreserved c = true ↔ [c] ∈ Grammar.iunreserved := by
  simp [isIunreserved, Grammar.iunreserved, isAlphanum_iff_mem, isUcschar_iff,
    or_assoc]

/-! ## Rules -/

def UriReserved.rule : UriReserved → Language Char
  | any => (Grammar.unreserved + Grammar.pctEncoded)∗
  | path => Grammar.segment
  | query => Grammar.query
  | fragment => Grammar.fragment

def IriReserved.rule : IriReserved → Language Char
  | any => (Grammar.iunreserved + Grammar.pctEncoded)∗
  | path => Grammar.isegment
  | query => Grammar.iquery
  | fragment => Grammar.ifragment

/-- The characters that are encoded although the rule admits them. -/
def UriReserved.exempt : UriReserved → List Char
  | path => [':']
  | any | query | fragment => []

/-- The characters that end a component. -/
def UriReserved.delimiters : UriReserved → List Char
  | any => []
  | path => ['/', '?', '#']
  | query | fragment => ['#']

theorem UriReserved.encode_eq_false_iff (v : UriReserved) {c : Char} :
    v.encode c = false ↔ [c] ∈ v.rule ∧ c ∉ v.exempt := by
  have hencode : v.encode c = false ↔ [c] ∈ Grammar.unreserved ∨ v.isReservedButSafe c = true := by
    simp [encode, ← isUnreserved_iff, or_iff_not_imp_left]
  rw [hencode]
  cases v with
  | any => simp [isReservedButSafe, rule, exempt]
  | path =>
    have hcolon : [':'] ∉ Grammar.unreserved ∧ [':'] ∉ Grammar.subDelims := by
      rw [← isUnreserved_iff, ← isSubDelim_iff]
      decide
    simp only [isReservedButSafe, rule, exempt, Grammar.segment, Abnf.singleton_mem_kstar,
      Grammar.singleton_mem_pchar, Bool.or_eq_true, isSubDelim_iff, decide_eq_true_iff,
      List.mem_singleton]
    grind
  | query | fragment =>
    simp [isReservedButSafe, rule, exempt, Grammar.query, Grammar.fragment,
      Grammar.singleton_mem_pchar, isSubDelim_iff, or_assoc]

theorem IriReserved.encode_eq_false_iff (v : UriReserved) {c : Char} :
    v.toIri.encode c = false ↔ [c] ∈ v.toIri.rule ∧ c ∉ v.exempt := by
  have hencode : v.toIri.encode c = false ↔
      [c] ∈ Grammar.iunreserved ∨ v.toIri.isReservedButSafe c = true := by
    simp [encode, ← isIunreserved_iff, or_iff_not_imp_left]
  rw [hencode]
  cases v with
  | any => simp [UriReserved.toIri, isReservedButSafe, rule, UriReserved.exempt]
  | path =>
    have hcolon : [':'] ∉ Grammar.iunreserved ∧ [':'] ∉ Grammar.subDelims := by
      rw [← isIunreserved_iff, ← isSubDelim_iff]
      decide
    simp only [UriReserved.toIri, isReservedButSafe, rule, UriReserved.exempt, Grammar.isegment,
      Abnf.singleton_mem_kstar, Grammar.singleton_mem_ipchar, Bool.or_eq_true, isSubDelim_iff,
      decide_eq_true_iff, List.mem_singleton]
    grind
  | query =>
    simp only [UriReserved.toIri, isReservedButSafe, rule, UriReserved.exempt, Grammar.iquery,
      Abnf.singleton_mem_kstar, Language.mem_add, Abnf.singleton_mem_lit,
      Grammar.singleton_mem_ipchar, Bool.or_eq_true, isSubDelim_iff, isIprivate_iff,
      decide_eq_true_iff, List.not_mem_nil]
    -- the source asks for `iprivate` before the other characters
    grind
  | fragment =>
    simp [UriReserved.toIri, isReservedButSafe, rule, UriReserved.exempt, Grammar.ifragment,
      Grammar.singleton_mem_ipchar, isSubDelim_iff, or_assoc]

/-! ## Outputs -/

theorem spelling_ofByte (b : UInt8) : (Item.ofByte b).spelling = Grammar.pctEncode b := by
  have h := spelling_tripletOf b
  simp only [tripletOf, Token.spelling_triplet, List.cons.injEq] at h
  simp only [Item.ofByte, Item.spelling_triplet, HexDigit.char, Grammar.pctEncode,
    Grammar.upperChar, h]

/-- An encoder whose predicate is that of a rule writes minimal encodings. -/
theorem spellItems_charItems {encoder : Encoder} {rule : Language Char} {exempt : List Char}
    (h : ∀ c, encoder.encode c = false ↔ [c] ∈ rule ∧ c ∉ exempt) (c : Char) :
    spellItems (charItems encoder c) = Grammar.minimalChar rule exempt c := by
  have hencoded : (encoder.encode c || c = '%') = true ↔ c = '%' ∨ [c] ∉ rule ∨ c ∈ exempt := by
    have hc := not_congr (h c)
    rw [Bool.not_eq_false, not_and_or, not_not] at hc
    rw [Bool.or_eq_true, hc, decide_eq_true_iff, or_comm]
  by_cases hc : c = '%' ∨ [c] ∉ rule ∨ c ∈ exempt
  · rw [charItems, if_pos (hencoded.mpr hc), Grammar.minimalChar, if_pos hc, spellItems,
      List.flatMap_map]
    exact List.flatMap_congr fun b _ => spelling_ofByte b
  · rw [charItems, if_neg (mt hencoded.mp hc), Grammar.minimalChar, if_neg hc]
    rfl

theorem spellItems_encodeItems {encoder : Encoder} {rule : Language Char} {exempt : List Char}
    (h : ∀ c, encoder.encode c = false ↔ [c] ∈ rule ∧ c ∉ exempt) (src : List Char) :
    spellItems (encodeItems encoder src) = Grammar.minimalEncoding rule exempt src := by
  induction src with
  | nil => rfl
  | cons c src ih =>
    rw [encodeItems_cons, spellItems_append, ih, spellItems_charItems h]
    rfl

/-- What `encoder` writes for `s`, by characters and by bytes, is the minimal encoding of
`s` for a rule. It follows the rule and has no delimiters. -/
structure WritesComponent (B : Build ε) (encoder : Encoder) (rule : Language Char)
    (exempt delimiters : List Char) (s : String) : Prop where
  encode : PctString.encode s.toList encoder =
    ⟨Utf8.encode (Grammar.minimalEncoding rule exempt s.toList)⟩
  encodeBytes : PctString.encodeBytes B s encoder =
    .ok ⟨Utf8.encode (Grammar.minimalEncoding rule exempt s.toList)⟩
  legal : Grammar.minimalEncoding rule exempt s.toList ∈ rule
  delimited : ∀ d ∈ delimiters, d ∉ Grammar.minimalEncoding rule exempt s.toList

/-- A rule repeats triplets among other things. -/
def RepeatsTriplets (rule : Language Char) : Prop :=
  ∃ L : Language Char, rule = L∗ ∧ ∀ w ∈ Grammar.pctEncoded, w ∈ L

theorem UriReserved.repeatsTriplets_rule (v : UriReserved) : RepeatsTriplets v.rule := by
  cases v
  all_goals
    refine ⟨_, rfl, ?_⟩
    intro w hw
    simp [Grammar.pchar, hw]

theorem IriReserved.repeatsTriplets_rule (v : IriReserved) : RepeatsTriplets v.rule := by
  cases v
  all_goals
    refine ⟨_, rfl, ?_⟩
    intro w hw
    simp [Grammar.ipchar, hw]

theorem Encoder.Consistent.writesComponent {encoder : Encoder} (hconsistent : encoder.Consistent)
    {rule : Language Char} {exempt delimiters : List Char} (hrule : RepeatsTriplets rule)
    (h : ∀ c, encoder.encode c = false ↔ [c] ∈ rule ∧ c ∉ exempt)
    (hdelimiters : ∀ d ∈ delimiters,
      encoder.encode d = true ∧ d ∉ exempt ∧ d ≠ '%' ∧ [d] ∉ Grammar.hexdig)
    (B : Build ε) (s : String) : WritesComponent B encoder rule exempt delimiters s := by
  have hencode : PctString.encode s.toList encoder =
      ⟨Utf8.encode (Grammar.minimalEncoding rule exempt s.toList)⟩ := by
    rw [PctString.encode_eq, ← encode_spellItems_encodeItems, spellItems_encodeItems h]
  refine ⟨hencode, ?_, ?_, ?_⟩
  · rw [hconsistent.encodeBytes_eq B s, hencode]
  · obtain ⟨L, rfl, hpct⟩ := hrule
    exact Grammar.minimalEncoding_mem hpct exempt s.toList
  · intro d hd
    obtain ⟨hencoded, hexempt, hpercent, hhex⟩ := hdelimiters d hd
    have hd : [d] ∉ rule := by
      intro hmem
      rw [(h d).mpr ⟨hmem, hexempt⟩] at hencoded
      cases hencoded
    exact Grammar.notMem_minimalEncoding hd hpercent hhex exempt s.toList

/-- A delimiter is encoded, and no triplet contains one. -/
theorem UriReserved.delimiters_spec (v : UriReserved) :
    ∀ d ∈ v.delimiters, v.encode d = true ∧ d ∉ v.exempt ∧ d ≠ '%' ∧ [d] ∉ Grammar.hexdig := by
  cases v <;> simp [delimiters, exempt, Grammar.hexdig, Grammar.digit] <;> decide

theorem UriReserved.delimiters_lt (v : UriReserved) : ∀ d ∈ v.delimiters, d.toNat < 0x80 := by
  cases v <;> simp [delimiters]

/-- The outputs of a built-in encoder follow the rule of their component. Besides `%` they
encode only what the rule does not admit, and `:` in a path, so a text brings no
delimiter of its component along. -/
theorem reserved_writesComponent (B : Build ε) (v : UriReserved) (s : String) :
    WritesComponent B v.encoder v.rule v.exempt v.delimiters s ∧
      WritesComponent B v.toIri.encoder v.toIri.rule v.exempt v.delimiters s := by
  constructor
  · apply v.consistent.writesComponent v.repeatsTriplets_rule
    · exact fun c => v.encode_eq_false_iff
    · exact v.delimiters_spec
  · apply v.toIri.consistent.writesComponent v.toIri.repeatsTriplets_rule
    · exact fun c => IriReserved.encode_eq_false_iff v
    · intro d hd
      rw [show v.toIri.encoder.encode d = v.encode d from v.encode_toIri (v.delimiters_lt d hd)]
      exact v.delimiters_spec d hd

end Pct
