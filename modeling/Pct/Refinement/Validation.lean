import Pct.Refinement.Digits
import Pct.Refinement.ReferenceBuild
import Pct.Text.Split

/-!
# The validators accept one language

`validate_fast` runs over arbitrary bytes in both of its versions. Both are followed
along the parse of the bytes that are left: the loop over the positions of `%` keeps
the run since the last triplet, the scalar loop keeps nothing. Together with the
iterator `TryEncodedBytes` this gives the spec of every constructor: it accepts exactly
the texts whose reference decoding is well-formed UTF-8.
-/

namespace Pct

open Rust

/-! ## `validate_fast` -/

theorem orNonAscii_append (had : UInt8) (xs ys : List UInt8) :
    orNonAscii had (xs ++ ys) = orNonAscii (orNonAscii had xs) ys := List.foldl_append

@[simp] theorem orNonAscii_nil (had : UInt8) : orNonAscii had [] = had := rfl

theorem orNonAscii_cons (had b : UInt8) (bs : List UInt8) :
    orNonAscii had (b :: bs) = orNonAscii (had ||| b &&& 0x80) bs := rfl

theorem highBit_eq_zero (b : UInt8) : b &&& 0x80 = 0 ↔ b < 0x80 := by
  revert b
  exact Utf8.byte_all (by decide)

/-- The accumulator stays zero exactly on ASCII bytes. -/
theorem orNonAscii_eq_zero {had : UInt8} {bs : List UInt8} :
    orNonAscii had bs = 0 ↔ had = 0 ∧ ∀ b ∈ bs, b < 0x80 := by
  induction bs generalizing had with
  | nil => simp [orNonAscii]
  | cons b bs ih =>
    rw [orNonAscii_cons, ih, UInt8.or_eq_zero_iff, highBit_eq_zero, List.forall_mem_cons, and_assoc]

/-- What `validate_fast` should say about a parse. -/
def fastVerdict (had : UInt8) : Option (List Token) → FastCheck
  | none => .invalid
  | some ts => .ofNonAscii (orNonAscii had (octets ts))

theorem fastVerdict_literal (had : UInt8) (b : Literal) (p : Option (List Token)) :
    fastVerdict had (p.map (.literal b :: ·)) = fastVerdict (had ||| b.byte &&& 0x80) p := by
  cases p <;> rfl

theorem fastVerdict_triplet (had : UInt8) (hi lo : HexDigit) (p : Option (List Token)) :
    fastVerdict had (p.map (.triplet hi lo :: ·)) =
      fastVerdict (had ||| (hexVal hi.byte <<< 4 ||| hexVal lo.byte) &&& 0x80) p := by
  rw [hexVal_octet]
  cases p <;> rfl

/-- The digits of a triplet are found behind its `%`. -/
theorem index_digits (pre rest : List UInt8) (b h1 h2 : UInt8) {pct : Nat}
    (h : pct = pre.length) :
    index (pre ++ b :: h1 :: h2 :: rest) (pct + 1) = .ok h1 ∧
      index (pre ++ b :: h1 :: h2 :: rest) (pct + 2) = .ok h2 := by
  subst h
  constructor
  · simpa using index_append (pre ++ [b]) (h2 :: rest) h1 (by simp)
  · simpa using index_append (pre ++ [b, h1]) rest h2 (by simp)

/-- Both digits of a triplet are inside the text. -/
theorem digits_lt (pre rest : List UInt8) (b h1 h2 : UInt8) {pct : Nat} (h : pct = pre.length) :
    ¬ pct + 2 ≥ (pre ++ b :: h1 :: h2 :: rest).length := by
  simp only [List.length_append, List.length_cons]
  omega

/-- What a truncated triplet leaves. -/
theorem length_lt_two {rest : List UInt8}
    (h : ∀ h1 h2 rest', rest = h1 :: h2 :: rest' → False) : rest.length < 2 := by
  match rest with
  | [] => simp
  | [_] => simp
  | h1 :: h2 :: rest => exact (h h1 h2 rest rfl).elim

/-- Other bytes are no positions of `%`. -/
theorem findIdxs_skip {b : UInt8} (hb : b ≠ percent) (bs : List UInt8) (i : Nat) :
    (b :: bs).findIdxs (· == percent) i = bs.findIdxs (· == percent) (i + 1) := by
  simp [List.findIdxs_cons, hb]

theorem findIdxs_percent (bs : List UInt8) (i : Nat) :
    (percent :: bs).findIdxs (· == percent) i = i :: bs.findIdxs (· == percent) (i + 1) := by
  simp [List.findIdxs_cons]

theorem isHexDigit_ne_percent {b : UInt8} (h : isHexDigit b = true) : b ≠ percent :=
  HexDigit.byte_ne_percent ⟨b, h⟩

/-- The loop over the positions of `%`, when `done` is behind it, `run` is the run
since the last triplet and `rest` is still to be looked at. -/
theorem validateFastMemchr_spec (rest done run : List UInt8) (had : UInt8) :
    validateFastMemchr (done ++ run ++ rest)
      (rest.findIdxs (· == percent) (done.length + run.length)) done.length had =
      .ok (fastVerdict (orNonAscii had run) (parse rest)) := by
  fun_induction parse rest generalizing done run had with
  | case1 =>
    simp [validateFastMemchr, sliceFrom, fastVerdict, orNonAscii]
  | case2 h1 h2 rest hd ih =>
    have ih := ih (done ++ run ++ [percent, h1, h2]) []
      (orNonAscii had run ||| (hexVal h1 <<< 4 ||| hexVal h2) &&& 0x80)
    have hff : hexVal h1 ||| hexVal h2 ≠ 0xFF := by simp [hexVal_or_eq_ff, hd]
    have hpct : done.length + run.length = (done ++ run).length := by simp
    have hrest := digits_lt (done ++ run) rest percent h1 h2 hpct
    obtain ⟨hi1, hi2⟩ := index_digits (done ++ run) rest percent h1 h2 hpct
    rw [fastVerdict_triplet, findIdxs_percent, findIdxs_skip (isHexDigit_ne_percent hd.1),
      findIdxs_skip (isHexDigit_ne_percent hd.2), validateFastMemchr,
      slice_append _ _ _ rfl rfl, Exec.ok_bind, if_neg hrest, hi1, Exec.ok_bind,
      hi2, Exec.ok_bind, if_neg hff]
    simpa [Nat.add_assoc] using ih
  | case3 h1 h2 rest hd =>
    have hff : hexVal h1 ||| hexVal h2 = 0xFF := hexVal_or_eq_ff.mpr hd
    have hpct : done.length + run.length = (done ++ run).length := by simp
    have hrest := digits_lt (done ++ run) rest percent h1 h2 hpct
    obtain ⟨hi1, hi2⟩ := index_digits (done ++ run) rest percent h1 h2 hpct
    rw [findIdxs_percent, validateFastMemchr, slice_append _ _ _ rfl rfl, Exec.ok_bind,
      if_neg hrest, hi1, Exec.ok_bind, hi2, Exec.ok_bind, if_pos hff]
    rfl
  | case4 rest hrest =>
    have hlen := length_lt_two hrest
    have hshort : done.length + run.length + 2 ≥ (done ++ run ++ percent :: rest).length := by
      simp; omega
    rw [findIdxs_percent, validateFastMemchr, slice_append _ _ _ rfl rfl, Exec.ok_bind,
      if_pos hshort]
    rfl
  | case5 b rest hb ih =>
    have ih := ih done (run ++ [b]) had
    rw [findIdxs_skip hb, fastVerdict_literal]
    simpa [orNonAscii_append, orNonAscii_cons, Nat.add_assoc] using ih

/-- The scalar loop, when `done` is behind it and `rest` is still to be looked at. -/
theorem validateFastScalar_spec (rest done : List UInt8) (had : UInt8) :
    (validateFastScalar (done ++ rest)).run (done.length, had) =
      .ok (fastVerdict had (parse rest)) := by
  fun_induction parse rest generalizing done had with
  | case1 =>
    apply Loop.run_done
    simp [validateFastScalar, validateFastStep, fastVerdict]
  | case2 h1 h2 rest hd ih =>
    have ih := ih (done ++ [percent, h1, h2]) (had ||| (hexVal h1 <<< 4 ||| hexVal h2) &&& 0x80)
    have hff : hexVal h1 ||| hexVal h2 ≠ 0xFF := by simp [hexVal_or_eq_ff, hd]
    obtain ⟨hi1, hi2⟩ := index_digits done rest percent h1 h2 rfl
    have hstep : (validateFastScalar (done ++ percent :: h1 :: h2 :: rest)).step
        (done.length, had) =
        .ok (.next (done.length + 3, had ||| (hexVal h1 <<< 4 ||| hexVal h2) &&& 0x80)) := by
      simp [validateFastScalar, validateFastStep, hi1, hi2, index_append, hff]
    rw [fastVerdict_triplet, Loop.run_next _ hstep]
    simpa using ih
  | case3 h1 h2 rest hd =>
    have hff : hexVal h1 ||| hexVal h2 = 0xFF := hexVal_or_eq_ff.mpr hd
    obtain ⟨hi1, hi2⟩ := index_digits done rest percent h1 h2 rfl
    apply Loop.run_done
    simp [validateFastScalar, validateFastStep, hi1, hi2, index_append, hff, fastVerdict]
  | case4 rest hrest =>
    have hlen := length_lt_two hrest
    apply Loop.run_done
    simp [validateFastScalar, validateFastStep, index_append, fastVerdict]
    omega
  | case5 b rest hb ih =>
    have ih := ih (done ++ [b]) (had ||| b &&& 0x80)
    have hstep : (validateFastScalar (done ++ b :: rest)).step (done.length, had) =
        .ok (.next (done.length + 1, had ||| b &&& 0x80)) := by
      simp [validateFastScalar, validateFastStep, index_append, hb]
    rw [fastVerdict_literal, Loop.run_next _ hstep]
    simpa using ih

variable {ε : Type} {B : Build ε}

/-- Both versions of `validate_fast` follow the parse of the whole input. -/
theorem Build.Lawful.validateFast_eq (hB : B.Lawful) (bs : List UInt8) :
    validateFast B bs = .ok (fastVerdict 0 (parse bs)) := by
  unfold validateFast
  split
  · rw [hB.memchrIter_eq]
    exact validateFastMemchr_spec bs [] [] 0
  · exact validateFastScalar_spec bs [] 0

/-! ## `TryEncodedBytes` and `validate` -/

namespace TryEncodedBytes

theorem collect_total (bs : List UInt8) : ∃ items, (iter (ε := ε)).collect bs = .ok items :=
  Iter.collect_total _ (fun s => by cases s <;> exact ⟨_, rfl⟩) bs

theorem collect_cons {b : UInt8} {rest rest' : List UInt8} {r : Except (ByteError ε) UInt8}
    (h : tryNext rest b = (r, rest')) :
    ∃ items, iter.collect rest' = .ok items ∧ iter.collect (b :: rest) = .ok (r :: items) := by
  obtain ⟨items, hitems⟩ := collect_total (ε := ε) rest'
  have hnext : iter.next (b :: rest) = .ok (some (r, rest')) := by simp [iter, next, h]
  exact ⟨items, hitems, by rw [Iter.collect_cons _ hnext, hitems, Exec.map_ok]⟩

theorem tryNext_triplet (hi lo : HexDigit) (rest : List UInt8) :
    tryNext (ε := ε) (hi.byte :: lo.byte :: rest) percent =
      (.ok (Token.triplet hi lo).octet, rest) := by
  have hff : hexVal hi.byte ||| hexVal lo.byte ≠ 0xFF := by
    simp [hexVal_or_eq_ff, hi.isHex, lo.isHex]
  simp [tryNext, hff, hexVal_octet]

theorem tryNext_literal {b : UInt8} (hb : b ≠ percent) (rest : List UInt8) :
    tryNext (ε := ε) rest b = (.ok b, rest) := by
  simp [tryNext, hb]

theorem tryNext_malformed (rest : List UInt8) (h : ∀ h1 h2 rest', rest = h1 :: h2 :: rest' →
    ¬ (isHexDigit h1 = true ∧ isHexDigit h2 = true)) :
    ∃ e rest', tryNext (ε := ε) rest percent = (.error e, rest') := by
  unfold tryNext
  match rest with
  | [] => exact ⟨_, _, rfl⟩
  | [_] => exact ⟨_, _, rfl⟩
  | h1 :: h2 :: rest => simp [hexVal_or_eq_ff.mpr (h h1 h2 rest rfl)]

/-- The iterator yields nothing but bytes exactly where decoding is defined, and then
it yields the decoded bytes. -/
theorem collect_eq_ok {bs : List UInt8} {items : List (Except (ByteError ε) UInt8)}
    (h : iter.collect bs = .ok items) (os : List UInt8) :
    items = os.map .ok ↔ referenceDecode bs = some os := by
  fun_induction referenceDecode bs generalizing items os with
  | case1 =>
    rw [Iter.collect_nil _ (by rfl)] at h
    cases h
    cases os <;> simp
  | case2 h1 h2 rest hd ih =>
    obtain ⟨items', hitems', hcons⟩ :=
      collect_cons (tryNext_triplet (ε := ε) ⟨h1, hd.1⟩ ⟨h2, hd.2⟩ rest)
    obtain rfl := Except.ok.inj (hcons.symm.trans h)
    cases os with
    | nil => simp
    | cons o os => simp [ih hitems', Token.octet, and_comm]
  | case3 h1 h2 rest hd =>
    obtain ⟨e, rest', hnext⟩ := tryNext_malformed (ε := ε) (h1 :: h2 :: rest)
      (by rintro _ _ _ ⟨⟩; exact hd)
    obtain ⟨items', -, hcons⟩ := collect_cons hnext
    obtain rfl := Except.ok.inj (hcons.symm.trans h)
    cases os <;> simp
  | case4 rest hrest =>
    obtain ⟨e, rest', hnext⟩ := tryNext_malformed (ε := ε) rest
      (fun h1 h2 rest' h => (hrest h1 h2 rest' h).elim)
    obtain ⟨items', -, hcons⟩ := collect_cons hnext
    obtain rfl := Except.ok.inj (hcons.symm.trans h)
    cases os <;> simp
  | case5 b rest hb ih =>
    obtain ⟨items', hitems', hcons⟩ := collect_cons (tryNext_literal (ε := ε) hb rest)
    obtain rfl := Except.ok.inj (hcons.symm.trans h)
    cases os with
    | nil => simp
    | cons o os => simp [ih hitems', and_comm]

end TryEncodedBytes

namespace Build.Lawful

variable (hB : B.Lawful)
include hB

theorem validate_eq (bs : List UInt8) : PctStr.validate B bs = .ok (decide (Accepted bs)) := by
  obtain ⟨items, hitems⟩ := TryEncodedBytes.collect_total (ε := ε) bs
  have haccepts : (∀ r ∈ B.tryDecoder items, r.isOk) ↔ Accepted bs := by
    simp only [hB.tryDecoder_accepts, TryEncodedBytes.collect_eq_ok hitems, Accepted]
  rw [PctStr.validate, hitems, Exec.ok_bind, Exec.pure_eq, Except.ok.injEq, Bool.eq_iff_iff,
    List.all_eq_true, haccepts, decide_eq_true_iff]

end Build.Lawful

/-! ## The constructors -/

/-- `validate_fast` only accepts by itself what decodes to ASCII. -/
theorem accepted_of_fastVerdict {bs : List UInt8} (h : fastVerdict 0 (parse bs) = .valid) :
    Accepted bs := by
  cases hparse : parse bs with
  | none => rw [hparse] at h; cases h
  | some ts =>
    have hascii : orNonAscii 0 (octets ts) = 0 := by
      simp only [hparse, fastVerdict, FastCheck.ofNonAscii] at h
      split at h
      · assumption
      · cases h
    have hwf := Utf8.wellFormed_of_ascii (orNonAscii_eq_zero.mp hascii).2
    exact accepted_iff.mpr ⟨ts, spell_of_parse hparse, hwf⟩

/-- `validate_fast` only rejects malformed triplets. -/
theorem not_accepted_of_fastVerdict {bs : List UInt8} (h : fastVerdict 0 (parse bs) = .invalid) :
    ¬ Accepted bs := by
  rw [accepted_iff]
  rintro ⟨ts, hts, -⟩
  rw [← hts, parse_spell] at h
  simp only [fastVerdict, FastCheck.ofNonAscii] at h
  split at h <;> cases h

theorem fromUtf8_isSome (bs : List UInt8) : (fromUtf8 bs).isSome = decide (Utf8.WellFormed bs) := by
  rw [Bool.eq_iff_iff, decide_eq_true_iff, Utf8.wellFormed_iff_decode, fromUtf8, Option.isSome_map]

theorem accepted_of_notMem {bs : List UInt8} (h : percent ∉ bs) :
    Accepted bs ↔ Utf8.WellFormed bs := by
  simp [Accepted, referenceDecode_of_notMem h]

namespace Build.Lawful

variable (hB : B.Lawful)
include hB

/-- The shortcut for texts without `%`. -/
theorem fromUtf8_isSome_eq {bs : List UInt8} (h : (findPercent B bs).isNone) :
    (fromUtf8 bs).isSome = decide (Accepted bs) := by
  simp only [fromUtf8_isSome, accepted_of_notMem (hB.isNone_findPercent.mp h)]

theorem pctStr_new_eq {S : Type} [AsRef S] (input : S) : PctStr.new B input =
    .ok (if Accepted (AsRef.asRef input) then .ok ⟨AsRef.asRef input⟩ else .error ⟨input⟩) := by
  unfold PctStr.new
  dsimp only
  split
  · have hdec := hB.fromUtf8_isSome_eq ‹_›
    cases hutf : fromUtf8 (AsRef.asRef input) <;> simp_all
  · rw [hB.validateFast_eq, Exec.ok_bind]
    split
    · simp [accepted_of_fastVerdict ‹_›]
    · simp [not_accepted_of_fastVerdict ‹_›]
    · rw [hB.validate_eq, Exec.ok_bind]
      split <;> simp_all

theorem pctStr_new_of_accepted {bs : List UInt8} (h : Accepted bs) :
    PctStr.new B bs = .ok (.ok ⟨bs⟩) := by
  rw [hB.pctStr_new_eq]
  exact congrArg _ (if_pos h)

theorem pctString_new_eq {S : Type} [IntoBytes S] (input : S) : PctString.new B input =
    .ok (if Accepted (IntoBytes.intoBytes input) then .ok ⟨IntoBytes.intoBytes input⟩
      else .error ⟨IntoBytes.intoBytes input⟩) := by
  unfold PctString.new
  dsimp only
  split
  · have hdec := hB.fromUtf8_isSome_eq ‹_›
    cases hutf : fromUtf8 (IntoBytes.intoBytes input) <;> simp_all
  · rw [hB.validate_eq, Exec.ok_bind]
    split <;> simp_all

theorem fromString_eq (s : String) : PctString.fromString B s =
    .ok (if Accepted (Utf8.encode s.toList) then .ok ⟨Utf8.encode s.toList⟩ else .error ⟨s⟩) := by
  rw [PctString.fromString, hB.pctString_new_eq, Exec.ok_bind]
  by_cases h : Accepted (Utf8.encode s.toList)
  · simp [IntoBytes.intoBytes, h]
  · simp [IntoBytes.intoBytes, InvalidPctString.map, h]

end Build.Lawful

/-- Every validation path, in every build, decides whether the reference decoding of
the input is defined and well-formed, and an error carries the input. -/
theorem constructors_accept_one_language (hB : B.Lawful) (b : List UInt8) :
    PctStr.validate B b = .ok (decide (Accepted b)) ∧
      (∀ (S : Type) [AsRef S] (input : S), AsRef.asRef input = b →
        PctStr.new B input = .ok (if Accepted b then .ok ⟨b⟩ else .error ⟨input⟩)) ∧
      (∀ (S : Type) [IntoBytes S] (input : S), IntoBytes.intoBytes input = b →
        PctString.new B input = .ok (if Accepted b then .ok ⟨b⟩ else .error ⟨b⟩)) ∧
      ∀ string : String, Utf8.encode string.toList = b →
        PctString.fromString B string = .ok (if Accepted b then .ok ⟨b⟩ else .error ⟨string⟩) := by
  refine ⟨hB.validate_eq b, ?_, ?_, ?_⟩
  · rintro S _ input rfl
    exact hB.pctStr_new_eq input
  · rintro S _ input rfl
    exact hB.pctString_new_eq input
  · rintro string rfl
    exact hB.fromString_eq string

/-- The character `é` twice, as literals and as triplets, the second one in lower case. -/
def bothSpellings : List UInt8 := [0xC3, 0xA9, 0x25, 0x43, 0x33, 0x25, 0x61, 0x39]

theorem accepted_bothSpellings : Accepted bothSpellings := by decide +kernel

theorem constructors_accept_one_language_bothSpellings :
    PctStr.validate (referenceBuild true false) bothSpellings = .ok true ∧
      PctStr.new (referenceBuild true false) bothSpellings = .ok (.ok ⟨bothSpellings⟩) ∧
      PctString.new (referenceBuild true false) bothSpellings = .ok (.ok ⟨bothSpellings⟩) ∧
      PctString.fromString (referenceBuild true false) "é%C3%a9" = .ok (.ok ⟨bothSpellings⟩) := by
  obtain ⟨hvalidate, hnew, howned, hfrom⟩ :=
    constructors_accept_one_language (referenceBuild_lawful true false) bothSpellings
  simp only [if_pos accepted_bothSpellings, decide_eq_true accepted_bothSpellings]
    at hvalidate hnew howned hfrom
  exact ⟨hvalidate, hnew _ _ rfl, howned _ _ rfl, hfrom "é%C3%a9" (by decide +kernel)⟩

/-! ## The raw text -/

/-- What `as_str` and `into_string` rely on holds of a constructor's input exactly
when the input splits no character. -/
theorem raw_wellFormed_iff (hB : B.Lawful) (b : List UInt8) :
    ((∀ (S : Type) [AsRef S] (input : S) (p : PctStr), AsRef.asRef input = b →
        PctStr.new B input = .ok (.ok p) → Utf8.WellFormed p.raw ∧ ∃ s, p.asStr = .ok s) ∧
      ∀ (S : Type) [IntoBytes S] (input : S) (p : PctString), IntoBytes.intoBytes input = b →
        PctString.new B input = .ok (.ok p) →
          Utf8.WellFormed p.raw ∧ ∃ s, p.intoString = .ok s) ↔
      ¬ SplitsCharacter b := by
  have text {raw : List UInt8} (h : Utf8.WellFormed raw) : ∃ s, fromUtf8Unchecked raw = .ok s := by
    obtain ⟨cs, rfl⟩ := h
    exact ⟨_, fromUtf8Unchecked_encode cs⟩
  constructor
  · rintro ⟨hstr, -⟩ hsplits
    have hacc := hsplits.accepted
    have hnew := hB.pctStr_new_of_accepted hacc
    exact hacc.wellFormed_iff.mp (hstr _ b _ rfl hnew).1 hsplits
  · intro hsplits
    constructor
    · rintro S _ input p rfl hnew
      rw [hB.pctStr_new_eq] at hnew
      split at hnew
      · rename_i hacc
        obtain rfl : (⟨AsRef.asRef input⟩ : PctStr) = p := by simpa using hnew
        have hraw := hacc.wellFormed_iff.mpr hsplits
        exact ⟨hraw, text hraw⟩
      · cases hnew
    · rintro S _ input p rfl hnew
      rw [hB.pctString_new_eq] at hnew
      split at hnew
      · rename_i hacc
        obtain rfl : (⟨IntoBytes.intoBytes input⟩ : PctString) = p := by simpa using hnew
        have hraw := hacc.wellFormed_iff.mpr hsplits
        exact ⟨hraw, text hraw⟩
      · cases hnew

theorem raw_wellFormed_iff_bothSpellings :
    Utf8.WellFormed bothSpellings ∧ (∃ s, PctStr.asStr ⟨bothSpellings⟩ = .ok s) ∧
      ∃ s, PctString.intoString ⟨bothSpellings⟩ = .ok s := by
  have hB := referenceBuild_lawful true false
  have hsplits := accepted_bothSpellings.wellFormed_iff.mp (by decide +kernel)
  obtain ⟨hstr, hstring⟩ := (raw_wellFormed_iff hB bothSpellings).mpr hsplits
  have hnew : PctStr.new (referenceBuild true false) bothSpellings = .ok (.ok ⟨bothSpellings⟩) :=
    hB.pctStr_new_of_accepted accepted_bothSpellings
  have howned : PctString.new (referenceBuild true false) bothSpellings =
      .ok (.ok ⟨bothSpellings⟩) :=
    (hB.pctString_new_eq _).trans (congrArg Except.ok (if_pos accepted_bothSpellings))
  obtain ⟨hwf, hread⟩ := hstr _ _ _ rfl hnew
  exact ⟨hwf, hread, (hstring _ _ _ rfl howned).2⟩

/-- The character `é`, its first byte a literal and its second byte a triplet. -/
def halfEncoded : List UInt8 := [0xC3, 0x25, 0x41, 0x39]

/-- The text is accepted, and reading it is undefined. -/
theorem halfEncoded_not_wellFormed :
    PctStr.new (referenceBuild true false) halfEncoded = .ok (.ok ⟨halfEncoded⟩) ∧
      PctString.new (referenceBuild true false) halfEncoded = .ok (.ok ⟨halfEncoded⟩) ∧
      ¬ Utf8.WellFormed halfEncoded ∧
      PctStr.asStr ⟨halfEncoded⟩ = .error .invalidUtf8 ∧
      PctString.intoString ⟨halfEncoded⟩ = .error .invalidUtf8 := by
  decide +kernel

end Pct
