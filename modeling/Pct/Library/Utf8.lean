import Mathlib.Data.List.Basic
import Mathlib.Tactic.Common

/-!
# Well-formed UTF-8

A byte string is well-formed when it is the concatenation of the encodings of
Unicode scalar values. A character starts with a byte that is no continuation byte
(`10xxxxxx`) and goes on with continuation bytes only. Hence a well-formed string
may be cut in front of exactly the bytes that are no continuation bytes, which is
what `WellFormed.split` and `WellFormed.cancel` say.

## Main definitions

* `Utf8.encode` — the bytes of a sequence of characters.
* `Utf8.WellFormed` — being such a sequence of bytes.
* `Utf8.decode` — the characters of a well-formed byte string, if it is one.
-/

namespace Utf8

/-! ## Bytes -/

/-- A property of bytes holds of all of them when it holds of the 256 values. Two bounded
quantifiers keep the recursion of `decide` shallow. -/
theorem byte_all {P : UInt8 → Prop} (h : ∀ hi < 16, ∀ lo < 16, P (UInt8.ofNat (16 * hi + lo)))
    (b : UInt8) : P b := by
  have hb : b.toNat < 256 := b.toNat_lt_size
  have := h (b.toNat / 16) (by omega) (b.toNat % 16) (by omega)
  simpa [Nat.div_add_mod] using this

/-- A byte of the form `10xxxxxx`. -/
def isContinuation (b : UInt8) : Bool := b &&& 0xC0 == 0x80

theorem isContinuation_iff (b : UInt8) :
    isContinuation b ↔ 0x80 ≤ b.toNat ∧ b.toNat < 0xC0 := by
  revert b
  exact byte_all (by decide)

theorem isContinuation_of_lt {b : UInt8} (h : b < 0x80) : isContinuation b = false := by
  have hb : b.toNat < 0x80 := UInt8.lt_iff_toNat_lt.mp h
  have := isContinuation_iff b
  simp only [Bool.eq_false_iff, ne_eq, this]
  omega

/-! ## Characters -/

/-- The UTF-8 encoding of one character: a first byte, then continuation bytes. -/
theorem encodeChar_shape (c : Char) : ∃ b t, String.utf8EncodeChar c = b :: t ∧
    isContinuation b = false ∧ ∀ x ∈ t, isContinuation x = true := by
  have hc : c.val.toNat ≤ 0x10ffff := by
    have := c.valid
    unfold UInt32.isValidChar Nat.isValidChar at this
    omega
  have tail (n : Nat) : isContinuation (UInt8.ofNat (n % 0x40 + 0x80)) = true := by
    rw [isContinuation_iff, UInt8.toNat_ofNat']
    omega
  have lead (n : Nat) (hn : n < 0x80 ∨ 0xC0 ≤ n ∧ n < 0x100) :
      isContinuation (UInt8.ofNat n) = false := by
    rw [Bool.eq_false_iff, ne_eq, isContinuation_iff, UInt8.toNat_ofNat']
    omega
  unfold String.utf8EncodeChar
  simp only
  split
  · exact ⟨_, _, rfl, lead _ (by omega), by simp⟩
  split
  · exact ⟨_, _, rfl, lead _ (by omega), by simp only [List.forall_mem_cons, tail]; simp⟩
  split
  · exact ⟨_, _, rfl, lead _ (by omega), by simp only [List.forall_mem_cons, tail]; simp⟩
  · exact ⟨_, _, rfl, lead _ (by omega), by simp only [List.forall_mem_cons, tail]; simp⟩

theorem encodeChar_ascii {c : Char} (h : c.toNat < 0x80) :
    String.utf8EncodeChar c = [UInt8.ofNat c.toNat] := by
  have hc : c.val.toNat ≤ 0x7f := by
    have : c.toNat = c.val.toNat := rfl
    omega
  simp only [String.utf8EncodeChar, hc, if_true]
  rfl

theorem encodeChar_lt {c : Char} (h : c.toNat < 0x80) {b : UInt8}
    (hb : b ∈ String.utf8EncodeChar c) : b < 0x80 := by
  rw [encodeChar_ascii h, List.mem_singleton] at hb
  rw [hb, UInt8.lt_iff_toNat_lt, UInt8.toNat_ofNat']
  have : (0x80 : UInt8).toNat = 0x80 := rfl
  omega

/-- Every byte of a character beyond ASCII lies beyond ASCII. -/
theorem encodeChar_ge {c : Char} (h : 0x80 ≤ c.toNat) {b : UInt8}
    (hb : b ∈ String.utf8EncodeChar c) : 0x80 ≤ b := by
  have hc : ¬ c.val.toNat ≤ 0x7f := by
    have : c.toNat = c.val.toNat := rfl
    omega
  have high (n : Nat) (hn : 0x80 ≤ n ∧ n < 0x100) : (0x80 : UInt8) ≤ UInt8.ofNat n := by
    rw [UInt8.le_iff_toNat_le, UInt8.toNat_ofNat']
    have : (0x80 : UInt8).toNat = 0x80 := rfl
    omega
  unfold String.utf8EncodeChar at hb
  simp only [hc, if_false] at hb
  split at hb
  · simp only [List.mem_cons, List.not_mem_nil, or_false] at hb
    rcases hb with rfl | rfl <;> exact high _ (by omega)
  split at hb <;> simp only [List.mem_cons, List.not_mem_nil, or_false] at hb
  · rcases hb with rfl | rfl | rfl <;> exact high _ (by omega)
  · rcases hb with rfl | rfl | rfl | rfl <;> exact high _ (by omega)

/-- The first character of a byte string and the bytes behind it. -/
def decodeFirst (bs : List UInt8) : Option (Char × List UInt8) :=
  (bs.toByteArray.utf8DecodeChar? 0).map fun c => (c, bs.drop c.utf8Size)

@[simp] theorem decodeFirst_encodeChar (c : Char) (bs : List UInt8) :
    decodeFirst (String.utf8EncodeChar c ++ bs) = some (c, bs) := by
  have hlen : c.utf8Size = (String.utf8EncodeChar c).length := by simp
  rw [decodeFirst, List.toByteArray_append, ByteArray.utf8DecodeChar?_utf8EncodeChar_append,
    Option.map_some, hlen, List.drop_left]

theorem eq_append_of_decodeFirst {bs rest : List UInt8} {c : Char}
    (h : decodeFirst bs = some (c, rest)) : bs = String.utf8EncodeChar c ++ rest := by
  obtain ⟨d, hd, hrest⟩ := Option.map_eq_some_iff.mp h
  obtain ⟨rfl, rfl⟩ := Prod.mk.inj hrest
  obtain ⟨l, hl⟩ := ByteArray.exists_of_utf8DecodeChar?_eq_some hd
  have hbs : bs = String.utf8EncodeChar d ++ l.data.toList := by
    simpa using congrArg (fun b => b.data.toList) hl
  have hlen : d.utf8Size = (String.utf8EncodeChar d).length := by simp
  rw [hlen, hbs, List.drop_left]

/-- The encodings of two characters differ inside both of them. -/
theorem encodeChar_append_inj {c d : Char} {x y : List UInt8}
    (h : String.utf8EncodeChar c ++ x = String.utf8EncodeChar d ++ y) : c = d ∧ x = y := by
  have hc := decodeFirst_encodeChar c x
  rw [h, decodeFirst_encodeChar] at hc
  simpa [eq_comm] using hc

/-! ## Texts -/

/-- The UTF-8 bytes of a sequence of characters. -/
def encode (cs : List Char) : List UInt8 := cs.flatMap String.utf8EncodeChar

@[simp] theorem encode_nil : encode [] = [] := rfl

@[simp] theorem encode_cons (c : Char) (cs : List Char) :
    encode (c :: cs) = String.utf8EncodeChar c ++ encode cs := rfl

@[simp] theorem encode_append (cs ds : List Char) :
    encode (cs ++ ds) = encode cs ++ encode ds := List.flatMap_append

theorem encode_injective : Function.Injective encode := by
  intro cs
  induction cs with
  | nil =>
    intro ds h
    cases ds with
    | nil => rfl
    | cons d ds =>
      obtain ⟨b, t, hd, -⟩ := encodeChar_shape d
      simp [hd] at h
  | cons c cs ih =>
    intro ds h
    cases ds with
    | nil =>
      obtain ⟨b, t, hc, -⟩ := encodeChar_shape c
      simp [hc] at h
    | cons d ds =>
      obtain ⟨rfl, hrest⟩ := encodeChar_append_inj h
      rw [ih hrest]

/-- Strings are equal exactly when their bytes are. -/
theorem encode_toList_inj {s t : String} : encode s.toList = encode t.toList ↔ s = t :=
  encode_injective.eq_iff.trans String.toList_inj

/-- Well-formed UTF-8: the concatenation of the encodings of scalar values. -/
def WellFormed (bs : List UInt8) : Prop := ∃ cs, encode cs = bs

theorem wellFormed_nil : WellFormed [] := ⟨[], rfl⟩

theorem wellFormed_encodeChar (c : Char) : WellFormed (String.utf8EncodeChar c) :=
  ⟨[c], by simp⟩

theorem WellFormed.append {a b : List UInt8} (ha : WellFormed a) (hb : WellFormed b) :
    WellFormed (a ++ b) := by
  obtain ⟨cs, rfl⟩ := ha
  obtain ⟨ds, rfl⟩ := hb
  exact ⟨cs ++ ds, by simp⟩

theorem wellFormed_singleton {b : UInt8} (h : b < 0x80) : WellFormed [b] := by
  have hb : b.toNat < 0x80 := UInt8.lt_iff_toNat_lt.mp h
  have hc : (Char.ofNat b.toNat).toNat = b.toNat := by
    rw [Char.ofNat, dif_pos (Or.inl (by omega))]
    rfl
  refine ⟨[Char.ofNat b.toNat], ?_⟩
  rw [encode_cons, encodeChar_ascii (by omega), hc]
  simp

/-- Text made of ASCII bytes only is well-formed. -/
theorem wellFormed_of_ascii {bs : List UInt8} (h : ∀ b ∈ bs, b < 0x80) : WellFormed bs := by
  induction bs with
  | nil => exact wellFormed_nil
  | cons b bs ih =>
    rw [List.forall_mem_cons] at h
    exact (wellFormed_singleton h.1).append (ih h.2)

/-- No text starts inside a character. -/
theorem WellFormed.head {b : UInt8} {bs : List UInt8} (h : WellFormed (b :: bs)) :
    isContinuation b = false := by
  obtain ⟨cs, hcs⟩ := h
  cases cs with
  | nil => cases hcs
  | cons c cs =>
    obtain ⟨x, t, hc, hx, -⟩ := encodeChar_shape c
    rw [encode_cons, hc, List.cons_append] at hcs
    rw [← (List.cons.inj hcs).1, hx]

/-- A text without a leading text is a text. -/
theorem WellFormed.cancel {a b : List UInt8} (hab : WellFormed (a ++ b)) (ha : WellFormed a) :
    WellFormed b := by
  obtain ⟨cs, rfl⟩ := ha
  induction cs with
  | nil => simpa using hab
  | cons c cs ih =>
    apply ih
    obtain ⟨ds, hds⟩ := hab
    cases ds with
    | nil =>
      obtain ⟨x, t, hc, -⟩ := encodeChar_shape c
      simp [hc] at hds
    | cons d ds =>
      rw [encode_cons, encode_cons, List.append_assoc] at hds
      exact ⟨ds, (encodeChar_append_inj hds).2⟩

/-- A text may be cut in front of a byte that is no continuation byte. The
induction is on the characters: the cut lies in front of the first one, inside of
it, which a first byte excludes, or behind it. -/
theorem WellFormed.split {a c : List UInt8} {b : UInt8} (h : WellFormed (a ++ b :: c))
    (hb : isContinuation b = false) : WellFormed a ∧ WellFormed (b :: c) := by
  obtain ⟨cs, hcs⟩ := h
  induction cs generalizing a with
  | nil => simp at hcs
  | cons d cs ih =>
    cases a with
    | nil => exact ⟨wellFormed_nil, ⟨d :: cs, hcs⟩⟩
    | cons x a =>
      rw [encode_cons] at hcs
      obtain ⟨t, hd, hrest⟩ | ⟨t, hx, hrest⟩ := List.append_eq_append_iff.mp hcs
      · obtain ⟨ha, hbc⟩ := ih hrest
        rw [hd]
        exact ⟨(wellFormed_encodeChar d).append ha, hbc⟩
      · cases t with
        | nil =>
          rw [List.append_nil] at hx
          rw [← hx]
          exact ⟨wellFormed_encodeChar d, ⟨cs, by simpa using hrest.symm⟩⟩
        | cons y t =>
          obtain ⟨z, u, hshape, -, htail⟩ := encodeChar_shape d
          obtain ⟨rfl, -⟩ := List.cons.inj hrest
          rw [hshape, List.cons_append] at hx
          have := htail b ((List.cons.inj hx).2 ▸ by simp)
          simp_all

/-- An ASCII byte is a character of its own wherever it stands. -/
theorem wellFormed_append_ascii {a c : List UInt8} {b : UInt8} (hb : b < 0x80) :
    WellFormed (a ++ b :: c) ↔ WellFormed a ∧ WellFormed c := by
  constructor
  · intro h
    obtain ⟨ha, hbc⟩ := h.split (isContinuation_of_lt hb)
    exact ⟨ha, WellFormed.cancel (a := [b]) hbc (wellFormed_singleton hb)⟩
  · rintro ⟨ha, hc⟩
    exact ha.append ((wellFormed_singleton hb).append hc)

/-- So is a piece of ASCII text, which separates what stands around it. -/
theorem wellFormed_append_asciis {a mid c : List UInt8} (hne : mid ≠ [])
    (h : ∀ b ∈ mid, b < 0x80) : WellFormed (a ++ mid ++ c) ↔ WellFormed a ∧ WellFormed c := by
  obtain ⟨b, bs, rfl⟩ := List.exists_cons_of_ne_nil hne
  rw [List.forall_mem_cons] at h
  have hbs := wellFormed_of_ascii h.2
  rw [List.append_assoc, List.cons_append, wellFormed_append_ascii h.1]
  exact and_congr_right fun _ => ⟨fun hc => hc.cancel hbs, hbs.append⟩

@[simp] theorem wellFormed_cons_ascii {c : List UInt8} {b : UInt8} (hb : b < 0x80) :
    WellFormed (b :: c) ↔ WellFormed c := by
  simpa [wellFormed_nil] using wellFormed_append_ascii (a := []) (c := c) hb

theorem encode_eq_nil {cs : List Char} : encode cs = [] ↔ cs = [] := by
  constructor
  · intro h
    cases cs with
    | nil => rfl
    | cons c cs =>
      obtain ⟨b, t, hc, -⟩ := encodeChar_shape c
      simp [hc] at h
  · rintro rfl
    rfl

/-- The byte of an ASCII character. -/
theorem toNat_lt_of_mem_encodeChar {c : Char} {b : UInt8} (hb : b ∈ String.utf8EncodeChar c)
    (h : b < 0x80) : c.toNat < 0x80 := by
  by_contra hc
  exact absurd (encodeChar_ge (Nat.not_lt.mp hc) hb) (UInt8.not_le.mpr h)

/-- ASCII bytes in front of a text are characters of it. -/
theorem exists_ascii_prefix (cs : List Char) {m : Nat} (hm : m ≤ (encode cs).length)
    (h : ∀ b ∈ (encode cs).take m, b < 0x80) :
    ∃ run rest, cs = run ++ rest ∧ (∀ c ∈ run, c.toNat < 0x80) ∧ (encode run).length = m := by
  induction m generalizing cs with
  | zero => exact ⟨[], cs, rfl, by simp, rfl⟩
  | succ m ih =>
    cases cs with
    | nil => simp at hm
    | cons c cs =>
      obtain ⟨b, t, hc, -⟩ := encodeChar_shape c
      have hascii : c.toNat < 0x80 :=
        toNat_lt_of_mem_encodeChar (b := b) (by simp [hc]) (h b (by simp [hc]))
      rw [encode_cons, encodeChar_ascii hascii] at hm h
      obtain ⟨run, rest, rfl, hrun, hlen⟩ := ih cs (by simpa using hm)
        fun x hx => h x (by simp [hx])
      refine ⟨c :: run, rest, rfl, List.forall_mem_cons.mpr ⟨hascii, hrun⟩, ?_⟩
      rw [encode_cons, encodeChar_ascii hascii, List.singleton_append, List.length_cons, hlen]

/-! ## Decoding -/

/-- The characters of a byte string, when it is well-formed. -/
def decode : List UInt8 → Option (List Char)
  | [] => some []
  | b :: bs =>
    match _h : decodeFirst (b :: bs) with
    | none => none
    | some (c, rest) => (decode rest).map (c :: ·)
termination_by bs => bs.length
decreasing_by
  obtain ⟨x, t, hc, -⟩ := encodeChar_shape c
  have := congrArg List.length (eq_append_of_decodeFirst _h)
  simp only [hc, List.length_append, List.length_cons] at this ⊢
  omega

theorem decode_eq_some {bs : List UInt8} {cs : List Char} :
    decode bs = some cs ↔ encode cs = bs := by
  constructor
  · intro h
    fun_induction decode bs generalizing cs with
    | case1 =>
      obtain rfl := Option.some.inj h
      rfl
    | case2 => cases h
    | case3 b bs c rest hfirst ih =>
      obtain ⟨ds, hds, rfl⟩ := Option.map_eq_some_iff.mp h
      rw [encode_cons, ih hds, ← eq_append_of_decodeFirst hfirst]
  · rintro rfl
    induction cs with
    | nil => rw [encode_nil, decode]
    | cons c cs ih =>
      obtain ⟨x, t, hc, -⟩ := encodeChar_shape c
      have hfirst := decodeFirst_encodeChar c (encode cs)
      rw [encode_cons, hc, List.cons_append] at *
      rw [decode]
      split <;> simp_all

theorem wellFormed_iff_decode {bs : List UInt8} : WellFormed bs ↔ (decode bs).isSome := by
  simp only [WellFormed, ← decode_eq_some, Option.isSome_iff_exists]

instance (bs : List UInt8) : Decidable (WellFormed bs) :=
  decidable_of_iff _ wellFormed_iff_decode.symm

@[simp] theorem decode_encode (cs : List Char) : decode (encode cs) = some cs :=
  decode_eq_some.mpr rfl

end Utf8
