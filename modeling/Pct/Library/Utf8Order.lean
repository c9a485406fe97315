import Pct.Library.Utf8

/-!
# Counting and ordering characters by their bytes

A text has as many characters as bytes that are no continuation bytes, and comparing two
texts byte by byte is comparing them character by character: a longer encoding starts
with a larger byte, and of two encodings of one length the first differing digit decides.
-/

namespace Utf8

/-- A text has as many characters as bytes that are no continuation bytes. -/
theorem length_filter_encode (cs : List Char) :
    ((encode cs).filter fun b => !isContinuation b).length = cs.length := by
  induction cs with
  | nil => rfl
  | cons c cs ih =>
    obtain ⟨b, t, hc, hb, ht⟩ := encodeChar_shape c
    have htail : t.filter (fun b => !isContinuation b) = [] := by
      rw [List.filter_eq_nil_iff]
      intro x hx
      simp [ht x hx]
    rw [encode_cons, hc, List.cons_append, List.filter_cons_of_pos (by simp [hb]),
      List.filter_append, htail, List.nil_append, List.length_cons, ih, List.length_cons]

/-! ## Order -/

theorem compare_ofNat_then {a b : Nat} (ha : a < 256) (hb : b < 256) (o : Ordering) :
    (compare (UInt8.ofNat a) (UInt8.ofNat b)).then o = .lt ↔ a < b ∨ a = b ∧ o = .lt := by
  rw [Ordering.then_eq_lt, Std.compare_eq_lt, Std.LawfulEqOrd.compare_eq_iff_eq,
    UInt8.lt_iff_toNat_lt, ← UInt8.toNat_inj, UInt8.toNat_ofNat', UInt8.toNat_ofNat',
    Nat.mod_eq_of_lt ha, Nat.mod_eq_of_lt hb]

/-- The digits of the longest encoding, the most significant first. -/
theorem digits_lt {v w : Nat} (h : v < w) (hw : w < 0x200000) :
    v / 0x40000 % 8 < w / 0x40000 % 8 ∨ v / 0x40000 % 8 = w / 0x40000 % 8 ∧
      (v / 0x1000 % 0x40 < w / 0x1000 % 0x40 ∨ v / 0x1000 % 0x40 = w / 0x1000 % 0x40 ∧
        (v / 0x40 % 0x40 < w / 0x40 % 0x40 ∨ v / 0x40 % 0x40 = w / 0x40 % 0x40 ∧
          v % 0x40 < w % 0x40)) := by
  by_cases h3 : v / 0x40000 = w / 0x40000
  · by_cases h2 : v / 0x1000 = w / 0x1000
    · by_cases h1 : v / 0x40 = w / 0x40
      · omega
      · omega
    · omega
  · left
    rw [Nat.mod_eq_of_lt (by omega), Nat.mod_eq_of_lt (by omega)]
    omega

/-- The encoding of a smaller character is smaller, whatever follows. -/
theorem compare_encodeChar_append_of_lt {c d : Char} (h : c < d) (x y : List UInt8) :
    compare (String.utf8EncodeChar c ++ x) (String.utf8EncodeChar d ++ y) = .lt := by
  have hlt : c.val.toNat < d.val.toNat := h
  have hd : d.val.toNat ≤ 0x10ffff := by
    have := d.valid
    unfold UInt32.isValidChar Nat.isValidChar at this
    omega
  unfold String.utf8EncodeChar
  simp only
  repeat' split
  all_goals simp (disch := omega) only [List.cons_append, List.nil_append, List.compare_cons_cons,
    compare_ofNat_then]
  -- only four bytes against four have more digits than the arithmetic sees through
  any_goals omega
  have hdigits := digits_lt hlt (by omega)
  simp only [Nat.add_lt_add_iff_right, Nat.add_right_cancel_iff]
  grind

theorem compare_append_left {α : Type} [Ord α] [Std.ReflOrd α] (p x y : List α) :
    compare (p ++ x) (p ++ y) = compare x y := by
  induction p with
  | nil => rfl
  | cons a p ih =>
    rw [List.cons_append, List.cons_append, List.compare_cons_cons, Std.ReflOrd.compare_self, ih]
    rfl

/-- UTF-8 keeps the lexicographic order of code points. -/
theorem compare_encode (cs ds : List Char) : compare (encode cs) (encode ds) = compare cs ds := by
  induction cs generalizing ds with
  | nil =>
    cases ds with
    | nil => rfl
    | cons d ds =>
      obtain ⟨b, t, hd, -⟩ := encodeChar_shape d
      rw [encode_cons, hd]
      rfl
  | cons c cs ih =>
    cases ds with
    | nil =>
      obtain ⟨b, t, hc, -⟩ := encodeChar_shape c
      rw [encode_cons, hc]
      rfl
    | cons d ds =>
      rw [encode_cons, encode_cons, List.compare_cons_cons]
      cases hcd : compare c d with
      | lt =>
        rw [compare_encodeChar_append_of_lt (compareOfLessAndEq_eq_lt.mp hcd)]
        rfl
      | eq =>
        obtain rfl := Std.LawfulEqOrd.eq_of_compare hcd
        rw [compare_append_left, ih]
        rfl
      | gt =>
        have hdc : compare d c = .lt := Std.OrientedCmp.gt_iff_lt.mp hcd
        rw [Std.OrientedCmp.gt_iff_lt.mpr
          (compare_encodeChar_append_of_lt (compareOfLessAndEq_eq_lt.mp hdc) _ _)]
        rfl

end Utf8
