import Mathlib.Data.Nat.Bitwise

/-!
# Tags (`lib/tag.h`)

A tag is a `uint32_t` with exactly two bits set; a combination of tags is their
bitwise or (superimposed coding). `tag_intersects` and `tag_is_valid`
(`lib/tag.h`, lines 94–111) both rest on the trick `x & (x - 1)`, which clears
the lowest set bit of `x`. `tag_type` is modelled as `BitVec 32`, so `x - 1`
wraps to `0xFFFFFFFF` at `x = 0` as in C.

Results:
* `popcount_and_sub_one`: `x & (x - 1)` has one bit fewer than `x` (none if
  `x = 0`).
* `tagIsValid_iff_popcount`: `tag_is_valid t` iff `t` has exactly two bits set.
* `tagIntersects_iff_popcount`: `tag_intersects a b` iff `a & b` has at least
  two bits set.
* `tagIntersects_iff_exists_valid`: equivalently, some valid tag lies below
  both `a` and `b`.
* `tagIntersects_mono`: `tag_intersects` is monotone under bitwise inclusion.
-/

namespace Of12Softswitch.Lib

/-! ## Counting bits -/

/-- The number of ones among the low `w` binary digits of `n`. -/
def bitCount : ℕ → ℕ → ℕ
  | 0, _ => 0
  | w + 1, n => n % 2 + bitCount w (n / 2)

theorem bitCount_succ (w n : ℕ) : bitCount (w + 1) n = n % 2 + bitCount w (n / 2) := rfl

@[simp] theorem bitCount_zero (w : ℕ) : bitCount w 0 = 0 := by
  induction w with
  | zero => rfl
  | succ w ih => simp [bitCount_succ, ih]

theorem and_mod_two_eq_zero {a b : ℕ} (h : a % 2 = 0 ∨ b % 2 = 0) : (a &&& b) % 2 = 0 := by
  have := @Nat.and_mod_two_eq_one a b
  omega

/-- `n & (n - 1)` clears the lowest set bit of `n`. -/
theorem bitCount_and_sub_one (w n : ℕ) : bitCount w (n &&& (n - 1)) = bitCount w n - 1 := by
  induction w generalizing n with
  | zero => rfl
  | succ w ih =>
    rw [bitCount_succ, bitCount_succ, and_mod_two_eq_zero (by omega), Nat.and_div_two]
    rcases Nat.mod_two_eq_zero_or_one n with h | h
    · rcases Nat.eq_zero_or_pos n with rfl | hn
      · simp
      · rw [show (n - 1) / 2 = n / 2 - 1 by omega, ih]
        omega
    · rw [show (n - 1) / 2 = n / 2 by omega, Nat.and_self]
      omega

theorem bitCount_and_le (w a b : ℕ) : bitCount w (a &&& b) ≤ bitCount w b := by
  induction w generalizing a b with
  | zero => exact le_rfl
  | succ w ih =>
    rw [bitCount_succ, bitCount_succ, Nat.and_div_two]
    have := ih (a / 2) (b / 2)
    have := @Nat.and_mod_two_eq_one a b
    omega

/-- Removing the bits of a submask `b` of `a` removes `bitCount b` bits. -/
theorem bitCount_xor_add {w a b : ℕ} (h : b &&& a = b) :
    bitCount w (a ^^^ b) + bitCount w b = bitCount w a := by
  induction w generalizing a b with
  | zero => rfl
  | succ w ih =>
    have h2 : b / 2 &&& a / 2 = b / 2 := by rw [← Nat.and_div_two, h]
    rw [bitCount_succ, bitCount_succ, bitCount_succ, Nat.xor_div_two, ← ih h2]
    have := @Nat.and_mod_two_eq_one b a
    have := @Nat.xor_mod_two_eq_one a b
    rw [h] at *
    omega

theorem bitCount_eq_zero_iff {w n : ℕ} (hn : n < 2 ^ w) : bitCount w n = 0 ↔ n = 0 := by
  induction w generalizing n with
  | zero => simp at hn; simp [hn, bitCount]
  | succ w ih =>
    rw [bitCount_succ, Nat.pow_succ] at *
    have := @ih (n / 2) (by omega)
    omega

/-- The number of bits set in `x`. -/
def popcount {w : ℕ} (x : BitVec w) : ℕ := bitCount w x.toNat

theorem popcount_eq_zero_iff {w : ℕ} (x : BitVec w) : popcount x = 0 ↔ x = 0 := by
  rw [popcount, bitCount_eq_zero_iff x.isLt, BitVec.toNat_eq]
  simp

/-- `t` is a submask of `x`. -/
theorem and_eq_left_iff {w : ℕ} {t x : BitVec w} :
    t &&& x = t ↔ ∀ i, t.getLsbD i = true → x.getLsbD i = true := by
  constructor
  · intro h i hi
    rw [← h, BitVec.getLsbD_and] at hi
    exact (Bool.and_eq_true _ _ ▸ hi).2
  · intro h
    apply BitVec.eq_of_getLsbD_eq
    intro i
    have := h i
    revert this
    simp only [BitVec.getLsbD_and]
    cases t.getLsbD i <;> cases x.getLsbD i <;> decide

theorem popcount_and_le {w : ℕ} (x y : BitVec w) : popcount (x &&& y) ≤ popcount y := by
  rw [popcount, BitVec.toNat_and]
  exact bitCount_and_le w _ _

/-- `tag_type` (`lib/tag.h` line 87): a tag, or the combination of 0 or more
    tags. -/
abbrev TagType := BitVec 32

theorem toNat_and_sub_one (x : TagType) : (x &&& (x - 1)).toNat = x.toNat &&& (x.toNat - 1) := by
  rw [BitVec.toNat_and]
  by_cases h : x.toNat = 0
  · simp [h]
  · have := x.isLt
    congr 1
    simp
    omega

theorem popcount_and_sub_one (x : TagType) : popcount (x &&& (x - 1)) = popcount x - 1 := by
  rw [popcount, popcount, toNat_and_sub_one, bitCount_and_sub_one]

/-! ## `tag_intersects` and `tag_is_valid` -/

/-- `tag_intersects` (`lib/tag.h`, lines 96–101):
```
tag_type x = a & b;
return (x & (x - 1)) != 0;
``` -/
def tagIntersects (a b : TagType) : Bool :=
  let x := a &&& b
  x &&& (x - 1) != 0

/-- `tag_is_valid` (`lib/tag.h`, lines 105–111):
```
tag_type x = tag & (tag - 1);
tag_type y = x & (x - 1);
return x && !y;
``` -/
def tagIsValid (tag : TagType) : Bool :=
  let x := tag &&& (tag - 1)
  let y := x &&& (x - 1)
  x != 0 && y == 0

theorem tagIntersects_iff_popcount (a b : TagType) :
    tagIntersects a b = true ↔ 2 ≤ popcount (a &&& b) := by
  have := popcount_eq_zero_iff ((a &&& b) &&& ((a &&& b) - 1))
  rw [popcount_and_sub_one] at this
  simp only [tagIntersects, bne_iff_ne, ne_eq, ← this]
  omega

theorem tagIsValid_iff_popcount (t : TagType) : tagIsValid t = true ↔ popcount t = 2 := by
  have hx := popcount_eq_zero_iff (t &&& (t - 1))
  have hy := popcount_eq_zero_iff ((t &&& (t - 1)) &&& ((t &&& (t - 1)) - 1))
  rw [popcount_and_sub_one] at hx hy
  rw [popcount_and_sub_one] at hy
  simp only [tagIsValid, Bool.and_eq_true, bne_iff_ne, ne_eq, beq_iff_eq, ← hx, ← hy]
  omega

/-- Two bits of `x` above the lowest two removed: `x ^^^ z` keeps exactly the
    lowest two set bits of `x`. -/
theorem xor_and_eq_self {x z : TagType} (h : z &&& x = z) : (x ^^^ z) &&& x = x ^^^ z := by
  rw [and_eq_left_iff] at *
  intro i
  have := h i
  revert this
  simp only [BitVec.getLsbD_xor]
  cases x.getLsbD i <;> cases z.getLsbD i <;> decide

/-- A value with at least two bits set lies above a valid tag: its lowest two
    set bits. -/
theorem exists_valid_le {x : TagType} (hx : 2 ≤ popcount x) :
    ∃ t, tagIsValid t = true ∧ t &&& x = t := by
  let y := x &&& (x - 1)
  let z := y &&& (y - 1)
  have hz : z &&& x = z := by
    rw [and_eq_left_iff]
    simp_all [z, y]
  have hcount : popcount z = popcount x - 2 := by
    simp only [z, y, popcount_and_sub_one]
    omega
  refine ⟨x ^^^ z, ?_, xor_and_eq_self hz⟩
  have := @bitCount_xor_add 32 x.toNat z.toNat (by rw [← BitVec.toNat_and, hz])
  rw [tagIsValid_iff_popcount, popcount, BitVec.toNat_xor]
  simp only [popcount] at hcount hx
  omega

theorem tagIntersects_iff_exists_valid (a b : TagType) :
    tagIntersects a b = true ↔ ∃ t, tagIsValid t = true ∧ t &&& a = t ∧ t &&& b = t := by
  rw [tagIntersects_iff_popcount]
  constructor
  · intro h
    obtain ⟨t, ht, hle⟩ := exists_valid_le h
    simp only [and_eq_left_iff, BitVec.getLsbD_and, Bool.and_eq_true] at hle ⊢
    exact ⟨t, ht, fun i hi => (hle i hi).1, fun i hi => (hle i hi).2⟩
  · rintro ⟨t, ht, ha, hb⟩
    have hle : t &&& (a &&& b) = t := by rw [← BitVec.and_assoc, ha, hb]
    have := popcount_and_le t (a &&& b)
    rw [hle, (tagIsValid_iff_popcount t).mp ht] at this
    exact this

/-- `tag_intersects` can only become true when an argument gains bits. -/
theorem tagIntersects_mono {a a' b : TagType} (h : a &&& a' = a) (hab : tagIntersects a b = true) :
    tagIntersects a' b = true := by
  rw [tagIntersects_iff_popcount] at *
  have hsub : (a &&& b) &&& (a' &&& b) = a &&& b := by
    rw [and_eq_left_iff] at *
    simp_all
  have := popcount_and_le (a &&& b) (a' &&& b)
  rw [hsub] at this
  omega

/-- `tag_intersects` and `tag_is_valid` on every pair of 32-bit values, the
    wrap-around inputs `a & b = 0` and `t = 0` included. -/
theorem tagIntersects_tagIsValid_correct :
    (∀ a b : TagType,
      tagIntersects a b = true ↔ ∃ t, tagIsValid t = true ∧ t &&& a = t ∧ t &&& b = t) ∧
    (∀ a b : TagType, tagIntersects a b = true ↔ 2 ≤ popcount (a &&& b)) ∧
    ∀ t : TagType, tagIsValid t = true ↔ popcount t = 2 :=
  ⟨tagIntersects_iff_exists_valid, tagIntersects_iff_popcount, tagIsValid_iff_popcount⟩

example : tagIntersects 0x3 0x6 = false ∧ tagIntersects 0x7 0x6 = true ∧ tagIsValid 0 = false := by
  decide

end Of12Softswitch.Lib
