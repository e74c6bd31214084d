/-
# Cctools.Theory.BitField -- words put together from bit fields

`put w at v` is the word of `w` bits that has the field `v` at bit `at` and
nothing else.  A packed word is an `|||` of such words; reading a field with
`extractLsb'` gives the field that was put there (`extract_put`) and nothing of
the fields beside it (`extract_put_above`, `extract_put_below`).  A mask and a
shift, which is how programs read a field, are `extractLsb'` too (`and_mask`).
-/
import Mathlib.Algebra.Order.Ring.Int
import Mathlib.Tactic.Linarith
import Mathlib.Tactic.Ring
import Mathlib.Tactic.Positivity

namespace Cctools.Theory.BitField

set_option autoImplicit false

variable {w n m start : Nat}

/-- The field `v` at bit `start` of a word of `w` bits. -/
def put (w start : Nat) (v : BitVec n) : BitVec w := v.setWidth w <<< start

theorem getLsbD_put (v : BitVec n) (i : Nat) :
    (put w start v).getLsbD i = (decide (i < w) && decide (start ≤ i) && v.getLsbD (i - start)) := by
  rw [put, BitVec.getLsbD_shiftLeft, BitVec.getLsbD_setWidth]
  by_cases inside : i < w
  · have less : i - start < w := by omega
    by_cases above : start ≤ i
    · simp [inside, above, less, show ¬ i < start by omega]
    · simp [above, show i < start by omega]
  · simp [inside]

theorem extract_put (v : BitVec n) (fits : start + n ≤ w) :
    (put w start v).extractLsb' start n = v := by
  apply BitVec.eq_of_getLsbD_eq
  intro i inside
  rw [BitVec.getLsbD_extractLsb', getLsbD_put]
  simp [inside, show start + i < w by omega]

theorem extract_put_above (v : BitVec n) {lo : Nat} (above : start + n ≤ lo) :
    (put w start v).extractLsb' lo m = 0#m := by
  apply BitVec.eq_of_getLsbD_eq
  intro i inside
  rw [BitVec.getLsbD_extractLsb', getLsbD_put, v.getLsbD_of_ge _ (by omega)]
  simp

theorem extract_put_below (v : BitVec n) {lo : Nat} (below : lo + m ≤ start) :
    (put w start v).extractLsb' lo m = 0#m := by
  apply BitVec.eq_of_getLsbD_eq
  intro i inside
  rw [BitVec.getLsbD_extractLsb', getLsbD_put]
  simp [show ¬ start ≤ lo + i by omega]

/-- A word whose bits outside one field are clear is that field. -/
theorem eq_put (x : BitVec w) (clear : ∀ i < w, ¬ (start ≤ i ∧ i < start + n) → x.getLsbD i = false) :
    x = put w start (x.extractLsb' start n) := by
  apply BitVec.eq_of_getLsbD_eq
  intro i inside
  rw [getLsbD_put, BitVec.getLsbD_extractLsb']
  by_cases here : start ≤ i ∧ i < start + n
  · simp [inside, here.1, show i - start < n by omega, show start + (i - start) = i by omega]
  · rw [clear i inside here]
    by_cases above : start ≤ i
    · simp [show ¬ i - start < n by omega]
    · simp [above]

theorem and_mask (x : BitVec w) :
    x &&& put w start (BitVec.allOnes n) = put w start (x.extractLsb' start n) := by
  apply BitVec.eq_of_getLsbD_eq
  intro i inside
  rw [BitVec.getLsbD_and, getLsbD_put, getLsbD_put, BitVec.getLsbD_extractLsb', BitVec.getLsbD_allOnes]
  by_cases above : start ≤ i
  · simp [inside, above, show start + (i - start) = i by omega, Bool.and_comm]
  · simp [above]

theorem put_shiftRight (v : BitVec n) {k : Nat} (down : k ≤ start) (fits : start + n ≤ w) :
    put w start v >>> k = put w (start - k) v := by
  apply BitVec.eq_of_getLsbD_eq
  intro i inside
  rw [BitVec.getLsbD_ushiftRight, getLsbD_put, getLsbD_put]
  by_cases above : start - k ≤ i
  · by_cases low : i - (start - k) < n
    · simp [inside, above, show start ≤ k + i by omega, show k + i < w by omega,
        show k + i - start = i - (start - k) by omega]
    · rw [v.getLsbD_of_ge _ (show n ≤ i - (start - k) by omega),
        v.getLsbD_of_ge _ (show n ≤ k + i - start by omega)]
      simp
  · simp [above, show ¬ start ≤ k + i by omega]

theorem extract_put_inside (v : BitVec n) {lo : Nat} (above : start ≤ lo) (fits : lo + m ≤ w) :
    (put w start v).extractLsb' lo m = v.extractLsb' (lo - start) m := by
  apply BitVec.eq_of_getLsbD_eq
  intro i inside
  rw [BitVec.getLsbD_extractLsb', BitVec.getLsbD_extractLsb', getLsbD_put]
  simp [inside, show lo + i < w by omega, show start ≤ lo + i by omega,
    show lo + i - start = lo - start + i by omega]

theorem extract_extract (x : BitVec w) {lo k : Nat} (fits : k + m ≤ n) :
    (x.extractLsb' lo n).extractLsb' k m = x.extractLsb' (lo + k) m := by
  apply BitVec.eq_of_getLsbD_eq
  intro i inside
  rw [BitVec.getLsbD_extractLsb', BitVec.getLsbD_extractLsb', BitVec.getLsbD_extractLsb']
  simp [inside, show k + i < n by omega, Nat.add_assoc]

@[simp] theorem put_zero (v : BitVec n) : put w 0 v = v.setWidth w := by
  simp [put]

theorem masked_field (x mask : BitVec w) {v : Nat} (field : mask = put w start (BitVec.allOnes n))
    (fits : start + n ≤ w) (narrower : v ≤ w) :
    ((x &&& mask) >>> start).setWidth v = (x.extractLsb' start n).setWidth v := by
  rw [field, and_mask, put_shiftRight _ le_rfl fits, Nat.sub_self, put_zero,
    BitVec.setWidth_setWidth_of_le _ narrower]

theorem put_eq_zero_iff (v : BitVec n) (fits : start + n ≤ w) : put w start v = 0 ↔ v = 0 := by
  constructor
  · intro zero
    rw [← extract_put v fits, zero]
    simp
  · rintro rfl
    simp [put]

/-! ## Reading through shifts and masks -/

theorem extract_and_ones (x mask : BitVec w) {lo : Nat}
    (ones : mask.extractLsb' lo m = BitVec.allOnes m) :
    (x &&& mask).extractLsb' lo m = x.extractLsb' lo m := by
  rw [BitVec.extractLsb'_and, ones, BitVec.and_allOnes]

theorem extract_and_zero (x mask : BitVec w) {lo : Nat} (zero : mask.extractLsb' lo m = 0#m) :
    (x &&& mask).extractLsb' lo m = 0#m := by
  rw [BitVec.extractLsb'_and, zero, BitVec.and_zero]

theorem extract_shiftLeft (x : BitVec w) {lo k : Nat} (above : k ≤ lo) (fits : lo + m ≤ w) :
    (x <<< k).extractLsb' lo m = x.extractLsb' (lo - k) m := by
  apply BitVec.eq_of_getLsbD_eq
  intro i inside
  rw [BitVec.getLsbD_extractLsb', BitVec.getLsbD_extractLsb', BitVec.getLsbD_shiftLeft]
  simp [inside, show lo + i < w by omega, show ¬ lo + i < k by omega,
    show lo + i - k = lo - k + i by omega]

theorem extract_ushiftRight (x : BitVec w) {lo k : Nat} :
    (x >>> k).extractLsb' lo m = x.extractLsb' (lo + k) m := by
  apply BitVec.eq_of_getLsbD_eq
  intro i inside
  rw [BitVec.getLsbD_extractLsb', BitVec.getLsbD_extractLsb', BitVec.getLsbD_ushiftRight]
  simp [show k + (lo + i) = lo + k + i by omega]

/-- An arithmetic shift reads the same bits as long as they are there. -/
theorem extract_sshiftRight (x : BitVec w) {lo k : Nat} (fits : lo + k + m ≤ w) :
    (x.sshiftRight k).extractLsb' lo m = x.extractLsb' (lo + k) m := by
  apply BitVec.eq_of_getLsbD_eq
  intro i inside
  rw [BitVec.getLsbD_extractLsb', BitVec.getLsbD_extractLsb', BitVec.getLsbD_sshiftRight]
  have there : lo + k + i < w := by omega
  simp [show ¬ w ≤ lo + i by omega, show k + (lo + i) = lo + k + i by omega, there]

theorem extract_append (x : BitVec w) {lo : Nat} :
    x.extractLsb' (lo + n) m ++ x.extractLsb' lo n = x.extractLsb' lo (m + n) := by
  apply BitVec.eq_of_getLsbD_eq
  intro i inside
  rw [BitVec.getLsbD_append, BitVec.getLsbD_extractLsb', BitVec.getLsbD_extractLsb',
    BitVec.getLsbD_extractLsb']
  by_cases low : i < n
  · simp [low, inside]
  · simp [low, inside, show i - n < m by omega, show lo + n + (i - n) = lo + i by omega]

/-! ## Masks -/

theorem toNat_and_high (x mask : BitVec w) {k : Nat} (high : mask = BitVec.allOnes w <<< k) :
    (x &&& mask).toNat = x.toNat / 2 ^ k * 2 ^ k := by
  have cleared : x &&& mask = x >>> k <<< k := by
    subst high
    apply BitVec.eq_of_getLsbD_eq
    intro i inside
    rw [BitVec.getLsbD_and, BitVec.getLsbD_shiftLeft, BitVec.getLsbD_shiftLeft,
      BitVec.getLsbD_ushiftRight, BitVec.getLsbD_allOnes]
    by_cases low : i < k
    · simp [low]
    · simp [low, inside, show k + (i - k) = i by omega, show i - k < w by omega]
  have small : x.toNat / 2 ^ k * 2 ^ k ≤ x.toNat := Nat.div_mul_le_self _ _
  rw [cleared, BitVec.toNat_shiftLeft, BitVec.toNat_ushiftRight, Nat.shiftRight_eq_div_pow,
    Nat.shiftLeft_eq, Nat.mod_eq_of_lt (by omega)]

theorem and_low_eq_zero_iff (x : BitVec w) {k : Nat} (fits : k ≤ w) :
    x &&& BitVec.ofNat w (2 ^ k - 1) = 0#w ↔ 2 ^ k ∣ x.toNat := by
  have narrow : 2 ^ k - 1 < 2 ^ w := by
    have := Nat.pow_le_pow_right two_pos fits
    have := Nat.two_pow_pos k
    omega
  rw [← BitVec.toNat_inj, BitVec.toNat_and, BitVec.toNat_ofNat, Nat.mod_eq_of_lt narrow,
    Nat.and_two_pow_sub_one_eq_mod, BitVec.toNat_ofNat, Nat.zero_mod, Nat.dvd_iff_mod_eq_zero]

theorem put_and_eq_zero (v : BitVec n) (mask : BitVec w) (zero : mask.extractLsb' start n = 0#n) :
    put w start v &&& mask = 0#w := by
  apply BitVec.eq_of_getLsbD_eq
  intro i inside
  rw [BitVec.getLsbD_and, getLsbD_put, BitVec.getLsbD_zero]
  by_cases here : start ≤ i ∧ i < start + n
  · have bit := congrArg (fun x => x.getLsbD (i - start)) zero
    simp only [BitVec.getLsbD_extractLsb', BitVec.getLsbD_zero] at bit
    simp_all [show start + (i - start) = i by omega, show i - start < n by omega]
  · by_cases above : start ≤ i
    · simp [v.getLsbD_of_ge (i - start) (by omega)]
    · simp [above]

theorem dvd_toInt_iff (x : BitVec w) {k : Nat} (fits : k ≤ w) :
    (2 : Int) ^ k ∣ x.toInt ↔ 2 ^ k ∣ x.toNat := by
  have whole : ((2 ^ k : Nat) : Int) ∣ ((2 ^ w : Nat) : Int) :=
    Int.natCast_dvd_natCast.mpr (pow_dvd_pow 2 fits)
  rw [← Int.natCast_dvd_natCast, BitVec.toInt_eq_toNat_cond]
  split
  · norm_cast
  · rw [dvd_sub_left (by exact_mod_cast whole)]
    norm_cast

/-! ## Signed fields -/

theorem toInt_extract (x : BitVec w) {lo : Nat} (fits : lo + n ≤ w) :
    (x.extractLsb' lo n).toInt = (x.toInt / 2 ^ lo).bmod (2 ^ n) := by
  have shifted : x.extractLsb' lo n = (x.sshiftRight lo).setWidth n := by
    rw [BitVec.setWidth_eq_extractLsb' (by omega), extract_sshiftRight x (by omega), Nat.zero_add]
  have narrower : 2 ^ n ∣ 2 ^ w := pow_dvd_pow 2 (by omega)
  rw [shifted, BitVec.toInt_setWidth, ← Int.bmod_bmod_of_dvd narrower,
    ← BitVec.toInt_eq_toNat_bmod, BitVec.toInt_sshiftRight, Int.shiftRight_eq_div_pow]
  norm_cast

theorem toInt_shiftLeft_of_fits (x : BitVec w) {lo : Nat} (low : -2 ^ n ≤ x.toInt)
    (high : x.toInt < 2 ^ n) (fits : lo + n + 1 ≤ w) : (x <<< lo).toInt = x.toInt * 2 ^ lo := by
  have scaled : (x <<< lo).toInt = (x.toInt * 2 ^ lo).bmod (2 ^ w) := by
    rw [BitVec.toInt_shiftLeft, Nat.shiftLeft_eq, BitVec.toInt_eq_toNat_bmod, Int.bmod_mul_bmod]
    norm_cast
  obtain ⟨room, rfl⟩ := Nat.exists_eq_add_of_le fits
  have unit : (0 : Int) < 2 ^ lo := by positivity
  have more : (1 : Int) ≤ 2 ^ room := by exact_mod_cast Nat.one_le_two_pow
  have width : ((2 ^ (lo + n + 1 + room) : Nat) : Int) = 2 * (2 ^ room * (2 ^ n * 2 ^ lo)) := by
    push_cast
    ring
  have wide : (2 : Int) ^ n * 2 ^ lo ≤ 2 ^ room * (2 ^ n * 2 ^ lo) :=
    le_mul_of_one_le_left (by positivity) more
  have above : -(2 ^ room * (2 ^ n * 2 ^ lo)) ≤ x.toInt * 2 ^ lo := by nlinarith
  have below : x.toInt * 2 ^ lo < 2 ^ room * (2 ^ n * 2 ^ lo) := by nlinarith
  rw [scaled, Int.bmod_eq_of_le]
  · omega
  · omega

/-- **A signed field keeps a number** that is a multiple of its unit and in its range. -/
theorem signed_field_iff (x : BitVec w) {lo : Nat} (fits : lo + n + 1 ≤ w) :
    (x.extractLsb' lo (n + 1)).signExtend w <<< lo = x ↔
      (2 : Int) ^ lo ∣ x.toInt ∧ -2 ^ (lo + n) ≤ x.toInt ∧ x.toInt < 2 ^ (lo + n) := by
  have unit : (0 : Int) < 2 ^ lo := by positivity
  have extended : ((x.extractLsb' lo (n + 1)).signExtend w).toInt
      = (x.toInt / 2 ^ lo).bmod (2 ^ (n + 1)) := by
    rw [BitVec.toInt_signExtend_of_le (by omega), toInt_extract x (by omega)]
  have low := BitVec.le_toInt (x.extractLsb' lo (n + 1))
  have high := @BitVec.toInt_lt _ (x.extractLsb' lo (n + 1))
  rw [toInt_extract x (by omega), ← extended, Nat.add_sub_cancel] at low high
  rw [← BitVec.toInt_inj, toInt_shiftLeft_of_fits _ low high fits, pow_add]
  constructor
  · intro same
    rw [← same]
    exact ⟨dvd_mul_left _ _, by nlinarith, by nlinarith⟩
  · rintro ⟨⟨units, whole⟩, above, below⟩
    rw [extended, whole, Int.mul_ediv_cancel_left _ unit.ne', Int.bmod_eq_of_le, mul_comm]
    · push_cast
      rw [pow_succ, Int.mul_ediv_cancel _ two_ne_zero]
      nlinarith
    · push_cast
      rw [pow_succ]
      have : units < 2 ^ n := by nlinarith
      omega

/-- A signed displacement read back and added to its base. -/
theorem add_signed_field_iff (base target : BitVec w) {lo : Nat} (fits : lo + n + 1 ≤ w) :
    base + ((target - base).extractLsb' lo (n + 1)).signExtend w <<< lo = target ↔
      2 ^ lo ∣ (target - base).toNat ∧ -2 ^ (lo + n) ≤ (target - base).toInt ∧
        (target - base).toInt < 2 ^ (lo + n) := by
  rw [← dvd_toInt_iff _ (by omega), ← signed_field_iff _ fits]
  constructor
  · intro lands
    rw [BitVec.eq_sub_iff_add_eq, BitVec.add_comm, lands]
  · intro same
    rw [same, BitVec.add_comm, BitVec.sub_add_cancel]

theorem toInt_setWidth_of_range (x : BitVec w) {v : Nat} (narrower : v + 1 ≤ w) (low : -2 ^ v ≤ x.toInt)
    (high : x.toInt < 2 ^ v) : (x.setWidth (v + 1)).toInt = x.toInt := by
  have divides : 2 ^ (v + 1) ∣ 2 ^ w := pow_dvd_pow 2 narrower
  rw [BitVec.toInt_setWidth, ← Int.bmod_bmod_of_dvd divides, ← BitVec.toInt_eq_toNat_bmod]
  apply Int.bmod_eq_of_le
  · push_cast
    rw [pow_succ]
    omega
  · push_cast
    rw [pow_succ]
    omega

theorem setWidth_sub (x y : BitVec w) {v : Nat} (narrower : v ≤ w) :
    (x - y).setWidth v = x.setWidth v - y.setWidth v := by
  rw [BitVec.eq_sub_iff_add_eq, ← BitVec.setWidth_add _ _ narrower, BitVec.sub_add_cancel]

theorem narrow_add_signed_field_iff (base target : BitVec w) {v lo : Nat} (narrower : v + 1 ≤ w)
    (low : -2 ^ v ≤ (target - base).toInt) (high : (target - base).toInt < 2 ^ v)
    (fits : lo + n + 1 ≤ v + 1) :
    base.setWidth (v + 1) + ((target - base).extractLsb' lo (n + 1)).signExtend (v + 1) <<< lo
        = target.setWidth (v + 1) ↔
      2 ^ lo ∣ (target - base).toNat ∧ -2 ^ (lo + n) ≤ (target - base).toInt ∧
        (target - base).toInt < 2 ^ (lo + n) := by
  have narrow := toInt_setWidth_of_range _ narrower low high
  have field : (target - base).extractLsb' lo (n + 1)
      = (target.setWidth (v + 1) - base.setWidth (v + 1)).extractLsb' lo (n + 1) := by
    rw [← setWidth_sub _ _ narrower, BitVec.extractLsb'_setWidth_of_le (by omega)]
  rw [field, add_signed_field_iff _ _ fits, ← setWidth_sub _ _ narrower, narrow,
    BitVec.toNat_setWidth, Nat.dvd_mod_iff (pow_dvd_pow 2 (by omega))]

/-! ## Wider words -/

theorem setWidth_signExtend (fits : w ≤ n) (value : BitVec w) : (value.signExtend n).setWidth w = value := by
  apply BitVec.eq_of_getLsbD_eq
  intro i small
  have below : i < n := by omega
  rw [BitVec.getLsbD_setWidth, BitVec.getLsbD_signExtend]
  simp [small, below]

end Cctools.Theory.BitField
