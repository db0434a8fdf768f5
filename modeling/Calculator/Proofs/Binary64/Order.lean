import Calculator.Binary64.Rounding
import Calculator.Proofs.Decimal.Value
import Mathlib
/-!
The order of doubles. The bits below the sign are a number that grows with the double. The double nearest to a ratio or
to a decimal number is on the same side of the other doubles as the number itself, so that comparing it with a double is
comparing the number.
-/
namespace Calculator.Binary64
open Float.Model Float.Model.UnpackedFloat

/-! ### Bits and parts -/

def signOf (negative : Bool) : Sign := if negative then .negative else .positive

/-- The bits of a magnitude below a sign bit. -/
def bits (negative : Bool) (m : ℕ) : BitVec 64 :=
  .ofNat 64 (if negative then m + 9223372036854775808 else m)

/-- The exponent field of a magnitude, where zero stands for the same exponent as one. -/
def exponentField (m : ℕ) : ℕ := Max.max (m / binadeSize) 1

/-- A magnitude taken apart. Only with the field zero the first bit is lacking. -/
def unpacked (s : Sign) (m : ℕ) : UnpackedFloat :=
  if m = infinityBits then .infinity s
  else if h : m = 0 then .zero s
  else
    have hpos : 0 < m - (exponentField m - 1) * binadeSize := by
      unfold exponentField binadeSize
      omega
    .finite s (m - (exponentField m - 1) * binadeSize) (exponentField m - 1075 : ℤ) hpos

section
variable {negative : Bool} {m n : ℕ}

theorem toNat_bits (hm : m ≤ infinityBits) :
    (bits negative m).toNat = if negative then m + 9223372036854775808 else m := by
  have hlt : infinityBits < 9223372036854775808 := by decide
  rw [bits, BitVec.toNat_ofNat]
  split <;> omega

theorem toNat_unpackMantissa (hm : m ≤ infinityBits) :
    (@unpackMantissa .binary64 (bits negative m)).toNat = m % binadeSize := by
  rw [unpackMantissa_def, BitVec.extractLsb'_toNat, toNat_bits hm, Nat.shiftRight_zero]
  change (if negative then m + 9223372036854775808 else m) % 4503599627370496 = m % 4503599627370496
  split <;> omega

theorem toNat_unpackExponent (hm : m ≤ infinityBits) :
    (@unpackExponent .binary64 (bits negative m)).toNat = m / binadeSize := by
  have hle : m ≤ 2047 * 4503599627370496 := hm
  rw [unpackExponent_def, BitVec.extractLsb'_toNat, toNat_bits hm, Nat.shiftRight_eq_div_pow]
  change (if negative then m + 9223372036854775808 else m) / 4503599627370496 % 2048 = m / 4503599627370496
  split <;> omega

theorem unpackExponent_special_iff (hm : m ≤ infinityBits) :
    @unpackExponent .binary64 (bits negative m) = -1#11 ↔ m = infinityBits := by
  have hle : m ≤ 2047 * 4503599627370496 := hm
  rw [← BitVec.toNat_inj, toNat_unpackExponent hm]
  change m / 4503599627370496 = 2047 ↔ m = 2047 * 4503599627370496
  omega

theorem unpackMantissa_zero_iff (hm : m ≤ infinityBits) :
    @unpackMantissa .binary64 (bits negative m) = 0#52 ↔ m % binadeSize = 0 := by
  rw [← BitVec.toNat_inj, toNat_unpackMantissa hm]
  rfl

/-- Up to the infinity a magnitude is the pattern of a number. -/
theorem valid_bits (hm : m ≤ infinityBits) : Format.binary64.Valid (bits negative m) where
  eq_packedNaN hspecial hfraction := by
    refine absurd ((unpackMantissa_zero_iff hm).mpr ?_) hfraction
    rw [(unpackExponent_special_iff hm).mp hspecial]
    rfl

theorem unpackSign_bits (hm : m ≤ infinityBits) :
    @unpackSign .binary64 (bits negative m) = (signOf negative).toBitVec := by
  have hle : m ≤ 2047 * 4503599627370496 := hm
  apply BitVec.eq_of_toNat_eq
  rw [unpackSign_def, BitVec.extractLsb'_toNat, toNat_bits hm, Nat.shiftRight_eq_div_pow]
  cases negative
  · change m / 9223372036854775808 % 2 = 0
    omega
  · change (m + 9223372036854775808) / 9223372036854775808 % 2 = 1
    omega

theorem unpack_bits (hm : m ≤ infinityBits) :
    UnpackedFloat.unpack .binary64 (bits negative m) = unpacked (signOf negative) m := by
  have hmantissa : (@unpackMantissa .binary64 (bits negative m)).toNat = m % binadeSize := toNat_unpackMantissa hm
  have hexponent : (@unpackExponent .binary64 (bits negative m)).toNat = m / binadeSize := toNat_unpackExponent hm
  have hle : m ≤ 2047 * 4503599627370496 := hm
  have hlow : @unpackExponent .binary64 (bits negative m) = 0#11 ↔ m / binadeSize = 0 := by
    rw [← BitVec.toNat_inj, hexponent]
    rfl
  unfold UnpackedFloat.unpack unpacked
  simp only [unpackSign_bits hm, Sign.ofBitVec_toBitVec, unpackExponent_special_iff hm, unpackMantissa_zero_iff hm,
    hlow, hmantissa, hexponent]
  have hbias : (Format.binary64.exponentBias : ℤ) = 1023 := rfl
  rcases eq_or_ne m infinityBits with heq | hne
  · have hmod : m % binadeSize = 0 := by
      rw [heq]
      rfl
    rw [if_pos heq, if_pos heq, if_pos hmod]
  rw [if_neg hne, if_neg hne, hbias]
  unfold exponentField binadeSize
  rcases eq_or_ne (m / 4503599627370496) 0 with hfield | hfield
  · rw [if_pos hfield]
    by_cases hm0 : m = 0
    · have hmod : m % 4503599627370496 = 0 := by omega
      rw [dif_pos hm0, dif_pos hmod]
    · have hmod : m % 4503599627370496 ≠ 0 := by omega
      rw [dif_neg hm0, dif_neg hmod]
      congr 1 <;> omega
  · have hm0 : m ≠ 0 := by omega
    rw [if_neg hfield, dif_neg hm0]
    have himplicit : (1#1 ++ @unpackMantissa .binary64 (bits negative m)).toNat =
        m % 4503599627370496 + 4503599627370496 := by
      rw [BitVec.toNat_append, ← Nat.shiftLeft_add_eq_or_of_lt (BitVec.isLt _), hmantissa, add_comm]
      rfl
    congr 1 <;> omega

/-- The bits of a magnitude are those of a double. -/
theorem toBits_ofMagnitude (hm : m ≤ infinityBits) : (ofMagnitude negative m).toBits.toBitVec = bits negative m :=
  pack_unpack_of_valid (valid_bits hm)

theorem abs_unpacked (s : Sign) (m : ℕ) : (unpacked s m).abs = unpacked .positive m := by
  unfold unpacked
  split
  · rfl
  · split <;> rfl

theorem abs_ofMagnitude (hm : m ≤ infinityBits) : (ofMagnitude negative m).abs = ofMagnitude false m := by
  rw [← Float.toBits_inj, ← UInt64.toBitVec_inj]
  change UnpackedFloat.pack .binary64 (UnpackedFloat.unpack .binary64 (ofMagnitude negative m).toBits.toBitVec).abs =
    UnpackedFloat.pack .binary64 (UnpackedFloat.unpack .binary64 (bits false m))
  rw [toBits_ofMagnitude hm, unpack_bits hm, unpack_bits hm, abs_unpacked]
  rfl

theorem unpacked_cases (m : ℕ) : m = infinityBits ∨ m = 0 ∨ 0 < m ∧ m ≠ infinityBits ∧ ∃ hpos, unpacked .positive m =
    .finite .positive (m - (exponentField m - 1) * binadeSize) (exponentField m - 1075 : ℤ) hpos := by
  rcases eq_or_ne m infinityBits with hinfinity | hinfinity
  · exact .inl hinfinity
  rcases eq_or_ne m 0 with hzero | hzero
  · exact .inr (.inl hzero)
  · refine .inr (.inr ⟨Nat.pos_of_ne_zero hzero, hinfinity, ?_⟩)
    unfold unpacked
    rw [if_neg hinfinity, dif_neg hzero]
    exact ⟨_, rfl⟩

/-- The exponent of a double is in the higher bits, and so its parts are compared as its magnitude is. -/
theorem compare_unpacked_iff (hm : m ≤ infinityBits) (hn : n ≤ infinityBits) :
    (unpacked .positive m).compare (unpacked .positive n) = some .lt ↔ m < n := by
  have hpos : 0 < infinityBits := by decide
  rcases unpacked_cases m with rfl | rfl | ⟨hm0, hmi, _, hmfinite⟩ <;>
    rcases unpacked_cases n with rfl | rfl | ⟨hn0, hni, _, hnfinite⟩
  · exact iff_of_false (by decide) (lt_irrefl _)
  · exact iff_of_false (by decide) (by omega)
  · rw [hnfinite]
    exact iff_of_false (by nofun) (by omega)
  · exact iff_of_true rfl hpos
  · exact iff_of_false (by decide) (lt_irrefl _)
  · rw [hnfinite]
    exact iff_of_true rfl hn0
  · rw [hmfinite]
    exact iff_of_true rfl (by omega)
  · rw [hmfinite]
    exact iff_of_false (by nofun) (by omega)
  · rw [hmfinite, hnfinite, UnpackedFloat.compare, Option.some.injEq, Ordering.then_eq_lt, compare_lt_iff_lt,
      compare_lt_iff_lt, compare_eq_iff_eq]
    unfold exponentField binadeSize
    omega

/-- Doubles without a sign are ordered as their magnitudes are. -/
theorem ofMagnitude_lt_iff (hm : m ≤ infinityBits) (hn : n ≤ infinityBits) :
    ofMagnitude false m < ofMagnitude false n ↔ m < n := by
  refine decide_eq_true_iff.trans ?_
  change ((UnpackedFloat.unpack .binary64 (ofMagnitude false m).toBits.toBitVec).compare
    (UnpackedFloat.unpack .binary64 (ofMagnitude false n).toBits.toBitVec) == some .lt) = true ↔ _
  rw [toBits_ofMagnitude hm, toBits_ofMagnitude hn, unpack_bits hm, unpack_bits hn, beq_iff_eq]
  exact compare_unpacked_iff hm hn

end

/-! ### Rounding -/

section
variable {num den : ℕ} {e : ℤ}

theorem cast_pow2_toNat (he : 0 ≤ e) : ((pow2 e.toNat : ℕ) : ℚ) = 2 ^ e := by
  rw [pow2, Nat.pow_eq, Nat.cast_pow, Nat.cast_ofNat, ← zpow_natCast, Int.toNat_of_nonneg he]

theorem scaled_pos (hden : 0 < den) (num : ℕ) (e : ℤ) : 0 < (scaled num den e).2 := by
  unfold scaled
  split
  · exact Nat.mul_pos hden (Nat.two_pow_pos _)
  · exact hden

theorem scaled_div (num den : ℕ) (e : ℤ) :
    ((scaled num den e).1 : ℚ) / (scaled num den e).2 = (num : ℚ) / den / 2 ^ e := by
  unfold scaled
  split
  · rename_i he
    rw [Nat.cast_mul, cast_pow2_toNat he, div_div]
  · rename_i he
    rw [Nat.cast_mul, cast_pow2_toNat (by omega), zpow_neg]
    field_simp

/-- The integer nearest to a ratio is on the same side of another integer as the ratio. -/
theorem nearestEven_le {n d k : ℕ} (hd : 0 < d) (h : (n : ℚ) / d ≤ k) : nearestEven n d ≤ k := by
  rw [div_le_iff₀ (by exact_mod_cast hd)] at h
  have hle : n ≤ k * d := by exact_mod_cast h
  unfold nearestEven
  dsimp only
  split
  · rename_i hup
    have hne : n ≠ k * d := by
      rintro rfl
      rw [Nat.mul_mod_left] at hup
      simp at hup
      omega
    exact Nat.succ_le_of_lt ((Nat.div_lt_iff_lt_mul hd).mpr (Nat.lt_of_le_of_ne hle hne))
  · exact Nat.div_le_of_le_mul (by rwa [mul_comm])

theorem le_nearestEven {n d k : ℕ} (hd : 0 < d) (h : (k : ℚ) ≤ (n : ℚ) / d) : k ≤ nearestEven n d := by
  rw [le_div_iff₀ (by exact_mod_cast hd)] at h
  have hquotient : k ≤ n / d := (Nat.le_div_iff_mul_le hd).mpr (by exact_mod_cast h)
  unfold nearestEven
  dsimp only
  split
  · exact hquotient.trans (Nat.le_succ _)
  · exact hquotient

theorem div_lt_iff_scaled (hden : 0 < den) (num k : ℕ) (e : ℤ) :
    (scaled num den e).1 / (scaled num den e).2 < k ↔ (num : ℚ) / den < k * 2 ^ e := by
  have hpos := scaled_pos hden num e
  rw [Nat.div_lt_iff_lt_mul hpos, ← div_lt_iff₀ (by positivity), ← scaled_div, div_lt_iff₀ (by exact_mod_cast hpos)]
  exact_mod_cast Iff.rfl

/-- In a unit of this exponent the number has 53 bits, or fewer if the unit is the least one. -/
structure IsUnit (v : ℚ) (e : ℤ) : Prop where
  ge_min : minExponent ≤ e
  lt : v < 2 ^ 53 * 2 ^ e
  ge : e ≠ minExponent → 2 ^ 52 * 2 ^ e ≤ v

theorem ratio_between (hnum : 0 < num) (hden : 0 < den) :
    (2 : ℚ) ^ (num.log2 - den.log2 - 1 : ℤ) ≤ num / den ∧ (num / den : ℚ) < 2 ^ (num.log2 - den.log2 + 1 : ℤ) := by
  have hbounds {n : ℕ} (hn : 0 < n) : (2 : ℚ) ^ (n.log2 : ℤ) ≤ n ∧ (n : ℚ) < 2 ^ (n.log2 + 1 : ℤ) := by
    rw [← Nat.cast_succ, zpow_natCast, zpow_natCast]
    exact_mod_cast And.intro (Nat.log2_self_le hn.ne') Nat.lt_log2_self
  obtain ⟨hnumlow, hnumhigh⟩ := hbounds hnum
  obtain ⟨hdenlow, hdenhigh⟩ := hbounds hden
  constructor
  · rw [le_div_iff₀ (by exact_mod_cast hden)]
    calc (2 : ℚ) ^ (num.log2 - den.log2 - 1 : ℤ) * den
        ≤ 2 ^ (num.log2 - den.log2 - 1 : ℤ) * 2 ^ (den.log2 + 1 : ℤ) := by gcongr
      _ = 2 ^ (num.log2 : ℤ) := by
          rw [← zpow_add₀ (by norm_num)]
          congr 1
          ring
      _ ≤ num := hnumlow
  · rw [div_lt_iff₀ (by exact_mod_cast hden)]
    calc (num : ℚ) < 2 ^ (num.log2 + 1 : ℤ) := hnumhigh
      _ = 2 ^ (num.log2 - den.log2 + 1 : ℤ) * 2 ^ (den.log2 : ℤ) := by
          rw [← zpow_add₀ (by norm_num)]
          congr 1
          ring
      _ ≤ 2 ^ (num.log2 - den.log2 + 1 : ℤ) * den := by gcongr

theorem isUnit_unitExponent (hnum : 0 < num) (hden : 0 < den) : IsUnit ((num : ℚ) / den) (unitExponent num den) := by
  obtain ⟨first, hfirst⟩ : ∃ first : ℤ, first = (num.log2 : ℤ) - den.log2 - 53 := ⟨_, rfl⟩
  -- Before the least unit is put in its place, the ratio has just 53 bits.
  have hunit : ∃ e : ℤ, unitExponent num den = Max.max e minExponent ∧ (num : ℚ) / den < 2 ^ 53 * 2 ^ e ∧
      2 ^ 52 * 2 ^ e ≤ (num : ℚ) / den := by
    obtain ⟨hlow, hhigh⟩ := ratio_between hnum hden
    have hlow' : (num.log2 - den.log2 - 1 : ℤ) = (52 : ℕ) + first := by omega
    have hhigh' : (num.log2 - den.log2 + 1 : ℤ) = (54 : ℕ) + first := by omega
    rw [hlow', zpow_add₀ (by norm_num), zpow_natCast] at hlow
    rw [hhigh', zpow_add₀ (by norm_num), zpow_natCast] at hhigh
    have hdiv := div_lt_iff_scaled hden num (2 * binadeSize) first
    have hsize : ((2 * binadeSize : ℕ) : ℚ) = 2 ^ 53 := by norm_num [binadeSize]
    rw [hsize] at hdiv
    unfold unitExponent
    rw [← hfirst]
    dsimp only
    split
    · rename_i hless
      exact ⟨first, rfl, hdiv.mp hless, hlow⟩
    · rename_i hmore
      refine ⟨first + 1, rfl, ?_, ?_⟩
      · rw [zpow_add_one₀ (by norm_num)]
        linarith
      · rw [zpow_add_one₀ (by norm_num)]
        linarith [not_lt.mp (mt hdiv.mpr hmore)]
  obtain ⟨e, he, hlt, hge⟩ := hunit
  rw [he]
  refine ⟨le_max_right .., hlt.trans_le ?_, fun hne => ?_⟩
  · gcongr
    · norm_num
    · exact le_max_left ..
  · rwa [max_eq_left (by omega)]

/-- The number `k · 2 ^ f` is a double with all its 53 bits. -/
structure IsDouble (k : ℕ) (f : ℤ) : Prop where
  ge : 2 ^ 52 ≤ k
  lt : k < 2 ^ 53
  min_le : minExponent ≤ f
  le : f ≤ 971

/-- The magnitude of the double `k · 2 ^ f`. -/
def magnitudeOf (k : ℕ) (f : ℤ) : ℕ := (f - minExponent).toNat * binadeSize + k

/-- The magnitude of a double that is on the same side of other doubles as the number. -/
structure IsNearest (v : ℚ) (m : ℕ) : Prop where
  le_infinity : m ≤ infinityBits
  le {k : ℕ} {f : ℤ} (hd : IsDouble k f) (h : v ≤ k * 2 ^ f) : m ≤ magnitudeOf k f
  ge {k : ℕ} {f : ℤ} (hd : IsDouble k f) (h : k * 2 ^ f ≤ v) : magnitudeOf k f ≤ m

section
variable {v : ℚ} {k : ℕ} {f : ℤ}

theorem IsUnit.exponent_le (h : IsUnit v e) (hd : IsDouble k f) (hv : v ≤ k * 2 ^ f) : e ≤ f := by
  by_contra hgt
  have hmin := hd.min_le
  have hge := h.ge (by omega)
  have hk : (k : ℚ) < 2 ^ 53 := by exact_mod_cast hd.lt
  have hstep : (2 : ℚ) ^ (f + 1) ≤ 2 ^ e := zpow_le_zpow_right₀ (by norm_num) (by omega)
  rw [zpow_add_one₀ (by norm_num)] at hstep
  linarith [mul_lt_mul_of_pos_right hk (by positivity : (0 : ℚ) < 2 ^ f)]

theorem IsUnit.le_exponent (h : IsUnit v e) (hd : IsDouble k f) (hv : k * 2 ^ f ≤ v) : f ≤ e := by
  by_contra hlt
  have hless := h.lt
  have hk : (2 : ℚ) ^ 52 ≤ k := by exact_mod_cast hd.ge
  have hstep : (2 : ℚ) ^ (e + 1) ≤ 2 ^ f := zpow_le_zpow_right₀ (by norm_num) (by omega)
  rw [zpow_add_one₀ (by norm_num)] at hstep
  linarith [mul_le_mul_of_nonneg_right hk (by positivity : (0 : ℚ) ≤ 2 ^ f)]

theorem IsDouble.magnitudeOf_le (hd : IsDouble k f) : magnitudeOf k f ≤ infinityBits := by
  obtain ⟨-, hk, -, hf⟩ := hd
  unfold magnitudeOf infinityBits specialField binadeSize minExponent
  omega

end

theorem exists_ofRatio (negative : Bool) (hnum : 0 < num) (hden : 0 < den) :
    ∃ m, ofRatio negative num den = ofMagnitude negative m ∧ IsNearest ((num : ℚ) / den) m := by
  obtain ⟨e, he⟩ : ∃ e, e = unitExponent num den := ⟨_, rfl⟩
  have hunit := isUnit_unitExponent hnum hden
  rw [← he] at hunit
  have hpos := scaled_pos hden num e
  have hratio := scaled_div num den e
  have hpower : (0 : ℚ) < 2 ^ e := by positivity
  have hmin := hunit.ge_min
  refine ⟨Min.min (magnitudeOf (nearestEven (scaled num den e).1 (scaled num den e).2) e) infinityBits, ?_,
    min_le_right .., ?_, ?_⟩
  · rw [ofRatio, if_neg hnum.ne', ← he]
    rfl
  -- A greater exponent outweighs the nearest integer, which is `2 ^ 53` at most.
  · intro k f hd h
    refine (min_le_left ..).trans ?_
    rcases (hunit.exponent_le hd h).eq_or_lt with rfl | hlt
    · have hnear := nearestEven_le (k := k) hpos (by rwa [hratio, div_le_iff₀ hpower])
      exact Nat.add_le_add_left hnear _
    · have hnear := nearestEven_le (k := 2 ^ 53) hpos (by
        rw [hratio, div_le_iff₀ hpower]
        exact_mod_cast hunit.lt.le)
      have hk := hd.ge
      unfold magnitudeOf binadeSize
      omega
  · intro k f hd h
    refine le_min ?_ hd.magnitudeOf_le
    rcases (hunit.le_exponent hd h).eq_or_lt with rfl | hlt
    · have hnear := le_nearestEven (k := k) hpos (by rwa [hratio, le_div_iff₀ hpower])
      exact Nat.add_le_add_left hnear _
    · have hfmin := hd.min_le
      have hnear := le_nearestEven (k := 2 ^ 52) hpos (by
        rw [hratio, le_div_iff₀ hpower]
        exact_mod_cast hunit.ge (by omega))
      have hk := hd.lt
      unfold magnitudeOf binadeSize
      omega

theorem isNearest_infinity {v : ℚ} (h : 2 ^ 1024 ≤ v) : IsNearest v infinityBits where
  le_infinity := le_rfl
  le {k f} hd hle := by
    exfalso
    have hk : (k : ℚ) < 2 ^ 53 := by exact_mod_cast hd.lt
    have hpower : (2 : ℚ) ^ f ≤ 2 ^ 971 := by
      rw [← zpow_natCast]
      exact zpow_le_zpow_right₀ (by norm_num) hd.le
    have hlt : (k : ℚ) * 2 ^ f < 2 ^ 53 * 2 ^ 971 := mul_lt_mul hk hpower (by positivity) (by positivity)
    rw [← pow_add] at hlt
    exact absurd (h.trans_lt (hle.trans_lt hlt)) (lt_irrefl _)
  ge hd _ := hd.magnitudeOf_le

theorem isNearest_zero {v : ℚ} (h : v * 2 ^ 1022 < 1) : IsNearest v 0 where
  le_infinity := Nat.zero_le _
  le _ _ := Nat.zero_le _
  ge {k f} hd hge := by
    exfalso
    have hk : (2 : ℚ) ^ 52 ≤ k := by exact_mod_cast hd.ge
    have hpower : (2 : ℚ) ^ minExponent ≤ 2 ^ f := zpow_le_zpow_right₀ (by norm_num) hd.min_le
    have hle : (2 : ℚ) ^ 52 * 2 ^ minExponent * 2 ^ 1022 ≤ k * 2 ^ f * 2 ^ 1022 := by gcongr
    have hone : (2 : ℚ) ^ 52 * 2 ^ minExponent * 2 ^ 1022 = 1 := by
      rw [← zpow_natCast 2 52, ← zpow_natCast 2 1022, ← zpow_add₀ (by norm_num), ← zpow_add₀ (by norm_num)]
      rfl
    have hscale := mul_le_mul_of_nonneg_right hge (by positivity : (0 : ℚ) ≤ 2 ^ 1022)
    exact absurd (hone.symm.trans_le (hle.trans hscale)) (not_le.mpr h)

/-- The double of a decimal number has the nearest magnitude. -/
theorem exists_ofDecimal (negative : Bool) (digits : ℕ) (exponent : ℤ) :
    ∃ m, ofDecimal negative digits exponent = ofMagnitude negative m ∧ IsNearest (digits * 10 ^ exponent : ℚ) m := by
  unfold ofDecimal
  split
  · rename_i hzero
    exact ⟨0, rfl, isNearest_zero (by rw [hzero]; norm_num)⟩
  rename_i hne
  have hpos : 0 < digits := Nat.pos_of_ne_zero hne
  have hcount := Digits.count_pos digits
  have hlow : (10 : ℚ) ^ (Digits.count digits - 1 : ℤ) ≤ digits := by
    have hle := Digits.pow_count_le hne
    rw [← Nat.cast_pred hcount, zpow_natCast]
    exact_mod_cast hle
  have hhigh : (digits : ℚ) < 10 ^ (Digits.count digits : ℤ) := by
    rw [zpow_natCast]
    exact_mod_cast Digits.lt_pow_count digits
  have hpower : (0 : ℚ) < 10 ^ exponent := by positivity
  dsimp only
  split
  · rename_i hlarge
    refine ⟨infinityBits, rfl, isNearest_infinity ?_⟩
    have hfinite : (2 : ℚ) ^ 1024 ≤ 10 ^ (310 : ℕ) := by exact_mod_cast (by decide +kernel : 2 ^ 1024 ≤ 10 ^ 310)
    calc (2 : ℚ) ^ 1024 ≤ 10 ^ ((310 : ℕ) : ℤ) := by rwa [zpow_natCast]
      _ ≤ 10 ^ (Digits.count digits - 1 + exponent : ℤ) := zpow_le_zpow_right₀ (by norm_num) (by omega)
      _ = 10 ^ (Digits.count digits - 1 : ℤ) * 10 ^ exponent := zpow_add₀ (by norm_num) ..
      _ ≤ digits * 10 ^ exponent := by gcongr
  split
  · rename_i hsmall
    refine ⟨0, rfl, isNearest_zero ?_⟩
    have hnormal : (2 : ℚ) ^ 1022 ≤ 10 ^ (330 : ℕ) := by exact_mod_cast (by decide +kernel : 2 ^ 1022 ≤ 10 ^ 330)
    calc (digits : ℚ) * 10 ^ exponent * 2 ^ 1022
        < 10 ^ (Digits.count digits : ℤ) * 10 ^ exponent * 2 ^ 1022 := by gcongr
      _ ≤ 10 ^ (Digits.count digits : ℤ) * 10 ^ exponent * 10 ^ ((330 : ℕ) : ℤ) := by
          rw [zpow_natCast 10 330]
          gcongr
      _ = 10 ^ (Digits.count digits + exponent + (330 : ℕ) : ℤ) := by
          rw [zpow_add₀ (by norm_num), zpow_add₀ (by norm_num)]
      _ ≤ 1 := zpow_le_one_of_nonpos₀ (by norm_num) (by omega)
  split
  · rename_i hnonneg
    obtain ⟨m, hm, hnear⟩ := exists_ofRatio negative (Nat.mul_pos hpos (pow10_pos exponent.toNat)) one_pos
    refine ⟨m, hm, ?_⟩
    rw [Nat.cast_mul, Decimal.cast_pow10_toNat hnonneg, Nat.cast_one, div_one] at hnear
    exact hnear
  · rename_i hneg
    obtain ⟨m, hm, hnear⟩ := exists_ofRatio negative hpos (pow10_pos (-exponent).toNat)
    refine ⟨m, hm, ?_⟩
    rw [Decimal.cast_pow10_toNat (by omega), zpow_neg, div_inv_eq_mul] at hnear
    exact hnear

end
end Calculator.Binary64
