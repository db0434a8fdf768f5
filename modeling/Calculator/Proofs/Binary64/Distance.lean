import Calculator.Binary64.Rounding
import Mathlib.Tactic.SplitIfs
/-!
Equality and distance of doubles do not depend on the order of the two. A difference rounds in the same way whatever its
sign, and the absolute value forgets the sign.
-/
namespace Calculator.Binary64
open Float.Model Float.Model.UnpackedFloat

/-! ### Differences of unpacked doubles -/

theorem roundWithAccuracy_abs (f : Format) (s t : Sign) (m : Nat) (e : Int) (accuracy : Accuracy) :
    (roundWithAccuracy f s m e accuracy).abs = (roundWithAccuracy f t m e accuracy).abs := by
  unfold roundWithAccuracy
  dsimp only
  rw [apply_dite UnpackedFloat.abs, apply_dite UnpackedFloat.abs]
  rfl

theorem normalize_neg_abs (f : Format) (m e : Int) (s : Sign) :
    (UnpackedFloat.normalize f (-m) e s).abs = (UnpackedFloat.normalize f m e s).abs := by
  unfold UnpackedFloat.normalize
  rcases Int.lt_trichotomy m 0 with h | h | h
  · rw [Std.compare_eq_gt.mpr (by omega : -m > 0), Std.compare_eq_lt.mpr h]
    exact roundWithAccuracy_abs ..
  · rw [h]
    rfl
  · rw [Std.compare_eq_lt.mpr (by omega : -m < 0), Std.compare_eq_gt.mpr h, Int.neg_neg]
    exact roundWithAccuracy_abs ..

theorem sub_abs_comm (f : Format) (x y : UnpackedFloat) : (x.sub f y).abs = (y.sub f x).abs := by
  cases x with
  | notANumber => cases y <;> rfl
  | infinity s =>
    cases y with
    | infinity t => cases s <;> cases t <;> rfl
    | _ => rfl
  | zero s =>
    cases y with
    | zero t => cases s <;> cases t <;> rfl
    | _ => rfl
  | finite s m e hm =>
    cases y with
    | finite t n k hn =>
      unfold UnpackedFloat.sub
      dsimp only
      rw [Int.min_comm k e, ← normalize_neg_abs, Int.neg_sub]
    | _ => rfl

theorem compare_swap (x y : UnpackedFloat) : y.compare x = (x.compare y).map Ordering.swap := by
  have hcompare (e k : Int) (m n : Nat) :
      (compare k e).then (compare n m) = ((compare e k).then (compare m n)).swap := by
    rw [Ordering.swap_then, ← Std.OrientedCmp.eq_swap, ← Std.OrientedCmp.eq_swap]
  cases x with
  | notANumber => cases y <;> rfl
  | infinity s =>
    cases y with
    | infinity t => cases s <;> cases t <;> rfl
    | finite t => cases s <;> cases t <;> rfl
    | _ => cases s <;> rfl
  | zero s =>
    cases y with
    | infinity t => cases t <;> rfl
    | finite t => cases t <;> rfl
    | _ => rfl
  | finite s m e hm =>
    cases y with
    | finite t n k hn =>
      cases s <;> cases t
      · exact congrArg (fun o => some o.swap) (hcompare e k m n)
      · rfl
      · rfl
      · exact congrArg some (hcompare e k m n)
    | infinity t => cases s <;> cases t <;> rfl
    | notANumber => cases s <;> rfl
    | zero t => cases s <;> rfl

theorem beq_comm (x y : UnpackedFloat) : x.beq y = y.beq x := by
  unfold UnpackedFloat.beq
  rw [compare_swap x y]
  rcases x.compare y with - | (_ | _ | _) <;> rfl

/-! ### Packing -/

theorem finite_abs {s t : Sign} {m n : Nat} {e : Int} {hm : 0 < m} {hn : 0 < n} (h : m = n) :
    (finite s m e hm).abs = (finite t n e hn).abs := by
  subst h
  rfl

/-- The absolute value of what is unpacked does not depend on the sign bit. -/
theorem unpack_abs {f : Format} {b c : BitVec f.numBits} (hexponent : unpackExponent b = unpackExponent c)
    (hmantissa : unpackMantissa b = unpackMantissa c) :
    (UnpackedFloat.unpack f b).abs = (UnpackedFloat.unpack f c).abs := by
  unfold UnpackedFloat.unpack
  dsimp only
  rw [hexponent]
  by_cases htop : unpackExponent c = -1#f.exponentBits
  · rw [if_pos htop, if_pos htop, hmantissa]
    split <;> rfl
  · rw [if_neg htop, if_neg htop]
    by_cases hbottom : unpackExponent c = 0#f.exponentBits
    · rw [if_pos hbottom, if_pos hbottom]
      by_cases hzero : unpackMantissa c = 0#f.mantissaBitsWithoutImplicit
      · rw [dif_pos (hmantissa.trans hzero), dif_pos hzero]
        rfl
      · rw [dif_neg fun h => hzero (hmantissa.symm.trans h), dif_neg hzero]
        exact finite_abs (congrArg BitVec.toNat hmantissa)
    · rw [if_neg hbottom, if_neg hbottom]
      exact finite_abs (by rw [hmantissa])

theorem fields_pack (f : Format) {x y : UnpackedFloat} (h : x.abs = y.abs) :
    unpackExponent (UnpackedFloat.pack f x) = unpackExponent (UnpackedFloat.pack f y) ∧
      unpackMantissa (UnpackedFloat.pack f x) = unpackMantissa (UnpackedFloat.pack f y) := by
  have hcomponents (s t : Sign) (exponent : BitVec f.exponentBits) (mantissa : BitVec f.mantissaBitsWithoutImplicit) :
      unpackExponent (packComponents f s exponent mantissa) = unpackExponent (packComponents f t exponent mantissa) ∧
        unpackMantissa (packComponents f s exponent mantissa) =
          unpackMantissa (packComponents f t exponent mantissa) := by
    simp only [unpackExponent_packComponents, unpackMantissa_packComponents, and_self]
  cases x <;> cases y <;> cases h
  · exact hcomponents ..
  · exact ⟨rfl, rfl⟩
  · exact hcomponents ..
  · unfold UnpackedFloat.pack
    dsimp only
    split_ifs <;> exact hcomponents ..

theorem unpack_pack_abs (f : Format) {x y : UnpackedFloat} (h : x.abs = y.abs) :
    (UnpackedFloat.unpack f (UnpackedFloat.pack f x)).abs = (UnpackedFloat.unpack f (UnpackedFloat.pack f y)).abs :=
  unpack_abs (fields_pack f h).1 (fields_pack f h).2

/-! ### Doubles -/

theorem distance_comm (x y : Float) : (x - y).abs = (y - x).abs :=
  congrArg (fun u => Float.ofModel (Float.Model.pack u))
    (unpack_pack_abs .binary64 (sub_abs_comm .binary64 x.toModel.unpack y.toModel.unpack))

theorem same_comm (x y : Float) : (x == y) = (y == x) :=
  beq_comm x.toModel.unpack y.toModel.unpack

end Calculator.Binary64
