import Mathlib.Algebra.Group.Nat.Defs
import Mathlib.Tactic.ByContra
import Mathlib.Tactic.SplitIfs
import Conform.Json.Basic

/-!
# Doubles and the integers among them

An integer of fewer than 54 bits has a double of its own.  So a double that is such an integer
is given back when the integer is made a double again, but for the sign of zero; and a double
that is written as a number in a document is read as the same number.  The sign of zero is also
all that equality of doubles does not tell.

## Main definitions

* `Number.spare`: how many digits an integer is short of those that a double has.
* `Number.unsignZero`: what equality tells of a double.

## Main results

* `Number.unpack_ofInt`: the double of an integer that doubles can tell from its neighbours.
* `Number.safeWhole?_ofInt`: the integer that it equals.
* `Number.beq_iff`: equal doubles are the same, up to the sign of zero.
* `Number.beq_ofInt_of_safeWhole`: a double is the double of the integer that it equals.
* `Json.exists_ofFloat`: a finite double is written as a number that stands for it.
-/

namespace Conform

open Float.Model Float.Model.UnpackedFloat

namespace Number

/-! ## Packing -/

/-- The sign is unpacked as it was packed. -/
theorem sign_packComponents (sign : Sign) (exponent : BitVec 11) (fraction : BitVec 52) :
    Sign.ofBitVec (unpackSign (packComponents Format.binary64 sign exponent fraction)) = sign := by
  have hbit : unpackSign (packComponents Format.binary64 sign exponent fraction) =
      sign.toBitVec := by
    change (sign.toBitVec ++ exponent ++ fraction).extractLsb' 63 1 = _
    rw [BitVec.extractLsb'_append_eq_of_le (by decide),
      BitVec.extractLsb'_append_eq_of_le (by decide)]
    cases sign <;> rfl
  rw [hbit]
  cases sign <;> rfl

variable {bits : BitVec Format.binary64.numBits}

/-- The greatest exponent is that of the infinities, and of what is not a number. -/
theorem unpack_of_ones (hones : unpackExponent bits = -1#11) :
    (∃ sign, UnpackedFloat.unpack Format.binary64 bits = .infinity sign) ∨
      UnpackedFloat.unpack Format.binary64 bits = .notANumber := by
  by_cases hfraction : unpackMantissa bits = 0#52
  · exact .inl ⟨_, (if_pos hones).trans (if_pos hfraction)⟩
  · exact .inr ((if_pos hones).trans (if_neg hfraction))

/-- The least exponent is that of the zeros and of the subnormal numbers. -/
theorem unpack_of_zero (hones : unpackExponent bits ≠ -1#11) (hzero : unpackExponent bits = 0#11) :
    (∃ sign, UnpackedFloat.unpack Format.binary64 bits = .zero sign) ∨
      ∃ hpos, UnpackedFloat.unpack Format.binary64 bits =
        .finite (Sign.ofBitVec (unpackSign bits)) (unpackMantissa bits).toNat (-1074) hpos := by
  have hexponent : ((unpackExponent bits).toNat : Int) - (Format.binary64.exponentBias + 52) + 1 =
      -1074 := by
    rw [hzero]
    rfl
  by_cases hfraction : unpackMantissa bits = 0#52
  · exact .inl ⟨_, (if_neg hones).trans ((if_pos hzero).trans (dif_pos hfraction))⟩
  · refine .inr ⟨?_, ?_⟩
    · exact Nat.pos_of_ne_zero fun hnat => hfraction (BitVec.eq_of_toNat_eq hnat)
    · rw [← hexponent]
      exact (if_neg hones).trans ((if_pos hzero).trans (dif_neg hfraction))

/-- All other exponents are those of the normal numbers. -/
theorem unpack_of_normal (hones : unpackExponent bits ≠ -1#11)
    (hzero : unpackExponent bits ≠ 0#11) :
    ∃ hpos, UnpackedFloat.unpack Format.binary64 bits =
      .finite (Sign.ofBitVec (unpackSign bits)) (1#1 ++ unpackMantissa bits).toNat
        ((unpackExponent bits).toNat - (Format.binary64.exponentBias + 52)) hpos :=
  ⟨_, (if_neg hones).trans (if_neg hzero)⟩

theorem toNat_one_append (fraction : BitVec 52) :
    (1#1 ++ fraction).toNat = 2 ^ 52 + fraction.toNat := by
  rw [BitVec.toNat_append, ← Nat.shiftLeft_add_eq_or_of_lt fraction.isLt]
  simp [Nat.shiftLeft_eq]

/-- A normal number whose exponent is in range is unpacked as it was packed. -/
theorem unpack_pack_normal (sign : Sign) {m : Nat} {e : Int} (hm : 0 < m) (hle : 2 ^ 52 ≤ m)
    (hlt : m < 2 ^ 53) (hlow : -1074 ≤ e) (hhigh : e ≤ 970) :
    (Float.Model.pack (.finite sign m e hm)).unpack = .finite sign m e hm := by
  have hlog : m.log2 + 1 = 53 := by rw [(Nat.log2_eq_iff (by omega)).2 ⟨hle, hlt⟩]
  let biased : Nat := (e + Format.binary64.exponentBias + 52).toNat
  have hbiased : (biased : Int) = e + 1075 := by
    have hbias : (Format.binary64.exponentBias : Int) = 1023 := rfl
    have hnonneg : 0 ≤ e + Format.binary64.exponentBias + 52 := by omega
    rw [show (biased : Int) = _ from Int.toNat_of_nonneg hnonneg, hbias]
    omega
  have hpack : UnpackedFloat.pack Format.binary64 (.finite sign m e hm) =
      packComponents Format.binary64 sign (BitVec.ofNat 11 biased) (BitVec.ofNat 52 m) := by
    change (if 2 ^ 11 ≤ biased + 1 then _ else if m.log2 + 1 = 53 then _ else _) = _
    rw [if_neg (by omega), if_pos hlog]
    rfl
  have hexponent : (BitVec.ofNat 11 biased).toNat = biased := by
    rw [BitVec.toNat_ofNat, Nat.mod_eq_of_lt (by omega)]
  have hfraction : (1#1 ++ BitVec.ofNat 52 m).toNat = m := by
    rw [toNat_one_append, BitVec.toNat_ofNat]
    omega
  have hzero : BitVec.ofNat 11 biased ≠ 0#11 := fun heq => by
    have hnat : biased = 0 := by rw [← hexponent, heq]; rfl
    omega
  have hones : BitVec.ofNat 11 biased ≠ -1#11 := fun heq => by
    have hnat : biased = 2047 := by rw [← hexponent, heq]; rfl
    omega
  have hvalue : (biased : Int) - (Format.binary64.exponentBias + 52) = e := by
    rw [hbiased, show (Format.binary64.exponentBias : Int) = 1023 from rfl]
    omega
  let bits := packComponents Format.binary64 sign (BitVec.ofNat 11 biased) (BitVec.ofNat 52 m)
  have hbits : unpackExponent bits = BitVec.ofNat 11 biased := unpackExponent_packComponents
  obtain ⟨hpos, hunpack⟩ := unpack_of_normal (hbits ▸ hones) (hbits ▸ hzero)
  change UnpackedFloat.unpack Format.binary64
    (UnpackedFloat.pack Format.binary64 (.finite sign m e hm)) = _
  rw [hpack, hunpack, UnpackedFloat.finite.injEq, sign_packComponents, hbits,
    unpackMantissa_packComponents, hexponent]
  exact ⟨rfl, hfraction, hvalue⟩

/-- What is unpacked is normal, or it is subnormal with the least exponent. -/
theorem normal_or_subnormal_of_unpack {x : Float.Model} {sign : Sign} {m : Nat} {e : Int}
    {hm : 0 < m} (h : x.unpack = .finite sign m e hm) :
    2 ^ 52 ≤ m ∧ m < 2 ^ 53 ∧ -1074 ≤ e ∨ m < 2 ^ 52 ∧ e = -1074 := by
  change UnpackedFloat.unpack Format.binary64 x.toBits.toBitVec = _ at h
  generalize hbits : x.toBits.toBitVec = bits at h
  by_cases hones : @unpackExponent Format.binary64 bits = -1#11
  · rcases unpack_of_ones hones with ⟨_, heq⟩ | heq <;> cases heq.symm.trans h
  by_cases hzero : @unpackExponent Format.binary64 bits = 0#11
  · rcases unpack_of_zero hones hzero with ⟨_, heq⟩ | ⟨_, heq⟩
    · cases heq.symm.trans h
    · obtain ⟨-, rfl, rfl⟩ := UnpackedFloat.finite.inj (heq.symm.trans h)
      exact .inr ⟨BitVec.isLt _, rfl⟩
  · obtain ⟨_, heq⟩ := unpack_of_normal hones hzero
    obtain ⟨-, rfl, rfl⟩ := UnpackedFloat.finite.inj (heq.symm.trans h)
    have hbias : (Format.binary64.exponentBias : Int) = 1023 := rfl
    have hpos : (@unpackExponent Format.binary64 bits).toNat ≠ 0 :=
      fun hnat => hzero (BitVec.eq_of_toNat_eq hnat)
    have hlt : (@unpackMantissa Format.binary64 bits).toNat < 2 ^ 52 := BitVec.isLt _
    refine .inl ⟨?_, ?_, ?_⟩
    · rw [toNat_one_append]
      exact Nat.le_add_right _ _
    · rw [toNat_one_append]
      omega
    · rw [hbias]
      omega

/-! ## Integers -/

/-- Nothing is shifted out of a number that has all its digits. -/
theorem shiftToTargetExponent_of_log2 {m : Nat} {e : Int} (hlog : m.log2 = 52) (hlow : -1074 ≤ e) :
    shiftToTargetExponent Format.binary64 m e .exact = (⟨m, false, false⟩, e) := by
  have hmin : Format.binary64.minExponent = -1074 := rfl
  have htarget : Format.binary64.targetExponent (totalExponent m e) = e := by
    unfold Format.targetExponent totalExponent
    rw [hlog, hmin, show (Format.binary64.mantissaBits : Int) = 53 from rfl]
    omega
  unfold shiftToTargetExponent
  simp only [htarget]
  unfold shiftToExponent
  simp only [Int.sub_self, Int.toNat_zero]
  exact Prod.ext rfl (Int.add_zero e)

/-- A number that has all its digits is not rounded. -/
theorem roundWithAccuracy_of_log2 (sign : Sign) {m : Nat} {e : Int} (hm : 0 < m)
    (hlog : m.log2 = 52) (hlow : -1074 ≤ e) :
    roundWithAccuracy Format.binary64 sign m e .exact = .finite sign m e hm := by
  have hshift := shiftToTargetExponent_of_log2 hlog hlow
  have hround : (⟨m, false, false⟩ : ExtendedMantissa).roundedMantissa = m := rfl
  unfold roundWithAccuracy
  rw [hshift]
  dsimp only
  rw [hround, hshift]
  exact dif_neg (Nat.ne_of_gt hm)

theorem log2_mul_two_pow {k : Nat} (hpos : 0 < k) (j : Nat) :
    (k * 2 ^ j).log2 = k.log2 + j := by
  rw [Nat.log2_eq_iff (Nat.ne_of_gt (Nat.mul_pos hpos (Nat.two_pow_pos _)))]
  constructor
  · rw [Nat.pow_add]
    exact Nat.mul_le_mul_right _ (Nat.log2_self_le (Nat.ne_of_gt hpos))
  · rw [Nat.add_right_comm, Nat.pow_add]
    exact Nat.mul_lt_mul_of_pos_right Nat.lt_log2_self (Nat.two_pow_pos _)

/-- How many digits an integer of fewer than 54 bits is short of 53. -/
def spare (k : Nat) : Nat := 52 - k.log2

theorem log2_mul_spare {k : Nat} (hpos : 0 < k) (hlt : k < 2 ^ 53) :
    (k * 2 ^ spare k).log2 = 52 := by
  have hlog : k.log2 < 53 := (Nat.log2_lt (Nat.ne_of_gt hpos)).2 hlt
  rw [log2_mul_two_pow hpos]
  unfold spare
  omega

/-- An integer of fewer than 54 bits is not rounded. -/
theorem round_of_lt {k : Nat} (sign : Sign) (hpos : 0 < k) (hlt : k < 2 ^ 53) :
    UnpackedFloat.round Format.binary64 sign k 0 =
      .finite sign (k * 2 ^ spare k) (-spare k) (Nat.mul_pos hpos (Nat.two_pow_pos _)) := by
  have hlog : k.log2 < 53 := (Nat.log2_lt (Nat.ne_of_gt hpos)).2 hlt
  have htarget : Format.binary64.targetExponent (totalExponent k 0) = -spare k := by
    unfold Format.targetExponent totalExponent spare
    rw [show Format.binary64.minExponent = -1074 from rfl,
      show (Format.binary64.mantissaBits : Int) = 53 from rfl]
    omega
  have hdecrease : decreaseExponent k 0 (-spare k) = (k * 2 ^ spare k, -(spare k : Int)) := by
    unfold decreaseExponent
    simp only [Nat.shiftLeft_eq, Int.zero_sub, Int.neg_neg, Int.toNat_natCast]
  unfold UnpackedFloat.round
  dsimp only
  rw [htarget, hdecrease]
  exact roundWithAccuracy_of_log2 sign _ (log2_mul_spare hpos hlt) (by unfold spare; omega)

/-- **The double of an integer** that doubles can tell from its neighbours. -/
theorem unpack_ofInt {sign : Sign} {k : Nat} (hpos : 0 < k) (hlt : k < 2 ^ 53) :
    (ofInt (sign.apply k)).toModel.unpack =
      .finite sign (k * 2 ^ spare k) (-spare k) (Nat.mul_pos hpos (Nat.two_pow_pos _)) := by
  have hround : UnpackedFloat.ofInt Format.binary64 (sign.apply k) =
      UnpackedFloat.round Format.binary64 sign k 0 := by
    unfold UnpackedFloat.ofInt UnpackedFloat.normalize
    cases sign with
    | positive =>
      have hgt : compare (Sign.positive.apply k) 0 = .gt :=
        Int.compare_eq_gt.2 (by simpa [Sign.apply])
      rw [hgt]
      rfl
    | negative =>
      have hlt' : compare (Sign.negative.apply k) 0 = .lt :=
        Int.compare_eq_lt.2 (by simpa [Sign.apply])
      rw [hlt']
      simp [Sign.apply]
  have hfull : 0 < k * 2 ^ spare k := Nat.mul_pos hpos (Nat.two_pow_pos _)
  have hbounds := (Nat.log2_eq_iff (Nat.ne_of_gt hfull)).1 (log2_mul_spare hpos hlt)
  change (Float.Model.pack (UnpackedFloat.ofInt Format.binary64 (sign.apply k))).unpack = _
  rw [hround, round_of_lt sign hpos hlt]
  exact unpack_pack_normal sign _ hbounds.1 hbounds.2 (by unfold spare; omega)
    (by unfold spare; omega)

/-! ## The integer that a double equals -/

theorem wholeMagnitude?_spare (k s : Nat) :
    wholeMagnitude? (k * 2 ^ s) (-(s : Int)) = some k := by
  have hdigits : (-(-(s : Int))).toNat = s := by omega
  unfold wholeMagnitude?
  rw [hdigits]
  split
  · next hnonneg =>
    obtain rfl : s = 0 := by omega
    simp
  · have hpow : Nat.pow 2 s = 2 ^ s := rfl
    rw [hpow, if_pos (Nat.mul_mod_left _ _), Nat.mul_div_cancel _ (Nat.two_pow_pos s)]

/-- The double of an integer that doubles can tell from its neighbours is that integer. -/
theorem safeWhole?_ofInt {n : Int} (h : n.natAbs < safeLimit) : safeWhole? (ofInt n) = some n := by
  have hwhole : whole? (ofInt n) = some n := by
    by_cases hzero : n = 0
    · subst hzero
      rfl
    · obtain ⟨sign, k, hk, rfl⟩ : ∃ (sign : Sign) (k : Nat), 0 < k ∧ sign.apply k = n := by
        rcases Int.lt_or_gt_of_ne hzero with hneg | hpos
        · exact ⟨.negative, n.natAbs, by omega, by simp only [Sign.apply]; omega⟩
        · exact ⟨.positive, n.natAbs, by omega, by simp only [Sign.apply]; omega⟩
      have hlt : k < 2 ^ 53 := by
        cases sign <;> simpa [Sign.apply, safeLimit] using h
      unfold whole?
      rw [unpack_ofInt hk hlt]
      change (wholeMagnitude? (k * 2 ^ spare k) (-spare k)).map sign.apply = _
      rw [wholeMagnitude?_spare]
      rfl
  unfold safeWhole?
  rw [hwhole]
  exact Option.filter_eq_some_iff.2 ⟨rfl, decide_eq_true h⟩

/-- A double that equals an integer has no fraction to drop. -/
theorem truncate?_of_whole? {x : Float} {n : Int} (h : whole? x = some n) :
    truncate? x = some n := by
  simp only [whole?, truncate?] at h ⊢
  cases hunpack : x.toModel.unpack with
  | zero sign => rwa [hunpack] at h
  | infinity sign => rw [hunpack] at h; cases h
  | notANumber => rw [hunpack] at h; cases h
  | finite sign m e hm =>
    rw [hunpack] at h
    simp only [wholeMagnitude?] at h ⊢
    split_ifs at h ⊢ with hnonneg hdivides
    · simpa using h
    · simpa using h
    · cases h

/-! ## Comparing -/

/-- What decides whether numbers are equal: zeros of either sign are one number. -/
def unsignZero : UnpackedFloat → UnpackedFloat
  | .zero _ => .zero .positive
  | u => u

theorem compare_finite_eq_iff {s t : Sign} {m n : Nat} {e f : Int} (hm : 0 < m) (hn : 0 < n) :
    (UnpackedFloat.finite s m e hm).compare (.finite t n f hn) = some .eq ↔
      s = t ∧ m = n ∧ e = f := by
  cases s <;> cases t
  · change some ((compare e f).then (compare m n)).swap = some .eq ↔ _
    simp [Ordering.then_eq_eq, and_comm]
  · exact iff_of_false nofun nofun
  · exact iff_of_false nofun nofun
  · change some ((compare e f).then (compare m n)) = some .eq ↔ _
    simp [Ordering.then_eq_eq, and_comm]

theorem compare_eq_iff {u v : UnpackedFloat} :
    u.compare v = some .eq ↔
      u ≠ .notANumber ∧ v ≠ .notANumber ∧ unsignZero u = unsignZero v := by
  -- Numbers of two kinds differ in kind on the right, and in order on the left.
  cases u with
  | zero s =>
    cases v with
    | zero t => exact iff_of_true rfl ⟨nofun, nofun, rfl⟩
    | infinity t => cases t <;> exact iff_of_false nofun nofun
    | finite t => cases t <;> exact iff_of_false nofun nofun
    | notANumber => exact iff_of_false nofun fun h => h.2.1 rfl
  | infinity s =>
    cases v with
    | infinity t =>
      cases s <;> cases t
      · exact iff_of_true rfl ⟨nofun, nofun, rfl⟩
      · exact iff_of_false nofun nofun
      · exact iff_of_false nofun nofun
      · exact iff_of_true rfl ⟨nofun, nofun, rfl⟩
    | notANumber => cases s <;> exact iff_of_false nofun fun h => h.2.1 rfl
    | _ => cases s <;> exact iff_of_false nofun nofun
  | finite s m e hm =>
    cases v with
    | finite t n f hn =>
      rw [compare_finite_eq_iff hm hn, ← UnpackedFloat.finite.injEq s m e hm t n f hn]
      exact ⟨fun h => ⟨nofun, nofun, h⟩, fun h => h.2.2⟩
    | infinity t => cases s <;> cases t <;> exact iff_of_false nofun nofun
    | zero => cases s <;> exact iff_of_false nofun nofun
    | notANumber => exact iff_of_false nofun fun h => h.2.1 rfl
  | notANumber => exact iff_of_false nofun fun h => h.1 rfl

/-- Two numbers are equal if they are the same, up to the sign of zero. -/
theorem beq_iff {x y : Float} : (x == y) = true ↔
    x.toModel.unpack ≠ .notANumber ∧ y.toModel.unpack ≠ .notANumber ∧
      unsignZero x.toModel.unpack = unsignZero y.toModel.unpack := by
  change (x.toModel.unpack.compare y.toModel.unpack == some .eq) = true ↔ _
  rw [beq_iff_eq, compare_eq_iff]

theorem beq_symm {x y : Float} (h : (x == y) = true) : (y == x) = true := by
  obtain ⟨hx, hy, heq⟩ := beq_iff.1 h
  exact beq_iff.2 ⟨hy, hx, heq.symm⟩

theorem beq_trans {x y z : Float} (h : (x == y) = true) (h' : (y == z) = true) :
    (x == z) = true := by
  obtain ⟨hx, -, hxy⟩ := beq_iff.1 h
  obtain ⟨-, hz, hyz⟩ := beq_iff.1 h'
  exact beq_iff.2 ⟨hx, hz, hxy.trans hyz⟩

theorem beq_of_unpack_eq {x y : Float} (hx : x.isNaN = false)
    (h : y.toModel.unpack = x.toModel.unpack) : (x == y) = true := by
  have hnumber : x.toModel.unpack ≠ .notANumber := by
    intro hnan
    change UnpackedFloat.isNaN x.toModel.unpack = false at hx
    rw [hnan] at hx
    cases hx
  exact beq_iff.2 ⟨hnumber, h ▸ hnumber, congrArg unsignZero h.symm⟩

/-- All numbers but one equal themselves. -/
theorem beq_self_of_not_isNaN {x : Float} (hx : x.isNaN = false) : (x == x) = true :=
  beq_of_unpack_eq hx rfl

theorem not_isNaN_of_isFinite {x : Float} (hx : x.isFinite = true) : x.isNaN = false := by
  change UnpackedFloat.isFinite x.toModel.unpack = true at hx
  change UnpackedFloat.isNaN x.toModel.unpack = false
  cases hunpack : x.toModel.unpack with
  | notANumber => rw [hunpack] at hx; cases hx
  | _ => rfl

/-! ## Doubles that equal integers -/

/-- A number that has all its digits tells how many the integer in it is short of. -/
theorem spare_of_eq_mul {m k j : Nat} (hlog : m.log2 = 52) (heq : m = k * 2 ^ j) :
    0 < k ∧ spare k = j := by
  have hk : 0 < k := Nat.pos_of_ne_zero fun hzero => by
    rw [heq, hzero, Nat.zero_mul] at hlog
    cases hlog
  rw [heq, log2_mul_two_pow hk] at hlog
  exact ⟨hk, by unfold spare; omega⟩

/-- The digits of a double that equals an integer are those of the integer. -/
theorem eq_mul_spare {m k : Nat} {e : Int} (hpos : 0 < m)
    (hform : 2 ^ 52 ≤ m ∧ m < 2 ^ 53 ∧ -1074 ≤ e ∨ m < 2 ^ 52 ∧ e = -1074)
    (hwhole : wholeMagnitude? m e = some k) (hlt : k < 2 ^ 53) :
    0 < k ∧ m = k * 2 ^ spare k ∧ e = -spare k := by
  have hdigits : ∀ {j : Nat}, 2 ^ 52 ≤ m → m < 2 ^ 53 → m = k * 2 ^ j → 0 < k ∧ spare k = j :=
    fun hle hlt' heq =>
      spare_of_eq_mul ((Nat.log2_eq_iff (Nat.ne_of_gt hpos)).2 ⟨hle, hlt'⟩) heq
  unfold wholeMagnitude? at hwhole
  split_ifs at hwhole with hnonneg hdivides
  · -- Two digits more would be too many for the integer.
    obtain rfl := Option.some.inj hwhole
    rcases hform with ⟨hle, hlt', -⟩ | ⟨-, he⟩
    · have hzero : e = 0 := by
        by_contra hne
        have hdouble : 2 ≤ Nat.pow 2 e.toNat := Nat.le_pow (by omega)
        have hmore := Nat.mul_le_mul hle hdouble
        omega
      subst hzero
      have hone : m * Nat.pow 2 (Int.toNat 0) = m := Nat.mul_one m
      rw [hone] at hdigits ⊢
      have hall : m = m * 2 ^ 0 := (Nat.mul_one m).symm
      obtain ⟨hk, hspare⟩ := hdigits hle hlt' hall
      rw [hspare]
      exact ⟨hk, hall, rfl⟩
    · omega
  · obtain rfl := Option.some.inj hwhole
    have heq : m = m / Nat.pow 2 (-e).toNat * 2 ^ (-e).toNat :=
      (Nat.div_mul_cancel (Nat.dvd_of_mod_eq_zero hdivides)).symm
    rcases hform with ⟨hle, hlt', -⟩ | ⟨hlt', he⟩
    · obtain ⟨hk, hspare⟩ := hdigits hle hlt' heq
      rw [hspare]
      exact ⟨hk, heq, by omega⟩
    · -- A subnormal number has a fraction.
      have hsmall : m < Nat.pow 2 (-e).toNat :=
        Nat.lt_of_lt_of_le hlt' (Nat.pow_le_pow_right (Nat.zero_lt_succ 1) (by omega))
      rw [Nat.mod_eq_of_lt hsmall] at hdivides
      omega

/-- **A double is the double of the integer that it equals**, if doubles can tell the integer
from its neighbours. -/
theorem beq_ofInt_of_safeWhole {x : Float} {n : Int} (h : safeWhole? x = some n) :
    (x == ofInt n) = true := by
  unfold safeWhole? at h
  obtain ⟨hwhole, hsafe⟩ := Option.filter_eq_some_iff.1 h
  unfold whole? at hwhole
  split at hwhole
  · next sign hunpack =>
    obtain rfl := Option.some.inj hwhole
    change UnpackedFloat.beq x.toModel.unpack (ofInt 0).toModel.unpack = true
    rw [hunpack]
    rfl
  · next sign m e hm hunpack =>
    obtain ⟨k, hk, rfl⟩ : ∃ k : Nat, wholeMagnitude? m e = some k ∧ sign.apply k = n := by
      cases hk : wholeMagnitude? m e with
      | none => rw [hk] at hwhole; cases hwhole
      | some k => rw [hk] at hwhole; exact ⟨k, rfl, Option.some.inj hwhole⟩
    have hlt : k < 2 ^ 53 := by
      have hlt := of_decide_eq_true hsafe
      cases sign <;> simpa [Sign.apply, safeLimit] using hlt
    obtain ⟨hpos, rfl, rfl⟩ := eq_mul_spare hm (normal_or_subnormal_of_unpack hunpack) hk hlt
    have hofInt := @unpack_ofInt sign k hpos hlt
    refine beq_of_unpack_eq ?_ (hofInt.trans hunpack.symm)
    change UnpackedFloat.isNaN _ = false
    rw [hunpack]
    rfl
  · cases hwhole
  · cases hwhole

end Number

namespace Json

/-- **A finite double is written as a number that stands for it.** -/
theorem exists_ofFloat {x : Float} (hx : x.isFinite = true) :
    ∃ n : Number, ofFloat x = .number n ∧ (x == n.toFloat) = true := by
  unfold ofFloat
  split
  · next n hsafe => exact ⟨.integer n, rfl, Number.beq_ofInt_of_safeWhole hsafe⟩
  · rw [if_pos hx]
    exact ⟨.real x, rfl, Number.beq_self_of_not_isNaN (Number.not_isNaN_of_isFinite hx)⟩

end Json

end Conform
