import Mathlib
import ScriptMinifier.Number.Exact

namespace ScriptMinifier

open Float.Model (Format)
open Float.Model.UnpackedFloat (Sign packComponents packedInfinity unpackMantissa_packComponents
  unpackExponent_packComponents unpackSign_packComponents)

/-- A mantissa of full width, or one with the least exponent. -/
structure Regular (m : Nat) (q : Int) : Prop where
  lt : m < 2 ^ 53
  least : -1074 ≤ q
  full : 2 ^ 52 ≤ m ∨ q = -1074

namespace Exact

/-- The double of a sign, a mantissa and an exponent. A zero has the exponent zero. -/
def double (negative : Bool) (m : Nat) (q : Int) : Exact :=
  if m = 0 then finite negative 0 0
  else if q ≤ 971 then finite negative m q
  else infinite negative

def sign (negative : Bool) : Sign := if negative then .negative else .positive

/-- The parts of a double as its operations have them. -/
def parts (negative : Bool) (m : Nat) (q : Int) : Float.Model.UnpackedFloat :=
  if h : m = 0 then .zero (sign negative)
  else .finite (sign negative) m q (Nat.pos_of_ne_zero h)

/-- The double that is packed of the parts. -/
def pack (negative : Bool) (m : Nat) (q : Int) : Float := .ofModel (.pack (parts negative m q))

variable {negative : Bool} {s : Sign} {m : Nat} {q : Int} {x y : Float}

@[simp] theorem sign_eq_negative : (sign negative == .negative) = negative := by
  cases negative <;> rfl

@[simp] theorem sign_negative (s : Sign) : sign (s == .negative) = s := by
  cases s <;> rfl

/-- A word is its sign, its exponent and its mantissa. -/
theorem unpack_packComponents {exponent mantissa : Nat} (hmantissa : mantissa < 2 ^ 52)
    (hexponent : exponent < 2047) :
    Float.Model.UnpackedFloat.unpack .binary64
        (packComponents .binary64 (sign negative) (.ofNat 11 exponent) (.ofNat 52 mantissa)) =
      if exponent = 0 then parts negative mantissa (-1074)
      else parts negative (2 ^ 52 + mantissa) (exponent - 1075) := by
  have hbits : (BitVec.ofNat 11 exponent).toNat = exponent := by
    rw [BitVec.toNat_ofNat, Nat.mod_eq_of_lt (by omega)]
  have hmantissaBits : (BitVec.ofNat 52 mantissa).toNat = mantissa := by
    rw [BitVec.toNat_ofNat, Nat.mod_eq_of_lt hmantissa]
  have hones : BitVec.ofNat 11 exponent ≠ -1#11 := by
    intro h
    have h' := congrArg BitVec.toNat h
    rw [hbits] at h'
    change exponent = 2047 at h'
    omega
  have hsign : Sign.ofBitVec (sign negative).toBitVec = sign negative := by
    cases negative <;> rfl
  have hwhole : (1#1 ++ BitVec.ofNat 52 mantissa).toNat = 2 ^ 52 + mantissa := by
    rw [BitVec.toNat_append, ← Nat.shiftLeft_add_eq_or_of_lt (BitVec.isLt _), hmantissaBits]
    rfl
  unfold Float.Model.UnpackedFloat.unpack
  simp only [unpackMantissa_packComponents, unpackExponent_packComponents,
    unpackSign_packComponents, hsign]
  rw [if_neg hones]
  by_cases hzero : exponent = 0
  · subst hzero
    rw [if_pos rfl, if_pos rfl]
    by_cases hm : mantissa = 0
    · subst hm
      rfl
    · have hne : BitVec.ofNat 52 mantissa ≠ 0#52 := by
        intro h
        have h' := congrArg BitVec.toNat h
        rw [hmantissaBits] at h'
        exact hm h'
      simp only [hne, hm, parts, hmantissaBits, dite_false]
      rfl
  · have hne : BitVec.ofNat 11 exponent ≠ 0#11 := by
      intro h
      have h' := congrArg BitVec.toNat h
      rw [hbits] at h'
      exact hzero h'
    have hpos : ¬ 2 ^ 52 + mantissa = 0 := by omega
    rw [if_neg hne, if_neg hzero, parts, dif_neg hpos]
    simp only [hwhole, hbits]
    rfl

/-- The exponent that a double is packed with. -/
theorem biased_eq (q : Int) : q + (Format.binary64.exponentBias : Int) +
    (Format.binary64.mantissaBitsWithoutImplicit : Int) = q + 1075 := by
  change q + (1023 : Nat) + (52 : Nat) = q + 1075
  omega

/-- Regular parts are packed as they are, if their exponent is not too great. -/
theorem unpack_pack (h : Regular m q) (hq : q ≤ 971) :
    (pack negative m q).toModel.unpack = parts negative m q := by
  change Float.Model.UnpackedFloat.unpack .binary64
    (Float.Model.UnpackedFloat.pack .binary64 (parts negative m q)) = _
  obtain ⟨hlt, hleast, hfull⟩ := h
  by_cases hm : m = 0
  · rw [parts, dif_pos hm]
    cases negative <;> rfl
  have hparts : parts negative m q = .finite (sign negative) m q (Nat.pos_of_ne_zero hm) :=
    dif_neg hm
  have hfits : ¬ 2 ^ Format.binary64.exponentBits ≤ (q + 1075).toNat + 1 := by
    change ¬ 2 ^ 11 ≤ _
    omega
  rw [hparts]
  unfold Float.Model.UnpackedFloat.pack
  dsimp only
  rw [biased_eq, if_neg hfits]
  by_cases hwide : 2 ^ 52 ≤ m
  · have hlog : m.log2 + 1 = Format.binary64.mantissaBits := by
      rw [(Nat.log2_eq_iff hm).2 ⟨hwide, hlt⟩]
      rfl
    have hlow : BitVec.ofNat 52 m = BitVec.ofNat 52 (m - 2 ^ 52) := by
      refine BitVec.eq_of_toNat_eq ?_
      rw [BitVec.toNat_ofNat, BitVec.toNat_ofNat]
      omega
    have hsum : 2 ^ 52 + (m - 2 ^ 52) = m := by omega
    have hexponent : (((q + 1075).toNat : Nat) : Int) - 1075 = q := by omega
    rw [if_pos hlog]
    change Float.Model.UnpackedFloat.unpack .binary64
      (packComponents .binary64 (sign negative) (.ofNat 11 _) (.ofNat 52 m)) = _
    rw [hlow, unpack_packComponents (by omega) (by omega), if_neg (by omega), hsum, hexponent,
      hparts]
  · have hq' : q = -1074 := hfull.resolve_left hwide
    have hlog : m.log2 + 1 ≠ Format.binary64.mantissaBits := by
      have hlt' := (Nat.log2_lt hm).2 (Nat.lt_of_not_le hwide)
      change m.log2 + 1 ≠ 53
      omega
    rw [if_neg hlog]
    change Float.Model.UnpackedFloat.unpack .binary64
      (packComponents .binary64 (sign negative) (.ofNat 11 0) (.ofNat 52 m)) = _
    rw [unpack_packComponents (by omega) (by omega), if_pos rfl, ← hq', hparts]

theorem ne_zero_of_lt (h : Regular m q) (hq : -1074 < q) : m ≠ 0 := by
  have hfull := h.full
  omega

/-- Regular parts with a greater exponent are packed as an infinity. -/
theorem unpack_pack_infinite (h : Regular m q) (hq : 971 < q) :
    (pack negative m q).toModel.unpack = .infinity (sign negative) := by
  have hfits : 2 ^ Format.binary64.exponentBits ≤ (q + 1075).toNat + 1 := by
    change 2 ^ 11 ≤ _
    omega
  have hpacked : Float.Model.UnpackedFloat.pack .binary64 (parts negative m q) =
      packedInfinity .binary64 (sign negative) := by
    rw [parts, dif_neg (ne_zero_of_lt h (by omega))]
    unfold Float.Model.UnpackedFloat.pack
    dsimp only
    rw [biased_eq, if_pos hfits]
  change Float.Model.UnpackedFloat.unpack .binary64
    (Float.Model.UnpackedFloat.pack .binary64 (parts negative m q)) = _
  rw [hpacked]
  cases negative <;> rfl

/-- Regular parts are packed as the double that they make up. -/
theorem ofFloat_pack (h : Regular m q) : ofFloat (pack negative m q) = double negative m q := by
  by_cases hq : q ≤ 971
  · rw [ofFloat, unpack_pack h hq, parts, double]
    by_cases hm : m = 0
    · rw [dif_pos hm, if_pos hm]
      simp
    · rw [dif_neg hm, if_neg hm, if_pos hq]
      simp
  · rw [ofFloat, unpack_pack_infinite h (by omega), double,
      if_neg (ne_zero_of_lt h (by omega)), if_neg hq]
    simp

theorem negative_iff_negative {s t : Sign} : (s = .negative ↔ t = .negative) ↔ s = t := by
  cases s <;> cases t <;> simp

/-- Its parts determine a double. -/
theorem ofFloat_injective : Function.Injective ofFloat := by
  intro x y h
  have hunpack : x.toModel.unpack = y.toModel.unpack := by
    rw [ofFloat, ofFloat] at h
    generalize x.toModel.unpack = u at h
    generalize y.toModel.unpack = v at h
    have hne (n : Nat) (hn : 0 < n) : n ≠ 0 ∧ 0 ≠ n := by omega
    cases u <;> cases v <;> simp_all [negative_iff_negative]
  have hbits := (Float.Model.UnpackedFloat.unpack_inj_of_valid x.toModel.valid
    y.toModel.valid).1 hunpack
  exact Float.toBits_inj.1 (UInt64.toBitVec_inj.1 hbits)

/-- A word is that of a NaN or an infinity, or has regular parts. -/
theorem unpack_cases (b : BitVec Format.binary64.numBits) :
    Float.Model.UnpackedFloat.unpack .binary64 b = .notANumber ∨
      (∃ s, Float.Model.UnpackedFloat.unpack .binary64 b = .infinity s) ∨
      ∃ negative m q, Regular m q ∧ q ≤ 971 ∧
        Float.Model.UnpackedFloat.unpack .binary64 b = parts negative m q := by
  fun_cases Float.Model.UnpackedFloat.unpack .binary64 b with
  | case1 mvec evec svec s hones hzero => exact .inr (.inl ⟨s, rfl⟩)
  | case2 mvec evec hones hne => exact .inl rfl
  | case3 mvec evec svec s hones hevec hmvec =>
    refine .inr (.inr ⟨s == .negative, 0, -1074, ⟨by decide, le_rfl, .inr rfl⟩, by decide, ?_⟩)
    rw [parts, dif_pos rfl, sign_negative]
  | case4 mvec evec e svec s hones hevec hmvec =>
    have hne : mvec.toNat ≠ 0 := fun h => hmvec (BitVec.eq_of_toNat_eq h)
    have he : e + 1 = -1074 := by
      have hzero : evec.toNat = 0 := by rw [hevec]; rfl
      change (evec.toNat : Int) - ((1023 : Nat) + (52 : Nat)) + 1 = -1074
      omega
    have hlt : mvec.toNat < 2 ^ 52 := mvec.isLt
    refine .inr (.inr ⟨s == .negative, mvec.toNat, -1074, ⟨by omega, le_rfl, .inr rfl⟩,
      by decide, ?_⟩)
    rw [parts, dif_neg hne]
    simp only [he, sign_negative]
  | case5 mvec evec e svec s hones hevec =>
    have hwhole : (1#1 ++ mvec).toNat = 2 ^ 52 + mvec.toNat := by
      rw [BitVec.toNat_append, ← Nat.shiftLeft_add_eq_or_of_lt (BitVec.isLt _)]
      rfl
    have hlt : mvec.toNat < 2 ^ 52 := mvec.isLt
    have hzero : evec.toNat ≠ 0 := fun h => hevec (BitVec.eq_of_toNat_eq h)
    have htop : evec.toNat ≠ 2047 := fun h => hones (BitVec.eq_of_toNat_eq h)
    have hevec : evec.toNat < 2 ^ 11 := evec.isLt
    have he : e = evec.toNat - 1075 := by
      change (evec.toNat : Int) - ((1023 : Nat) + (52 : Nat)) = _
      omega
    have hne : (1#1 ++ mvec).toNat ≠ 0 := by omega
    refine .inr (.inr ⟨s == .negative, (1#1 ++ mvec).toNat, e, ⟨by omega, by omega,
      .inl (by omega)⟩, by omega, ?_⟩)
    rw [parts, dif_neg hne]
    simp only [sign_negative]

/-- A double is a NaN or an infinity, or is packed of regular parts. -/
theorem pack_cases (x : Float) : ofFloat x = nan ∨ (∃ negative, ofFloat x = infinite negative) ∨
    ∃ negative m q, Regular m q ∧ q ≤ 971 ∧ x = pack negative m q := by
  obtain h | ⟨s, h⟩ | ⟨negative, m, q, hregular, hq, h⟩ := unpack_cases x.toModel.toBits.toBitVec
  · change x.toModel.unpack = _ at h
    left
    rw [ofFloat, h]
  · change x.toModel.unpack = _ at h
    right
    left
    exact ⟨s == .negative, by rw [ofFloat, h]⟩
  · change x.toModel.unpack = _ at h
    refine .inr (.inr ⟨negative, m, q, hregular, hq, ofFloat_injective ?_⟩)
    rw [ofFloat, ofFloat, h, unpack_pack hregular hq]

/-- What is read of a double other than zero are its regular parts. -/
theorem eq_pack_of_ofFloat (h : ofFloat x = finite negative m q) (hm : m ≠ 0) :
    Regular m q ∧ q ≤ 971 ∧ x = pack negative m q := by
  obtain hx | ⟨b, hx⟩ | ⟨b, n, p, hregular, hp, rfl⟩ := pack_cases x
  · rw [hx] at h
    cases h
  · rw [hx] at h
    cases h
  · rw [ofFloat_pack hregular, double] at h
    split_ifs at h with hn
    · cases h
      exact absurd rfl hm
    · cases h
      exact ⟨hregular, hp, rfl⟩

end Exact

end ScriptMinifier
