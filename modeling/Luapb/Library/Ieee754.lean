import Mathlib.Data.Nat.Log
import Mathlib.Algebra.Order.Group.Int
import Mathlib.Tactic.Ring
import Mathlib.Tactic.Linarith

/-! # IEEE 754 binary formats

A binary floating-point number is a sign and a magnitude: the exponent field and
the trailing fraction read as one natural number. Conversions go through the
exact value `man * 2 ^ exp` of a finite magnitude and round to nearest, ties to
even, as the C casts between floating types do. -/

namespace Ieee754

/-- The field widths of an interchange format. -/
structure Format where
  fractionBits : ℕ
  exponentBits : ℕ
  fraction_pos : 0 < fractionBits
deriving DecidableEq

def binary32 : Format := ⟨23, 8, by decide⟩
def binary64 : Format := ⟨52, 11, by decide⟩

namespace Format

variable (F : Format)

/-- The exponent of the least significant bit of a subnormal number. -/
def minExp : ℤ := 2 - 2 ^ (F.exponentBits - 1) - F.fractionBits

/-- The magnitude that encodes infinity; every larger one encodes a NaN. -/
def infinity : ℕ := (2 ^ F.exponentBits - 1) * 2 ^ F.fractionBits

/-- The number of magnitudes. -/
def range : ℕ := 2 ^ F.exponentBits * 2 ^ F.fractionBits

/-- The value `man * 2 ^ exp` a finite magnitude stands for. -/
def unpack (mag : ℕ) : ℕ × ℤ :=
  if mag / 2 ^ F.fractionBits = 0 then (mag, F.minExp)
  else (mag % 2 ^ F.fractionBits + 2 ^ F.fractionBits,
    F.minExp + (mag / 2 ^ F.fractionBits - 1 : ℕ))

/-- `man / 2 ^ k`, rounded to nearest with ties to even. -/
def roundShift (man k : ℕ) : ℕ :=
  if 2 ^ k < 2 * (man % 2 ^ k) ∨ 2 * (man % 2 ^ k) = 2 ^ k ∧ man / 2 ^ k % 2 = 1
  then man / 2 ^ k + 1 else man / 2 ^ k

/-- The exponent of the last bit kept when `man * 2 ^ exp` is rounded. -/
def quantum (man : ℕ) (exp : ℤ) : ℤ := max (exp + Nat.log2 man - F.fractionBits) F.minExp

/-- The multiple of `2 ^ q` nearest to `man * 2 ^ exp`. -/
def align (man : ℕ) (exp q : ℤ) : ℕ :=
  if q ≤ exp then man * 2 ^ (exp - q).toNat else roundShift man (q - exp).toNat

/-- The magnitude nearest to `man * 2 ^ exp`. The hidden bit of a normal number
carries into the exponent field, so the two fields are added, not joined. -/
def pack (man : ℕ) (exp : ℤ) : ℕ :=
  if man = 0 then 0
  else min ((F.quantum man exp - F.minExp).toNat * 2 ^ F.fractionBits +
    align man exp (F.quantum man exp)) F.infinity

/-! ## Packing and unpacking -/

theorem infinity_add_lt {x : ℕ} (hx : x < 2 ^ F.fractionBits) : F.infinity + x < F.range := by
  have hpos : 0 < 2 ^ F.exponentBits := Nat.two_pow_pos _
  have hsplit : F.range = F.infinity + 2 ^ F.fractionBits := by
    rw [range, infinity, Nat.sub_mul, one_mul,
      Nat.sub_add_cancel (Nat.le_mul_of_pos_left _ hpos)]
  omega

theorem pack_lt_range (man : ℕ) (exp : ℤ) : F.pack man exp < F.range := by
  have hinf := F.infinity_add_lt (Nat.two_pow_pos _)
  rw [pack]
  split <;> omega

@[simp] theorem pack_zero (exp : ℤ) : F.pack 0 exp = 0 := by simp [pack]

theorem roundShift_mul (man j k : ℕ) (h : k ≤ j) :
    roundShift (man * 2 ^ j) k = man * 2 ^ (j - k) := by
  have hsplit : man * 2 ^ j = man * 2 ^ (j - k) * 2 ^ k := by
    rw [Nat.mul_assoc, ← pow_add, Nat.sub_add_cancel h]
  have hpos : 0 < 2 ^ k := Nat.two_pow_pos k
  rw [hsplit, roundShift, Nat.mul_mod_left, Nat.mul_div_cancel _ hpos]
  split
  · omega
  · rfl

/-- Scaling the significand and lowering the exponent to match changes nothing
as long as no bit has to be rounded away. -/
theorem align_mul_two_pow (man k : ℕ) (exp q : ℤ) (hq : q ≤ exp) :
    align (man * 2 ^ k) (exp - k) q = man * 2 ^ (exp - q).toNat := by
  rw [align]
  split
  · rename_i h
    rw [Nat.mul_assoc, ← pow_add]
    congr 2
    omega
  · rename_i h
    rw [roundShift_mul _ _ _ (by omega)]
    congr 2
    omega

theorem log2_mul_two_pow {man : ℕ} (hman : man ≠ 0) (k : ℕ) :
    Nat.log2 (man * 2 ^ k) = Nat.log2 man + k := by
  rw [Nat.log2_eq_log_two, Nat.log2_eq_log_two]
  induction k with
  | zero => simp
  | succ k ih =>
      rw [pow_succ, ← Nat.mul_assoc, Nat.log_mul_base (by decide) (by positivity), ih]
      omega

theorem quantum_mul_two_pow {man : ℕ} (hman : man ≠ 0) (k : ℕ) (exp : ℤ) :
    F.quantum (man * 2 ^ k) (exp - k) = F.quantum man exp := by
  rw [quantum, quantum, log2_mul_two_pow hman]
  congr 1
  push_cast
  ring

theorem pack_mul_two_pow (man k : ℕ) (exp : ℤ) (hq : F.quantum man exp ≤ exp) :
    F.pack (man * 2 ^ k) (exp - k) = F.pack man exp := by
  by_cases hman : man = 0
  · simp [hman]
  · have hmul : man * 2 ^ k ≠ 0 := by positivity
    rw [pack, pack, if_neg hman, if_neg hmul, F.quantum_mul_two_pow hman,
      align_mul_two_pow _ _ _ _ hq, align, if_pos hq]

theorem log2_le_of_lt {man n : ℕ} (h : man < 2 ^ (n + 1)) : Nat.log2 man ≤ n := by
  by_cases hman : man = 0
  · simp [hman]
  · exact Nat.le_of_lt_succ ((Nat.log2_lt hman).mpr h)

theorem quantum_le {man : ℕ} {exp : ℤ} (hman : man < 2 ^ (F.fractionBits + 1))
    (hexp : F.minExp ≤ exp) : F.quantum man exp ≤ exp := by
  have hlog := log2_le_of_lt hman
  rw [quantum]
  omega

/-- A value with few enough bits is packed without rounding: `k` bits are appended
to fill the fraction, unless the exponent is already minimal. -/
theorem pack_exact {man : ℕ} {exp : ℤ} (hpos : man ≠ 0) (hman : man < 2 ^ (F.fractionBits + 1))
    (hexp : F.minExp ≤ exp)
    (hfit : ((exp - F.minExp).toNat + 2) * 2 ^ F.fractionBits ≤ F.infinity) :
    ∃ (k : ℕ) (q : ℤ), q + k = exp ∧ F.minExp ≤ q ∧
      man * 2 ^ k < 2 ^ F.fractionBits * 2 ∧
      (q = F.minExp ∨ 2 ^ F.fractionBits ≤ man * 2 ^ k) ∧
      F.pack man exp = (q - F.minExp).toNat * 2 ^ F.fractionBits + man * 2 ^ k ∧
      F.pack man exp < F.infinity := by
  have hq := F.quantum_le hman hexp
  obtain ⟨k, hk⟩ := Int.le.dest hq
  have hkNat : (exp - F.quantum man exp).toNat = k := by omega
  have hmin : F.minExp ≤ F.quantum man exp := le_max_right _ _
  have hlog : exp + Nat.log2 man - F.fractionBits ≤ F.quantum man exp := le_max_left _ _
  have hlogle : Nat.log2 man ≤ F.fractionBits := log2_le_of_lt hman
  have hshift : k + Nat.log2 man ≤ F.fractionBits := by omega
  have hupper : man * 2 ^ k < 2 ^ F.fractionBits * 2 := by
    calc
      man * 2 ^ k < 2 ^ (Nat.log2 man + 1) * 2 ^ k :=
        Nat.mul_lt_mul_of_pos_right Nat.lt_log2_self (Nat.two_pow_pos k)
      _ = 2 ^ (k + Nat.log2 man) * 2 := by rw [← pow_add, ← pow_succ]; congr 1; omega
      _ ≤ 2 ^ F.fractionBits * 2 :=
        Nat.mul_le_mul_right 2 (Nat.pow_le_pow_right (by decide) hshift)
  have hlt : (F.quantum man exp - F.minExp).toNat * 2 ^ F.fractionBits + man * 2 ^ k <
      F.infinity := by
    have h1 : (F.quantum man exp - F.minExp).toNat ≤ (exp - F.minExp).toNat := by omega
    have h2 := Nat.mul_le_mul_right (2 ^ F.fractionBits) h1
    rw [Nat.add_mul] at hfit
    omega
  have hpack : F.pack man exp =
      (F.quantum man exp - F.minExp).toNat * 2 ^ F.fractionBits + man * 2 ^ k := by
    rw [pack, if_neg hpos, align, if_pos hq, hkNat, Nat.min_eq_left hlt.le]
  refine ⟨k, F.quantum man exp, by omega, hmin, hupper, ?_, hpack, hpack ▸ hlt⟩
  rcases max_choice (exp + (Nat.log2 man : ℤ) - F.fractionBits) F.minExp with hmax | hmax
  · right
    have hmax' : F.quantum man exp = exp + Nat.log2 man - F.fractionBits := hmax
    calc
      2 ^ F.fractionBits = 2 ^ Nat.log2 man * 2 ^ k := by rw [← pow_add]; congr 1; omega
      _ ≤ man * 2 ^ k := Nat.mul_le_mul_right _ (Nat.log2_self_le hpos)
  · exact .inl hmax

/-- What was packed exactly unpacks to the same value, with bits appended. -/
theorem unpack_pack {man : ℕ} {exp : ℤ} (hpos : man ≠ 0) (hman : man < 2 ^ (F.fractionBits + 1))
    (hexp : F.minExp ≤ exp)
    (hfit : ((exp - F.minExp).toNat + 2) * 2 ^ F.fractionBits ≤ F.infinity) :
    F.pack man exp < F.infinity ∧
      ∃ k : ℕ, F.unpack (F.pack man exp) = (man * 2 ^ k, exp - k) := by
  obtain ⟨k, q, rfl, hmin, hupper, hlower, hpack, hlt⟩ := F.pack_exact hpos hman hexp hfit
  refine ⟨hlt, k, ?_⟩
  have hbase : 0 < 2 ^ F.fractionBits := Nat.two_pow_pos _
  rw [hpack, unpack]
  by_cases hsmall : man * 2 ^ k < 2 ^ F.fractionBits
  · have hq : q = F.minExp := hlower.resolve_right (by omega)
    rw [hq, sub_self, Int.toNat_zero, Nat.zero_mul, Nat.zero_add,
      if_pos (Nat.div_eq_of_lt hsmall), add_sub_cancel_right]
  · obtain ⟨r, hr⟩ := Nat.exists_eq_add_of_le (Nat.le_of_not_lt hsmall)
    have hrlt : r < 2 ^ F.fractionBits := by omega
    have hsum : (q - F.minExp).toNat * 2 ^ F.fractionBits + man * 2 ^ k =
        2 ^ F.fractionBits * ((q - F.minExp).toNat + 1) + r := by
      rw [hr]
      ring
    rw [hsum, Nat.mul_add_div hbase, Nat.div_eq_of_lt hrlt, Nat.mul_add_mod,
      Nat.mod_eq_of_lt hrlt, if_neg (by omega)]
    apply Prod.ext
    · simp only
      omega
    · simp only [Nat.add_zero, Nat.add_sub_cancel]
      omega

theorem unpack_lt (mag : ℕ) : (F.unpack mag).1 < 2 ^ (F.fractionBits + 1) := by
  have hbase : 0 < 2 ^ F.fractionBits := Nat.two_pow_pos _
  rw [unpack, pow_succ]
  split
  · rename_i h
    have := (Nat.div_eq_zero_iff_lt hbase).mp h
    simp only
    omega
  · have := Nat.mod_lt mag hbase
    simp only
    omega

theorem minExp_le_unpack (mag : ℕ) : F.minExp ≤ (F.unpack mag).2 := by
  rw [unpack]
  split <;> simp

/-- Unpacking and packing again returns the magnitude. -/
theorem pack_unpack {mag : ℕ} (hmag : mag < F.infinity) :
    F.pack (F.unpack mag).1 (F.unpack mag).2 = mag := by
  have hbase : 0 < 2 ^ F.fractionBits := Nat.two_pow_pos _
  by_cases hzero : mag = 0
  · simp [hzero, unpack]
  · rw [unpack]
    split
    · rename_i h
      have hlt : mag < 2 ^ F.fractionBits := (Nat.div_eq_zero_iff_lt hbase).mp h
      have hlog : Nat.log2 mag < F.fractionBits := (Nat.log2_lt hzero).mpr hlt
      have hq : F.quantum mag F.minExp = F.minExp := by
        rw [quantum]
        omega
      rw [pack, if_neg hzero, hq, align, if_pos le_rfl]
      simp only [sub_self, Int.toNat_zero, Nat.zero_mul, pow_zero, Nat.mul_one, Nat.zero_add]
      exact Nat.min_eq_left hmag.le
    · rename_i h
      set e := mag / 2 ^ F.fractionBits with he
      set r := mag % 2 ^ F.fractionBits with hr
      have hrlt : r < 2 ^ F.fractionBits := Nat.mod_lt _ hbase
      have hmagEq : mag = e * 2 ^ F.fractionBits + r := by
        rw [he, hr, Nat.mul_comm]
        exact (Nat.div_add_mod mag _).symm
      have hne : r + 2 ^ F.fractionBits ≠ 0 := by omega
      have hlog : Nat.log2 (r + 2 ^ F.fractionBits) = F.fractionBits := by
        rw [Nat.log2_eq_iff hne, pow_succ]
        omega
      have hq : F.quantum (r + 2 ^ F.fractionBits) (F.minExp + (e - 1 : ℕ)) =
          F.minExp + (e - 1 : ℕ) := by
        rw [quantum, hlog]
        omega
      have hval : (e - 1) * 2 ^ F.fractionBits + (r + 2 ^ F.fractionBits) = mag := by
        obtain ⟨d, hd⟩ := Nat.exists_eq_succ_of_ne_zero h
        rw [hmagEq, hd, Nat.succ_sub_one, Nat.succ_mul]
        omega
      rw [pack, if_neg hne, hq, align, if_pos le_rfl]
      simp only [add_sub_cancel_left, Int.toNat_natCast, sub_self, Int.toNat_zero, pow_zero,
        Nat.mul_one, hval]
      exact Nat.min_eq_left hmag.le

end Format

/-- A floating-point number of format `F`, as its sign bit and magnitude field. -/
structure Binary (F : Format) where
  neg : Bool
  mag : ℕ
  lt_range : mag < F.range
deriving DecidableEq

namespace Binary

variable {F G : Format}

@[ext] theorem ext {x y : Binary F} (hneg : x.neg = y.neg) (hmag : x.mag = y.mag) : x = y := by
  cases x
  cases y
  simp_all

def IsNaN (x : Binary F) : Prop := F.infinity < x.mag
def IsZero (x : Binary F) : Prop := x.mag = 0

instance (x : Binary F) : Decidable x.IsNaN := inferInstanceAs (Decidable (_ < _))
instance (x : Binary F) : Decidable x.IsZero := inferInstanceAs (Decidable (_ = _))

/-- A NaN whose leading fraction bit is set; arithmetic produces no other. -/
def IsQuiet (x : Binary F) : Prop := F.infinity + 2 ^ (F.fractionBits - 1) ≤ x.mag

/-- The `==` of the C language: no NaN equals anything and the two zeros are equal. -/
def NumEq (x y : Binary F) : Prop := ¬ x.IsNaN ∧ ¬ y.IsNaN ∧ (x = y ∨ x.IsZero ∧ y.IsZero)

instance (x y : Binary F) : Decidable (NumEq x y) := inferInstanceAs (Decidable (_ ∧ _))

theorem NumEq.refl {x : Binary F} (h : ¬ x.IsNaN) : NumEq x x := ⟨h, h, .inl rfl⟩

theorem NumEq.symm {x y : Binary F} (h : NumEq x y) : NumEq y x :=
  ⟨h.2.1, h.1, h.2.2.imp Eq.symm And.symm⟩

theorem NumEq.trans {x y z : Binary F} (h : NumEq x y) (k : NumEq y z) : NumEq x z := by
  refine ⟨h.1, k.2.1, ?_⟩
  rcases h.2.2 with rfl | ⟨hx, hy⟩
  · exact k.2.2
  · rcases k.2.2 with rfl | ⟨-, hz⟩
    · exact .inr ⟨hx, hy⟩
    · exact .inr ⟨hx, hz⟩

/-! ## Conversions -/

/-- The quiet NaN magnitude of format `G` carrying the leading bits of the
fraction `f` of a NaN of format `F`. -/
def quietNaN (F G : Format) (f : ℕ) : ℕ :=
  G.infinity + (2 ^ (G.fractionBits - 1) +
    f * 2 ^ (G.fractionBits - F.fractionBits) / 2 ^ (F.fractionBits - G.fractionBits) %
      2 ^ (G.fractionBits - 1))

theorem quietNaN_lt_range (F G : Format) (f : ℕ) : quietNaN F G f < G.range := by
  apply G.infinity_add_lt
  have hsplit : 2 ^ G.fractionBits = 2 ^ (G.fractionBits - 1) * 2 := by
    rw [← pow_succ, Nat.sub_add_cancel G.fraction_pos]
  have hmod := Nat.mod_lt (f * 2 ^ (G.fractionBits - F.fractionBits) /
    2 ^ (F.fractionBits - G.fractionBits)) (Nat.two_pow_pos (G.fractionBits - 1))
  omega

/-- The C cast between floating types. -/
def convert (G : Format) (x : Binary F) : Binary G :=
  if F.infinity < x.mag then ⟨x.neg, quietNaN F G (x.mag - F.infinity), quietNaN_lt_range _ _ _⟩
  else if x.mag = F.infinity then ⟨x.neg, G.infinity, G.infinity_add_lt (Nat.two_pow_pos _)⟩
  else ⟨x.neg, G.pack (F.unpack x.mag).1 (F.unpack x.mag).2, G.pack_lt_range _ _⟩

/-- The C cast from an integer type. -/
def ofInt (F : Format) (n : ℤ) : Binary F := ⟨n < 0, F.pack n.natAbs 0, F.pack_lt_range _ _⟩

/-- The integer nearest to a finite number in the direction `round` gives its
magnitude; `none` for infinities and NaNs. -/
def toIntBy (round : ℕ → ℕ → ℕ) (x : Binary F) : Option ℤ :=
  if F.infinity ≤ x.mag then none
  else
    let man := (F.unpack x.mag).1
    let exp := (F.unpack x.mag).2
    let abs := if 0 ≤ exp then man * 2 ^ exp.toNat else round man (-exp).toNat
    some (if x.neg then -abs else abs)

/-- Rounding toward zero, as the C cast to an integer type does. -/
def truncate (x : Binary F) : Option ℤ := toIntBy (fun man k => man / 2 ^ k) x

/-- Rounding to nearest, ties to even. -/
def roundEven (x : Binary F) : Option ℤ := toIntBy Format.roundShift x

/-! ## Exactness -/

theorem unpack_binary32_le {mag : ℕ} (h : mag < binary32.infinity) :
    (binary32.unpack mag).2 ≤ 104 := by
  simp only [Format.infinity, binary32] at h
  norm_num at h
  rw [Format.unpack]
  split
  · simp only [Format.minExp, binary32]
    norm_num
  · simp only [Format.minExp, binary32]
    norm_num
    omega

/-- Widening to a format with more of both fields and narrowing again is the
identity on every number that is not a signalling NaN. -/
theorem convert_convert (x : Binary binary32) (h : x.IsNaN → x.IsQuiet) :
    convert binary32 (convert binary64 x) = x := by
  by_cases hnan : binary32.infinity < x.mag
  · have hquiet := h hnan
    have hlt := x.lt_range
    have hwide : binary64.infinity <
        quietNaN binary32 binary64 (x.mag - binary32.infinity) := by
      rw [quietNaN]
      have : 0 < 2 ^ (binary64.fractionBits - 1) := Nat.two_pow_pos _
      omega
    rw [convert, convert, if_pos hnan, if_pos hwide]
    refine ext rfl ?_
    simp only [quietNaN, IsQuiet, Format.infinity, Format.range, binary32, binary64] at *
    norm_num at *
    omega
  · by_cases hinf : x.mag = binary32.infinity
    · rw [convert, convert, if_neg hnan, if_pos hinf, if_neg (lt_irrefl _), if_pos rfl]
      exact ext rfl hinf.symm
    · have hfin : x.mag < binary32.infinity := by omega
      have hback := binary32.pack_unpack hfin
      have hwide : binary64.pack (binary32.unpack x.mag).1 (binary32.unpack x.mag).2 <
            binary64.infinity ∧
          binary32.pack (binary64.unpack (binary64.pack (binary32.unpack x.mag).1
            (binary32.unpack x.mag).2)).1 (binary64.unpack (binary64.pack
            (binary32.unpack x.mag).1 (binary32.unpack x.mag).2)).2 = x.mag := by
        by_cases hzero : (binary32.unpack x.mag).1 = 0
        · rw [hzero, Format.pack_zero] at hback
          rw [hzero, Format.pack_zero, ← hback]
          decide
        · have hman := binary32.unpack_lt x.mag
          have hexp := binary32.minExp_le_unpack x.mag
          have hexp' := unpack_binary32_le hfin
          have hman' : (binary32.unpack x.mag).1 < 2 ^ (binary64.fractionBits + 1) :=
            hman.trans (by decide)
          have hmin : binary64.minExp ≤ (binary32.unpack x.mag).2 :=
            le_trans (by decide) hexp
          obtain ⟨hlt, k, hk⟩ := binary64.unpack_pack hzero hman' hmin (by
            simp only [Format.infinity, Format.minExp, binary64]
            norm_num
            omega)
          refine ⟨hlt, ?_⟩
          rw [hk, binary32.pack_mul_two_pow _ _ _ (binary32.quantum_le hman hexp), hback]
      rw [convert, convert, if_neg hnan, if_neg hinf, if_neg (by simp only; omega),
        if_neg (by simp only; omega)]
      exact ext rfl hwide.2

/-- A rounding of `man / 2 ^ k` that returns the quotient when it is exact. -/
def ExactRounding (round : ℕ → ℕ → ℕ) : Prop :=
  ∀ man j k, k ≤ j → round (man * 2 ^ j) k = man * 2 ^ (j - k)

theorem exactRounding_div : ExactRounding fun man k => man / 2 ^ k := by
  intro man j k h
  have hsplit : man * 2 ^ j = man * 2 ^ (j - k) * 2 ^ k := by
    rw [Nat.mul_assoc, ← pow_add, Nat.sub_add_cancel h]
  simp only [hsplit]
  exact Nat.mul_div_cancel _ (Nat.two_pow_pos k)

theorem exactRounding_roundShift : ExactRounding Format.roundShift := Format.roundShift_mul

theorem not_isNaN_ofInt (n : ℤ) : ¬ (ofInt F n).IsNaN := by
  simp only [IsNaN, ofInt, Format.pack]
  split <;> omega

/-- Only NaNs are converted to NaNs. -/
theorem not_isNaN_convert {G : Format} {x : Binary F} (h : ¬ x.IsNaN) : ¬ (x.convert G).IsNaN := by
  have hle : ¬ F.infinity < x.mag := h
  rw [convert, if_neg hle]
  split
  · exact lt_irrefl _
  · simp only [IsNaN, Format.pack]
    split <;> omega

/-- An integer that fits the significand survives the conversion to `binary64` and back. -/
theorem toIntBy_ofInt {round : ℕ → ℕ → ℕ} (hround : ExactRounding round) {n : ℤ}
    (hn : n.natAbs < 2 ^ 53) : toIntBy round (ofInt binary64 n) = some n := by
  by_cases hzero : n = 0
  · subst n
    have h0 := hround 0 1074 1074 le_rfl
    simp only [Nat.zero_mul] at h0
    have hmin : ¬ (0 : ℤ) ≤ binary64.minExp := by decide
    have hexp : (-binary64.minExp).toNat = 1074 := by decide
    simp [toIntBy, ofInt, Format.unpack, hmin, hexp, h0, show ¬ binary64.infinity = 0 by decide]
  · have hexp : binary64.minExp ≤ 0 := by decide
    obtain ⟨hlt, k, hk⟩ := binary64.unpack_pack (Int.natAbs_ne_zero.mpr hzero) hn hexp (by decide)
    have habs : (if 0 ≤ (0 : ℤ) - k then n.natAbs * 2 ^ k * 2 ^ ((0 : ℤ) - k).toNat
        else round (n.natAbs * 2 ^ k) (-((0 : ℤ) - k)).toNat) = n.natAbs := by
      split
      · have : k = 0 := by omega
        simp [this]
      · rw [hround _ _ _ (by omega)]
        simp
    simp only [toIntBy, ofInt, hk, habs]
    rw [if_neg (by omega)]
    by_cases hneg : n < 0
    · simp only [hneg, decide_true, ite_true, Option.some.injEq]
      omega
    · simp only [hneg, decide_false, Bool.false_eq_true, ite_false, Option.some.injEq]
      omega

/-- Numbers that compare equal round to the same integer; the signs of the two
zeros make no difference. -/
theorem toIntBy_congr {round : ℕ → ℕ → ℕ} (hround : ExactRounding round) {x y : Binary F}
    (h : NumEq x y) : toIntBy round x = toIntBy round y := by
  rcases h.2.2 with rfl | ⟨hx, hy⟩
  · rfl
  · have hz : ∀ k, round 0 k = 0 := by
      intro k
      simpa using hround 0 k k le_rfl
    rw [IsZero] at hx hy
    simp [toIntBy, hx, hy, Format.unpack, hz]

theorem ofInt_injOn {m n : ℤ} (hm : m.natAbs < 2 ^ 53) (hn : n.natAbs < 2 ^ 53)
    (h : NumEq (ofInt binary64 m) (ofInt binary64 n)) : m = n := by
  have heq := toIntBy_congr exactRounding_div h
  rw [toIntBy_ofInt exactRounding_div hm, toIntBy_ofInt exactRounding_div hn] at heq
  exact Option.some.inj heq

/-- The bit pattern, sign first. -/
def toBits (x : Binary F) : ℕ := x.neg.toNat * F.range + x.mag

/-- The number with a given bit pattern. -/
def ofBits (F : Format) (bits : ℕ) : Binary F :=
  ⟨bits / F.range % 2 = 1, bits % F.range,
    Nat.mod_lt _ (Nat.mul_pos (Nat.two_pow_pos _) (Nat.two_pow_pos _))⟩

theorem toBits_lt (x : Binary F) : x.toBits < 2 * F.range := by
  have hlt := x.lt_range
  cases hneg : x.neg <;> simp [toBits, hneg] <;> omega

theorem ofBits_toBits (x : Binary F) : ofBits F x.toBits = x := by
  have hlt := x.lt_range
  have hpos : 0 < F.range := by omega
  have hdiv : x.toBits / F.range = x.neg.toNat := by
    rw [toBits, Nat.mul_comm, Nat.mul_add_div hpos, Nat.div_eq_of_lt hlt, Nat.add_zero]
  have hmod : x.toBits % F.range = x.mag := by
    rw [toBits, Nat.mul_comm, Nat.mul_add_mod, Nat.mod_eq_of_lt hlt]
  apply ext
  · cases hneg : x.neg <;> simp [ofBits, hdiv, hneg]
  · exact hmod

theorem toBits_ofBits {bits : ℕ} (h : bits < 2 * F.range) : (ofBits F bits).toBits = bits := by
  have hdiv : bits / F.range < 2 := Nat.div_lt_of_lt_mul (by rwa [Nat.mul_comm])
  have hsplit := Nat.div_add_mod bits F.range
  rw [Nat.mul_comm] at hsplit
  rw [toBits, ofBits]
  rcases Nat.lt_succ_iff_lt_or_eq.mp hdiv with hlt | heq
  · have hzero : bits / F.range = 0 := Nat.lt_one_iff.mp hlt
    simp only [hzero, Nat.zero_mod, Nat.zero_ne_one, decide_false, Bool.toNat_false] at hsplit ⊢
    exact hsplit
  · simp only [heq, decide_true, Bool.toNat_true] at hsplit ⊢
    exact hsplit

end Binary

end Ieee754
