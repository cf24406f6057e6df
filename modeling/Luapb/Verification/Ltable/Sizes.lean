import Luapb.Verification.Ltable.Insertion
import Mathlib.Data.Nat.Log
import Mathlib.Data.Nat.Size

/-! # The size of the array

`rehash` counts the keys by the powers of two they lie below. `computesizes` takes the largest
power of two of which more than half is in use, and counts the keys that go to the array. -/

namespace Luapb

namespace LuaH

variable {V : Type}

/-! ## Logarithms -/

theorem log2Table_eq : ∀ x < 256, log2Table.getD x 0 = x.size := by decide +kernel

theorem size_div {x : ℕ} (h : 256 ≤ x) : x.size = (x / 256).size + 8 := by
  have hpos : 0 < (x / 256).size := Nat.size_pos.mpr (by omega)
  apply le_antisymm
  · rw [Nat.size_le, pow_add]
    have hlt := Nat.lt_size_self (x / 256)
    omega
  · obtain ⟨s, hs⟩ : ∃ s, (x / 256).size = s + 1 := ⟨(x / 256).size - 1, by omega⟩
    have hle : 2 ^ s ≤ x / 256 := Nat.lt_size.mp (by omega)
    have hlt : s + 8 < x.size := by
      rw [Nat.lt_size, pow_add]
      omega
    omega

theorem log2Loop_eq (fuel : ℕ) (l : ℤ) {x : ℕ} (h : x < 256 ^ (fuel + 1)) :
    log2Loop fuel l x = l + x.size := by
  induction fuel generalizing l x with
  | zero => rw [log2Loop, log2Table_eq x (by simpa using h)]
  | succ fuel ih =>
      rw [log2Loop]
      split
      · rename_i hx
        have hdiv : x / 256 < 256 ^ (fuel + 1) := Nat.div_lt_of_lt_mul (by rwa [pow_succ'] at h)
        rw [ih _ hdiv, size_div hx]
        push_cast
        omega
      · rw [log2Table_eq x (by omega)]

/-- `ceillog2` of an `unsigned int`. -/
theorem ceillog2_eq {x : ℕ} (h : x ≤ 2 ^ 32) : ceillog2 x = Nat.clog 2 x := by
  have hlog : luaOLog2 (x - 1) = -1 + ((x - 1).size : ℤ) := log2Loop_eq 3 (-1) (by omega)
  have hsize : (x - 1).size = Nat.clog 2 x := by
    apply eq_of_forall_ge_iff
    intro y
    have hpos := Nat.two_pow_pos y
    rw [Nat.size_le, Nat.clog_le_iff_le_pow Nat.one_lt_two]
    omega
  rw [ceillog2, hlog, hsize]
  omega

/-! ## Counting one key after the other -/

/-- A key that may go to an array. -/
def Candidate (k : LuaKey) : Prop := 0 < arrayindex k ∧ arrayindex k ≤ maxASize

instance (k : LuaKey) : Decidable (Candidate k) := inferInstanceAs (Decidable (_ ∧ _))

/-- The exponent of the first power of two that is not below the index. -/
def exponent (k : LuaKey) : ℕ := Nat.clog 2 (arrayindex k).toNat

theorem Candidate.ceillog2 {k : LuaKey} (h : Candidate k) :
    ceillog2 (arrayindex k).toNat = exponent k := by
  have hle := h.2
  rw [maxASize, maxBits] at hle
  exact ceillog2_eq (by omega)

theorem countint_eq (k : LuaKey) (nums : List ℕ) : countint k nums =
    if Candidate k then (nums.modify (exponent k) (· + 1), 1) else (nums, 0) := by
  rw [countint]
  split
  · rename_i h
    rw [if_pos (show Candidate k from h), Candidate.ceillog2 h]
  · rename_i h
    rw [if_neg (show ¬ Candidate k from h)]

/-- `countint` on one key after the other, with the number of keys that are counted. -/
def countKeys : List LuaKey → List ℕ × ℕ → List ℕ × ℕ
  | [], r => r
  | k :: ks, r => countKeys ks ((countint k r.1).1, r.2 + (countint k r.1).2)

theorem countKeys_append (ks ks' : List LuaKey) (r : List ℕ × ℕ) :
    countKeys (ks ++ ks') r = countKeys ks' (countKeys ks r) := by
  induction ks generalizing r with
  | nil => rfl
  | cons k ks ih => exact ih _

/-- Keys below the same power of two are counted in one step. -/
theorem countKeys_slice {lg : ℕ} {ks : List LuaKey}
    (h : ∀ k ∈ ks, Candidate k ∧ exponent k = lg) (r : List ℕ × ℕ) :
    countKeys ks r = (r.1.modify lg (· + ks.length), r.2 + ks.length) := by
  induction ks generalizing r with
  | nil => exact Prod.ext (List.modify_id lg r.1).symm rfl
  | cons k ks ih =>
      obtain ⟨⟨hk, rfl⟩, hks⟩ := List.forall_mem_cons.mp h
      rw [countKeys, ih hks, countint_eq, if_pos hk, List.modify_modify_eq, List.length_cons]
      refine Prod.ext ?_ (by simp only; omega)
      refine congrArg (r.1.modify (exponent k)) ?_
      funext n
      simp only [Function.comp_apply]
      omega

theorem countKeys_snd (ks : List LuaKey) (nums : List ℕ) (total : ℕ) :
    (countKeys ks (nums, total)).2 = total + ks.countP fun k => Candidate k := by
  induction ks generalizing nums total with
  | nil => rfl
  | cons k ks ih =>
      rw [countKeys, ih, countint_eq, List.countP_cons]
      by_cases hk : Candidate k <;> simp [hk]
      omega

/-- Each count is that of the keys below a power of two and not below the one before. -/
theorem countKeys_fst (ks : List LuaKey) (nums : List ℕ) (total : ℕ) {lg : ℕ}
    (hlg : lg < nums.length) : (countKeys ks (nums, total)).1.getD lg 0 =
      nums.getD lg 0 + ks.countP (fun k => Candidate k ∧ exponent k = lg) := by
  induction ks generalizing nums total with
  | nil => simp [countKeys]
  | cons k ks ih =>
      rw [countKeys, countint_eq]
      by_cases hk : Candidate k
      · rw [if_pos hk, ih (nums.modify (exponent k) (· + 1)) (total + 1) (by simpa)]
        by_cases heq : exponent k = lg
        · subst heq
          simp [hk, hlg]
          omega
        · simp [hk, heq]
      · simp only [if_neg hk, Nat.add_zero]
        rw [ih nums total hlg]
        simp [hk]

/-! ## The keys of a table -/

/-- The keys of an array whose first index is `i + 1`. -/
def arrayKeys : ℕ → List (Option V) → List LuaKey
  | _, [] => []
  | i, v? :: array => (if v?.isSome then [.integer (i + 1)] else []) ++ arrayKeys (i + 1) array

theorem arrayKeys_append (i : ℕ) (array array' : List (Option V)) :
    arrayKeys i (array ++ array') = arrayKeys i array ++ arrayKeys (i + array.length) array' := by
  induction array generalizing i with
  | nil => rfl
  | cons v? array ih =>
      rw [List.cons_append, arrayKeys, ih, arrayKeys, List.append_assoc, List.length_cons,
        Nat.add_right_comm, Nat.add_assoc]

theorem length_arrayKeys (i : ℕ) (array : List (Option V)) :
    (arrayKeys i array).length = array.countP Option.isSome := by
  induction array generalizing i with
  | nil => rfl
  | cons v? array ih =>
      rw [arrayKeys, List.length_append, ih, List.countP_cons, Nat.add_comm]
      cases v? <;> rfl

theorem mem_arrayKeys {i : ℕ} {array : List (Option V)} {k : LuaKey} :
    k ∈ arrayKeys i array ↔ ∃ j v, array[j]? = some (some v) ∧ k = .integer ((i + j : ℕ) + 1) := by
  induction array generalizing i with
  | nil => simp [arrayKeys]
  | cons v? array ih =>
      rw [arrayKeys, List.mem_append, ih]
      constructor
      · rintro (h | ⟨j, v, hj, rfl⟩)
        · cases v? with
          | none => cases h
          | some v => exact ⟨0, v, rfl, by simpa using h⟩
        · exact ⟨j + 1, v, hj, by rw [Nat.add_right_comm, Nat.add_assoc]⟩
      · rintro ⟨j, v, hj, rfl⟩
        cases j with
        | zero =>
            obtain rfl : v? = some v := by simpa using hj
            exact .inl (by simp)
        | succ j => exact .inr ⟨j, v, hj, by rw [Nat.add_right_comm, Nat.add_assoc]⟩

theorem nodup_arrayKeys (i : ℕ) (array : List (Option V)) : (arrayKeys i array).Nodup := by
  induction array generalizing i with
  | nil => exact List.nodup_nil
  | cons v? array ih =>
      rw [arrayKeys, List.nodup_append]
      refine ⟨by split <;> simp, ih _, ?_⟩
      rintro k hk k' hk' rfl
      obtain ⟨j, v, -, heq⟩ := mem_arrayKeys.mp hk'
      split at hk
      · obtain rfl := List.mem_singleton.mp hk
        have hindex := LuaKey.integer.inj heq
        omega
      · cases hk

/-- The keys of the nodes that have a value. -/
def nodeKeys (node : List (Node V)) : List LuaKey :=
  node.filterMap fun n => n.val.bind fun _ => n.key

/-- The keys behind an index are those up to another one and those behind that. -/
theorem arrayKeys_drop (array : List (Option V)) {i j : ℕ} (hij : i ≤ j) (hj : j ≤ array.length) :
    arrayKeys i (array.drop i) =
      arrayKeys i ((array.drop i).take (j - i)) ++ arrayKeys j (array.drop j) := by
  have hlength : i + ((array.drop i).take (j - i)).length = j := by
    rw [List.length_take, List.length_drop]
    omega
  have hdrop : (array.drop i).drop (j - i) = array.drop j := by
    rw [List.drop_drop, Nat.add_sub_of_le hij]
  have happend := arrayKeys_append i ((array.drop i).take (j - i)) ((array.drop i).drop (j - i))
  rwa [List.take_append_drop, hlength, hdrop] at happend

/-! ## Counting a whole table -/

/-- The keys from a power of two to the next one are counted together. -/
theorem exponent_eq {lg p : ℕ} (hle : p ≤ 2 ^ lg) (hlt : lg = 0 ∧ 0 < p ∨ 0 < lg ∧ 2 ^ (lg - 1) < p)
    (hbits : lg ≤ maxBits) : Candidate (.integer p) ∧ exponent (.integer p) = lg := by
  have hbound : p ≤ 2 ^ 26 := hle.trans (Nat.pow_le_pow_right Nat.two_pos hbits)
  have hpos : 0 < p := by
    rcases hlt with ⟨-, h⟩ | ⟨-, h⟩
    · exact h
    · exact (Nat.zero_le _).trans_lt h
  have hindex : arrayindex (.integer p) = p := arrayindex_eq (by omega) (by omega)
  have hcandidate : Candidate (.integer p) := by
    rw [Candidate, hindex, maxASize, maxBits]
    omega
  refine ⟨hcandidate, ?_⟩
  rw [exponent, hindex, Int.toNat_natCast]
  rcases hlt with ⟨rfl, -⟩ | ⟨hlg, hlt⟩
  · exact Nat.clog_of_right_le_one (by simpa using hle) 2
  · have hgt := (Nat.lt_clog_iff_pow_lt Nat.one_lt_two).mpr hlt
    have hclog : Nat.clog 2 p ≤ lg := Nat.clog_le_of_le_pow hle
    omega

/-- `numusearray` counts slice by slice what `countint` would count key by key. -/
theorem numusearrayLoop_eq {t : Table V} (hsize : t.sizearray ≤ maxASize) (slices : ℕ) {lg i : ℕ}
    (hlg : lg + slices = maxBits + 1)
    (hi : i = min (if lg = 0 then 0 else 2 ^ (lg - 1)) t.sizearray + 1) (nums : List ℕ) (ause : ℕ) :
    numusearrayLoop t slices lg i nums ause =
      countKeys (arrayKeys (i - 1) (t.array.drop (i - 1))) (nums, ause) := by
  have hlen : t.array.length = t.sizearray := rfl
  induction slices generalizing lg i nums ause with
  | zero =>
      have hend : t.sizearray ≤ i - 1 := by
        rw [maxASize] at hsize
        rw [hi, show lg = maxBits + 1 by omega]
        simp only [Nat.add_eq_zero_iff, Nat.one_ne_zero, and_false, if_false, Nat.add_sub_cancel]
        omega
      rw [List.drop_eq_nil_of_le (hlen ▸ hend)]
      rfl
  | succ slices ih =>
      rw [numusearrayLoop]
      split
      · rename_i hbreak
        rw [List.drop_eq_nil_of_le (by omega)]
        rfl
      · rename_i hcontinue
        have hpow : (if lg = 0 then 0 else 2 ^ (lg - 1)) ≤ 2 ^ lg := by
          split
          · exact Nat.zero_le _
          · exact Nat.pow_le_pow_right Nat.two_pos (Nat.sub_le _ _)
        have hmax : max i (min (2 ^ lg) t.sizearray + 1) = min (2 ^ lg) t.sizearray + 1 := by omega
        generalize hlim : min (2 ^ lg) t.sizearray = lim at hmax ⊢
        have hkeys := arrayKeys_drop t.array (show i - 1 ≤ lim by omega) (by omega)
        rw [show lim - (i - 1) = lim + 1 - i by omega] at hkeys
        have hslice : ∀ k ∈ arrayKeys (i - 1)
            ((t.array.drop (i - 1)).take (lim + 1 - i)),
            Candidate k ∧ exponent k = lg := by
          intro k hk
          obtain ⟨j, v, hj, rfl⟩ := mem_arrayKeys.mp hk
          have hjlt := (List.getElem?_eq_some_iff.mp hj).1
          rw [List.length_take] at hjlt
          have hcast : (((i - 1 + j : ℕ) : ℤ) + 1) = ((i - 1 + j + 1 : ℕ) : ℤ) := by push_cast; rfl
          rw [hcast]
          refine exponent_eq (by omega) ?_ (by omega)
          by_cases hzero : lg = 0
          · exact .inl ⟨hzero, by omega⟩
          · rw [if_neg hzero] at hi hpow
            exact .inr ⟨Nat.pos_of_ne_zero hzero, by omega⟩
        simp only [hmax]
        rw [ih (by omega) (by simp [hlim]), hkeys, countKeys_append, countKeys_slice hslice,
          length_arrayKeys, Nat.add_sub_cancel]

theorem numusearray_eq {t : Table V} (hsize : t.sizearray ≤ maxASize) (nums : List ℕ) :
    numusearray t nums = countKeys (arrayKeys 0 t.array) (nums, 0) :=
  numusearrayLoop_eq hsize _ (by omega) (by simp) nums 0

theorem countKeys_offset (ks : List LuaKey) (nums : List ℕ) (total : ℕ) :
    countKeys ks (nums, total) =
      ((countKeys ks (nums, 0)).1, total + (countKeys ks (nums, 0)).2) := by
  induction ks generalizing nums total with
  | nil => rfl
  | cons k ks ih =>
      simp only [countKeys]
      rw [ih _ (total + _), ih _ (0 + _)]
      simp only [Nat.zero_add, Nat.add_assoc]

theorem numusehash_eq (t : Table V) (nums : List ℕ) : numusehash t nums =
    ((countKeys (nodeKeys t.node).reverse (nums, 0)).1, (nodeKeys t.node).length,
      (countKeys (nodeKeys t.node).reverse (nums, 0)).2) := by
  rw [numusehash]
  induction t.node with
  | nil => rfl
  | cons n node ih =>
      rcases n with ⟨key, val, next⟩
      cases val with
      | none =>
          rw [List.foldr_cons, ih]
          rfl
      | some v =>
          cases key with
          | none =>
              rw [List.foldr_cons, ih]
              rfl
          | some k =>
              have hkeys : nodeKeys (⟨some k, some v, next⟩ :: node) = k :: nodeKeys node := rfl
              rw [List.foldr_cons, ih, hkeys, List.reverse_cons, countKeys_append]
              rfl

/-! ## The best size -/

/-- The keys that an array of a size has a place for. -/
def keysUpTo (ks : List LuaKey) (n : ℕ) : ℕ :=
  ks.countP fun k => 0 < arrayindex k ∧ arrayindex k ≤ n

/-- The largest power of two of which more than half is in use, of those below `2 ^ i`, and
how many keys are there. -/
structure Best (ks : List LuaKey) (i n na : ℕ) : Prop where
  used : n = 0 ∨ ∃ j < i, n = 2 ^ j ∧ 2 ^ j < 2 * keysUpTo ks (2 ^ j)
  largest : ∀ j < i, 2 ^ j < 2 * keysUpTo ks (2 ^ j) → 2 ^ j ≤ n
  na_eq : na = keysUpTo ks n

/-- Where the keys are the indices up to a number, the best size is no smaller. -/
theorem Best.covers {ks : List LuaKey} {n na m : ℕ} (h : Best ks (maxBits + 1) n na)
    (hpos : 0 < m) (hm : m ≤ 2 ^ maxBits) (hall : ∀ p, m ≤ p → keysUpTo ks p = m) : m ≤ n := by
  have hpow := Nat.le_pow_clog Nat.one_lt_two m
  have hclog : Nat.clog 2 m ≤ maxBits := Nat.clog_le_of_le_pow hm
  refine hpow.trans (h.largest _ (Nat.lt_succ_of_le hclog) ?_)
  rw [hall _ hpow]
  rcases Nat.eq_or_lt_of_le (Nat.succ_le_of_lt hpos) with rfl | hgt
  · decide
  · have hpred := Nat.pow_pred_clog_lt_self Nat.one_lt_two hgt
    have hsucc : Nat.clog 2 m = (Nat.clog 2 m).pred + 1 :=
      (Nat.succ_pred (Nat.clog_pos Nat.one_lt_two hgt).ne').symm
    rw [hsucc, pow_succ]
    omega

theorem keysUpTo_mono (ks : List LuaKey) {m n : ℕ} (h : m ≤ n) : keysUpTo ks m ≤ keysUpTo ks n := by
  refine List.countP_mono_left fun k _ hk => ?_
  simp only [decide_eq_true_eq] at hk ⊢
  omega

@[simp] theorem keysUpTo_zero (ks : List LuaKey) : keysUpTo ks 0 = 0 := by
  rw [keysUpTo, List.countP_eq_zero]
  intro k _
  simp only [decide_eq_true_eq]
  omega

/-- Distinct keys do not use an index twice. -/
theorem keysUpTo_le {ks : List LuaKey} (h : ks.Nodup) (n : ℕ) : keysUpTo ks n ≤ n := by
  have hsubset : (ks.filter fun k => 0 < arrayindex k ∧ arrayindex k ≤ n) ⊆
      (List.range n).map fun i : ℕ => .integer (i + 1) := by
    intro k hk
    obtain ⟨-, hk⟩ := List.mem_filter.mp hk
    simp only [decide_eq_true_eq] at hk
    refine List.mem_map.mpr ⟨(arrayindex k - 1).toNat, List.mem_range.mpr (by omega), ?_⟩
    rw [(eq_integer_of_arrayindex_pos hk.1).1, arrayindex_eq (by omega)
      (eq_integer_of_arrayindex_pos hk.1).2]
    congr 1
    omega
  have hlen := ((h.filter _).subperm hsubset).length_le
  rwa [← List.countP_eq_length_filter, List.length_map, List.length_range] at hlen

theorem keysUpTo_pow (ks : List LuaKey) (i : ℕ) :
    keysUpTo ks (2 ^ i) = ks.countP fun k => 0 < arrayindex k ∧ exponent k ≤ i := by
  refine List.countP_congr fun k _ => ?_
  simp only [decide_eq_true_eq]
  rw [exponent, Nat.clog_le_iff_le_pow Nat.one_lt_two]
  omega

/-- The next count adds the keys above a power of two. -/
theorem keysUpTo_succ (ks : List LuaKey) {i : ℕ} (hi : i ≤ maxBits) :
    keysUpTo ks (2 ^ i) = (if i = 0 then 0 else keysUpTo ks (2 ^ (i - 1))) +
      ks.countP fun k => Candidate k ∧ exponent k = i := by
  have hcandidate : (ks.countP fun k => Candidate k ∧ exponent k = i) =
      ks.countP fun k => 0 < arrayindex k ∧ exponent k = i := by
    refine List.countP_congr fun k _ => ?_
    simp only [decide_eq_true_eq]
    constructor
    · exact fun ⟨h, heq⟩ => ⟨h.1, heq⟩
    · rintro ⟨hpos, rfl⟩
      have hle := (Nat.clog_le_iff_le_pow Nat.one_lt_two).mp hi
      exact ⟨⟨hpos, by rw [maxASize]; omega⟩, rfl⟩
  rw [hcandidate, keysUpTo_pow, keysUpTo_pow]
  clear hcandidate
  induction ks with
  | nil => simp
  | cons k ks ih =>
      simp only [List.countP_cons, decide_eq_true_eq]
      by_cases hpos : 0 < arrayindex k
      · simp only [hpos, true_and] at ih ⊢
        split at ih
        · rename_i hzero
          rw [if_pos hzero]
          split <;> split <;> omega
        · rename_i hzero
          rw [if_neg hzero]
          split <;> split <;> split <;> omega
      · simp only [hpos, false_and, if_false, Nat.add_zero]
        exact ih

theorem Best.le_maxASize {ks : List LuaKey} {n na : ℕ} (h : Best ks (maxBits + 1) n na) :
    n ≤ maxASize := by
  rcases h.used with rfl | ⟨j, hj, rfl, -⟩
  · exact Nat.zero_le _
  · exact Nat.pow_le_pow_right Nat.two_pos (Nat.le_of_lt_succ hj)

/-- No larger power of two is more than half in use. -/
theorem Best.extend {ks : List LuaKey} {i n na : ℕ} (h : Best ks i n na)
    (hrest : ∀ j, i ≤ j → j ≤ maxBits → 2 * keysUpTo ks (2 ^ j) ≤ 2 ^ j) (hi : i ≤ maxBits + 1) :
    Best ks (maxBits + 1) n na := by
  refine ⟨?_, ?_, h.na_eq⟩
  · rcases h.used with hzero | ⟨j, hj, hused⟩
    · exact .inl hzero
    · exact .inr ⟨j, by omega, hused⟩
  · intro j hj hhalf
    rcases Nat.lt_or_ge j i with hlt | hge
    · exact h.largest j hlt hhalf
    · exact absurd hhalf (Nat.not_lt.mpr (hrest j hge (Nat.le_of_lt_succ hj)))

theorem half_lt_iff (i a : ℕ) : 2 ^ i / 2 < a ↔ 2 ^ i < 2 * a := by
  cases i with
  | zero => omega
  | succ i =>
      rw [pow_succ]
      omega

section

variable {ks : List LuaKey} (hnodup : ks.Nodup)

include hnodup

/-- One power of two more. -/
theorem Best.step {i n na : ℕ} (h : Best ks i n na) (hi : i ≤ maxBits) :
    let c := ks.countP fun k => Candidate k ∧ exponent k = i
    let r := if 0 < c ∧ 2 ^ i / 2 < keysUpTo ks (2 ^ i) then (2 ^ i, keysUpTo ks (2 ^ i))
      else (n, na)
    Best ks (i + 1) r.1 r.2 := by
  intro c r
  by_cases hmore : 0 < c ∧ 2 ^ i / 2 < keysUpTo ks (2 ^ i)
  · rw [show r = (2 ^ i, keysUpTo ks (2 ^ i)) from if_pos hmore]
    refine ⟨.inr ⟨i, Nat.lt_succ_self i, rfl, (half_lt_iff i _).mp hmore.2⟩, ?_, rfl⟩
    exact fun j hj _ => Nat.pow_le_pow_right Nat.two_pos (Nat.le_of_lt_succ hj)
  · rw [show r = (n, na) from if_neg hmore]
    have hhalf : ¬ 2 ^ i < 2 * keysUpTo ks (2 ^ i) := by
      intro hlt
      refine hmore ⟨?_, (half_lt_iff i _).mpr hlt⟩
      -- without a key of its own the slice cannot be more than half in use
      have hsucc := keysUpTo_succ ks hi
      rcases Nat.eq_zero_or_pos i with rfl | hpos
      · rw [if_pos rfl] at hsucc
        omega
      · rw [if_neg (Nat.ne_of_gt hpos)] at hsucc
        have hle := keysUpTo_le hnodup (2 ^ (i - 1))
        have hpow : 2 ^ i = 2 * 2 ^ (i - 1) := by rw [← pow_succ', Nat.sub_add_cancel hpos]
        omega
    refine ⟨?_, ?_, h.na_eq⟩
    · rcases h.used with hzero | ⟨j, hj, hused⟩
      · exact .inl hzero
      · exact .inr ⟨j, Nat.lt_succ_of_lt hj, hused⟩
    · intro j hj hlt
      rcases Nat.lt_succ_iff_lt_or_eq.mp hj with hj | rfl
      · exact h.largest j hj hlt
      · exact absurd hlt hhalf

theorem computesizesLoop_best {nums : List ℕ}
    (hnums : ∀ i ≤ maxBits, nums.getD i 0 = ks.countP fun k => Candidate k ∧ exponent k = i)
    {fuel i n na : ℕ} (hfuel : maxBits < fuel + i) (hi : i ≤ maxBits) (h : Best ks i n na) :
    let r := computesizesLoop nums (keysUpTo ks maxASize) fuel i
      (if i = 0 then 0 else keysUpTo ks (2 ^ (i - 1))) na n
    Best ks (maxBits + 1) r.1 r.2 := by
  induction fuel generalizing i n na with
  | zero => omega
  | succ fuel ih =>
      have hpow : ∀ {j}, i ≤ j → 2 ^ i ≤ 2 ^ j := fun hij => Nat.pow_le_pow_right Nat.two_pos hij
      have hmono : ∀ {j}, j ≤ maxBits → keysUpTo ks (2 ^ j) ≤ keysUpTo ks maxASize :=
        fun hj => keysUpTo_mono ks (Nat.pow_le_pow_right Nat.two_pos hj)
      rw [computesizesLoop, hnums i hi]
      dsimp only
      rw [← keysUpTo_succ ks hi]
      have hstep := h.step hnodup hi
      dsimp only at hstep
      split
      · generalize (if 0 < ks.countP (fun k => Candidate k ∧ exponent k = i) ∧
          2 ^ i / 2 < keysUpTo ks (2 ^ i) then (2 ^ i, keysUpTo ks (2 ^ i)) else (n, na)) = r
          at hstep ⊢
        split
        · rename_i hall
          -- all keys are below `2 ^ i`
          refine hstep.extend ?_ (by omega)
          intro j hj hjle
          have hle := keysUpTo_le hnodup (2 ^ i)
          have hmax := hmono hjle
          have hsucc := Nat.pow_le_pow_right Nat.two_pos hj
          rw [pow_succ] at hsucc
          omega
        · rename_i hmore
          have hlt : i ≠ maxBits := fun heq => hmore (by rw [heq, maxASize])
          have hnext := ih (i := i + 1) (by omega) (by omega) hstep
          rw [if_neg (Nat.succ_ne_zero i), Nat.add_sub_cancel] at hnext
          exact hnext
      · rename_i hend
        refine h.extend ?_ (by omega)
        intro j hj hjle
        have hmax := hmono hjle
        have hle := hpow hj
        omega

/-- `computesizes` takes the largest power of two of which more than half is in use. -/
theorem computesizes_best {nums : List ℕ}
    (hnums : ∀ i ≤ maxBits, nums.getD i 0 = ks.countP fun k => Candidate k ∧ exponent k = i) :
    Best ks (maxBits + 1) (computesizes nums (keysUpTo ks maxASize)).1
      (computesizes nums (keysUpTo ks maxASize)).2 := by
  have hempty : Best ks 0 0 0 := ⟨.inl rfl, fun j hj => absurd hj (Nat.not_lt_zero j), by simp⟩
  have hfuel : maxBits < 32 + 0 := by decide
  exact computesizesLoop_best hnodup hnums hfuel (Nat.zero_le _) hempty

end

end LuaH

end Luapb
