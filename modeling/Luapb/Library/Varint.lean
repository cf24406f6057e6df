import Mathlib.Data.List.Basic
import Mathlib.Tactic.Ring

/-! # Base-128 varints

A varint stores a natural number seven bits to a byte, least significant group
first; the high bit of a byte says that another byte follows. A varint of a
64-bit number has at most ten bytes, which is also the most a reader accepts. -/

namespace Varint

/-- The number of bytes after which a reader gives up. -/
def maxBytes : ℕ := 10

/-- Seven bits a byte, with room for `k` more bytes after this one. -/
def encodeAux : ℕ → ℕ → List UInt8
  | 0, n => [UInt8.ofNat (n % 128)]
  | k + 1, n =>
      if n < 128 then [UInt8.ofNat n]
      else UInt8.ofNat (n % 128 + 128) :: encodeAux k (n / 128)

/-- The shortest varint of a number below `2 ^ 70`. -/
def encode (n : ℕ) : List UInt8 := encodeAux (maxBytes - 1) n

/-- The number a varint of at most `k` bytes stands for, and the bytes after it. -/
def decodeAux : ℕ → List UInt8 → Option (ℕ × List UInt8)
  | 0, _ => none
  | _ + 1, [] => none
  | k + 1, b :: rest =>
      if b.toNat < 128 then some (b.toNat, rest)
      else (decodeAux k rest).map fun p => (b.toNat - 128 + 128 * p.1, p.2)

/-- Reads one varint; `none` when the bytes end inside it or it is overlong. -/
def decode (bytes : List UInt8) : Option (ℕ × List UInt8) := decodeAux maxBytes bytes

/-! ## Shape of an encoding -/

theorem encodeAux_ne_nil (k n : ℕ) : encodeAux k n ≠ [] := by
  cases k with
  | zero => simp [encodeAux]
  | succ k =>
      rw [encodeAux]
      split <;> simp

theorem encode_ne_nil (n : ℕ) : encode n ≠ [] := encodeAux_ne_nil _ n

theorem length_encode_pos (n : ℕ) : 0 < (encode n).length :=
  List.length_pos_iff.mpr (encode_ne_nil n)

theorem length_encodeAux_le (k n : ℕ) : (encodeAux k n).length ≤ k + 1 := by
  induction k generalizing n with
  | zero => simp [encodeAux]
  | succ k ih =>
      rw [encodeAux]
      split
      · simp
      · simpa using ih (n / 128)

theorem length_encode_le (n : ℕ) : (encode n).length ≤ maxBytes :=
  length_encodeAux_le (maxBytes - 1) n

theorem length_encodeAux_le_of_lt {k n l : ℕ} (h : n < 128 ^ (l + 1)) :
    (encodeAux k n).length ≤ l + 1 := by
  induction l generalizing k n with
  | zero =>
      have hlt : n < 128 := by simpa using h
      cases k with
      | zero => simp [encodeAux]
      | succ k => simp [encodeAux, hlt]
  | succ l ih =>
      cases k with
      | zero => simp [encodeAux]
      | succ k =>
          rw [encodeAux]
          split
          · simp
          · have hdiv : n / 128 < 128 ^ (l + 1) := by
              rw [pow_succ] at h
              exact Nat.div_lt_of_lt_mul (by rwa [Nat.mul_comm])
            simpa using ih hdiv

/-- A number below `128 ^ l` takes at most `l` bytes, unless it is 0. -/
theorem length_encode_le_of_lt {n l : ℕ} (hl : 0 < l) (h : n < 128 ^ l) :
    (encode n).length ≤ l := by
  cases l with
  | zero => omega
  | succ l => exact length_encodeAux_le_of_lt h

theorem lt_length_encodeAux {k n l : ℕ} (hl : l ≤ k) (h : 128 ^ l ≤ n) :
    l < (encodeAux k n).length := by
  induction l generalizing k n with
  | zero => exact List.length_pos_iff.mpr (encodeAux_ne_nil k n)
  | succ l ih =>
      cases k with
      | zero => omega
      | succ k =>
          have hge : 128 ≤ n := by
            have hpos : 0 < 128 ^ l := Nat.pow_pos (by decide)
            rw [pow_succ] at h
            omega
          have hdiv : 128 ^ l ≤ n / 128 := by
            rw [Nat.le_div_iff_mul_le (by decide)]
            rwa [pow_succ] at h
          rw [encodeAux, if_neg (by omega)]
          simpa using ih (by omega) hdiv

/-- A number from `128 ^ l` on takes more than `l` bytes. -/
theorem lt_length_encode {n l : ℕ} (hl : l < maxBytes) (h : 128 ^ l ≤ n) :
    l < (encode n).length :=
  lt_length_encodeAux (Nat.le_sub_one_of_lt hl) h

/-- A larger number has no shorter varint. -/
theorem length_encode_mono {m n : ℕ} (h : m ≤ n) : (encode m).length ≤ (encode n).length := by
  by_cases hmax : (encode n).length < maxBytes
  · have hlt : n < 128 ^ (encode n).length := by
      by_contra hge
      exact absurd (lt_length_encode hmax (Nat.le_of_not_lt hge)) (lt_irrefl _)
    exact length_encode_le_of_lt (length_encode_pos n) (h.trans_lt hlt)
  · exact (length_encode_le m).trans (Nat.le_of_not_lt hmax)

theorem encode_of_lt {n : ℕ} (h : n < 128) : encode n = [UInt8.ofNat n] := by
  simp [encode, encodeAux, maxBytes, h]

/-! ## Reading back -/

theorem decodeAux_encodeAux (k n : ℕ) (rest : List UInt8) (hn : n < 128 ^ (k + 1)) :
    decodeAux (k + 1) (encodeAux k n ++ rest) = some (n, rest) := by
  induction k generalizing n with
  | zero =>
      have hlt : n < 128 := by simpa using hn
      have hbyte : (UInt8.ofNat n).toNat = n := by simp; omega
      simp [encodeAux, decodeAux, Nat.mod_eq_of_lt hlt, hbyte, hlt]
  | succ k ih =>
      rw [encodeAux]
      split
      · rename_i hlt
        have hbyte : (UInt8.ofNat n).toNat = n := by simp; omega
        simp [decodeAux, hbyte, hlt]
      · rename_i hge
        have hbyte : (UInt8.ofNat (n % 128 + 128)).toNat = n % 128 + 128 := by simp; omega
        have hdiv : n / 128 < 128 ^ (k + 1) := by
          rw [pow_succ] at hn
          exact Nat.div_lt_of_lt_mul (by rwa [Nat.mul_comm])
        rw [List.cons_append, decodeAux, hbyte, ih (n / 128) hdiv]
        simp only [Nat.not_lt.mpr (Nat.le_add_left 128 (n % 128)), ite_false, Option.map_some,
          Option.some.injEq, Prod.mk.injEq, and_true]
        omega

/-- Decoding what was encoded returns the number and leaves what follows untouched. -/
theorem decode_encode (n : ℕ) (rest : List UInt8) (hn : n < 2 ^ 64) :
    decode (encode n ++ rest) = some (n, rest) :=
  decodeAux_encodeAux (maxBytes - 1) n rest (hn.trans (by decide))

theorem decodeAux_suffix {k : ℕ} {bytes rest : List UInt8} {n : ℕ}
    (h : decodeAux k bytes = some (n, rest)) :
    ∃ used, used ≠ [] ∧ bytes = used ++ rest ∧ decodeAux k used = some (n, []) := by
  induction k generalizing bytes n with
  | zero => simp [decodeAux] at h
  | succ k ih =>
      cases bytes with
      | nil => simp [decodeAux] at h
      | cons b tail =>
          rw [decodeAux] at h
          split at h
          · rename_i hlt
            obtain ⟨rfl, rfl⟩ : b.toNat = n ∧ tail = rest := by simpa using h
            exact ⟨[b], by simp, by simp, by simp [decodeAux, hlt]⟩
          · rename_i hge
            obtain ⟨⟨m, r⟩, hm, hp⟩ := Option.map_eq_some_iff.mp h
            obtain ⟨rfl, rfl⟩ := Prod.mk.inj hp
            obtain ⟨used, -, rfl, hused⟩ := ih hm
            exact ⟨b :: used, by simp, by simp, by simp [decodeAux, hge, hused]⟩

/-- A varint that is read occupies at least one byte, and reads the same alone. -/
theorem decode_suffix {bytes rest : List UInt8} {n : ℕ} (h : decode bytes = some (n, rest)) :
    ∃ used, used ≠ [] ∧ bytes = used ++ rest ∧ decode used = some (n, []) := decodeAux_suffix h

theorem decodeAux_append {k : ℕ} {bytes rest : List UInt8} {n : ℕ}
    (h : decodeAux k bytes = some (n, rest)) (more : List UInt8) :
    decodeAux k (bytes ++ more) = some (n, rest ++ more) := by
  induction k generalizing bytes n with
  | zero => simp [decodeAux] at h
  | succ k ih =>
      cases bytes with
      | nil => simp [decodeAux] at h
      | cons b tail =>
          rw [decodeAux] at h
          rw [List.cons_append, decodeAux]
          split at h
          · obtain ⟨rfl, rfl⟩ : b.toNat = n ∧ tail = rest := by simpa using h
            simp [*]
          · obtain ⟨⟨m, r⟩, hm, hp⟩ := Option.map_eq_some_iff.mp h
            obtain ⟨rfl, rfl⟩ := Prod.mk.inj hp
            simp [*]

/-- What follows a varint does not change how it is read. -/
theorem decode_append {bytes rest : List UInt8} {n : ℕ} (h : decode bytes = some (n, rest))
    (more : List UInt8) : decode (bytes ++ more) = some (n, rest ++ more) :=
  decodeAux_append h more

/-- Bytes start with one varint at most. -/
theorem decode_append_inj {bytes bytes' rest rest' : List UInt8} {n n' : ℕ}
    (h : decode bytes = some (n, [])) (h' : decode bytes' = some (n', []))
    (heq : bytes ++ rest = bytes' ++ rest') : bytes = bytes' ∧ n = n' ∧ rest = rest' := by
  have hread := decode_append h rest
  rw [heq, decode_append h' rest'] at hread
  obtain ⟨rfl, rfl⟩ := Prod.mk.inj (Option.some.inj hread)
  exact ⟨List.append_cancel_right heq, rfl, rfl⟩

@[simp] theorem decode_nil : decode [] = none := rfl

/-! ## Bytes that end inside a varint -/

/-- Where the bytes end inside a varint, the next byte without a high bit completes it. -/
theorem decodeAux_cut {k : ℕ} {bytes : List UInt8} (h : decodeAux k bytes = none)
    (hlt : bytes.length < k) : ∃ v < 128 ^ bytes.length, ∀ b rest, b.toNat < 128 →
      decodeAux k (bytes ++ b :: rest) = some (v + b.toNat * 128 ^ bytes.length, rest) := by
  induction bytes generalizing k with
  | nil =>
      obtain ⟨k, rfl⟩ := Nat.exists_eq_add_one.mpr hlt
      exact ⟨0, by simp, fun b rest hb => by simp [decodeAux, hb]⟩
  | cons c bytes ih =>
      obtain ⟨k, rfl⟩ := Nat.exists_eq_add_one.mpr (Nat.zero_lt_of_lt hlt)
      rw [decodeAux] at h
      split at h
      · cases h
      · rename_i hc
        rcases ih (Option.map_eq_none_iff.mp h) (by simpa using hlt) with ⟨v, hv, hnext⟩
        have hc' := c.toNat_lt
        refine ⟨c.toNat - 128 + 128 * v, ?_, ?_⟩
        · rw [List.length_cons, pow_succ]
          omega
        · intro b rest hb
          have hsum : c.toNat - 128 + 128 * (v + b.toNat * 128 ^ bytes.length) =
              c.toNat - 128 + 128 * v + b.toNat * (128 ^ bytes.length * 128) := by ring
          rw [List.cons_append, decodeAux, if_neg hc, hnext b rest hb, Option.map_some,
            List.length_cons, pow_succ, ← hsum]

/-- A varint without an end in reach is not read, whatever follows. -/
theorem decodeAux_overlong {k : ℕ} {bytes : List UInt8} (h : decodeAux k bytes = none)
    (hle : k ≤ bytes.length) (more : List UInt8) : decodeAux k (bytes ++ more) = none := by
  induction k generalizing bytes with
  | zero => rfl
  | succ k ih =>
      cases bytes with
      | nil => cases hle
      | cons c bytes =>
          rw [decodeAux] at h
          rw [List.cons_append, decodeAux]
          split at h
          · cases h
          · rename_i hc
            rw [if_neg hc, ih (Option.map_eq_none_iff.mp h) (by simpa using hle), Option.map_none]

/-- A varint may be padded with high bits. -/
theorem decodeAux_replicate {k m : ℕ} (hk : k < m) {b : UInt8} (hb : b.toNat < 128) :
    ∃ n, decodeAux m (List.replicate k 128 ++ [b]) = some (n, []) := by
  induction k generalizing m with
  | zero =>
      obtain ⟨m, rfl⟩ := Nat.exists_eq_add_one.mpr hk
      exact ⟨b.toNat, by simp [decodeAux, hb]⟩
  | succ k ih =>
      obtain ⟨m, rfl⟩ := Nat.exists_eq_add_one.mpr (Nat.zero_lt_of_lt hk)
      rcases ih (Nat.lt_of_succ_lt_succ hk) with ⟨n, hn⟩
      have hhigh : ¬ (128 : UInt8).toNat < 128 := by decide
      rw [List.replicate_succ, List.cons_append, decodeAux, if_neg hhigh, hn]
      exact ⟨_, rfl⟩

/-! ## Sequences of varints -/

/-- Complete varints, one after the other. -/
inductive Sequence : List UInt8 → Prop
  | nil : Sequence []
  | cons {bytes n rest} (h : decode bytes = some (n, [])) (hrest : Sequence rest) :
      Sequence (bytes ++ rest)

theorem Sequence.append {bytes more : List UInt8} (h : Sequence bytes) (k : Sequence more) :
    Sequence (bytes ++ more) := by
  induction h with
  | nil => exact k
  | cons h _ ih =>
      rw [List.append_assoc]
      exact .cons h ih

theorem Sequence.single {bytes : List UInt8} {n : ℕ} (h : decode bytes = some (n, [])) :
    Sequence bytes := by
  rw [← List.append_nil bytes]
  exact .cons h .nil

theorem Sequence.flatMap {α : Type*} {l : List α} {f : α → List UInt8}
    (h : ∀ a ∈ l, Sequence (f a)) : Sequence (l.flatMap f) := by
  induction l with
  | nil => exact .nil
  | cons a l ih =>
      rcases List.forall_mem_cons.mp h with ⟨ha, hl⟩
      exact ha.append (ih hl)

theorem decodeAux_succ {k : ℕ} {bytes : List UInt8} {p : ℕ × List UInt8}
    (h : decodeAux k bytes = some p) : decodeAux (k + 1) bytes = some p := by
  induction k generalizing bytes p with
  | zero => cases h
  | succ k ih =>
      cases bytes with
      | nil => cases h
      | cons c bytes =>
          rw [decodeAux] at h ⊢
          split at h
          · rename_i hc
            rw [if_pos hc, h]
          · rename_i hc
            rcases Option.map_eq_some_iff.mp h with ⟨q, hq, rfl⟩
            rw [if_neg hc, ih hq, Option.map_some]

/-- The end of a varint is a varint. -/
theorem decodeAux_drop {k : ℕ} {front bytes : List UInt8} {n : ℕ} (hne : bytes ≠ [])
    (h : decodeAux k (front ++ bytes) = some (n, [])) : ∃ m, decodeAux k bytes = some (m, []) := by
  induction front generalizing k n with
  | nil => exact ⟨n, h⟩
  | cons c front ih =>
      cases k with
      | zero => cases h
      | succ k =>
          rw [List.cons_append, decodeAux] at h
          split at h
          · have hnil := (Prod.mk.inj (Option.some.inj h)).2
            exact absurd (List.append_eq_nil_iff.mp hnil).2 hne
          · rcases Option.map_eq_some_iff.mp h with ⟨⟨m, rest⟩, hm, hp⟩
            obtain rfl := (Prod.mk.inj hp).2
            rcases ih hm with ⟨m', hm'⟩
            exact ⟨m', decodeAux_succ hm'⟩

/-- Wherever a sequence of varints is cut, what is left is one. -/
theorem Sequence.drop {front bytes : List UInt8} (h : Sequence (front ++ bytes)) :
    Sequence bytes := by
  generalize hall : front ++ bytes = all at h
  induction h generalizing front bytes with
  | nil =>
      obtain ⟨-, rfl⟩ := List.append_eq_nil_iff.mp hall
      exact .nil
  | @cons first n rest hfirst hrest ih =>
      rcases List.append_eq_append_iff.mp hall with ⟨middle, hsplit, hbytes⟩ | ⟨middle, -, hrest'⟩
      · subst hbytes
        cases middle with
        | nil => exact hrest
        | cons b middle =>
            subst hsplit
            rcases decodeAux_drop (List.cons_ne_nil b middle) hfirst with ⟨m, hm⟩
            exact .cons hm hrest
      · exact ih hrest'.symm

theorem Sequence.exists_decode {bytes : List UInt8} (h : Sequence bytes) (hne : bytes ≠ []) :
    ∃ first n rest, bytes = first ++ rest ∧ decode first = some (n, []) ∧ Sequence rest := by
  cases h with
  | nil => exact absurd rfl hne
  | cons h hrest => exact ⟨_, _, _, rfl, h, hrest⟩

end Varint
