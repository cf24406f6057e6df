import Luapb.Model.Runtime
import Luapb.Verification.Decoder.Reading

/-! # The reference runtime

Its reads satisfy the laws, so that the laws are consistent. -/

namespace Luapb

open Wire

namespace StreamView

variable {v w : StreamView}

theorem expectTagRef_true {t : BitVec 32} (h : (v.expectTagRef t).1 = true) :
    ∃ n, BitVec.ofNat 32 n = t ∧ v.readVarint = some (n, (v.expectTagRef t).2) := by
  rw [expectTagRef] at h ⊢
  cases hread : v.readVarint with
  | none =>
      rw [hread] at h
      cases h
  | some p =>
      rw [hread] at h
      by_cases heq : BitVec.ofNat 32 p.1 = t
      · exact ⟨p.1, heq, by simp only [heq, if_true]⟩
      · simp only [heq, if_false] at h
        cases h

theorem expectTagRef_false {t : BitVec 32} (h : (v.expectTagRef t).1 = false) :
    (v.expectTagRef t).2 = v := by
  rw [expectTagRef] at h ⊢
  cases hread : v.readVarint with
  | none => rfl
  | some p =>
      rw [hread] at h
      by_cases heq : BitVec.ofNat 32 p.1 = t
      · simp only [heq, if_true] at h
        cases h
      · simp only [heq, if_false]

theorem readBytes_append {bytes rest : Bytes} (hv : v.unread = bytes ++ rest) :
    v.readBytes bytes.length = some (bytes, v.advance bytes.length) := by
  rw [readBytes, hv, if_pos (by simp), List.take_left]

theorem skipFieldRef_eq {tag : BitVec 32} {t : WireType} {payload rest : Bytes}
    (htag : tag.toNat % 8 = t.code) (h : IsPayload t payload) (hv : v.unread = payload ++ rest) :
    v.skipFieldRef tag = (true, v.advance payload.length) := by
  rw [skipFieldRef, htag]
  cases h with
  | varint h => simp only [WireType.code, readVarint_append hv h, Option.map_some]
  | fixed64 h =>
      have hread := readBytes_append hv
      rw [h] at hread
      simp only [WireType.code, hread, Option.map_some, h]
  | fixed32 h =>
      have hread := readBytes_append hv
      rw [h] at hread
      simp only [WireType.code, hread, Option.map_some, h]
  | @lengthDelimited _ body h hlt =>
      rcases Varint.decode_suffix h with ⟨lengthBytes, -, rfl, hlength⟩
      rw [List.append_assoc] at hv
      have hread := readString_append hv hlength (Nat.mod_eq_of_lt (by omega)) hlt
      simp only [WireType.code, hread, Option.map_some]

theorem varints_flatMap {payloads : List (Bytes × ℕ)}
    (h : ∀ p ∈ payloads, Varint.decode p.1 = some (p.2, [])) {fuel : ℕ}
    (hfuel : (payloads.flatMap Prod.fst).length ≤ fuel) :
    varints fuel (payloads.flatMap Prod.fst) = some (payloads.map Prod.snd) := by
  induction payloads generalizing fuel with
  | nil => cases fuel <;> rfl
  | cons p payloads ih =>
      rcases List.forall_mem_cons.mp h with ⟨hp, hpayloads⟩
      rw [List.flatMap_cons, List.length_append] at hfuel
      have hne : p.1 ≠ [] := by
        intro hnil
        rw [hnil] at hp
        cases hp
      have hpos := List.length_pos_iff.mpr hne
      cases fuel with
      | zero => omega
      | succ fuel =>
          have hdecode := Varint.decode_append hp (payloads.flatMap Prod.fst)
          rw [List.nil_append] at hdecode
          rw [List.flatMap_cons, varints, hdecode, Option.bind_some, ih hpayloads (by omega),
            Option.map_some, List.map_cons]
          exact fun hnil => hne (List.append_eq_nil_iff.mp hnil).1

theorem expectAtEndRef_true (h : v.expectAtEndRef.1 = true) :
    v.unread = [] ∧ v.expectAtEndRef.2 = { v with legitimateEnd := true } := by
  rw [expectAtEndRef] at h ⊢
  by_cases hend : v.unread = []
  · exact ⟨hend, by rw [if_pos hend]⟩
  · rw [if_neg hend] at h
    cases h

theorem expectAtEndRef_false (h : v.expectAtEndRef.1 = false) : v.expectAtEndRef.2 = v := by
  rw [expectAtEndRef] at h ⊢
  by_cases hend : v.unread = []
  · rw [if_pos hend] at h
    cases h
  · rw [if_neg hend]

theorem readLengthRef_eq (hvalid : v.Valid) {lengthBytes body rest : Bytes}
    (hv : v.unread = lengthBytes ++ (body ++ rest))
    (h : Varint.decode lengthBytes = some (body.length, [])) (hlt : body.length < 2 ^ 31) :
    v.readLengthRef = (v.limit, { v.advance lengthBytes.length with
      limit := v.position + lengthBytes.length + body.length }) := by
  have hlen := hvalid.length_unread
  rw [hv, List.length_append, Nat.cast_add] at hlen
  have hlimit : (v.advance lengthBytes.length).limit =
      (v.advance lengthBytes.length).position + (body ++ rest).length := by
    simp only [advance, Nat.cast_add]
    omega
  have hpushed := pushedLimit_eq (n := body.length) hlimit
  rw [messageSize_append (Nat.mod_eq_of_lt (by omega)) hlt] at hpushed
  simp only [readLengthRef, readVarint_append hv h, hpushed]
  simp [advance]

theorem readMessageRef_eq (hvalid : v.Valid) {α : Type}
    {mergePartial : StreamView → Option (Bool × StreamView × α)} {a : α}
    {lengthBytes body rest : Bytes} (hv : v.unread = lengthBytes ++ (body ++ rest))
    (h : Varint.decode lengthBytes = some (body.length, [])) (hlt : body.length < 2 ^ 31)
    (hmerge : ∀ w : StreamView, w = { v.advance lengthBytes.length with
        limit := v.position + lengthBytes.length + body.length } →
      ∃ u, mergePartial w = some (true, u, a) ∧
        u = { w.advance body.length with legitimateEnd := true }) :
    ∃ u, v.readMessageRef mergePartial = some (true, u, a) ∧
      u = { v.advance (lengthBytes ++ body).length with legitimateEnd := false } := by
  rcases hmerge _ rfl with ⟨u, hread, rfl⟩
  refine ⟨_, ?_, rfl⟩
  simp only [readMessageRef, readLengthRef_eq hvalid hv h hlt, hread]
  simp [advance, Nat.add_assoc]

theorem readPackedRef_eq {lengthBytes rest : Bytes} {payloads : List (Bytes × ℕ)}
    (hv : v.unread = lengthBytes ++ (payloads.flatMap Prod.fst ++ rest))
    (h : Varint.decode lengthBytes = some ((payloads.flatMap Prod.fst).length, []))
    (hlt : (payloads.flatMap Prod.fst).length < 2 ^ 31)
    (hpayloads : ∀ p ∈ payloads, Varint.decode p.1 = some (p.2, [])) (values : List (BitVec 32)) :
    v.readPackedRef values = ⟨true, values ++ payloads.map (BitVec.ofNat 32 ·.2),
      { v.advance (lengthBytes ++ payloads.flatMap Prod.fst).length with
        legitimateEnd := false }⟩ := by
  have hread := readString_append hv h (Nat.mod_eq_of_lt (by omega)) hlt
  simp only [readPackedRef, hread, varints_flatMap hpayloads (le_refl _), List.map_map]
  rfl

theorem readRepeatedRef_eq {n : ℕ} (h : v.readVarint = some (n, w)) {t : BitVec 32}
    (hne : ∀ m u, w.readVarint = some (m, u) → BitVec.ofNat 32 m ≠ t) (fuel : ℕ)
    (values : List (BitVec 32)) :
    v.readRepeatedRef t (fuel + 1) values = ⟨true, values ++ [BitVec.ofNat 32 n], w⟩ := by
  have hexpect : (w.expectTagRef t).1 = false := by
    rw [Bool.eq_false_iff]
    intro htrue
    rcases expectTagRef_true htrue with ⟨m, hm, hread⟩
    exact hne _ _ hread hm
  simp only [readRepeatedRef, h, hexpect, Bool.false_eq_true, if_false]

theorem parseFromStringRef_eq {α : Type}
    {mergePartial : StreamView → Option (Bool × StreamView × α)} {a : α} {data : Bytes}
    (hmerge : mergePartial (.start data) = some (true, w, a))
    (hconsumed : w.legitimateEnd = true) :
    parseFromStringRef mergePartial data = some (true, a) := by
  simp only [parseFromStringRef, hmerge, Option.map_some, hconsumed, Bool.and_self]

end StreamView

open StreamView

theorem GeneratedInputStream.reference_documented : GeneratedInputStream.reference.Documented where
  toDocumented := CodedInputStream.reference_documented
  readTagWithCutoff_end _ _ _ h :=
    ⟨congrArg Prod.fst (readTagRef_end h), congrArg Prod.snd (readTagRef_end h)⟩
  readTagWithCutoff_some c s n v _ h := by
    have hread := readTagRef_some h
    refine ⟨congrArg Prod.fst hread, congrArg Prod.snd hread, ?_⟩
    intro _
    exact congrArg (fun r : BitVec 32 × StreamView => decide (r.1.toNat ≤ c.toNat)) hread
  expectTag_true _ _ _ h := expectTagRef_true h
  expectTag_false _ _ h := expectTagRef_false h
  expectAtEnd_true _ _ h := expectAtEndRef_true h
  expectAtEnd_false _ h := expectAtEndRef_false h
  skipField _ _ _ _ _ _ htag h hv :=
    ⟨congrArg Prod.fst (skipFieldRef_eq htag h hv), congrArg Prod.snd (skipFieldRef_eq htag h hv)⟩
  readMessage _ _ _ _ hs hv h hlt hmerge := readMessageRef_eq hs.valid hv h hlt hmerge
  readPackedInt32 _ values _ _ _ _ hv h hlt hpayloads := by
    have hread := readPackedRef_eq hv h hlt hpayloads values
    exact ⟨congrArg Read.ok hread, congrArg Read.value hread, congrArg Read.stream hread⟩
  readRepeatedInt32 _ _ _ values _ _ _ h hne := by
    have hread := readRepeatedRef_eq h hne 3 values
    exact ⟨congrArg Read.ok hread, congrArg Read.value hread, congrArg Read.stream hread⟩
  unsafeDecrement _ _ := rfl
  parseFromString _ _ _ hmerge hconsumed := parseFromStringRef_eq hmerge hconsumed

end Luapb
