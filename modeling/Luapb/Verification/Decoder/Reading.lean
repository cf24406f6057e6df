import Luapb.Verification.Decoder.Derivation

/-! # Reading well-formed bytes

What the operations of `PBStream` do when the unread bytes start with what they look
for. Each lemma leaves the bytes that follow arbitrary. -/

namespace Luapb

open Ieee754 Wire PBStream

/-! ## The unread bytes -/

namespace StreamView

variable {v : StreamView}

theorem unread_advance (v : StreamView) (n : ℕ) : (v.advance n).unread = v.unread.drop n := by
  simp only [unread, advance, List.drop_take, List.drop_drop, Nat.sub_add_eq]

theorem unread_advance_append {bytes rest : Bytes} (h : v.unread = bytes ++ rest) :
    (v.advance bytes.length).unread = rest := by
  rw [unread_advance, h, List.drop_left]

theorem Valid.length_unread (hv : v.Valid) : (v.unread.length : ℤ) = v.limit - v.position := by
  have hpos := hv.position_le
  have hlim := hv.limit_le
  simp only [unread, List.length_take, List.length_drop]
  omega

theorem Valid.advance (hv : v.Valid) {n : ℕ} (hn : n ≤ v.unread.length) :
    (v.advance n).Valid := by
  have hlen := hv.length_unread
  refine ⟨?_, hv.limit_le⟩
  simp only [StreamView.advance]
  omega

theorem readVarint_append {bytes rest : Bytes} {n : ℕ} (hv : v.unread = bytes ++ rest)
    (h : Varint.decode bytes = some (n, [])) :
    v.readVarint = some (n, v.advance bytes.length) := by
  rw [readVarint, hv, Varint.decode_append h rest]
  simp

theorem readVarintAs_append {α : Type} (f : ℕ → α) {bytes rest : Bytes} {n : ℕ}
    (hv : v.unread = bytes ++ rest) (h : Varint.decode bytes = some (n, [])) :
    v.readVarintAs f = some (f n, v.advance bytes.length) := by
  rw [readVarintAs, readVarint_append hv h, Option.map_some]

theorem readFloat_append {x : CFloat} {rest : Bytes} (hv : v.unread = fixed32 x.toBits ++ rest) :
    v.readFloat = some (x, v.advance 4) := by
  rw [readFloat, hv, readFixed32_fixed32 (Binary.toBits_lt x)]
  simp [Binary.ofBits_toBits]

theorem readString_append {lengthBytes body rest : Bytes} {n : ℕ}
    (hv : v.unread = lengthBytes ++ (body ++ rest))
    (h : Varint.decode lengthBytes = some (n, [])) (hsize : n % 2 ^ 32 = body.length)
    (hlt : body.length < 2 ^ 31) :
    v.readString = some (body, v.advance (lengthBytes ++ body).length) := by
  have hrest := unread_advance_append hv
  rw [readString, readVarint_append hv h, Option.bind_some, hsize, if_pos hlt, readBytes, hrest,
    if_pos (by simp), List.take_left]
  simp [advance, Nat.add_assoc]

/-- A varint that is read is among the unread bytes. -/
theorem readVarint_split {w : StreamView} {n : ℕ} (h : v.readVarint = some (n, w)) :
    ∃ bytes rest, v.unread = bytes ++ rest ∧ Varint.decode bytes = some (n, []) ∧
      w = v.advance bytes.length := by
  rcases Option.map_eq_some_iff.mp h with ⟨⟨m, rest⟩, hdecode, hp⟩
  rcases Varint.decode_suffix hdecode with ⟨bytes, -, hunread, hbytes⟩
  rcases Prod.mk.inj hp with ⟨rfl, rfl⟩
  refine ⟨bytes, rest, hunread, hbytes, ?_⟩
  rw [hunread, List.length_append, Nat.add_sub_cancel]

end StreamView

section

variable {M : Type} {P : Platform} {S : CodedInputStream} {s : S.Stream}

theorem CodedInputStream.Readable.advance (hs : S.Readable s) {s' : S.Stream} {bytes rest : Bytes}
    {b : Bool} (hunread : (S.view s).unread = bytes ++ rest)
    (h : S.view s' = { (S.view s).advance bytes.length with legitimateEnd := b }) :
    S.Readable s' ∧ (S.view s').unread = rest := by
  have hvalid : ((S.view s).advance bytes.length).Valid := hs.valid.advance (by simp [hunread])
  refine ⟨⟨?_, ?_⟩, ?_⟩
  · exact h ▸ ⟨hvalid.position_le, hvalid.limit_le⟩
  · rw [h]
    exact hs.within
  · rw [h]
    exact StreamView.unread_advance_append hunread

theorem CodedInputStream.Reads.create_readable (hS : S.Reads) {data : Bytes}
    (hlen : data.length ≤ S.totalBytesLimit) : S.Readable (S.create data) := by
  constructor
  · rw [hS.create]
    exact ⟨Int.natCast_nonneg _, le_rfl⟩
  · rw [hS.create]
    exact hlen

theorem CodedInputStream.Reads.create_unread (hS : S.Reads) (data : Bytes) :
    (S.view (S.create data)).unread = data := by
  rw [hS.create]
  simp [StreamView.unread, StreamView.start]

/-! ## Tags -/

theorem readFieldNumber_decode (hS : S.Reads) {s : S.Stream} (hs : S.Readable s)
    {tagBytes rest : Bytes} {n : ℕ} (hunread : (S.view s).unread = tagBytes ++ rest)
    (htag : Varint.decode tagBytes = some (n, [])) (hnum : n % 2 ^ 32 / 8 ≠ 0) :
    (readFieldNumber S s).1 = n % 2 ^ 32 / 8 ∧
      S.view (readFieldNumber S s).2 = (S.view s).advance tagBytes.length := by
  obtain ⟨hvalue, hview⟩ := hS.readTag_some s _ _ hs (StreamView.readVarint_append hunread htag)
  have htoNat : (S.readTag s).1.toNat = n % 2 ^ 32 := by rw [hvalue, BitVec.toNat_ofNat]
  have hne : (S.readTag s).1 ≠ 0 := by
    intro hzero
    rw [← htoNat, hzero] at hnum
    exact hnum rfl
  rw [readFieldNumber, if_neg hne, htoNat]
  exact ⟨rfl, hview⟩

theorem readFieldNumber_end (hS : S.Reads) (hs : S.Readable s)
    (hunread : (S.view s).unread = []) :
    (readFieldNumber S s).1 = 0 ∧
      S.view (readFieldNumber S s).2 = { S.view s with legitimateEnd := true } := by
  obtain ⟨hread, hview⟩ := hS.readTag_end s hs hunread
  simp only [readFieldNumber, hread, if_true]
  exact ⟨trivial, hview⟩

/-! ## Values -/

/-- The wire type in which the format transmits a field's values. -/
def FieldType.wireType : FieldType M → WireType
  | .double | .fixed64 | .sfixed64 => .fixed64
  | .float | .fixed32 | .sfixed32 => .fixed32
  | .string | .bytes | .message _ => .lengthDelimited
  | .group => .startGroup
  | _ => .varint

/-- The payloads a scalar type admits, with the value the decoder makes of each; a
number its enum does not declare has none. -/
inductive ScalarReads (P : Platform) : FieldType M → Bytes → Option LuaTree → Prop
  | float (x : CFloat) :
      ScalarReads P .float (fixed32 x.toBits) (some (.number (Stack.pushFloat x)))
  | int32 {bytes n} (h : Varint.decode bytes = some (n, [])) :
      ScalarReads P .int32 bytes (some (.number (Stack.pushInt (BitVec.ofNat 32 n))))
  | uint32 {bytes n} (h : Varint.decode bytes = some (n, [])) :
      ScalarReads P .uint32 bytes (some (.number (Stack.pushUnsigned P (BitVec.ofNat 32 n))))
  | bool {bytes n} (h : Varint.decode bytes = some (n, [])) :
      ScalarReads P .bool bytes (some (.boolean (decide (n % 2 ^ 64 ≠ 0))))
  | string {lengthBytes body} (h : Varint.decode lengthBytes = some (body.length, []))
      (hlt : body.length < 2 ^ 31) :
      ScalarReads P .string (lengthBytes ++ body) (some (.string body))
  | enum {enumType bytes n} (h : Varint.decode bytes = some (n, [])) :
      ScalarReads P (.enum enumType) bytes
        ((enumType.findValueByNumber (BitVec.ofNat 32 n)).map fun evd => .string evd.name)

theorem CodedInputStream.Follows.some {α : Type} {read : S.Stream → α → Read S.Stream α}
    {spec : StreamView → Option (α × StreamView)} (h : S.Follows read spec)
    (hs : S.Readable s) (x : α) {a : α} {v : StreamView} (hspec : spec (S.view s) = some (a, v)) :
    (read s x).ok = true ∧ (read s x).value = a ∧ S.view (read s x).stream = v := by
  have := h s x hs
  rwa [hspec] at this

/-- `ReadValue` on a payload of the declared type stores its value and moves behind it. -/
theorem readValue_reads (hS : S.Reads) (hs : S.Readable s) {fd : FieldDescriptor M}
    {payload rest : Bytes} {value : Option LuaTree}
    (hunread : (S.view s).unread = payload ++ rest)
    (h : ScalarReads P fd.type payload value) (tab : LuaTable) :
    (readValue P S s tab fd).tab = value.elim tab (fillValue P tab fd) ∧
      (readValue P S s tab fd).ok = true ∧
      S.view (readValue P S s tab fd).stream = (S.view s).advance payload.length := by
  generalize htype : fd.type = type at h
  cases h with
  | float x =>
      obtain ⟨hok, hvalue, hview⟩ := hS.readFloat.some hs (Binary.ofInt binary32 0)
        (StreamView.readFloat_append hunread)
      simp only [readValue, htype, fillFrom, hvalue]
      exact ⟨rfl, hok, hview⟩
  | int32 h =>
      obtain ⟨hok, hvalue, hview⟩ := hS.readInt32.some hs 0
        (StreamView.readVarintAs_append _ hunread h)
      simp only [readValue, htype, fillFrom, hvalue]
      exact ⟨rfl, hok, hview⟩
  | uint32 h =>
      obtain ⟨hok, hvalue, hview⟩ := hS.readUInt32.some hs 0
        (StreamView.readVarintAs_append _ hunread h)
      simp only [readValue, htype, fillFrom, hvalue]
      exact ⟨rfl, hok, hview⟩
  | bool h =>
      obtain ⟨hok, hvalue, hview⟩ := hS.readBool.some hs false
        (StreamView.readVarintAs_append _ hunread h)
      simp only [readValue, htype, fillFrom, hvalue]
      exact ⟨rfl, hok, hview⟩
  | string h hlt =>
      rw [List.append_assoc] at hunread
      obtain ⟨hok, hvalue, hview⟩ := hS.readString.some hs []
        (StreamView.readString_append hunread h (Nat.mod_eq_of_lt (by omega)) hlt)
      simp only [readValue, htype, fillFrom, hvalue]
      exact ⟨rfl, hok, hview⟩
  | @enum enumType _ n h =>
      obtain ⟨hok, hvalue, hview⟩ := hS.readEnum.some hs 0
        (StreamView.readVarintAs_append _ hunread h)
      simp only [readValue, htype, hvalue]
      cases enumType.findValueByNumber (BitVec.ofNat 32 n) with
      | none => exact ⟨rfl, hok, hview⟩
      | some evd => exact ⟨rfl, hok, hview⟩

/-! ## Embedded messages -/

/-- Behind a length, with that many bytes as the limit and one level deeper. -/
def StreamView.entered (v : StreamView) (lengthBytes body : Bytes) : StreamView :=
  { v.advance lengthBytes.length with
    limit := v.position + lengthBytes.length + body.length
    depth := v.depth + 1 }

theorem StreamView.unread_entered {v : StreamView} (hv : v.Valid) {lengthBytes body rest : Bytes}
    (hunread : v.unread = lengthBytes ++ (body ++ rest)) :
    (v.entered lengthBytes body).unread = body := by
  have hrest := unread_advance_append hunread
  have hlen := hv.length_unread
  have hpos := hv.position_le
  simp only [hunread, List.length_append, Nat.cast_add] at hlen
  simp only [unread, advance] at hrest
  have hbody := congrArg (List.take body.length) hrest
  rw [List.take_take, List.take_left] at hbody
  simp only [unread, entered, advance]
  conv_rhs => rw [← hbody]
  congr 1
  omega

theorem CodedInputStream.Readable.entered (hs : S.Readable s) {s' : S.Stream}
    {lengthBytes body rest : Bytes} (hunread : (S.view s).unread = lengthBytes ++ (body ++ rest))
    (h : S.view s' = (S.view s).entered lengthBytes body) :
    S.Readable s' ∧ (S.view s').unread = body := by
  have hlen := hs.valid.length_unread
  have hlimit := hs.valid.limit_le
  simp only [hunread, List.length_append, Nat.cast_add] at hlen
  refine ⟨⟨h ▸ ⟨?_, ?_⟩, ?_⟩, ?_⟩
  · simp only [StreamView.entered, StreamView.advance]
    omega
  · simp only [StreamView.entered, StreamView.advance]
    omega
  · rw [h]
    exact hs.within
  · rw [h]
    exact StreamView.unread_entered hs.valid hunread

/-- How many of the bytes behind a length belong to the message. The length is an `int`; one
that is negative or reaches beyond the limit leaves the limit where it is. -/
def messageSize (n available : ℕ) : ℕ :=
  if n % 2 ^ 32 < 2 ^ 31 then min (n % 2 ^ 32) available else available

theorem messageSize_append {n : ℕ} {body : Bytes} (h : n % 2 ^ 32 = body.length)
    (hlt : body.length < 2 ^ 31) (rest : Bytes) :
    messageSize n (body ++ rest).length = body.length := by
  rw [messageSize, h, if_pos hlt, List.length_append]
  omega

/-- The limit that `PushLimit` sets ends the message. -/
theorem StreamView.pushedLimit_eq {v : StreamView} {n available : ℕ}
    (hlimit : v.limit = v.position + available) :
    v.pushedLimit (BitVec.ofNat 32 n) = v.position + messageSize n available := by
  have hsize : (BitVec.ofNat 32 n).toInt =
      if n % 2 ^ 32 < 2 ^ 31 then ((n % 2 ^ 32 : ℕ) : ℤ) else ((n % 2 ^ 32 : ℕ) : ℤ) - 2 ^ 32 := by
    rw [BitVec.toInt_eq_toNat_cond, BitVec.toNat_ofNat]
    split <;> split <;> omega
  rw [pushedLimit, messageSize, hsize, hlimit]
  by_cases hshort : n % 2 ^ 32 < 2 ^ 31
  · rw [if_pos hshort, if_pos (by omega), if_pos hshort, Nat.cast_min]
    omega
  · rw [if_neg hshort, if_neg (by omega), if_neg hshort]

theorem beginMessage_reads (hS : S.Documented) (hs : S.Readable s)
    {lengthBytes body rest : Bytes} {n : ℕ}
    (hunread : (S.view s).unread = lengthBytes ++ (body ++ rest))
    (h : Varint.decode lengthBytes = some (n, []))
    (hsize : messageSize n (body ++ rest).length = body.length)
    (hdepth : (S.view s).depth < S.recursionLimit) :
    (beginMessage S s none).2.1 = some (S.view s).limit ∧
      S.view (beginMessage S s none).2.2 = (S.view s).entered lengthBytes body := by
  obtain ⟨hok, hvalue, hview⟩ := hS.readInt32.some hs 0
    (StreamView.readVarintAs_append _ hunread h)
  have hinc : (S.incrementRecursionDepth (S.readInt32 s 0).stream).1 = true := by
    rw [hS.increment_ok, hview, decide_eq_true_iff]
    exact hdepth
  have hlen := hs.valid.length_unread
  rw [hunread, List.length_append, Nat.cast_add] at hlen
  have hlimit : ((S.view s).advance lengthBytes.length).limit =
      ((S.view s).advance lengthBytes.length).position + (body ++ rest).length := by
    simp only [StreamView.advance, Nat.cast_add]
    omega
  have hpushed := StreamView.pushedLimit_eq (n := n) hlimit
  rw [hsize] at hpushed
  simp only [beginMessage, hok, hinc, Bool.true_eq_false, if_false]
  constructor
  · rw [hS.pushLimit_old, hS.increment, hview]
    rfl
  · rw [hS.pushLimit, hS.increment, hview, hvalue]
    simpa [StreamView.pushedLimit, StreamView.entered, StreamView.advance] using hpushed

end

end Luapb
