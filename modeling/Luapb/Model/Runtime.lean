import Luapb.Model.Reference

/-! # What generated code calls

The functions of `CodedInputStream` and `WireFormatLite` that the output of `protoc` calls and
the library does not. They are parameters as well, and their laws say what the documentation
promises on well-formed bytes. -/

namespace Luapb

open Wire

/-! ## Reading -/

/-- `CodedInputStream` as generated code uses it. `ReadMessageNoVirtualNoRecursionDepth` and
`ParseFromString` call `MergePartialFromCodedStream` back, on a new message or a cleared one. -/
structure GeneratedInputStream extends CodedInputStream where
  readTagWithCutoff : BitVec 32 → Stream → (BitVec 32 × Bool) × Stream
  expectTag : BitVec 32 → Stream → Bool × Stream
  expectAtEnd : Stream → Bool × Stream
  skipField : Stream → BitVec 32 → Bool × Stream
  readMessageNoVirtualNoRecursionDepth : {α : Type} →
    (Stream → Option (Bool × Stream × α)) → Stream → Option (Bool × Stream × α)
  readPackedInt32 : Stream → List (BitVec 32) → Read Stream (List (BitVec 32))
  readRepeatedInt32 : ℕ → BitVec 32 → Stream → List (BitVec 32) → Read Stream (List (BitVec 32))
  unsafeDecrementRecursionDepth : Stream → Stream
  /-- `VerifyUtf8String` with `PARSE` -/
  verifyUtf8String : Bytes → Bool
  parseFromString : {α : Type} → (Stream → Option (Bool × Stream × α)) → Bytes → Option (Bool × α)

namespace GeneratedInputStream

/-- `ExpectTag` and `ExpectAtEnd` may say no when they could say yes. A tag that is expected
belongs to the field of the repeated read, so that nothing is said of the read where it follows. -/
structure Documented (S : GeneratedInputStream) : Prop extends
    S.toCodedInputStream.Documented where
  readTagWithCutoff_end : ∀ c s, S.Readable s → (S.view s).unread = [] →
    (S.readTagWithCutoff c s).1.1 = 0 ∧
      S.view (S.readTagWithCutoff c s).2 = { S.view s with legitimateEnd := true }
  readTagWithCutoff_some : ∀ c s n v, S.Readable s → (S.view s).readVarint = some (n, v) →
    (S.readTagWithCutoff c s).1.1 = BitVec.ofNat 32 n ∧ S.view (S.readTagWithCutoff c s).2 = v ∧
      (BitVec.ofNat 32 n ≠ 0 →
        (S.readTagWithCutoff c s).1.2 = decide ((BitVec.ofNat 32 n).toNat ≤ c.toNat))
  expectTag_true : ∀ t s, S.Readable s → (S.expectTag t s).1 = true →
    ∃ n, BitVec.ofNat 32 n = t ∧ (S.view s).readVarint = some (n, S.view (S.expectTag t s).2)
  expectTag_false : ∀ t s, (S.expectTag t s).1 = false → S.view (S.expectTag t s).2 = S.view s
  expectAtEnd_true : ∀ s, S.Readable s → (S.expectAtEnd s).1 = true → (S.view s).unread = [] ∧
    S.view (S.expectAtEnd s).2 = { S.view s with legitimateEnd := true }
  expectAtEnd_false : ∀ s, (S.expectAtEnd s).1 = false → S.view (S.expectAtEnd s).2 = S.view s
  skipField : ∀ s (tag : BitVec 32) t payload rest, S.Readable s → tag.toNat % 8 = t.code →
    IsPayload t payload → (S.view s).unread = payload ++ rest →
    (S.skipField s tag).1 = true ∧ S.view (S.skipField s tag).2 = (S.view s).advance payload.length
  readMessage : ∀ {α} {mergePartial : S.Stream → Option (Bool × S.Stream × α)} {a : α} s
    lengthBytes body rest, S.Readable s → (S.view s).unread = lengthBytes ++ (body ++ rest) →
    Varint.decode lengthBytes = some (body.length, []) → body.length < 2 ^ 31 →
    (∀ s', S.view s' = { (S.view s).advance lengthBytes.length with
        limit := (S.view s).position + lengthBytes.length + body.length } →
      ∃ s'', mergePartial s' = some (true, s'', a) ∧
        S.view s'' = { (S.view s').advance body.length with legitimateEnd := true }) →
    ∃ s', S.readMessageNoVirtualNoRecursionDepth mergePartial s = some (true, s', a) ∧
      S.view s' = { (S.view s).advance (lengthBytes ++ body).length with legitimateEnd := false }
  readPackedInt32 : ∀ s values lengthBytes (payloads : List (Bytes × ℕ)) rest, S.Readable s →
    (S.view s).unread = lengthBytes ++ (payloads.flatMap Prod.fst ++ rest) →
    Varint.decode lengthBytes = some ((payloads.flatMap Prod.fst).length, []) →
    (payloads.flatMap Prod.fst).length < 2 ^ 31 →
    (∀ p ∈ payloads, Varint.decode p.1 = some (p.2, [])) →
    (S.readPackedInt32 s values).ok = true ∧
      (S.readPackedInt32 s values).value = values ++ payloads.map (BitVec.ofNat 32 ·.2) ∧
      S.view (S.readPackedInt32 s values).stream =
        { (S.view s).advance (lengthBytes ++ payloads.flatMap Prod.fst).length with
          legitimateEnd := false }
  readRepeatedInt32 : ∀ tagSize t s values n v, S.Readable s →
    (S.view s).readVarint = some (n, v) →
    (∀ m w, v.readVarint = some (m, w) → BitVec.ofNat 32 m ≠ t) →
    (S.readRepeatedInt32 tagSize t s values).ok = true ∧
      (S.readRepeatedInt32 tagSize t s values).value = values ++ [BitVec.ofNat 32 n] ∧
      S.view (S.readRepeatedInt32 tagSize t s values).stream = v
  unsafeDecrement : ∀ s, 0 < (S.view s).depth →
    S.view (S.unsafeDecrementRecursionDepth s) =
      { S.view s with depth := (S.view s).depth - 1 }
  parseFromString : ∀ {α} {mergePartial : S.Stream → Option (Bool × S.Stream × α)} {a : α} data s,
    data.length ≤ S.totalBytesLimit → mergePartial (S.create data) = some (true, s, a) →
    S.consumedEntireMessage s = true → S.parseFromString mergePartial data = some (true, a)

end GeneratedInputStream

/-! ### A reference -/

namespace StreamView

def expectTagRef (t : BitVec 32) (v : StreamView) : Bool × StreamView :=
  match v.readVarint with
  | some (n, w) => if BitVec.ofNat 32 n = t then (true, w) else (false, v)
  | none => (false, v)

def expectAtEndRef (v : StreamView) : Bool × StreamView :=
  if v.unread = [] then (true, { v with legitimateEnd := true }) else (false, v)

/-- Fields of the wire types that have payloads. -/
def skipFieldRef (v : StreamView) (tag : BitVec 32) : Bool × StreamView :=
  let skipped := match tag.toNat % 8 with
    | 0 => v.readVarint.map Prod.snd
    | 1 => (v.readBytes 8).map Prod.snd
    | 2 => v.readString.map Prod.snd
    | 5 => (v.readBytes 4).map Prod.snd
    | _ => none
  match skipped with
  | some w => (true, w)
  | none => (false, v)

def readLengthRef (v : StreamView) : ℤ × StreamView :=
  match v.readVarint with
  | some (n, w) => (v.limit, { w with limit := w.pushedLimit (BitVec.ofNat 32 n) })
  | none => (v.limit, { v.failVarint with limit := v.failVarint.pushedLimit 0 })

/-- A message that is read up to the limit behind it. -/
def readMessageRef {α : Type} (mergePartial : StreamView → Option (Bool × StreamView × α))
    (v : StreamView) : Option (Bool × StreamView × α) :=
  let r := v.readLengthRef
  match mergePartial r.2 with
  | none => none
  | some (false, result) => some (false, result)
  | some (true, w, a) => some (w.legitimateEnd, { w with limit := r.1, legitimateEnd := false }, a)

/-- The varints of a packed list. -/
def varints : ℕ → Bytes → Option (List ℕ)
  | _, [] => some []
  | 0, _ => none
  | fuel + 1, bytes => (Varint.decode bytes).bind fun p => (varints fuel p.2).map (p.1 :: ·)

def readPackedRef (v : StreamView) (values : List (BitVec 32)) :
    Read StreamView (List (BitVec 32)) :=
  match v.readString with
  | none => ⟨false, values, v⟩
  | some (body, w) =>
      match varints body.length body with
      | none => ⟨false, values, w⟩
      | some ns =>
          ⟨true, values ++ ns.map (BitVec.ofNat 32), { w with legitimateEnd := false }⟩

/-- One value, and more of them while the tag is expected. -/
def readRepeatedRef (t : BitVec 32) : ℕ → StreamView → List (BitVec 32) →
    Read StreamView (List (BitVec 32))
  | 0, v, values => ⟨true, values, v⟩
  | fuel + 1, v, values =>
      match v.readVarint with
      | none => ⟨false, values, v⟩
      | some (n, w) =>
          let e := w.expectTagRef t
          if e.1 then readRepeatedRef t fuel e.2 (values ++ [BitVec.ofNat 32 n])
          else ⟨true, values ++ [BitVec.ofNat 32 n], w⟩

def parseFromStringRef {α : Type} (mergePartial : StreamView → Option (Bool × StreamView × α))
    (data : Bytes) : Option (Bool × α) :=
  (mergePartial (.start data)).map fun r => (r.1 && r.2.1.legitimateEnd, r.2.2)

end StreamView

/-- A stream whose `ExpectTag` and `ExpectAtEnd` are right whenever they can be, for strings
of ASCII characters. -/
def GeneratedInputStream.reference : GeneratedInputStream where
  toCodedInputStream := CodedInputStream.reference
  readTagWithCutoff c v :=
    let r := StreamView.readTagRef v
    ((r.1, decide (r.1.toNat ≤ c.toNat)), r.2)
  expectTag := StreamView.expectTagRef
  expectAtEnd := StreamView.expectAtEndRef
  skipField := StreamView.skipFieldRef
  readMessageNoVirtualNoRecursionDepth := StreamView.readMessageRef
  readPackedInt32 := StreamView.readPackedRef
  readRepeatedInt32 _ t v values := StreamView.readRepeatedRef t 4 v values
  unsafeDecrementRecursionDepth v := { v with depth := v.depth - 1 }
  verifyUtf8String bytes := bytes.all (· < 128)
  parseFromString := StreamView.parseFromStringRef

/-! ## Writing -/

/-- `WireFormatLite` as generated code uses it. `WriteMessageNoVirtualToArray` is given the
cached size of the message and what its `SerializeWithCachedSizesToArray` appends,
`MessageSizeNoVirtual` what its `ByteSize` returns, and `SerializeAsString` both. -/
structure GeneratedWireFormat extends WireFormatLite where
  writeStringToArray : ℕ → Bytes → Bytes
  writeInt32NoTagToArray : BitVec 32 → Bytes
  writeMessageNoVirtualToArray : ℕ → ℤ → Bytes → Bytes
  stringSize : Bytes → ℤ
  messageSizeNoVirtual : ℤ → ℤ
  serializeAsString : ℤ → Bytes → Bytes

/-- Strings and messages are delimited by their length, for which an `int` has room. -/
structure GeneratedWireFormat.Documented (W : GeneratedWireFormat) : Prop extends
    W.toWireFormatLite.Documented where
  writeString : ∀ n s, s.length < 2 ^ 31 →
    W.writeStringToArray n s = tagBytes n .lengthDelimited ++ lengthDelimited s
  writeInt32NoTag : ∀ v, W.writeInt32NoTagToArray v = Varint.encode (signExtended v)
  writeMessage : ∀ (n size : ℕ) bytes, size < 2 ^ 31 →
    W.writeMessageNoVirtualToArray n size bytes =
      tagBytes n .lengthDelimited ++ (Varint.encode size ++ bytes)
  stringSize : ∀ s, (lengthDelimited s).length < 2 ^ 31 →
    W.stringSize s = (lengthDelimited s).length
  messageSize : ∀ size : ℕ, (Varint.encode size).length + size < 2 ^ 31 →
    W.messageSizeNoVirtual size = (Varint.encode size).length + size
  serializeAsString : ∀ bytes, bytes.length < 2 ^ 31 →
    W.serializeAsString bytes.length bytes = bytes

/-- The wire format itself, as serializers. -/
def GeneratedWireFormat.reference : GeneratedWireFormat where
  toWireFormatLite := WireFormatLite.reference
  writeStringToArray n s := tagBytes n .lengthDelimited ++ lengthDelimited s
  writeInt32NoTagToArray v := Varint.encode (signExtended v)
  writeMessageNoVirtualToArray n size bytes :=
    tagBytes n .lengthDelimited ++ (Varint.encode size.toNat ++ bytes)
  stringSize s := (lengthDelimited s).length
  messageSizeNoVirtual size := (Varint.encode size.toNat).length + size
  serializeAsString size bytes := if size < 0 then [] else bytes

theorem GeneratedWireFormat.reference_documented : GeneratedWireFormat.reference.Documented where
  toDocumented := WireFormatLite.reference_documented
  writeString _ _ _ := rfl
  writeInt32NoTag _ := rfl
  writeMessage _ _ _ _ := rfl
  stringSize _ _ := rfl
  messageSize _ _ := rfl
  serializeAsString bytes _ := by
    simp only [reference, Int.not_ofNat_neg, if_false]

end Luapb
