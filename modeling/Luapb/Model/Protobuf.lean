import Luapb.Model.Descriptor

/-! # The protobuf library as a parameter

Protobuf is linked, not vendored. Its serializers and its `CodedInputStream` are
parameters of the model, and what their documentation promises is stated as laws. -/

namespace Luapb

open Ieee754 Wire

/-! ## Serializers -/

/-- The functions of `WireFormatLite` and `CodedOutputStream` that append to an
array, and those that predict how much they append. -/
structure WireFormatLite where
  writeTagToArray : ℕ → WireType → Bytes
  writeVarint32ToArray : BitVec 32 → Bytes
  writeRawToArray : Bytes → ℕ → Bytes
  writeFloatToArray : ℕ → CFloat → Bytes
  writeInt32ToArray : ℕ → BitVec 32 → Bytes
  writeUInt32ToArray : ℕ → BitVec 32 → Bytes
  writeBoolToArray : ℕ → Bool → Bytes
  writeEnumToArray : ℕ → BitVec 32 → Bytes
  varintSize32 : BitVec 32 → ℕ
  int32Size : BitVec 32 → ℕ
  uInt32Size : BitVec 32 → ℕ
  int64Size : BitVec 64 → ℕ
  uInt64Size : BitVec 64 → ℕ
  enumSize : BitVec 32 → ℕ

/-- `int32` and enum values are sign-extended to 64 bits before they become varints. -/
def signExtended (v : BitVec 32) : ℕ := (v.signExtend 64).toNat

/-- The serializers follow the wire format, and the sizes are those of its varints. -/
structure WireFormatLite.Documented (W : WireFormatLite) : Prop where
  writeTag : ∀ n t, W.writeTagToArray n t = tagBytes n t
  writeVarint32 : ∀ v, W.writeVarint32ToArray v = Varint.encode v.toNat
  writeRaw : ∀ bytes n, W.writeRawToArray bytes n = bytes.take n
  writeFloat : ∀ n v, W.writeFloatToArray n v = tagBytes n .fixed32 ++ fixed32 v.toBits
  writeInt32 : ∀ n v,
    W.writeInt32ToArray n v = tagBytes n .varint ++ Varint.encode (signExtended v)
  writeUInt32 : ∀ n v, W.writeUInt32ToArray n v = tagBytes n .varint ++ Varint.encode v.toNat
  writeBool : ∀ n v, W.writeBoolToArray n v = tagBytes n .varint ++ Varint.encode v.toNat
  writeEnum : ∀ n v,
    W.writeEnumToArray n v = tagBytes n .varint ++ Varint.encode (signExtended v)
  varintSize32 : ∀ v, W.varintSize32 v = (Varint.encode v.toNat).length
  int32Size : ∀ v, W.int32Size v = (Varint.encode (signExtended v)).length
  uInt32Size : ∀ v, W.uInt32Size v = (Varint.encode v.toNat).length
  int64Size : ∀ v, W.int64Size v = (Varint.encode v.toNat).length
  uInt64Size : ∀ v, W.uInt64Size v = (Varint.encode v.toNat).length
  enumSize : ∀ v, W.enumSize v = (Varint.encode (signExtended v)).length

/-! ## The input stream -/

/-- What the documentation of `CodedInputStream` speaks of: the buffer, the current
position, the nearest limit, how deep `IncrementRecursionDepth` has gone, and
whether the last `ReadTag` stopped exactly at the end or at a limit. -/
structure StreamView where
  data : Bytes
  position : ℕ
  limit : ℤ
  depth : ℕ
  legitimateEnd : Bool
deriving DecidableEq

namespace StreamView

/-- A stream at the start of its buffer. -/
def start (data : Bytes) : StreamView := ⟨data, 0, data.length, 0, false⟩

/-- The bytes that may still be read before the limit. -/
def unread (v : StreamView) : Bytes := (v.data.drop v.position).take (v.limit.toNat - v.position)

def advance (v : StreamView) (n : ℕ) : StreamView := { v with position := v.position + n }

/-- The limit after `PushLimit(size)`. The old limit stays in force if it is
shorter, and a negative size imposes none of its own. -/
def pushedLimit (v : StreamView) (size : BitVec 32) : ℤ :=
  if 0 ≤ size.toInt then min (v.position + size.toInt) v.limit else v.limit

/-- A state the documentation covers: inside a limit that lies inside the buffer. -/
structure Valid (v : StreamView) : Prop where
  position_le : (v.position : ℤ) ≤ v.limit
  limit_le : v.limit ≤ v.data.length

/-- The same bytes ahead, with the position and the limit as far from the end of the buffer. -/
structure Shifted (v v' : StreamView) : Prop where
  ahead_eq : v'.data.drop v'.position = v.data.drop v.position
  position_eq : (v'.data.length : ℤ) - v'.position = v.data.length - v.position
  limit_eq : v'.data.length - v'.limit = v.data.length - v.limit
  depth_eq : v'.depth = v.depth
  end_eq : v'.legitimateEnd = v.legitimateEnd

def readVarint (v : StreamView) : Option (ℕ × StreamView) :=
  (Varint.decode v.unread).map fun p => (p.1, v.advance (v.unread.length - p.2.length))

/-- A varint, of which the caller keeps what `f` makes of it. -/
def readVarintAs {α : Type} (f : ℕ → α) (v : StreamView) : Option (α × StreamView) :=
  v.readVarint.map fun p => (f p.1, p.2)

def readFloat (v : StreamView) : Option (CFloat × StreamView) :=
  (Wire.readFixed32 v.unread).map fun p => (Binary.ofBits binary32 p.1, v.advance 4)

def readBytes (v : StreamView) (n : ℕ) : Option (Bytes × StreamView) :=
  if n ≤ v.unread.length then some (v.unread.take n, v.advance n) else none

/-- A varint length, which must not be negative as an `int`, and that many bytes. -/
def readString (v : StreamView) : Option (Bytes × StreamView) :=
  v.readVarint.bind fun p =>
    if p.1 % 2 ^ 32 < 2 ^ 31 then p.2.readBytes (p.1 % 2 ^ 32) else none

end StreamView

/-- The result of a read through an out-parameter: the reported success, what the
variable holds afterwards, and the stream. -/
structure Read (σ α : Type) where
  ok : Bool
  value : α
  stream : σ

/-- `CodedInputStream` with the reads of `WireFormatLite` on it. `Limit` is `int`.
`view` is no operation; the laws are stated through it. -/
structure CodedInputStream where
  Stream : Type
  create : Bytes → Stream
  readTag : Stream → BitVec 32 × Stream
  readFloat : Stream → CFloat → Read Stream CFloat
  readInt32 : Stream → BitVec 32 → Read Stream (BitVec 32)
  readBool : Stream → Bool → Read Stream Bool
  readUInt32 : Stream → BitVec 32 → Read Stream (BitVec 32)
  readEnum : Stream → BitVec 32 → Read Stream (BitVec 32)
  readString : Stream → Bytes → Read Stream Bytes
  pushLimit : Stream → BitVec 32 → ℤ × Stream
  popLimit : Stream → ℤ → Stream
  consumedEntireMessage : Stream → Bool
  incrementRecursionDepth : Stream → Bool × Stream
  decrementRecursionDepth : Stream → Stream
  recursionLimit : ℕ
  totalBytesLimit : ℕ
  view : Stream → StreamView

namespace CodedInputStream

variable (S : CodedInputStream)

/-- One read of a value. -/
inductive ReadStep : S.Stream → S.Stream → Prop
  | float (s x) : ReadStep s (S.readFloat s x).stream
  | int32 (s x) : ReadStep s (S.readInt32 s x).stream
  | bool (s x) : ReadStep s (S.readBool s x).stream
  | uint32 (s x) : ReadStep s (S.readUInt32 s x).stream
  | enum (s x) : ReadStep s (S.readEnum s x).stream
  | string (s x) : ReadStep s (S.readString s x).stream

/-- The same buffer, at the same position or a later one. -/
def Forward (s s' : S.Stream) : Prop :=
  (S.view s').data = (S.view s).data ∧ (S.view s).position ≤ (S.view s').position

/-- Nothing moves the position backwards, a tag takes at least one byte, and at the
end of the buffer there is no tag. This holds whatever limit is in force. -/
structure Progress : Prop where
  create_forward : ∀ data,
    (S.view (S.create data)).data = data ∧ (S.view (S.create data)).position = 0
  readTag_forward : ∀ s, S.Forward s (S.readTag s).2
  readTag_consumes : ∀ s, (S.readTag s).1 ≠ 0 →
    (S.view s).position < (S.view (S.readTag s).2).position
  readTag_atEnd : ∀ s, (S.view s).data.length ≤ (S.view s).position → (S.readTag s).1 = 0
  read_forward : ∀ {s s'}, S.ReadStep s s' → S.Forward s s'
  pushLimit_forward : ∀ s n, S.Forward s (S.pushLimit s n).2
  popLimit_forward : ∀ s l, S.Forward s (S.popLimit s l)
  incrementRecursionDepth_forward : ∀ s, S.Forward s (S.incrementRecursionDepth s).2
  decrementRecursionDepth_forward : ∀ s, S.Forward s (S.decrementRecursionDepth s)

/-- Limits and the recursion counter. Reading touches neither, whether or not the
read succeeds. -/
structure Limits : Prop where
  consumed : ∀ s, S.consumedEntireMessage s = (S.view s).legitimateEnd
  readTag_limit : ∀ s, (S.view (S.readTag s).2).limit = (S.view s).limit
  readTag_depth : ∀ s, (S.view (S.readTag s).2).depth = (S.view s).depth
  read_limit : ∀ {s s'}, S.ReadStep s s' → (S.view s').limit = (S.view s).limit
  read_depth : ∀ {s s'}, S.ReadStep s s' → (S.view s').depth = (S.view s).depth
  pushLimit_old : ∀ s n, (S.pushLimit s n).1 = (S.view s).limit
  pushLimit : ∀ s n,
    S.view (S.pushLimit s n).2 = { S.view s with limit := (S.view s).pushedLimit n }
  popLimit : ∀ s l,
    S.view (S.popLimit s l) = { S.view s with limit := l, legitimateEnd := false }
  increment_ok : ∀ s,
    (S.incrementRecursionDepth s).1 = decide ((S.view s).depth + 1 ≤ S.recursionLimit)
  increment : ∀ s,
    S.view (S.incrementRecursionDepth s).2 = { S.view s with depth := (S.view s).depth + 1 }
  decrement : ∀ s,
    S.view (S.decrementRecursionDepth s) = { S.view s with depth := (S.view s).depth - 1 }

/-- A state in which reading is governed by the bytes alone. -/
structure Readable (s : S.Stream) : Prop where
  valid : (S.view s).Valid
  within : (S.view s).data.length ≤ S.totalBytesLimit

/-- A read succeeds exactly when `spec` finds a value in the unread bytes, and then
returns that value and moves behind it. -/
def Follows {α : Type} (read : S.Stream → α → Read S.Stream α)
    (spec : StreamView → Option (α × StreamView)) : Prop :=
  ∀ s x, S.Readable s → match spec (S.view s) with
    | some (a, v) => (read s x).ok = true ∧ (read s x).value = a ∧ S.view (read s x).stream = v
    | none => (read s x).ok = false

/-- What the reads return, as a function of the unread bytes. -/
structure Reads : Prop where
  totalBytesLimit_lt : S.totalBytesLimit < 2 ^ 31
  create : ∀ data, S.view (S.create data) = .start data
  readTag_end : ∀ s, S.Readable s → (S.view s).unread = [] →
    (S.readTag s).1 = 0 ∧ S.view (S.readTag s).2 = { S.view s with legitimateEnd := true }
  readTag_some : ∀ s n v, S.Readable s → (S.view s).readVarint = some (n, v) →
    (S.readTag s).1 = BitVec.ofNat 32 n ∧ S.view (S.readTag s).2 = v
  readTag_none : ∀ s, S.Readable s → (S.view s).readVarint = none → (S.readTag s).1 = 0
  readInt32 : S.Follows S.readInt32 (StreamView.readVarintAs (BitVec.ofNat 32))
  readUInt32 : S.Follows S.readUInt32 (StreamView.readVarintAs (BitVec.ofNat 32))
  readEnum : S.Follows S.readEnum (StreamView.readVarintAs (BitVec.ofNat 32))
  readBool : S.Follows S.readBool (StreamView.readVarintAs fun n => decide (n % 2 ^ 64 ≠ 0))
  readFloat : S.Follows S.readFloat StreamView.readFloat
  readString : S.Follows S.readString StreamView.readString

/-- The documented behaviour as a whole. -/
structure Documented : Prop extends S.Progress, S.Limits, S.Reads

/-- States with the same bytes ahead and the same limit, however much was read before. -/
structure Shifted (s s' : S.Stream) : Prop where
  views : (S.view s).Shifted (S.view s')
  within : (S.view s).data.length ≤ S.totalBytesLimit
  within' : (S.view s').data.length ≤ S.totalBytesLimit

def Alike {α : Type} (read : S.Stream → α → Read S.Stream α) : Prop :=
  ∀ {s s'}, S.Shifted s s' → ∀ x, (read s' x).ok = (read s x).ok ∧
    (read s' x).value = (read s x).value ∧ S.Shifted (read s x).stream (read s' x).stream

/-- What a read does depends on what is ahead of it, also where it fails: how much was read
before plays no part. -/
structure Uniform : Prop where
  readTag : ∀ {s s'}, S.Shifted s s' →
    (S.readTag s').1 = (S.readTag s).1 ∧ S.Shifted (S.readTag s).2 (S.readTag s').2
  readFloat : S.Alike S.readFloat
  readInt32 : S.Alike S.readInt32
  readBool : S.Alike S.readBool
  readUInt32 : S.Alike S.readUInt32
  readEnum : S.Alike S.readEnum
  readString : S.Alike S.readString

end CodedInputStream

end Luapb
