import Luapb.Model.Stream

/-! # Encoding

`RawByteSize` and `RawEncode` walk the same table twice. Each is one loop over
`lua_next` that calls itself for nested messages, as deep as the tables go; `fuel`
bounds that depth, since a table may contain itself. -/

namespace Luapb

open PBStream

section

variable {M : Type} (P : Platform) (W : WireFormatLite) (L : LuaState) (schema : Schema M)

/-- `const char* name = it.key()` -/
def keyName : LuaKey → Except Fault Bytes
  | .string s => .ok (cstr s)
  | .integer i => .ok (cstr (P.number2str (Ieee754.Binary.ofInt Ieee754.binary64 i)))
  | .number n => .ok (cstr (P.number2str n))
  | .object _ => .error (.luaError (.typerror "string"))

/-- The entries of a repeated field's list. -/
def requireTable {V : Type} (fmt : String) (name : Bytes) (v : LuaView V) :
    Except Fault (List (LuaKey × V)) :=
  if v.isTable = false then .error (.luaError (.error fmt name)) else v.luaNext

/-- One iteration of the loop of `RawByteSize`. -/
def entrySize (cast : ℤ → ℤ) (nested : M → L.Value → Except Fault ℤ) (msgD : M)
    (size : ℤ) (entry : LuaKey × L.Value) : Except Fault ℤ := do
  let name ← keyName P entry.1
  match (schema msgD).findFieldByName name with
  | none => pure size
  | some fieldD =>
      match fieldD.type.messageType? with
      | some messageType =>
          if fieldD.isRepeated then
            let valueList ← requireTable "repeated '%s' require table" name (L.view entry.2)
            valueList.foldlM (fun size value => do
              let size := cast (size + tagSize W fieldD.number)
              let structSize ← nested messageType value.2
              pure (cast (size +
                cast (W.varintSize32 (BitVec.ofInt 32 structSize) + structSize)))) size
          else do
            let size := cast (size + tagSize W fieldD.number)
            let structSize ← nested messageType entry.2
            pure (cast (size + structSize))
      | none =>
          if fieldD.isRepeated then
            let valueList ← requireTable "repeated '%s' require table" name (L.view entry.2)
            valueList.foldlM (fun size value => do
              let size := cast (size + tagSize W fieldD.number)
              let valueSize ← fieldSizeBy P W cast fieldD (L.view value.2)
              pure (cast (size + valueSize))) size
          else do
            let size := cast (size + tagSize W fieldD.number)
            let valueSize ← fieldSizeBy P W cast fieldD (L.view entry.2)
            pure (cast (size + valueSize))

def rawByteSizeBy (cast : ℤ → ℤ) : ℕ → M → L.Value → Except Fault ℤ
  | 0, _, _ => .error .outOfFuel
  | fuel + 1, msgD, tab => do
      let entries ← (L.view tab).luaNext
      entries.foldlM (entrySize P W L schema cast (rawByteSizeBy cast fuel) msgD) 0

/-- `RawByteSize`, whose sums are of type `int`. -/
def rawByteSize (fuel : ℕ) (msgD : M) (tab : L.Value) : Except Fault ℤ :=
  rawByteSizeBy P W L schema int32 fuel msgD tab

/-- One iteration of the loop of `RawEncode`. -/
def entryEncode (nestedSize : M → L.Value → Except Fault ℤ)
    (nested : M → Bytes → L.Value → Except Fault Bytes) (msgD : M)
    (stream : Bytes) (entry : LuaKey × L.Value) : Except Fault Bytes := do
  let name ← keyName P entry.1
  match (schema msgD).findFieldByName name with
  | none => pure stream
  | some fieldD =>
      match fieldD.type.messageType? with
      | some messageType =>
          if fieldD.isRepeated then
            let valueList ← requireTable "repeated value '%s' require table" name (L.view entry.2)
            valueList.foldlM (fun stream value => do
              let size ← nestedSize messageType value.2
              nested messageType (stream ++ writeMessageHead W fieldD.number size) value.2) stream
          else do
            let size ← nestedSize messageType entry.2
            nested messageType (stream ++ writeMessageHead W fieldD.number size) entry.2
      | none =>
          if fieldD.isRepeated then
            let valueList ← requireTable "repeated value '%s' require table" name (L.view entry.2)
            valueList.foldlM (fun stream value => do
              let bytes ← writeValue P W fieldD (L.view value.2)
              pure (stream ++ bytes)) stream
          else do
            let bytes ← writeValue P W fieldD (L.view entry.2)
            pure (stream ++ bytes)

/-- `RawEncode`; the stream is the bytes from `mData` up to `mPointer`. -/
def rawEncode : ℕ → M → Bytes → L.Value → Except Fault Bytes
  | 0, _, _, _ => .error .outOfFuel
  | fuel + 1, msgD, stream, tab => do
      let entries ← (L.view tab).luaNext
      entries.foldlM
        (entryEncode P W L schema (rawByteSize P W L schema fuel) (rawEncode fuel) msgD) stream

/-- The buffer of `size` bytes after `written` was written from its start. `heap` is
what the allocator left in it. -/
def buffer (heap : ℕ → UInt8) (size : BitVec 32) (written : Bytes) : Except Fault Bytes :=
  if size.toNat < written.length then .error .overrun
  else .ok (written ++
    (List.range' written.length (size.toNat - written.length)).map heap)

/-- `Encode`. `none` stands for returning no value to Lua. -/
def encode (findMessage : Bytes → Option M) (heap : ℕ → UInt8) (fuel : ℕ)
    (name tab : L.Value) : Except Fault (Option Bytes) := do
  let name ← Stack.checklstring P (L.view name)
  match findMessage (cstr name) with
  | none => pure none
  | some msgD =>
      let size ← rawByteSize P W L schema fuel msgD tab
      let written ← rawEncode P W L schema fuel msgD [] tab
      let result ← buffer heap (BitVec.ofInt 32 size) written
      pure (some result)

end

end Luapb
