import Luapb.Model.Protobuf

/-! # `PBStream`

The functions of `Stream.cpp`. A writer returns the bytes it appends at `mPointer`,
a reader works on the `CodedInputStream` the stream owns. -/

namespace Luapb

open Ieee754 Wire

/-- Narrowing to the C type `int`. -/
def int32 (x : ℤ) : ℤ := x.bmod (2 ^ 32)

/-! ## Scanning decimal numbers -/

def isSpace (b : UInt8) : Bool := b = 32 || (9 ≤ b && b ≤ 13)
def isDigit (b : UInt8) : Bool := 48 ≤ b && b ≤ 57

/-- White space, a sign and at least one digit, as `sscanf` reads a decimal number. -/
def scanDecimal (s : Bytes) : Option (Bool × ℕ) :=
  let t := s.dropWhile isSpace
  let neg := t.head? = some 45
  let digits := (if t.head? = some 45 ∨ t.head? = some 43 then t.tail else t).takeWhile isDigit
  if digits = [] then none
  else some (neg, digits.foldl (fun n d => n * 10 + (d.toNat - 48)) 0)

/-- `sscanf(s, "%lld", &value)` on a `value` of 0. -/
def scanInt64 (s : Bytes) : BitVec 64 :=
  match scanDecimal s with
  | none => 0
  | some (neg, n) => BitVec.ofInt 64 (if neg then max (-n) (-2 ^ 63) else min n (2 ^ 63 - 1))

/-- `sscanf(s, "%llu", &value)` on a `value` of 0. A number that is too large is scanned as the
largest one, with a sign too. -/
def scanUInt64 (s : Bytes) : BitVec 64 :=
  match scanDecimal s with
  | none => 0
  | some (neg, n) =>
      if 2 ^ 64 ≤ n then BitVec.ofNat 64 (2 ^ 64 - 1)
      else BitVec.ofInt 64 (if neg then -n else n)

namespace PBStream

variable {M V : Type} (P : Platform) (W : WireFormatLite)

/-- The `default` case of a switch, which asserts. -/
def unknownType {α : Type} (release : α) : Except Fault α :=
  if P.ndebug then .ok release else .error .assertion

/-! ## Writing -/

/-- The case of strings and of 64-bit integers. -/
def writeString (number : ℕ) (s : Bytes) : Except Fault Bytes :=
  let strLen := int32 s.length
  -- a negative length reaches memcpy as an enormous size_t
  if strLen < 0 then .error .overrun
  else .ok (W.writeTagToArray number .lengthDelimited ++
    W.writeVarint32ToArray (BitVec.ofInt 32 strLen) ++ W.writeRawToArray s strLen.toNat)

def writeValue (fd : FieldDescriptor M) (value : LuaView V) : Except Fault Bytes :=
  match fd.type with
  | .float => do
      let v ← Stack.getFloat P value
      pure (W.writeFloatToArray fd.number v)
  | .int32 => do
      let v ← Stack.getInt P value
      pure (W.writeInt32ToArray fd.number v)
  | .bool => pure (W.writeBoolToArray fd.number (Stack.getBool value))
  | .string | .int64 | .uint64 => do
      let s ← strlen (← Stack.getCString P value)
      writeString W fd.number s
  | .uint32 => do
      let v ← Stack.getUnsigned P value
      pure (W.writeUInt32ToArray fd.number v)
  | .enum enumType => do
      let name ← Stack.getString P value
      -- a name the enum does not declare is reported on stdout and writes nothing
      match enumType.findValueByName name with
      | none => pure []
      | some evd => pure (W.writeEnumToArray fd.number evd.number)
  | _ => unknownType P []

def writeMessageHead (fieldNumber : ℕ) (messageBytes : ℤ) : Bytes :=
  W.writeTagToArray fieldNumber .lengthDelimited ++
    W.writeVarint32ToArray (BitVec.ofInt 32 messageBytes)

/-! ## Sizes

`cast` is the narrowing of a sum to `int`; with the identity in its place the sizes
are exact. -/

def fieldSizeBy (cast : ℤ → ℤ) (fd : FieldDescriptor M) (value : LuaView V) : Except Fault ℤ :=
  match fd.type with
  | .float => pure 4
  | .int64 => do
      let s ← strlen (← Stack.getCString P value)
      pure (W.int64Size (scanInt64 s))
  | .uint64 => do
      let s ← strlen (← Stack.getCString P value)
      pure (W.uInt64Size (scanUInt64 s))
  | .int32 => do
      let v ← Stack.getInt P value
      pure (W.int32Size v)
  | .bool => pure 1
  | .string => do
      let s ← strlen (← Stack.getCString P value)
      let strLen := cast s.length
      pure (cast (W.varintSize32 (BitVec.ofInt 32 strLen) + strLen))
  | .uint32 => do
      let v ← Stack.getUnsigned P value
      pure (W.uInt32Size v)
  | .enum enumType => do
      let name ← Stack.getString P value
      match enumType.findValueByName name with
      | none => pure 0
      | some evd => pure (W.enumSize evd.number)
  | .message _ => do
      let msgSize ← Stack.getInt P value
      pure (cast (W.varintSize32 msgSize + msgSize.toInt))
  | _ => unknownType P 0

def fieldSize (fd : FieldDescriptor M) (value : LuaView V) : Except Fault ℤ :=
  fieldSizeBy P W int32 fd value

def tagSize (fieldNumber : ℕ) : ℤ := W.varintSize32 (BitVec.ofNat 32 (fieldNumber * 8))

/-! ## Reading -/

variable (S : CodedInputStream)

/-- The macro `FillValue`, which `RawDecode` repeats for messages. -/
def fillValue (tab : LuaTable) (fd : FieldDescriptor M) (value : LuaTree) : LuaTable :=
  if fd.isRepeated then
    match tab.get (.string fd.name) with
    | some (.table list) => tab.set (.string fd.name) (.table (LuaTable.luaLRef P list value))
    | _ => tab.set (.string fd.name) (.table (LuaTable.luaLRef P [] value))
  else tab.set (.string fd.name) value

/-- The outcome of `ReadValue`: the table, the stream, the local `OK` that nothing
looks at, and whether a value was filled in. -/
structure ValueRead where
  tab : LuaTable
  stream : S.Stream
  ok : Bool
  filled : Bool

variable {S}

/-- A read into a local variable, followed by `FillValue`. -/
def fillFrom {α : Type} (push : α → LuaTree) (tab : LuaTable) (fd : FieldDescriptor M)
    (r : Read S.Stream α) : ValueRead S :=
  ⟨fillValue P tab fd (push r.value), r.stream, r.ok, true⟩

variable (S)

def readValue (s : S.Stream) (tab : LuaTable) (fd : FieldDescriptor M) : ValueRead S :=
  match fd.type with
  | .float => fillFrom P (fun v => .number (Stack.pushFloat v)) tab fd
      (S.readFloat s (Binary.ofInt binary32 0))
  | .int32 => fillFrom P (fun v => .number (Stack.pushInt v)) tab fd (S.readInt32 s 0)
  | .bool => fillFrom P .boolean tab fd (S.readBool s false)
  | .string | .int64 | .uint64 => fillFrom P .string tab fd (S.readString s [])
  | .uint32 => fillFrom P (fun v => .number (Stack.pushUnsigned P v)) tab fd (S.readUInt32 s 0)
  | .enum enumType =>
      let r := S.readEnum s 0
      -- a number the enum does not declare is reported on stdout and dropped
      match enumType.findValueByNumber r.value with
      | none => ⟨tab, r.stream, r.ok, false⟩
      | some evd => ⟨fillValue P tab fd (.string evd.name), r.stream, r.ok, true⟩
  | _ => ⟨tab, s, false, false⟩

variable {S}

/-- `ReadValue` makes one read or none. -/
theorem readValue_step (s : S.Stream) (tab : LuaTable) (fd : FieldDescriptor M) :
    (readValue P S s tab fd).stream = s ∨ S.ReadStep s (readValue P S s tab fd).stream := by
  rw [readValue]
  split
  · exact .inr (.float s _)
  · exact .inr (.int32 s _)
  · exact .inr (.bool s _)
  · exact .inr (.string s _)
  · exact .inr (.string s _)
  · exact .inr (.string s _)
  · exact .inr (.uint32 s _)
  · simp only
    split <;> exact .inr (.enum s _)
  · exact .inl rfl

/-- `ReadValue` fills in one value or none. -/
theorem readValue_tab (s : S.Stream) (tab : LuaTable) (fd : FieldDescriptor M) :
    (readValue P S s tab fd).tab = tab ∨
      ∃ tree, (readValue P S s tab fd).tab = fillValue P tab fd tree := by
  rw [readValue]
  split
  case h_8 =>
    dsimp only
    split
    · exact .inl rfl
    · exact .inr ⟨_, rfl⟩
  case h_9 => exact .inl rfl
  all_goals exact .inr ⟨_, rfl⟩

variable (S)

/-- The caller's variable `limit` is `none` as long as nothing was assigned to it. -/
def beginMessage (s : S.Stream) (limit : Option ℤ) : Bool × Option ℤ × S.Stream :=
  let r := S.readInt32 s 0
  if r.ok = false then (false, limit, r.stream)
  else
    let i := S.incrementRecursionDepth r.stream
    if i.1 = false then (false, limit, i.2)
    else
      let p := S.pushLimit i.2 r.value
      (true, some p.1, p.2)

/-- `garbage` is what an unassigned `limit` holds. -/
def endMessage (garbage : ℤ) (s : S.Stream) (limit : Option ℤ) : Bool × S.Stream :=
  if S.consumedEntireMessage s = false then (false, s)
  else (true, S.decrementRecursionDepth (S.popLimit s (limit.getD garbage)))

def readFieldNumber (s : S.Stream) : ℕ × S.Stream :=
  let r := S.readTag s
  if r.1 = 0 then (0, r.2) else (r.1.toNat / 8, r.2)

end PBStream

end Luapb
