import Luapb.Library.Fallible
import Luapb.Library.Ieee754
import Mathlib.Data.List.TakeWhile

/-! # Lua values through the C API

Only what the library asks of the bundled Lua 5.1 and of LuaBridge is modelled:
the type of a value, the conversions of `Stack<T>`, `lua_next` and `luaL_ref`. -/

namespace Luapb

open Ieee754

abbrev Bytes := List UInt8

/-- `lua_Number` is a double. -/
abbrev LuaNumber := Binary binary64

/-- The C type `float`. -/
abbrev CFloat := Binary binary32

/-! ## Failures -/

/-- The errors a call can raise: `luaL_typerror`, with the name of the expected
type, and `luaL_error`, with its format and the string it is given. -/
inductive LuaError
  | typerror (tname : String)
  | error (fmt : String) (arg : Bytes)
deriving DecidableEq

/-- How a call can end other than by returning. -/
inductive Fault
  | luaError (e : LuaError)
  | nextOnNonTable
  | nullString
  | overrun
  | assertion
  | outOfFuel
deriving DecidableEq

/-! ## The two builds -/

/-- The platforms the project is built for; `lua_Integer` is `ptrdiff_t`. -/
inductive Build
  | win32
  | x64
deriving DecidableEq

def Build.integerBits : Build → ℕ
  | .win32 => 32
  | .x64 => 64

/-- What depends on the build and on the C library. -/
structure Platform where
  build : Build
  ndebug : Bool
  /-- `luaO_str2d` -/
  str2d : Bytes → Option LuaNumber
  /-- `lua_number2str` -/
  number2str : LuaNumber → Bytes

/-- `fistp` on Win32, a cast elsewhere. A result out of range is the integer
indefinite of either instruction, the least `lua_Integer`. -/
def number2integer (build : Build) (n : LuaNumber) : ℤ :=
  let i? := match build with
    | .win32 => n.roundEven
    | .x64 => n.truncate
  let least : ℤ := -2 ^ (build.integerBits - 1)
  match i? with
  | none => least
  | some i => if least ≤ i ∧ i < -least then i else least

/-! ## Values -/

/-- The key of a table entry. A number that is an integer is kept as that integer,
so that keys which are equal in Lua are equal here. Keys that are neither numbers
nor strings differ only in being distinct. -/
inductive LuaKey
  | integer (i : ℤ)
  | number (n : LuaNumber)
  | string (s : Bytes)
  | object (id : ℕ)
deriving DecidableEq

/-- A value as `lua_type` and the `lua_to*` functions show it. A table shows its
entries in the order `lua_next` visits them. -/
inductive LuaView (V : Type)
  | nil
  | boolean (b : Bool)
  | number (n : LuaNumber)
  | string (s : Bytes)
  | table (entries : List (LuaKey × V))
  | function
  | userdata
  | thread
  | lightuserdata

/-- A Lua state. `Value` may be a reference into a heap, so that tables can
contain themselves. -/
structure LuaState where
  Value : Type
  view : Value → LuaView Value

namespace LuaView

variable {V : Type}

/-- `isTable` -/
def isTable : LuaView V → Bool
  | .table _ => true
  | _ => false

/-- The entries `lua_next` yields one after the other. Applied to anything but a
table it reads through a wild pointer, as its `api_check` is compiled out. -/
def luaNext : LuaView V → Except Fault (List (LuaKey × V))
  | .table entries => .ok entries
  | _ => .error .nextOnNonTable

end LuaView

/-- A string up to its first NUL, which is all a `const char*` shows of it. -/
def cstr (s : Bytes) : Bytes := s.takeWhile (· ≠ 0)

@[simp] theorem cstr_of_noNul {s : Bytes} (h : (0 : UInt8) ∉ s) : cstr s = s := by
  rw [cstr, List.takeWhile_eq_self_iff]
  intro b hb
  have hne : b ≠ 0 := by
    rintro rfl
    exact h hb
  simpa using hne

namespace Stack

variable (P : Platform) {V : Type}

/-- `luaL_checklstring` -/
def checklstring : LuaView V → Except Fault Bytes
  | .string s => .ok s
  | .number n => .ok (P.number2str n)
  | _ => .error (.luaError (.typerror "string"))

/-- `lua_tonumber` as `lua_isnumber` guards it. -/
def tonumber : LuaView V → Option LuaNumber
  | .number n => some n
  | .string s => P.str2d s
  | _ => none

/-- `luaL_checkinteger` -/
def checkinteger (v : LuaView V) : Except Fault ℤ :=
  match tonumber P v with
  | some n => .ok (number2integer P.build n)
  | none => .error (.luaError (.typerror "number"))

/-- `Stack<char const*>::get`; `none` is the null pointer. -/
def getCString : LuaView V → Except Fault (Option Bytes)
  | .nil => .ok none
  | v => (checklstring P v).map fun s => some (cstr s)

/-- `Stack<std::string>::get` -/
def getString (v : LuaView V) : Except Fault Bytes := checklstring P v

/-- `Stack<int>::get` -/
def getInt (v : LuaView V) : Except Fault (BitVec 32) :=
  (checkinteger P v).map (BitVec.ofInt 32)

/-- `Stack<unsigned int>::get` -/
def getUnsigned (v : LuaView V) : Except Fault (BitVec 32) :=
  (checkinteger P v).map (BitVec.ofInt 32)

/-- `Stack<float>::get` -/
def getFloat (v : LuaView V) : Except Fault CFloat :=
  match tonumber P v with
  | some n => .ok (n.convert binary32)
  | none => .error (.luaError (.typerror "number"))

/-- `Stack<bool>::get` -/
def getBool : LuaView V → Bool
  | .nil => false
  | .boolean b => b
  | _ => true

/-- `Stack<int>::push` -/
def pushInt (value : BitVec 32) : LuaNumber := Binary.ofInt binary64 value.toInt

/-- `Stack<unsigned int>::push`. The value becomes a `lua_Integer` first, which is
signed and on Win32 no wider than the value. -/
def pushUnsigned (value : BitVec 32) : LuaNumber :=
  match P.build with
  | .win32 => Binary.ofInt binary64 value.toInt
  | .x64 => Binary.ofInt binary64 value.toNat

/-- `Stack<float>::push` -/
def pushFloat (value : CFloat) : LuaNumber := value.convert binary64

end Stack

/-- `strlen`, which has no answer for the null pointer. -/
def strlen : Option Bytes → Except Fault Bytes
  | some s => .ok s
  | none => .error .nullString

/-! ## Tables built by the library -/

/-- A finite acyclic value. Tables the decoder builds are of this kind, and so is
what a script hands to the encoder unless it tied a table into itself. -/
inductive LuaTree
  | boolean (b : Bool)
  | number (n : LuaNumber)
  | string (s : Bytes)
  | table (entries : List (LuaKey × LuaTree))

abbrev LuaTable := List (LuaKey × LuaTree)

namespace LuaTree

def view : LuaTree → LuaView LuaTree
  | .boolean b => .boolean b
  | .number n => .number n
  | .string s => .string s
  | .table entries => .table entries

/-- The Lua state whose values are trees. -/
def state : LuaState := ⟨LuaTree, view⟩

end LuaTree

namespace LuaTable

/-- `lua_rawget` -/
def get (t : LuaTable) (k : LuaKey) : Option LuaTree := (t.find? (·.1 = k)).map (·.2)

/-- `lua_rawset` with a value other than nil. -/
def set : LuaTable → LuaKey → LuaTree → LuaTable
  | [], k, v => [(k, v)]
  | (k', v') :: t, k, v => if k' = k then (k, v) :: t else (k', v') :: set t k v

/-- `lua_rawset` with nil. -/
def erase (t : LuaTable) (k : LuaKey) : LuaTable := t.filter (·.1 ≠ k)

/-- The first border at or above `i`, given that `fuel` entries may lie beyond it. -/
def objlenAux (t : LuaTable) : ℕ → ℕ → ℕ
  | 0, i => i
  | fuel + 1, i => if (t.get (.integer (i + 1))).isSome then objlenAux t fuel (i + 1) else i

/-- `lua_objlen`: an `i` with `t[i]` present, unless it is 0, and `t[i + 1]` absent. -/
def objlen (t : LuaTable) : ℕ := objlenAux t t.length 0

/-- `luaL_ref`, with `FREELIST_REF` 0. -/
def luaLRef (P : Platform) (t : LuaTable) (v : LuaTree) : LuaTable :=
  let ref := match (t.get (.integer 0)).bind fun w => Stack.tonumber P w.view with
    | some n => (BitVec.ofInt 32 (number2integer P.build n)).toInt
    | none => 0
  if ref ≠ 0 then
    let freed := match t.get (.integer ref) with
      | some w => t.set (.integer 0) w
      | none => t.erase (.integer 0)
    freed.set (.integer ref) v
  else t.set (.integer (t.objlen + 1)) v

end LuaTable

end Luapb
