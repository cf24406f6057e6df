import Luapb.Model.Ltable

/-! # References

`luaL_ref` gives a value a number in a table and `luaL_unref` takes the number back. The
numbers that are free form a list through the table itself. A `LuaRef` of LuaBridge keeps its
value in the registry, under such a number of its own. -/

namespace Luapb

namespace LuaH

open Ieee754

/-- The values of a Lua state, numbers among them. -/
structure Values (V : Type) where
  view : V → LuaView V
  number : LuaNumber → V
  view_number : ∀ n, view (number n) = .number n

section

variable {V : Type} (P : Platform) (identity : ℕ → Identity) (S : Values V)

/-- `(int)lua_tointeger` -/
def tointeger (v? : Option V) : ℤ :=
  match v?.bind fun v => Stack.tonumber P (S.view v) with
  | some n => (BitVec.ofInt 32 (number2integer P.build n)).toInt
  | none => 0

/-- `lua_pushinteger` -/
def pushinteger (n : ℤ) : V := S.number (Binary.ofInt binary64 n)

/-- `FREELIST_REF` -/
def freelistRef : ℤ := 0

/-- `LUA_REFNIL` -/
def luaRefnil : ℤ := -1

/-- `luaL_ref` -/
def luaLRef (t : Table V) : Option V → Except Fault (Table V × ℤ)
  | none => .ok (t, luaRefnil)
  | some v => do
      let ref := tointeger P S (← rawgeti identity t freelistRef)
      if ref ≠ 0 then do
        let rest ← rawgeti identity t ref
        let t ← rawseti identity t freelistRef rest
        let t ← rawseti identity t ref (some v)
        pure (t, ref)
      else do
        let ref : ℤ := (← getn identity t) + 1
        let t ← rawseti identity t ref (some v)
        pure (t, ref)

/-- `luaL_unref` -/
def luaLUnref (t : Table V) (ref : ℤ) : Except Fault (Table V) :=
  if 0 ≤ ref then do
    let first ← rawgeti identity t freelistRef
    let t ← rawseti identity t ref first
    rawseti identity t freelistRef (some (pushinteger S ref))
  else .ok t

/-! ## `LuaRef` -/

/-- The registry and the `m_ref` of each `LuaRef` there is. -/
structure LuaRefs (V : Type) where
  registry : Table V
  ref : ℕ → Option ℤ

/-- What happens to the `LuaRef` that is named first. -/
inductive RefOp (V : Type)
  /-- `LuaRef(L, FromStack())` and the constructors from a value -/
  | construct (x : ℕ) (v : Option V)
  /-- `LuaRef(LuaRef const&)` -/
  | copy (x y : ℕ)
  /-- `operator=(LuaRef const&)` -/
  | assign (x y : ℕ)
  /-- `pop`, and `operator=` of a value -/
  | pop (x : ℕ) (v : Option V)
  /-- `~LuaRef()` -/
  | destroy (x : ℕ)

namespace LuaRefs

variable (s : LuaRefs V)

def mRef (x : ℕ) : ℤ := (s.ref x).getD luaRefnil

/-- `push` -/
def push (x : ℕ) : Except Fault (Option V) := rawgeti identity s.registry (s.mRef x)

/-- `m_ref = luaL_ref(m_L, LUA_REGISTRYINDEX)` -/
def setRef (x : ℕ) (v : Option V) : Except Fault (LuaRefs V) := do
  let r ← luaLRef P identity S s.registry v
  pure ⟨r.1, Function.update s.ref x (some r.2)⟩

/-- `luaL_unref(m_L, LUA_REGISTRYINDEX, m_ref)` -/
def unref (x : ℕ) : Except Fault (LuaRefs V) := do
  let registry ← luaLUnref identity S s.registry (s.mRef x)
  pure { s with registry }

def step : RefOp V → Except Fault (LuaRefs V)
  | .construct x v => setRef P identity S s x v
  | .copy x y =>
      -- `createRef`
      if s.mRef y ≠ luaRefnil then do
        let v ← push identity s y
        setRef P identity S s x v
      else pure { s with ref := Function.update s.ref x (some luaRefnil) }
  | .assign x y => do
      let s ← unref identity S s x
      let v ← push identity s y
      setRef P identity S s x v
  | .pop x v => do
      let s ← unref identity S s x
      setRef P identity S s x v
  | .destroy x => do
      let s ← unref identity S s x
      pure { s with ref := Function.update s.ref x none }

end LuaRefs

end

end LuaH

end Luapb
