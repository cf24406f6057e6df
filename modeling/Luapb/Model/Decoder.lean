import Luapb.Model.Stream

/-! # Decoding

`RawDecode` is a loop that calls itself for message fields. `fuel` bounds the loop
iterations along any chain of calls. A run also returns a log of what it did, which
the program does not keep: the results about runs are stated through it. -/

namespace Luapb

open PBStream

/-- What a run of `RawDecode` does at nesting depth `depth`, the outermost call
being at depth 1. -/
inductive Event (S : CodedInputStream)
  /-- `RawDecode` is entered with the stream in state `s`. -/
  | call (depth : ℕ) (s : S.Stream)
  /-- An iteration of the loop begins. -/
  | iteration (depth : ℕ) (s : S.Stream)
  /-- `ReadValue` stored a value; `ok` is what its read reported. -/
  | stored (ok : Bool)
  /-- A message field was handled: `BeginMessage` was called in state `before` and
  returned `begun`, leaving `limit` in the variable; `EndMessage` was called in state
  `inner` and left the stream in state `after`. -/
  | message (before : S.Stream) (begun : Bool) (limit : Option ℤ) (inner after : S.Stream)

/-- A finished call of `RawDecode`. -/
structure Run (S : CodedInputStream) where
  tab : LuaTable
  stream : S.Stream
  log : List (Event S)

section

variable {M : Type} (P : Platform) (S : CodedInputStream) (garbage : S.Stream → ℤ)
  (schema : Schema M)

/-- The loop of `RawDecode` on a table filled so far. `garbage s` is what the
uninitialised variable `limit` holds when `BeginMessage` is called in state `s`. -/
def decodeLoop : ℕ → ℕ → S.Stream → M → LuaTable → Option (Run S)
  | 0, _, _, _, _ => none
  | fuel + 1, depth, s, msgD, tab =>
      let r := readFieldNumber S s
      if r.1 = 0 then some ⟨tab, r.2, [.iteration depth s]⟩
      else
        match (schema msgD).findFieldByNumber r.1 with
        | none => do
            let rest ← decodeLoop fuel depth r.2 msgD tab
            some ⟨rest.tab, rest.stream, .iteration depth s :: rest.log⟩
        | some fd =>
            match fd.type.messageType? with
            | some messageType => do
                let b := beginMessage S r.2 none
                let value ← decodeLoop fuel (depth + 1) b.2.2 messageType []
                let e := endMessage S (garbage r.2) value.stream b.2.1
                let rest ← decodeLoop fuel depth e.2 msgD
                  (fillValue P tab fd (.table value.tab))
                some ⟨rest.tab, rest.stream, .iteration depth s ::
                  .call (depth + 1) b.2.2 :: value.log ++
                  .message r.2 b.1 b.2.1 value.stream e.2 :: rest.log⟩
            | none => do
                let v := readValue P S r.2 tab fd
                let rest ← decodeLoop fuel depth v.stream msgD v.tab
                some ⟨rest.tab, rest.stream, .iteration depth s ::
                  (if v.filled then [.stored v.ok] else []) ++ rest.log⟩

/-- `RawDecode` -/
def rawDecode (fuel depth : ℕ) (s : S.Stream) (msgD : M) : Option (Run S) := do
  let r ← decodeLoop P S garbage schema fuel depth s msgD []
  some ⟨r.tab, r.stream, .call depth s :: r.log⟩

/-- `Decode`. `none` stands for returning no value to Lua. -/
def decode {V : Type} (findMessage : Bytes → Option M) (fuel : ℕ) (name buff : LuaView V) :
    Except Fault (Option (Run S)) := do
  let name ← Stack.checklstring P name
  let buff ← Stack.getString P buff
  match findMessage (cstr name) with
  | none => pure none
  | some msgD =>
      match rawDecode P S garbage schema fuel 1 (S.create buff) msgD with
      | none => throw .outOfFuel
      | some run => pure (some run)

end

end Luapb
