import Luapb.Verification.Decoder.Meaning

/-! # How far the loop reads

The wire type in a tag plays no part in how far the loop reads for a field, the declared
type alone does. `Takes` says which bytes make a value of it, `UsedUp` which bytes the loop
of a message reads to their end. -/

namespace Luapb

open Ieee754 Wire PBStream

variable {M : Type} {P : Platform} {S : CodedInputStream} {garbage : S.Stream → ℤ}
  {schema : Schema M}

/-! ## Values -/

/-- How `ReadValue` reads a type: as a varint, four bytes or a string, or not at all. -/
inductive Reader
  | varint
  | float
  | string
  | nothing

def FieldType.reader : FieldType M → Reader
  | .int32 | .uint32 | .bool | .enum _ => .varint
  | .float => .float
  | .string | .int64 | .uint64 => .string
  | _ => .nothing

/-- The bytes that are read. -/
inductive Takes : Reader → Bytes → Prop
  | varint {bytes n} (h : Varint.decode bytes = some (n, [])) : Takes .varint bytes
  | float {bytes} (h : bytes.length = 4) : Takes .float bytes
  | string {lengthBytes body n} (h : Varint.decode lengthBytes = some (n, []))
      (hsize : n % 2 ^ 32 = body.length) (hlt : body.length < 2 ^ 31) :
      Takes .string (lengthBytes ++ body)
  | nothing : Takes .nothing []

/-- Where a read that succeeds ends. -/
def Reader.after (v : StreamView) : Reader → Option StreamView
  | .varint => v.readVarint.map Prod.snd
  | .float => v.readFloat.map Prod.snd
  | .string => v.readString.map Prod.snd
  | .nothing => some v

namespace StreamView

variable {v w : StreamView}

theorem map_readVarintAs {α : Type} (f : ℕ → α) (v : StreamView) :
    (v.readVarintAs f).map Prod.snd = v.readVarint.map Prod.snd := by
  rw [readVarintAs, Option.map_map]
  rfl

theorem readFloat_split {x : CFloat} (h : v.readFloat = some (x, w)) :
    4 ≤ v.unread.length ∧ w = v.advance 4 := by
  rcases Option.map_eq_some_iff.mp h with ⟨p, hread, hp⟩
  exact ⟨four_le_of_readFixed32 hread, (Prod.mk.inj hp).2.symm⟩

theorem readString_split {body : Bytes} (h : v.readString = some (body, w)) :
    ∃ lengthBytes n rest, v.unread = lengthBytes ++ (body ++ rest) ∧
      Varint.decode lengthBytes = some (n, []) ∧ n % 2 ^ 32 = body.length ∧
      body.length < 2 ^ 31 ∧ w = v.advance (lengthBytes ++ body).length := by
  rcases Option.bind_eq_some_iff.mp h with ⟨⟨n, u⟩, hread, hp⟩
  rcases readVarint_split hread with ⟨lengthBytes, rest, hunread, hlength, rfl⟩
  rcases Option.ite_none_right_eq_some.mp hp with ⟨hlt, hbytes⟩
  simp only at hlt hbytes
  rcases Option.ite_none_right_eq_some.mp hbytes with ⟨hle, hbytes⟩
  have hrest := unread_advance_append hunread
  rw [hrest] at hle hbytes
  rcases Prod.mk.inj (Option.some.inj hbytes) with ⟨rfl, rfl⟩
  have hbody : (rest.take (n % 2 ^ 32)).length = n % 2 ^ 32 := List.length_take_of_le hle
  refine ⟨lengthBytes, n, rest.drop (n % 2 ^ 32), ?_, hlength, hbody.symm, ?_, ?_⟩
  · rw [List.take_append_drop, hunread]
  · rwa [hbody]
  · rw [List.length_append, hbody]
    simp only [advance, Nat.add_assoc]

end StreamView

/-- A read ends behind the bytes it takes. -/
theorem Reader.after_eq_some_iff {reader : Reader} {v w : StreamView} :
    reader.after v = some w ↔ ∃ payload rest, v.unread = payload ++ rest ∧ Takes reader payload ∧
      w = v.advance payload.length := by
  constructor
  · intro h
    cases reader with
    | varint =>
        rcases Option.map_eq_some_iff.mp h with ⟨⟨n, u⟩, hread, rfl⟩
        rcases StreamView.readVarint_split hread with ⟨bytes, rest, hunread, hbytes, rfl⟩
        exact ⟨bytes, rest, hunread, .varint hbytes, rfl⟩
    | float =>
        rcases Option.map_eq_some_iff.mp h with ⟨⟨x, u⟩, hread, rfl⟩
        rcases StreamView.readFloat_split hread with ⟨hlen, rfl⟩
        have htake : (v.unread.take 4).length = 4 := List.length_take_of_le hlen
        refine ⟨v.unread.take 4, v.unread.drop 4, (List.take_append_drop _ _).symm,
          .float htake, ?_⟩
        rw [htake]
    | string =>
        rcases Option.map_eq_some_iff.mp h with ⟨⟨body, u⟩, hread, rfl⟩
        rcases StreamView.readString_split hread with
          ⟨lengthBytes, n, rest, hunread, hlength, hsize, hlt, rfl⟩
        refine ⟨lengthBytes ++ body, rest, ?_, .string hlength hsize hlt, rfl⟩
        rw [hunread, List.append_assoc]
    | nothing => exact ⟨[], v.unread, rfl, .nothing, (Option.some.inj h).symm⟩
  · rintro ⟨payload, rest, hunread, htakes, rfl⟩
    cases htakes with
    | varint h => simp [after, StreamView.readVarint_append hunread h]
    | float h =>
        match payload, h with
        | [a, b, c, d], _ => simp [after, StreamView.readFloat, hunread, readFixed32]
    | string h hsize hlt =>
        rw [List.append_assoc] at hunread
        simp [after, StreamView.readString_append hunread h hsize hlt]
    | nothing => rfl

/-- The reads that `ReadValue` makes, with what they are documented to find. -/
inductive ReadOp (S : CodedInputStream) : Reader → {α : Type} →
    (S.Stream → α → Read S.Stream α) → (StreamView → Option (α × StreamView)) → Prop
  | int32 : ReadOp S .varint S.readInt32 (StreamView.readVarintAs (BitVec.ofNat 32))
  | uint32 : ReadOp S .varint S.readUInt32 (StreamView.readVarintAs (BitVec.ofNat 32))
  | enum : ReadOp S .varint S.readEnum (StreamView.readVarintAs (BitVec.ofNat 32))
  | bool : ReadOp S .varint S.readBool (StreamView.readVarintAs fun n => decide (n % 2 ^ 64 ≠ 0))
  | float : ReadOp S .float S.readFloat StreamView.readFloat
  | string : ReadOp S .string S.readString StreamView.readString

section

variable {reader : Reader} {α : Type} {read : S.Stream → α → Read S.Stream α}
  {spec : StreamView → Option (α × StreamView)}

theorem ReadOp.follows (h : ReadOp S reader read spec) (hS : S.Reads) : S.Follows read spec := by
  cases h with
  | int32 => exact hS.readInt32
  | uint32 => exact hS.readUInt32
  | enum => exact hS.readEnum
  | bool => exact hS.readBool
  | float => exact hS.readFloat
  | string => exact hS.readString

theorem ReadOp.map_spec (h : ReadOp S reader read spec) (v : StreamView) :
    (spec v).map Prod.snd = reader.after v := by
  cases h with
  | int32 | uint32 | enum | bool => exact StreamView.map_readVarintAs _ v
  | float | string => rfl

end

/-- What a read finds in the bytes it takes, wherever they stand. -/
theorem ReadOp.takes {reader : Reader} {α : Type} {read : S.Stream → α → Read S.Stream α}
    {spec : StreamView → Option (α × StreamView)} (h : ReadOp S reader read spec) {payload : Bytes}
    (htakes : Takes reader payload) : ∃ a, ∀ (v : StreamView) rest, v.unread = payload ++ rest →
      spec v = some (a, v.advance payload.length) := by
  cases htakes with
  | varint hbytes =>
      cases h with
      | int32 | uint32 | enum | bool =>
          exact ⟨_, fun v rest hv => StreamView.readVarintAs_append _ hv hbytes⟩
  | float hlen =>
      cases h with
      | float =>
          match payload, hlen with
          | [a, b, c, d], _ =>
              refine ⟨Binary.ofBits binary32
                (a.toNat + b.toNat * 2 ^ 8 + c.toNat * 2 ^ 16 + d.toNat * 2 ^ 24),
                fun v rest hv => ?_⟩
              rw [StreamView.readFloat, hv]
              rfl
  | @string lengthBytes body _ hlength hsize hlt =>
      cases h with
      | string =>
          refine ⟨body, fun v rest hv => ?_⟩
          rw [List.append_assoc] at hv
          exact StreamView.readString_append hv hlength hsize hlt
  | nothing => cases h

/-- `ReadValue` makes the read of the declared type, if it has one, and fills in what it finds. -/
theorem readValue_op (tab : LuaTable) (fd : FieldDescriptor M) :
    (fd.type.reader = .nothing ∧
        ∀ s, (readValue P S s tab fd).stream = s ∧ (readValue P S s tab fd).tab = tab) ∨
      ∃ (α : Type) (read : S.Stream → α → Read S.Stream α)
        (spec : StreamView → Option (α × StreamView)) (x : α) (fill : α → LuaTable),
        ReadOp S fd.type.reader read spec ∧
          ∀ s, (readValue P S s tab fd).stream = (read s x).stream ∧
            (readValue P S s tab fd).tab = fill (read s x).value := by
  simp only [readValue]
  cases fd.type with
  | float =>
      exact .inr ⟨_, _, _, _, fun v => fillValue P tab fd (.number (Stack.pushFloat v)), .float,
        fun s => ⟨rfl, rfl⟩⟩
  | int32 =>
      exact .inr ⟨_, _, _, _, fun v => fillValue P tab fd (.number (Stack.pushInt v)), .int32,
        fun s => ⟨rfl, rfl⟩⟩
  | uint32 =>
      exact .inr ⟨_, _, _, _, fun v => fillValue P tab fd (.number (Stack.pushUnsigned P v)),
        .uint32, fun s => ⟨rfl, rfl⟩⟩
  | bool =>
      exact .inr ⟨_, _, _, _, fun v => fillValue P tab fd (.boolean v), .bool,
        fun s => ⟨rfl, rfl⟩⟩
  | string | int64 | uint64 =>
      exact .inr ⟨_, _, _, _, fun v => fillValue P tab fd (.string v), .string,
        fun s => ⟨rfl, rfl⟩⟩
  | enum enumType =>
      refine .inr ⟨_, _, _, 0, fun v => ((enumType.findValueByNumber v).map fun evd =>
        fillValue P tab fd (.string evd.name)).getD tab, .enum, fun s => ?_⟩
      simp only
      split
      · rename_i hfind
        rw [hfind]
        exact ⟨rfl, rfl⟩
      · rename_i hfind
        rw [hfind]
        exact ⟨rfl, rfl⟩
  | _ => exact .inl ⟨rfl, fun s => ⟨rfl, rfl⟩⟩

/-- `ReadValue` moves behind the bytes that make a value, and what it fills in is theirs. -/
theorem readValue_takes (hS : S.Reads) {fd : FieldDescriptor M} {payload : Bytes}
    (h : Takes fd.type.reader payload) (tab : LuaTable) :
    ∃ tab', ∀ s rest, S.Readable s → (S.view s).unread = payload ++ rest →
      (readValue P S s tab fd).tab = tab' ∧
        S.view (readValue P S s tab fd).stream = (S.view s).advance payload.length := by
  rcases readValue_op (P := P) (S := S) tab fd with
    ⟨hnothing, hstay⟩ | ⟨α, read, spec, x, fill, hop, hread⟩
  · rw [hnothing] at h
    cases h
    refine ⟨tab, fun s rest _ _ => ⟨(hstay s).2, ?_⟩⟩
    rw [(hstay s).1]
    rfl
  · rcases hop.takes h with ⟨a, ha⟩
    refine ⟨fill a, fun s rest hs hunread => ?_⟩
    rcases (hop.follows hS).some hs x (ha _ rest hunread) with ⟨-, hvalue, hview⟩
    rw [(hread s).1, (hread s).2, hvalue]
    exact ⟨rfl, hview⟩

/-! ## Whole loops -/

/-- The bytes that the loop of a message reads up to the limit behind them. What `ReadValue` does
not read is nothing, whatever its record holds. -/
inductive UsedUp (schema : Schema M) : ℕ → M → Bytes → Prop
  | nil {budget msgD} : UsedUp schema budget msgD []
  | unknown {budget msgD tagBytes n rest} (htag : Varint.decode tagBytes = some (n, []))
      (hnum : n % 2 ^ 32 / 8 ≠ 0) (hfind : (schema msgD).findFieldByNumber (n % 2 ^ 32 / 8) = none)
      (hrest : UsedUp schema budget msgD rest) : UsedUp schema budget msgD (tagBytes ++ rest)
  | value {budget msgD fd tagBytes n payload rest} (hmem : fd ∈ (schema msgD).field)
      (htag : Varint.decode tagBytes = some (n, [])) (hnumber : n % 2 ^ 32 / 8 = fd.number)
      (htype : fd.type.messageType? = none) (htakes : Takes fd.type.reader payload)
      (hrest : UsedUp schema budget msgD rest) :
      UsedUp schema budget msgD (tagBytes ++ (payload ++ rest))
  | message {budget msgD fd messageType tagBytes n lengthBytes size body rest}
      (hmem : fd ∈ (schema msgD).field) (htag : Varint.decode tagBytes = some (n, []))
      (hnumber : n % 2 ^ 32 / 8 = fd.number) (htype : fd.type = .message messageType)
      (hlength : Varint.decode lengthBytes = some (size, []))
      (hsize : messageSize size (body ++ rest).length = body.length)
      (hbody : UsedUp schema budget messageType body)
      (hrest : UsedUp schema (budget + 1) msgD rest) :
      UsedUp schema (budget + 1) msgD (tagBytes ++ (lengthBytes ++ (body ++ rest)))

section

variable (garbage) (hS : S.Documented) {room n : ℕ} {msgD : M} {fd : FieldDescriptor M}
  {tagBytes payload : Bytes} (hmem : fd ∈ (schema msgD).field)
  (htag : Varint.decode tagBytes = some (n, [])) (hnumber : n % 2 ^ 32 / 8 = fd.number)

include hS hmem htag hnumber

/-- An iteration on a value that is read, or on one of a type that is not read. -/
theorem iterates_value (htype : fd.type.messageType? = none) (htakes : Takes fd.type.reader payload)
    (tab : LuaTable) :
    ∃ tab', ∀ depth s rest, LoopHead S room s (tagBytes ++ (payload ++ rest)) →
      ∃ s', Iterates P S garbage schema depth msgD s tab s' tab' ∧
        S.view s' = (S.view s).advance (tagBytes ++ payload).length := by
  rcases readValue_takes (P := P) hS.toReads htakes tab with ⟨tab', hread⟩
  refine ⟨tab', fun depth s rest head => ?_⟩
  rcases readFieldNumber_declared hS.toReads hmem head htag hnumber with
    ⟨hnum, hfind, hview, head₁⟩
  rcases hread _ rest head₁.readable head₁.unread_eq with ⟨rfl, hview₁⟩
  refine ⟨_, .value hnum hfind htype, ?_⟩
  simp only [hview₁, hview, StreamView.advance, Nat.add_assoc, List.length_append]

end

/-- What the loop makes of bytes that are all that is left, wherever they stand. -/
def Decodes (P : Platform) (S : CodedInputStream) (garbage : S.Stream → ℤ) (schema : Schema M)
    (room : ℕ) (msgD : M) (tab : LuaTable) (bytes : Bytes) (tab' : LuaTable) : Prop :=
  ∀ s depth, LoopHead S room s bytes → ∃ run,
    DecodeDerivation P S garbage schema depth s msgD tab run ∧ run.tab = tab' ∧
      S.view run.stream = { (S.view s).advance bytes.length with legitimateEnd := true }

/-- Behind an iteration the run goes on. -/
theorem Decodes.of_iterates {room depth : ℕ} {msgD : M} {s s' : S.Stream}
    {tab tab' tab'' : LuaTable} {bytes rest : Bytes} {b : Bool}
    (hrest : Decodes P S garbage schema room msgD tab' rest tab'')
    (h : Iterates P S garbage schema depth msgD s tab s' tab')
    (hview : S.view s' = { (S.view s).advance bytes.length with legitimateEnd := b })
    (head : LoopHead S room s (bytes ++ rest)) :
    ∃ run, DecodeDerivation P S garbage schema depth s msgD tab run ∧ run.tab = tab'' ∧
      S.view run.stream =
        { (S.view s).advance (bytes ++ rest).length with legitimateEnd := true } := by
  rcases hrest s' depth (head.advance hview) with ⟨run, hrun, htab, hend⟩
  rcases h.derivation hrun with ⟨log, hlog⟩
  refine ⟨_, hlog, htab, ?_⟩
  simp only [hend, hview, StreamView.advance, Nat.add_assoc, List.length_append]

variable (garbage) in
/-- The loop reads such bytes to their end, and what it fills in is theirs. -/
theorem UsedUp.decodes (hS : S.Documented) {room : ℕ} {msgD : M} {bytes : Bytes}
    (h : UsedUp schema room msgD bytes) (tab : LuaTable) :
    ∃ tab', Decodes P S garbage schema room msgD tab bytes tab' := by
  induction h generalizing tab with
  | nil =>
      refine ⟨tab, fun s depth head => ?_⟩
      rcases readFieldNumber_end hS.toReads head.readable head.unread_eq with ⟨hzero, hend⟩
      exact ⟨_, .stop hzero, rfl, hend⟩
  | unknown htag hnum hfind _ ih =>
      rcases ih tab with ⟨tab', hrest⟩
      refine ⟨tab', fun s depth head => ?_⟩
      rcases readFieldNumber_decode hS.toReads head.readable head.unread_eq htag hnum with
        ⟨hnumber, hview⟩
      exact hrest.of_iterates (.unknown (hnumber ▸ hnum) (hnumber ▸ hfind)) hview head
  | value hmem htag hnumber htype htakes _ ih =>
      rcases iterates_value (P := P) garbage hS hmem htag hnumber htype htakes tab with
        ⟨tab₁, hvalue⟩
      rcases ih tab₁ with ⟨tab', hrest⟩
      refine ⟨tab', fun s depth head => ?_⟩
      rcases hvalue depth s _ head with ⟨s', hiterates, hview⟩
      rw [← List.append_assoc] at head ⊢
      exact hrest.of_iterates hiterates hview head
  | message hmem htag hnumber htype hlength hsize _ _ ihb ih =>
      rcases ihb [] with ⟨value, hbody⟩
      rcases ih _ with ⟨tab', hrest⟩
      refine ⟨tab', fun s depth head => ?_⟩
      rcases iterates_message (Q := (· = value)) hS hmem htype head htag hnumber hlength hsize
        (fun s' head' => hbody s' (depth + 1) head') tab with ⟨s', _, rfl, hiterates, hview⟩
      rw [← List.append_assoc, ← List.append_assoc] at head ⊢
      rw [← List.append_assoc] at hview
      exact hrest.of_iterates hiterates hview head

/-! ## Single records -/

/-- The payloads that one iteration reads to their end, whatever follows, with `room` levels of
nesting left: a value of the declared type, or the length of a body that is used up. -/
inductive StepsOver (schema : Schema M) : ℕ → FieldType M → Bytes → Prop
  | value {room type payload} (htype : type.messageType? = none)
      (htakes : Takes type.reader payload) : StepsOver schema room type payload
  | message {room messageType lengthBytes size body}
      (hlength : Varint.decode lengthBytes = some (size, []))
      (hsize : size % 2 ^ 32 = body.length) (hlt : body.length < 2 ^ 31)
      (hbody : UsedUp schema room messageType body) :
      StepsOver schema (room + 1) (.message messageType) (lengthBytes ++ body)

theorem LoopHead.mono {budget room : ℕ} {s : S.Stream} {bytes : Bytes}
    (h : LoopHead S budget s bytes) (hle : room ≤ budget) : LoopHead S room s bytes :=
  ⟨h.readable, h.unread_eq, (Nat.add_le_add_left hle _).trans h.depth_le⟩

variable (garbage) in
/-- An iteration on such a record ends behind it. -/
theorem StepsOver.iterates (hS : S.Documented) {room n : ℕ} {msgD : M} {fd : FieldDescriptor M}
    {tagBytes payload : Bytes} (h : StepsOver schema room fd.type payload)
    (hmem : fd ∈ (schema msgD).field) (htag : Varint.decode tagBytes = some (n, []))
    (hnumber : n % 2 ^ 32 / 8 = fd.number) (tab : LuaTable) :
    ∃ tab', ∀ depth s rest, LoopHead S room s (tagBytes ++ (payload ++ rest)) →
      ∃ s', Iterates P S garbage schema depth msgD s tab s' tab' ∧
        S.view s' = { (S.view s).advance (tagBytes ++ payload).length with
          legitimateEnd := (S.view s).legitimateEnd && fd.type.messageType?.isNone } := by
  generalize htype : fd.type = type at h
  cases h with
  | value hscalar htakes =>
      subst htype
      rcases iterates_value (P := P) garbage hS hmem htag hnumber hscalar htakes tab with
        ⟨tab', hvalue⟩
      refine ⟨tab', fun depth s rest head => ?_⟩
      rcases hvalue depth s rest head with ⟨s', hiterates, hview⟩
      refine ⟨s', hiterates, ?_⟩
      rw [hscalar, Option.isNone_none, Bool.and_true]
      exact hview
  | @message room messageType lengthBytes size body hlength hsize hlt hbody =>
      rcases hbody.decodes (P := P) garbage hS [] with ⟨value, hdecodes⟩
      refine ⟨fillValue P tab fd (.table value), fun depth s rest head => ?_⟩
      rw [List.append_assoc] at head
      rcases iterates_message (Q := (· = value)) hS hmem htype head htag hnumber hlength
        (messageSize_append hsize hlt rest)
        (fun s' head' => hdecodes s' (depth + 1) head') tab with ⟨s', _, rfl, hiterates, hview⟩
      refine ⟨s', hiterates, ?_⟩
      rw [show FieldType.messageType? (.message messageType) = some messageType from rfl,
        Option.isNone_some, Bool.and_false]
      exact hview

/-! ## Stretches of a message -/

/-- Bytes that the loop reads piece by piece, whatever follows: tags of fields that are not
declared, and records of declared fields that are stepped over. -/
inductive StepsThrough (schema : Schema M) (room : ℕ) (msgD : M) : Bytes → Prop
  | nil : StepsThrough schema room msgD []
  | unknown {tagBytes n rest} (htag : Varint.decode tagBytes = some (n, []))
      (hnum : n % 2 ^ 32 / 8 ≠ 0) (hfind : (schema msgD).findFieldByNumber (n % 2 ^ 32 / 8) = none)
      (hrest : StepsThrough schema room msgD rest) :
      StepsThrough schema room msgD (tagBytes ++ rest)
  | record {fd tagBytes n payload rest} (hmem : fd ∈ (schema msgD).field)
      (htag : Varint.decode tagBytes = some (n, [])) (hnumber : n % 2 ^ 32 / 8 = fd.number)
      (hover : StepsOver schema room fd.type payload)
      (hrest : StepsThrough schema room msgD rest) :
      StepsThrough schema room msgD (tagBytes ++ (payload ++ rest))

variable (garbage) in
/-- The loop comes behind them, and what it fills in is theirs. -/
theorem StepsThrough.iterations (hS : S.Documented) {room : ℕ} {msgD : M} {bytes : Bytes}
    (h : StepsThrough schema room msgD bytes) (tab : LuaTable) :
    ∃ tab', ∀ depth s rest, LoopHead S room s (bytes ++ rest) →
      (S.view s).legitimateEnd = false →
      ∃ s', Iterations P S garbage schema depth msgD s tab s' tab' ∧
        S.view s' = (S.view s).advance bytes.length := by
  induction h generalizing tab with
  | nil => exact ⟨tab, fun depth s rest _ _ => ⟨s, .refl, rfl⟩⟩
  | unknown htag hnum hfind _ ih =>
      rcases ih tab with ⟨tab', hrest⟩
      refine ⟨tab', fun depth s rest head hend => ?_⟩
      rw [List.append_assoc] at head
      rcases readFieldNumber_decode hS.toReads head.readable head.unread_eq htag hnum with
        ⟨hnumber, hview⟩
      rcases hrest depth _ rest (head.advance hview) (by rw [hview]; exact hend) with
        ⟨s', hiterations, hview'⟩
      refine ⟨s', .step (.unknown (hnumber ▸ hnum) (hnumber ▸ hfind)) hiterations, ?_⟩
      simp only [hview', hview, StreamView.advance, Nat.add_assoc, List.length_append]
  | record hmem htag hnumber hover _ ih =>
      rcases hover.iterates (P := P) garbage hS hmem htag hnumber tab with
        ⟨tab₁, hrecord⟩
      rcases ih tab₁ with ⟨tab', hrest⟩
      refine ⟨tab', fun depth s rest head hend => ?_⟩
      simp only [List.append_assoc] at head
      rcases hrecord depth s _ head with ⟨s₁, hiterates, hview⟩
      rw [hend, Bool.false_and] at hview
      rw [← List.append_assoc] at head ⊢
      rcases hrest depth s₁ rest (head.advance hview) (by rw [hview]) with
        ⟨s', hiterations, hview'⟩
      refine ⟨s', .step hiterates hiterations, ?_⟩
      simp only [hview', hview, StreamView.advance, Nat.add_assoc, List.length_append, hend]

end Luapb
