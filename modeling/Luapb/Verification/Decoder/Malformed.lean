import Luapb.Verification.Decoder.Meaning

/-! # Malformed input

The loop looks at nothing a read reports, so `Decode` returns a table whatever the
bytes are. -/

namespace Luapb

open Wire

variable {M : Type} {P : Platform} {S : CodedInputStream} {garbage : S.Stream → ℤ}
  {schema : Schema M}

/-- Complete sequences of records, at every nesting level. A record with the number of
a message field holds a message if it is length-delimited. -/
inductive WellFormed (schema : Schema M) : ℕ → M → Bytes → Prop
  | nil {budget msgD} : WellFormed schema budget msgD []
  | record {budget msgD tagBytes number t payload rest}
      (htag : Varint.decode tagBytes = some (tag number t, [])) (hpos : 0 < number)
      (hle : number ≤ maxFieldNumber) (hpayload : IsPayload t payload)
      (hplain : t = .lengthDelimited → ∀ fd,
        (schema msgD).findFieldByNumber number = some fd → fd.type.messageType? = none)
      (hrest : WellFormed schema budget msgD rest) :
      WellFormed schema budget msgD (tagBytes ++ (payload ++ rest))
  | message {budget msgD fd messageType tagBytes lengthBytes body rest}
      (hmem : fd ∈ (schema msgD).field) (htype : fd.type = .message messageType)
      (htag : Varint.decode tagBytes = some (tag fd.number .lengthDelimited, []))
      (hlength : Varint.decode lengthBytes = some (body.length, []))
      (hlt : body.length < 2 ^ 31) (hbody : WellFormed schema budget messageType body)
      (hrest : WellFormed schema (budget + 1) msgD rest) :
      WellFormed schema (budget + 1) msgD (tagBytes ++ (lengthBytes ++ (body ++ rest)))

/-- What denotes a table is well formed. -/
theorem Denotes.wellFormed {budget : ℕ} {msgD : M} {tab tab' : LuaTable} {bytes : Bytes}
    (h : Denotes P schema budget msgD tab bytes tab') : WellFormed schema budget msgD bytes := by
  induction h with
  | nil => exact .nil
  | @value budget msgD tab fd tagBytes payload v rest tab' hmem htag hvalue _ ih =>
      refine .record htag fd.number_pos fd.number_le hvalue.isPayload ?_ ih
      intro _ fd' hfind
      rw [Descriptor.findFieldByNumber_of_mem hmem] at hfind
      exact Option.some.inj hfind ▸ hvalue.messageType_eq_none
  | message hmem htype htag hlength hlt _ _ ihv ihr =>
      exact .message hmem htype htag hlength hlt ihv ihr
  | unknown hrecord _ _ ih =>
      refine .record hrecord.tag_eq hrecord.number_pos hrecord.number_le hrecord.isPayload ?_ ih
      intro _ fd hfind
      rw [hrecord.undeclared] at hfind
      cases hfind

/-- A record has a tag and a payload of at least one byte each. -/
theorem WellFormed.length_ne_one {budget : ℕ} {msgD : M} {bytes : Bytes}
    (h : WellFormed schema budget msgD bytes) : bytes.length ≠ 1 := by
  have hpos : ∀ {b : Bytes} {n : ℕ}, Varint.decode b = some (n, []) → 0 < b.length := by
    intro b n hb
    apply List.length_pos_iff.mpr
    rintro rfl
    simp at hb
  cases h with
  | nil => simp
  | record htag _ _ hpayload =>
      have := hpos htag
      have := List.length_pos_iff.mpr hpayload.ne_nil
      simp only [List.length_append]
      omega
  | message _ _ htag hlength =>
      have := hpos htag
      have := hpos hlength
      simp only [List.length_append]
      omega

/-- Asked for a message type that exists, `Decode` returns a table for every malformed
input. -/
theorem decode_malformed (hS : S.Progress) {V : Type} {findMessage : Bytes → Option M}
    {name buff : LuaView V} {n data : Bytes} {msgD : M}
    (hname : Stack.checklstring P name = .ok n) (hfind : findMessage (cstr n) = some msgD)
    (hbuff : Stack.getString P buff = .ok data)
    (_hmalformed : ¬ WellFormed schema S.recursionLimit msgD data)
    {fuel : ℕ} (hfuel : data.length < fuel) :
    ¬ ∀ run, decode P S garbage schema findMessage fuel name buff ≠ .ok (some run) := by
  obtain ⟨run, hrun⟩ : ∃ run, rawDecode P S garbage schema fuel 1 (S.create data) msgD =
      some run := rawDecode_isSome hS hfuel
  intro hreject
  apply hreject run
  rw [decode, Fallible.bind_eq_ok]
  refine ⟨n, hname, Fallible.bind_eq_ok.mpr ⟨data, hbuff, ?_⟩⟩
  simp only [hfind, hrun]
  rfl

/-- The tag of a person's id, with no value behind it. -/
theorem decode_malformed_person :
    ¬ ∀ run, decode (.plain .x64) .reference (fun _ => 0) AddressBook.schema
      AddressBook.findMessage 3 (.string (AddressBook.fullName .person) : LuaView LuaTree)
      (.string [16]) ≠ .ok (some run) :=
  decode_malformed CodedInputStream.reference_documented.toProgress rfl
    (by decide : AddressBook.findMessage (cstr (AddressBook.fullName .person)) = some .person) rfl
    (fun h => h.length_ne_one rfl) (by decide)

/-- There the id becomes 0, which is no value that was read. -/
theorem decode_malformed_default :
    ¬ WellFormed AddressBook.schema 100 .person [16] ∧
      ∃ run, decode (.plain .x64) .reference (fun _ => 0) AddressBook.schema
          AddressBook.findMessage 3 (.string (AddressBook.fullName .person) : LuaView LuaTree)
          (.string [16]) = .ok (some run) ∧
        run.tab = [(.string [105, 100], .number (Stack.pushInt 0))] ∧
        .stored false ∈ run.log :=
  ⟨fun h => h.length_ne_one rfl, _, rfl, rfl, .tail _ (.tail _ (.head _))⟩

end Luapb
