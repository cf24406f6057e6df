import Luapb.Verification.Decoder.Limits
import Luapb.Verification.Decoder.Termination
import Luapb.Verification.Decoder.Unknown

/-! # The meaning of well-formed messages

`Denotes` says which table a sequence of records stands for, each record of a declared
field in the wire type of that field, and each other record one that is passed over.
`RawDecode` computes that table and consumes all of the records. -/

namespace Luapb

open Wire PBStream

variable {M : Type} {P : Platform} {S : CodedInputStream} {garbage : S.Stream → ℤ}
  {schema : Schema M}

/-- `Denotes P schema budget msgD tab bytes tab'`: read into `tab`, the records turn it
into `tab'`, with messages nested no deeper than `budget`. -/
inductive Denotes (P : Platform) (schema : Schema M) :
    ℕ → M → LuaTable → Bytes → LuaTable → Prop
  | nil {budget msgD tab} : Denotes P schema budget msgD tab [] tab
  | value {budget msgD tab fd tagBytes payload v rest tab'} (hmem : fd ∈ (schema msgD).field)
      (htag : Varint.decode tagBytes = some (tag fd.number fd.type.wireType, []))
      (hvalue : ScalarReads P fd.type payload v)
      (hrest : Denotes P schema budget msgD (v.elim tab (fillValue P tab fd)) rest tab') :
      Denotes P schema budget msgD tab (tagBytes ++ (payload ++ rest)) tab'
  | message {budget msgD tab fd messageType tagBytes lengthBytes body value rest tab'}
      (hmem : fd ∈ (schema msgD).field) (htype : fd.type = .message messageType)
      (htag : Varint.decode tagBytes = some (tag fd.number .lengthDelimited, []))
      (hlength : Varint.decode lengthBytes = some (body.length, []))
      (hlt : body.length < 2 ^ 31) (hbody : Denotes P schema budget messageType [] body value)
      (hrest : Denotes P schema (budget + 1) msgD (fillValue P tab fd (.table value)) rest tab') :
      Denotes P schema (budget + 1) msgD tab (tagBytes ++ (lengthBytes ++ (body ++ rest))) tab'

  | unknown {budget msgD tab number t tagBytes payload rest tab'}
      (hrecord : UnknownRecord (schema msgD) number t tagBytes payload)
      (htags : UnknownTags (schema msgD) payload)
      (hrest : Denotes P schema budget msgD tab rest tab') :
      Denotes P schema budget msgD tab (tagBytes ++ (payload ++ rest)) tab'

/-- Records read one after the other. -/
theorem Denotes.append {budget : ℕ} {msgD : M} {tab tab' tab'' : LuaTable} {bytes more : Bytes}
    (h : Denotes P schema budget msgD tab bytes tab')
    (k : Denotes P schema budget msgD tab' more tab'') :
    Denotes P schema budget msgD tab (bytes ++ more) tab'' := by
  induction h with
  | nil => exact k
  | value hmem htag hvalue _ ih =>
      simpa only [List.append_assoc] using .value hmem htag hvalue (ih k)
  | message hmem htype htag hlength hlt hbody _ _ ihr =>
      simpa only [List.append_assoc] using
        .message hmem htype htag hlength hlt hbody (ihr k)
  | unknown hrecord htags _ ih =>
      simpa only [List.append_assoc] using .unknown hrecord htags (ih k)

/-- A payload that a scalar type admits is one of its wire type. -/
theorem ScalarReads.isPayload {type : FieldType M} {payload : Bytes} {v : Option LuaTree}
    (h : ScalarReads P type payload v) : IsPayload type.wireType payload := by
  cases h with
  | float => exact .fixed32 (length_fixed32 _)
  | int32 h => exact .varint h
  | uint32 h => exact .varint h
  | bool h => exact .varint h
  | string h hlt => exact .lengthDelimited (Varint.decode_append h _) hlt
  | enum h => exact .varint h

theorem ScalarReads.messageType_eq_none {type : FieldType M} {payload : Bytes}
    {v : Option LuaTree} (h : ScalarReads P type payload v) : type.messageType? = none := by
  cases h <;> rfl

/-- At the end of a message whose bytes are used up, `EndMessage` returns to the
message around it. -/
theorem endMessage_reads (hS : S.Limits) (g : ℤ) {s s' : S.Stream} {lengthBytes body : Bytes}
    (h : S.view s' = { ((S.view s).entered lengthBytes body).advance body.length with
      legitimateEnd := true }) :
    S.view (endMessage S g s' (some (S.view s).limit)).2 =
      { (S.view s).advance (lengthBytes ++ body).length with legitimateEnd := false } := by
  have hconsumed : S.consumedEntireMessage s' = true := by rw [hS.consumed, h]
  simp [view_endMessage hS g _ hconsumed, h, StreamView.entered, StreamView.advance,
    Nat.add_assoc]

/-- A loop head in front of `bytes`, with `budget` levels of nesting left. -/
structure LoopHead (S : CodedInputStream) (budget : ℕ) (s : S.Stream) (bytes : Bytes) : Prop where
  readable : S.Readable s
  unread_eq : (S.view s).unread = bytes
  depth_le : (S.view s).depth + budget ≤ S.recursionLimit

theorem LoopHead.assoc {budget : ℕ} {s : S.Stream} {bytes more rest : Bytes}
    (h : LoopHead S budget s ((bytes ++ more) ++ rest)) :
    LoopHead S budget s (bytes ++ (more ++ rest)) :=
  ⟨h.readable, h.unread_eq.trans (List.append_assoc _ _ _), h.depth_le⟩

/-- Behind some of the bytes. -/
theorem LoopHead.advance {budget : ℕ} {s s' : S.Stream} {bytes rest : Bytes} {b : Bool}
    (h : LoopHead S budget s (bytes ++ rest))
    (hview : S.view s' = { (S.view s).advance bytes.length with legitimateEnd := b }) :
    LoopHead S budget s' rest := by
  rcases h.readable.advance h.unread_eq hview with ⟨hs', hunread'⟩
  refine ⟨hs', hunread', ?_⟩
  rw [hview]
  exact h.depth_le

section

variable {budget depth n : ℕ} {s : S.Stream} {msgD : M} {fd : FieldDescriptor M}
  {tagBytes rest : Bytes}

/-- The tag of a declared field leads to its descriptor, whatever its wire type. -/
theorem readFieldNumber_declared (hS : S.Reads) (hmem : fd ∈ (schema msgD).field)
    (head : LoopHead S budget s (tagBytes ++ rest))
    (htag : Varint.decode tagBytes = some (n, [])) (hnumber : n % 2 ^ 32 / 8 = fd.number) :
    (readFieldNumber S s).1 ≠ 0 ∧
      (schema msgD).findFieldByNumber (readFieldNumber S s).1 = some fd ∧
      S.view (readFieldNumber S s).2 = (S.view s).advance tagBytes.length ∧
      LoopHead S budget (readFieldNumber S s).2 rest := by
  rcases readFieldNumber_decode hS head.readable head.unread_eq htag
    (hnumber ▸ fd.number_pos.ne') with ⟨hread, hview⟩
  rw [hread, hnumber]
  exact ⟨fd.number_pos.ne', Descriptor.findFieldByNumber_of_mem hmem, hview, head.advance hview⟩

variable {messageType : M} {lengthBytes body : Bytes} {size : ℕ}

/-- A message is read one level deeper, up to a limit behind its body. -/
theorem LoopHead.enter (hS : S.Documented) (head : LoopHead S (budget + 1) s
      (lengthBytes ++ (body ++ rest)))
    (hlength : Varint.decode lengthBytes = some (size, []))
    (hsize : messageSize size (body ++ rest).length = body.length) :
    (beginMessage S s none).2.1 = some (S.view s).limit ∧
      S.view (beginMessage S s none).2.2 = (S.view s).entered lengthBytes body ∧
      LoopHead S budget (beginMessage S s none).2.2 body := by
  have hdepth := head.depth_le
  rcases beginMessage_reads hS head.readable head.unread_eq hlength hsize (by omega) with
    ⟨hlimit, hview⟩
  rcases head.readable.entered head.unread_eq hview with ⟨hs', hunread'⟩
  refine ⟨hlimit, hview, hs', hunread', ?_⟩
  rw [hview]
  simp only [StreamView.entered]
  omega

/-- An iteration on a message whose body is used up ends behind it. -/
theorem iterates_message (hS : S.Documented) (hmem : fd ∈ (schema msgD).field)
    (htype : fd.type = .message messageType)
    (head : LoopHead S (budget + 1) s (tagBytes ++ (lengthBytes ++ (body ++ rest))))
    (htag : Varint.decode tagBytes = some (n, [])) (hnumber : n % 2 ^ 32 / 8 = fd.number)
    (hlength : Varint.decode lengthBytes = some (size, []))
    (hsize : messageSize size (body ++ rest).length = body.length) {Q : LuaTable → Prop}
    (hbody : ∀ s', LoopHead S budget s' body → ∃ run,
      DecodeDerivation P S garbage schema (depth + 1) s' messageType [] run ∧ Q run.tab ∧
        S.view run.stream = { (S.view s').advance body.length with legitimateEnd := true })
    (tab : LuaTable) :
    ∃ s' value, Q value ∧
      Iterates P S garbage schema depth msgD s tab s' (fillValue P tab fd (.table value)) ∧
      S.view s' = { (S.view s).advance (tagBytes ++ (lengthBytes ++ body)).length with
        legitimateEnd := false } := by
  rcases readFieldNumber_declared hS.toReads hmem head htag hnumber with
    ⟨hnum, hfind, hview₁, head₁⟩
  rcases head₁.enter hS hlength hsize with ⟨hlimit, hview₂, head₂⟩
  rcases hbody _ head₂ with ⟨inner, hinner, hvalue, hview₃⟩
  rw [hview₂] at hview₃
  have hview₄ := endMessage_reads hS.toLimits (garbage (readFieldNumber S s).2) hview₃
  rw [← hlimit] at hview₄
  refine ⟨_, inner.tab, hvalue, .message hnum hfind (by rw [htype]; rfl) hinner, ?_⟩
  simp only [hview₄, hview₁, StreamView.advance, Nat.add_assoc, List.length_append]

end

/-- Where the loop stands in front of the bytes that are unread, it ends as it does from
behind them with what they denote. -/
def Continues (P : Platform) (S : CodedInputStream) (garbage : S.Stream → ℤ) (schema : Schema M)
    (msgD : M) (depth : ℕ) (s : S.Stream) (tab : LuaTable) (bytes : Bytes) (tab' : LuaTable) :
    Prop :=
  ∃ s' legitimateEnd,
    S.view s' = { (S.view s).advance bytes.length with legitimateEnd := legitimateEnd } ∧
    ∀ run, DecodeDerivation P S garbage schema depth s' msgD tab' run →
      ∃ run', DecodeDerivation P S garbage schema depth s msgD tab run' ∧ run'.tab = run.tab ∧
        run'.stream = run.stream

/-- Where the bytes are all that is left, the loop stops behind them. -/
theorem Continues.decodes (hS : S.Documented) {msgD : M} {depth : ℕ} {s : S.Stream}
    {tab tab' : LuaTable} {bytes : Bytes}
    (h : Continues P S garbage schema msgD depth s tab bytes tab') (hs : S.Readable s)
    (hunread : (S.view s).unread = bytes) :
    ∃ run, DecodeDerivation P S garbage schema depth s msgD tab run ∧ run.tab = tab' ∧
      S.view run.stream = { (S.view s).advance bytes.length with legitimateEnd := true } := by
  rcases h with ⟨s', b, hview, hcontinue⟩
  rw [← List.append_nil bytes] at hunread
  rcases hs.advance hunread hview with ⟨hs', hunread'⟩
  rcases readFieldNumber_end hS.toReads hs' hunread' with ⟨hzero, hend⟩
  rcases hcontinue _ (.stop hzero) with ⟨run, hrun, htab, hstream⟩
  refine ⟨run, hrun, htab, ?_⟩
  rw [hstream, hend, hview]

/-- In front of the bytes, whatever follows them, the loop gets behind them with `tab'`. -/
def LeadsTo (P : Platform) (S : CodedInputStream) (garbage : S.Stream → ℤ) (schema : Schema M)
    (budget : ℕ) (msgD : M) (tab : LuaTable) (bytes : Bytes) (tab' : LuaTable) : Prop :=
  ∀ s more depth, S.Readable s → (S.view s).unread = bytes ++ more →
    (S.view s).depth + budget ≤ S.recursionLimit →
    Continues P S garbage schema msgD depth s tab bytes tab'

theorem LeadsTo.nil {budget : ℕ} {msgD : M} {tab : LuaTable} :
    LeadsTo P S garbage schema budget msgD tab [] tab :=
  fun s _ _ _ _ _ => ⟨s, (S.view s).legitimateEnd, rfl, fun run hrun => ⟨run, hrun, rfl, rfl⟩⟩

/-- Where they are all that is left, the loop stops behind them. -/
theorem LeadsTo.decodes (hS : S.Documented) {budget : ℕ} {msgD : M} {tab tab' : LuaTable}
    {bytes : Bytes} (h : LeadsTo P S garbage schema budget msgD tab bytes tab') {s : S.Stream}
    (head : LoopHead S budget s bytes) (depth : ℕ) :
    ∃ run, DecodeDerivation P S garbage schema depth s msgD tab run ∧ run.tab = tab' ∧
      S.view run.stream = { (S.view s).advance bytes.length with legitimateEnd := true } :=
  (h s [] depth head.readable (head.unread_eq.trans (List.append_nil bytes).symm)
    head.depth_le).decodes hS head.readable head.unread_eq

theorem LeadsTo.append {budget : ℕ} {msgD : M} {tab tab' tab'' : LuaTable} {bytes more : Bytes}
    (h : LeadsTo P S garbage schema budget msgD tab bytes tab')
    (k : LeadsTo P S garbage schema budget msgD tab' more tab'') :
    LeadsTo P S garbage schema budget msgD tab (bytes ++ more) tab'' := by
  intro s after depth hs hunread hdepth
  rw [List.append_assoc] at hunread
  rcases h s (more ++ after) depth hs hunread hdepth with ⟨s', b, hview, hcontinue⟩
  rcases hs.advance hunread hview with ⟨hs', hunread'⟩
  have hdepth' : (S.view s').depth + budget ≤ S.recursionLimit := by
    rw [hview]
    exact hdepth
  rcases k s' after depth hs' hunread' hdepth' with ⟨s'', b', hview', hcontinue'⟩
  refine ⟨s'', b', ?_, ?_⟩
  · simp [hview', hview, StreamView.advance, Nat.add_assoc]
  · intro run hrun
    rcases hcontinue' run hrun with ⟨run', hder, htab, hstream⟩
    rcases hcontinue run' hder with ⟨run'', hder', htab', hstream'⟩
    exact ⟨run'', hder', htab'.trans htab, hstream'.trans hstream⟩

/-- An iteration that ends behind the bytes. -/
theorem Iterates.continues {msgD : M} {depth : ℕ} {s s' : S.Stream} {tab tab' : LuaTable}
    {bytes : Bytes} {b : Bool} (h : Iterates P S garbage schema depth msgD s tab s' tab')
    (hview : S.view s' = { (S.view s).advance bytes.length with legitimateEnd := b }) :
    Continues P S garbage schema msgD depth s tab bytes tab' := by
  refine ⟨s', b, hview, fun run hrun => ?_⟩
  rcases h.derivation hrun with ⟨log, hlog⟩
  exact ⟨_, hlog, rfl, rfl⟩

/-- A value is stored whatever the wire type in its tag. -/
theorem LeadsTo.value (hS : S.Documented) {budget : ℕ} {msgD : M} {fd : FieldDescriptor M}
    (hmem : fd ∈ (schema msgD).field) {tagBytes payload : Bytes} {n : ℕ} {v : Option LuaTree}
    (htag : Varint.decode tagBytes = some (n, [])) (hnumber : n % 2 ^ 32 / 8 = fd.number)
    (hvalue : ScalarReads P fd.type payload v) (tab : LuaTable) :
    LeadsTo P S garbage schema budget msgD tab (tagBytes ++ payload)
      (v.elim tab (fillValue P tab fd)) := by
  intro s more depth hs hunread hdepth
  rw [List.append_assoc] at hunread
  have head : LoopHead S budget s (tagBytes ++ (payload ++ more)) := ⟨hs, hunread, hdepth⟩
  rcases readFieldNumber_declared hS.toReads hmem head htag hnumber with
    ⟨hnum, hfind, hview, head₁⟩
  rcases readValue_reads hS.toReads head₁.readable head₁.unread_eq hvalue tab with
    ⟨htab, -, hview₁⟩
  rw [← htab]
  refine (Iterates.value hnum hfind hvalue.messageType_eq_none).continues
    (b := (S.view s).legitimateEnd) ?_
  simp only [hview₁, hview, StreamView.advance, Nat.add_assoc, List.length_append]

/-- A message is read one level deeper, and the limit ends its loop behind the body. -/
theorem LeadsTo.message (hS : S.Documented) {budget : ℕ} {msgD messageType : M}
    {fd : FieldDescriptor M} (hmem : fd ∈ (schema msgD).field)
    (htype : fd.type = .message messageType) {tagBytes lengthBytes body : Bytes}
    (htag : Varint.decode tagBytes = some (tag fd.number .lengthDelimited, []))
    (hlength : Varint.decode lengthBytes = some (body.length, [])) (hlt : body.length < 2 ^ 31)
    {value : LuaTable} (hbody : LeadsTo P S garbage schema budget messageType [] body value)
    (tab : LuaTable) :
    LeadsTo P S garbage schema (budget + 1) msgD tab (tagBytes ++ (lengthBytes ++ body))
      (fillValue P tab fd (.table value)) := by
  intro s more depth hs hunread hdepth
  simp only [List.append_assoc] at hunread
  have hsize := messageSize_append (Nat.mod_eq_of_lt (by omega)) hlt more
  obtain ⟨s', _, rfl, hiterates, hview⟩ := iterates_message (Q := (· = value)) hS hmem htype
    ⟨hs, hunread, hdepth⟩ htag (tag_narrow_div fd.number_le _) hlength hsize
    (fun s' head => hbody.decodes hS head (depth + 1)) tab
  exact hiterates.continues hview

/-- A record of an undeclared field is passed over if its payload is. -/
theorem LeadsTo.unknown (hS : S.Documented) {budget : ℕ} {msgD : M} {number : ℕ} {t : WireType}
    {tagBytes payload : Bytes} (hrecord : UnknownRecord (schema msgD) number t tagBytes payload)
    (htags : UnknownTags (schema msgD) payload) (tab : LuaTable) :
    LeadsTo P S garbage schema budget msgD tab (tagBytes ++ payload) tab := by
  intro s more depth hs hunread hdepth
  rcases (hrecord.unknownTags.mpr htags).passes hS.toReads hs hunread with ⟨s', hpasses, hview⟩
  refine ⟨s', (S.view s).legitimateEnd, hview, ?_⟩
  intro run hrun
  rcases hpasses.derivation hrun with ⟨log, hlog⟩
  exact ⟨_, hlog, rfl, rfl⟩

/-- The decoder computes what a sequence of records denotes, whatever follows. -/
theorem Denotes.leadsTo (hS : S.Documented) {budget : ℕ} {msgD : M} {tab tab' : LuaTable}
    {bytes : Bytes} (h : Denotes P schema budget msgD tab bytes tab') :
    LeadsTo P S garbage schema budget msgD tab bytes tab' := by
  induction h with
  | nil => exact .nil
  | @value _ _ tab fd _ _ _ _ _ hmem htag hvalue _ ih =>
      rw [← List.append_assoc]
      exact (LeadsTo.value hS hmem htag (tag_narrow_div fd.number_le _) hvalue tab).append ih
  | message hmem htype htag hlength hlt _ _ ihb ih =>
      simpa only [List.append_assoc] using
        (LeadsTo.message hS hmem htype htag hlength hlt ihb _).append ih
  | unknown hrecord htags _ ih =>
      rw [← List.append_assoc]
      exact (LeadsTo.unknown hS hrecord htags _).append ih

/-- Every run of `RawDecode` that starts in a state has the same result. -/
theorem rawDecode_unique {depth : ℕ} {s : S.Stream} {msgD : M} {run : Run S}
    (h : DecodeDerivation P S garbage schema depth s msgD [] run) {fuel : ℕ} {run' : Run S}
    (hrun : Luapb.rawDecode P S garbage schema fuel depth s msgD = some run') :
    run'.tab = run.tab ∧ run'.stream = run.stream := by
  rcases Option.bind_eq_some_iff.mp hrun with ⟨r, hr, heq⟩
  obtain rfl := h.deterministic (decodeLoop_derivation hr)
  obtain rfl := Option.some.inj heq
  exact ⟨rfl, rfl⟩

/-- `RawDecode` consumes bytes that lead to a table, and returns that table. -/
theorem LeadsTo.run_eq (hS : S.Documented) {msgD : M} {tab : LuaTable} {bytes : Bytes}
    (h : LeadsTo P S garbage schema S.recursionLimit msgD [] bytes tab)
    (hlen : bytes.length ≤ S.totalBytesLimit) {fuel : ℕ} {run : Run S}
    (hrun : Luapb.rawDecode P S garbage schema fuel 1 (S.create bytes) msgD = some run) :
    run.tab = tab ∧ S.view run.stream =
      { (StreamView.start bytes).advance bytes.length with legitimateEnd := true } := by
  have hdepth : (S.view (S.create bytes)).depth + S.recursionLimit ≤ S.recursionLimit := by
    rw [hS.create]
    exact (Nat.zero_add _).le
  rcases h.decodes hS ⟨hS.create_readable hlen, hS.create_unread bytes, hdepth⟩ 1 with
    ⟨run', hder, htab, hview⟩
  rcases rawDecode_unique hder hrun with ⟨htab', hstream⟩
  rw [hS.create] at hview
  exact ⟨htab'.trans htab, hstream ▸ hview⟩

/-- `RawDecode` returns. -/
theorem rawDecode_isSome_of_length (hS : S.Progress) {depth : ℕ} {s : S.Stream} {msgD : M}
    {fuel : ℕ} (hfuel : (S.view s).data.length < fuel) :
    ∃ run, Luapb.rawDecode P S garbage schema fuel depth s msgD = some run := by
  obtain ⟨run, hrun⟩ : ∃ run, decodeLoop P S garbage schema fuel depth s msgD [] = some run :=
    decodeLoop_isSome hS fuel depth s msgD [] (by omega)
  exact ⟨_, Option.bind_eq_some_iff.mpr ⟨run, hrun, rfl⟩⟩

theorem rawDecode_isSome (hS : S.Progress) {msgD : M} {bytes : Bytes} {fuel : ℕ}
    (hfuel : bytes.length < fuel) :
    ∃ run, Luapb.rawDecode P S garbage schema fuel 1 (S.create bytes) msgD = some run :=
  rawDecode_isSome_of_length hS (by rwa [(hS.create_forward bytes).1])

/-- `RawDecode` on the bytes of a message returns the table they denote. -/
theorem Denotes.rawDecode (hS : S.Documented) {msgD : M} {tab : LuaTable} {bytes : Bytes}
    (h : Denotes P schema S.recursionLimit msgD [] bytes tab)
    (hlen : bytes.length ≤ S.totalBytesLimit) {fuel : ℕ} (hfuel : bytes.length < fuel) :
    ∃ run, Luapb.rawDecode P S garbage schema fuel 1 (S.create bytes) msgD = some run ∧
      run.tab = tab := by
  obtain ⟨run, hrun⟩ : ∃ run, Luapb.rawDecode P S garbage schema fuel 1 (S.create bytes) msgD =
      some run := rawDecode_isSome hS.toProgress hfuel
  exact ⟨run, hrun, ((h.leadsTo hS).run_eq hS hlen hrun).1⟩

end Luapb
