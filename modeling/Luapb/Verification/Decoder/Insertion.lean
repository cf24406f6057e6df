import Luapb.Verification.Decoder.Losing
import Luapb.Verification.Decoder.Shift

/-! # Inserting a record of an undeclared field

A newer schema puts records into a message, or into a message inside it, that an older one does
not declare. The older one is not disturbed if its loop stands in front of such a record where
it comes to it, and if the payload is one that the loop passes over. -/

namespace Luapb

open Wire PBStream

variable {M : Type} {P : Platform} {S : CodedInputStream} {garbage : S.Stream → ℤ}
  {schema : Schema M}

/-- Where a record is inserted: in front of `rest`, or in the body of a message field, whose
length is encoded anew. The bytes around may be any. -/
inductive Insertion (M : Type)
  | here (before rest : Bytes)
  | inside (before : Bytes) (fd : FieldDescriptor M) (messageType : M)
      (tagBytes lengthBytes lengthBytes' : Bytes) (body : Insertion M) (rest : Bytes)

namespace Insertion

/-- The message as it was. -/
def bytes : Insertion M → Bytes
  | here before rest => before ++ rest
  | inside before _ _ tagBytes lengthBytes _ body rest =>
      before ++ (tagBytes ++ (lengthBytes ++ (body.bytes ++ rest)))

/-- The message with the record. -/
def inserted (record : Bytes) : Insertion M → Bytes
  | here before rest => before ++ (record ++ rest)
  | inside before _ _ tagBytes _ lengthBytes' body rest =>
      before ++ (tagBytes ++ (lengthBytes' ++ (body.inserted record ++ rest)))

/-- The record goes into a message of type `inner`, and the lengths around it are right. -/
inductive Into (schema : Schema M) (inner : M) (record : Bytes) : M → Insertion M → Prop
  | here {before rest} : Into schema inner record inner (here before rest)
  | inside {msgD before fd messageType tagBytes lengthBytes lengthBytes' body rest}
      (hmem : fd ∈ (schema msgD).field) (htype : fd.type = .message messageType)
      (htag : Varint.decode tagBytes = some (tag fd.number .lengthDelimited, []))
      (hlength : Varint.decode lengthBytes = some (body.bytes.length, []))
      (hlength' : Varint.decode lengthBytes' = some ((body.inserted record).length, []))
      (hlt : body.bytes.length < 2 ^ 31) (hlt' : (body.inserted record).length < 2 ^ 31)
      (hbody : Into schema inner record messageType body) :
      Into schema inner record msgD
        (inside before fd messageType tagBytes lengthBytes lengthBytes' body rest)

/-- What stands in front of the record in its message, and in front of the messages around it,
is read piece by piece. -/
def Reached (schema : Schema M) : ℕ → M → Insertion M → Prop
  | room, msgD, here before _ => StepsThrough schema room msgD before
  | room, msgD, inside before _ messageType _ _ _ body _ =>
      StepsThrough schema room msgD before ∧ 0 < room ∧ Reached schema (room - 1) messageType body

/-- The loop comes to the record, entering the messages around it, and gets right behind it in
iterations that find no field. -/
def Passed (P : Platform) (S : CodedInputStream) (garbage : S.Stream → ℤ) (schema : Schema M) :
    ℕ → M → S.Stream → LuaTable → Insertion M → Prop
  | depth, msgD, s, tab, here before rest => ∃ s₁ tab₁ b s₂,
      Iterations P S garbage schema depth msgD s tab s₁ tab₁ ∧
      S.view s₁ = { (S.view s).advance before.length with legitimateEnd := b } ∧
      PassesUnknown S (schema msgD) s₁ s₂ ∧ (S.view s₂).unread = rest
  | depth, msgD, s, tab, inside before _ messageType _ _ _ body _ => ∃ s₁ tab₁ b,
      Iterations P S garbage schema depth msgD s tab s₁ tab₁ ∧
      S.view s₁ = { (S.view s).advance before.length with legitimateEnd := b } ∧
      (beginMessage S (readFieldNumber S s₁).2 none).1 = true ∧
      Passed P S garbage schema (depth + 1) messageType
        (beginMessage S (readFieldNumber S s₁).2 none).2.2 [] body

end Insertion

/-- What is asked of the loop where it finds no field: it ends up right behind the record, and
`RawDecode` returns the table it returns without the record. Where that pops a limit that was
never set, there is no table to compare with. -/
structure SkipsRecord (P : Platform) (S : CodedInputStream) (garbage : S.Stream → ℤ)
    (schema : Schema M) (msgD : M) (i : Insertion M) (record : Bytes) : Prop where
  positioned : (i.inserted record).length ≤ S.totalBytesLimit →
    i.Passed P S garbage schema 1 msgD (S.create (i.inserted record)) []
  same_table : i.bytes.length ≤ S.totalBytesLimit →
    (i.inserted record).length ≤ S.totalBytesLimit →
    ∀ fuel, i.bytes.length < fuel → (i.inserted record).length < fuel → ∃ run run',
      rawDecode P S garbage schema fuel 1 (S.create i.bytes) msgD = some run ∧
      rawDecode P S garbage schema fuel 1 (S.create (i.inserted record)) msgD = some run' ∧
      ((∀ e ∈ run.log, e.popsAssigned) → run'.tab = run.tab)

/-! ## Messages around the record -/

/-- In front of a message whose body is entered. -/
structure Enters (S : CodedInputStream) (d : Descriptor M) (fd : FieldDescriptor M) (room : ℕ)
    (s : S.Stream) (body rest : Bytes) : Prop where
  number_ne_zero : (readFieldNumber S s).1 ≠ 0
  find_eq : d.findFieldByNumber (readFieldNumber S s).1 = some fd
  begun_eq : (beginMessage S (readFieldNumber S s).2 none).1 = true
  limit_eq : (beginMessage S (readFieldNumber S s).2 none).2.1 = some (S.view s).limit
  head : LoopHead S room (beginMessage S (readFieldNumber S s).2 none).2.2 body
  end_eq : (S.view (beginMessage S (readFieldNumber S s).2 none).2.2).legitimateEnd =
    (S.view s).legitimateEnd
  depth_eq : (S.view (beginMessage S (readFieldNumber S s).2 none).2.2).depth =
    (S.view s).depth + 1
  behind_eq : (S.view (beginMessage S (readFieldNumber S s).2 none).2.2).behind =
    rest ++ (S.view s).behind

theorem LoopHead.enters (hS : S.Documented) {msgD : M} {fd : FieldDescriptor M} {room : ℕ}
    {s : S.Stream} {tagBytes lengthBytes body rest : Bytes} (hmem : fd ∈ (schema msgD).field)
    (head : LoopHead S (room + 1) s (tagBytes ++ (lengthBytes ++ (body ++ rest))))
    (htag : Varint.decode tagBytes = some (tag fd.number .lengthDelimited, []))
    (hlength : Varint.decode lengthBytes = some (body.length, [])) (hlt : body.length < 2 ^ 31) :
    Enters S (schema msgD) fd room s body rest := by
  rcases readFieldNumber_declared hS.toReads hmem head htag (tag_narrow_div fd.number_le _) with
    ⟨hnum, hfind, hview, head₁⟩
  rcases head₁.enter hS hlength (messageSize_append (Nat.mod_eq_of_lt (by omega)) hlt rest) with
    ⟨hlimit, hview₁, head₂⟩
  have hmay : MayBegin S (readFieldNumber S s).2 := by
    rw [← beginMessage_assigned_iff hS.toLimits, hlimit]
    rfl
  refine ⟨hnum, hfind, (beginMessage_of_mayBegin hS.toLimits hmay none).1, ?_, head₂, ?_, ?_, ?_⟩
  · rw [hlimit, hview]
    rfl
  · rw [hview₁, hview]
    rfl
  · rw [hview₁, hview]
    rfl
  · rw [hview₁, head₁.readable.valid.behind_entered head₁.unread_eq, hview]
    rfl

/-- There the run goes on inside the message, and then behind it. -/
theorem Enters.run {msgD messageType : M} {fd : FieldDescriptor M} {room depth : ℕ} {s : S.Stream}
    {body rest : Bytes} {tab : LuaTable} {run : Run S}
    (h : Enters S (schema msgD) fd room s body rest) (htype : fd.type = .message messageType)
    (hrun : DecodeDerivation P S garbage schema depth s msgD tab run) :
    ∃ value run', DecodeDerivation P S garbage schema (depth + 1)
        (beginMessage S (readFieldNumber S s).2 none).2.2 messageType [] value ∧
      DecodeDerivation P S garbage schema depth
        (endMessage S (garbage (readFieldNumber S s).2) value.stream
          (beginMessage S (readFieldNumber S s).2 none).2.1).2
        msgD (fillValue P tab fd (.table value.tab)) run' ∧
      run'.tab = run.tab ∧ run'.stream = run.stream ∧ value.log ⊆ run.log ∧
      run'.log ⊆ run.log := by
  cases hrun with
  | stop hzero => exact absurd hzero h.number_ne_zero
  | unknown _ hfind => cases h.find_eq.symm.trans hfind
  | value _ hfind hscalar =>
      obtain rfl := Option.some.inj (h.find_eq.symm.trans hfind)
      rw [htype] at hscalar
      cases hscalar
  | message _ hfind hmessage hvalue hrest =>
      obtain rfl := Option.some.inj (h.find_eq.symm.trans hfind)
      rw [htype] at hmessage
      obtain rfl := Option.some.inj hmessage
      exact ⟨_, _, hvalue, hrest, rfl, rfl, fun e he => by simp [he], fun e he => by simp [he]⟩

/-- The nested call stays in the buffer. -/
theorem data_nested (hS : S.Documented) {msgD : M} {depth : ℕ} {s : S.Stream} {run : Run S}
    (h : DecodeDerivation P S garbage schema depth
      (beginMessage S (readFieldNumber S s).2 none).2.2 msgD [] run) :
    (S.view run.stream).data = (S.view s).data :=
  ((readFieldNumber_forward hS.toProgress s).trans
    ((beginMessage_forward hS.toProgress _ none).trans (h.forward hS.toProgress))).1

/-! ## Two streams side by side -/

/-- Two loop heads with the same behind the limit, in front of `bytes` and `bytes'`. -/
structure Beside (S : CodedInputStream) (room : ℕ) (s s' : S.Stream) (bytes bytes' : Bytes) :
    Prop where
  head : LoopHead S room s bytes
  head' : LoopHead S room s' bytes'
  behind_eq : (S.view s').behind = (S.view s).behind
  depth_eq : (S.view s').depth = (S.view s).depth
  end_eq : (S.view s).legitimateEnd = false
  end_eq' : (S.view s').legitimateEnd = false

theorem Beside.shifted {room : ℕ} {s s' : S.Stream} {bytes : Bytes}
    (h : Beside S room s s' bytes bytes) : S.Shifted s s' := by
  have hunread : (S.view s').unread = (S.view s).unread := by
    rw [h.head.unread_eq, h.head'.unread_eq]
  exact ⟨StreamView.shifted_of_unread_eq h.head.readable.valid h.head'.readable.valid hunread
    h.behind_eq h.depth_eq (h.end_eq'.trans h.end_eq.symm), h.head.readable.within,
    h.head'.readable.within⟩

theorem Beside.create (hS : S.Documented) {data data' : Bytes}
    (hlen : data.length ≤ S.totalBytesLimit) (hlen' : data'.length ≤ S.totalBytesLimit) :
    Beside S S.recursionLimit (S.create data) (S.create data') data data' := by
  have head : ∀ {data : Bytes}, data.length ≤ S.totalBytesLimit →
      LoopHead S S.recursionLimit (S.create data) data := by
    intro data hdata
    refine ⟨hS.create_readable hdata, hS.create_unread data, ?_⟩
    rw [hS.create]
    exact (Nat.zero_add _).le
  have hbehind : ∀ data, (S.view (S.create data)).behind = [] := by
    intro data
    rw [hS.create, StreamView.behind]
    exact List.drop_length
  refine ⟨head hlen, head hlen', (hbehind _).trans (hbehind _).symm, ?_, ?_, ?_⟩ <;>
    simp only [hS.create] <;> rfl

theorem Beside.advance {room : ℕ} {s s' s₁ s₁' : S.Stream} {more more' rest rest' : Bytes}
    (h : Beside S room s s' (more ++ rest) (more' ++ rest'))
    (hview : S.view s₁ = (S.view s).advance more.length)
    (hview' : S.view s₁' = (S.view s').advance more'.length) :
    Beside S room s₁ s₁' rest rest' := by
  refine ⟨h.head.advance hview, h.head'.advance hview', ?_, ?_, ?_, ?_⟩
  · rw [hview, hview']
    exact h.behind_eq
  · rw [hview, hview']
    exact h.depth_eq
  · rw [hview]
    exact h.end_eq
  · rw [hview']
    exact h.end_eq'

variable (garbage) in
/-- Both come through what is read piece by piece. -/
theorem StepsThrough.beside (hS : S.Documented) {room : ℕ} {msgD : M} {before rest rest' : Bytes}
    (hbefore : StepsThrough schema room msgD before) {s s' : S.Stream}
    (h : Beside S room s s' (before ++ rest) (before ++ rest')) (depth : ℕ) (tab : LuaTable) :
    ∃ s₁ s₁' tab₁, Iterations P S garbage schema depth msgD s tab s₁ tab₁ ∧
      Iterations P S garbage schema depth msgD s' tab s₁' tab₁ ∧
      Beside S room s₁ s₁' rest rest' := by
  rcases hbefore.iterations (P := P) garbage hS tab with ⟨tab₁, hfront⟩
  rcases hfront depth s _ h.head h.end_eq with ⟨s₁, hiterations, hview⟩
  rcases hfront depth s' _ h.head' h.end_eq' with ⟨s₁', hiterations', hview'⟩
  exact ⟨s₁, s₁', tab₁, hiterations, hiterations', h.advance hview hview'⟩

/-- Both enter the message that they are in front of. -/
theorem Beside.enters (hS : S.Documented) {msgD : M} {fd : FieldDescriptor M} {room : ℕ}
    {s s' : S.Stream} {tagBytes lengthBytes lengthBytes' body body' rest : Bytes}
    (hmem : fd ∈ (schema msgD).field)
    (h : Beside S (room + 1) s s' (tagBytes ++ (lengthBytes ++ (body ++ rest)))
      (tagBytes ++ (lengthBytes' ++ (body' ++ rest))))
    (htag : Varint.decode tagBytes = some (tag fd.number .lengthDelimited, []))
    (hlength : Varint.decode lengthBytes = some (body.length, [])) (hlt : body.length < 2 ^ 31)
    (hlength' : Varint.decode lengthBytes' = some (body'.length, []))
    (hlt' : body'.length < 2 ^ 31) :
    Enters S (schema msgD) fd room s body rest ∧ Enters S (schema msgD) fd room s' body' rest ∧
      Beside S room (beginMessage S (readFieldNumber S s).2 none).2.2
        (beginMessage S (readFieldNumber S s').2 none).2.2 body body' := by
  have henters := h.head.enters hS hmem htag hlength hlt
  have henters' := h.head'.enters hS hmem htag hlength' hlt'
  refine ⟨henters, henters', henters.head, henters'.head, ?_, ?_,
    henters.end_eq.trans h.end_eq, henters'.end_eq.trans h.end_eq'⟩
  · rw [henters.behind_eq, henters'.behind_eq, h.behind_eq]
  · rw [henters.depth_eq, henters'.depth_eq, h.depth_eq]

/-! ## In front of the record -/

theorem append_ne_nil_of_decode {bytes : Bytes} {n : ℕ} (h : Varint.decode bytes = some (n, []))
    (rest : Bytes) : bytes ++ rest ≠ [] := by
  intro hnil
  rw [(List.append_eq_nil_iff.mp hnil).1] at h
  cases h

section

variable {inner msgD : M} {number depth room : ℕ} {t : WireType} {tagBytes payload : Bytes}
  {i : Insertion M} {s : S.Stream} {tab : LuaTable}
  (hrecord : UnknownRecord (schema inner) number t tagBytes payload)
  (hi : i.Into schema inner (tagBytes ++ payload) msgD)

include hrecord hi

/-- On a stream that loses its place in a failed read, what the loop came through was read. -/
theorem Insertion.Passed.reached (hS : S.Losing)
    (head : LoopHead S 0 s (i.inserted (tagBytes ++ payload)))
    (hend : (S.view s).legitimateEnd = false)
    (h : i.Passed P S (fun _ => -1) schema depth msgD s tab) :
    i.Reached schema (S.recursionLimit - (S.view s).depth) msgD ∧
      UnknownTags (schema inner) payload := by
  induction hi generalizing depth s tab with
  | here =>
      rcases h with ⟨s₁, tab₁, b, s₂, hiterations, hview, hpasses, hunread⟩
      have head₁ := head.advance hview
      have hunread₁ := head₁.unread_eq.trans (List.append_assoc _ _ _)
      refine ⟨(hiterations.reads hS head hend ?_ hview).1, ?_⟩
      · rw [List.append_assoc]
        exact append_ne_nil_of_decode hrecord.tag_eq _
      · exact (hrecord.passed_iff hS.toReads head₁.readable hunread₁).mp
          ⟨s₂, hpasses, hunread⟩
  | @inside msgD before fd messageType tagBytes' _ _ body rest hmem htype htag _ hlength' _ hlt'
      hbody ih =>
      rcases h with ⟨s₁, tab₁, b, hiterations, hview, hbegun, hinner⟩
      have head₁ := head.advance hview
      rcases hiterations.reads hS head hend (append_ne_nil_of_decode htag _) hview with
        ⟨hfront, hend₁⟩
      rcases readFieldNumber_declared hS.toReads hmem head₁ htag
        (tag_narrow_div fd.number_le _) with ⟨-, -, hview₂, head₂⟩
      have hroom : (S.view (readFieldNumber S s₁).2).depth < S.recursionLimit := by
        by_contra hfull
        have hfails := beginMessage_of_not_mayBegin hS.toLimits
          (fun hmay : MayBegin S (readFieldNumber S s₁).2 => hfull hmay.2) none
        rw [hfails.1] at hbegun
        cases hbegun
      rcases beginMessage_reads hS.toDocumented head₂.readable head₂.unread_eq hlength'
        (messageSize_append (Nat.mod_eq_of_lt (by omega)) hlt' rest) hroom with ⟨-, hview₃⟩
      have hdepth : (S.view (readFieldNumber S s₁).2).depth = (S.view s).depth := by
        rw [hview₂, hview]
        rfl
      have hdepth₃ : (S.view (beginMessage S (readFieldNumber S s₁).2 none).2.2).depth =
          (S.view s).depth + 1 := by
        rw [hview₃, ← hdepth]
        rfl
      rcases head₂.readable.entered head₂.unread_eq hview₃ with ⟨hs₃, hunread₃⟩
      have hend₃ : (S.view (beginMessage S (readFieldNumber S s₁).2 none).2.2).legitimateEnd =
          false := by
        rw [hview₃]
        simpa only [StreamView.entered, StreamView.advance, hview₂] using hend₁
      rcases ih ⟨hs₃, hunread₃, by omega⟩ hend₃ hinner with ⟨hreached, htags⟩
      refine ⟨⟨hfront, by omega, ?_⟩, htags⟩
      rwa [hdepth₃, ← Nat.sub_sub] at hreached

/-! ## Behind the record -/

theorem Insertion.Reached.passed (hS : S.Documented) (htags : UnknownTags (schema inner) payload)
    (head : LoopHead S room s (i.inserted (tagBytes ++ payload)))
    (hend : (S.view s).legitimateEnd = false) (h : i.Reached schema room msgD) :
    i.Passed P S garbage schema depth msgD s tab := by
  induction hi generalizing room depth s tab with
  | here =>
      rcases StepsThrough.iterations (P := P) garbage hS h tab with ⟨tab₁, hfront⟩
      rcases hfront depth s _ head hend with ⟨s₁, hiterations, hview⟩
      have head₁ := head.advance hview
      rcases (hrecord.unknownTags.mpr htags).passes hS.toReads head₁.readable head₁.unread_eq with
        ⟨s₂, hpasses, hview₂⟩
      exact ⟨s₁, tab₁, _, s₂, hiterations, hview, hpasses, (head₁.advance hview₂).unread_eq⟩
  | inside hmem _ htag _ hlength' _ hlt' _ ih =>
      rcases h with ⟨hbefore, hroom, hbody⟩
      obtain ⟨room, rfl⟩ := Nat.exists_eq_add_of_le' hroom
      rcases hbefore.iterations (P := P) garbage hS tab with ⟨tab₁, hfront⟩
      rcases hfront depth s _ head hend with ⟨s₁, hiterations, hview⟩
      have henters := (head.advance hview).enters hS hmem htag hlength' hlt'
      have hend₁ : (S.view s₁).legitimateEnd = false := by
        rw [hview]
        exact hend
      exact ⟨s₁, tab₁, _, hiterations, hview, henters.begun_eq,
        ih henters.head (henters.end_eq.trans hend₁) hbody⟩

/-- From the record on the loop does what it does without it. -/
theorem Insertion.Reached.shifted (hS : S.Documented) (hU : S.Uniform)
    (htags : UnknownTags (schema inner) payload) (h : i.Reached schema room msgD) {s' : S.Stream}
    (hbeside : Beside S room s s' i.bytes (i.inserted (tagBytes ++ payload))) {run : Run S}
    (hrun : DecodeDerivation P S garbage schema depth s msgD tab run)
    (hpops : ∀ e ∈ run.log, e.popsAssigned) :
    ∃ run', DecodeDerivation P S garbage schema depth s' msgD tab run' ∧ run'.tab = run.tab ∧
      S.Shifted run.stream run'.stream := by
  induction hi generalizing room depth s s' tab run with
  | @here before rest =>
      rcases StepsThrough.beside (P := P) garbage hS h hbeside depth tab with
        ⟨s₁, s₁', tab₁, hiterations, hiterations', hbeside₁⟩
      rcases (hrecord.unknownTags.mpr htags).passes hS.toReads hbeside₁.head'.readable
        hbeside₁.head'.unread_eq with ⟨s₂, hpasses, hview₂⟩
      have hbeside₂ : Beside S room s₁ s₂ rest rest :=
        (show Beside S room s₁ s₁' ([] ++ rest) _ from hbeside₁).advance rfl hview₂
      rcases hiterations.behind hrun with ⟨run₁, hrun₁, htab, hstream, hlog⟩
      rcases hrun₁.shifted hS hU hbeside₂.shifted fun e he => hpops e (hlog he) with
        ⟨run₂, hrun₂, htab', hstream'⟩
      rcases hpasses.derivation hrun₂ with ⟨log, hlog'⟩
      rcases hiterations'.derivation hlog' with ⟨run', hrun', htab'', hstream''⟩
      refine ⟨run', hrun', htab''.trans (htab'.trans htab), ?_⟩
      rw [hstream'', ← hstream]
      exact hstream'
  | inside hmem htype htag hlength hlength' hlt hlt' _ ih =>
      rcases h with ⟨hbefore, hroom, hbody⟩
      obtain ⟨room, rfl⟩ := Nat.exists_eq_add_of_le' hroom
      rcases hbefore.beside (P := P) garbage hS hbeside depth tab with
        ⟨s₁, s₁', tab₁, hiterations, hiterations', hbeside₁⟩
      rcases hbeside₁.enters hS hmem htag hlength hlt hlength' hlt' with
        ⟨henters, henters', hbeside₂⟩
      rcases hiterations.behind hrun with ⟨run₁, hrun₁, htab, hstream, hlog⟩
      rcases henters.run htype hrun₁ with
        ⟨value, rest, hvalue, hrest, htab₁, hstream₁, hlogValue, hlogRest⟩
      rcases ih hbody hbeside₂ hvalue (fun e he => hpops e (hlog (hlogValue he))) with
        ⟨value', hvalue', hsame, hinner⟩
      -- both limits that are popped are as far from the end of the buffer
      have hleft := endMessage_shifted hinner hS (garbage (readFieldNumber S s₁).2)
        (garbage (readFieldNumber S s₁').2) fun _ => ⟨_, _, henters.limit_eq, henters'.limit_eq, by
          rw [data_nested hS hvalue, data_nested hS hvalue',
            ← hbeside₁.head.readable.valid.length_behind,
            ← hbeside₁.head'.readable.valid.length_behind, hbeside₁.behind_eq]⟩
      rcases hrest.shifted hS hU hleft fun e he => hpops e (hlog (hlogRest he)) with
        ⟨rest', hrest', htab', hstream'⟩
      rw [← hsame] at hrest'
      have hmessage := DecodeDerivation.message henters'.number_ne_zero henters'.find_eq
        (htype ▸ rfl) hvalue' hrest'
      rcases hiterations'.derivation hmessage with ⟨run', hrun', htab'', hstream''⟩
      refine ⟨run', hrun', htab''.trans (htab'.trans (htab₁.trans htab)), ?_⟩
      rw [hstream'', ← hstream, ← hstream₁]
      exact hstream'

end

/-- Behind the number of a phone. A record of field 6 that is passed over stands in front of the
phone, and one that is not stands behind it. -/
def AddressBook.behindNumber : Insertion AddressBook.Message :=
  .inside [48, 112, 16, 5] AddressBook.phone .phoneNumber [34] [3] [5] (.here [10, 1, 97] [])
    [16, 7, 48, 16]

/-- The id of a person's table that has one. -/
def AddressBook.personId (tab : LuaTable) : Option LuaNumber :=
  match tab.get (.string [105, 100]) with
  | some (.number n) => some n
  | _ => none

-- behind a record that is not passed over, the loop is not in step with the records
example : ∃ run run', referenceRun AddressBook.schema 9 [48, 16, 16, 5] .person = some run ∧
    referenceRun AddressBook.schema 9 [48, 16, 48, 112, 16, 5] .person = some run' ∧
    AddressBook.personId run.tab = some (Stack.pushInt 16) ∧
    AddressBook.personId run'.tab = some (Stack.pushInt 5) :=
  ⟨_, _, rfl, rfl, by decide, by decide⟩

end Luapb
