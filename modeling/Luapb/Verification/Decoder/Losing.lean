import Luapb.Verification.Decoder.Extent

/-! # What a run shows of its reads

On a stream that loses its place in a failed read, a run that ends inside the buffer has
made successful reads only. If it also ends at the recursion depth it began at, every message
in it was read to its end. -/

namespace Luapb

open Wire PBStream

variable {M : Type} {P : Platform} {S : CodedInputStream} {schema : Schema M}

namespace CodedInputStream

/-- A read that ends inside the buffer has found a value. -/
def Keeps {α : Type} (S : CodedInputStream) (read : S.Stream → α → Read S.Stream α)
    (spec : StreamView → Option (α × StreamView)) : Prop :=
  ∀ s x, (S.view (read s x).stream).position ≤ (S.view s).data.length →
    (S.view s).Valid ∧ spec (S.view s) ≠ none

/-- A documented stream that loses its place in every read that fails. -/
structure Losing (S : CodedInputStream) : Prop extends S.Documented where
  readTag_kept : ∀ s, (S.view (S.readTag s).2).position ≤ (S.view s).data.length →
    (S.view s).Valid ∧ ((S.view s).unread = [] ∨ (S.view s).readVarint ≠ none)
  read_kept : ∀ {reader : Reader} {α : Type} {read : S.Stream → α → Read S.Stream α}
    {spec : StreamView → Option (α × StreamView)}, ReadOp S reader read spec → S.Keeps read spec

theorem losing_losing (recursionLimit : ℕ) : (losing recursionLimit).Losing where
  toDocumented := losing_documented
  readTag_kept _ h := StreamView.readTagOrLose_kept h
  read_kept h _ _ hkept := by
    cases h with
    | _ => exact StreamView.readOrLose_kept hkept

end CodedInputStream

/-- The stream has not lost its place since a state with the same buffer. -/
def KeepsPlace (S : CodedInputStream) (s s' : S.Stream) : Prop :=
  (S.view s').position ≤ (S.view s).data.length

theorem keepsPlace_of_readable {s s' : S.Stream} (h : S.Forward s s') (hs' : S.Readable s') :
    KeepsPlace S s s' := by
  have hposition := hs'.valid.position_le.trans hs'.valid.limit_le
  rw [h.1] at hposition
  exact Int.ofNat_le.mp hposition

theorem KeepsPlace.of_forward {s t u : S.Stream} (h : KeepsPlace S s u) (k : S.Forward t u) :
    KeepsPlace S s t :=
  k.2.trans h

theorem KeepsPlace.forward {s t u : S.Stream} (h : KeepsPlace S s u) (k : S.Forward s t) :
    KeepsPlace S t u := by
  rw [KeepsPlace, k.1]
  exact h

/-! ## One step -/

section

variable (hS : S.Losing) {s : S.Stream}
include hS

/-- Nothing is left, or the stream has moved on. -/
theorem readFieldNumber_kept (hwithin : (S.view s).data.length ≤ S.totalBytesLimit)
    (hkept : KeepsPlace S s (readFieldNumber S s).2) :
    S.Readable s ∧ ((S.view s).unread = [] ∨
      ∃ n, S.view (readFieldNumber S s).2 = (S.view s).advance n) := by
  have hstream : (readFieldNumber S s).2 = (S.readTag s).2 := by
    rw [readFieldNumber]
    split <;> rfl
  rw [KeepsPlace, hstream] at hkept
  rcases hS.readTag_kept s hkept with ⟨hvalid, hread⟩
  refine ⟨⟨hvalid, hwithin⟩, hread.imp_right fun hread => ?_⟩
  rcases Option.ne_none_iff_exists'.mp hread with ⟨⟨n, w⟩, hread⟩
  rcases StreamView.readVarint_split hread with ⟨tagBytes, rest, -, -, rfl⟩
  exact ⟨tagBytes.length, hstream ▸ (hS.readTag_some s n _ ⟨hvalid, hwithin⟩ hread).2⟩

/-- A tag was read. -/
theorem readFieldNumber_kept_ne_zero (hwithin : (S.view s).data.length ≤ S.totalBytesLimit)
    (hkept : KeepsPlace S s (readFieldNumber S s).2) (hnum : (readFieldNumber S s).1 ≠ 0) :
    S.Readable s ∧ ∃ tagBytes n rest,
      (S.view s).unread = tagBytes ++ rest ∧ Varint.decode tagBytes = some (n, []) ∧
      (readFieldNumber S s).1 = n % 2 ^ 32 / 8 ∧
      S.view (readFieldNumber S s).2 = (S.view s).advance tagBytes.length ∧
      S.Readable (readFieldNumber S s).2 ∧ (S.view (readFieldNumber S s).2).unread = rest := by
  have hs := (readFieldNumber_kept hS hwithin hkept).1
  rcases readFieldNumber_ne_zero hS.toReads hs hnum with
    ⟨tagBytes, n, rest, hunread, htag, hnumber, hview⟩
  exact ⟨hs, tagBytes, n, rest, hunread, htag, hnumber, hview, hs.advance hunread hview⟩

theorem readValue_kept {fd : FieldDescriptor M} {tab : LuaTable}
    (hkept : KeepsPlace S s (readValue P S s tab fd).stream) :
    fd.type.reader.after (S.view s) ≠ none := by
  rcases readValue_op (P := P) (S := S) tab fd with
    ⟨hnothing, -⟩ | ⟨α, read, spec, x, fill, hop, hread⟩
  · rw [hnothing]
    exact Option.some_ne_none _
  · rw [← hop.map_spec, ne_eq, Option.map_eq_none_iff]
    rw [(hread s).1] at hkept
    exact (hS.read_kept hop s x hkept).2

/-- A value was read, or one of a type that is not read. -/
theorem readValue_kept_takes (hs : S.Readable s) {fd : FieldDescriptor M} {tab : LuaTable}
    (hkept : KeepsPlace S s (readValue P S s tab fd).stream) :
    ∃ payload rest, (S.view s).unread = payload ++ rest ∧ Takes fd.type.reader payload ∧
      S.view (readValue P S s tab fd).stream = (S.view s).advance payload.length := by
  rcases Option.ne_none_iff_exists'.mp (readValue_kept hS hkept) with ⟨w, hw⟩
  rcases Reader.after_eq_some_iff.mp hw with ⟨payload, rest, hunread, htakes, -⟩
  rcases readValue_takes (P := P) hS.toReads htakes tab with ⟨tab', hread⟩
  exact ⟨payload, rest, hunread, htakes, (hread s rest hs hunread).2⟩

end

/-- How many bytes a length claims is no more than there are. -/
theorem messageSize_le (n available : ℕ) : messageSize n available ≤ available := by
  rw [messageSize]
  split
  · exact min_le_right _ _
  · exact le_rfl

/-- A length was read. Within the recursion limit its bytes are entered, beyond it the caller
gets no limit to return to. -/
theorem beginMessage_kept (hS : S.Losing) {s : S.Stream} (hs : S.Readable s)
    (hkept : KeepsPlace S s (beginMessage S s none).2.2) :
    ∃ lengthBytes size body rest, (S.view s).unread = lengthBytes ++ (body ++ rest) ∧
      Varint.decode lengthBytes = some (size, []) ∧
      messageSize size (body ++ rest).length = body.length ∧
      (S.view (beginMessage S s none).2.2).depth = (S.view s).depth + 1 ∧
      (S.view (beginMessage S s none).2.2).legitimateEnd = (S.view s).legitimateEnd ∧
      if (S.view s).depth < S.recursionLimit then
        (beginMessage S s none).2.1 = some (S.view s).limit ∧
          S.view (beginMessage S s none).2.2 = (S.view s).entered lengthBytes body
      else (beginMessage S s none).2.1 = none := by
  have hforward : S.Forward (S.readInt32 s 0).stream (beginMessage S s none).2.2 := by
    have hinc := hS.incrementRecursionDepth_forward (S.readInt32 s 0).stream
    simp only [beginMessage]
    split
    · exact .refl _
    · split
      · exact hinc
      · exact hinc.trans (hS.pushLimit_forward _ _)
  rcases hS.read_kept .int32 s 0 (hkept.of_forward hforward) with ⟨-, hread⟩
  rcases Option.ne_none_iff_exists'.mp hread with ⟨⟨a, w⟩, hspec⟩
  rcases Option.map_eq_some_iff.mp hspec with ⟨⟨size, u⟩, hread, hp⟩
  rcases StreamView.readVarint_split hread with ⟨lengthBytes, more, hunread, hlength, rfl⟩
  rcases Prod.mk.inj hp with ⟨-, rfl⟩
  have hbody : (more.take (messageSize size more.length)).length = messageSize size more.length :=
    List.length_take_of_le (messageSize_le _ _)
  have hsize : messageSize size (more.take (messageSize size more.length) ++
      more.drop (messageSize size more.length)).length =
      (more.take (messageSize size more.length)).length := by
    rw [List.take_append_drop, hbody]
  rw [← List.take_append_drop (messageSize size more.length) more] at hunread
  refine ⟨lengthBytes, size, _, _, hunread, hlength, hsize, ?_⟩
  by_cases hdepth : (S.view s).depth < S.recursionLimit
  · rcases beginMessage_reads hS.toDocumented hs hunread hlength hsize hdepth with ⟨hlimit, hview⟩
    rw [if_pos hdepth, hview]
    exact ⟨rfl, rfl, hlimit, rfl⟩
  · rcases hS.readInt32.some hs 0 hspec with ⟨hok, -, hview⟩
    have hinc : (S.incrementRecursionDepth (S.readInt32 s 0).stream).1 = false := by
      rw [hS.increment_ok, hview, decide_eq_false_iff_not]
      exact hdepth
    simp only [if_neg hdepth, beginMessage, hok, hinc, Bool.true_eq_false, if_false, if_true,
      hS.increment, hview, StreamView.advance, and_true]

/-! ## Whole runs -/

/-- What a call shows that kept its place: it is no less deep than before, and if it is not
deeper and its end is one of the message, it has read the message to its end. -/
structure ReadThrough (S : CodedInputStream) (schema : Schema M) (msgD : M) (s s' : S.Stream) :
    Prop where
  depth_le : (S.view s).depth ≤ (S.view s').depth
  usedUp : (S.view s').depth = (S.view s).depth → (S.view s').legitimateEnd = true →
    UsedUp schema (S.recursionLimit - (S.view s).depth) msgD (S.view s).unread ∧
      S.view s' = { (S.view s).advance (S.view s).unread.length with legitimateEnd := true }

/-- Some bytes further on. -/
theorem ReadThrough.of_advance {msgD : M} {s s' s'' : S.Stream} {bytes rest : Bytes} {b : Bool}
    (hs : S.Readable s) (hunread : (S.view s).unread = bytes ++ rest)
    (hview : S.view s' = { (S.view s).advance bytes.length with legitimateEnd := b })
    (h : ReadThrough S schema msgD s' s'')
    (hcons : UsedUp schema (S.recursionLimit - (S.view s).depth) msgD rest →
      UsedUp schema (S.recursionLimit - (S.view s).depth) msgD (bytes ++ rest)) :
    ReadThrough S schema msgD s s'' := by
  have hunread' := (hs.advance hunread hview).2
  have hdepth : (S.view s').depth = (S.view s).depth := by
    rw [hview]
    rfl
  refine ⟨hdepth ▸ h.depth_le, fun hsame hend => ?_⟩
  rcases h.usedUp (hsame.trans hdepth.symm) hend with ⟨hused, hfinal⟩
  rw [hdepth, hunread'] at hused
  rw [hunread'] at hfinal
  refine ⟨hunread ▸ hcons hused, ?_⟩
  rw [hfinal, hview, hunread, List.length_append]
  simp only [StreamView.advance, Nat.add_assoc]

theorem ReadThrough.of_lt {msgD : M} {s s' : S.Stream}
    (h : (S.view s).depth < (S.view s').depth) : ReadThrough S schema msgD s s' :=
  ⟨h.le, fun hsame => absurd hsame h.ne'⟩

/-- After `EndMessage` the stream is not known to be at an end. -/
theorem legitimateEnd_endMessage (hS : S.Limits) (g : ℤ) (s : S.Stream) (limit : Option ℤ) :
    (S.view (endMessage S g s limit).2).legitimateEnd = false := by
  cases hconsumed : S.consumedEntireMessage s with
  | false =>
      rw [endMessage_unconsumed g limit hconsumed, ← hS.consumed]
      exact hconsumed
  | true => rw [view_endMessage hS g limit hconsumed]

/-- Behind a message whose body was not read to its end the stream is deeper than before it. -/
theorem message_kept (hS : S.Losing) {s t : S.Stream} {messageType : M} (hs : S.Readable s)
    (hkept : KeepsPlace S s (beginMessage S s none).2.2)
    (h : ReadThrough S schema messageType (beginMessage S s none).2.2 t)
    (ht : S.Readable (endMessage S (-1) t (beginMessage S s none).2.1).2) :
    (S.view s).depth < (S.view (endMessage S (-1) t (beginMessage S s none).2.1).2).depth ∨
      ∃ lengthBytes size body rest, (S.view s).unread = lengthBytes ++ (body ++ rest) ∧
        Varint.decode lengthBytes = some (size, []) ∧
        messageSize size (body ++ rest).length = body.length ∧
        (S.view s).depth < S.recursionLimit ∧
        UsedUp schema (S.recursionLimit - ((S.view s).depth + 1)) messageType body ∧
        S.view (endMessage S (-1) t (beginMessage S s none).2.1).2 =
          { (S.view s).advance (lengthBytes ++ body).length with legitimateEnd := false } := by
  rcases beginMessage_kept hS hs hkept with
    ⟨lengthBytes, size, body, rest, hunread, hlength, hsize, hdepth, -, hbegun⟩
  have hdeeper := h.depth_le
  rw [hdepth] at hdeeper
  cases hconsumed : (S.view t).legitimateEnd with
  | false =>
      rw [endMessage_unconsumed (-1) _ ((hS.consumed _).trans hconsumed)]
      exact .inl hdeeper
  | true =>
      have hview := view_endMessage hS.toLimits (-1) (beginMessage S s none).2.1
        ((hS.consumed _).trans hconsumed)
      by_cases hroom : (S.view s).depth < S.recursionLimit
      · rw [if_pos hroom] at hbegun
        by_cases hsame : (S.view t).depth = (S.view s).depth + 1
        · rcases h.usedUp (hsame.trans hdepth.symm) hconsumed with ⟨hused, hend⟩
          rw [(hs.entered hunread hbegun.2).2, hdepth] at hused
          rw [(hs.entered hunread hbegun.2).2, hbegun.2] at hend
          have hleft := endMessage_reads hS.toLimits (-1) hend
          rw [← hbegun.1] at hleft
          exact .inr ⟨lengthBytes, size, body, rest, hunread, hlength, hsize, hroom, hused, hleft⟩
        · left
          rw [hview]
          change (S.view s).depth < (S.view t).depth - 1
          omega
      · -- a limit that was never set leaves nothing to read
        rw [if_neg hroom] at hbegun
        have hposition := ht.valid.position_le
        rw [hview, hbegun] at hposition
        simp only [Option.getD_none] at hposition
        omega

/-! ## One iteration -/

/-- What one iteration reads in front of `rest`. -/
inductive Piece (schema : Schema M) : ℕ → M → Bytes → Bytes → Prop
  | unknown {room msgD tagBytes n rest} (htag : Varint.decode tagBytes = some (n, []))
      (hnum : n % 2 ^ 32 / 8 ≠ 0)
      (hfind : (schema msgD).findFieldByNumber (n % 2 ^ 32 / 8) = none) :
      Piece schema room msgD tagBytes rest
  | value {room msgD fd tagBytes n payload rest} (hmem : fd ∈ (schema msgD).field)
      (htag : Varint.decode tagBytes = some (n, [])) (hnumber : n % 2 ^ 32 / 8 = fd.number)
      (htype : fd.type.messageType? = none) (htakes : Takes fd.type.reader payload) :
      Piece schema room msgD (tagBytes ++ payload) rest
  | message {room msgD fd messageType tagBytes n lengthBytes size body rest}
      (hmem : fd ∈ (schema msgD).field) (htag : Varint.decode tagBytes = some (n, []))
      (hnumber : n % 2 ^ 32 / 8 = fd.number) (htype : fd.type = .message messageType)
      (hlength : Varint.decode lengthBytes = some (size, []))
      (hsize : messageSize size (body ++ rest).length = body.length)
      (hbody : UsedUp schema room messageType body) :
      Piece schema (room + 1) msgD (tagBytes ++ (lengthBytes ++ body)) rest

theorem Piece.usedUp {room : ℕ} {msgD : M} {piece rest : Bytes}
    (h : Piece schema room msgD piece rest) (hrest : UsedUp schema room msgD rest) :
    UsedUp schema room msgD (piece ++ rest) := by
  cases h with
  | unknown htag hnum hfind => exact .unknown htag hnum hfind hrest
  | value hmem htag hnumber htype htakes =>
      rw [List.append_assoc]
      exact .value hmem htag hnumber htype htakes hrest
  | message hmem htag hnumber htype hlength hsize hbody =>
      rw [List.append_assoc, List.append_assoc]
      exact .message hmem htag hnumber htype hlength hsize hbody hrest

/-- With more bytes behind it, the length of a message is that of its body. -/
theorem length_of_messageSize {size : ℕ} {body rest : Bytes} (hne : rest ≠ [])
    (h : messageSize size (body ++ rest).length = body.length) :
    size % 2 ^ 32 = body.length ∧ body.length < 2 ^ 31 := by
  have hpos := List.length_pos_iff.mpr hne
  rw [messageSize, List.length_append] at h
  split at h
  · omega
  · omega

theorem Piece.stepsThrough {room : ℕ} {msgD : M} {piece rest bytes : Bytes}
    (h : Piece schema room msgD piece rest) (hne : rest ≠ [])
    (hbytes : StepsThrough schema room msgD bytes) :
    StepsThrough schema room msgD (piece ++ bytes) := by
  cases h with
  | unknown htag hnum hfind => exact .unknown htag hnum hfind hbytes
  | value hmem htag hnumber htype htakes =>
      rw [List.append_assoc]
      exact .record hmem htag hnumber (.value htype htakes) hbytes
  | message hmem htag hnumber htype hlength hsize hbody =>
      rcases length_of_messageSize hne hsize with ⟨hmod, hlt⟩
      rw [List.append_assoc]
      exact .record hmem htag hnumber (htype ▸ .message hlength hmod hlt hbody) hbytes

/-- A piece that is a record of a declared field. -/
theorem Piece.stepsOver {room n : ℕ} {msgD : M} {fd : FieldDescriptor M}
    {tagBytes payload rest : Bytes} (h : Piece schema room msgD (tagBytes ++ payload) rest)
    (hmem : fd ∈ (schema msgD).field) (htag : Varint.decode tagBytes = some (n, []))
    (hnumber : n % 2 ^ 32 / 8 = fd.number)
    (hrest : 0 < room → fd.type.messageType? ≠ none → rest ≠ []) :
    StepsOver schema room fd.type payload := by
  have hfd := Descriptor.findFieldByNumber_of_mem hmem
  generalize hpiece : tagBytes ++ payload = piece at h
  cases h with
  | unknown htag' _ hfind =>
      obtain ⟨rfl, rfl, -⟩ :=
        Varint.decode_append_inj htag htag' (hpiece.trans (List.append_nil _).symm)
      cases hfd.symm.trans (hnumber ▸ hfind)
  | value hmem' htag' hnumber' htype htakes =>
      obtain ⟨rfl, rfl, rfl⟩ := Varint.decode_append_inj htag htag' hpiece
      rw [← hnumber, hnumber', Descriptor.findFieldByNumber_of_mem hmem'] at hfd
      obtain rfl := Option.some.inj hfd
      exact .value htype htakes
  | message hmem' htag' hnumber' htype hlength hsize hbody =>
      obtain ⟨rfl, rfl, rfl⟩ := Varint.decode_append_inj htag htag' hpiece
      rw [← hnumber, hnumber', Descriptor.findFieldByNumber_of_mem hmem'] at hfd
      obtain rfl := Option.some.inj hfd
      have hne := hrest (Nat.succ_pos _) (by rw [htype]; exact Option.some_ne_none _)
      rcases length_of_messageSize hne hsize with ⟨hmod, hlt⟩
      exact htype ▸ .message hlength hmod hlt hbody

/-- An iteration ends deeper than it began, or behind a piece of the message. -/
structure Advanced (S : CodedInputStream) (schema : Schema M) (msgD : M) (s s' : S.Stream) :
    Prop where
  readable : S.Readable s
  end_eq : (S.view s').legitimateEnd = false
  moved : (S.view s).depth < (S.view s').depth ∨ ∃ piece rest,
    (S.view s).unread = piece ++ rest ∧
      Piece schema (S.recursionLimit - (S.view s).depth) msgD piece rest ∧
      S.view s' = { (S.view s).advance piece.length with legitimateEnd := false }

theorem Advanced.depth_le {msgD : M} {s s' : S.Stream} (h : Advanced S schema msgD s s') :
    (S.view s).depth ≤ (S.view s').depth := by
  rcases h.moved with hdeeper | ⟨piece, rest, -, -, hview⟩
  · exact hdeeper.le
  · rw [hview]
    exact le_rfl

theorem ReadThrough.of_advanced {msgD : M} {s s' s'' : S.Stream}
    (hs : Advanced S schema msgD s s') (h : ReadThrough S schema msgD s' s'') :
    ReadThrough S schema msgD s s'' := by
  rcases hs.moved with hdeeper | ⟨piece, rest, hunread, hpiece, hview⟩
  · exact .of_lt (hdeeper.trans_le h.depth_le)
  · exact .of_advance hs.readable hunread hview h hpiece.usedUp

section

variable (hS : S.Losing) {s : S.Stream} {msgD : M} {fd : FieldDescriptor M}
  (hwithin : (S.view s).data.length ≤ S.totalBytesLimit)
  (hend : (S.view s).legitimateEnd = false) (hnum : (readFieldNumber S s).1 ≠ 0)

include hS hwithin hend hnum

theorem advanced_unknown (hfind : (schema msgD).findFieldByNumber (readFieldNumber S s).1 = none)
    (hkept : KeepsPlace S s (readFieldNumber S s).2) :
    Advanced S schema msgD s (readFieldNumber S s).2 := by
  rcases readFieldNumber_kept_ne_zero hS hwithin hkept hnum with
    ⟨hs, tagBytes, n, rest, hunread, hdecode, hnumber, hview, -, -⟩
  refine ⟨hs, ?_, .inr ⟨tagBytes, rest, hunread, ?_, ?_⟩⟩
  · rw [hview]
    exact hend
  · exact .unknown hdecode (hnumber ▸ hnum) (hnumber ▸ hfind)
  · rw [hview, StreamView.advance, hend]

theorem advanced_value (hfind : (schema msgD).findFieldByNumber (readFieldNumber S s).1 = some fd)
    (htype : fd.type.messageType? = none) {tab : LuaTable}
    (hkept : KeepsPlace S s (readValue P S (readFieldNumber S s).2 tab fd).stream) :
    Advanced S schema msgD s (readValue P S (readFieldNumber S s).2 tab fd).stream := by
  have hfirst := readFieldNumber_forward hS.toProgress s
  have hsecond := readValue_forward (P := P) hS.toProgress (readFieldNumber S s).2 tab fd
  rcases readFieldNumber_kept_ne_zero hS hwithin (hkept.of_forward hsecond) hnum with
    ⟨hs, tagBytes, n, more, hunread, hdecode, hnumber, hview, hs₁, hunread₁⟩
  rcases readValue_kept_takes hS hs₁ (hkept.forward hfirst) with
    ⟨payload, rest, hunread₂, htakes, hview₂⟩
  rw [← hunread₁, hunread₂, ← List.append_assoc] at hunread
  refine ⟨hs, ?_, .inr ⟨_, rest, hunread, ?_, ?_⟩⟩
  · rw [hview₂, hview]
    exact hend
  · exact .value (Descriptor.mem_of_findFieldByNumber hfind) hdecode
      (hnumber ▸ (Descriptor.number_of_findFieldByNumber hfind).symm) htype htakes
  · rw [hview₂, hview, List.length_append]
    simp only [StreamView.advance, Nat.add_assoc, hend]

/-- A message: the nested call has read through it, or it ends deeper. -/
theorem advanced_message {messageType : M}
    (hfind : (schema msgD).findFieldByNumber (readFieldNumber S s).1 = some fd)
    (htype : fd.type.messageType? = some messageType) {t : S.Stream}
    (hlength : KeepsPlace S s (beginMessage S (readFieldNumber S s).2 none).2.2)
    (hthrough : (S.view (beginMessage S (readFieldNumber S s).2 none).2.2).legitimateEnd = false →
      ReadThrough S schema messageType (beginMessage S (readFieldNumber S s).2 none).2.2 t)
    (ht : S.Readable
      (endMessage S (-1) t (beginMessage S (readFieldNumber S s).2 none).2.1).2) :
    Advanced S schema msgD s
      (endMessage S (-1) t (beginMessage S (readFieldNumber S s).2 none).2.1).2 := by
  have hfirst := readFieldNumber_forward hS.toProgress s
  have hbegin := beginMessage_forward hS.toProgress (readFieldNumber S s).2 none
  rcases readFieldNumber_kept_ne_zero hS hwithin (hlength.of_forward hbegin) hnum with
    ⟨hs, tagBytes, n, more, hunread, hdecode, hnumber, hview, hs₁, hunread₁⟩
  have hdepth : (S.view (readFieldNumber S s).2).depth = (S.view s).depth := by
    rw [hview]
    rfl
  have hleave := legitimateEnd_endMessage hS.toLimits (-1) t
    (beginMessage S (readFieldNumber S s).2 none).2.1
  have hentered : (S.view (beginMessage S (readFieldNumber S s).2 none).2.2).legitimateEnd =
      false := by
    rcases beginMessage_kept hS hs₁ (hlength.forward hfirst) with
      ⟨-, -, -, -, -, -, -, -, hentered, -⟩
    rw [hentered, hview]
    exact hend
  rcases message_kept hS hs₁ (hlength.forward hfirst) (hthrough hentered) ht with hdeeper |
    ⟨lengthBytes, size, body, rest, hunread₂, hsizeBytes, hsize, hroom, hused, hleft⟩
  · exact ⟨hs, hleave, .inl (hdepth ▸ hdeeper)⟩
  · rw [hdepth] at hroom hused
    have hbudget : S.recursionLimit - (S.view s).depth =
        S.recursionLimit - ((S.view s).depth + 1) + 1 := by omega
    rw [← hunread₁, hunread₂, ← List.append_assoc lengthBytes, ← List.append_assoc tagBytes]
      at hunread
    refine ⟨hs, hleave, .inr ⟨_, rest, hunread, ?_, ?_⟩⟩
    · rw [hbudget]
      exact .message (Descriptor.mem_of_findFieldByNumber hfind) hdecode
        (hnumber ▸ (Descriptor.number_of_findFieldByNumber hfind).symm)
        (FieldType.eq_message htype) hsizeBytes hsize hused
    · rw [hleft, hview]
      simp only [StreamView.advance, Nat.add_assoc, List.length_append]

end

/-! ## Calls -/

/-- A call that does not lose its place has read through its message. -/
theorem DecodeDerivation.readThrough (hS : S.Losing) {depth : ℕ} {s : S.Stream} {msgD : M}
    {tab : LuaTable} {run : Run S}
    (h : DecodeDerivation P S (fun _ => -1) schema depth s msgD tab run)
    (hwithin : (S.view s).data.length ≤ S.totalBytesLimit)
    (hend : (S.view s).legitimateEnd = false) (hkept : KeepsPlace S s run.stream) :
    S.Readable s ∧ ReadThrough S schema msgD s run.stream := by
  induction h with
  | @stop depth s msgD tab hzero =>
      rcases readFieldNumber_kept hS hwithin hkept with ⟨hs, hnil | hread⟩
      · have hview := (readFieldNumber_end hS.toReads hs hnil).2
        refine ⟨hs, ?_, fun _ _ => ?_⟩
        · rw [hview]
        · rw [hnil, hview]
          exact ⟨.nil, rfl⟩
      · rcases hread with ⟨n, hview⟩
        refine ⟨hs, ?_, fun _ hlast => ?_⟩
        · rw [hview]
          exact le_rfl
        · rw [hview] at hlast
          exact absurd (hend.symm.trans hlast) Bool.false_ne_true
  | @unknown depth s msgD tab rest hnum hfind hrest ih =>
      have hfirst := readFieldNumber_forward hS.toProgress s
      have hmoved := advanced_unknown hS hwithin hend hnum hfind
        (hkept.of_forward (hrest.forward hS.toProgress))
      exact ⟨hmoved.readable, .of_advanced hmoved
        (ih (hfirst.1 ▸ hwithin) hmoved.end_eq (hkept.forward hfirst)).2⟩
  | @message depth s msgD tab fd messageType value rest hnum hfind htype hvalue hrest ihv ihr =>
      have hinner := hvalue.forward hS.toProgress
      have hfinish := endMessage_forward hS.toProgress (-1) value.stream
        (beginMessage S (readFieldNumber S s).2 none).2.1
      have hbefore := (readFieldNumber_forward hS.toProgress s).trans
        (beginMessage_forward hS.toProgress (readFieldNumber S s).2 none)
      have hforward := hbefore.trans (hinner.trans hfinish)
      have hinside : KeepsPlace S s value.stream :=
        (hkept.of_forward (hrest.forward hS.toProgress)).of_forward hfinish
      rcases ihr (hforward.1 ▸ hwithin) (legitimateEnd_endMessage hS.toLimits _ _ _)
        (hkept.forward hforward) with ⟨hbehind, hrest⟩
      have hmoved := advanced_message hS hwithin hend hnum hfind htype (hinside.of_forward hinner)
        (fun hentered => (ihv (hbefore.1 ▸ hwithin) hentered (hinside.forward hbefore)).2) hbehind
      exact ⟨hmoved.readable, .of_advanced hmoved hrest⟩
  | @value depth s msgD tab fd rest hnum hfind htype hrest ih =>
      have hforward := (readFieldNumber_forward hS.toProgress s).trans
        (readValue_forward (P := P) hS.toProgress (readFieldNumber S s).2 tab fd)
      have hmoved := advanced_value (P := P) hS hwithin hend hnum hfind htype
        (hkept.of_forward (hrest.forward hS.toProgress))
      exact ⟨hmoved.readable, .of_advanced hmoved
        (ih (hforward.1 ▸ hwithin) hmoved.end_eq (hkept.forward hforward)).2⟩

/-! ## Several iterations -/

section

variable (hS : S.Losing) {depth : ℕ} {s s' : S.Stream} {msgD : M} {tab tab' : LuaTable}

include hS

theorem Iterates.end_eq (h : Iterates P S (fun _ => -1) schema depth msgD s tab s' tab')
    (hwithin : (S.view s).data.length ≤ S.totalBytesLimit)
    (hend : (S.view s).legitimateEnd = false) (hkept : KeepsPlace S s s') :
    (S.view s').legitimateEnd = false := by
  cases h with
  | unknown hnum hfind => exact (advanced_unknown hS hwithin hend hnum hfind hkept).end_eq
  | message => exact legitimateEnd_endMessage hS.toLimits _ _ _
  | value hnum hfind htype =>
      exact (advanced_value (P := P) hS hwithin hend hnum hfind htype hkept).end_eq

theorem Iterates.advanced (h : Iterates P S (fun _ => -1) schema depth msgD s tab s' tab')
    (hwithin : (S.view s).data.length ≤ S.totalBytesLimit)
    (hend : (S.view s).legitimateEnd = false) (hkept : KeepsPlace S s s') (hs' : S.Readable s') :
    Advanced S schema msgD s s' := by
  cases h with
  | unknown hnum hfind => exact advanced_unknown hS hwithin hend hnum hfind hkept
  | value hnum hfind htype => exact advanced_value (P := P) hS hwithin hend hnum hfind htype hkept
  | message hnum hfind htype hvalue =>
      have hbefore := (readFieldNumber_forward hS.toProgress s).trans
        (beginMessage_forward hS.toProgress (readFieldNumber S s).2 none)
      have hinside := hkept.of_forward (endMessage_forward hS.toProgress (-1) _ _)
      refine advanced_message hS hwithin hend hnum hfind htype
        (hinside.of_forward (hvalue.forward hS.toProgress)) (fun hentered => ?_) hs'
      exact (hvalue.readThrough hS (hbefore.1 ▸ hwithin) hentered (hinside.forward hbefore)).2

/-- An iteration that ends behind a record, with more bytes to come if it entered a message, has
read the payload to its end. -/
theorem Iterates.stepsOver {n : ℕ} {fd : FieldDescriptor M} {tagBytes payload rest : Bytes}
    {b : Bool} (h : Iterates P S (fun _ => -1) schema depth msgD s tab s' tab')
    (hmem : fd ∈ (schema msgD).field) (head : LoopHead S 0 s (tagBytes ++ (payload ++ rest)))
    (hend : (S.view s).legitimateEnd = false)
    (htag : Varint.decode tagBytes = some (n, [])) (hnumber : n % 2 ^ 32 / 8 = fd.number)
    (hview : S.view s' = { (S.view s).advance (tagBytes ++ payload).length with
      legitimateEnd := b })
    (hrest : (S.view s).depth < S.recursionLimit → fd.type.messageType? ≠ none → rest ≠ []) :
    StepsOver schema (S.recursionLimit - (S.view s).depth) fd.type payload := by
  have hunread := head.unread_eq
  rw [← List.append_assoc] at hunread
  have hs' := (head.readable.advance hunread hview).1
  have hkept := keepsPlace_of_readable (h.forward hS.toProgress) hs'
  have hmoved := h.advanced hS head.readable.within hend hkept hs'
  rcases hmoved.moved with hdeeper | ⟨piece, more, hunread', hpiece, hview'⟩
  · rw [hview] at hdeeper
    exact absurd hdeeper (lt_irrefl _)
  · have hposition := congrArg StreamView.position (hview.symm.trans hview')
    obtain ⟨rfl, rfl⟩ := List.append_inj (hunread.symm.trans hunread')
      (Nat.add_left_cancel hposition)
    exact hpiece.stepsOver hmem htag hnumber fun hroom => hrest (Nat.lt_of_sub_pos hroom)

/-- Iterations that end no deeper than they began have read what lies between piece by piece. -/
theorem Iterations.stepsThrough
    (h : Iterations P S (fun _ => -1) schema depth msgD s tab s' tab')
    (hwithin : (S.view s).data.length ≤ S.totalBytesLimit)
    (hend : (S.view s).legitimateEnd = false) (hkept : KeepsPlace S s s') (hs' : S.Readable s') :
    S.Readable s ∧ (S.view s').legitimateEnd = false ∧ (S.view s).depth ≤ (S.view s').depth ∧
      ((S.view s').depth = (S.view s).depth → ∀ bytes rest, (S.view s).unread = bytes ++ rest →
        rest ≠ [] → (S.view s').position = (S.view s).position + bytes.length →
        StepsThrough schema (S.recursionLimit - (S.view s).depth) msgD bytes) := by
  induction h with
  | refl =>
      refine ⟨hs', hend, le_rfl, fun _ bytes rest _ _ hposition => ?_⟩
      obtain rfl := List.length_eq_zero_iff.mp (Nat.left_eq_add.mp hposition)
      exact .nil
  | @step s _ t _ s' _ hstep hrest ih =>
      have hforward := hstep.forward hS.toProgress
      have hforward' := hrest.forward hS.toProgress
      have hfirst := hkept.of_forward hforward'
      rcases ih (hforward.1 ▸ hwithin) (hstep.end_eq hS hwithin hend hfirst)
        (hkept.forward hforward) hs' with ⟨ht, hend', hdepth, hsteps⟩
      have hmoved := hstep.advanced hS hwithin hend hfirst ht
      refine ⟨hmoved.readable, hend', hmoved.depth_le.trans hdepth, ?_⟩
      intro hsame bytes rest hunread hne hposition
      rcases hmoved.moved with hdeeper | ⟨piece, more, hunread', hpiece, hview⟩
      · omega
      · have hdepth' : (S.view t).depth = (S.view s).depth := by
          rw [hview]
          rfl
        have hbehind : (S.view t).position = (S.view s).position + piece.length := by
          rw [hview]
          rfl
        have hle : piece.length ≤ bytes.length := by
          have hmonotone := hforward'.2
          omega
        have hprefix : piece <+: bytes := by
          refine List.prefix_of_prefix_length_le ?_ (List.prefix_append bytes rest) hle
          rw [← hunread, hunread']
          exact List.prefix_append piece more
        rcases hprefix with ⟨bytes', rfl⟩
        rw [List.append_assoc, hunread'] at hunread
        have hmore := List.append_cancel_left hunread
        rw [hdepth'] at hsteps
        refine hpiece.stepsThrough ?_ (hsteps hsame bytes' rest ?_ hne ?_)
        · rw [hmore]
          simp [hne]
        · rw [(hmoved.readable.advance hunread' hview).2, hmore]
        · rw [hposition, hbehind, List.length_append, Nat.add_assoc]

/-- Loop heads with bytes between them, and more to come: the bytes were read piece by piece. -/
theorem Iterations.reads (h : Iterations P S (fun _ => -1) schema depth msgD s tab s' tab')
    {bytes rest : Bytes} {b : Bool} (head : LoopHead S 0 s (bytes ++ rest))
    (hend : (S.view s).legitimateEnd = false) (hne : rest ≠ [])
    (hview : S.view s' = { (S.view s).advance bytes.length with legitimateEnd := b }) :
    StepsThrough schema (S.recursionLimit - (S.view s).depth) msgD bytes ∧
      (S.view s').legitimateEnd = false := by
  have head' := head.advance hview
  have hkept := keepsPlace_of_readable (h.forward hS.toProgress) head'.readable
  rcases h.stepsThrough hS head.readable.within hend hkept head'.readable with
    ⟨-, hend', -, hsteps⟩
  rw [hview] at hsteps
  exact ⟨hsteps rfl bytes rest head.unread_eq hne rfl, hend'⟩

end

end Luapb
