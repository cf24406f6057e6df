import Luapb.Verification.Decoder.Limits
import Luapb.Verification.Decoder.Reading
import Luapb.Verification.Decoder.Termination

/-! # Runs elsewhere in a buffer

How much was read before plays no part in how the bytes ahead are read. Two runs with the
same bytes ahead fill in the same tables, unless they pop a limit that was never set. -/

namespace Luapb

open Ieee754 Wire PBStream

/-! ## Views -/

namespace StreamView

variable {v v' : StreamView}

theorem Shifted.unread_eq (h : v.Shifted v') : v'.unread = v.unread := by
  have hposition := h.position_eq
  have hlimit := h.limit_eq
  rw [unread, unread, h.ahead_eq]
  congr 1
  omega

theorem Shifted.advance (h : v.Shifted v') (n : ℕ) : (v.advance n).Shifted (v'.advance n) where
  ahead_eq := by
    simp only [StreamView.advance, ← List.drop_drop, h.ahead_eq]
  position_eq := by
    have hposition := h.position_eq
    simp only [StreamView.advance]
    omega
  limit_eq := h.limit_eq
  depth_eq := h.depth_eq
  end_eq := h.end_eq

theorem Shifted.atLimit (h : v.Shifted v') {l l' : ℤ}
    (hlimit : v'.data.length - l' = v.data.length - l) (b : Bool) :
    Shifted { v with limit := l, legitimateEnd := b } { v' with limit := l', legitimateEnd := b } :=
  ⟨h.ahead_eq, h.position_eq, hlimit, h.depth_eq, rfl⟩

theorem Shifted.atDepth (h : v.Shifted v') (d : ℕ) :
    Shifted { v with depth := d } { v' with depth := d } :=
  ⟨h.ahead_eq, h.position_eq, h.limit_eq, rfl, h.end_eq⟩

theorem Shifted.valid (h : v.Shifted v') (hv : v.Valid) : v'.Valid := by
  have hposition := h.position_eq
  have hlimit := h.limit_eq
  have hle := hv.position_le
  have hle' := hv.limit_le
  constructor <;> omega

theorem Shifted.symm (h : v.Shifted v') : v'.Shifted v :=
  ⟨h.ahead_eq.symm, h.position_eq.symm, h.limit_eq.symm, h.depth_eq.symm, h.end_eq.symm⟩

/-- The bytes behind the limit. -/
def behind (v : StreamView) : Bytes := v.data.drop v.limit.toNat

theorem Valid.ahead_eq (hv : v.Valid) : v.data.drop v.position = v.unread ++ v.behind := by
  have hposition := hv.position_le
  have hdrop : v.data.drop v.limit.toNat =
      (v.data.drop v.position).drop (v.limit.toNat - v.position) := by
    rw [List.drop_drop]
    congr 1
    omega
  rw [unread, behind, hdrop, List.take_append_drop]

theorem Valid.length_behind (hv : v.Valid) : (v.behind.length : ℤ) = v.data.length - v.limit := by
  have hposition := hv.position_le
  have hlimit := hv.limit_le
  rw [behind, List.length_drop]
  omega

/-- Behind the body of a message stands the rest of the message around it. -/
theorem Valid.behind_entered (hv : v.Valid) {lengthBytes body rest : Bytes}
    (hunread : v.unread = lengthBytes ++ (body ++ rest)) :
    (v.entered lengthBytes body).behind = rest ++ v.behind := by
  have hend : ((v.position : ℤ) + lengthBytes.length + body.length).toNat =
      v.position + (lengthBytes ++ body).length := by
    rw [List.length_append]
    omega
  simp only [behind, entered, StreamView.advance, hend]
  rw [← List.drop_drop, hv.ahead_eq, hunread, ← List.append_assoc, List.append_assoc,
    List.drop_left]
  rfl

/-- With the same bytes up to the limit and behind it. -/
theorem shifted_of_unread_eq (hv : v.Valid) (hv' : v'.Valid) (hunread : v'.unread = v.unread)
    (hbehind : v'.behind = v.behind) (hdepth : v'.depth = v.depth)
    (hend : v'.legitimateEnd = v.legitimateEnd) : v.Shifted v' := by
  have hahead : v'.data.drop v'.position = v.data.drop v.position := by
    rw [hv.ahead_eq, hv'.ahead_eq, hunread, hbehind]
  have hlen := congrArg List.length hahead
  have hle := hv.position_le.trans hv.limit_le
  have hle' := hv'.position_le.trans hv'.limit_le
  rw [List.length_drop, List.length_drop] at hlen
  refine ⟨hahead, by omega, ?_, hdepth, hend⟩
  rw [← hv.length_behind, ← hv'.length_behind, hbehind]

/-- A read that finds the same ahead of both views. -/
def Shifts {α : Type} (spec : StreamView → Option (α × StreamView)) : Prop :=
  ∀ {v v'}, v.Shifted v' →
    Option.Rel (fun p p' => p'.1 = p.1 ∧ p.2.Shifted p'.2) (spec v) (spec v')

theorem shifts_readVarint : Shifts readVarint := by
  intro v v' h
  rw [readVarint, readVarint, h.unread_eq]
  cases Varint.decode v.unread with
  | none => exact .none
  | some p => exact .some ⟨rfl, h.advance _⟩

theorem shifts_readVarintAs {α : Type} (f : ℕ → α) : Shifts (readVarintAs f) := by
  intro v v' h
  have hread := shifts_readVarint h
  rw [readVarintAs, readVarintAs]
  revert hread
  generalize v.readVarint = r
  generalize v'.readVarint = r'
  rintro (⟨hn, hs⟩ | _)
  · exact .some ⟨congrArg f hn, hs⟩
  · exact .none

theorem shifts_readFloat : Shifts readFloat := by
  intro v v' h
  rw [readFloat, readFloat, h.unread_eq]
  cases Wire.readFixed32 v.unread with
  | none => exact .none
  | some p => exact .some ⟨rfl, h.advance 4⟩

theorem shifts_readBytes (n : ℕ) : Shifts (readBytes · n) := by
  intro v v' h
  simp only [readBytes, h.unread_eq]
  split
  · exact .some ⟨rfl, h.advance n⟩
  · exact .none

theorem shifts_readString : Shifts readString := by
  intro v v' h
  have hread := shifts_readVarint h
  rw [readString, readString]
  revert hread
  generalize v.readVarint = r
  generalize v'.readVarint = r'
  rintro (⟨hn, hs⟩ | _)
  · rw [Option.bind_some, Option.bind_some, hn]
    split
    · exact shifts_readBytes _ hs
    · exact .none
  · exact .none

/-! ## The reference streams -/

/-- Two reads with the same outcome. -/
structure SameRead {α : Type} (r r' : Read StreamView α) : Prop where
  ok_eq : r'.ok = r.ok
  value_eq : r'.value = r.value
  shifted : r.stream.Shifted r'.stream

theorem Shifted.failVarint (h : v.Shifted v') : v.failVarint.Shifted v'.failVarint := by
  rw [StreamView.failVarint, StreamView.failVarint, h.unread_eq]
  split
  · exact h.advance _
  · exact h

theorem Shifted.lost (h : v.Shifted v') : v.lost.Shifted v'.lost := by
  have hposition := h.position_eq
  have hrest : v'.data.length + 1 - v'.position = v.data.length + 1 - v.position := by omega
  rw [StreamView.lost, StreamView.lost, hrest]
  exact h.advance _

theorem Shifted.readVarintRef {α : Type} (f : ℕ → α) (h : v.Shifted v') (x : α) :
    SameRead (v.readVarintRef f x) (v'.readVarintRef f x) := by
  have hread := shifts_readVarintAs f h
  rw [StreamView.readVarintRef, StreamView.readVarintRef]
  revert hread
  generalize v.readVarintAs f = r
  generalize v'.readVarintAs f = r'
  rintro (⟨hvalue, hs⟩ | _)
  · exact ⟨rfl, hvalue, hs⟩
  · exact ⟨rfl, rfl, h.failVarint⟩

theorem Shifted.readFloatRef (h : v.Shifted v') (x : CFloat) :
    SameRead (v.readFloatRef x) (v'.readFloatRef x) := by
  have hread := shifts_readFloat h
  rw [StreamView.readFloatRef, StreamView.readFloatRef, h.unread_eq]
  revert hread
  generalize v.readFloat = r
  generalize v'.readFloat = r'
  rintro (⟨hvalue, hs⟩ | _)
  · exact ⟨rfl, hvalue, hs⟩
  · exact ⟨rfl, rfl, h.advance _⟩

theorem Shifted.readStringRef (h : v.Shifted v') (x : Bytes) :
    SameRead (v.readStringRef x) (v'.readStringRef x) := by
  have hread := shifts_readVarint h
  rw [StreamView.readStringRef, StreamView.readStringRef]
  revert hread
  generalize v.readVarint = r
  generalize v'.readVarint = r'
  rintro (@⟨⟨n, w⟩, ⟨n', w'⟩, hn, hs⟩ | _)
  · dsimp only at hn hs ⊢
    subst hn
    split
    · have hbytes := shifts_readBytes (n' % 2 ^ 32) hs
      dsimp only at hbytes
      rw [hs.unread_eq]
      revert hbytes
      generalize w.readBytes (n' % 2 ^ 32) = r
      generalize w'.readBytes (n' % 2 ^ 32) = r'
      rintro (⟨hvalue, hs'⟩ | _)
      · exact ⟨rfl, hvalue, hs'⟩
      · exact ⟨rfl, rfl, hs.advance _⟩
    · exact ⟨rfl, rfl, hs⟩
  · exact ⟨rfl, rfl, h.failVarint⟩

theorem Shifted.readTagRef (h : v.Shifted v') :
    v'.readTagRef.1 = v.readTagRef.1 ∧ v.readTagRef.2.Shifted v'.readTagRef.2 := by
  have hread := shifts_readVarint h
  rw [StreamView.readTagRef, StreamView.readTagRef, h.unread_eq]
  split
  · exact ⟨rfl, h.atLimit h.limit_eq true⟩
  · revert hread
    generalize v.readVarint = r
    generalize v'.readVarint = r'
    rintro (⟨hn, hs⟩ | _)
    · exact ⟨congrArg (BitVec.ofNat 32) hn, hs⟩
    · exact ⟨rfl, h.failVarint⟩

theorem Shifted.readOrLose {α : Type} {spec : StreamView → Option (α × StreamView)}
    (hspec : Shifts spec) (h : v.Shifted v') (x : α) :
    SameRead (v.readOrLose spec x) (v'.readOrLose spec x) := by
  have hread := hspec h
  rw [StreamView.readOrLose, StreamView.readOrLose]
  by_cases hv : v.Valid
  · rw [if_pos hv, if_pos (h.valid hv)]
    revert hread
    generalize spec v = r
    generalize spec v' = r'
    rintro (⟨hvalue, hs⟩ | _)
    · exact ⟨rfl, hvalue, hs⟩
    · exact ⟨rfl, rfl, h.lost⟩
  · rw [if_neg hv, if_neg fun hv' => hv (h.symm.valid hv')]
    exact ⟨rfl, rfl, h.lost⟩

theorem Shifted.readTagOrLose (h : v.Shifted v') :
    v'.readTagOrLose.1 = v.readTagOrLose.1 ∧ v.readTagOrLose.2.Shifted v'.readTagOrLose.2 := by
  have hread := shifts_readVarint h
  rw [StreamView.readTagOrLose, StreamView.readTagOrLose, h.unread_eq]
  by_cases hv : v.Valid
  · rw [if_pos hv, if_pos (h.valid hv)]
    split
    · exact ⟨rfl, h.atLimit h.limit_eq true⟩
    · revert hread
      generalize v.readVarint = r
      generalize v'.readVarint = r'
      rintro (⟨hn, hs⟩ | _)
      · exact ⟨congrArg (BitVec.ofNat 32) hn, hs⟩
      · exact ⟨rfl, h.lost⟩
  · rw [if_neg hv, if_neg fun hv' => hv (h.symm.valid hv')]
    exact ⟨rfl, h.lost⟩

end StreamView

namespace CodedInputStream

open StreamView

variable {S : CodedInputStream}

theorem Shifted.of_forward {s s' t t' : S.Stream} (h : S.Shifted s s') (hforward : S.Forward s t)
    (hforward' : S.Forward s' t') (hviews : (S.view t).Shifted (S.view t')) : S.Shifted t t' :=
  ⟨hviews, hforward.1.symm ▸ h.within, hforward'.1.symm ▸ h.within'⟩

theorem alike_of_sameRead {α : Type} {read : S.Stream → α → Read S.Stream α}
    (hforward : ∀ s x, S.Forward s (read s x).stream)
    (hread : ∀ {s s'}, (S.view s).Shifted (S.view s') → ∀ x,
      SameRead ⟨(read s x).ok, (read s x).value, S.view (read s x).stream⟩
        ⟨(read s' x).ok, (read s' x).value, S.view (read s' x).stream⟩) : S.Alike read := by
  intro s s' h x
  rcases hread h.views x with ⟨hok, hvalue, hviews⟩
  exact ⟨hok, hvalue, h.of_forward (hforward s x) (hforward s' x) hviews⟩

theorem reference_uniform : reference.Uniform where
  readTag h := by
    have hread := h.views.readTagRef
    exact ⟨hread.1, h.of_forward (reference_documented.readTag_forward _)
      (reference_documented.readTag_forward _) hread.2⟩
  readFloat := alike_of_sameRead (fun s x => reference_documented.read_forward (.float s x))
    fun h => h.readFloatRef
  readInt32 := alike_of_sameRead (fun s x => reference_documented.read_forward (.int32 s x))
    fun h => h.readVarintRef _
  readBool := alike_of_sameRead (fun s x => reference_documented.read_forward (.bool s x))
    fun h => h.readVarintRef _
  readUInt32 := alike_of_sameRead (fun s x => reference_documented.read_forward (.uint32 s x))
    fun h => h.readVarintRef _
  readEnum := alike_of_sameRead (fun s x => reference_documented.read_forward (.enum s x))
    fun h => h.readVarintRef _
  readString := alike_of_sameRead (fun s x => reference_documented.read_forward (.string s x))
    fun h => h.readStringRef

theorem losing_uniform (recursionLimit : ℕ) : (losing recursionLimit).Uniform where
  readTag h := by
    have hread := h.views.readTagOrLose
    exact ⟨hread.1, h.of_forward (losing_documented.readTag_forward _)
      (losing_documented.readTag_forward _) hread.2⟩
  readFloat := alike_of_sameRead (fun s x => losing_documented.read_forward (.float s x))
    fun h => h.readOrLose shifts_readFloat
  readInt32 := alike_of_sameRead (fun s x => losing_documented.read_forward (.int32 s x))
    fun h => h.readOrLose (shifts_readVarintAs _)
  readBool := alike_of_sameRead (fun s x => losing_documented.read_forward (.bool s x))
    fun h => h.readOrLose (shifts_readVarintAs _)
  readUInt32 := alike_of_sameRead (fun s x => losing_documented.read_forward (.uint32 s x))
    fun h => h.readOrLose (shifts_readVarintAs _)
  readEnum := alike_of_sameRead (fun s x => losing_documented.read_forward (.enum s x))
    fun h => h.readOrLose (shifts_readVarintAs _)
  readString := alike_of_sameRead (fun s x => losing_documented.read_forward (.string s x))
    fun h => h.readOrLose shifts_readString

end CodedInputStream

/-! ## Runs -/

variable {M : Type} {P : Platform} {S : CodedInputStream} {garbage garbage' : S.Stream → ℤ}
  {schema : Schema M}

/-- No limit is popped that was never set. -/
def Event.popsAssigned : Event S → Bool
  | .message _ _ limit inner _ => limit.isSome || !S.consumedEntireMessage inner
  | _ => true

section

variable {s s' : S.Stream} (h : S.Shifted s s')

include h

theorem readFieldNumber_shifted (hU : S.Uniform) :
    (readFieldNumber S s').1 = (readFieldNumber S s).1 ∧
      S.Shifted (readFieldNumber S s).2 (readFieldNumber S s').2 := by
  rcases hU.readTag h with ⟨htag, hs⟩
  rw [readFieldNumber, readFieldNumber, htag]
  split
  · exact ⟨rfl, hs⟩
  · exact ⟨rfl, hs⟩

theorem fillFrom_shifted {α : Type} {read : S.Stream → α → Read S.Stream α} (hread : S.Alike read)
    (push : α → LuaTree) (tab : LuaTable) (fd : FieldDescriptor M) (x : α) :
    (fillFrom P push tab fd (read s' x)).tab = (fillFrom P push tab fd (read s x)).tab ∧
      S.Shifted (fillFrom P push tab fd (read s x)).stream
        (fillFrom P push tab fd (read s' x)).stream := by
  rcases hread h x with ⟨-, hvalue, hs⟩
  simp only [fillFrom, hvalue]
  exact ⟨trivial, hs⟩

theorem readValue_shifted (hU : S.Uniform) (tab : LuaTable) (fd : FieldDescriptor M) :
    (readValue P S s' tab fd).tab = (readValue P S s tab fd).tab ∧
      S.Shifted (readValue P S s tab fd).stream (readValue P S s' tab fd).stream := by
  rw [readValue, readValue]
  cases fd.type with
  | float => exact fillFrom_shifted h hU.readFloat _ tab fd _
  | int32 => exact fillFrom_shifted h hU.readInt32 _ tab fd _
  | bool => exact fillFrom_shifted h hU.readBool _ tab fd _
  | string | int64 | uint64 => exact fillFrom_shifted h hU.readString _ tab fd _
  | uint32 => exact fillFrom_shifted h hU.readUInt32 _ tab fd _
  | enum enumType =>
      rcases hU.readEnum h 0 with ⟨-, hvalue, hs⟩
      simp only [hvalue]
      split
      · exact ⟨rfl, hs⟩
      · exact ⟨rfl, hs⟩
  | _ => exact ⟨rfl, h⟩

theorem pushLimit_shifted (hS : S.Documented) (n : BitVec 32) :
    S.Shifted (S.pushLimit s n).2 (S.pushLimit s' n).2 := by
  refine h.of_forward (hS.pushLimit_forward s n) (hS.pushLimit_forward s' n) ?_
  have hposition := h.views.position_eq
  have hlimit := h.views.limit_eq
  rw [hS.pushLimit, hS.pushLimit]
  refine ⟨h.views.ahead_eq, h.views.position_eq, ?_, h.views.depth_eq, h.views.end_eq⟩
  simp only [StreamView.pushedLimit]
  split <;> omega

theorem incrementRecursionDepth_shifted (hS : S.Documented) :
    (S.incrementRecursionDepth s').1 = (S.incrementRecursionDepth s).1 ∧
      S.Shifted (S.incrementRecursionDepth s).2 (S.incrementRecursionDepth s').2 := by
  refine ⟨?_, h.of_forward (hS.incrementRecursionDepth_forward s)
    (hS.incrementRecursionDepth_forward s') ?_⟩
  · rw [hS.increment_ok, hS.increment_ok, h.views.depth_eq]
  · rw [hS.increment, hS.increment, h.views.depth_eq]
    exact h.views.atDepth _

/-- `BeginMessage` sets the limits in force, or none. -/
theorem beginMessage_shifted (hS : S.Documented) (hU : S.Uniform) :
    S.Shifted (beginMessage S s none).2.2 (beginMessage S s' none).2.2 ∧
      ((beginMessage S s none).2.1 = none ∧ (beginMessage S s' none).2.1 = none ∨
        (beginMessage S s none).2.1 = some (S.view s).limit ∧
          (beginMessage S s' none).2.1 = some (S.view s').limit) := by
  rcases hU.readInt32 h 0 with ⟨hok, hvalue, hs₁⟩
  rcases incrementRecursionDepth_shifted hs₁ hS with ⟨hinc, hs₂⟩
  have hlimit : ∀ t : S.Stream, (S.pushLimit (S.incrementRecursionDepth
      (S.readInt32 t 0).stream).2 (S.readInt32 t 0).value).1 = (S.view t).limit := by
    intro t
    rw [hS.pushLimit_old, hS.increment]
    exact hS.read_limit (.int32 t 0)
  simp only [beginMessage, hok, hinc]
  split
  · exact ⟨hs₁, .inl ⟨rfl, rfl⟩⟩
  · split
    · exact ⟨hs₂, .inl ⟨rfl, rfl⟩⟩
    · refine ⟨?_, .inr ⟨congrArg some (hlimit s), congrArg some (hlimit s')⟩⟩
      rw [hvalue]
      exact pushLimit_shifted hs₂ hS _

theorem endMessage_shifted (hS : S.Documented) (g g' : ℤ) {limit limit' : Option ℤ}
    (hlimit : S.consumedEntireMessage s = true → ∃ l l', limit = some l ∧ limit' = some l' ∧
      (S.view s').data.length - l' = (S.view s).data.length - l) :
    S.Shifted (endMessage S g s limit).2 (endMessage S g' s' limit').2 := by
  refine h.of_forward (endMessage_forward hS.toProgress g s limit)
    (endMessage_forward hS.toProgress g' s' limit') ?_
  have hsame : S.consumedEntireMessage s' = S.consumedEntireMessage s := by
    rw [hS.consumed, hS.consumed, h.views.end_eq]
  cases hconsumed : S.consumedEntireMessage s with
  | false =>
      rw [endMessage_unconsumed g limit hconsumed,
        endMessage_unconsumed g' limit' (hsame.trans hconsumed)]
      exact h.views
  | true =>
      rcases hlimit hconsumed with ⟨l, l', rfl, rfl, hl⟩
      rw [view_endMessage hS.toLimits g _ hconsumed,
        view_endMessage hS.toLimits g' _ (hsame.trans hconsumed), h.views.depth_eq]
      exact (h.views.atLimit hl false).atDepth _

/-- `EndMessage` pops the limits that `BeginMessage` found. -/
theorem popped_shifted (hS : S.Documented) (hU : S.Uniform) (g g' : ℤ) {t t' : S.Stream}
    (ht : S.Shifted t t') (hforward : S.Forward s t) (hforward' : S.Forward s' t')
    (hset : ((beginMessage S s none).2.1.isSome || !S.consumedEntireMessage t) = true) :
    S.Shifted (endMessage S g t (beginMessage S s none).2.1).2
      (endMessage S g' t' (beginMessage S s' none).2.1).2 := by
  apply endMessage_shifted ht hS
  intro hconsumed
  rw [hconsumed, Bool.not_true, Bool.or_false] at hset
  rcases (beginMessage_shifted h hS hU).2 with ⟨hnone, -⟩ | ⟨hlimit, hlimit'⟩
  · rw [hnone] at hset
    cases hset
  · refine ⟨_, _, hlimit, hlimit', ?_⟩
    rw [hforward.1, hforward'.1]
    exact h.views.limit_eq

end

/-- A run from a state with the same ahead of it fills in the same table. -/
theorem DecodeDerivation.shifted (hS : S.Documented) (hU : S.Uniform) {depth : ℕ} {s s' : S.Stream}
    {msgD : M} {tab : LuaTable} {run : Run S}
    (h : DecodeDerivation P S garbage schema depth s msgD tab run) (hs : S.Shifted s s')
    (hpops : ∀ e ∈ run.log, e.popsAssigned) :
    ∃ run', DecodeDerivation P S garbage' schema depth s' msgD tab run' ∧ run'.tab = run.tab ∧
      S.Shifted run.stream run'.stream := by
  induction h generalizing s' with
  | stop hzero =>
      rcases readFieldNumber_shifted hs hU with ⟨hnumber, hs₁⟩
      exact ⟨_, .stop (hnumber.trans hzero), rfl, hs₁⟩
  | unknown hnum hfind _ ih =>
      rcases readFieldNumber_shifted hs hU with ⟨hnumber, hs₁⟩
      rcases ih hs₁ fun e he => hpops e (List.mem_cons_of_mem _ he) with
        ⟨run', hrun', htab, hstream⟩
      exact ⟨_, .unknown (hnumber ▸ hnum) (hnumber ▸ hfind) hrun', htab, hstream⟩
  | @message depth s msgD tab fd messageType value rest hnum hfind htype hinner _ ihv ihr =>
      rcases readFieldNumber_shifted hs hU with ⟨hnumber, hs₁⟩
      rcases beginMessage_shifted hs₁ hS hU with ⟨hs₂, hlimits⟩
      rcases ihv hs₂ fun e he => hpops e (by simp [he]) with ⟨value', hvalue', hvalue, hs₃⟩
      have hforward := (beginMessage_forward hS.toProgress _ none).trans
        (hinner.forward hS.toProgress)
      have hforward' := (beginMessage_forward hS.toProgress _ none).trans
        (hvalue'.forward hS.toProgress)
      have hs₄ := popped_shifted hs₁ hS hU (garbage (readFieldNumber S s).2)
        (garbage' (readFieldNumber S s').2) hs₃ hforward hforward'
        (hpops (.message _ _ _ _ _) (List.mem_append_right _ List.mem_cons_self))
      rcases ihr hs₄ fun e he => hpops e (by simp [he]) with ⟨rest', hrest', htab, hs₅⟩
      rw [← hvalue] at hrest'
      exact ⟨_, .message (hnumber ▸ hnum) (hnumber ▸ hfind) htype hvalue' hrest', htab, hs₅⟩
  | @value depth s msgD tab fd rest hnum hfind htype _ ih =>
      rcases readFieldNumber_shifted hs hU with ⟨hnumber, hs₁⟩
      rcases readValue_shifted hs₁ hU tab fd with ⟨htab, hs₂⟩
      rcases ih hs₂ fun e he => hpops e (by simp [he]) with ⟨rest', hrest', htab', hstream⟩
      rw [← htab] at hrest'
      exact ⟨_, .value (hnumber ▸ hnum) (hnumber ▸ hfind) htype hrest', htab', hstream⟩

end Luapb
