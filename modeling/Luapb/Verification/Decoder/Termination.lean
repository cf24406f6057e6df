import Luapb.Verification.Decoder.Derivation

/-! # The decoder terminates

The measure is the number of bytes left, which all levels of the recursion share. -/

namespace Luapb

open PBStream

variable {M : Type} {P : Platform} {S : CodedInputStream} {garbage : S.Stream → ℤ}
  {schema : Schema M}

namespace CodedInputStream

/-- The position, no further than the end of the buffer. -/
def progress (S : CodedInputStream) (s : S.Stream) : ℕ :=
  min (S.view s).position (S.view s).data.length

theorem Forward.refl (s : S.Stream) : S.Forward s s := ⟨rfl, le_rfl⟩

theorem Forward.trans {s t u : S.Stream} (h : S.Forward s t) (k : S.Forward t u) :
    S.Forward s u := ⟨k.1.trans h.1, h.2.trans k.2⟩

theorem Forward.progress_le {s t : S.Stream} (h : S.Forward s t) :
    S.progress s ≤ S.progress t := by
  rw [progress, progress, h.1]
  exact min_le_min_right _ h.2

end CodedInputStream

/-! ## One step -/

section

variable (hS : S.Progress)
include hS

theorem readFieldNumber_forward (s : S.Stream) : S.Forward s (readFieldNumber S s).2 := by
  rw [readFieldNumber]
  split <;> exact hS.readTag_forward s

/-- A field number takes at least one byte. -/
theorem readFieldNumber_progress {s : S.Stream} (h : (readFieldNumber S s).1 ≠ 0) :
    S.progress s + 1 ≤ S.progress (readFieldNumber S s).2 := by
  have htag : (S.readTag s).1 ≠ 0 := by
    intro hzero
    simp [readFieldNumber, hzero] at h
  have hstream : (readFieldNumber S s).2 = (S.readTag s).2 := by
    rw [readFieldNumber, if_neg htag]
  have hpos := hS.readTag_consumes s htag
  have hdata := (hS.readTag_forward s).1
  have hend : (S.view s).position < (S.view s).data.length := by
    by_contra hge
    exact htag (hS.readTag_atEnd s (Nat.le_of_not_lt hge))
  rw [hstream, CodedInputStream.progress, CodedInputStream.progress, hdata]
  omega

theorem readValue_forward (s : S.Stream) (tab : LuaTable) (fd : FieldDescriptor M) :
    S.Forward s (readValue P S s tab fd).stream := by
  rcases readValue_step (P := P) s tab fd with hstay | hread
  · rw [hstay]
    exact .refl s
  · exact hS.read_forward hread

theorem beginMessage_forward (s : S.Stream) (limit : Option ℤ) :
    S.Forward s (beginMessage S s limit).2.2 := by
  have hread := hS.read_forward (.int32 s 0)
  have hinc := hread.trans (hS.incrementRecursionDepth_forward _)
  simp only [beginMessage]
  split
  · exact hread
  · split
    · exact hinc
    · exact hinc.trans (hS.pushLimit_forward _ _)

theorem endMessage_forward (g : ℤ) (s : S.Stream) (limit : Option ℤ) :
    S.Forward s (endMessage S g s limit).2 := by
  rw [endMessage]
  split
  · exact .refl s
  · exact (hS.popLimit_forward s _).trans (hS.decrementRecursionDepth_forward _)

/-! ## Whole runs -/

theorem DecodeDerivation.forward {depth : ℕ} {s : S.Stream} {msgD : M} {tab : LuaTable}
    {run : Run S} (h : DecodeDerivation P S garbage schema depth s msgD tab run) :
    S.Forward s run.stream := by
  induction h with
  | stop => exact readFieldNumber_forward hS _
  | unknown _ _ _ ih => exact (readFieldNumber_forward hS _).trans ih
  | message _ _ _ _ _ ihv ihr =>
      exact (readFieldNumber_forward hS _).trans ((beginMessage_forward hS _ _).trans
        (ihv.trans ((endMessage_forward hS _ _ _).trans ihr)))
  | value _ _ _ _ ih =>
      exact (readFieldNumber_forward hS _).trans ((readValue_forward hS _ _ _).trans ih)

theorem Iterates.forward {depth : ℕ} {msgD : M} {s s' : S.Stream} {tab tab' : LuaTable}
    (h : Iterates P S garbage schema depth msgD s tab s' tab') : S.Forward s s' := by
  cases h with
  | unknown => exact readFieldNumber_forward hS s
  | message _ _ _ hvalue =>
      exact (readFieldNumber_forward hS s).trans ((beginMessage_forward hS _ _).trans
        ((hvalue.forward hS).trans (endMessage_forward hS _ _ _)))
  | value => exact (readFieldNumber_forward hS s).trans (readValue_forward hS _ _ _)

theorem Iterations.forward {depth : ℕ} {msgD : M} {s s' : S.Stream} {tab tab' : LuaTable}
    (h : Iterations P S garbage schema depth msgD s tab s' tab') : S.Forward s s' := by
  induction h with
  | refl => exact .refl _
  | step hstep _ ih => exact (hstep.forward hS).trans ih

end

/-! ## Counting -/

def Event.isCall : Event S → Bool
  | .call _ _ => true
  | _ => false

def Event.isIteration : Event S → Bool
  | .iteration _ _ => true
  | _ => false

/-- The calls of `RawDecode` a log records. -/
def calls (log : List (Event S)) : ℕ := log.countP Event.isCall

/-- The loop iterations a log records, over all calls. -/
def iterations (log : List (Event S)) : ℕ := log.countP Event.isIteration

@[simp] theorem calls_nil : calls ([] : List (Event S)) = 0 := rfl
@[simp] theorem iterations_nil : iterations ([] : List (Event S)) = 0 := rfl

@[simp] theorem calls_append (l m : List (Event S)) : calls (l ++ m) = calls l + calls m :=
  List.countP_append

@[simp] theorem iterations_append (l m : List (Event S)) :
    iterations (l ++ m) = iterations l + iterations m := List.countP_append

@[simp] theorem calls_cons (e : Event S) (l : List (Event S)) :
    calls (e :: l) = calls l + if e.isCall then 1 else 0 := by simp [calls, List.countP_cons]

@[simp] theorem iterations_cons (e : Event S) (l : List (Event S)) :
    iterations (e :: l) = iterations l + if e.isIteration then 1 else 0 := by
  simp [iterations, List.countP_cons]

/-- A call entered between two positions makes at most as many nested calls as there
are bytes in between, and at most one iteration more than bytes and nested calls. -/
theorem DecodeDerivation.count_le (hS : S.Progress) {depth : ℕ} {s : S.Stream} {msgD : M}
    {tab : LuaTable} {run : Run S}
    (h : DecodeDerivation P S garbage schema depth s msgD tab run) :
    calls run.log + S.progress s ≤ S.progress run.stream ∧
      iterations run.log + S.progress s ≤ S.progress run.stream + calls run.log + 1 := by
  induction h with
  | @stop depth s msgD tab hzero =>
      have hle := (readFieldNumber_forward hS s).progress_le
      simp [Event.isCall, Event.isIteration]
      omega
  | unknown hnum hfind hrest ih =>
      have hstep := readFieldNumber_progress hS hnum
      simp [Event.isCall, Event.isIteration]
      omega
  | @message depth s msgD tab fd messageType value rest hnum hfind htype hvalue hrest ihv ihr =>
      have hstep := readFieldNumber_progress hS hnum
      have hbegin := (beginMessage_forward hS (readFieldNumber S s).2 none).progress_le
      have hend := (endMessage_forward hS (garbage (readFieldNumber S s).2) value.stream
        (beginMessage S (readFieldNumber S s).2 none).2.1).progress_le
      simp [Event.isCall, Event.isIteration]
      omega
  | @value depth s msgD tab fd rest hnum hfind htype hrest ih =>
      have hstep := readFieldNumber_progress hS hnum
      have hread := (readValue_forward hS (P := P) (readFieldNumber S s).2 tab fd).progress_le
      split <;> simp [Event.isCall, Event.isIteration] <;> omega

/-- Fuel for every byte still unread, and one more, is enough. -/
theorem decodeLoop_isSome (hS : S.Progress) (fuel depth : ℕ) (s : S.Stream) (msgD : M)
    (tab : LuaTable) (hfuel : (S.view s).data.length < fuel + S.progress s) :
    ∃ run, decodeLoop P S garbage schema fuel depth s msgD tab = some run := by
  induction fuel generalizing depth s msgD tab with
  | zero => simp [CodedInputStream.progress] at hfuel
  | succ fuel ih =>
      by_cases hnum : (readFieldNumber S s).1 = 0
      · exact ⟨_, decodeLoop_stop hnum⟩
      · have hstep := readFieldNumber_progress hS hnum
        have hs := readFieldNumber_forward hS s
        cases hfind : (schema msgD).findFieldByNumber (readFieldNumber S s).1 with
        | none =>
            obtain ⟨rest, hrest⟩ := ih depth (readFieldNumber S s).2 msgD tab (by
              rw [hs.1]
              omega)
            exact ⟨_, decodeLoop_unknown hnum hfind hrest⟩
        | some fd =>
            cases htype : fd.type.messageType? with
            | some messageType =>
                have hb := hs.trans (beginMessage_forward hS (readFieldNumber S s).2 none)
                have hb' := (beginMessage_forward hS (readFieldNumber S s).2 none).progress_le
                obtain ⟨value, hvalue⟩ := ih (depth + 1)
                  (beginMessage S (readFieldNumber S s).2 none).2.2 messageType [] (by
                    rw [hb.1]
                    omega)
                have hv := (decodeLoop_derivation hvalue).forward hS
                have he := endMessage_forward hS (garbage (readFieldNumber S s).2) value.stream
                  (beginMessage S (readFieldNumber S s).2 none).2.1
                have hve := (hv.trans he).progress_le
                obtain ⟨rest, hrest⟩ := ih depth _ msgD (fillValue P tab fd (.table value.tab)) (by
                  rw [((hb.trans hv).trans he).1]
                  omega)
                exact ⟨_, decodeLoop_message hnum hfind htype hvalue hrest⟩
            | none =>
                have hr := readValue_forward hS (P := P) (readFieldNumber S s).2 tab fd
                have hr' := hr.progress_le
                obtain ⟨rest, hrest⟩ := ih depth _ msgD
                  (readValue P S (readFieldNumber S s).2 tab fd).tab (by
                    rw [(hs.trans hr).1]
                    omega)
                exact ⟨_, decodeLoop_value hnum hfind htype hrest⟩

/-- On `n` bytes `RawDecode` ends, after at most `n + 1` calls and at most `n`
iterations more than calls, whatever the uninitialised limits hold. -/
theorem rawDecode_terminates (hS : S.Progress) (garbage : S.Stream → ℤ) (schema : Schema M)
    (msgD : M) (data : Bytes) (fuel : ℕ) (hfuel : data.length < fuel) :
    ∃ run, rawDecode P S garbage schema fuel 1 (S.create data) msgD = some run ∧
      iterations run.log ≤ data.length + calls run.log ∧ calls run.log ≤ data.length + 1 := by
  obtain ⟨hdata, hpos⟩ := hS.create_forward data
  have hstart : S.progress (S.create data) = 0 := by simp [CodedInputStream.progress, hpos]
  obtain ⟨run, hrun⟩ : ∃ run, decodeLoop P S garbage schema fuel 1 (S.create data) msgD [] =
      some run := by
    apply decodeLoop_isSome hS fuel 1 (S.create data) msgD []
    rw [hdata]
    omega
  have hder := decodeLoop_derivation hrun
  have hend : S.progress run.stream ≤ data.length := by
    rw [CodedInputStream.progress, (hder.forward hS).1, hdata]
    exact min_le_right _ _
  have hcount := hder.count_le hS
  refine ⟨⟨run.tab, run.stream, .call 1 (S.create data) :: run.log⟩, ?_, ?_, ?_⟩
  · rw [rawDecode, hrun]
    rfl
  · simp [Event.isCall, Event.isIteration]
    omega
  · simp [Event.isCall]
    omega

theorem rawDecode_terminates_person :
    ∃ run, referenceRun AddressBook.schema 6 [16, 128, 34, 1, 0] .person = some run ∧
      iterations run.log ≤ 5 + calls run.log ∧ calls run.log ≤ 6 :=
  rawDecode_terminates CodedInputStream.reference_documented.toProgress (fun _ => 0)
    AddressBook.schema .person [16, 128, 34, 1, 0] 6 (by decide)

end Luapb
