import Luapb.Verification.Decoder.Derivation

/-! # Limits and the recursion budget

`BeginMessage` pushes a limit and takes one from the recursion budget, `EndMessage`
undoes both, unless either of them gives up early. The loop ignores what they
return. What holds in a run is therefore a matter of whether they gave up in it. -/

namespace Luapb

open PBStream

variable {M : Type} {P : Platform} {S : CodedInputStream} {garbage : S.Stream → ℤ}
  {schema : Schema M}

/-- The limit in force and the recursion depth. -/
def inForce (S : CodedInputStream) (s : S.Stream) : ℤ × ℕ := ((S.view s).limit, (S.view s).depth)

theorem depth_of_inForce {s s' : S.Stream} (h : inForce S s' = inForce S s) :
    (S.view s').depth = (S.view s).depth := congrArg Prod.snd h

/-- The state before `BeginMessage` allows it to succeed: there is a length to read,
and some recursion budget left. -/
def MayBegin (S : CodedInputStream) (s : S.Stream) : Prop :=
  (S.readInt32 s 0).ok = true ∧ (S.view s).depth < S.recursionLimit

instance (S : CodedInputStream) (s : S.Stream) : Decidable (MayBegin S s) :=
  inferInstanceAs (Decidable (_ ∧ _))

/-! ## One message -/

section

variable (hS : S.Limits)
include hS

theorem inForce_readFieldNumber (s : S.Stream) :
    inForce S (readFieldNumber S s).2 = inForce S s := by
  have hstream : (readFieldNumber S s).2 = (S.readTag s).2 := by
    rw [readFieldNumber]
    split <;> rfl
  rw [hstream, inForce, inForce, hS.readTag_limit, hS.readTag_depth]

theorem inForce_read {s s' : S.Stream} (h : S.ReadStep s s') : inForce S s' = inForce S s := by
  rw [inForce, inForce, hS.read_limit h, hS.read_depth h]

theorem inForce_readValue (s : S.Stream) (tab : LuaTable) (fd : FieldDescriptor M) :
    inForce S (readValue P S s tab fd).stream = inForce S s := by
  rcases readValue_step (P := P) s tab fd with hstay | hread
  · rw [hstay]
  · exact inForce_read hS hread

/-- A `BeginMessage` that succeeds assigns the old limit and is one level deeper. -/
theorem beginMessage_of_mayBegin {s : S.Stream} (h : MayBegin S s) (limit : Option ℤ) :
    (beginMessage S s limit).1 = true ∧
      (beginMessage S s limit).2.1 = some (S.view s).limit ∧
      (S.view (beginMessage S s limit).2.2).depth = (S.view s).depth + 1 := by
  have hread : S.ReadStep s (S.readInt32 s 0).stream := .int32 s 0
  have hdepth := hS.read_depth hread
  have hinc : (S.incrementRecursionDepth (S.readInt32 s 0).stream).1 = true := by
    rw [hS.increment_ok, hdepth, decide_eq_true_iff]
    exact h.2
  simp only [beginMessage, h.1, hinc, Bool.true_eq_false, if_false]
  refine ⟨trivial, ?_, ?_⟩
  · rw [hS.pushLimit_old, hS.increment, hS.read_limit hread]
  · rw [hS.pushLimit, hS.increment, hdepth]

/-- A `BeginMessage` that fails assigns nothing. -/
theorem beginMessage_of_not_mayBegin {s : S.Stream} (h : ¬ MayBegin S s) (limit : Option ℤ) :
    (beginMessage S s limit).1 = false ∧ (beginMessage S s limit).2.1 = limit := by
  have hdepth := hS.read_depth (.int32 s 0)
  simp only [beginMessage]
  split
  · exact ⟨rfl, rfl⟩
  · rename_i hok
    have hinc : (S.incrementRecursionDepth (S.readInt32 s 0).stream).1 = false := by
      rw [hS.increment_ok, hdepth, decide_eq_false_iff_not]
      exact fun hlt => h ⟨by simpa using hok, hlt⟩
    rw [if_pos hinc]
    exact ⟨rfl, rfl⟩

theorem beginMessage_assigned_iff (s : S.Stream) :
    (beginMessage S s none).2.1.isSome ↔ MayBegin S s := by
  by_cases h : MayBegin S s
  · simp [h, (beginMessage_of_mayBegin hS h none).2.1]
  · simp [h, (beginMessage_of_not_mayBegin hS h none).2]

/-- Where the length cannot be read, `BeginMessage` changes nothing. -/
theorem inForce_beginMessage_unread {s : S.Stream} (h : (S.readInt32 s 0).ok = false)
    (limit : Option ℤ) : inForce S (beginMessage S s limit).2.2 = inForce S s := by
  simp only [beginMessage, h, if_true]
  exact inForce_read hS (.int32 s 0)

/-- An `EndMessage` that succeeds sets what it finds in `limit`. -/
theorem view_endMessage (g : ℤ) {s : S.Stream} (limit : Option ℤ)
    (h : S.consumedEntireMessage s = true) :
    S.view (endMessage S g s limit).2 = { S.view s with
      limit := limit.getD g
      depth := (S.view s).depth - 1
      legitimateEnd := false } := by
  simp [endMessage, h, hS.decrement, hS.popLimit]

theorem inForce_endMessage_consumed (g : ℤ) {s : S.Stream} {limit : ℤ}
    (h : S.consumedEntireMessage s = true) :
    inForce S (endMessage S g s (some limit)).2 = (limit, (S.view s).depth - 1) := by
  rw [inForce, view_endMessage hS g _ h, Option.getD_some]

omit hS in
theorem endMessage_unconsumed (g : ℤ) {s : S.Stream} (limit : Option ℤ)
    (h : S.consumedEntireMessage s = false) : (endMessage S g s limit).2 = s := by
  simp [endMessage, h]

end

/-- A message event records what `BeginMessage` and `EndMessage` did. -/
theorem DecodeDerivation.message_event {depth : ℕ} {s : S.Stream} {msgD : M} {tab : LuaTable}
    {run : Run S} (h : DecodeDerivation P S garbage schema depth s msgD tab run)
    {before inner after : S.Stream} {begun : Bool} {limit : Option ℤ}
    (hmem : .message before begun limit inner after ∈ run.log) :
    begun = (beginMessage S before none).1 ∧ limit = (beginMessage S before none).2.1 ∧
      after = (endMessage S (garbage before) inner limit).2 := by
  induction h with
  | stop => simp at hmem
  | unknown _ _ _ ih => exact ih (by simpa using hmem)
  | message _ _ _ _ _ ihv ihr =>
      simp only [List.cons_append, List.mem_cons, List.mem_append, reduceCtorEq, false_or,
        Event.message.injEq] at hmem
      rcases hmem with hmem | ⟨rfl, rfl, rfl, rfl, rfl⟩ | hmem
      · exact ihv hmem
      · exact ⟨rfl, rfl, rfl⟩
      · exact ihr hmem
  | value _ _ _ _ ih =>
      apply ih
      split at hmem <;> simpa using hmem

theorem depth_endMessage (hS : S.Limits) (g : ℤ) (s : S.Stream) (limit : Option ℤ) :
    (S.view s).depth ≤ (S.view (endMessage S g s limit).2).depth + 1 := by
  rw [endMessage]
  split
  · exact Nat.le_succ _
  · rw [hS.decrement, hS.popLimit]
    exact Nat.sub_le_iff_le_add.mp le_rfl

/-! ## Assigned limits -/

/-- `EndMessage` is given the limit that the `PushLimit` of the same iteration
returned, and no `PopLimit` follows a `BeginMessage` that failed. -/
def Event.LimitAssigned : Event S → Prop
  | .message before begun limit inner _ => limit = some (S.view before).limit ∧
      (begun = false → S.consumedEntireMessage inner = false)
  | _ => True

instance : DecidablePred (Event.LimitAssigned (S := S)) := fun e => by
  cases e <;> unfold Event.LimitAssigned <;> infer_instance

/-- A message field is met in a state that allows `BeginMessage` to succeed. -/
def Event.Begins : Event S → Prop
  | .message before _ _ _ _ => MayBegin S before
  | _ => True

instance : DecidablePred (Event.Begins (S := S)) := fun e => by
  cases e <;> unfold Event.Begins <;> infer_instance

/-- In every run the limit is assigned exactly if each message field is met in a state
that allows `BeginMessage` to succeed. -/
theorem limit_assigned_iff (hS : S.Limits) {fuel depth : ℕ} {s : S.Stream} {msgD : M}
    {run : Run S} (h : rawDecode P S garbage schema fuel depth s msgD = some run) :
    (∀ e ∈ run.log, e.LimitAssigned) ↔ ∀ e ∈ run.log, e.Begins := by
  obtain ⟨r, hder, rfl⟩ := rawDecode_derivation h
  apply forall₂_congr
  intro e he
  rcases List.mem_cons.mp he with rfl | he
  · exact Iff.rfl
  cases e with
  | call => exact Iff.rfl
  | iteration => exact Iff.rfl
  | stored => exact Iff.rfl
  | message before begun limit inner after =>
      obtain ⟨rfl, rfl, -⟩ := hder.message_event he
      constructor
      · rintro ⟨hlimit, -⟩
        exact (beginMessage_assigned_iff hS before).mp (by simp [hlimit])
      · intro hbegins
        obtain ⟨hbegun, hlimit, -⟩ := beginMessage_of_mayBegin hS hbegins none
        exact ⟨hlimit, by simp [hbegun]⟩

/-- An empty person is begun. -/
theorem limit_assigned_person :
    ∃ run, referenceRun AddressBook.schema 4 [10, 0] .addressBook = some run ∧
      ∀ e ∈ run.log, e.LimitAssigned := by
  have h : referenceRun AddressBook.schema 4 [10, 0] .addressBook = some _ := rfl
  have hlimits := CodedInputStream.reference_documented.toLimits
  exact ⟨_, h, (limit_assigned_iff hlimits h).mpr (by decide)⟩

/-- The tag of a person with nothing behind it: the nested call ends at the end of the
buffer, and `PopLimit` is given a limit that nothing assigned. -/
theorem limit_unassigned_truncated :
    ∃ run, referenceRun AddressBook.schema 4 [10] .addressBook = some run ∧
      ¬ ∀ e ∈ run.log, e.LimitAssigned :=
  ⟨_, rfl, by decide⟩

/-! ## Balance -/

/-- What `BeginMessage` did, and nothing else, is what `EndMessage` undoes: either it
can begin and the nested call ended at its limit, or there was no length to read and
the nested call did not end so. -/
def Event.Undone : Event S → Prop
  | .message before _ _ inner _ =>
      MayBegin S before ∧ S.consumedEntireMessage inner = true ∨
        (S.readInt32 before 0).ok = false ∧ S.consumedEntireMessage inner = false
  | _ => True

instance : DecidablePred (Event.Undone (S := S)) := fun e => by
  cases e <;> unfold Event.Undone <;> infer_instance

/-- After a message that was begun the limit and the depth are those before it. -/
def Event.Restores : Event S → Prop
  | .message before begun _ _ after => begun = true → inForce S after = inForce S before
  | _ => True

instance : DecidablePred (Event.Restores (S := S)) := fun e => by
  cases e <;> unfold Event.Restores <;> infer_instance

/-- At each loop head the limit and the depth are those on entry to the call. The
entries of the calls that are still open are kept on a stack. -/
def LoopHeadsAt : List (ℤ × ℕ) → List (Event S) → Prop
  | _, [] => True
  | stack, .call _ s :: log => LoopHeadsAt (inForce S s :: stack) log
  | stack, .iteration _ s :: log => stack.head? = some (inForce S s) ∧ LoopHeadsAt stack log
  | stack, .stored _ :: log => LoopHeadsAt stack log
  | stack, .message _ _ _ _ _ :: log => LoopHeadsAt stack.tail log

theorem inForce_undone (hS : S.Limits) {g : ℤ} {before inner : S.Stream}
    (hinner : inForce S inner = inForce S (beginMessage S before none).2.2)
    (h : (Event.message before (beginMessage S before none).1 (beginMessage S before none).2.1
      inner (endMessage S g inner (beginMessage S before none).2.1).2).Undone) :
    inForce S (endMessage S g inner (beginMessage S before none).2.1).2 = inForce S before := by
  rcases h with ⟨hbegins, hconsumed⟩ | ⟨hunread, hunconsumed⟩
  · obtain ⟨-, hlimit, hdepth⟩ := beginMessage_of_mayBegin hS hbegins none
    rw [hlimit, inForce_endMessage_consumed hS g hconsumed, (Prod.mk.inj hinner).2, hdepth]
    rfl
  · rw [endMessage_unconsumed g _ hunconsumed, hinner, inForce_beginMessage_unread hS hunread]

theorem DecodeDerivation.balanced (hS : S.Limits) {depth : ℕ} {s : S.Stream} {msgD : M}
    {tab : LuaTable} {run : Run S}
    (h : DecodeDerivation P S garbage schema depth s msgD tab run)
    (hundone : ∀ e ∈ run.log, e.Undone) :
    inForce S run.stream = inForce S s ∧ (∀ e ∈ run.log, e.Restores) ∧
      ∀ stack more, LoopHeadsAt (inForce S s :: stack) more →
        LoopHeadsAt (inForce S s :: stack) (run.log ++ more) := by
  induction h with
  | @stop depth s msgD tab hzero =>
      refine ⟨inForce_readFieldNumber hS s, by simp [Event.Restores], ?_⟩
      exact fun stack more hmore => ⟨rfl, hmore⟩
  | @unknown depth s msgD tab rest hnum hfind hrest ih =>
      have hstep := inForce_readFieldNumber hS s
      obtain ⟨hend, hrestores, hheads⟩ := ih fun e he => hundone e (List.mem_cons_of_mem _ he)
      rw [hstep] at hend hheads
      refine ⟨hend, ?_, fun stack more hmore => ⟨rfl, hheads stack more hmore⟩⟩
      simpa [Event.Restores] using hrestores
  | @message depth s msgD tab fd messageType value rest hnum hfind htype hvalue hrest ihv ihr =>
      have hstep := inForce_readFieldNumber hS s
      obtain ⟨hvend, hvrestores, hvheads⟩ := ihv fun e he => hundone e (by simp [he])
      have hevent := hundone _ (List.mem_append_right _ List.mem_cons_self)
      have hafter := inForce_undone hS hvend hevent
      obtain ⟨hend, hrestores, hheads⟩ := ihr fun e he => hundone e (by simp [he])
      rw [hafter, hstep] at hend hheads
      refine ⟨hend, ?_, ?_⟩
      · intro e he
        simp only [List.cons_append, List.mem_cons, List.mem_append] at he
        rcases he with rfl | rfl | he | rfl | he
        · trivial
        · trivial
        · exact hvrestores e he
        · exact fun _ => hafter
        · exact hrestores e he
      · intro stack more hmore
        simp only [List.cons_append, List.append_assoc]
        exact ⟨rfl, hvheads _ _ (hheads stack more hmore)⟩
  | @value depth s msgD tab fd rest hnum hfind htype hrest ih =>
      have hstep := (inForce_readValue hS (P := P) (readFieldNumber S s).2 tab fd).trans
        (inForce_readFieldNumber hS s)
      obtain ⟨hend, hrestores, hheads⟩ := ih fun e he => hundone e (by simp [he])
      rw [hstep] at hend hheads
      refine ⟨hend, ?_, fun stack more hmore => ⟨rfl, ?_⟩⟩
      · split <;> simpa [Event.Restores] using hrestores
      · split
        · exact hheads stack more hmore
        · exact hheads stack more hmore

/-- In a run in which each message is undone, every message that was begun restores the
limit and the depth, and every loop head has those its call was entered with. -/
theorem limits_balanced (hS : S.Limits) {fuel depth : ℕ} {s : S.Stream} {msgD : M}
    {run : Run S} (h : rawDecode P S garbage schema fuel depth s msgD = some run)
    (hundone : ∀ e ∈ run.log, e.Undone) :
    (∀ e ∈ run.log, e.Restores) ∧ LoopHeadsAt [] run.log := by
  obtain ⟨r, hder, rfl⟩ := rawDecode_derivation h
  obtain ⟨-, hrestores, hheads⟩ := hder.balanced hS fun e he =>
    hundone e (List.mem_cons_of_mem _ he)
  refine ⟨by simpa [Event.Restores] using hrestores, ?_⟩
  have := hheads [] [] trivial
  rwa [List.append_nil] at this

theorem limits_balanced_person :
    ∃ run, referenceRun AddressBook.schema 4 [10, 0] .addressBook = some run ∧
      (∀ e ∈ run.log, e.Restores) ∧ LoopHeadsAt [] run.log := by
  have h : referenceRun AddressBook.schema 4 [10, 0] .addressBook = some _ := rfl
  have hlimits := CodedInputStream.reference_documented.toLimits
  exact ⟨_, h, limits_balanced hlimits h (by decide)⟩

/-- A zero tag inside the first person: its limit stays in force, and the second person
is never read. -/
theorem limits_unbalanced_zeroTag :
    ∃ run, referenceRun AddressBook.schema 4 [10, 1, 0, 10, 0] .addressBook = some run ∧
      ¬ ((∀ e ∈ run.log, e.Restores) ∧ LoopHeadsAt [] run.log) :=
  ⟨_, rfl, fun h => absurd h.1 (by decide)⟩

/-! ## Recursion depth -/

/-- The recursion limit bounds the nesting of calls, with one call more for the
outermost message, and no call is entered once the budget is reported exhausted. -/
def Event.WithinRecursion : Event S → Prop
  | .call depth _ => depth ≤ S.recursionLimit + 1
  | .message before _ _ _ _ => (S.readInt32 before 0).ok = true →
      (S.incrementRecursionDepth (S.readInt32 before 0).stream).1 = true
  | _ => True

instance : DecidablePred (Event.WithinRecursion (S := S)) := fun e => by
  cases e <;> unfold Event.WithinRecursion <;> infer_instance

/-- As long as every message begins, the recursion counter keeps up with the calls. -/
theorem DecodeDerivation.depth_le (hS : S.Limits) {depth : ℕ} {s : S.Stream} {msgD : M}
    {tab : LuaTable} {run : Run S}
    (h : DecodeDerivation P S garbage schema depth s msgD tab run)
    (hbegins : ∀ e ∈ run.log, e.Begins) (hdepth : depth ≤ (S.view s).depth + 1) :
    depth ≤ (S.view run.stream).depth + 1 ∧ ∀ e ∈ run.log, e.WithinRecursion := by
  induction h with
  | @stop depth s msgD tab hzero =>
      have hstep := depth_of_inForce (inForce_readFieldNumber hS s)
      exact ⟨by simpa only [hstep] using hdepth, by simp [Event.WithinRecursion]⟩
  | @unknown depth s msgD tab rest hnum hfind hrest ih =>
      have hstep := depth_of_inForce (inForce_readFieldNumber hS s)
      obtain ⟨hend, hwithin⟩ := ih (fun e he => hbegins e (List.mem_cons_of_mem _ he))
        (by omega)
      exact ⟨hend, by simpa [Event.WithinRecursion] using hwithin⟩
  | @message depth s msgD tab fd messageType value rest hnum hfind htype hvalue hrest ihv ihr =>
      have hstep := depth_of_inForce (inForce_readFieldNumber hS s)
      have hmay : MayBegin S (readFieldNumber S s).2 :=
        hbegins _ (List.mem_append_right _ List.mem_cons_self)
      obtain ⟨hbegun, hlimit, hentry⟩ := beginMessage_of_mayBegin hS hmay none
      have hbudget := hmay.2
      obtain ⟨hvend, hvwithin⟩ := ihv (fun e he => hbegins e (by simp [he])) (by omega)
      have hafter := depth_endMessage hS (garbage (readFieldNumber S s).2) value.stream
        (beginMessage S (readFieldNumber S s).2 none).2.1
      obtain ⟨hend, hwithin⟩ := ihr (fun e he => hbegins e (by simp [he])) (by omega)
      refine ⟨hend, ?_⟩
      intro e he
      simp only [List.cons_append, List.mem_cons, List.mem_append] at he
      rcases he with rfl | rfl | he | rfl | he
      · trivial
      · simp only [Event.WithinRecursion]
        omega
      · exact hvwithin e he
      · intro _
        rw [hS.increment_ok, hS.read_depth (.int32 _ _), decide_eq_true_iff]
        exact hbudget
      · exact hwithin e he
  | @value depth s msgD tab fd rest hnum hfind htype hrest ih =>
      have hstep := depth_of_inForce ((inForce_readValue hS (P := P) (readFieldNumber S s).2 tab
        fd).trans (inForce_readFieldNumber hS s))
      obtain ⟨hend, hwithin⟩ := ih (fun e he => hbegins e (by simp [he])) (by omega)
      refine ⟨hend, ?_⟩
      split <;> simpa [Event.WithinRecursion] using hwithin

/-- In a run in which every message field is met in a state that allows `BeginMessage`
to succeed, the nesting of calls is bounded. -/
theorem recursion_bounded (hS : S.Limits) {fuel : ℕ} {s : S.Stream} {msgD : M} {run : Run S}
    (h : rawDecode P S garbage schema fuel 1 s msgD = some run)
    (hbegins : ∀ e ∈ run.log, e.Begins) : ∀ e ∈ run.log, e.WithinRecursion := by
  obtain ⟨r, hder, rfl⟩ := rawDecode_derivation h
  obtain ⟨-, hwithin⟩ := hder.depth_le hS (fun e he => hbegins e (List.mem_cons_of_mem _ he))
    (by omega)
  simpa [Event.WithinRecursion] using hwithin

theorem recursion_bounded_chain :
    ∃ run, referenceRun Chain.schema 6 [10, 2, 10, 0] () = some run ∧
      ∀ e ∈ run.log, e.WithinRecursion := by
  have h : referenceRun Chain.schema 6 [10, 2, 10, 0] () = some _ := rfl
  have hlimits := CodedInputStream.reference_documented.toLimits
  exact ⟨_, h, recursion_bounded hlimits h (by decide)⟩

/-- A hundred and two messages one inside the other, each of which declares a length
beyond the end of the buffer. -/
theorem recursion_unbounded_chain :
    ∃ run, referenceRun Chain.schema 105 (List.replicate 102 [10, 255, 127]).flatten () =
      some run ∧ ¬ ∀ e ∈ run.log, e.WithinRecursion := by
  have h : ((referenceRun Chain.schema 105 (List.replicate 102 [10, 255, 127]).flatten ()).map
      fun run => decide (∀ e ∈ run.log, e.WithinRecursion)) = some false := by decide +kernel
  obtain ⟨run, hrun, hfalse⟩ := Option.map_eq_some_iff.mp h
  exact ⟨run, hrun, of_decide_eq_false hfalse⟩

end Luapb
