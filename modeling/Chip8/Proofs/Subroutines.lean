import Chip8.Proofs.Bounds
import Chip8.Proofs.TwoRuns

/-!
# Subroutines

The call stack holds the returns that are still to come. A history of calls and returns is read as
brackets: `Balanced` are the histories in which each call has its return, and `Awaiting` tells
which calls of a history have none yet.

* `awaiting_stack`: a run leaves the addresses past its open calls on the stack, and nothing else.
* `pc_of_ret`: a return leads behind the call that it belongs to.
* `likeness_stale`: slots of the stack that are not in use are never seen.
* `stack_law` puts them together for the histories of a pacer.
-/

namespace Chip8

/-- A call, with the address that it stands at, or a return. -/
inductive Transfer where
  | call (address : UInt16)
  | ret
deriving DecidableEq, Repr

namespace Transfer

def isCall : Transfer → Bool
  | .call _ => true
  | .ret => false

/-! ## Calls and returns as brackets -/

/-- Histories in which each call has its return, and each return its call. -/
inductive Balanced : List Transfer → Prop where
  | nil : Balanced []
  | append {first second : List Transfer} (hfirst : Balanced first) (hsecond : Balanced second) :
      Balanced (first ++ second)
  | enclose {inner : List Transfer} (address : UInt16) (h : Balanced inner) :
      Balanced (.call address :: (inner ++ [.ret]))

/-- The calls of a history without a return, told by the addresses past them, oldest first. -/
inductive Awaiting : List Transfer → List UInt16 → Prop where
  | balanced {history : List Transfer} (h : Balanced history) : Awaiting history []
  | call {history inner : List Transfer} {addresses : List UInt16} (address : UInt16)
      (h : Awaiting history addresses) (hinner : Balanced inner) :
      Awaiting (history ++ .call address :: inner) (addresses ++ [address + 2])

/-- After `history` a return belongs to the call at `address`. -/
def BelongsTo (history : List Transfer) (address : UInt16) : Prop :=
  ∃ before inner, history = before ++ .call address :: inner ∧ Balanced inner

variable {history inner : List Transfer} {addresses : List UInt16}

theorem Awaiting.append_balanced (h : Awaiting history addresses) (hinner : Balanced inner) :
    Awaiting (history ++ inner) addresses := by
  cases h with
  | balanced h => exact .balanced (h.append hinner)
  | call address h hb =>
    rw [List.append_assoc, List.cons_append]
    exact .call address h (hb.append hinner)

theorem Awaiting.concat_call (h : Awaiting history addresses) (address : UInt16) :
    Awaiting (history ++ [.call address]) (addresses ++ [address + 2]) :=
  .call address h .nil

/-- The newest open call comes with a balanced history after it. -/
theorem Awaiting.exists_of_concat {last : UInt16} (h : Awaiting history (addresses ++ [last])) :
    ∃ before address inner, history = before ++ .call address :: inner ∧ last = address + 2 ∧
      Awaiting before addresses ∧ Balanced inner := by
  generalize hall : addresses ++ [last] = all at h
  cases h with
  | balanced _ => exact absurd hall (List.concat_ne_nil last addresses)
  | call address h hb =>
    obtain ⟨rfl, hlast⟩ := List.append_inj' hall rfl
    exact ⟨_, address, _, rfl, List.singleton_inj.mp hlast, h, hb⟩

theorem Awaiting.concat_ret {last : UInt16} (h : Awaiting history (addresses ++ [last])) :
    Awaiting (history ++ [.ret]) addresses := by
  obtain ⟨before, address, inner, rfl, _, hbefore, hinner⟩ := h.exists_of_concat
  rw [List.append_assoc, List.cons_append]
  exact hbefore.append_balanced (.enclose address hinner)

/-! ## Replaying a history -/

/-- The addresses awaited after a call or a return. -/
def record (addresses : List UInt16) : Transfer → List UInt16
  | .call address => addresses ++ [address + 2]
  | .ret => addresses.dropLast

theorem Balanced.foldl_record (h : Balanced history) (addresses : List UInt16) :
    history.foldl record addresses = addresses := by
  induction h generalizing addresses with
  | nil => rfl
  | append _ _ ihfirst ihsecond => rw [List.foldl_append, ihfirst, ihsecond]
  | enclose address _ ih =>
    rw [List.foldl_cons, List.foldl_append, ih]
    exact List.dropLast_concat

theorem Awaiting.foldl_record (h : Awaiting history addresses) :
    history.foldl record [] = addresses := by
  induction h with
  | balanced h => exact h.foldl_record []
  | call address _ hinner ih =>
    rw [List.foldl_append, ih, List.foldl_cons, hinner.foldl_record]
    rfl

/-- A history tells which returns it awaits. -/
theorem Awaiting.unique {others : List UInt16} (h : Awaiting history addresses)
    (h' : Awaiting history others) : addresses = others :=
  h.foldl_record.symm.trans h'.foldl_record

/-- A history tells to which call a return belongs. -/
theorem Awaiting.last_of_belongsTo {last address : UInt16}
    (h : Awaiting history (addresses ++ [last])) (hcall : BelongsTo history address) :
    last = address + 2 := by
  obtain ⟨before, inner, rfl, hinner⟩ := hcall
  have hreplay := h.foldl_record
  rw [List.foldl_append, List.foldl_cons, hinner.foldl_record] at hreplay
  exact (List.singleton_inj.mp (List.append_inj' hreplay rfl).2).symm

/-! ## Counting -/

theorem Balanced.countP_eq (h : Balanced history) : history.countP isCall = history.count .ret := by
  induction h with
  | nil => rfl
  | append _ _ ihfirst ihsecond => rw [List.countP_append, List.count_append, ihfirst, ihsecond]
  | enclose address _ ih =>
    rw [List.countP_cons_of_pos rfl, List.countP_append, ih,
      List.count_cons_of_ne Transfer.noConfusion, List.count_append]
    rfl

theorem Awaiting.countP_eq (h : Awaiting history addresses) :
    history.countP isCall = addresses.length + history.count .ret := by
  induction h with
  | balanced h => rw [h.countP_eq, List.length_nil, Nat.zero_add]
  | call address _ hinner ih =>
    rw [List.countP_append, List.countP_cons_of_pos rfl, ih, hinner.countP_eq, List.count_append,
      List.count_cons_of_ne Transfer.noConfusion, List.length_append, List.length_singleton]
    omega

end Transfer

/-! ## The transfers of a run -/

/-- The call or the return that is carried out, if there is one. -/
def Moment.transfer? (e : Moment) : Option Transfer :=
  match e.instruction? with
  | some (.call _) => some (.call e.machine.pc)
  | some .ret => some .ret
  | _ => none

/-- The calls and returns carried out since a program was last loaded. -/
def transfers (trace : List Moment) : List Transfer :=
  (Moment.sinceLoad trace).filterMap Moment.transfer?

theorem transfers_concat (trace : List Moment) (e : Moment) :
    transfers (trace ++ [e]) =
      if e.loads then [] else transfers trace ++ e.transfer?.toList :=
  Moment.filterMap_sinceLoad_concat Moment.transfer? trace e

namespace Moment

/-- What a moment does to the stack: nothing, unless there is a program loaded, a call or a
return. -/
theorem stack_cases (e : Moment) :
    (e.loads = true ∧ e.transfer? = none ∧ e.next.stack.toList = []) ∨
    (e.loads = false ∧ e.transfer? = some (.call e.machine.pc) ∧
      e.next.stack.toList = e.machine.stack.toList ++ [e.machine.pc + 2]) ∨
    (e.loads = false ∧ e.transfer? = some .ret ∧
      e.machine.stack.toList = e.next.stack.toList ++ [e.next.pc]) ∨
    (e.loads = false ∧ e.transfer? = none ∧ e.next.stack = e.machine.stack) := by
  rcases e.cases with ⟨hl, hi, rom, hnext⟩ | ⟨hl, m, i, hrests, hi, hf, hnext⟩ | ⟨hl, hi, hkeeps⟩
  · refine .inl ⟨hl, ?_, ?_⟩
    · unfold transfer?
      rw [hi]
    · rw [hnext]
      rfl
  · right
    unfold transfer?
    rw [hi, hnext, ← hrests.stack, ← hrests.pc]
    cases i
    case call target =>
      refine .inl ⟨hl, rfl, ?_⟩
      have hfree : m.stack.depth ≠ CallStack.capacity := by simpa [Machine.faultOf] using hf
      obtain ⟨s, hs⟩ := CallStack.exists_push? hfree (m.pcPast false)
      show ((m.stack.push? (m.pcPast false)).getD m.stack).toList = _
      rw [hs, Option.getD_some, CallStack.toList_of_push? hs]
      rfl
    case ret =>
      refine .inr (.inl ⟨hl, rfl, ?_⟩)
      have hsome : m.stack.depth ≠ 0 := by simpa [Machine.faultOf] using hf
      obtain ⟨⟨address, s⟩, hs⟩ := CallStack.exists_pop? hsome
      show m.stack.toList = (m.stack.pop?.elim m.stack Prod.snd).toList ++
        [m.stack.pop?.elim m.pc Prod.fst]
      rw [hs]
      exact CallStack.toList_of_pop? hs
    all_goals exact .inr (.inr ⟨hl, rfl, rfl⟩)
  · refine .inr (.inr (.inr ⟨hl, ?_, hkeeps.stack⟩))
    unfold transfer?
    rw [hi]

end Moment

namespace Machine

/-- The stack of a run is that of its open calls. -/
theorem awaiting_stack {m : Machine} (hm : m.stack.toList = []) (actions : List Action) :
    Transfer.Awaiting (transfers (m.moments actions)) (m.actAll actions).stack.toList := by
  -- from the back, since it is the last load that counts
  induction actions using List.reverseRecOn with
  | nil =>
    show Transfer.Awaiting [] m.stack.toList
    rw [hm]
    exact .balanced .nil
  | append_singleton actions a ih =>
    rw [moments_concat, transfers_concat, actAll_concat]
    show Transfer.Awaiting _ (Moment.next ⟨m.actAll actions, a⟩).stack.toList
    rcases Moment.stack_cases ⟨m.actAll actions, a⟩ with
      ⟨hl, _, hs⟩ | ⟨hl, ht, hs⟩ | ⟨hl, ht, hs⟩ | ⟨hl, ht, hs⟩
    · rw [hl, hs]
      exact .balanced .nil
    · rw [hl, ht, hs]
      exact ih.concat_call _
    · have ih' : Transfer.Awaiting _ (Moment.machine ⟨m.actAll actions, a⟩).stack.toList := ih
      rw [hs] at ih'
      rw [hl, ht]
      exact ih'.concat_ret
    · rw [hl, ht, hs, if_neg Bool.false_ne_true]
      exact (List.append_nil (transfers (m.moments actions))).symm ▸ ih

/-- A return leads behind the call that it belongs to, and there is such a call. -/
theorem pc_of_ret {m : Machine} (hm : m.stack.toList = []) {actions : List Action}
    {before behind : List Moment} {e : Moment} (h : m.moments actions = before ++ e :: behind)
    (hret : e.transfer? = some .ret) :
    (∃ address, Transfer.BelongsTo (transfers before) address) ∧
      ∀ address, Transfer.BelongsTo (transfers before) address → e.next.pc = address + 2 := by
  obtain ⟨first, rfl, hlast⟩ := exists_of_moments_eq_append h
  have hawaiting := awaiting_stack hm first
  rw [hlast] at hawaiting
  rcases e.stack_cases with ⟨_, ht, _⟩ | ⟨_, ht, _⟩ | ⟨_, _, hs⟩ | ⟨_, ht, _⟩
  case inr.inr.inl =>
    rw [hs] at hawaiting
    obtain ⟨head, address, inner, hcut, _, _, hinner⟩ := hawaiting.exists_of_concat
    exact ⟨⟨address, head, inner, hcut, hinner⟩, fun _ hcall => hawaiting.last_of_belongsTo hcall⟩
  all_goals
    rw [hret] at ht
    cases ht

/-- The calls of a run stand at addresses below those of the returns. -/
theorem toNat_of_call_mem {m : Machine} (hm : m.Bounded) {actions : List Action}
    {address : UInt16} (h : .call address ∈ transfers (m.moments actions)) :
    (address + 2).toNat = address.toNat + 2 := by
  obtain ⟨e, he, hcall⟩ := List.mem_filterMap.mp h
  have hmem : e ∈ m.moments actions := (List.rtakeWhile_suffix _ _).subset he
  have hpc : e.machine.pc = address := by
    rcases e.stack_cases with ⟨_, ht, _⟩ | ⟨_, ht, _⟩ | ⟨_, ht, _⟩ | ⟨_, ht, _⟩
    all_goals
      rw [hcall] at ht
      cases ht
    rfl
  rw [← hpc]
  exact toNat_pcPast (moments_induction bounded_act hm actions e hmem).pc_le false

/-! ## Slots that are not in use -/

end Machine

namespace CallStack

variable {s t : CallStack}

theorem depth_congr (h : s.toList = t.toList) : s.depth = t.depth := by
  rw [← length_toList, h, length_toList]

/-- A pop sees the slots in use only. -/
theorem pop?_congr (h : s.toList = t.toList) :
    (s.pop? = none ∧ t.pop? = none) ∨
    ∃ address rest rest', s.pop? = some (address, rest) ∧ t.pop? = some (address, rest') ∧
      rest.toList = rest'.toList := by
  have hpop := toList_pop? s
  rw [h, ← toList_pop? t] at hpop
  cases hs : s.pop? with
  | none =>
    rw [hs, Option.map_none, eq_comm, Option.map_eq_none_iff] at hpop
    exact .inl ⟨rfl, hpop⟩
  | some r =>
    rw [hs, Option.map_some, eq_comm, Option.map_eq_some_iff] at hpop
    obtain ⟨⟨address, rest'⟩, ht, hr⟩ := hpop
    obtain ⟨rfl, hrest⟩ := Prod.mk.inj hr
    exact .inr ⟨_, r.2, rest', rfl, ht, hrest.symm⟩

end CallStack

namespace Machine

/-- Machines that differ at most in the slots of the stack that are not in use. -/
def SameButStale (m n : Machine) : Prop :=
  ∃ s : CallStack, s.toList = m.stack.toList ∧ n = { m with stack := s }

namespace SameButStale

variable {m n : Machine}

theorem faultOf_eq {m : Machine} {s : CallStack} (h : s.toList = m.stack.toList)
    (i : Instruction) : faultOf { m with stack := s } i = m.faultOf i := by
  cases i
  case ret =>
    show (if s.depth = 0 then some Fault.stackUnderflow else none) = _
    rw [CallStack.depth_congr h]
    rfl
  case call target =>
    show (if s.depth = CallStack.capacity then some Fault.stackOverflow else none) = _
    rw [CallStack.depth_congr h]
    rfl
  all_goals rfl

theorem after {m : Machine} {s : CallStack} (h : s.toList = m.stack.toList) (i : Instruction) :
    SameButStale (m.after i) (Machine.after { m with stack := s } i) := by
  cases i
  case call target =>
    have hpush : (s.push? (m.pcPast false)).map CallStack.toList =
        (m.stack.push? (m.pcPast false)).map CallStack.toList := by
      rw [CallStack.toList_push?, CallStack.toList_push?, h]
    refine ⟨(s.push? (m.pcPast false)).getD s, ?_, rfl⟩
    show ((s.push? (m.pcPast false)).getD s).toList =
      ((m.stack.push? (m.pcPast false)).getD m.stack).toList
    rw [← Option.getD_map CallStack.toList, ← Option.getD_map CallStack.toList, hpush, h]
  case ret =>
    rcases CallStack.pop?_congr h with ⟨hs, hm⟩ | ⟨address, rest, rest', hs, hm, hrest⟩
    · refine ⟨s, ?_, ?_⟩
      · show s.toList = (m.stack.pop?.elim m.stack Prod.snd).toList
        rw [hm]
        exact h
      · simp only [Machine.after, pcAfter, stackAfter, hs, hm]
        rfl
    · refine ⟨rest, ?_, ?_⟩
      · show rest.toList = (m.stack.pop?.elim m.stack Prod.snd).toList
        rw [hm]
        exact hrest
      · simp only [Machine.after, pcAfter, stackAfter, hs, hm]
        rfl
  all_goals exact ⟨s, h, rfl⟩

theorem step (h : SameButStale m n) :
    n.step.1 = m.step.1 ∧ SameButStale m.step.2 n.step.2 := by
  obtain ⟨s, hs, rfl⟩ := h
  refine step_congr ⟨s, hs, rfl⟩ rfl rfl (faultOf_eq hs) ⟨s, hs, rfl⟩ fun i _ => ⟨?_, after hs i⟩
  cases i <;> rfl

end SameButStale

/-- Slots that are not in use are never seen. -/
theorem likeness_stale : Likeness SameButStale where
  paused := by rintro m _ ⟨s, _, rfl⟩; rfl
  speed := by rintro m _ ⟨s, _, rfl⟩; rfl
  step := SameButStale.step
  countFrame := by
    rintro m _ ⟨s, hs, rfl⟩
    unfold countFrame
    split <;> exact ⟨s, hs, rfl⟩
  boot := by rintro m _ ⟨s, _, rfl⟩ rom; exact ⟨CallStack.empty, rfl, rfl⟩
  tick := by rintro m _ ⟨s, hs, rfl⟩; exact ⟨s, hs, rfl⟩
  press := by
    rintro m _ ⟨s, hs, rfl⟩ key
    unfold press
    split <;> exact ⟨s, hs, rfl⟩
  release := by
    rintro m _ ⟨s, hs, rfl⟩ key
    unfold release
    split <;> exact ⟨s, hs, rfl⟩
  setSpeed := by rintro m _ ⟨s, hs, rfl⟩ speed; exact ⟨s, hs, rfl⟩

end Machine

namespace Pacer

/-- The stack of every machine that a history of calls can lead to: the addresses past the calls
that have not returned since a program was last loaded, oldest first, and what is in the other
slots is never seen. Each return leads behind the call that it belongs to. -/
theorem stack_law :
    (∀ (seed : UInt64) (calls : List Call),
      let trace := (ofSeed seed).moments calls
      let history := transfers trace
      let stack := ((ofSeed seed).performAll calls).machine.stack
      (∀ addresses, stack.toList = addresses ↔ Transfer.Awaiting history addresses) ∧
      (∀ address, .call address ∈ history → (address + 2).toNat = address.toNat + 2) ∧
      stack.toList.length + history.count .ret = history.countP Transfer.isCall ∧
      stack.toList.length ≤ 16 ∧ stack.top = (stack.toList.length : Int) - 1 ∧
      ∀ before e behind, trace = before ++ e :: behind → e.transfer? = some .ret →
        (∃ address, Transfer.BelongsTo (transfers before) address) ∧
          ∀ address, Transfer.BelongsTo (transfers before) address →
            e.next.pc = address + 2) ∧
    (∀ (p q : Pacer) (calls : List Call), Alike Machine.SameButStale p q →
      q.exchanges calls = p.exchanges calls ∧
        Alike Machine.SameButStale (p.performAll calls) (q.performAll calls)) := by
  refine ⟨fun seed calls => ?_, fun p q calls h => Machine.likeness_stale.performAll h calls⟩
  intro trace history stack
  have hempty : (ofSeed seed).machine.stack.toList = [] := rfl
  have hstart : (ofSeed seed).machine.Bounded :=
    Machine.bounded_boot (by decide) (by decide) [] { key := .ofSeed seed }
  have hstack : Transfer.Awaiting history stack.toList := by
    have h := Machine.awaiting_stack hempty ((ofSeed seed).actions calls)
    rw [← machine_performAll] at h
    exact h
  refine ⟨fun addresses => ⟨?_, fun h => hstack.unique h⟩,
    fun address h => Machine.toNat_of_call_mem hstart h, hstack.countP_eq.symm, ?_, ?_,
    fun before e behind hcut hret => Machine.pc_of_ret hempty hcut hret⟩
  · rintro rfl
    exact hstack
  · rw [CallStack.length_toList]
    exact stack.depth_le
  · rw [CallStack.length_toList]
    rfl

/-- A call, a call within it and the return from that: one address is left on the stack, and the
slot above it keeps the other. -/
theorem stack_law_nested :
    let calls : List Call :=
      [.load [0x22, 0x04, 0x12, 0x02, 0x22, 0x08, 0x00, 0xEE, 0x00, 0xEE], .step, .cycle, .step]
    let p := (ofSeed 0).performAll calls
    let clean := (CallStack.empty.push? 0x202).getD CallStack.empty
    let q : Pacer := { p with machine := { p.machine with stack := clean } }
    Transfer.Awaiting (transfers ((ofSeed 0).moments calls)) [0x202] ∧
      q.machine.stack ≠ p.machine.stack ∧
      q.exchanges [.step, .step, .update 1] = p.exchanges [.step, .step, .update 1] := by
  intro calls p clean q
  have hclean : clean.toList = [0x202] := rfl
  have hstack : p.machine.stack.toList = [0x202] := by decide +kernel
  have hne : q.machine.stack ≠ p.machine.stack := by decide +kernel
  refine ⟨((stack_law.1 0 calls).1 [0x202]).mp (by decide +kernel), hne, ?_⟩
  clear_value p
  exact (stack_law.2 p q _ ⟨⟨clean, hclean.trans hstack.symm, rfl⟩, rfl⟩).1

end Pacer

end Chip8
