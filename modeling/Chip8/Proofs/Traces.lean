import Chip8.Proofs.Pausing

/-!
# Traces

A run of a machine, told moment by moment: an action, and the machine that it finds. Laws about the
history of a machine are laws about its moments.

* `Moment.cases`: at a moment a program is loaded, or an instruction is carried out, or the running
  program sees no change.
* `machine_performAll`: a history of calls leads where its actions lead, so `Pacer.moments` tells
  all that happened to the machine, frame by frame also within an update.
-/

namespace Chip8

namespace Machine

/-! ## What the program sees -/

/-- `next` is `m` but for the timers, the keypad, the pause and the count of frames. -/
structure Keeps (m next : Machine) : Prop where
  memory : next.memory = m.memory
  display : next.display = m.display
  pc : next.pc = m.pc
  index : next.index = m.index
  regs : next.regs = m.regs
  stack : next.stack = m.stack
  random : next.random = m.random

theorem Rests.keeps {m next : Machine} (h : m.Rests next) : m.Keeps next := { h with }

theorem Keeps.trans {a b c : Machine} (hab : a.Keeps b) (hbc : b.Keeps c) : a.Keeps c where
  memory := hbc.memory.trans hab.memory
  display := hbc.display.trans hab.display
  pc := hbc.pc.trans hab.pc
  index := hbc.index.trans hab.index
  regs := hbc.regs.trans hab.regs
  stack := hbc.stack.trans hab.stack
  random := hbc.random.trans hab.random

theorem keeps_pause (m : Machine) : m.Keeps { m with paused := true } :=
  ⟨rfl, rfl, rfl, rfl, rfl, rfl, rfl⟩

/-! ## The instruction of a step -/

/-- The instruction that a step carries out, if it carries one out. -/
def carried? (m : Machine) : Option Instruction :=
  match m.step.1, m.fetch with
  | .ok .paused, _ => none
  | .ok _, .ok word => some (.ofWord word)
  | _, _ => none

theorem outcomeOf_ne_paused (m : Machine) (i : Instruction) : m.outcomeOf i ≠ .paused := by
  cases i
  case waitKey x =>
    show (if m.keypad.pending = none then Outcome.waiting else .ran) ≠ .paused
    split <;> exact Outcome.noConfusion
  all_goals exact Outcome.noConfusion

theorem carried?_eq_some {m : Machine} {word : UInt16} {next : Machine} (hw : m.fetch = .ok word)
    (hs : m.step = (.ok (m.outcomeOf (.ofWord word)), next)) :
    m.carried? = some (.ofWord word) := by
  have hne := outcomeOf_ne_paused m (.ofWord word)
  rw [carried?, hs, hw]
  cases ho : m.outcomeOf (.ofWord word)
  case paused => exact absurd ho hne
  all_goals rfl

/-- A step carries out an instruction, or the program sees no change. -/
theorem carried?_cases (m : Machine) :
    (∃ word, m.fetch = .ok word ∧ m.carried? = some (.ofWord word) ∧
      m.faultOf (.ofWord word) = none ∧ m.step.2 = m.after (.ofWord word)) ∨
    (m.carried? = none ∧ m.Keeps m.step.2) := by
  rcases step_cases m with ⟨_, hs⟩ | ⟨_, fault, _, hs⟩ | ⟨_, word, hw, hf, hs⟩
  · refine .inr ⟨by rw [carried?, hs], ?_⟩
    rw [hs]
    exact (Rests.refl m).keeps
  · refine .inr ⟨by rw [carried?, hs], ?_⟩
    rw [hs]
    exact keeps_pause m
  · exact .inl ⟨word, hw, carried?_eq_some hw hs, hf, by rw [hs]⟩

/-- The instruction that a step carries out has no fault, and makes the step what it is. -/
theorem step_of_carried? {m : Machine} {i : Instruction} (h : m.carried? = some i) :
    m.faultOf i = none ∧ m.step = (.ok (m.outcomeOf i), m.after i) := by
  rcases step_cases m with ⟨_, hs⟩ | ⟨_, fault, _, hs⟩ | ⟨_, word, hw, hf, hs⟩
  · simp [carried?, hs] at h
  · simp [carried?, hs] at h
  · rw [carried?_eq_some hw hs, Option.some.injEq] at h
    subst h
    exact ⟨hf, hs⟩

theorem carried?_of_error {m : Machine} {fault : Fault} (h : m.step.1 = .error fault) :
    m.carried? = none := by
  rw [carried?, h]

/-- The machine that the step of an action finds, if the action makes a step. -/
def stepping? (m : Machine) : Action → Option Machine
  | .step => some m
  | .frame => some m.countFrame
  | _ => none

/-- What a step finds is the machine itself, but for a frame that was counted. -/
theorem act_of_stepping? {m n : Machine} {a : Action} (h : m.stepping? a = some n) :
    m.Rests n ∧ n.keypad = m.keypad ∧ m.act a = n.step.2 := by
  cases a
  case step =>
    cases h
    exact ⟨.refl m, rfl, rfl⟩
  case frame =>
    cases h
    refine ⟨m.rests_countFrame, ?_, rfl⟩
    unfold countFrame
    split <;> rfl
  all_goals cases h

end Machine

/-! ## Moments -/

/-- An action, and the machine that it finds. -/
structure Moment where
  machine : Machine
  action : Machine.Action

namespace Moment

/-- The machine after the action. -/
def next (e : Moment) : Machine := e.machine.act e.action

/-- Whether a program is loaded. -/
def loads (e : Moment) : Bool :=
  match e.action with
  | .load rom => decide (rom.length ≤ Memory.romCapacity)
  | _ => false

/-- The instruction that is carried out, if there is one. -/
def instruction? (e : Moment) : Option Instruction :=
  (e.machine.stepping? e.action).bind Machine.carried?

/-- The answer of the step that is made, if one is made. -/
def answer? (e : Moment) : Option Answer :=
  (e.machine.stepping? e.action).map fun m => m.step.1

/-- Behind an instruction is the machine that its step finds. -/
theorem exists_of_instruction? {e : Moment} {i : Instruction} (h : e.instruction? = some i) :
    ∃ m, e.machine.stepping? e.action = some m ∧ e.machine.Rests m ∧
      m.keypad = e.machine.keypad ∧ m.faultOf i = none ∧
      e.answer? = some (.ok (m.outcomeOf i)) ∧ e.next = m.after i := by
  obtain ⟨m, hm, hc⟩ := Option.bind_eq_some_iff.mp h
  obtain ⟨hf, hs⟩ := Machine.step_of_carried? hc
  obtain ⟨hrests, hkeypad, hact⟩ := Machine.act_of_stepping? hm
  refine ⟨m, hm, hrests, hkeypad, hf, ?_, ?_⟩
  · rw [answer?, hm, Option.map_some, hs]
  · rw [next, hact, hs]

/-- A step that meets a fault carries no instruction out. -/
theorem instruction?_of_error {e : Moment} {fault : Fault} (h : e.answer? = some (.error fault)) :
    e.instruction? = none := by
  obtain ⟨m, hm, hs⟩ := Option.map_eq_some_iff.mp h
  rw [instruction?, hm, Option.bind_some, Machine.carried?_of_error hs]

/-- Where a step is made, nothing is loaded. -/
theorem loads_of_answer? {e : Moment} {answer : Answer} (h : e.answer? = some answer) :
    e.loads = false := by
  obtain ⟨m, a⟩ := e
  cases a
  case load rom => cases h
  all_goals rfl

theorem cases_of_stepping {e : Moment} {m : Machine} (hm : e.machine.stepping? e.action = some m)
    (hrests : e.machine.Rests m) (hnext : e.next = m.step.2) :
    (∃ i, e.instruction? = some i ∧ m.faultOf i = none ∧ e.next = m.after i) ∨
    (e.instruction? = none ∧ e.machine.Keeps e.next) := by
  have hi : e.instruction? = m.carried? := by rw [instruction?, hm, Option.bind_some]
  rw [hi, hnext]
  rcases m.carried?_cases with ⟨word, _, hc, hf, hs⟩ | ⟨hc, hk⟩
  · exact .inl ⟨_, hc, hf, hs⟩
  · exact .inr ⟨hc, hrests.keeps.trans hk⟩

theorem cases (e : Moment) :
    (e.loads = true ∧ e.instruction? = none ∧
      ∃ rom, e.next = Machine.boot rom e.machine.speed e.machine.random) ∨
    (e.loads = false ∧ ∃ m i, e.machine.Rests m ∧ e.instruction? = some i ∧
      m.faultOf i = none ∧ e.next = m.after i) ∨
    (e.loads = false ∧ e.instruction? = none ∧ e.machine.Keeps e.next) := by
  obtain ⟨m, a⟩ := e
  cases a
  case load rom =>
    by_cases h : rom.length ≤ Memory.romCapacity
    · exact .inl ⟨decide_eq_true h, rfl, rom, if_pos h⟩
    · refine .inr (.inr ⟨decide_eq_false h, rfl, ?_⟩)
      have hnext : next ⟨m, .load rom⟩ = m := if_neg h
      rw [hnext]
      exact (Machine.Rests.refl m).keeps
  case step =>
    rcases cases_of_stepping (e := ⟨m, .step⟩) rfl (.refl m) rfl with ⟨i, h⟩ | h
    · exact .inr (.inl ⟨rfl, m, i, .refl m, h⟩)
    · exact .inr (.inr ⟨rfl, h⟩)
  case frame =>
    have hrests := m.rests_countFrame
    rcases cases_of_stepping (e := ⟨m, .frame⟩) rfl hrests rfl with ⟨i, h⟩ | h
    · exact .inr (.inl ⟨rfl, m.countFrame, i, hrests, h⟩)
    · exact .inr (.inr ⟨rfl, h⟩)
  case tick => exact .inr (.inr ⟨rfl, rfl, m.rests_tick.keeps⟩)
  case press key => exact .inr (.inr ⟨rfl, rfl, (m.rests_press key).keeps⟩)
  case release key => exact .inr (.inr ⟨rfl, rfl, (m.rests_release key).keeps⟩)
  case setSpeed speed => exact .inr (.inr ⟨rfl, rfl, (m.rests_setSpeed speed).keeps⟩)

/-- The moments after the last one at which a program is loaded. -/
def sinceLoad (trace : List Moment) : List Moment := trace.rtakeWhile fun e => !e.loads

theorem sinceLoad_concat (trace : List Moment) (e : Moment) :
    sinceLoad (trace ++ [e]) = if e.loads then [] else sinceLoad trace ++ [e] := by
  rw [sinceLoad, List.rtakeWhile_concat]
  cases e.loads <;> rfl

theorem filterMap_sinceLoad_concat {α : Type} (f : Moment → Option α) (trace : List Moment)
    (e : Moment) : (sinceLoad (trace ++ [e])).filterMap f =
      if e.loads then [] else (sinceLoad trace).filterMap f ++ (f e).toList := by
  rw [sinceLoad_concat]
  split
  · rfl
  · rw [List.filterMap_append]
    cases h : f e <;> simp [h]

end Moment

namespace Machine

/-- The moments of a run. -/
def moments (m : Machine) : List Action → List Moment
  | [] => []
  | a :: actions => ⟨m, a⟩ :: (m.act a).moments actions

theorem actAll_append (m : Machine) (first second : List Action) :
    m.actAll (first ++ second) = (m.actAll first).actAll second :=
  List.foldl_append

theorem actAll_concat (m : Machine) (actions : List Action) (a : Action) :
    m.actAll (actions ++ [a]) = (m.actAll actions).act a :=
  actAll_append m actions [a]

theorem moments_append (m : Machine) (first second : List Action) :
    m.moments (first ++ second) = m.moments first ++ (m.actAll first).moments second := by
  induction first generalizing m with
  | nil => rfl
  | cons a actions ih =>
    rw [List.cons_append, moments, moments, ih]
    rfl

theorem moments_concat (m : Machine) (actions : List Action) (a : Action) :
    m.moments (actions ++ [a]) = m.moments actions ++ [⟨m.actAll actions, a⟩] :=
  moments_append m actions [a]

/-- What is before a moment is a run that leads to its machine. -/
theorem exists_of_moments_eq_append {m : Machine} {actions : List Action}
    {before behind : List Moment} {e : Moment} (h : m.moments actions = before ++ e :: behind) :
    ∃ first, m.moments first = before ∧ m.actAll first = e.machine := by
  induction before generalizing m actions with
  | nil =>
    cases actions with
    | nil => cases h
    | cons a actions =>
      obtain ⟨rfl, _⟩ := List.cons.inj h
      exact ⟨[], rfl, rfl⟩
  | cons b before ih =>
    cases actions with
    | nil => cases h
    | cons a actions =>
      obtain ⟨rfl, htail⟩ := List.cons.inj h
      obtain ⟨first, hfirst, hlast⟩ := ih htail
      exact ⟨a :: first, congrArg _ hfirst, hlast⟩

/-- What stands at a place of a run is found by the run up to there. -/
theorem exists_of_getElem?_moments {m : Machine} {actions : List Action} {j : Nat} {e : Moment}
    (h : (m.moments actions)[j]? = some e) :
    ∃ first behind, m.moments actions = m.moments first ++ e :: behind ∧
      (m.moments first).length = j ∧ m.actAll first = e.machine := by
  obtain ⟨hj, hget⟩ := List.getElem?_eq_some_iff.mp h
  have hcut : m.moments actions =
      (m.moments actions).take j ++ e :: (m.moments actions).drop (j + 1) := by
    rw [← hget, ← List.drop_eq_getElem_cons, List.take_append_drop]
  obtain ⟨first, hfirst, hlast⟩ := exists_of_moments_eq_append hcut
  refine ⟨first, _, hfirst ▸ hcut, ?_, hlast⟩
  rw [hfirst, List.length_take]
  omega

theorem action_mem_of_mem_moments {m : Machine} {actions : List Action} {e : Moment}
    (h : e ∈ m.moments actions) : e.action ∈ actions := by
  induction actions generalizing m with
  | nil => exact (List.not_mem_nil h).elim
  | cons a actions ih =>
    rcases List.mem_cons.mp h with rfl | h
    · exact List.mem_cons_self
    · exact List.mem_cons_of_mem _ (ih h)

theorem moments_induction {P : Machine → Prop} (hact : ∀ m a, P m → P (m.act a)) {m : Machine}
    (hm : P m) (actions : List Action) : ∀ e ∈ m.moments actions, P e.machine := by
  induction actions generalizing m with
  | nil => exact fun e he => (List.not_mem_nil he).elim
  | cons a actions ih =>
    rw [moments, List.forall_mem_cons]
    exact ⟨hm, ih (hact m a hm)⟩

end Machine

/-! ## Histories of calls -/

namespace Pacer

open Machine (Action)

/-- What a list of calls comes down to for the machine. -/
def actions (p : Pacer) : List Call → List Action
  | [] => []
  | call :: calls => p.actionsOf call ++ (p.perform call).2.actions calls

/-- All that a list of calls does to the machine. -/
def moments (p : Pacer) (calls : List Call) : List Moment := p.machine.moments (p.actions calls)

theorem machine_performAll (p : Pacer) (calls : List Call) :
    (p.performAll calls).machine = p.machine.actAll (p.actions calls) := by
  induction calls generalizing p with
  | nil => rfl
  | cons call calls ih =>
    rw [actions, Machine.actAll_append, ← machine_perform]
    exact ih _

theorem moments_cons (p : Pacer) (call : Call) (calls : List Call) :
    p.moments (call :: calls) =
      p.machine.moments (p.actionsOf call) ++ (p.perform call).2.moments calls := by
  rw [moments, actions, Machine.moments_append, ← machine_perform]
  rfl

theorem moments_append (p : Pacer) (first second : List Call) :
    p.moments (first ++ second) = p.moments first ++ (p.performAll first).moments second := by
  induction first generalizing p with
  | nil => rfl
  | cons call calls ih =>
    rw [List.cons_append, moments_cons, moments_cons, ih, List.append_assoc]
    rfl

end Pacer

end Chip8
