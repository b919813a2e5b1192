import Mathlib.Data.List.DropRight
import Chip8.Host

/-!
# Histories

A history of a pacer is a list of calls. It is looked at in two ways.

* From outside it is the list of its exchanges: each call with its reply (`Pacer.exchanges`).
  `sinceLoad` is the part of it after the last program was loaded.
* For the machine it comes down to a list of actions, in which the frames of an update are told one
  by one (`machine_perform`). What every action keeps, every history keeps
  (`performAll_induction`).
-/

namespace Chip8

/-! ## Exchanges -/

abbrev Reply := Except Fault (Option Outcome)

def Call.runs : Call → Bool
  | .step | .cycle | .runFrame | .update _ => true
  | _ => false

structure Exchange where
  call : Call
  reply : Reply

namespace Exchange

/-- Whether a program was loaded. -/
def loads : Exchange → Bool
  | ⟨.load _, .ok _⟩ => true
  | _ => false

/-- Whether the machine was run into a fault. -/
def faults : Exchange → Bool
  | ⟨call, .error _⟩ => call.runs
  | _ => false

end Exchange

/-- The exchanges after the last one that loaded a program. -/
def sinceLoad (history : List Exchange) : List Exchange :=
  history.rtakeWhile fun e => !e.loads

theorem sinceLoad_concat (history : List Exchange) (e : Exchange) :
    sinceLoad (history ++ [e]) = if e.loads then [] else sinceLoad history ++ [e] := by
  rw [sinceLoad, List.rtakeWhile_concat]
  cases e.loads <;> rfl

namespace Pacer

def exchange (p : Pacer) (call : Call) : Exchange := ⟨call, (p.perform call).1⟩

def exchanges (p : Pacer) : List Call → List Exchange
  | [] => []
  | call :: calls => p.exchange call :: exchanges (p.perform call).2 calls

theorem performAll_append (p : Pacer) (first second : List Call) :
    p.performAll (first ++ second) = (p.performAll first).performAll second :=
  List.foldl_append

theorem exchanges_append (p : Pacer) (first second : List Call) :
    p.exchanges (first ++ second) = p.exchanges first ++ (p.performAll first).exchanges second := by
  induction first generalizing p with
  | nil => rfl
  | cons call calls ih =>
    rw [List.cons_append, exchanges, exchanges, ih]
    rfl

theorem performAll_concat (p : Pacer) (calls : List Call) (call : Call) :
    p.performAll (calls ++ [call]) = ((p.performAll calls).perform call).2 :=
  performAll_append p calls [call]

theorem exchanges_concat (p : Pacer) (calls : List Call) (call : Call) :
    p.exchanges (calls ++ [call]) = p.exchanges calls ++ [(p.performAll calls).exchange call] :=
  exchanges_append p calls [call]

/-- Where the exchanges of a history are cut, the history itself is cut. -/
theorem exists_of_exchanges_eq_append {p : Pacer} {calls : List Call}
    {before behind : List Exchange} (h : p.exchanges calls = before ++ behind) :
    ∃ first second, calls = first ++ second ∧ p.exchanges first = before ∧
      (p.performAll first).exchanges second = behind := by
  induction before generalizing p calls with
  | nil => exact ⟨[], calls, rfl, rfl, h⟩
  | cons e before ih =>
    cases calls with
    | nil => cases h
    | cons call calls =>
      obtain ⟨rfl, htail⟩ := List.cons.inj h
      obtain ⟨first, second, rfl, hfirst, hsecond⟩ := ih htail
      exact ⟨call :: first, second, rfl, congrArg _ hfirst, hsecond⟩

end Pacer

/-! ## Actions -/

namespace Machine

/-- What the calls of a host come down to. -/
inductive Action where
  | load (rom : List UInt8)
  | step
  | frame
  | tick
  | press (key : UInt8)
  | release (key : UInt8)
  | setSpeed (speed : Nat)

/-- The machine after an action. A program that is refused leaves it as it was. -/
def act (m : Machine) : Action → Machine
  | .step => m.step.2
  | .frame => m.cycle.2
  | .tick => m.tick
  | .load rom =>
    if rom.length ≤ Memory.romCapacity then boot rom m.speed m.random else m
  | .press key => m.press key
  | .release key => m.release key
  | .setSpeed speed => m.setSpeed speed

/-- The machine after a list of actions, the first one first. -/
def actAll (m : Machine) (actions : List Action) : Machine := actions.foldl act m

theorem actAll_induction {P : Machine → Prop} (hact : ∀ m a, P m → P (m.act a)) (m : Machine)
    (actions : List Action) (hm : P m) : P (m.actAll actions) := by
  induction actions generalizing m with
  | nil => exact hm
  | cons a actions ih => exact ih _ (hact m a hm)

end Machine

namespace Pacer

open Machine (Action)

/-- What a call comes down to for the machine. -/
def actionsOf (p : Pacer) : Call → List Action
  | .step => [.step]
  | .cycle | .runFrame => [.frame]
  | .tick => [.tick]
  | .speedUp => [.setSpeed (p.machine.speed + 1)]
  | .speedDown => [.setSpeed (p.machine.speed - 1)]
  | .load rom => [.load rom]
  | .update dt => List.replicate ((p.update dt).2.frames - p.frames) .frame
  | .press key => [.press key]
  | .release key => [.release key]
  | .setSpeed speed => [.setSpeed speed.toNat]

/-- The pacer after a frame that was owed to the machine. -/
def afterFrame (p : Pacer) : Pacer where
  machine := p.machine.cycle.2
  owed := p.owed - frameStep
  frames := p.frames + 1

theorem drain_of_not_due {p : Pacer} (h : ¬ frameStep ≤ p.owed) (budget : Nat) (last : Outcome) :
    drain budget last p = (.ok last, p) := by
  cases budget <;> exact if_neg h

theorem drain_of_no_budget {p : Pacer} (h : frameStep ≤ p.owed) (last : Outcome) :
    drain 0 last p = (.ok last, { p with owed := 0 }) := if_pos h

theorem drain_of_ok {p : Pacer} {outcome : Outcome} (h : frameStep ≤ p.owed)
    (hc : p.machine.cycle.1 = .ok outcome) (budget : Nat) (last : Outcome) :
    drain (budget + 1) last p = drain budget outcome p.afterFrame := by
  rw [drain, if_pos h]
  simp only [runFrame, hc]
  rfl

theorem drain_of_error {p : Pacer} {fault : Fault} (h : frameStep ≤ p.owed)
    (hc : p.machine.cycle.1 = .error fault) (budget : Nat) (last : Outcome) :
    drain (budget + 1) last p = (.error fault, p.afterFrame) := by
  rw [drain, if_pos h]
  simp only [runFrame, hc]
  rfl

/-- What is drained are frames, one after the other. -/
theorem drain_frames (budget : Nat) (last : Outcome) (p : Pacer) :
    ∃ k, (drain budget last p).2.frames = p.frames + k ∧
      (drain budget last p).2.machine = p.machine.actAll (List.replicate k .frame) := by
  induction budget generalizing last p with
  | zero =>
    by_cases h : frameStep ≤ p.owed
    · rw [drain_of_no_budget h]
      exact ⟨0, rfl, rfl⟩
    · rw [drain_of_not_due h]
      exact ⟨0, rfl, rfl⟩
  | succ budget ih =>
    by_cases h : frameStep ≤ p.owed
    · cases hc : p.machine.cycle.1 with
      | ok outcome =>
        obtain ⟨k, hframes, hmachine⟩ := ih outcome p.afterFrame
        rw [drain_of_ok h hc, hframes, hmachine]
        exact ⟨k + 1, Nat.add_right_comm _ _ _, rfl⟩
      | error fault =>
        rw [drain_of_error h hc]
        exact ⟨1, rfl, rfl⟩
    · rw [drain_of_not_due h]
      exact ⟨0, rfl, rfl⟩

/-- An update runs frames, one after the other. -/
theorem update_frames (p : Pacer) (dt : Float32) :
    ∃ k, (p.update dt).2.frames = p.frames + k ∧
      (p.update dt).2.machine = p.machine.actAll (List.replicate k .frame) :=
  drain_frames maxFrames _ { p with owed := p.owed + dt }

theorem perform_load (p : Pacer) (rom : List UInt8) :
    p.perform (.load rom) =
      if rom.length ≤ Memory.romCapacity then
        (.ok none, { p with machine := Machine.boot rom p.machine.speed p.machine.random })
      else (.error (.romTooLarge rom.length Memory.romCapacity), p) := by
  simp only [perform, Machine.load]
  by_cases h : rom.length ≤ Memory.romCapacity
  · simp only [h, if_true]
  · simp only [h, if_false]

theorem machine_perform (p : Pacer) (call : Call) :
    (p.perform call).2.machine = p.machine.actAll (p.actionsOf call) := by
  cases call
  case load rom =>
    rw [perform_load]
    show _ = ite _ _ _
    split <;> rfl
  case update dt =>
    obtain ⟨k, hframes, hmachine⟩ := p.update_frames dt
    have hk : (p.update dt).2.frames - p.frames = k := by
      rw [hframes]
      exact Nat.add_sub_cancel_left p.frames k
    show (p.update dt).2.machine = _
    rw [actionsOf, hk]
    exact hmachine
  all_goals rfl

/-- What no action breaks, no history breaks. -/
theorem performAll_induction {P : Machine → Prop} (hact : ∀ m a, P m → P (m.act a)) (p : Pacer)
    (calls : List Call) (hp : P p.machine) : P (p.performAll calls).machine := by
  induction calls generalizing p with
  | nil => exact hp
  | cons call calls ih =>
    apply ih
    rw [machine_perform]
    exact Machine.actAll_induction hact _ _ hp

end Pacer

end Chip8
