import Chip8.Proofs.TwoRuns

/-!
# Schedules

A program learns of time through one instruction, `Fx07`, which reads the delay timer. So as long as
it is not carried out, it makes no difference when the timers tick, how many frames there are to a
tick, and whether an instruction runs in a frame or on its own. What then counts of a call is what it
demands of the program (`Call.demand?`), and two schedules with the same demands have the same
effect (`pairing_timing`). The sound timer is read by no instruction at all (`likeness_sound`).
-/

namespace Chip8

/-! ## Demands -/

/-- What a call demands of the program. -/
inductive Demand where
  | load (rom : List UInt8)
  /-- One instruction, in a frame or on its own. -/
  | run
  | update (dt : Float32)
  | press (key : UInt8)
  | release (key : UInt8)

/-- A tick and a change of speed demand nothing of the program. -/
def Call.demand? : Call → Option Demand
  | .load rom => some (.load rom)
  | .step | .cycle | .runFrame => some .run
  | .update dt => some (.update dt)
  | .press key => some (.press key)
  | .release key => some (.release key)
  | .tick | .setSpeed _ | .speedUp | .speedDown => none

/-- Only for one instruction there is more than one call that demands it. -/
theorem Call.eq_of_demand? {call call' : Call} {d : Demand} (h : call.demand? = some d)
    (h' : call'.demand? = some d) (hrun : d ≠ .run) : call' = call := by
  cases d
  case run => exact absurd rfl hrun
  all_goals
    cases call <;> cases h
    cases call' <;> cases h'
    rfl

namespace Machine

/-! ## Machines with different clocks -/

/-- `n` is `m` but for the timers, and for what decides when they tick. -/
def SameButTiming (m n : Machine) : Prop :=
  ∃ speed sinceTick delay sound,
    n = { m with speed := speed, sinceTick := sinceTick, delay := delay, sound := sound }

/-- The instruction that lets a program see the delay timer. -/
def ReadsDelay (i : Instruction) : Prop := ∃ x, i = .readDelay x

namespace SameButTiming

variable {m n r : Machine}

theorem symm (h : SameButTiming m n) : SameButTiming n m := by
  obtain ⟨speed, sinceTick, delay, sound, rfl⟩ := h
  exact ⟨m.speed, m.sinceTick, m.delay, m.sound, rfl⟩

theorem trans (h : SameButTiming m n) (h' : SameButTiming n r) : SameButTiming m r := by
  obtain ⟨_, _, _, _, rfl⟩ := h
  obtain ⟨speed, sinceTick, delay, sound, rfl⟩ := h'
  exact ⟨speed, sinceTick, delay, sound, rfl⟩

theorem refl (m : Machine) : SameButTiming m m := ⟨m.speed, m.sinceTick, m.delay, m.sound, rfl⟩

theorem countFrame (m : Machine) : SameButTiming m m.countFrame := by
  unfold Machine.countFrame
  split <;> exact ⟨_, _, _, _, rfl⟩

theorem after {speed sinceTick : Nat} {delay sound : UInt8} {i : Instruction}
    (hi : ¬ ReadsDelay i) :
    SameButTiming (m.after i) (Machine.after
      { m with speed := speed, sinceTick := sinceTick, delay := delay, sound := sound } i) := by
  cases i
  case readDelay x => exact absurd ⟨x, rfl⟩ hi
  all_goals exact ⟨speed, sinceTick, _, _, rfl⟩

end SameButTiming

theorem likenessUnless_timing : LikenessUnless ReadsDelay SameButTiming where
  paused := by rintro m _ ⟨_, _, _, _, rfl⟩; rfl
  step := by
    rintro m _ ⟨speed, sinceTick, delay, sound, rfl⟩ hquiet
    refine step_congr ⟨_, _, _, _, rfl⟩ rfl rfl ?_ ⟨_, _, _, _, rfl⟩ fun i hi => ⟨?_, ?_⟩
    · intro i
      cases i <;> rfl
    · cases i <;> rfl
    · exact SameButTiming.after (hquiet i hi)
  countFrame := fun {m n} h =>
    ((SameButTiming.countFrame m).symm.trans h).trans (SameButTiming.countFrame n)
  boot := by rintro m _ ⟨_, _, _, _, rfl⟩ rom; exact ⟨_, _, _, _, rfl⟩
  tick := by rintro m _ ⟨_, _, _, _, rfl⟩; exact ⟨_, _, _, _, rfl⟩
  press := by
    rintro m _ ⟨_, _, _, _, rfl⟩ key
    unfold press
    split <;> exact ⟨_, _, _, _, rfl⟩
  release := by
    rintro m _ ⟨_, _, _, _, rfl⟩ key
    unfold release
    split <;> exact ⟨_, _, _, _, rfl⟩
  setSpeed := by rintro m _ ⟨_, _, _, _, rfl⟩ speed; exact ⟨_, _, _, _, rfl⟩
  speedUp := by rintro m _ ⟨_, _, _, _, rfl⟩; exact ⟨_, _, _, _, rfl⟩
  speedDown := by rintro m _ ⟨_, _, _, _, rfl⟩; exact ⟨_, _, _, _, rfl⟩

/-! ## Machines with different sound timers -/

/-- `n` is `m` but for the sound timer. -/
def SameButSound (m n : Machine) : Prop := ∃ sound, n = { m with sound := sound }

/-- The sound timer is never seen. -/
theorem likeness_sound : Likeness SameButSound where
  paused := by rintro m _ ⟨sound, rfl⟩; rfl
  speed := by rintro m _ ⟨sound, rfl⟩; rfl
  step := by
    rintro m _ ⟨sound, rfl⟩
    refine step_congr ⟨sound, rfl⟩ rfl rfl ?_ ⟨sound, rfl⟩ fun i _ => ⟨?_, ?_⟩
    · intro i
      cases i <;> rfl
    · cases i <;> rfl
    · cases i <;> exact ⟨_, rfl⟩
  countFrame := by
    rintro m _ ⟨sound, rfl⟩
    unfold countFrame
    split <;> exact ⟨_, rfl⟩
  boot := by rintro m _ ⟨sound, rfl⟩ rom; exact ⟨0, rfl⟩
  tick := by rintro m _ ⟨sound, rfl⟩; exact ⟨countdown sound, rfl⟩
  press := by
    rintro m _ ⟨sound, rfl⟩ key
    unfold press
    split <;> exact ⟨sound, rfl⟩
  release := by
    rintro m _ ⟨sound, rfl⟩ key
    unfold release
    split <;> exact ⟨sound, rfl⟩
  setSpeed := by rintro m _ ⟨sound, rfl⟩ speed; exact ⟨sound, rfl⟩

end Machine

/-! ## Histories of calls -/

namespace Pacer

open Machine (SameButTiming ReadsDelay)

/-- A call that demands nothing moves the clock at most. -/
theorem alike_of_no_demand {call : Call} (h : call.demand? = none) (p : Pacer) :
    Alike SameButTiming p (p.perform call).2 := by
  cases call
  case tick | setSpeed | speedUp | speedDown => exact ⟨⟨_, _, _, _, rfl⟩, rfl⟩
  all_goals cases h

/-- A call that demands one instruction makes a step, of the machine itself or of one that counted
a frame. -/
theorem exists_step_of_run {call : Call} (h : call.demand? = some .run) (p : Pacer) :
    ∃ m, SameButTiming p.machine m ∧
      p.perform call = (m.step.1.map some, { (p.perform call).2 with machine := m.step.2 }) ∧
      (p.perform call).2.owed = p.owed ∧
      ∃ e ∈ p.machine.moments (p.actionsOf call), e.instruction? = m.carried? := by
  cases call
  case step =>
    exact ⟨p.machine, .refl _, rfl, rfl, ⟨p.machine, .step⟩, List.mem_cons_self, rfl⟩
  case cycle | runFrame =>
    exact ⟨p.machine.countFrame, .countFrame _, rfl, rfl, ⟨p.machine, .frame⟩, List.mem_cons_self,
      rfl⟩
  all_goals cases h

theorem pairing_timing : Pairing ReadsDelay SameButTiming Call.demand? where
  left h hnone :=
    have hsilent := alike_of_no_demand hnone _
    ⟨hsilent.machine.symm.trans h.machine, h.owed.trans hsilent.owed.symm⟩
  right h hnone :=
    have hsilent := alike_of_no_demand hnone _
    ⟨h.machine.trans hsilent.machine, hsilent.owed.trans h.owed⟩
  both := by
    intro p q call call' d h hd hd' hquiet
    by_cases hrun : d = .run
    · subst hrun
      obtain ⟨m, hm, hp, hpowed, e, he, hcarried⟩ := exists_step_of_run hd p
      obtain ⟨n, hn, hq, hqowed, _⟩ := exists_step_of_run hd' q
      have hmn : SameButTiming m n := (hm.symm.trans h.machine).trans hn
      obtain ⟨hanswer, hnext⟩ := Machine.likenessUnless_timing.step hmn
        fun i hi => hquiet e he i (hcarried.trans hi)
      refine ⟨?_, ?_, ?_⟩
      · rw [hp, hq, hanswer]
      · rw [hp, hq]
        exact hnext
      · rw [hpowed, hqowed, h.owed]
    · rw [Call.eq_of_demand? hd hd' hrun]
      exact Machine.likenessUnless_timing.perform h call hquiet

/-- Time reaches a program only through `Fx07`. Two pacers that differ in their timers, their speed
and their count of frames are given calls that demand the same of the program, one after the other;
ticks and changes of speed may stand anywhere in between, and an instruction may be run in a frame
or on its own. If the first history carries out no `Fx07`, calls that belong together get the same
reply and the machines never differ in anything else. Pacers that differ in the sound timer get the
same replies to the same calls and never differ in anything else, `Fx07` or not. -/
theorem timing_law :
    (∀ (p q : Pacer) (calls calls' : List Call), Alike SameButTiming p q →
      calls'.filterMap Call.demand? = calls.filterMap Call.demand? →
      (∀ e ∈ p.moments calls, ∀ x, e.instruction? ≠ some (.readDelay x)) →
        List.Forall₂ (Stage.Matches SameButTiming) (Stage.asking Call.demand? (p.stages calls))
          (Stage.asking Call.demand? (q.stages calls')) ∧
        Alike SameButTiming (p.performAll calls) (q.performAll calls')) ∧
    (∀ (p q : Pacer) (calls : List Call), Alike Machine.SameButSound p q →
      q.exchanges calls = p.exchanges calls ∧
        Alike Machine.SameButSound (p.performAll calls) (q.performAll calls)) := by
  refine ⟨fun p q calls calls' h hdemands hreads => ?_,
    fun p q calls h => Machine.likeness_sound.performAll h calls⟩
  apply pairing_timing.stages h hdemands
  rintro e he i hi ⟨x, rfl⟩
  exact hreads e he x hi

/-- Both timers are set, a key is awaited and a return finds no call, step by step or in frames with
ticks in between. The delay timers differ at the end, and the fault is the same. -/
theorem timing_law_frames :
    let rom : List UInt8 := [0x60, 0x05, 0xF0, 0x15, 0xF0, 0x18, 0xF1, 0x0A, 0x00, 0xEE]
    let calls : List Call := [.load rom, .step, .step, .step, .step, .press 5, .step, .step, .step]
    let calls' : List Call :=
      [.setSpeed 2, .load rom, .cycle, .runFrame, .tick, .cycle, .cycle, .press 5, .speedUp, .cycle,
        .tick, .step, .runFrame]
    let p := (ofSeed 0).performAll calls
    let q := (ofSeed 0).performAll calls'
    let silent : Pacer := { p with machine := { p.machine with sound := 0 } }
    p.machine.delay ≠ q.machine.delay ∧ SameButTiming p.machine q.machine ∧
      List.Forall₂ (Stage.Matches SameButTiming)
        (Stage.asking Call.demand? ((ofSeed 0).stages calls))
        (Stage.asking Call.demand? ((ofSeed 0).stages calls')) ∧
      p.machine.sound ≠ silent.machine.sound ∧
      silent.exchanges [.update 1, .load rom, .cycle] = p.exchanges [.update 1, .load rom, .cycle] := by
  intro rom calls calls' p q silent
  obtain ⟨hdelay, hsound, hreads⟩ :
      p.machine.delay ≠ q.machine.delay ∧ p.machine.sound ≠ silent.machine.sound ∧
      ∀ e ∈ (ofSeed 0).moments calls, ∀ x, e.instruction? ≠ some (.readDelay x) := by
    decide +kernel
  have hdemands : calls'.filterMap Call.demand? = calls.filterMap Call.demand? := rfl
  obtain ⟨hstages, hall⟩ :=
    timing_law.1 (ofSeed 0) (ofSeed 0) calls calls' ⟨.refl _, rfl⟩ hdemands hreads
  have hsilent : Alike Machine.SameButSound p silent := ⟨⟨0, rfl⟩, rfl⟩
  exact ⟨hdelay, hall.machine, hstages, hsound, (timing_law.2 p silent _ hsilent).1⟩

end Pacer

end Chip8
