import Chip8.Proofs.Pacing

/-!
# The timers

A timer holds the value that it was last set to, less the ticks since, and stops at zero. The
program sets a timer by an instruction; the ticks come from the frames, at the pace of
`Chip8.Proofs.Pacing`, and from the host. In a frame the tick comes first, so the frame that sets a
timer has ticked before.

* `Moment.toNat_timer_next`: what a moment does to a timer.
* `Machine.timer_actAll`: the value of a timer after a run.
* `timer_law` is about the histories of a pacer, and adds what an instruction reads from a timer.
-/

namespace Chip8

/-- A timer of a machine. -/
inductive Timer where
  | delay
  | sound
deriving DecidableEq, Repr

/-- The register that the instruction sets the timer from, if it sets it. -/
def Instruction.source? : Instruction → Timer → Option Nibble
  | .setDelay x, .delay => some x
  | .setSound x, .sound => some x
  | _, _ => none

/-! ## Steps and frames -/

namespace Machine

def timer (m : Machine) : Timer → UInt8
  | .delay => m.delay
  | .sound => m.sound

/-- The value that an instruction sets the timer to, if it sets it. -/
def setting? (m : Machine) (t : Timer) (i : Instruction) : Option UInt8 :=
  (i.source? t).map fun x => m.regs[x]

theorem timer_after (m : Machine) (t : Timer) (i : Instruction) :
    (m.after i).timer t = (m.setting? t i).getD (m.timer t) := by
  cases t <;> cases i <;> rfl

theorem timer_step (m : Machine) (t : Timer) :
    m.step.2.timer t = (m.carried?.bind (m.setting? t)).getD (m.timer t) := by
  rcases step_cases m with ⟨_, hs⟩ | ⟨_, fault, _, hs⟩ | ⟨_, word, hw, _, hs⟩
  · have hc : m.carried? = none := by rw [carried?, hs]
    rw [hc, hs]
    rfl
  · have hc : m.carried? = none := by rw [carried?, hs]
    rw [hc, hs]
    cases t <;> rfl
  · rw [carried?_eq_some hw hs, hs]
    exact timer_after m t _

theorem timer_tick (m : Machine) (t : Timer) : m.tick.timer t = countdown (m.timer t) := by
  cases t <;> rfl

theorem toNat_timer_countFrame (m : Machine) (t : Timer) :
    (m.countFrame.timer t).toNat = (m.timer t).toNat - if m.tickDue then 1 else 0 := by
  unfold countFrame tickDue
  by_cases h : m.speed ≤ m.sinceTick + 1
  · rw [if_pos h, if_pos (decide_eq_true h), ← toNat_countdown, ← timer_tick]
    cases t <;> rfl
  · rw [if_neg h, if_neg (Bool.eq_false_iff.mp (decide_eq_false h))]
    cases t <;> rfl

theorem timer_press (m : Machine) (key : UInt8) (t : Timer) :
    (m.press key).timer t = m.timer t := by
  unfold press
  split <;> cases t <;> rfl

theorem timer_release (m : Machine) (key : UInt8) (t : Timer) :
    (m.release key).timer t = m.timer t := by
  unfold release
  split <;> cases t <;> rfl

end Machine

/-! ## Moments -/

namespace Moment

/-- Whether the timers tick at a moment: in a frame in which a tick is due, or if the host asks for
it. -/
def ticks (e : Moment) : Bool :=
  match e.action with
  | .frame => e.machine.tickDue
  | .tick => true
  | _ => false

/-- The value that a timer is set to at a moment, if an instruction that sets it is carried out. -/
def setting? (e : Moment) (t : Timer) : Option UInt8 := e.instruction?.bind (e.machine.setting? t)

theorem timer_of_loads {e : Moment} (h : e.loads = true) (t : Timer) : e.next.timer t = 0 := by
  rcases e.cases with ⟨_, _, rom, hnext⟩ | ⟨hl, _⟩ | ⟨hl, _⟩
  · rw [hnext]
    cases t <;> rfl
  all_goals
    rw [h] at hl
    cases hl

/-- A moment sets a timer or lets it run down by its ticks. -/
theorem toNat_timer_next {e : Moment} (h : e.loads = false) (t : Timer) :
    (e.next.timer t).toNat =
      (e.setting? t).elim ((e.machine.timer t).toNat - if e.ticks then 1 else 0) UInt8.toNat := by
  obtain ⟨m, a⟩ := e
  cases a
  case load rom =>
    have hlarge : ¬ rom.length ≤ Memory.romCapacity := of_decide_eq_false h
    have hnext : next ⟨m, .load rom⟩ = m := if_neg hlarge
    rw [hnext]
    rfl
  case step =>
    show (m.step.2.timer t).toNat = (m.carried?.bind (m.setting? t)).elim (m.timer t).toNat _
    rw [Machine.timer_step]
    cases m.carried?.bind (m.setting? t) <;> rfl
  case frame =>
    have hset : ∀ i, m.countFrame.setting? t i = m.setting? t i := by
      intro i
      rw [Machine.setting?, m.rests_countFrame.regs, Machine.setting?]
    show (m.countFrame.step.2.timer t).toNat = (m.countFrame.carried?.bind (m.setting? t)).elim
      ((m.timer t).toNat - if m.tickDue then 1 else 0) UInt8.toNat
    rw [Machine.timer_step, ← Machine.toNat_timer_countFrame, ← funext hset]
    cases m.countFrame.carried?.bind (m.countFrame.setting? t) <;> rfl
  case tick =>
    show (m.tick.timer t).toNat = (m.timer t).toNat - 1
    rw [Machine.timer_tick, Machine.toNat_countdown]
  case press key =>
    show ((m.press key).timer t).toNat = (m.timer t).toNat
    rw [Machine.timer_press]
  case release key =>
    show ((m.release key).timer t).toNat = (m.timer t).toNat
    rw [Machine.timer_release]
  case setSpeed speed => cases t <;> rfl

/-- A paused machine carries nothing out. -/
theorem instruction?_of_paused {e : Moment} (h : e.machine.paused = true) :
    e.instruction? = none := by
  obtain ⟨m, a⟩ := e
  have hcarried : ∀ {n : Machine}, n.paused = true → n.carried? = none := by
    intro n hn
    rw [Machine.carried?, Machine.step_of_paused hn]
  cases a
  case step => exact hcarried h
  case frame => exact hcarried (m.rests_countFrame.paused.trans h)
  all_goals rfl

/-- While a machine is paused or waits for a key, its timers run down all the same. -/
theorem setting?_of_idle {e : Moment}
    (h : e.machine.paused = true ∨ ∃ x, e.instruction? = some (.waitKey x)) (t : Timer) :
    e.setting? t = none := by
  unfold setting?
  rcases h with hp | ⟨x, hx⟩
  · rw [instruction?_of_paused hp]
    rfl
  · rw [hx]
    cases t <;> rfl

/-- The instruction that reads the delay timer reads what the tick of its frame has left. -/
theorem regs_of_readDelay {e : Moment} {x : Nibble} (h : e.instruction? = some (.readDelay x)) :
    e.next.regs[x].toNat = (e.machine.timer .delay).toNat - if e.ticks then 1 else 0 := by
  rcases e.cases with ⟨_, hi, _⟩ | ⟨hl, m, i, _, hi, _, hnext⟩ | ⟨_, hi, _⟩
  case inr.inl =>
    have hread : e.next.regs[x] = e.next.timer .delay := by
      obtain rfl := Option.some.inj (hi.symm.trans h)
      rw [hnext]
      exact Registers.getElem_set_self _ x _
    have hset : e.setting? .delay = none := by
      rw [setting?, h]
      rfl
    rw [hread, toNat_timer_next hl, hset, Option.elim_none]
  all_goals
    rw [h] at hi
    cases hi

/-! ## Runs -/

/-- The number of ticks. -/
def countTicks (trace : List Moment) : Nat := trace.countP ticks

/-- The value that the timer was last set to, and zero if it never was. -/
def lastSet (t : Timer) (trace : List Moment) : UInt8 :=
  (trace.filterMap (·.setting? t)).getLastD 0

/-- The moments after the last one that set the timer. -/
def sinceSet (t : Timer) (trace : List Moment) : List Moment :=
  trace.rtakeWhile fun e => (e.setting? t).isNone

/-- What the last setting of the timer and the ticks since have left. -/
def remaining (t : Timer) (trace : List Moment) : Nat :=
  (lastSet t trace).toNat - countTicks (sinceSet t trace)

theorem remaining_concat (t : Timer) (trace : List Moment) (e : Moment) :
    remaining t (trace ++ [e]) =
      (e.setting? t).elim (remaining t trace - if e.ticks then 1 else 0) UInt8.toNat := by
  unfold remaining lastSet sinceSet countTicks
  rw [List.filterMap_append, List.rtakeWhile_concat]
  cases h : e.setting? t with
  | none =>
    have hnone : [e].filterMap (·.setting? t) = [] := List.filterMap_cons_none h
    rw [hnone, List.append_nil, Option.isNone_none, if_pos rfl, List.countP_append,
      List.countP_singleton, Option.elim_none, Nat.sub_sub]
  | some value =>
    have hsome : [e].filterMap (·.setting? t) = [value] := List.filterMap_cons_some h
    rw [hsome, List.getLastD_concat, Option.isNone_some, if_neg Bool.false_ne_true]
    rfl

end Moment

namespace Machine

/-- The timers of a run that began with both at zero. -/
theorem timer_actAll {m : Machine} {t : Timer} (hm : m.timer t = 0) (actions : List Action) :
    ((m.actAll actions).timer t).toNat =
      Moment.remaining t (Moment.sinceLoad (m.moments actions)) := by
  -- from the back, since it is the last load and the last setting that count
  induction actions using List.reverseRecOn with
  | nil => exact congrArg UInt8.toNat hm
  | append_singleton actions a ih =>
    rw [moments_concat, Moment.sinceLoad_concat, actAll_concat]
    show (Moment.next ⟨m.actAll actions, a⟩ |>.timer t).toNat = _
    cases hl : Moment.loads ⟨m.actAll actions, a⟩ with
    | true =>
      rw [Moment.timer_of_loads hl]
      rfl
    | false =>
      rw [Moment.toNat_timer_next hl, if_neg Bool.false_ne_true, Moment.remaining_concat, ih]

end Machine

/-! ## Histories of calls -/

namespace Pacer

/-- The timers of every machine that a history of calls can lead to. Each holds the value that it
was last set to since a program was loaded, less the ticks since, so the tick of the frame that set
it does not count; and the tone sounds as long as the sound timer is above zero. An instruction
that reads the delay timer finds the tick of its frame counted. Pause and waiting stop no tick. -/
theorem timer_law (seed : UInt64) (calls : List Call) :
    let trace := (ofSeed seed).moments calls
    let run := Moment.sinceLoad trace
    let m := ((ofSeed seed).performAll calls).machine
    (∀ t, (m.timer t).toNat =
      (Moment.lastSet t run).toNat - Moment.countTicks (Moment.sinceSet t run)) ∧
    (m.hasSound = true ↔
      Moment.countTicks (Moment.sinceSet .sound run) < (Moment.lastSet .sound run).toNat) ∧
    (∀ before e behind x, trace = before ++ e :: behind →
      e.instruction? = some (.readDelay x) →
        let earlier := Moment.sinceLoad before
        e.next.regs[x].toNat = (Moment.lastSet .delay earlier).toNat -
          Moment.countTicks (Moment.sinceSet .delay earlier ++ [e])) ∧
    (∀ e ∈ trace, (e.machine.paused = true ∨ ∃ x, e.instruction? = some (.waitKey x)) →
      e.loads = false →
        ∀ t, (e.next.timer t).toNat =
          (e.machine.timer t).toNat - if e.ticks then 1 else 0) := by
  intro trace run m
  have hzero : ∀ t, (ofSeed seed).machine.timer t = 0 := by
    intro t
    cases t <;> rfl
  have hvalue : ∀ t, (m.timer t).toNat = Moment.remaining t run := by
    intro t
    show (((ofSeed seed).performAll calls).machine.timer t).toNat = _
    rw [machine_performAll]
    exact Machine.timer_actAll (hzero t) _
  refine ⟨hvalue, ?_, ?_, ?_⟩
  · have hsound : m.hasSound = true ↔ 0 < (m.timer .sound).toNat := m.hasSound_iff
    rw [hsound, hvalue]
    exact Nat.sub_pos_iff_lt
  · intro before e behind x hcut hread earlier
    obtain ⟨first, hfirst, hlast⟩ := Machine.exists_of_moments_eq_append hcut
    rw [Moment.regs_of_readDelay hread, ← hlast, Machine.timer_actAll (hzero .delay), hfirst,
      Moment.remaining, Nat.sub_sub, Moment.countTicks, Moment.countTicks, List.countP_append,
      List.countP_singleton]
  · intro e _ hidle hl t
    rw [Moment.toNat_timer_next hl, Moment.setting?_of_idle hidle, Option.elim_none]

/-- Both timers are set to 3, one a frame before the other. The delay timer is read in the second
frame after its own, and the sound timer runs out while the program waits for a key. -/
theorem timer_law_read :
    let calls : List Call :=
      [.load [0x60, 0x03, 0xF0, 0x15, 0xF0, 0x18, 0xF1, 0x07, 0xF2, 0x0A], .cycle, .runFrame,
        .cycle, .cycle, .tick, .cycle]
    let moments := (ofSeed 0).moments calls
    (∃ before e behind, moments = before ++ e :: behind ∧
      e.instruction? = some (.readDelay 1) ∧ e.next.regs[(1 : Nibble)].toNat = 3 - 2) ∧
    (∃ e ∈ moments, e.instruction? = some (.waitKey 2) ∧
      (e.machine.timer .sound).toNat = 1 ∧ (e.next.timer .sound).toNat = 0) := by
  intro calls moments
  have law := timer_law 0 calls
  have hcut : ∀ i : Fin moments.length,
      moments = moments.take i ++ moments.get i :: moments.drop (i + 1) := by
    intro i
    rw [List.get_eq_getElem, ← List.drop_eq_getElem_cons, List.take_append_drop]
  let read := moments.get ⟨4, by decide +kernel⟩
  let wait := moments.get ⟨6, by decide +kernel⟩
  obtain ⟨hread, hwait, hloads, hticks, hsound⟩ : read.instruction? = some (.readDelay 1) ∧
      wait.instruction? = some (.waitKey 2) ∧ wait.loads = false ∧ wait.ticks = true ∧
      (wait.machine.timer .sound).toNat = 1 := by decide +kernel
  refine ⟨⟨_, read, _, hcut _, hread, ?_⟩, ⟨wait, List.get_mem _ _, hwait, hsound, ?_⟩⟩
  · rw [law.2.2.1 _ _ _ _ (hcut _) hread]
    decide +kernel
  · rw [law.2.2.2 wait (List.get_mem _ _) (.inr ⟨2, hwait⟩) hloads .sound, hsound, hticks]
    rfl

end Pacer

end Chip8
