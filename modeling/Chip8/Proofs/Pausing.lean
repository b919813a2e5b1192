import Chip8.Proofs.Effects
import Chip8.Proofs.Histories

/-!
# The pause

A machine is paused exactly if it met a fault since a program was last loaded
(`paused_performAll`). While it is paused it rests (`Machine.Rests`): whatever is asked of it, the
running program sees no change, and only the timers run down. `pause_law` puts both together and
adds that no stretch of a history without a loaded program holds two faults.
-/

namespace Chip8

namespace Machine

/-! ## Resting -/

/-- `next` is `m` but for the timers, which may have run down, and for the keypad, the speed and
the count of frames. -/
structure Rests (m next : Machine) : Prop where
  memory : next.memory = m.memory
  display : next.display = m.display
  pc : next.pc = m.pc
  index : next.index = m.index
  regs : next.regs = m.regs
  stack : next.stack = m.stack
  random : next.random = m.random
  paused : next.paused = m.paused
  delay : next.delay ≤ m.delay
  sound : next.sound ≤ m.sound

theorem Rests.refl (m : Machine) : m.Rests m :=
  ⟨rfl, rfl, rfl, rfl, rfl, rfl, rfl, rfl, UInt8.le_refl _, UInt8.le_refl _⟩

theorem Rests.trans {a b c : Machine} (hab : a.Rests b) (hbc : b.Rests c) : a.Rests c where
  memory := hbc.memory.trans hab.memory
  display := hbc.display.trans hab.display
  pc := hbc.pc.trans hab.pc
  index := hbc.index.trans hab.index
  regs := hbc.regs.trans hab.regs
  stack := hbc.stack.trans hab.stack
  random := hbc.random.trans hab.random
  paused := hbc.paused.trans hab.paused
  delay := UInt8.le_trans hbc.delay hab.delay
  sound := UInt8.le_trans hbc.sound hab.sound

theorem rests_tick (m : Machine) : m.Rests m.tick :=
  { Rests.refl m with
    delay := countdown_le m.delay
    sound := countdown_le m.sound }

theorem rests_countFrame (m : Machine) : m.Rests m.countFrame := by
  unfold countFrame
  split
  · exact { m.rests_tick with }
  · exact { Rests.refl m with }

theorem rests_press (m : Machine) (key : UInt8) : m.Rests (m.press key) := by
  unfold press
  split
  · exact { Rests.refl m with }
  · exact .refl m

theorem rests_release (m : Machine) (key : UInt8) : m.Rests (m.release key) := by
  unfold release
  split
  · exact { Rests.refl m with }
  · exact .refl m

theorem rests_setSpeed (m : Machine) (speed : Nat) : m.Rests (m.setSpeed speed) :=
  { Rests.refl m with }

theorem cycle_of_paused {m : Machine} (hp : m.paused = true) :
    m.cycle = (.ok .paused, m.countFrame) :=
  step_of_paused ((rests_countFrame m).paused.trans hp)

/-! ## The pause and the answers -/

theorem paused_step (m : Machine) :
    m.step.2.paused = true ↔ m.paused = true ∨ ∃ fault, m.step.1 = .error fault := by
  rcases step_cases m with ⟨hp, hs⟩ | ⟨hp, fault, _, hs⟩ | ⟨hp, word, _, _, hs⟩
  · simp [hs, hp]
  · simp [hs]
  · simp [hs, hp, after]

theorem paused_cycle (m : Machine) :
    m.cycle.2.paused = true ↔ m.paused = true ∨ ∃ fault, m.cycle.1 = .error fault := by
  rw [← (rests_countFrame m).paused]
  exact paused_step m.countFrame

end Machine

namespace Exchange

def Resting (e : Exchange) : Prop :=
  (e.call.runs = true → e.reply = .ok (some .paused)) ∧
    ∀ fault, e.reply = .error fault →
      ∃ rom, e.call = .load rom ∧ 3584 < rom.length ∧ fault = .romTooLarge rom.length 3584

theorem Resting.not_faults {e : Exchange} (h : e.Resting) : e.faults = false := by
  obtain ⟨call, reply⟩ := e
  cases hr : call.runs with
  | false => cases reply <;> simp [faults, hr]
  | true =>
    have hreply : reply = .ok (some .paused) := h.1 hr
    subst hreply
    rfl

end Exchange

namespace Pacer

theorem paused_drain (budget : Nat) (last : Outcome) (p : Pacer) :
    (drain budget last p).2.machine.paused = true ↔
      p.machine.paused = true ∨ ∃ fault, (drain budget last p).1 = .error fault := by
  induction budget generalizing last p with
  | zero =>
    by_cases h : frameStep ≤ p.owed
    · simp [drain_of_no_budget h]
    · simp [drain_of_not_due h]
  | succ budget ih =>
    by_cases h : frameStep ≤ p.owed
    · have hcycle := p.machine.paused_cycle
      cases hc : p.machine.cycle.1 with
      | ok outcome =>
        rw [drain_of_ok h hc, ih outcome p.afterFrame]
        show p.machine.cycle.2.paused = true ∨ _ ↔ _
        simp [hcycle, hc]
      | error fault =>
        rw [drain_of_error h hc]
        show p.machine.cycle.2.paused = true ↔ _
        simp [hcycle, hc]
    · simp [drain_of_not_due h]

/-- A machine that rests is not woken by frames. -/
theorem drain_of_paused {p : Pacer} (hp : p.machine.paused = true) (budget : Nat) :
    (drain budget .paused p).1 = .ok .paused ∧
      p.machine.Rests (drain budget .paused p).2.machine := by
  induction budget generalizing p with
  | zero =>
    by_cases h : frameStep ≤ p.owed
    · rw [drain_of_no_budget h]
      exact ⟨rfl, .refl _⟩
    · rw [drain_of_not_due h]
      exact ⟨rfl, .refl _⟩
  | succ budget ih =>
    by_cases h : frameStep ≤ p.owed
    · have hcycle := Machine.cycle_of_paused hp
      have hrests : p.machine.Rests p.afterFrame.machine := by
        show p.machine.Rests p.machine.cycle.2
        rw [hcycle]
        exact p.machine.rests_countFrame
      rw [drain_of_ok h (congrArg Prod.fst hcycle)]
      obtain ⟨hanswer, hmachine⟩ := ih (hrests.paused.trans hp)
      exact ⟨hanswer, hrests.trans hmachine⟩
    · rw [drain_of_not_due h]
      exact ⟨rfl, .refl _⟩

/-! ## Single calls -/

theorem exists_map_eq_error {answer : Answer} :
    (∃ fault, answer.map some = .error fault) ↔ ∃ fault, answer = .error fault := by
  cases answer <;> simp [Except.map]

theorem paused_perform_of_runs {call : Call} (hruns : call.runs = true) (p : Pacer) :
    (p.perform call).2.machine.paused = true ↔
      p.machine.paused = true ∨ ∃ fault, (p.perform call).1 = .error fault := by
  cases call
  case step =>
    show p.machine.step.2.paused = true ↔ _ ∨ ∃ fault, p.machine.step.1.map some = .error fault
    rw [exists_map_eq_error, Machine.paused_step]
  case cycle | runFrame =>
    show p.machine.cycle.2.paused = true ↔ _ ∨ ∃ fault, p.machine.cycle.1.map some = .error fault
    rw [exists_map_eq_error, Machine.paused_cycle]
  case update dt =>
    show (p.update dt).2.machine.paused = true ↔ _ ∨ ∃ fault, (p.update dt).1.map some = .error fault
    rw [exists_map_eq_error]
    exact paused_drain _ _ _
  all_goals cases hruns

/-- A call that does not run the machine and loads nothing lets it rest. -/
theorem rests_perform {p : Pacer} {call : Call} (hruns : call.runs = false)
    (hloads : (p.exchange call).loads = false) : p.machine.Rests (p.perform call).2.machine := by
  cases call
  case load rom =>
    unfold exchange at hloads
    rw [perform_load] at hloads ⊢
    split at hloads
    · cases hloads
    · next h =>
      rw [if_neg h]
      exact .refl _
  case tick => exact p.machine.rests_tick
  case press key => exact p.machine.rests_press key
  case release key => exact p.machine.rests_release key
  case setSpeed speed => exact p.machine.rests_setSpeed speed.toNat
  case speedUp | speedDown => exact p.machine.rests_setSpeed _
  all_goals cases hruns

theorem paused_of_loads {p : Pacer} {call : Call} (h : (p.exchange call).loads = true) :
    (p.perform call).2.machine.paused = false := by
  cases call
  case load rom =>
    unfold exchange at h
    rw [perform_load] at h ⊢
    split at h
    · next hle =>
      rw [if_pos hle]
      rfl
    · cases h
  all_goals cases h

theorem faults_exchange (p : Pacer) (call : Call) :
    (p.exchange call).faults = true ↔
      call.runs = true ∧ ∃ fault, (p.perform call).1 = .error fault := by
  unfold exchange Exchange.faults
  cases h : (p.perform call).1 <;> simp

/-- A call ends the pause if it loads a program, and begins one if it meets a fault. -/
theorem paused_perform (p : Pacer) (call : Call) :
    (p.perform call).2.machine.paused = true ↔
      (p.exchange call).loads = false ∧
        (p.machine.paused = true ∨ (p.exchange call).faults = true) := by
  cases hl : (p.exchange call).loads with
  | true => simp [paused_of_loads hl]
  | false =>
    rw [faults_exchange]
    cases hr : call.runs with
    | true => simp [paused_perform_of_runs hr]
    | false => simp [(rests_perform hr hl).paused]

theorem reply_of_paused {p : Pacer} {call : Call} (hp : p.machine.paused = true)
    (hruns : call.runs = true) : (p.perform call).1 = .ok (some .paused) := by
  cases call
  case step => exact congrArg (·.1.map some) (Machine.step_of_paused hp)
  case cycle | runFrame => exact congrArg (·.1.map some) (Machine.cycle_of_paused hp)
  case update dt =>
    have hd := drain_of_paused (p := { p with owed := p.owed + dt }) hp maxFrames
    show (p.update dt).1.map some = _
    rw [update, if_pos hp, hd.1]
    rfl
  all_goals cases hruns

theorem rests_of_paused {p : Pacer} {call : Call} (hp : p.machine.paused = true)
    (hloads : (p.exchange call).loads = false) : p.machine.Rests (p.perform call).2.machine := by
  cases hr : call.runs with
  | false => exact rests_perform hr hloads
  | true =>
    cases call
    case step =>
      show p.machine.Rests p.machine.step.2
      rw [Machine.step_of_paused hp]
      exact .refl _
    case cycle | runFrame =>
      show p.machine.Rests p.machine.cycle.2
      rw [Machine.cycle_of_paused hp]
      exact p.machine.rests_countFrame
    case update dt =>
      have hd := drain_of_paused (p := { p with owed := p.owed + dt }) hp maxFrames
      show p.machine.Rests (p.update dt).2.machine
      rw [update, if_pos hp]
      exact hd.2
    all_goals cases hr

/-- The only fault of a call that does not run the machine. -/
theorem tooLarge_of_not_runs {p : Pacer} {call : Call} {fault : Fault} (hruns : call.runs = false)
    (h : (p.perform call).1 = .error fault) :
    ∃ rom, call = .load rom ∧ 3584 < rom.length ∧ fault = .romTooLarge rom.length 3584 := by
  cases call
  case load rom =>
    rw [perform_load] at h
    split at h
    · cases h
    · next hle =>
      cases h
      exact ⟨rom, rfl, Nat.lt_of_not_le hle, rfl⟩
  case tick | press | release | setSpeed | speedUp | speedDown => cases h
  all_goals cases hruns

/-! ## Histories -/

theorem paused_performAll {p : Pacer} (hp : p.machine.paused = false) (calls : List Call) :
    (p.performAll calls).machine.paused = true ↔
      ∃ e ∈ sinceLoad (p.exchanges calls), e.faults = true := by
  -- from the back, since it is the last load that counts
  induction calls using List.reverseRecOn with
  | nil => simp [performAll, exchanges, sinceLoad, hp]
  | append_singleton calls call ih =>
    rw [performAll_concat, exchanges_concat, sinceLoad_concat, paused_perform, ih]
    cases ((p.performAll calls).exchange call).loads with
    | true => simp
    | false => simp [or_and_right, exists_or]

theorem resting_exchange {p : Pacer} (hp : p.machine.paused = true) (call : Call) :
    (p.exchange call).Resting := by
  refine ⟨reply_of_paused hp, fun fault h => ?_⟩
  cases hr : call.runs with
  | false => exact tooLarge_of_not_runs hr h
  | true =>
    have hreply : (p.perform call).1 = .error fault := h
    rw [reply_of_paused hp hr] at hreply
    cases hreply

theorem resting_performAll {p : Pacer} (hp : p.machine.paused = true) (calls : List Call)
    (hloads : ∀ e ∈ p.exchanges calls, e.loads = false) :
    (∀ e ∈ p.exchanges calls, e.Resting) ∧
      p.machine.Rests (p.performAll calls).machine := by
  induction calls generalizing p with
  | nil => exact ⟨fun e he => (List.not_mem_nil he).elim, .refl _⟩
  | cons call calls ih =>
    rw [exchanges, List.forall_mem_cons] at hloads ⊢
    have hrests := rests_of_paused hp hloads.1
    obtain ⟨hexchanges, hmachine⟩ := ih (hrests.paused.trans hp) hloads.2
    exact ⟨⟨resting_exchange hp call, hexchanges⟩, hrests.trans hmachine⟩

/-- The first fault ends what can go wrong until a program is loaded. -/
theorem countP_faults_le_one (p : Pacer) (calls : List Call)
    (hloads : ∀ e ∈ p.exchanges calls, e.loads = false) :
    (p.exchanges calls).countP Exchange.faults ≤ 1 := by
  induction calls generalizing p with
  | nil => exact Nat.zero_le 1
  | cons call calls ih =>
    rw [exchanges, List.forall_mem_cons] at hloads
    rw [exchanges, List.countP_cons]
    cases hf : (p.exchange call).faults with
    | false => exact ih _ hloads.2
    | true =>
      -- from here on the machine is paused, and no exchange with it is a fault
      have hp : (p.perform call).2.machine.paused = true :=
        (paused_perform p call).mpr ⟨hloads.1, .inr hf⟩
      have hnone : (exchanges (p.perform call).2 calls).countP Exchange.faults = 0 := by
        rw [List.countP_eq_zero]
        intro e he
        rw [((resting_performAll hp calls hloads.2).1 e he).not_faults]
        exact Bool.false_ne_true
      rw [hnone]
      rfl

/-- A machine is paused exactly if it met a fault since it started or last loaded a program. From
then on it rests until one is loaded: a call that runs it is answered `paused`, nothing is refused
but a program that is too large, and the machine only lets its timers run down. So no stretch of a
history holds two faults, unless a program is loaded in it. -/
theorem pause_law :
    (∀ (seed : UInt64) (calls : List Call),
      ((ofSeed seed).performAll calls).machine.paused = true ↔
        ∃ e ∈ sinceLoad ((ofSeed seed).exchanges calls), e.faults = true) ∧
    (∀ (p : Pacer) (calls : List Call), p.machine.paused = true →
      (∀ e ∈ p.exchanges calls, e.loads = false) →
        (∀ e ∈ p.exchanges calls, e.Resting) ∧
          p.machine.Rests (p.performAll calls).machine) ∧
    (∀ (p : Pacer) (calls : List Call) (stretch : List Exchange),
      stretch <:+: p.exchanges calls → (∀ e ∈ stretch, e.loads = false) →
        stretch.countP Exchange.faults ≤ 1) := by
  refine ⟨fun seed calls => paused_performAll rfl calls,
    fun p calls hp hloads => resting_performAll hp calls hloads, ?_⟩
  rintro p calls stretch ⟨before, behind, h⟩ hloads
  obtain ⟨head, _, _, hhead, _⟩ := exists_of_exchanges_eq_append h.symm
  obtain ⟨first, second, _, _, rfl⟩ := exists_of_exchanges_eq_append hhead
  exact countP_faults_le_one _ second hloads

/-- A return without a call, and then time, a program of a byte too many, a frame. -/
theorem pause_law_underflow :
    let p := (ofSeed 0).performAll [.load [0x00, 0xEE]]
    let next := (p.perform .step).2
    let calls : List Call := [.tick, .update 1, .load (List.replicate 3585 0), .cycle]
    next.machine.paused = true ∧ next.machine.Rests (next.performAll calls).machine ∧
      (p.exchanges (.step :: calls)).countP Exchange.faults ≤ 1 := by
  intro p next calls
  have hp : next.machine.paused = true := by decide +kernel
  have hloads : ∀ e ∈ p.exchanges (.step :: calls), e.loads = false := by decide +kernel
  have hnext : ∀ e ∈ next.exchanges calls, e.loads = false :=
    (List.forall_mem_cons.mp hloads).2
  exact ⟨hp, (pause_law.2.1 next calls hp hnext).2,
    pause_law.2.2 p (.step :: calls) _ List.infix_rfl hloads⟩

end Pacer

end Chip8
