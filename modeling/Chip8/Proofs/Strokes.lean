import Chip8.Proofs.TwoRuns

/-!
# Strokes

A stroke is a press or a release of a key. A program learns of strokes through three instructions:
`Ex9E` and `ExA1` ask for one key, and `Fx0A` for the pending press. As long as none of them is
carried out, it makes no difference which keys are struck and when (`pairing_strokes`).

Nor does it matter whether a stroke comes right before a frame or right after it, unless the
instruction of the frame asks for what the stroke changes (`cycle_stroke`).
-/

namespace Chip8

/-- A call that is no stroke. -/
def Call.unlessStroke : Call → Option Call
  | .press _ | .release _ => none
  | call => some call

theorem Call.eq_of_unlessStroke {call other : Call} (h : call.unlessStroke = some other) :
    call = other := by
  cases call
  case press | release => cases h
  all_goals exact Option.some.inj h

namespace Machine

/-! ## Strokes of a keypad -/

def mapKeypad (f : Keypad → Keypad) (m : Machine) : Machine := { m with keypad := f m.keypad }

/-- What is done to a machine is done to its keypad, and changes for no other key than `key` whether
it is held. -/
def IsStroke (key : Nat) (g : Machine → Machine) : Prop :=
  ∃ f : Keypad → Keypad, g = mapKeypad f ∧ ∀ k other, other ≠ key → (f k).isHeld other = k.isHeld other

/-- What is done to one key is a stroke of it, and nothing is done to a number that is no key. -/
theorem isStroke_of_key {key : Nat} {f : Nibble → Keypad → Keypad}
    (hf : ∀ k pad other, k.val ≠ other → (f k pad).isHeld other = pad.isHeld other) :
    IsStroke key fun m => match Nibble.ofNat? key with
      | some k => m.mapKeypad (f k)
      | none => m := by
  cases hk : Nibble.ofNat? key with
  | none => exact ⟨id, rfl, fun _ _ _ => rfl⟩
  | some k =>
    refine ⟨f k, rfl, fun pad other hne => hf k pad other ?_⟩
    rw [Nibble.ofNat?_eq_some_iff.mp hk]
    exact hne.symm

theorem isStroke_press (key : UInt8) : IsStroke key.toNat (·.press key) := by
  refine isStroke_of_key (f := fun k pad => pad.press k) fun k pad other hne => ?_
  rw [Keypad.isHeld_press, decide_eq_false hne, Bool.or_false]

theorem isStroke_release (key : UInt8) : IsStroke key.toNat (·.release key) := by
  refine isStroke_of_key (f := fun k pad => pad.release k) fun k pad other hne => ?_
  rw [Keypad.isHeld_release, decide_eq_true hne, Bool.and_true]

theorem countFrame_mapKeypad (f : Keypad → Keypad) (m : Machine) :
    (m.mapKeypad f).countFrame = m.countFrame.mapKeypad f := by
  by_cases h : m.speed ≤ m.sinceTick + 1
  · have hdue : (m.mapKeypad f).speed ≤ (m.mapKeypad f).sinceTick + 1 := h
    rw [countFrame, countFrame, if_pos h, if_pos hdue]
    rfl
  · have hdue : ¬ (m.mapKeypad f).speed ≤ (m.mapKeypad f).sinceTick + 1 := h
    rw [countFrame, countFrame, if_neg h, if_neg hdue]
    rfl

/-! ## Machines with different keypads -/

/-- `n` is `m` but for the keypad. -/
def SameButKeypad (m n : Machine) : Prop := ∃ keypad, n = { m with keypad := keypad }

/-- The instructions that let a program see the keypad. -/
def ReadsKeypad (i : Instruction) : Prop :=
  ∃ x, i = .skipHeld x ∨ i = .skipNotHeld x ∨ i = .waitKey x

namespace SameButKeypad

variable {m n r : Machine}

theorem symm (h : SameButKeypad m n) : SameButKeypad n m := by
  obtain ⟨keypad, rfl⟩ := h
  exact ⟨m.keypad, rfl⟩

theorem trans (h : SameButKeypad m n) (h' : SameButKeypad n r) : SameButKeypad m r := by
  obtain ⟨_, rfl⟩ := h
  obtain ⟨keypad, rfl⟩ := h'
  exact ⟨keypad, rfl⟩

theorem refl (m : Machine) : SameButKeypad m m := ⟨m.keypad, rfl⟩

end SameButKeypad

namespace IsStroke

variable {key : Nat} {g : Machine → Machine}

theorem same (hg : IsStroke key g) (m : Machine) : SameButKeypad m (g m) := by
  obtain ⟨f, rfl, _⟩ := hg
  exact ⟨f m.keypad, rfl⟩

theorem congr (hg : IsStroke key g) {m n : Machine} (h : SameButKeypad m n) :
    SameButKeypad (g m) (g n) :=
  ((hg.same m).symm.trans h).trans (hg.same n)

end IsStroke

theorem likenessUnless_keypad : LikenessUnless ReadsKeypad SameButKeypad where
  paused := by rintro m _ ⟨keypad, rfl⟩; rfl
  step := by
    rintro m _ ⟨keypad, rfl⟩ hquiet
    refine step_congr ⟨keypad, rfl⟩ rfl rfl ?_ ⟨keypad, rfl⟩ fun i hi => ?_
    · intro i
      cases i <;> rfl
    · have hblind := hquiet i hi
      cases i
      case skipHeld x => exact absurd ⟨x, .inl rfl⟩ hblind
      case skipNotHeld x => exact absurd ⟨x, .inr (.inl rfl)⟩ hblind
      case waitKey x => exact absurd ⟨x, .inr (.inr rfl)⟩ hblind
      all_goals exact ⟨rfl, keypad, rfl⟩
  countFrame := by
    rintro m _ ⟨keypad, rfl⟩
    exact ⟨keypad, countFrame_mapKeypad (fun _ => keypad) m⟩
  boot := by rintro m _ ⟨keypad, rfl⟩ rom; exact .refl _
  tick := by rintro m _ ⟨keypad, rfl⟩; exact ⟨keypad, rfl⟩
  press := fun h key => (isStroke_press key).congr h
  release := fun h key => (isStroke_release key).congr h
  setSpeed := by rintro m _ ⟨keypad, rfl⟩ speed; exact ⟨keypad, rfl⟩
  speedUp := by rintro m _ ⟨keypad, rfl⟩; exact ⟨keypad, rfl⟩
  speedDown := by rintro m _ ⟨keypad, rfl⟩; exact ⟨keypad, rfl⟩

/-! ## Strokes before and after a frame -/

/-- The instruction asks for the pending press, or whether the key is held. -/
inductive AsksFor (m : Machine) (key : Nat) : Instruction → Prop where
  | pending (x : Nibble) : AsksFor m key (.waitKey x)
  | held (x : Nibble) (h : m.regs[x].toNat = key) : AsksFor m key (.skipHeld x)
  | notHeld (x : Nibble) (h : m.regs[x].toNat = key) : AsksFor m key (.skipNotHeld x)

/-- An instruction that asks for something else does not notice a stroke. -/
theorem after_mapKeypad {m : Machine} {f : Keypad → Keypad} {key : Nat} {i : Instruction}
    (hf : ∀ k other, other ≠ key → (f k).isHeld other = k.isHeld other) (hi : ¬ m.AsksFor key i) :
    (m.mapKeypad f).outcomeOf i = m.outcomeOf i ∧ (m.mapKeypad f).after i = (m.after i).mapKeypad f := by
  cases i
  case waitKey x => exact absurd (.pending x) hi
  case skipHeld x =>
    have hheld : (f m.keypad).isHeld m.regs[x].toNat = m.keypad.isHeld m.regs[x].toNat :=
      hf _ _ fun h => hi (.held x h)
    refine ⟨rfl, ?_⟩
    show { m with keypad := f m.keypad, pc := m.pcPast ((f m.keypad).isHeld m.regs[x].toNat) } = _
    rw [hheld]
    rfl
  case skipNotHeld x =>
    have hheld : (f m.keypad).isHeld m.regs[x].toNat = m.keypad.isHeld m.regs[x].toNat :=
      hf _ _ fun h => hi (.notHeld x h)
    refine ⟨rfl, ?_⟩
    show { m with keypad := f m.keypad, pc := m.pcPast (!(f m.keypad).isHeld m.regs[x].toNat) } = _
    rw [hheld]
    rfl
  all_goals exact ⟨rfl, rfl⟩

theorem step_stroke {m : Machine} {key : Nat} {g : Machine → Machine} (hg : IsStroke key g)
    (hquiet : ∀ i, m.carried? = some i → ¬ m.AsksFor key i) :
    (g m).step = (m.step.1, g m.step.2) := by
  obtain ⟨f, rfl, hf⟩ := hg
  obtain ⟨hanswer, hnext⟩ := step_congr (R := fun m n => n = m.mapKeypad f) (m := m) rfl rfl rfl
    (fun i => by cases i <;> rfl) rfl fun i hi => after_mapKeypad hf (hquiet i hi)
  exact Prod.ext hanswer hnext

theorem asksFor_congr {m n : Machine} {key : Nat} {i : Instruction} (hregs : n.regs = m.regs)
    (h : n.AsksFor key i) : m.AsksFor key i := by
  cases h with
  | pending x => exact .pending x
  | held x h => exact .held x (hregs ▸ h)
  | notHeld x h => exact .notHeld x (hregs ▸ h)

/-- A stroke may come before a frame or after it. -/
theorem cycle_stroke {m : Machine} {key : Nat} {g : Machine → Machine} (hg : IsStroke key g)
    (hquiet : ∀ i, Moment.instruction? ⟨m, .frame⟩ = some i → ¬ m.AsksFor key i) :
    (g m).cycle = (m.cycle.1, g m.cycle.2) := by
  have hcount : (g m).countFrame = g m.countFrame := by
    obtain ⟨f, rfl, _⟩ := hg
    exact countFrame_mapKeypad f m
  show (g m).countFrame.step = _
  rw [hcount]
  apply step_stroke hg
  intro i hi hasks
  exact hquiet i hi (asksFor_congr m.rests_countFrame.regs hasks)

end Machine

/-! ## Histories of calls -/

namespace Pacer

open Machine (SameButKeypad ReadsKeypad)

theorem alike_of_stroke {call : Call} (h : call.unlessStroke = none) (p : Pacer) :
    Alike SameButKeypad p (p.perform call).2 := by
  cases call
  case press key => exact ⟨(Machine.isStroke_press key).same p.machine, rfl⟩
  case release key => exact ⟨(Machine.isStroke_release key).same p.machine, rfl⟩
  all_goals cases h

theorem pairing_strokes : Pairing ReadsKeypad SameButKeypad Call.unlessStroke where
  left h hnone :=
    have hstroke := alike_of_stroke hnone _
    ⟨hstroke.machine.symm.trans h.machine, h.owed.trans hstroke.owed.symm⟩
  right h hnone :=
    have hstroke := alike_of_stroke hnone _
    ⟨h.machine.trans hstroke.machine, hstroke.owed.trans h.owed⟩
  both := by
    intro p q call call' other h hcall hcall' hquiet
    rw [Call.eq_of_unlessStroke hcall', ← Call.eq_of_unlessStroke hcall]
    exact Machine.likenessUnless_keypad.perform h call hquiet

/-- Strokes reach a program only through `Ex9E`, `ExA1` and `Fx0A`. Two pacers that differ in their
keypads are given calls that are the same but for the strokes. If the first history carries out none
of the three, calls that belong together get the same reply, and wherever the histories are cut
between the same calls the machines differ in nothing else. And a frame may change places with a
stroke, whatever comes of the frame, unless its instruction waits for a press or asks whether the
very key is held. -/
theorem stroke_law :
    (∀ (p q : Pacer) (calls calls' : List Call), Alike SameButKeypad p q →
      calls'.filterMap Call.unlessStroke = calls.filterMap Call.unlessStroke →
      (∀ e ∈ p.moments calls, ∀ x, e.instruction? ≠ some (.skipHeld x) ∧
        e.instruction? ≠ some (.skipNotHeld x) ∧ e.instruction? ≠ some (.waitKey x)) →
        List.Forall₂ (Stage.Matches SameButKeypad)
          (Stage.asking Call.unlessStroke (p.stages calls))
          (Stage.asking Call.unlessStroke (q.stages calls')) ∧
        ∀ before before', before <+: calls → before' <+: calls' →
          before'.filterMap Call.unlessStroke = before.filterMap Call.unlessStroke →
            Alike SameButKeypad (p.performAll before) (q.performAll before')) ∧
    (∀ (p : Pacer) (key : UInt8),
      (∀ i, Moment.instruction? ⟨p.machine, .frame⟩ = some i → ¬ p.machine.AsksFor key.toNat i) →
      ∀ stroke ∈ [Call.press key, .release key],
        (p.perform stroke).2.perform .cycle =
          ((p.perform .cycle).1, ((p.perform .cycle).2.perform stroke).2)) := by
  refine ⟨fun p q calls calls' h hcalls hreads => ?_, fun p key hquiet stroke hstroke => ?_⟩
  · have hquiet : ∀ e ∈ p.moments calls, e.Quiet ReadsKeypad := by
      rintro e he i hi ⟨x, rfl | rfl | rfl⟩
      · exact (hreads e he x).1 hi
      · exact (hreads e he x).2.1 hi
      · exact (hreads e he x).2.2 hi
    refine ⟨(pairing_strokes.stages h hcalls hquiet).1, ?_⟩
    rintro before before' ⟨behind, rfl⟩ _ hbefore
    rw [moments_append, List.forall_mem_append] at hquiet
    exact (pairing_strokes.stages h hbefore hquiet.1).2
  · have hswap : ∀ {g : Machine → Machine}, Machine.IsStroke key.toNat g →
        (p.mapMachine g).answered (g p.machine).cycle =
          ((p.perform .cycle).1, (p.perform .cycle).2.mapMachine g) := by
      intro g hg
      rw [Machine.cycle_stroke hg hquiet]
      rfl
    rw [List.mem_cons, List.mem_singleton] at hstroke
    rcases hstroke with rfl | rfl
    · exact hswap (Machine.isStroke_press key)
    · exact hswap (Machine.isStroke_release key)

/-- Key 5 is held or not, and other keys are struck while V0 is set, added to and a return finds no
call. A poll of key 0 changes places with a press of key 3, and so does the fault of the return. -/
theorem stroke_law_unread :
    let rom : List UInt8 := [0x60, 0x05, 0x70, 0x01, 0x00, 0xEE]
    let p := (ofSeed 0).performAll [.load rom, .press 5]
    let q := (ofSeed 0).performAll [.load rom]
    let calls : List Call := [.cycle, .press 1, .runFrame, .release 5, .step, .cycle]
    let calls' : List Call := [.press 9, .cycle, .runFrame, .press 16, .release 9, .step, .cycle]
    let poll := (ofSeed 0).performAll [.load [0xE0, 0x9E], .press 7]
    let fault := p.performAll [.step, .step]
    p.machine.keypad ≠ q.machine.keypad ∧
      List.Forall₂ (Stage.Matches SameButKeypad) (Stage.asking Call.unlessStroke (p.stages calls))
        (Stage.asking Call.unlessStroke (q.stages calls')) ∧
      Alike SameButKeypad (p.performAll calls) (q.performAll calls') ∧
      ((poll.perform (.press 3)).2.perform .cycle).2 =
        ((poll.perform .cycle).2.perform (.press 3)).2 ∧
      (fault.perform (.press 3)).2.perform .cycle =
        (.error .stackUnderflow, ((fault.perform .cycle).2.perform (.press 3)).2) := by
  intro rom p q calls calls' poll fault
  obtain ⟨hkeypad, hreads, hpoll, hreg, hfault, herror⟩ :
      p.machine.keypad ≠ q.machine.keypad ∧
      (∀ e ∈ p.moments calls, ∀ x, e.instruction? ≠ some (.skipHeld x) ∧
        e.instruction? ≠ some (.skipNotHeld x) ∧ e.instruction? ≠ some (.waitKey x)) ∧
      Moment.instruction? ⟨poll.machine, .frame⟩ = some (.skipHeld 0) ∧
      poll.machine.regs[(0 : Nibble)].toNat ≠ (3 : UInt8).toNat ∧
      Moment.instruction? ⟨fault.machine, .frame⟩ = none ∧
      (fault.perform .cycle).1 = .error .stackUnderflow := by decide +kernel
  have halike : Alike SameButKeypad p q := by
    have hq : Alike SameButKeypad q (q.perform (.press 5)).2 := alike_of_stroke rfl q
    exact ⟨hq.machine.symm, hq.owed.symm⟩
  have hcalls : calls'.filterMap Call.unlessStroke = calls.filterMap Call.unlessStroke := rfl
  obtain ⟨hstages, hcuts⟩ := stroke_law.1 p q calls calls' halike hcalls hreads
  refine ⟨hkeypad, hstages, hcuts calls calls' List.prefix_rfl List.prefix_rfl hcalls, ?_, ?_⟩
  · have hother : ∀ i, Moment.instruction? ⟨poll.machine, .frame⟩ = some i →
        ¬ poll.machine.AsksFor (3 : UInt8).toNat i := by
      intro i hi hasks
      obtain rfl := Option.some.inj (hpoll.symm.trans hi)
      cases hasks with
      | held _ h => exact hreg h
    rw [stroke_law.2 poll 3 hother (.press 3) List.mem_cons_self]
  · have hnone : ∀ i, Moment.instruction? ⟨fault.machine, .frame⟩ = some i →
        ¬ fault.machine.AsksFor (3 : UInt8).toNat i := by
      intro i hi
      rw [hfault] at hi
      cases hi
    rw [stroke_law.2 fault 3 hnone (.press 3) List.mem_cons_self, herror]

end Pacer

end Chip8
