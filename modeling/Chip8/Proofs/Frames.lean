import Chip8.Proofs.Pausing

/-!
# Frames in a row

A machine that is left to itself runs its frames one after the other (`Machine.afterFrames`). They
are sound as long as none of them meets a fault (`Machine.Sound`), and the first one that does is
`Machine.FirstFault`; what frames after frames are, is told from what each of the two parts is
(`afterFrames_add`, `Sound.add`, `FirstFault.add`). Sound frames do not pause a machine, so the
answer of a frame is `paused` only if the machine was paused from the start (`cycle_answer`).
-/

namespace Chip8

namespace Machine

/-- The machine after `n` frames. -/
def afterFrames (m : Machine) : Nat → Machine
  | 0 => m
  | n + 1 => (m.afterFrames n).cycle.2

/-- What is answered after `n` frames: the answer of the last one, or `start` before the first. -/
def answerAfter (m : Machine) (start : Outcome) : Nat → Answer
  | 0 => .ok start
  | n + 1 => (m.afterFrames n).cycle.1

/-- None of the first `n` frames meets a fault. -/
def Sound (m : Machine) (n : Nat) : Prop :=
  ∀ i < n, ∃ outcome, (m.afterFrames i).cycle.1 = .ok outcome

/-- Frame `i`, counted from zero, is the first one that meets a fault. -/
structure FirstFault (m : Machine) (i : Nat) (fault : Fault) : Prop where
  before : m.Sound i
  answer : (m.afterFrames i).cycle.1 = .error fault

variable {m : Machine} {n k i j : Nat} {fault : Fault}

/-! ## Sound frames and the first fault -/

theorem Sound.mono (h : m.Sound n) (hk : k ≤ n) : m.Sound k :=
  fun i hi => h i (Nat.lt_of_lt_of_le hi hk)

theorem Sound.answerAfter (h : m.Sound n) (start : Outcome) :
    ∃ outcome, m.answerAfter start n = .ok outcome := by
  cases n with
  | zero => exact ⟨start, rfl⟩
  | succ n => exact h n (Nat.lt_succ_self n)

theorem sound_or_firstFault (m : Machine) (n : Nat) :
    m.Sound n ∨ ∃ i < n, ∃ fault, m.FirstFault i fault := by
  induction n with
  | zero => exact .inl fun i hi => absurd hi (Nat.not_lt_zero i)
  | succ n ih =>
    rcases ih with hsound | ⟨i, hi, h⟩
    · cases hc : (m.afterFrames n).cycle.1 with
      | error fault => exact .inr ⟨n, Nat.lt_succ_self n, fault, hsound, hc⟩
      | ok outcome =>
        refine .inl fun i hi => ?_
        rcases Nat.lt_succ_iff_lt_or_eq.mp hi with hlt | rfl
        · exact hsound i hlt
        · exact ⟨outcome, hc⟩
    · exact .inr ⟨i, Nat.lt_succ_of_lt hi, h⟩

theorem FirstFault.not_sound (h : m.FirstFault i fault) (hi : i < n) : ¬ m.Sound n := by
  intro hsound
  obtain ⟨outcome, hok⟩ := hsound i hi
  cases hok.symm.trans h.answer

theorem FirstFault.unique {other : Fault} (h : m.FirstFault i fault) (h' : m.FirstFault j other) :
    i = j ∧ fault = other := by
  rcases Nat.lt_trichotomy i j with hlt | rfl | hgt
  · exact absurd h'.before (h.not_sound hlt)
  · exact ⟨rfl, Except.error.inj (h.answer.symm.trans h'.answer)⟩
  · exact absurd h.before (h'.not_sound hgt)

/-! ## Frames after frames -/

theorem afterFrames_add (m : Machine) (n k : Nat) :
    m.afterFrames (n + k) = (m.afterFrames n).afterFrames k := by
  induction k with
  | zero => rfl
  | succ k ih => exact congrArg (fun m => m.cycle.2) ih

theorem afterFrames_cycle (m : Machine) (n : Nat) :
    m.cycle.2.afterFrames n = m.afterFrames (n + 1) := by
  rw [Nat.add_comm, afterFrames_add]
  rfl

theorem sound_succ_iff :
    m.Sound (n + 1) ↔ (∃ outcome, m.cycle.1 = .ok outcome) ∧ m.cycle.2.Sound n := by
  simp only [Sound, Nat.forall_lt_succ_left, afterFrames_cycle]
  rfl

theorem Sound.add (h : m.Sound n) (h' : (m.afterFrames n).Sound k) : m.Sound (n + k) := by
  intro i hi
  rcases Nat.lt_or_ge i n with hlt | hge
  · exact h i hlt
  · obtain ⟨j, rfl⟩ := Nat.exists_eq_add_of_le hge
    rw [afterFrames_add]
    exact h' j (Nat.lt_of_add_lt_add_left hi)

theorem FirstFault.add (h : m.Sound n) (h' : (m.afterFrames n).FirstFault i fault) :
    m.FirstFault (n + i) fault where
  before := h.add h'.before
  answer := by
    rw [afterFrames_add]
    exact h'.answer

/-! ## Pause and answers -/

/-- Sound frames do not pause a machine. -/
theorem Sound.paused (h : m.Sound n) (hp : m.paused = false) :
    (m.afterFrames n).paused = false := by
  induction n with
  | zero => exact hp
  | succ n ih =>
    obtain ⟨outcome, hok⟩ := h n (Nat.lt_succ_self n)
    rw [Bool.eq_false_iff]
    intro hnext
    rcases (paused_cycle _).mp hnext with hbefore | ⟨fault, hfault⟩
    · rw [ih (h.mono (Nat.le_succ n))] at hbefore
      cases hbefore
    · cases hok.symm.trans hfault

theorem outcomeOf_cases (m : Machine) (i : Instruction) :
    m.outcomeOf i = .ran ∨ m.outcomeOf i = .waiting := by
  cases i
  case waitKey x =>
    show (if m.keypad.pending = none then Outcome.waiting else .ran) = _ ∨ _
    by_cases h : m.keypad.pending = none
    · exact .inr (if_pos h)
    · exact .inl (if_neg h)
  all_goals exact .inl rfl

theorem cycle_answer (m : Machine) :
    (m.paused = true ∧ m.cycle.1 = .ok .paused) ∨ (∃ fault, m.cycle.1 = .error fault) ∨
      m.cycle.1 = .ok .ran ∨ m.cycle.1 = .ok .waiting := by
  rw [← m.rests_countFrame.paused, cycle]
  rcases step_cases m.countFrame with ⟨hp, hs⟩ | ⟨_, fault, _, hs⟩ | ⟨_, word, _, _, hs⟩
  · exact .inl ⟨hp, congrArg Prod.fst hs⟩
  · exact .inr (.inl ⟨fault, congrArg Prod.fst hs⟩)
  · rw [hs]
    exact .inr (.inr ((outcomeOf_cases _ _).imp (congrArg _) (congrArg _)))

theorem cycle_ne_idle (m : Machine) : m.cycle.1 ≠ .ok .idle := by
  rcases m.cycle_answer with ⟨_, h⟩ | ⟨fault, h⟩ | h | h
  all_goals
    rw [h]
    rintro ⟨⟩

theorem cycle_ne_paused (hp : m.paused = false) : m.cycle.1 ≠ .ok .paused := by
  rcases m.cycle_answer with ⟨hq, _⟩ | ⟨fault, h⟩ | h | h
  · rw [hp] at hq
    cases hq
  all_goals
    rw [h]
    rintro ⟨⟩

end Machine

end Chip8
