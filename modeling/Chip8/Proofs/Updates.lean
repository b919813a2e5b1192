import Mathlib.Data.ENat.Lattice
import Chip8.Proofs.Frames
import Chip8.Proofs.Rounding

/-!
# Updates

An update of a pacer runs frames as long as one is owed, eight at most, and stops at the first
fault. So it comes down to a number of frames, and that number is told by the times owed before
each of them (`framesOwed`): nothing is known of these times but how they are made, and they need
not come down at all.

* `drain_of_sound`: frames that are owed and meet no fault are run one after the other.
* `leads_update`: an update runs up to eight frames, none of them after a fault.
* `dropped?_eq_some_iff`: when an update drops time, and how much.
* `update_of_frameStep_le`: an update by a frame's length or more runs a frame.
* `update_law` says which frames are run, what is owed then, and what is answered.
-/

namespace Chip8

namespace Pacer

/-! ## The time owed -/

/-- The time that is owed after `n` frames of the time `owed`. -/
def owedAfter (owed : Float32) : Nat → Float32
  | 0 => owed
  | n + 1 => owedAfter owed n - frameStep

theorem owedAfter_sub (owed : Float32) (n : Nat) :
    owedAfter (owed - frameStep) n = owedAfter owed (n + 1) := by
  induction n with
  | zero => rfl
  | succ n ih => exact congrArg (· - frameStep) ih

/-- The least number of frames after which no frame is owed any more, infinite if there is none. -/
noncomputable def framesOwed (owed : Float32) : ℕ∞ :=
  ⨅ (n : ℕ) (_ : ¬ frameStep ≤ owedAfter owed n), (n : ℕ∞)

variable {owed : Float32} {n : ℕ}

theorem framesOwed_le (h : ¬ frameStep ≤ owedAfter owed n) : framesOwed owed ≤ n := iInf₂_le n h

theorem le_framesOwed (h : ∀ i < n, frameStep ≤ owedAfter owed i) : (n : ℕ∞) ≤ framesOwed owed :=
  le_iInf₂ fun i hi => Nat.cast_le.mpr (not_lt.mp fun hlt => hi (h i hlt))

theorem owed_of_lt (h : (n : ℕ∞) < framesOwed owed) : frameStep ≤ owedAfter owed n :=
  of_not_not fun hn => not_le.mpr h (framesOwed_le hn)

theorem not_owed_of_eq (h : framesOwed owed = n) : ¬ frameStep ≤ owedAfter owed n := by
  intro hn
  have hall : ∀ i < n + 1, frameStep ≤ owedAfter owed i := by
    intro i hi
    rcases Nat.lt_succ_iff_lt_or_eq.mp hi with hlt | rfl
    · exact owed_of_lt (h ▸ Nat.cast_lt.mpr hlt)
    · exact hn
  have hle := h ▸ le_framesOwed hall
  exact Nat.not_succ_le_self n (Nat.cast_le.mp hle)

/-- The number of frames that an update runs if none of them meets a fault. -/
noncomputable def framesDue (owed : Float32) : ℕ := (min (framesOwed owed) maxFrames).toNat

theorem framesDue_cases (owed : Float32) :
    (framesOwed owed ≤ maxFrames ∧ framesOwed owed = framesDue owed) ∨
    (maxFrames < framesOwed owed ∧ framesDue owed = maxFrames) := by
  unfold framesDue
  rcases le_or_gt (framesOwed owed) maxFrames with hle | hlt
  · refine .inl ⟨hle, ?_⟩
    rw [min_eq_left hle, ENat.natCast_toNat (ne_top_of_le_ne_top (ENat.natCast_ne_top _) hle)]
  · refine .inr ⟨hlt, ?_⟩
    rw [min_eq_right hlt.le, ENat.toNat_natCast]

theorem framesDue_le (owed : Float32) : framesDue owed ≤ maxFrames := by
  rcases framesDue_cases owed with ⟨hle, heq⟩ | ⟨_, heq⟩
  · exact Nat.cast_le.mp (heq ▸ hle)
  · exact heq.le

theorem owed_of_lt_framesDue {i : ℕ} (h : i < framesDue owed) :
    frameStep ≤ owedAfter owed i := by
  apply owed_of_lt
  rcases framesDue_cases owed with ⟨_, heq⟩ | ⟨hlt, heq⟩
  · exact heq ▸ Nat.cast_lt.mpr h
  · exact lt_trans (Nat.cast_lt.mpr (heq ▸ h)) hlt

/-! ## Draining -/

/-- The pacer after `n` frames that were owed. -/
def afterFrames (p : Pacer) (n : Nat) : Pacer where
  machine := p.machine.afterFrames n
  owed := owedAfter p.owed n
  frames := p.frames + n

/-- Frames that are owed and meet no fault are run one after the other. -/
theorem drain_of_sound {p : Pacer} {n : Nat} (howed : ∀ i < n, frameStep ≤ owedAfter p.owed i)
    (hsound : p.machine.Sound n) (budget : Nat) (last : Outcome) :
    ∃ outcome, p.machine.answerAfter last n = .ok outcome ∧
      drain (n + budget) last p = drain budget outcome (p.afterFrames n) := by
  induction n generalizing budget with
  | zero => exact ⟨last, rfl, by rw [Nat.zero_add]; rfl⟩
  | succ n ih =>
    obtain ⟨_, _, hdrain⟩ := ih (fun i hi => howed i (Nat.lt_succ_of_lt hi))
      (hsound.mono (Nat.le_succ n)) (budget + 1)
    obtain ⟨outcome, hok⟩ := hsound n (Nat.lt_succ_self n)
    refine ⟨outcome, hok, ?_⟩
    have howed' : frameStep ≤ (p.afterFrames n).owed := howed n (Nat.lt_succ_self n)
    rw [Nat.add_right_comm, Nat.add_assoc, hdrain, drain_of_ok howed' hok]
    rfl

/-- The first fault among the frames that are owed ends it, and what is owed then is kept. -/
theorem drain_of_firstFault {p : Pacer} {i : Nat} {fault : Fault}
    (howed : ∀ j ≤ i, frameStep ≤ owedAfter p.owed j) (hfault : p.machine.FirstFault i fault)
    (budget : Nat) (last : Outcome) :
    drain (i + (budget + 1)) last p = (.error fault, p.afterFrames (i + 1)) := by
  obtain ⟨outcome, _, hdrain⟩ :=
    drain_of_sound (fun j hj => howed j hj.le) hfault.before (budget + 1) last
  have howed' : frameStep ≤ (p.afterFrames i).owed := howed i le_rfl
  rw [hdrain, drain_of_error howed' hfault.answer]
  rfl

/-! ## Updates -/

/-- The answer of an update in which no frame is due. -/
def outset (p : Pacer) : Outcome := if p.machine.paused then .paused else .idle

/-- `r` comes of `p` by `n` frames, of which at most the last meets a fault. -/
structure Leads (p : Pacer) (n : Nat) (r : Answer × Pacer) : Prop where
  machine : r.2.machine = p.machine.afterFrames n
  frames : r.2.frames = p.frames + n
  answer : r.1 = p.machine.answerAfter p.outset n
  sound : p.machine.Sound (n - 1)

/-- The pacer with the time that went by added to what is owed. -/
def credit (p : Pacer) (dt : Float32) : Pacer := { p with owed := p.owed + dt }

theorem update_eq_drain (p : Pacer) (dt : Float32) :
    p.update dt = drain maxFrames p.outset (p.credit dt) := rfl

theorem update_of_sound {p : Pacer} {dt : Float32} {n : Nat} (hn : framesDue (p.owed + dt) = n)
    (h : p.machine.Sound n) :
    p.Leads n (p.update dt) ∧
      (framesOwed (p.owed + dt) ≤ maxFrames → (p.update dt).2.owed = owedAfter (p.owed + dt) n) ∧
      (maxFrames < framesOwed (p.owed + dt) → (p.update dt).2.owed = 0) := by
  have hle : n ≤ maxFrames := hn ▸ framesDue_le _
  have hbefore : p.machine.Sound (n - 1) := h.mono (Nat.sub_le n 1)
  obtain ⟨outcome, hanswer, hdrain⟩ := drain_of_sound (p := p.credit dt)
    (fun _ hi => owed_of_lt_framesDue (hn ▸ hi)) h (maxFrames - n) p.outset
  rw [Nat.add_sub_cancel' hle, ← update_eq_drain] at hdrain
  rcases framesDue_cases (p.owed + dt) with ⟨hfew, heq⟩ | ⟨hmany, heq⟩
  · have hnot : ¬ frameStep ≤ ((p.credit dt).afterFrames n).owed := not_owed_of_eq (hn ▸ heq)
    rw [hdrain, drain_of_not_due hnot]
    exact ⟨⟨rfl, rfl, hanswer.symm, hbefore⟩, fun _ => rfl,
      fun hmany => absurd hfew (not_le.mpr hmany)⟩
  · have hn' : n = maxFrames := hn.symm.trans heq
    have howed : frameStep ≤ ((p.credit dt).afterFrames n).owed := owed_of_lt (hn' ▸ hmany)
    rw [hdrain, Nat.sub_eq_zero_of_le hn'.ge, drain_of_no_budget howed]
    exact ⟨⟨rfl, rfl, hanswer.symm, hbefore⟩, fun hfew => absurd hfew (not_le.mpr hmany),
      fun _ => rfl⟩

theorem update_of_firstFault {p : Pacer} {dt : Float32} {i : Nat} {fault : Fault}
    (hi : i < framesDue (p.owed + dt)) (h : p.machine.FirstFault i fault) :
    p.update dt = (.error fault, (p.credit dt).afterFrames (i + 1)) := by
  have hle : i + 1 ≤ maxFrames := Nat.le_trans hi (framesDue_le _)
  have hdrain := drain_of_firstFault (p := p.credit dt)
    (fun _ hj => owed_of_lt_framesDue (Nat.lt_of_le_of_lt hj hi)) h (maxFrames - (i + 1)) p.outset
  rw [← Nat.add_assoc, Nat.add_right_comm, Nat.add_sub_cancel' hle] at hdrain
  exact hdrain

/-- An update runs up to eight frames, none of them after a fault. -/
theorem leads_update (p : Pacer) (dt : Float32) : ∃ n ≤ maxFrames, p.Leads n (p.update dt) := by
  rcases p.machine.sound_or_firstFault (framesDue (p.owed + dt)) with hsound | ⟨i, hi, fault, h⟩
  · exact ⟨_, framesDue_le _, (update_of_sound rfl hsound).1⟩
  · refine ⟨i + 1, Nat.le_trans hi (framesDue_le _), ?_⟩
    rw [update_of_firstFault hi h]
    exact ⟨rfl, rfl, h.answer.symm, h.before⟩

theorem leads_runFrame (p : Pacer) : p.Leads 1 p.runFrame :=
  ⟨rfl, rfl, rfl, fun _ hi => absurd hi (Nat.not_lt_zero _)⟩

theorem Leads.frames_of_idle {p : Pacer} {n : Nat} {r : Answer × Pacer} (h : p.Leads n r)
    (hidle : r.1 = .ok .idle) : n = 0 := by
  cases n with
  | zero => rfl
  | succ n => exact absurd (h.answer.symm.trans hidle) (Machine.cycle_ne_idle _)

theorem Leads.pos_of_ran {p : Pacer} {n : Nat} {r : Answer × Pacer} (h : p.Leads n r)
    (hran : r.1 = .ok .ran ∨ r.1 = .ok .waiting) : 0 < n := by
  cases n with
  | zero =>
    rw [h.answer, Machine.answerAfter, outset] at hran
    split at hran <;> simp at hran
  | succ n => exact Nat.succ_pos n

/-! ## Time that is dropped -/

/-- A backlog is left by sound frames that use up the budget, if another one is owed. -/
theorem backlog?_eq_some_iff {budget : Nat} {p : Pacer} {time : Float32} :
    backlog? budget p = some time ↔
      (∀ i < budget + 1, frameStep ≤ owedAfter p.owed i) ∧ p.machine.Sound budget ∧
        owedAfter p.owed budget = time := by
  induction budget generalizing p with
  | zero =>
    have hsound : p.machine.Sound 0 := fun i hi => absurd hi (Nat.not_lt_zero i)
    rw [backlog?, Nat.forall_lt_succ_left]
    simp [hsound, owedAfter]
  | succ budget ih =>
    rw [Nat.forall_lt_succ_left, Machine.sound_succ_iff, backlog?]
    by_cases hdue : frameStep ≤ p.owed
    · rw [if_pos hdue]
      cases hc : p.machine.cycle.1 with
      | error fault => simp [runFrame, hc]
      | ok outcome =>
        simp only [runFrame, hc, ih, owedAfter_sub]
        simp [hdue, owedAfter]
    · rw [if_neg hdue]
      simp [hdue, owedAfter]

/-- An update drops time if it runs eight frames, none of them with a fault, and another frame is
owed then; it drops all that is owed then. -/
theorem dropped?_eq_some_iff {p : Pacer} {dt time : Float32} :
    p.dropped? dt = some time ↔
      (8 : ℕ) < framesOwed (p.owed + dt) ∧ p.machine.Sound 8 ∧
        owedAfter (p.owed + dt) 8 = time := by
  have howed : (∀ i < 8 + 1, frameStep ≤ owedAfter (p.owed + dt) i) ↔
      (8 : ℕ) < framesOwed (p.owed + dt) := by
    constructor
    · intro h
      exact lt_of_lt_of_le (Nat.cast_lt.mpr (Nat.lt_succ_self 8)) (le_framesOwed h)
    · intro h i hi
      exact owed_of_lt (lt_of_le_of_lt (Nat.cast_le.mpr (Nat.lt_succ_iff.mp hi)) h)
  rw [← howed]
  exact backlog?_eq_some_iff

/-! ## Intervals of a frame's length -/

theorem frameStep_le_one : frameStep ≤ 1 := by decide +kernel

theorem nonneg_owed_drain {budget : Nat} {last : Outcome} {p : Pacer} (h : 0 ≤ p.owed) :
    0 ≤ (drain budget last p).2.owed := by
  induction budget generalizing last p with
  | zero =>
    by_cases hdue : frameStep ≤ p.owed
    · rw [drain_of_no_budget hdue]
      show (0 : Float32) ≤ 0
      decide +kernel
    · rw [drain_of_not_due hdue]
      exact h
  | succ budget ih =>
    by_cases hdue : frameStep ≤ p.owed
    · have hnext : 0 ≤ p.afterFrame.owed := Rounding.sub_nonneg Rounding.positive_frameStep hdue
      cases hc : p.machine.cycle.1 with
      | ok outcome =>
        rw [drain_of_ok hdue hc]
        exact ih hnext
      | error fault =>
        rw [drain_of_error hdue hc]
        exact hnext
    · rw [drain_of_not_due hdue]
      exact h

/-- An update by a frame's length or more runs a frame, and it never leaves a negative time owed. -/
theorem update_of_frameStep_le {p : Pacer} {dt : Float32} (hp : 0 ≤ p.owed)
    (hdt : frameStep ≤ dt) : 0 ≤ (p.update dt).2.owed ∧ p.frames < (p.update dt).2.frames := by
  have hdue : frameStep ≤ (p.credit dt).owed :=
    Rounding.le_add Rounding.positive_frameStep hp hdt
  refine ⟨nonneg_owed_drain (Rounding.nonneg_of_le Rounding.positive_frameStep hdue), ?_⟩
  show (p.credit dt).frames < (drain (7 + 1) p.outset (p.credit dt)).2.frames
  cases hc : (p.credit dt).machine.cycle.1 with
  | ok outcome =>
    obtain ⟨k, hk, _⟩ := drain_frames 7 outcome (p.credit dt).afterFrame
    rw [drain_of_ok hdue hc, hk]
    exact Nat.lt_add_right k (Nat.lt_succ_self _)
  | error fault =>
    rw [drain_of_error hdue hc]
    exact Nat.lt_succ_self _

/-- An update of any pacer by any time, rounded as it may be. If none of the frames that are due
meets a fault, all of them are run, the answer is that of the last one, and what is left of the
time is kept, unless a frame is still owed after eight of them: then nothing is owed any more. A
fault ends the update with the frame that meets it. So an update runs up to eight frames, leaves
less than a frame owed unless it met a fault, and tells by its answer whether it ran any. -/
theorem update_law (p : Pacer) (dt : Float32) :
    let start : Outcome := if p.machine.paused then .paused else .idle
    let owed := owedAfter (p.owed + dt)
    let m := framesOwed (p.owed + dt)
    let k := (min m (8 : ℕ)).toNat
    let r := p.update dt
    (p.machine.Sound k →
      (∃ outcome, r.1 = .ok outcome) ∧ r.1 = p.machine.answerAfter start k ∧
      r.2.machine = p.machine.afterFrames k ∧ r.2.frames = p.frames + k ∧
      (m ≤ (8 : ℕ) → m = k ∧ r.2.owed = owed k) ∧ ((8 : ℕ) < m → r.2.owed = 0)) ∧
    (∀ i < k, ∀ fault, p.machine.FirstFault i fault →
      r.1 = .error fault ∧ r.2.machine = p.machine.afterFrames (i + 1) ∧
      r.2.frames = p.frames + (i + 1) ∧ r.2.owed = owed (i + 1)) ∧
    r.2.frames ≤ p.frames + 8 ∧
    ((∃ outcome, r.1 = .ok outcome) → ¬ frameStep ≤ r.2.owed) ∧
    (r.1 = .ok .idle → r.2.frames = p.frames) ∧
    (r.1 = .ok .ran ∨ r.1 = .ok .waiting → p.frames < r.2.frames) := by
  intro start owed m k r
  have hk : framesDue (p.owed + dt) = k := rfl
  obtain ⟨n, hn, hleads⟩ := p.leads_update dt
  have hcases := framesDue_cases (p.owed + dt)
  refine ⟨fun hsound => ?_, fun i hi fault h => ?_, ?_, ?_, ?_, ?_⟩
  · obtain ⟨hleads, howed, hzero⟩ := update_of_sound hk hsound
    obtain ⟨outcome, hok⟩ := hsound.answerAfter p.outset
    refine ⟨⟨outcome, hleads.answer.trans hok⟩, hleads.answer, hleads.machine, hleads.frames,
      fun hle => ⟨?_, howed hle⟩, hzero⟩
    rcases hcases with ⟨_, heq⟩ | ⟨hlt, _⟩
    · exact heq
    · exact absurd hle (not_le.mpr hlt)
  · have hr : r = _ := update_of_firstFault hi h
    rw [hr]
    exact ⟨rfl, rfl, rfl, rfl⟩
  · rw [hleads.frames]
    exact Nat.add_le_add_left hn _
  · rintro ⟨outcome, hok⟩
    rcases p.machine.sound_or_firstFault k with hsound | ⟨i, hi, fault, h⟩
    · obtain ⟨_, howed, hzero⟩ := update_of_sound hk hsound
      rcases hcases with ⟨hle, heq⟩ | ⟨hlt, _⟩
      · rw [howed hle]
        exact not_owed_of_eq heq
      · rw [hzero hlt]
        decide +kernel
    · have hr : r = _ := update_of_firstFault hi h
      rw [hr] at hok
      cases hok
  · intro hidle
    rw [hleads.frames, hleads.frames_of_idle hidle]
    rfl
  · intro hran
    rw [hleads.frames]
    exact Nat.lt_add_of_pos_right (hleads.pos_of_ran hran)

/-- A second goes by at once: eight frames of a jump to itself are run and the rest is dropped, and
a return without a call stops in the first frame. -/
theorem update_law_stalled :
    let p := (ofSeed 0).performAll [.load [0x12, 0x00]]
    let q := (ofSeed 0).performAll [.load [0x00, 0xEE]]
    ((p.update 1).1 = .ok .ran ∧ (p.update 1).2.frames = 8 ∧ (p.update 1).2.owed = 0) ∧
      (q.update 1).1 = .error .stackUnderflow ∧ (q.update 1).2.frames = 1 ∧
      (q.update 1).2.owed = 0 + 1 - frameStep := by
  intro p q
  have howed : ∀ i < 9, frameStep ≤ owedAfter (0 + 1) i := by decide +kernel
  have hmany : (8 : ℕ) < framesOwed (0 + 1) :=
    lt_of_lt_of_le (Nat.cast_lt.mpr (by decide)) (le_framesOwed howed)
  have hk : ∀ {r : Pacer}, r.owed = 0 →
      (min (framesOwed (r.owed + 1)) (8 : ℕ)).toNat = 8 := by
    intro r hr
    rw [hr, min_eq_right hmany.le, ENat.toNat_natCast]
  have hran : ∀ i < 8, (p.machine.afterFrames i).cycle.1 = .ok .ran := by decide +kernel
  have hsound : p.machine.Sound (min (framesOwed (p.owed + 1)) (8 : ℕ)).toNat := by
    rw [hk rfl]
    exact fun i hi => ⟨.ran, hran i hi⟩
  have hfault : q.machine.FirstFault 0 .stackUnderflow :=
    ⟨fun _ hi => absurd hi (Nat.not_lt_zero _), by decide +kernel⟩
  have hfirst : 0 < (min (framesOwed (q.owed + 1)) (8 : ℕ)).toNat := by
    rw [hk rfl]
    decide
  obtain ⟨_, hanswer, _, hframes, _, hzero⟩ := (update_law p 1).1 hsound
  obtain ⟨hstop, _, hone, hrest⟩ := (update_law q 1).2.1 0 hfirst _ hfault
  rw [hk rfl] at hanswer hframes
  exact ⟨⟨hanswer.trans (hran 7 (by decide)), hframes, hzero hmany⟩, hstop, hone, hrest⟩

end Pacer

end Chip8
