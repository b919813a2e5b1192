import Chip8.Proofs.Bounds
import Chip8.Proofs.Traces

/-!
# The pace of the timers

A frame counts itself, and the timers tick if as many frames as the speed says were counted since
they last ticked. A tick starts the count anew and nothing else does, so the speed may be changed
at any time. The beats of a history are its frames, each with the speed in force and with whether
the timers ticked.

* `beats_eq_beatsFrom`: the beats are those of a schedule that knows nothing of the machine but the
  count at first and the speeds (`beatsFrom`, `countAfter`).
* `length_add_le`, `length_add_eq`: a tick uses up as many frames as the speed says at most, and
  exactly as many at an unchanging speed.
* `speed_of_consecutive`: from tick to tick there are as many frames as one of the speeds allows.
* `pacing_law` puts them together for the histories of a pacer.
-/

namespace Chip8

/-! ## Schedules -/

/-- A frame: the speed in force, and whether the timers ticked. -/
structure Beat where
  speed : Nat
  ticked : Bool
deriving DecidableEq, Repr

/-- The count of frames since the last tick after one more frame. -/
def nextCount (count speed : Nat) : Nat := if speed ≤ count + 1 then 0 else count + 1

/-- The count of frames since the last tick after frames at the given speeds. -/
def countAfter (count : Nat) (speeds : List Nat) : Nat := speeds.foldl nextCount count

/-- The frames at the given speeds, the first of which finds `count` frames since the last tick. -/
def beatsFrom : (count : Nat) → (speeds : List Nat) → List Beat
  | _, [] => []
  | count, speed :: speeds =>
    ⟨speed, decide (speed ≤ count + 1)⟩ :: beatsFrom (nextCount count speed) speeds

namespace Beat

variable {count top : Nat} {speeds : List Nat}

/-- The number of ticks. -/
def ticks (beats : List Beat) : Nat := beats.countP ticked

theorem ticks_le_length (beats : List Beat) : ticks beats ≤ beats.length := List.countP_le_length

theorem nextCount_of_due {speed : Nat} (h : speed ≤ count + 1) : nextCount count speed = 0 :=
  if_pos h

theorem nextCount_of_not_due {speed : Nat} (h : ¬ speed ≤ count + 1) :
    nextCount count speed = count + 1 :=
  if_neg h

theorem ticks_of_due {speed : Nat} (h : speed ≤ count + 1) (speeds : List Nat) :
    ticks (beatsFrom count (speed :: speeds)) = ticks (beatsFrom 0 speeds) + 1 := by
  rw [beatsFrom, nextCount_of_due h]
  exact List.countP_cons_of_pos (decide_eq_true h)

theorem ticks_of_not_due {speed : Nat} (h : ¬ speed ≤ count + 1) (speeds : List Nat) :
    ticks (beatsFrom count (speed :: speeds)) = ticks (beatsFrom (count + 1) speeds) := by
  rw [beatsFrom, nextCount_of_not_due h]
  exact List.countP_cons_of_neg (Bool.eq_false_iff.mp (decide_eq_false h))

theorem countAfter_cons (count speed : Nat) (speeds : List Nat) :
    countAfter count (speed :: speeds) = countAfter (nextCount count speed) speeds := rfl

/-- A tick uses up at most as many frames as the greatest speed says. -/
theorem length_add_le (hcount : count < top) (hspeeds : ∀ speed ∈ speeds, speed ≤ top) :
    count + speeds.length ≤ top * ticks (beatsFrom count speeds) + countAfter count speeds ∧
      countAfter count speeds < top := by
  induction speeds generalizing count with
  | nil => exact ⟨Nat.le_add_left _ _, hcount⟩
  | cons speed speeds ih =>
    rw [List.forall_mem_cons] at hspeeds
    rw [countAfter_cons, List.length_cons]
    by_cases h : speed ≤ count + 1
    · obtain ⟨hle, hlt⟩ := ih (Nat.zero_lt_of_lt hcount) hspeeds.2
      rw [nextCount_of_due h, ticks_of_due h, Nat.mul_succ]
      exact ⟨by omega, hlt⟩
    · obtain ⟨hle, hlt⟩ := ih (Nat.lt_of_lt_of_le (Nat.lt_of_not_le h) hspeeds.1) hspeeds.2
      rw [nextCount_of_not_due h, ticks_of_not_due h]
      exact ⟨by omega, hlt⟩

/-- At an unchanging speed a tick uses up exactly as many frames as the speed says. -/
theorem length_add_eq (hcount : count < top) (hspeeds : ∀ speed ∈ speeds, speed = top) :
    count + speeds.length = top * ticks (beatsFrom count speeds) + countAfter count speeds := by
  induction speeds generalizing count with
  | nil => exact (Nat.zero_add _).symm
  | cons speed speeds ih =>
    rw [List.forall_mem_cons] at hspeeds
    obtain ⟨rfl, hspeeds⟩ := hspeeds
    rw [countAfter_cons, List.length_cons]
    by_cases h : speed ≤ count + 1
    · have := ih (Nat.zero_lt_of_lt hcount) hspeeds
      rw [nextCount_of_due h, ticks_of_due h, Nat.mul_succ]
      omega
    · have := ih (Nat.lt_of_not_le h) hspeeds
      rw [nextCount_of_not_due h, ticks_of_not_due h]
      omega

theorem ticks_eq_div (hcount : count < top) (hspeeds : ∀ speed ∈ speeds, speed = top) :
    ticks (beatsFrom count speeds) = (count + speeds.length) / top ∧
      countAfter count speeds = (count + speeds.length) % top := by
  have heq := length_add_eq hcount hspeeds
  have hlt := (length_add_le hcount fun speed h => Nat.le_of_eq (hspeeds speed h)).2
  have key := (Nat.div_mod_unique (Nat.zero_lt_of_lt hcount)).mpr
    ⟨(Nat.add_comm _ _).trans heq.symm, hlt⟩
  exact ⟨key.1.symm, key.2.symm⟩

/-- A count at or above the speed is left over from a greater speed, and the first frame ticks. -/
theorem ticks_eq_succ (hcount : top ≤ count) (hpos : 0 < top)
    (hspeeds : ∀ speed ∈ speeds, speed = top) (hne : 1 ≤ speeds.length) :
    ticks (beatsFrom count speeds) = 1 + (speeds.length - 1) / top := by
  cases speeds with
  | nil => cases hne
  | cons speed speeds =>
    rw [List.forall_mem_cons] at hspeeds
    obtain ⟨rfl, hspeeds⟩ := hspeeds
    have hdue : speed ≤ count + 1 := Nat.le_succ_of_le hcount
    rw [ticks_of_due hdue, (ticks_eq_div hpos hspeeds).1, Nat.zero_add, List.length_cons,
      Nat.add_sub_cancel, Nat.add_comm]

/-! ## From tick to tick -/

/-- Where beats are cut, the schedule is cut. -/
theorem exists_of_beatsFrom_eq_append {before behind : List Beat}
    (h : beatsFrom count speeds = before ++ behind) :
    ∃ count' speeds', behind = beatsFrom count' speeds' := by
  induction before generalizing count speeds with
  | nil => exact ⟨count, speeds, h.symm⟩
  | cons b before ih =>
    cases speeds with
    | nil => cases h
    | cons speed speeds => exact ih (List.cons.inj h).2

/-- Until the first tick the count grows, and stays below the speed of each frame. -/
theorem speed_of_first_tick {between behind : List Beat} {b : Beat}
    (h : beatsFrom count speeds = between ++ b :: behind)
    (hbetween : ∀ x ∈ between, x.ticked = false) (hb : b.ticked = true) :
    b.speed ≤ count + between.length + 1 ∧
      (between ≠ [] → ∃ x ∈ between, count + between.length + 1 ≤ x.speed) := by
  induction between generalizing count speeds with
  | nil =>
    cases speeds with
    | nil => cases h
    | cons speed speeds =>
      obtain ⟨rfl, _⟩ := List.cons.inj h
      exact ⟨of_decide_eq_true hb, fun hne => absurd rfl hne⟩
  | cons c between ih =>
    cases speeds with
    | nil => cases h
    | cons speed speeds =>
      obtain ⟨rfl, htail⟩ := List.cons.inj h
      rw [List.forall_mem_cons] at hbetween
      have hlt : ¬ speed ≤ count + 1 := of_decide_eq_false hbetween.1
      rw [nextCount_of_not_due hlt] at htail
      obtain ⟨hle, hex⟩ := ih htail hbetween.2
      rw [List.length_cons]
      refine ⟨by omega, fun _ => ?_⟩
      by_cases hnil : between = []
      · subst hnil
        exact ⟨_, List.mem_cons_self, Nat.lt_of_not_le hlt⟩
      · obtain ⟨x, hx, hxle⟩ := hex hnil
        exact ⟨x, List.mem_cons_of_mem _ hx, by omega⟩

/-- The frames after a tick, up to and with the next one, are as many as one of their speeds says
at least, and as many as one of their speeds says at most. -/
theorem speed_of_consecutive {before between behind : List Beat} {a b : Beat}
    (h : beatsFrom count speeds = before ++ a :: (between ++ b :: behind)) (ha : a.ticked = true)
    (hbetween : ∀ x ∈ between, x.ticked = false) (hb : b.ticked = true) (hpos : 1 ≤ b.speed) :
    (∃ x ∈ between ++ [b], x.speed ≤ between.length + 1) ∧
      ∃ x ∈ between ++ [b], between.length + 1 ≤ x.speed := by
  obtain ⟨count', speeds', hcut⟩ := exists_of_beatsFrom_eq_append h
  cases speeds' with
  | nil => cases hcut
  | cons speed speeds' =>
    obtain ⟨rfl, htail⟩ := List.cons.inj hcut
    rw [nextCount_of_due (of_decide_eq_true ha)] at htail
    obtain ⟨hle, hex⟩ := speed_of_first_tick htail.symm hbetween hb
    rw [Nat.zero_add] at hle hex
    refine ⟨⟨b, List.mem_append_right _ (List.mem_singleton_self b), hle⟩, ?_⟩
    by_cases hnil : between = []
    · subst hnil
      exact ⟨b, List.mem_singleton_self b, hpos⟩
    · obtain ⟨x, hx, hxle⟩ := hex hnil
      exact ⟨x, List.mem_append_left _ hx, hxle⟩

end Beat

/-! ## The beats of a run -/

/-- Whether the next frame lets the timers tick. -/
def Machine.tickDue (m : Machine) : Bool := decide (m.speed ≤ m.sinceTick + 1)

/-- The beat of a moment, if the moment is a frame. -/
def Moment.beat? (e : Moment) : Option Beat :=
  match e.action with
  | .frame => some ⟨e.machine.speed, e.machine.tickDue⟩
  | _ => none

namespace Machine

/-- The frames of a run. -/
def beats (m : Machine) (actions : List Action) : List Beat :=
  (m.moments actions).filterMap Moment.beat?

def Action.isFrame : Action → Bool
  | .frame => true
  | _ => false

theorem cycle_eq_step (m : Machine) :
    m.cycle = (if m.tickDue then { m.tick with sinceTick := 0 }
      else { m with sinceTick := m.sinceTick + 1 }).step := by
  unfold cycle countFrame tickDue
  by_cases h : m.speed ≤ m.sinceTick + 1
  · rw [if_pos h, if_pos (decide_eq_true h)]
  · rw [if_neg h, if_neg (Bool.eq_false_iff.mp (decide_eq_false h))]

theorem pace_step (m : Machine) : m.step.2.speed = m.speed ∧ m.step.2.sinceTick = m.sinceTick := by
  rcases step_cases m with ⟨_, hs⟩ | ⟨_, fault, _, hs⟩ | ⟨_, word, _, _, hs⟩
  all_goals
    rw [hs]
    exact ⟨rfl, rfl⟩

theorem pace_countFrame (m : Machine) :
    m.countFrame.speed = m.speed ∧ m.countFrame.sinceTick = nextCount m.sinceTick m.speed := by
  unfold countFrame nextCount
  split <;> exact ⟨rfl, rfl⟩

theorem sinceTick_frame (m : Machine) :
    (m.act .frame).sinceTick = nextCount m.sinceTick m.speed :=
  (pace_step m.countFrame).2.trans (pace_countFrame m).2

theorem pace_press (m : Machine) (key : UInt8) :
    (m.press key).speed = m.speed ∧ (m.press key).sinceTick = m.sinceTick := by
  unfold press
  split <;> exact ⟨rfl, rfl⟩

theorem pace_release (m : Machine) (key : UInt8) :
    (m.release key).speed = m.speed ∧ (m.release key).sinceTick = m.sinceTick := by
  unfold release
  split <;> exact ⟨rfl, rfl⟩

/-- Between the frames nothing but a loaded program touches the count. -/
theorem sinceTick_act {m : Machine} {a : Action} (ha : a.isFrame = false)
    (hloads : Moment.loads ⟨m, a⟩ = false) : (m.act a).sinceTick = m.sinceTick := by
  cases a
  case load rom =>
    have hlarge : ¬ rom.length ≤ Memory.romCapacity := of_decide_eq_false hloads
    exact congrArg sinceTick (if_neg hlarge)
  case step => exact (pace_step m).2
  case frame => cases ha
  case press key => exact (pace_press m key).2
  case release key => exact (pace_release m key).2
  case tick | setSpeed => rfl

theorem beats_cons (m : Machine) (a : Action) (actions : List Action) :
    m.beats (a :: actions) =
      (if a.isFrame then [⟨m.speed, m.tickDue⟩] else []) ++ (m.act a).beats actions := by
  cases a <;> rfl

theorem length_beats (m : Machine) (actions : List Action) :
    (m.beats actions).length = actions.countP Action.isFrame := by
  induction actions generalizing m with
  | nil => rfl
  | cons a actions ih =>
    rw [beats_cons, List.length_append, ih, List.countP_cons, Nat.add_comm]
    cases a.isFrame <;> rfl

/-- The beats of a run without a loaded program are those of a schedule. -/
theorem beats_eq_beatsFrom (m : Machine) (actions : List Action)
    (hloads : ∀ e ∈ m.moments actions, e.loads = false) :
    m.beats actions = beatsFrom m.sinceTick ((m.beats actions).map Beat.speed) ∧
      (m.actAll actions).sinceTick =
        countAfter m.sinceTick ((m.beats actions).map Beat.speed) := by
  induction actions generalizing m with
  | nil => exact ⟨rfl, rfl⟩
  | cons a actions ih =>
    rw [moments, List.forall_mem_cons] at hloads
    obtain ⟨hbeats, hcount⟩ := ih (m.act a) hloads.2
    rw [beats_cons]
    cases ha : a.isFrame with
    | true =>
      obtain rfl : a = .frame := by cases a <;> first | rfl | cases ha
      rw [sinceTick_frame] at hbeats hcount
      exact ⟨congrArg _ hbeats, hcount⟩
    | false =>
      rw [sinceTick_act ha hloads.1] at hbeats hcount
      exact ⟨hbeats, hcount⟩

theorem mem_beats {m : Machine} {actions : List Action} {b : Beat} (h : b ∈ m.beats actions) :
    ∃ e ∈ m.moments actions, b.speed = e.machine.speed := by
  obtain ⟨e, he, hb⟩ := List.mem_filterMap.mp h
  refine ⟨e, he, ?_⟩
  obtain ⟨m', a⟩ := e
  cases a
  case frame =>
    cases hb
    rfl
  all_goals cases hb

/-! ## Two runs at one pace -/

/-- Two machines with one speed and one count of frames since the last tick. -/
def SamePace (m n : Machine) : Prop := n.speed = m.speed ∧ n.sinceTick = m.sinceTick

theorem SamePace.act {m n : Machine} (h : m.SamePace n) (a : Action) :
    (m.act a).SamePace (n.act a) := by
  obtain ⟨hspeed, hcount⟩ := h
  cases a
  case load rom =>
    by_cases hfit : rom.length ≤ Memory.romCapacity
    · have hm : m.act (.load rom) = boot rom m.speed m.random := if_pos hfit
      have hn : n.act (.load rom) = boot rom n.speed n.random := if_pos hfit
      rw [hm, hn]
      exact ⟨hspeed, rfl⟩
    · have hm : m.act (.load rom) = m := if_neg hfit
      have hn : n.act (.load rom) = n := if_neg hfit
      rw [hm, hn]
      exact ⟨hspeed, hcount⟩
  case step =>
    exact ⟨(pace_step n).1.trans (hspeed.trans (pace_step m).1.symm),
      (pace_step n).2.trans (hcount.trans (pace_step m).2.symm)⟩
  case frame =>
    refine ⟨?_, ?_⟩
    · exact (pace_step _).1.trans <| (pace_countFrame n).1.trans <|
        hspeed.trans <| (pace_countFrame m).1.symm.trans (pace_step _).1.symm
    · rw [sinceTick_frame, sinceTick_frame, hspeed, hcount]
  case press key =>
    exact ⟨(pace_press n key).1.trans (hspeed.trans (pace_press m key).1.symm),
      (pace_press n key).2.trans (hcount.trans (pace_press m key).2.symm)⟩
  case release key =>
    exact ⟨(pace_release n key).1.trans (hspeed.trans (pace_release m key).1.symm),
      (pace_release n key).2.trans (hcount.trans (pace_release m key).2.symm)⟩
  case tick => exact ⟨hspeed, hcount⟩
  case setSpeed speed => exact ⟨rfl, hcount⟩

theorem SamePace.actAll {m n : Machine} (h : m.SamePace n) (actions : List Action) :
    n.beats actions = m.beats actions ∧ (m.actAll actions).SamePace (n.actAll actions) := by
  induction actions generalizing m n with
  | nil => exact ⟨rfl, h⟩
  | cons a actions ih =>
    obtain ⟨hbeats, hpace⟩ := ih (h.act a)
    refine ⟨?_, hpace⟩
    rw [beats_cons, beats_cons, hbeats, tickDue, tickDue, h.1, h.2]

end Machine

/-! ## Histories of calls -/

/-- Whether the call runs a frame that the pacer does not count. -/
def Call.isCycle : Call → Bool
  | .cycle => true
  | _ => false

namespace Pacer

/-- The frames of a history, those of its updates told one by one. -/
def beats (p : Pacer) (calls : List Call) : List Beat := p.machine.beats (p.actions calls)

theorem loads_of_exchanges {p : Pacer} {calls : List Call}
    (h : ∀ e ∈ p.exchanges calls, e.loads = false) : ∀ e ∈ p.moments calls, e.loads = false := by
  induction calls generalizing p with
  | nil => exact fun e he => (List.not_mem_nil he).elim
  | cons call calls ih =>
    rw [exchanges, List.forall_mem_cons] at h
    rw [moments_cons, List.forall_mem_append]
    refine ⟨?_, ih h.2⟩
    cases call
    case load rom =>
      intro e he
      obtain rfl := List.mem_singleton.mp he
      have hreply := h.1
      unfold exchange at hreply
      rw [perform_load] at hreply
      split at hreply
      · cases hreply
      · next hlarge => exact decide_eq_false hlarge
    case update dt =>
      -- all actions of an update are frames
      intro e he
      have hframe : e.action = .frame :=
        List.eq_of_mem_replicate (Machine.action_mem_of_mem_moments he)
      unfold Moment.loads
      rw [hframe]
    all_goals
      intro e he
      obtain rfl := List.mem_singleton.mp he
      rfl

theorem frames_perform (p : Pacer) (call : Call) :
    (p.actionsOf call).countP Machine.Action.isFrame + p.frames =
      (p.perform call).2.frames + if call.isCycle then 1 else 0 := by
  cases call
  case load rom =>
    rw [perform_load]
    by_cases h : rom.length ≤ Memory.romCapacity
    · rw [if_pos h]
      exact Nat.zero_add _
    · rw [if_neg h]
      exact Nat.zero_add _
  case cycle | runFrame => exact Nat.add_comm _ _
  case update dt =>
    obtain ⟨k, hframes, _⟩ := p.update_frames dt
    show (List.replicate ((p.update dt).2.frames - p.frames) Machine.Action.frame).countP
      Machine.Action.isFrame + p.frames = (p.update dt).2.frames
    rw [List.countP_replicate, if_pos (by rfl), hframes]
    omega
  all_goals exact Nat.zero_add _

theorem beats_cons (p : Pacer) (call : Call) (calls : List Call) :
    p.beats (call :: calls) =
      p.machine.beats (p.actionsOf call) ++ (p.perform call).2.beats calls := by
  have h := congrArg (List.filterMap Moment.beat?) (p.moments_cons call calls)
  rw [List.filterMap_append] at h
  exact h

/-- The frames of a history: those that the pacer counted, and those that it did not. -/
theorem length_beats (p : Pacer) (calls : List Call) :
    (p.beats calls).length + p.frames =
      (p.performAll calls).frames + calls.countP Call.isCycle := by
  induction calls generalizing p with
  | nil => exact Nat.add_comm _ _
  | cons call calls ih =>
    have hcall := p.frames_perform call
    have hcalls := ih (p.perform call).2
    rw [beats_cons, List.length_append, Machine.length_beats, List.countP_cons]
    show _ = (performAll (p.perform call).2 calls).frames + _
    omega

/-- Without updates the frames are those that the calls ask for. -/
theorem actions_eq {p q : Pacer} (h : p.machine.SamePace q.machine) {calls : List Call}
    (hcalls : ∀ dt, .update dt ∉ calls) : q.actions calls = p.actions calls := by
  induction calls generalizing p q with
  | nil => rfl
  | cons call calls ih =>
    have hactions : q.actionsOf call = p.actionsOf call := by
      cases call
      case update dt => exact absurd List.mem_cons_self (hcalls dt)
      case speedUp | speedDown => rw [actionsOf, actionsOf, h.1]
      all_goals rfl
    have hnext : (p.perform call).2.machine.SamePace (q.perform call).2.machine := by
      rw [machine_perform, machine_perform, hactions]
      exact (h.actAll _).2
    rw [actions, actions, hactions, ih hnext fun dt hdt => hcalls dt (List.mem_cons_of_mem _ hdt)]

/-- The pace of the timers from any moment of a history on. The timers tick in a frame if it is due
by the count of frames and the speed, and at no other time; so the ticks and the count follow from
the speeds alone, and another machine at the same pace has the same ones. -/
theorem pacing_law (seed : UInt64) (before calls : List Call)
    (hloads : ∀ e ∈ ((ofSeed seed).performAll before).exchanges calls, e.loads = false) :
    let p := (ofSeed seed).performAll before
    let count := p.machine.sinceTick
    let beats := p.beats calls
    let last := (p.performAll calls).machine.sinceTick
    (∀ m : Machine, m.cycle = (if m.tickDue then { m.tick with sinceTick := 0 }
      else { m with sinceTick := m.sinceTick + 1 }).step) ∧
    beats.length + p.frames = (p.performAll calls).frames + calls.countP Call.isCycle ∧
    ((count + beats.length) / 5 ≤ Beat.ticks beats ∧ Beat.ticks beats ≤ beats.length) ∧
    (∀ head a between b tail, beats = head ++ a :: (between ++ b :: tail) →
      a.ticked = true → (∀ x ∈ between, x.ticked = false) → b.ticked = true →
        (∃ x ∈ between ++ [b], x.speed ≤ between.length + 1) ∧
          ∃ x ∈ between ++ [b], between.length + 1 ≤ x.speed) ∧
    (∀ speed, (∀ x ∈ beats, x.speed = speed) →
      (count < speed → Beat.ticks beats = (count + beats.length) / speed ∧
        last = (count + beats.length) % speed) ∧
      (speed ≤ count → 1 ≤ beats.length →
        Beat.ticks beats = 1 + (beats.length - 1) / speed)) ∧
    (beats = beatsFrom count (beats.map Beat.speed) ∧
      last = countAfter count (beats.map Beat.speed)) ∧
    (∀ q : Pacer, p.machine.SamePace q.machine → (∀ dt, .update dt ∉ calls) →
      q.beats calls = beats ∧ (q.performAll calls).machine.sinceTick = last) := by
  intro p count beats last
  have hstart : (Machine.ofSeed seed).Bounded :=
    Machine.bounded_boot (by decide) (by decide) [] { key := .ofSeed seed }
  have hp : p.machine.Bounded :=
    performAll_induction Machine.bounded_act (ofSeed seed) before hstart
  have hcount : count < 5 := Nat.lt_succ_of_le hp.sinceTick_le
  have hspeed : ∀ x ∈ beats, 1 ≤ x.speed ∧ x.speed ≤ 5 := by
    intro x hx
    obtain ⟨e, he, hxe⟩ := Machine.mem_beats hx
    have hm := Machine.moments_induction Machine.bounded_act hp _ e he
    rw [hxe]
    exact ⟨hm.speed_pos, hm.speed_le⟩
  obtain ⟨hbeats, hlast⟩ :=
    Machine.beats_eq_beatsFrom p.machine (p.actions calls) (loads_of_exchanges hloads)
  rw [← machine_performAll] at hlast
  have hbeats : beats = beatsFrom count (beats.map Beat.speed) := hbeats
  have hlast : last = countAfter count (beats.map Beat.speed) := hlast
  have hlength : (beats.map Beat.speed).length = beats.length := List.length_map _
  refine ⟨Machine.cycle_eq_step, length_beats p calls, ⟨?_, Beat.ticks_le_length beats⟩, ?_, ?_,
    ⟨hbeats, hlast⟩, ?_⟩
  · have htop : ∀ s ∈ beats.map Beat.speed, s ≤ 5 :=
      List.forall_mem_map.mpr fun x hx => (hspeed x hx).2
    obtain ⟨hle, hlt⟩ := Beat.length_add_le hcount htop
    rw [← hbeats, hlength] at hle
    omega
  · intro head a between b tail hcut ha hbetween hb
    have hmem : b ∈ beats := by
      rw [hcut]
      exact List.mem_append_right _ (List.mem_cons_of_mem _
        (List.mem_append_right _ List.mem_cons_self))
    exact Beat.speed_of_consecutive (hbeats.symm.trans hcut) ha hbetween hb (hspeed b hmem).1
  · intro speed hall
    have hall : ∀ s ∈ beats.map Beat.speed, s = speed := List.forall_mem_map.mpr hall
    refine ⟨fun hlt => ?_, fun hge hne => ?_⟩
    · have h := Beat.ticks_eq_div hlt hall
      rw [← hbeats, ← hlast, hlength] at h
      exact h
    · have hpos : 0 < speed := by
        obtain ⟨x, hx⟩ := List.exists_mem_of_length_pos hne
        rw [← hall _ (List.mem_map_of_mem hx)]
        exact (hspeed x hx).1
      have h := Beat.ticks_eq_succ hge hpos hall (hlength.symm ▸ hne)
      rw [← hbeats, hlength] at h
      exact h
  · intro q hq hcalls
    have hactions := actions_eq hq hcalls
    have h := hq.actAll (p.actions calls)
    refine ⟨?_, ?_⟩
    · show q.machine.beats (q.actions calls) = _
      rw [hactions]
      exact h.1
    · rw [machine_performAll, hactions, h.2.2, ← machine_performAll]

/-- Four frames at speed 2 of a machine that stands at the count 2 from a time at speed 4. -/
theorem pacing_law_slowed :
    let p := (ofSeed 0).performAll [.load [0x12, 0x00], .setSpeed 4, .cycle, .cycle, .setSpeed 2]
    let calls : List Call :=
      [.cycle, .press 3, .runFrame, .step, .cycle, .load (List.replicate 3585 0), .cycle]
    (∀ e ∈ p.exchanges calls, e.loads = false) ∧ p.machine.sinceTick = 2 ∧
      Beat.ticks (p.beats calls) = 1 + ((p.beats calls).length - 1) / 2 := by
  intro p calls
  have hloads : ∀ e ∈ p.exchanges calls, e.loads = false := by decide +kernel
  have hspeeds : ∀ x ∈ p.beats calls, x.speed = 2 := by decide +kernel
  have hcount : p.machine.sinceTick = 2 := by decide +kernel
  have law := pacing_law 0 [.load [0x12, 0x00], .setSpeed 4, .cycle, .cycle, .setSpeed 2] calls
    hloads
  exact ⟨hloads, hcount,
    (law.2.2.2.2.1 2 hspeeds).2 (Nat.le_of_eq hcount.symm) (by decide +kernel)⟩

end Pacer

end Chip8
