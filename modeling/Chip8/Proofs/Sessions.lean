import Chip8.CommandLine.Session
import Chip8.Proofs.Arguments
import Chip8.Proofs.Updates

/-!
# Sessions

A session takes its machine forward frame by frame, whatever paces its turns, until a fault ends it
or the frames asked for were run. At every moment it is told by the number of frames that its pacer
counts (`Follows`): where the machine is, what the log has to tell, and whether a fault ended it.
What the pacing adds is only that the log may warn of time that was dropped (`withoutWarnings`). A
session never finds the machine paused, since only a fault pauses a machine and a fault has ended
the session by then.

* `Session.play_induction`: what a turn keeps holds after any number of turns.
* `Session.Ready.follows_play`: a session follows its machine through all its turns.
* `run_law`: a run of the program that is not paced by time is a number of frames of one machine.
-/

namespace Chip8

open CommandLine (Event)

/-! ## What frames tell -/

namespace Machine

theorem narrate_succ (m : Machine) (n : Nat) :
    m.narrate (n + 1) = m.stepEvents m.cycle.1 ++ m.cycle.2.narrate n := rfl

theorem narrate_add (m : Machine) (n k : Nat) :
    m.narrate (n + k) = m.narrate n ++ (m.afterFrames n).narrate k := by
  induction n generalizing m with
  | zero => rw [Nat.zero_add]; rfl
  | succ n ih =>
    rw [Nat.add_right_comm, narrate_succ, narrate_succ, ih, afterFrames_cycle, List.append_assoc]

theorem level_of_mem_stepEvents {m : Machine} {answer : Answer} {e : Event}
    (h : e ∈ m.stepEvents answer) : e.level = .trace ∨ e.level = .error := by
  unfold stepEvents at h
  split at h
  · cases h
  have htold : (∃ word, e = .fetched m.pc word) ∨ ∃ fault, e = .pausing m.pc fault := by
    cases answer with
    | ok outcome =>
      cases hf : m.fetch with
      | ok word => exact .inl ⟨word, by simpa [hf] using h⟩
      | error fault => simp [hf] at h
    | error fault =>
      cases hf : m.fetch with
      | ok word =>
        have hcases : e = .fetched m.pc word ∨ e = .pausing m.pc fault := by simpa [hf] using h
        exact hcases.imp (fun heq => ⟨word, heq⟩) fun heq => ⟨fault, heq⟩
      | error _ => exact .inr ⟨fault, by simpa [hf] using h⟩
  rcases htold with ⟨word, rfl⟩ | ⟨fault, rfl⟩
  · exact .inl rfl
  · exact .inr rfl

/-- Frames tell what they fetch and of a fault, and nothing else. -/
theorem level_of_mem_narrate {m : Machine} {n : Nat} {e : Event} (h : e ∈ m.narrate n) :
    e.level = .trace ∨ e.level = .error := by
  induction n generalizing m with
  | zero => cases h
  | succ n ih =>
    rw [narrate_succ, List.mem_append] at h
    exact h.elim level_of_mem_stepEvents ih

end Machine

namespace CommandLine

theorem Event.toList_line (e : Event) :
    e.line.toList = e.level.name.toList ++ ' ' :: e.text.toList := by
  rw [line, String.toList_append, String.toList_append, List.append_assoc]
  rfl

theorem Event.head?_text_running (path : String) (frames speed : Nat) :
    (running path frames speed).text.toList.head? = some 'R' := by
  show ("Running " ++ path ++ " for " ++ toString frames ++ " frames at speed " ++
    toString speed).toList.head? = _
  have hword : "Running ".toList.head? = some 'R' := by decide
  simp only [String.append_assoc, String.toList_append, List.head?_append, hword, Option.some_or]

/-- The line about the sound is the line of no other event. -/
theorem Event.eq_soundActive_of_line {e : Event} (h : e.line = Event.soundActive.line) :
    e = .soundActive := by
  have hlist := congrArg String.toList h
  rw [toList_line, toList_line] at hlist
  have hlevel : e.level = .info := by
    have hhead := congrArg List.head? hlist
    generalize e.level = l at hhead
    cases l
    case info => rfl
    all_goals cases hhead
  have htext : e.text.toList.head? = some 'S' := by
    have hinfo : Event.soundActive.level = .info := rfl
    rw [hlevel, hinfo, List.append_right_inj, List.cons_inj_right] at hlist
    rw [hlist]
    decide
  cases e with
  | soundActive => rfl
  | running path frames speed => cases (head?_text_running path frames speed).symm.trans htext
  | _ => cases hlevel

theorem soundActive_line_mem_logLines {verbosity : Nat} {events : List Event} :
    Event.soundActive.line ∈ logLines verbosity events ↔
      1 ≤ verbosity ∧ Event.soundActive ∈ events := by
  unfold logLines
  constructor
  · intro h
    obtain ⟨e, he, hline⟩ := List.mem_map.mp h
    obtain ⟨hmem, hlevel⟩ := List.mem_filter.mp he
    cases Event.eq_soundActive_of_line hline
    exact ⟨of_decide_eq_true hlevel, hmem⟩
  · rintro ⟨hlevel, hmem⟩
    exact List.mem_map_of_mem (List.mem_filter.mpr ⟨hmem, decide_eq_true hlevel⟩)

/-- The events but those that warn of time that was dropped. -/
def withoutWarnings (events : List Event) : List Event := events.filter fun e => e.level ≠ .warn

theorem withoutWarnings_append (events others : List Event) :
    withoutWarnings (events ++ others) = withoutWarnings events ++ withoutWarnings others :=
  List.filter_append ..

theorem withoutWarnings_eq_self {events : List Event} :
    withoutWarnings events = events ↔ ∀ e ∈ events, e.level ≠ .warn := by
  simp [withoutWarnings, List.filter_eq_self]

theorem withoutWarnings_narrate (m : Machine) (n : Nat) :
    withoutWarnings (m.narrate n) = m.narrate n := by
  refine withoutWarnings_eq_self.mpr fun e he hwarn => ?_
  rcases Machine.level_of_mem_narrate he with hlevel | hlevel <;> cases hwarn.symm.trans hlevel

end CommandLine

/-! ## Turns -/

namespace Pacer

/-- Either all the frames that lead somewhere were sound, or the last one met the first fault. -/
theorem Leads.cases {p : Pacer} {n : Nat} {r : Answer × Pacer} (h : p.Leads n r) :
    (∃ outcome, r.1 = .ok outcome ∧ p.machine.Sound n) ∨
      ∃ i fault, n = i + 1 ∧ r.1 = .error fault ∧ p.machine.FirstFault i fault := by
  have hanswer := h.answer
  cases n with
  | zero => exact .inl ⟨p.outset, hanswer, fun i hi => absurd hi (Nat.not_lt_zero i)⟩
  | succ n =>
    cases hlast : (p.machine.afterFrames n).cycle.1 with
    | error fault => exact .inr ⟨n, fault, rfl, hanswer.trans hlast, h.sound, hlast⟩
    | ok outcome =>
      have hone : (p.machine.afterFrames n).Sound 1 := by
        intro i hi
        cases Nat.lt_one_iff.mp hi
        exact ⟨outcome, hlast⟩
      exact .inl ⟨outcome, hanswer.trans hlast, h.sound.add hone⟩

theorem Leads.ne_paused {p : Pacer} {n : Nat} {r : Answer × Pacer} (h : p.Leads n r)
    (hp : p.machine.paused = false) : r.1 ≠ .ok .paused := by
  rw [h.answer]
  cases n with
  | zero =>
    rw [Machine.answerAfter, outset, hp]
    rintro ⟨⟩
  | succ n => exact Machine.cycle_ne_paused (h.sound.paused hp)

end Pacer

namespace CommandLine

/-- A turn runs up to eight frames, none of them after a fault. -/
theorem Turn.leads (t : Turn) (p : Pacer) : ∃ n ≤ 8, p.Leads n (t.run p) :=
  match t with
  | .frame => ⟨1, by decide, p.leads_runFrame⟩
  | .interval dt => p.leads_update dt

theorem Turn.withoutWarnings_events (t : Turn) (p : Pacer) :
    withoutWarnings (t.events p) = p.machine.narrate ((t.run p).2.frames - p.frames) := by
  have hdropped : withoutWarnings ((t.dropped? p).map Event.dropping).toList = [] := by
    cases t.dropped? p <;> rfl
  rw [events, withoutWarnings_append, withoutWarnings_narrate, hdropped, List.append_nil]

namespace Session

variable {first s : Session} {t : Turn} {go : Nat → Turn} {n : Nat}

theorem turn_pacer (s : Session) (t : Turn) : (s.turn t).pacer = (t.run s.pacer).2 := by
  unfold turn
  rcases t.run s.pacer with ⟨fault | outcome, p⟩ <;> rfl

theorem turn_settings (s : Session) (t : Turn) : (s.turn t).settings = s.settings := by
  unfold turn
  rcases t.run s.pacer with ⟨fault | outcome, p⟩ <;> rfl

theorem turn_events (s : Session) (t : Turn) :
    (s.turn t).events.toList = s.events.toList ++ t.events s.pacer := by
  rw [← Array.toList_appendList]
  unfold turn
  rcases t.run s.pacer with ⟨fault | outcome, p⟩ <;> rfl

theorem turn_of_ok {outcome : Outcome} (h : (t.run s.pacer).1 = .ok outcome) :
    (s.turn t).fault = s.fault ∧ (s.turn t).halted = (outcome == .paused) := by
  unfold turn
  rcases hrun : t.run s.pacer with ⟨answer, p⟩
  rw [hrun] at h
  cases h
  exact ⟨rfl, rfl⟩

theorem turn_of_error {fault : Fault} (h : (t.run s.pacer).1 = .error fault) :
    (s.turn t).fault = some fault ∧ (s.turn t).halted = s.halted := by
  unfold turn
  rcases hrun : t.run s.pacer with ⟨answer, p⟩
  rw [hrun] at h
  cases h
  exact ⟨rfl, rfl⟩

theorem isDue_iff (s : Session) :
    s.isDue = true ↔ s.fault = none ∧ s.halted = false ∧ s.pacer.frames < s.settings.frames := by
  simp [isDue, and_assoc]

/-- What a turn that is due keeps holds after any number of turns. -/
theorem play_induction {motive : Session → Prop}
    (hturn : ∀ k s, motive s → s.isDue = true → motive (s.turn (go k))) (turns k : Nat)
    (hs : motive s) : motive (play go turns k s) := by
  induction turns generalizing k s with
  | zero => exact hs
  | succ turns ih =>
    unfold play
    split
    · next hdue => exact ih (k + 1) (hturn k s hs hdue)
    · exact hs

theorem play_settings (go : Nat → Turn) (turns k : Nat) (s : Session) :
    (play go turns k s).settings = s.settings :=
  play_induction (motive := fun r => r.settings = s.settings)
    (fun _ r hr _ => (turn_settings r _).trans hr) turns k rfl

theorem play_of_not_due {turns k : Nat} (h : ¬ s.isDue = true) : play go turns k s = s := by
  cases turns with
  | zero => rfl
  | succ turns => rw [play, if_neg h]

/-- The log has nothing to tell of time that was dropped. -/
def Quiet (s : Session) : Prop := ∀ e ∈ s.events.toList, e.level ≠ .warn

/-- Turns of one frame each drop no time. -/
theorem Quiet.play_frame (h : s.Quiet) (turns k : Nat) :
    (play (fun _ => .frame) turns k s).Quiet := by
  refine play_induction (fun _ r hr _ => ?_) turns k h
  rw [Quiet, ← withoutWarnings_eq_self, turn_events, withoutWarnings_append,
    withoutWarnings_eq_self.mpr hr, Turn.withoutWarnings_events]
  exact congrArg _ (List.append_nil _).symm

/-! ## Starting -/

theorem paused_pressAll (m : Machine) (keys : List Nibble) :
    (keys.foldl (fun m key => m.press key.val.toUInt8) m).paused = m.paused := by
  induction keys generalizing m with
  | nil => rfl
  | cons key keys ih => exact (ih _).trans (Machine.rests_press m _).paused

/-- A program that fits is loaded before the keys are pressed. -/
theorem start_eq (settings : Settings) (rom : List UInt8) (key : Random.Key) :
    let speed := ((Machine.ofKey key).setSpeed settings.speed).speed
    let machine := settings.keys.foldl (fun m key => m.press key.val.toUInt8)
      (Machine.boot rom speed { key })
    start settings rom key =
      if rom.length ≤ 3584 then
        .ok { settings, pacer := { machine }, events := opening settings rom }
      else .error (.romTooLarge rom.length 3584) := by
  intro speed machine
  have hload : ((Machine.ofKey key).setSpeed settings.speed).load rom =
      if rom.length ≤ 3584 then .ok (Machine.boot rom speed { key })
      else .error (.romTooLarge rom.length 3584) := rfl
  rw [start, startMachine, hload]
  split <;> rfl

/-- A session before its first turn. -/
structure Ready (s : Session) : Prop where
  owed : s.pacer.owed = 0
  frames : s.pacer.frames = 0
  halted : s.halted = false
  fault : s.fault = none
  paused : s.pacer.machine.paused = false
  quiet : s.Quiet

theorem quiet_opening (settings : Settings) (rom : List UInt8) :
    ∀ e ∈ (opening settings rom).toList, e.level ≠ .warn := by
  simp [opening, Event.level]

theorem ready_start {settings : Settings} {rom : List UInt8} {key : Random.Key}
    (h : start settings rom key = .ok s) : s.Ready ∧ s.settings = settings := by
  rw [start_eq] at h
  split at h
  · cases h
    exact ⟨⟨rfl, rfl, rfl, rfl, paused_pressAll _ _, quiet_opening _ _⟩, rfl⟩
  · cases h

/-- With a speed that a machine can have, a session starts with that speed. -/
theorem exists_start {settings : Settings} {rom : List UInt8} (hfit : rom.length ≤ 3584)
    (hmin : Machine.minSpeed ≤ settings.speed) (hmax : settings.speed ≤ Machine.maxSpeed)
    (key : Random.Key) :
    ∃ first, start settings rom key = .ok first ∧ first.settings = settings ∧
      first.events = opening settings rom ∧
      first.pacer.machine = settings.keys.foldl (fun m key => m.press key.val.toUInt8)
        (Machine.boot rom settings.speed { key }) := by
  have hspeed : ((Machine.ofKey key).setSpeed settings.speed).speed = settings.speed := by
    show max Machine.minSpeed (min Machine.maxSpeed settings.speed) = _
    rw [min_eq_right hmax, max_eq_right hmin]
  rw [start_eq, if_pos hfit, hspeed]
  exact ⟨_, rfl, rfl, rfl, rfl⟩

/-! ## A session and its machine -/

/-- The session `s` is where `first` gets by as many frames as the pacer of `s` counts. -/
structure Follows (first s : Session) : Prop where
  settings : s.settings = first.settings
  machine : s.pacer.machine = first.pacer.machine.afterFrames s.pacer.frames
  events : withoutWarnings s.events.toList =
    first.events.toList ++ first.pacer.machine.narrate s.pacer.frames
  halted : s.halted = false
  sound : s.fault = none → first.pacer.machine.Sound s.pacer.frames
  fault : ∀ fault, s.fault = some fault →
    ∃ i, s.pacer.frames = i + 1 ∧ first.pacer.machine.FirstFault i fault

theorem Follows.refl (h : first.Ready) : Follows first first where
  settings := rfl
  machine := by rw [h.frames]; rfl
  events := by
    rw [h.frames, withoutWarnings_eq_self.mpr h.quiet]
    exact (List.append_nil _).symm
  halted := h.halted
  sound := by
    rw [h.frames]
    exact fun _ i hi => absurd hi (Nat.not_lt_zero i)
  fault := by
    rw [h.fault]
    rintro fault ⟨⟩

/-- A turn of a session that is due follows the machine by the frames it runs. -/
theorem Follows.turn (h : Follows first s) (hfirst : first.Ready) (hdue : s.isDue = true)
    (t : Turn) : Follows first (s.turn t) := by
  obtain ⟨n, _, ht⟩ := t.leads s.pacer
  obtain ⟨hfault, hhalted, _⟩ := (isDue_iff s).mp hdue
  have hbefore := h.sound hfault
  have hpaused : s.pacer.machine.paused = false := by
    rw [h.machine]
    exact hbefore.paused hfirst.paused
  have hframes : (s.turn t).pacer.frames = s.pacer.frames + n := by rw [turn_pacer, ht.frames]
  have hmachine : (s.turn t).pacer.machine =
      first.pacer.machine.afterFrames (s.turn t).pacer.frames := by
    rw [hframes, turn_pacer, ht.machine, h.machine, Machine.afterFrames_add]
  have hevents : withoutWarnings (s.turn t).events.toList =
      first.events.toList ++ first.pacer.machine.narrate (s.turn t).pacer.frames := by
    rw [turn_events, withoutWarnings_append, Turn.withoutWarnings_events, ht.frames,
      Nat.add_sub_cancel_left, h.events, h.machine, List.append_assoc, ← Machine.narrate_add,
      hframes]
  have hsettings := (turn_settings s t).trans h.settings
  have hcases := ht.cases
  rw [h.machine] at hcases
  rcases hcases with ⟨outcome, hok, hsound⟩ | ⟨i, fault, rfl, herror, hfirst⟩
  · obtain ⟨hkept, hnew⟩ := turn_of_ok hok
    have hran : outcome ≠ .paused := by
      rintro rfl
      exact ht.ne_paused hpaused hok
    refine ⟨hsettings, hmachine, hevents, ?_, fun _ => ?_, fun fault hsome => ?_⟩
    · rw [hnew, beq_eq_false_iff_ne]
      exact hran
    · rw [hframes]
      exact hbefore.add hsound
    · rw [hkept, hfault] at hsome
      cases hsome
  · obtain ⟨hnew, hkept⟩ := turn_of_error herror
    refine ⟨hsettings, hmachine, hevents, hkept.trans hhalted, fun hnone => ?_,
      fun other hsome => ?_⟩
    · rw [hnew] at hnone
      cases hnone
    · cases hnew.symm.trans hsome
      exact ⟨_, hframes, hfirst.add hbefore⟩

/-- A session that starts follows its machine through any number of turns. -/
theorem Ready.follows_play (hfirst : first.Ready) (go : Nat → Turn) (turns k : Nat) :
    Follows first (play go turns k first) :=
  play_induction (fun k _ hs hdue => hs.turn hfirst hdue (go k)) turns k (.refl hfirst)

/-- Without warnings, the events are those of the start and then those of the frames. -/
theorem Follows.events_eq (h : Follows first s) (hquiet : s.Quiet) :
    s.events.toList = first.events.toList ++ first.pacer.machine.narrate s.pacer.frames := by
  rw [← h.events, withoutWarnings_eq_self.mpr hquiet]

/-! ## How far a session gets -/

/-- If no turn runs more than `slack + 1` frames, a session goes at most `slack` frames too far. -/
theorem frames_play_le (slack : Nat)
    (hgo : ∀ (k : Nat) (p : Pacer), ((go k).run p).2.frames ≤ p.frames + (slack + 1))
    (turns k : Nat) (hs : s.pacer.frames ≤ s.settings.frames + slack) :
    (play go turns k s).pacer.frames ≤ s.settings.frames + slack := by
  rw [← play_settings go turns k s]
  refine play_induction (motive := fun r => r.pacer.frames ≤ r.settings.frames + slack)
    (fun k r _ hdue => ?_) turns k hs
  have hle := hgo k r.pacer
  obtain ⟨_, _, hlt⟩ := (isDue_iff r).mp hdue
  rw [turn_settings, turn_pacer]
  omega

/-- If every turn runs a frame, as many turns as frames are enough. That may rest on a condition
`P` that the turns keep. -/
theorem isDue_play {P : Pacer → Prop}
    (hgo : ∀ (k : Nat) (p : Pacer), P p →
      P ((go k).run p).2 ∧ p.frames < ((go k).run p).2.frames)
    (turns k : Nat) (hp : P s.pacer) (hs : s.settings.frames ≤ s.pacer.frames + turns) :
    (play go turns k s).isDue = false := by
  induction turns generalizing k s with
  | zero =>
    rw [Bool.eq_false_iff, Ne, play, isDue_iff]
    exact fun h => Nat.not_lt.mpr hs h.2.2
  | succ turns ih =>
    unfold play
    split
    · obtain ⟨hkept, hlt⟩ := hgo k s.pacer hp
      apply ih
      · rw [turn_pacer]
        exact hkept
      · rw [turn_settings, turn_pacer]
        omega
    · next hdue => exact Bool.eq_false_iff.mpr hdue

/-- With turns of one frame, a session is over after as many turns as frames were asked for, runs no
more of them, and drops no time. -/
theorem Ready.play_frames (hfirst : first.Ready) :
    let last := play (fun _ => .frame) first.settings.frames 0 first
    Follows first last ∧ last.isDue = false ∧ last.pacer.frames ≤ last.settings.frames ∧
      last.Quiet := by
  intro last
  have hfollows : Follows first last := hfirst.follows_play _ _ 0
  refine ⟨hfollows, ?_, ?_, hfirst.quiet.play_frame _ 0⟩
  · refine isDue_play (P := fun _ => True) (fun _ p _ => ⟨trivial, ?_⟩) _ 0 trivial
      (Nat.le_add_left _ _)
    exact Nat.lt_succ_self p.frames
  · rw [hfollows.settings]
    exact frames_play_le 0 (fun _ _ => le_rfl) _ 0 (hfirst.frames.trans_le (Nat.zero_le _))

/-- A session that is over ran the frames asked for, if no fault ended it before. -/
theorem Follows.over (h : Follows first s) (hdue : s.isDue = false) :
    (s.fault = none ∧ s.settings.frames ≤ s.pacer.frames ∧
        first.pacer.machine.Sound s.pacer.frames) ∨
      ∃ i fault, s.fault = some fault ∧ s.pacer.frames = i + 1 ∧
        first.pacer.machine.FirstFault i fault := by
  cases hfault : s.fault with
  | none =>
    have hnot : ¬ s.pacer.frames < s.settings.frames := by
      intro hlt
      rw [(isDue_iff s).mpr ⟨hfault, h.halted, hlt⟩] at hdue
      cases hdue
    exact .inl ⟨rfl, Nat.not_lt.mp hnot, h.sound hfault⟩
  | some fault =>
    obtain ⟨i, hframes, hfirst⟩ := h.fault fault hfault
    exact .inr ⟨i, fault, rfl, hframes, hfirst⟩

theorem Follows.fault_of_not_sound (h : Follows first s) (hdue : s.isDue = false)
    (hle : s.pacer.frames ≤ s.settings.frames)
    (hnot : ¬ first.pacer.machine.Sound s.settings.frames) :
    ∃ i < s.settings.frames, ∃ fault, s.fault = some fault ∧
      first.pacer.machine.FirstFault i fault := by
  rcases h.over hdue with ⟨_, hge, hsound⟩ | ⟨i, fault, hfault, hframes, hfirst⟩
  · exact absurd (hsound.mono hge) hnot
  · exact ⟨i, by omega, fault, hfault, hfirst⟩

theorem Follows.frames_of_sound (h : Follows first s) (hdue : s.isDue = false)
    (hle : s.pacer.frames ≤ s.settings.frames)
    (hsound : first.pacer.machine.Sound s.settings.frames) :
    s.fault = none ∧ s.pacer.frames = s.settings.frames := by
  rcases h.over hdue with ⟨hnone, hge, _⟩ | ⟨i, fault, _, hframes, hfirst⟩
  · exact ⟨hnone, Nat.le_antisymm hle hge⟩
  · exact absurd hsound (hfirst.not_sound (by omega))

/-! ## The report of a session -/

theorem log_ofSession (s : Session) :
    (Report.ofSession s).log = logLines s.settings.verbosity (s.events ++ s.closing).toList := by
  unfold Report.ofSession
  cases s.result <;> rfl

theorem ofSession_of_fault {fault : Fault} (h : s.fault = some fault) :
    Report.ofSession s = .ofFailure (.stopped fault) (Report.ofSession s).log := by
  rw [log_ofSession, Report.ofSession, result, h]
  rfl

theorem ofSession_of_none (h : s.fault = none) :
    Report.ofSession s =
      { exitCode := 0, output := s.output, error := none, causes := [],
        log := (Report.ofSession s).log } := by
  rw [log_ofSession, Report.ofSession, result, h]
  rfl

theorem soundActive_mem_closing (s : Session) :
    Event.soundActive ∈ s.closing ↔ s.fault = none ∧ 0 < s.pacer.machine.sound.toNat := by
  rw [← Machine.hasSound_iff, closing]
  cases s.fault <;> cases s.pacer.machine.hasSound <;> simp

/-- The line about the sound is shown only for the event after the last frame. -/
theorem Follows.soundActive_line (h : Follows first s)
    (hfirst : Event.soundActive ∉ first.events.toList) :
    Event.soundActive.line ∈ (Report.ofSession s).log ↔
      1 ≤ s.settings.verbosity ∧ Event.soundActive ∈ s.closing := by
  have hevents : Event.soundActive ∉ s.events.toList := by
    intro hmem
    have hshown : Event.soundActive ∈ withoutWarnings s.events.toList :=
      List.mem_filter.mpr ⟨hmem, by decide⟩
    rw [h.events, List.mem_append] at hshown
    have hframes := Machine.level_of_mem_narrate (hshown.resolve_left hfirst)
    rcases hframes with hlevel | hlevel <;> cases hlevel
  rw [log_ofSession, soundActive_line_mem_logLines, Array.toList_append, List.mem_append,
    or_iff_right hevents, Array.mem_toList_iff]

end Session

theorem World.go_of_unpaced {s : Settings} (w : World) (h : s.realtime = false) :
    w.go s = fun _ => .frame := by
  funext k
  rw [go, h, if_neg Bool.false_ne_true]

theorem run_eq {w : World} {arguments : List String} {s : Settings} {rom : List UInt8}
    (hs : Settings.ofArguments arguments = .ok s) (hrom : w.fileAt s.path = .ok rom) :
    run w arguments = runRom w s rom := by
  rw [run, hs]
  show runSettings w s = _
  rw [runSettings, hrom]

/-- A run that is not paced by time, of a file that can be read. A program of more than 3584 bytes
is refused. Any other one is played by the session that starts: on a machine with its speed and its
random stream that loads the program and then has the keys pressed in their order, the frames asked
for are run up to the first fault. The session never finds its machine paused, and it is over after
as many turns as frames were asked for. A fault is the only cause of a failed run, and without one
the output shows the machine after its last frame. -/
theorem run_law (w : World) (arguments : List String) (s : Settings) (rom : List UInt8)
    (hs : Settings.ofArguments arguments = .ok s) (hpace : s.realtime = false)
    (hrom : w.fileAt s.path = .ok rom) :
    let report := run w arguments
    (3584 < rom.length →
      report.exitCode = 1 ∧ report.output = "" ∧
        report.error = some "Failed to load ROM into CHIP-8 memory" ∧
        report.causes = [(Fault.romTooLarge rom.length 3584).message]) ∧
    (rom.length ≤ 3584 → ∃ first, Session.start s rom w.key = .ok first ∧
      let last := first.play (w.go s) s.frames 0
      (∀ turns, (first.play (w.go s) turns 0).halted = false) ∧ last.isDue = false ∧
      ∀ before : Machine, before.speed = s.speed → before.random = { key := w.key } →
        ∃ loaded, before.load rom = .ok loaded ∧
          let m := s.keys.foldl (fun m key => m.press key.val.toUInt8) loaded
          (¬ m.Sound s.frames → ∃ i < s.frames, ∃ fault, m.FirstFault i fault ∧
            report.exitCode = 1 ∧ report.output = "" ∧
            report.error = some "Chip8 Execution error" ∧ report.causes = [fault.message]) ∧
          (m.Sound s.frames →
            let after := m.afterFrames s.frames
            report.exitCode = 0 ∧ report.error = none ∧ report.causes = [] ∧
            report.output =
              after.display.text ++ (if s.dump then after.summary ++ "\n" else "") ∧
            (Event.soundActive ∈ last.closing ↔ 0 < after.sound.toNat) ∧
            (Event.soundActive.line ∈ report.log ↔
              1 ≤ s.verbosity ∧ 0 < after.sound.toNat))) := by
  intro report
  have hreport : report = runRom w s rom := run_eq hs hrom
  refine ⟨fun hlarge => ?_, fun hfit => ?_⟩
  · rw [hreport, runRom, Session.start_eq, if_neg (Nat.not_le.mpr hlarge)]
    exact ⟨rfl, rfl, rfl, rfl⟩
  obtain ⟨hmin, hmax⟩ := Settings.speed_of_ofArguments hs
  obtain ⟨first, hstart, hset, hevents, hmachine⟩ := Session.exists_start hfit hmin hmax w.key
  refine ⟨first, hstart, ?_⟩
  intro last
  obtain ⟨hready, _⟩ := Session.ready_start hstart
  obtain ⟨hlast, hdue, hle, _⟩ : Session.Follows first last ∧ _ := by
    have hplay := hready.play_frames
    rw [hset, ← w.go_of_unpaced hpace] at hplay
    exact hplay
  have hsettings : last.settings = s := hlast.settings.trans hset
  have hsession : report = .ofSession last := by rw [hreport, runRom, hstart]
  have hhalted := fun turns => (hready.follows_play (w.go s) turns 0).halted
  refine ⟨hhalted, hdue, fun before hspeed hrandom => ?_⟩
  refine ⟨Machine.boot rom s.speed { key := w.key }, ?_, ?_⟩
  · rw [Machine.load, hspeed, hrandom]
    exact if_pos hfit
  rw [← hmachine, ← hsettings]
  refine ⟨fun hnot => ?_, fun hsound => ?_⟩
  · obtain ⟨i, hi, fault, hfault, hfirst⟩ := hlast.fault_of_not_sound hdue hle hnot
    rw [hsession, Session.ofSession_of_fault hfault]
    exact ⟨i, hi, fault, hfirst, rfl, rfl, rfl, rfl⟩
  · obtain ⟨hnone, hframes⟩ := hlast.frames_of_sound hdue hle hsound
    have hafter : last.pacer.machine = first.pacer.machine.afterFrames last.settings.frames :=
      hframes ▸ hlast.machine
    have hopening : Event.soundActive ∉ first.events.toList := by
      rw [hevents]
      simp [Session.opening]
    have hclosing := Session.soundActive_mem_closing last
    rw [and_iff_right hnone, hafter] at hclosing
    have hline := hlast.soundActive_line hopening
    rw [hclosing, ← hsession] at hline
    obtain ⟨hexit, herror, hcauses, houtput⟩ : report.exitCode = 0 ∧ report.error = none ∧
        report.causes = [] ∧ report.output = last.output := by
      rw [hsession, Session.ofSession_of_none hnone]
      exact ⟨rfl, rfl, rfl, rfl⟩
    refine ⟨hexit, herror, hcauses, ?_, hclosing, hline⟩
    rw [houtput, Session.output, hafter]

/-- A program that starts a tone and then jumps to itself is run for three frames; a return without
a call ends a run, and a program of a byte too many starts none. -/
theorem run_law_tone :
    let w : World :=
      { fileAt := fun path =>
          .ok (if path = "tone" then [0x60, 0x05, 0xF0, 0x18, 0x12, 0x04]
            else if path = "stray" then [0x00, 0xEE] else List.replicate 3585 0)
        key := .ofSeed 0
        interval := fun _ => 1
        frameStep_le_interval := fun _ => Pacer.frameStep_le_one }
    let tone := run w ["tone", "-s", "2", "-f", "3", "-k", "A", "-v"]
    let stray := run w ["stray"]
    let large := run w ["large"]
    (tone.exitCode = 0 ∧ Event.soundActive.line ∈ tone.log) ∧
      (stray.exitCode = 1 ∧ stray.causes = [Fault.stackUnderflow.message]) ∧
      large.causes = [(Fault.romTooLarge 3585 3584).message] := by
  intro w tone stray large
  have htone := run_law w ["tone", "-s", "2", "-f", "3", "-k", "A", "-v"]
    { path := "tone", speed := 2, frames := 3, keys := [10], verbosity := 1 }
    [0x60, 0x05, 0xF0, 0x18, 0x12, 0x04] rfl rfl rfl
  have hstray := run_law w ["stray"] { path := "stray" } [0x00, 0xEE] rfl rfl rfl
  have hlarge := run_law w ["large"] { path := "large" } (List.replicate 3585 0) rfl rfl rfl
  refine ⟨?_, ?_, ?_⟩
  · obtain ⟨_, _, _, _, hplay⟩ := htone.2 (by decide)
    obtain ⟨loaded, hload, _, hsound⟩ := hplay ((Machine.ofSeed 0).setSpeed 2) rfl rfl
    obtain rfl := Except.ok.inj ((if_pos (by decide)).symm.trans hload)
    have hran : (∀ i < 3, (Machine.afterFrames
        ((Machine.boot [0x60, 0x05, 0xF0, 0x18, 0x12, 0x04] 2 { key := .ofSeed 0 }).press 10)
          i).cycle.1 = .ok .ran) ∧ 0 < (Machine.afterFrames
        ((Machine.boot [0x60, 0x05, 0xF0, 0x18, 0x12, 0x04] 2 { key := .ofSeed 0 }).press 10)
          3).sound.toNat := by
      decide +kernel
    obtain ⟨hexit, _, _, _, _, hline⟩ := hsound fun i hi => ⟨.ran, hran.1 i hi⟩
    exact ⟨hexit, hline.mpr ⟨by decide, hran.2⟩⟩
  · obtain ⟨_, _, _, _, hplay⟩ := hstray.2 (by decide)
    obtain ⟨loaded, hload, hfault, _⟩ := hplay (Machine.ofSeed 0) rfl rfl
    obtain rfl := Except.ok.inj ((if_pos (by decide)).symm.trans hload)
    have hfirst : (Machine.boot [0x00, 0xEE] 1 { key := .ofSeed 0 }).FirstFault 0 .stackUnderflow :=
      ⟨fun _ hi => absurd hi (Nat.not_lt_zero _), by decide +kernel⟩
    obtain ⟨i, _, fault, hthis, hexit, _, _, hcauses⟩ := hfault (hfirst.not_sound (by decide))
    obtain rfl := (hfirst.unique hthis).2
    exact ⟨hexit, hcauses⟩
  · rw [List.length_replicate] at hlarge
    exact (hlarge.1 (by decide)).2.2.2

end CommandLine

end Chip8
