import Chip8.Proofs.Logs

/-!
# Sessions in real time

A session looks at the frames it was asked for before a turn, and in real time a turn may run eight
of them. So the last turn may take it up to seven frames too far (`realtime_law`), and a turn that
comes late does (`realtime_overrun`): what is printed then is the display of a later frame. Apart
from that, pacing by time adds nothing but warnings of time that was dropped, and a session that did
not go too far leaves the report of the one that is not paced at all.

As no interval is shorter than a frame, every turn runs one at least, and a session in real time is
over after as many turns as frames (`run_over`). That needs the sums of times to keep their order
when they are rounded.
-/

namespace Chip8.CommandLine

/-! ## Reports without warnings -/

theorem filter_warn_logLines (verbosity : Nat) (events : List Event) :
    (logLines verbosity events).filter (fun line => ¬ Level.warn.Heads line) =
      logLines verbosity (withoutWarnings events) := by
  rw [logLines_eq_shown, logLines_eq_shown, Entry.filter_heads_shown, List.filter_map]
  rfl

/-- The report but for the lines that warn of time that was dropped. -/
def Report.withoutWarnings (r : Report) : Report :=
  { r with log := r.log.filter fun line => ¬ Level.warn.Heads line }

theorem Report.withoutWarnings_ofResult (log : List String) (result : Except Failure String) :
    (ofResult log result).withoutWarnings =
      ofResult (log.filter fun line => ¬ Level.warn.Heads line) result := by
  cases result <;> rfl

theorem Event.level_eq_warn_iff {e : Event} : e.level = .warn ↔ ∃ time, e = .dropping time := by
  cases e <;> simp [level]

namespace Session

variable {first s t : Session} {go : Nat → Turn}

theorem quiet_iff : s.Quiet ↔ ∀ time, Event.dropping time ∉ s.events := by
  constructor
  · intro h time hmem
    exact h _ (Array.mem_toList_iff.mpr hmem) rfl
  · intro h e he hwarn
    obtain ⟨time, rfl⟩ := Event.level_eq_warn_iff.mp hwarn
    exact h time (Array.mem_toList_iff.mp he)

/-! ## Sessions of one machine -/

theorem output_of_not_dump (h : s.settings.dump = false) :
    s.output = s.pacer.machine.display.text := by
  rw [output, h, if_neg Bool.false_ne_true, String.append_empty]

/-- Sessions of one machine that ran as many frames met the same fault, if they met one. -/
theorem Follows.fault_eq (hs : Follows first s) (ht : Follows first t)
    (hframes : s.pacer.frames = t.pacer.frames) : s.fault = t.fault := by
  cases hsf : s.fault with
  | none =>
    cases htf : t.fault with
    | none => rfl
    | some fault =>
      obtain ⟨i, hi, hfirst⟩ := ht.fault fault htf
      exact absurd (hs.sound hsf) (hfirst.not_sound (by omega))
  | some fault =>
    obtain ⟨i, hi, hfirst⟩ := hs.fault fault hsf
    cases htf : t.fault with
    | none => exact absurd (ht.sound htf) (hfirst.not_sound (by omega))
    | some other =>
      obtain ⟨j, hj, hother⟩ := ht.fault other htf
      rw [(hfirst.unique hother).2]

theorem withoutWarnings_closing (s : Session) :
    withoutWarnings s.closing.toList = s.closing.toList := by
  rw [closing]
  split <;> rfl

theorem withoutWarnings_ofSession (s : Session) :
    (Report.ofSession s).withoutWarnings = .ofResult
      (logLines s.settings.verbosity (withoutWarnings s.events.toList ++ s.closing.toList))
      s.result := by
  rw [Report.ofSession, Report.withoutWarnings_ofResult, filter_warn_logLines,
    Array.toList_append, withoutWarnings_append, withoutWarnings_closing]

theorem Quiet.withoutWarnings_ofSession (h : s.Quiet) :
    (Report.ofSession s).withoutWarnings = .ofSession s := by
  rw [Session.withoutWarnings_ofSession, withoutWarnings_eq_self.mpr h, ← Array.toList_append]
  rfl

/-- Sessions of one machine that ran as many frames leave reports that differ in warnings only. -/
theorem Follows.report_eq (hs : Follows first s) (ht : Follows first t)
    (hframes : s.pacer.frames = t.pacer.frames) :
    (Report.ofSession s).withoutWarnings = (Report.ofSession t).withoutWarnings := by
  have hsettings : s.settings = t.settings := hs.settings.trans ht.settings.symm
  have hmachine : s.pacer.machine = t.pacer.machine := by rw [hs.machine, ht.machine, hframes]
  have hfault := hs.fault_eq ht hframes
  have hclosing : s.closing = t.closing := by rw [closing, closing, hfault, hmachine]
  have hresult : s.result = t.result := by
    rw [result, result, output, output, hfault, hmachine, hsettings]
  rw [withoutWarnings_ofSession, withoutWarnings_ofSession, hsettings, hs.events, ht.events,
    hframes, hclosing, hresult]

/-- Sessions of one machine that are over, and did not go too far, ran as many frames. -/
theorem Follows.frames_eq (hs : Follows first s) (ht : Follows first t)
    (hsdue : s.isDue = false) (htdue : t.isDue = false)
    (hsle : s.pacer.frames ≤ s.settings.frames) (htle : t.pacer.frames ≤ t.settings.frames) :
    s.pacer.frames = t.pacer.frames := by
  have hsettings : s.settings = t.settings := hs.settings.trans ht.settings.symm
  rw [hsettings] at hsle
  rcases hs.over hsdue with ⟨_, hsge, hssound⟩ | ⟨i, fault, _, hsframes, hfirst⟩
  · rw [hsettings] at hsge
    rcases ht.over htdue with ⟨_, htge, _⟩ | ⟨j, other, _, htframes, hother⟩
    · omega
    · exact absurd hssound (hother.not_sound (by omega))
  · rcases ht.over htdue with ⟨_, htge, htsound⟩ | ⟨j, other, _, htframes, hother⟩
    · exact absurd htsound (hfirst.not_sound (by omega))
    · rw [hsframes, htframes, (hfirst.unique hother).1]

/-! ## Turns one by one -/

/-- The last turn comes after all the others. -/
theorem play_succ (go : Nat → Turn) (turns k : Nat) (s : Session) :
    play go (turns + 1) k s =
      if (play go turns k s).isDue then (play go turns k s).turn (go (k + turns))
      else play go turns k s := by
  induction turns generalizing k s with
  | zero => rfl
  | succ turns ih =>
    rw [play]
    split
    · next hdue =>
      rw [ih, play, if_pos hdue, Nat.add_right_comm, Nat.add_assoc]
    · next hdue => rw [play, if_neg hdue, if_neg hdue]

/-- A session of which no turn runs more than one frame does not go too far. -/
theorem frames_play_le_of_steps {turns k : Nat}
    (hsteps : ∀ i < turns,
      (play go (i + 1) k s).pacer.frames ≤ (play go i k s).pacer.frames + 1)
    (hs : s.pacer.frames ≤ s.settings.frames) :
    (play go turns k s).pacer.frames ≤ s.settings.frames := by
  induction turns with
  | zero => exact hs
  | succ turns ih =>
    have hlast := hsteps turns (Nat.lt_succ_self turns)
    have hbefore := ih fun i hi => hsteps i (Nat.lt_succ_of_lt hi)
    rw [play_succ] at hlast ⊢
    split at hlast
    · next hdue =>
      obtain ⟨_, _, hlt⟩ := (isDue_iff _).mp hdue
      rw [play_settings] at hlt
      rw [if_pos hdue]
      omega
    · next hdue =>
      rw [if_neg hdue]
      exact hbefore

theorem dropping_mem_turn {turn : Turn} {time : Float32} :
    Event.dropping time ∈ (s.turn turn).events ↔
      Event.dropping time ∈ s.events ∨ turn.dropped? s.pacer = some time := by
  have hframes : ∀ n, Event.dropping time ∉ s.pacer.machine.narrate n := by
    intro n hmem
    rcases Machine.level_of_mem_narrate hmem with hlevel | hlevel <;> cases hlevel
  rw [← Array.mem_toList_iff, turn_events, List.mem_append, Turn.events, List.mem_append,
    or_iff_right (hframes _), Array.mem_toList_iff]
  simp

/-- The log warns of the time that the turns dropped, and of nothing else. -/
theorem dropping_mem_play {time : Float32} (hs : s.Quiet) (turns k : Nat) :
    Event.dropping time ∈ (play go turns k s).events ↔
      ∃ i < turns, (play go i k s).isDue = true ∧
        (go (k + i)).dropped? (play go i k s).pacer = some time := by
  induction turns with
  | zero => simp [play, quiet_iff.mp hs time]
  | succ turns ih =>
    rw [Nat.exists_lt_succ_right, ← ih, play_succ]
    by_cases hdue : (play go turns k s).isDue = true
    · rw [if_pos hdue, dropping_mem_turn, and_iff_right hdue]
    · simp [hdue]

/-! ## Sessions in real time -/

/-- If no interval is shorter than a frame, as many turns as frames are enough. -/
theorem Ready.isDue_play_interval {interval : Nat → Float32} {turns : Nat} (h : first.Ready)
    (hinterval : ∀ k, Pacer.frameStep ≤ interval k) (hturns : first.settings.frames ≤ turns) :
    (play (fun k => .interval (interval k)) turns 0 first).isDue = false := by
  have hgo : ∀ (k : Nat) (p : Pacer), 0 ≤ p.owed →
      0 ≤ ((Turn.interval (interval k)).run p).2.owed ∧
        p.frames < ((Turn.interval (interval k)).run p).2.frames :=
    fun k p hp => Pacer.update_of_frameStep_le hp (hinterval k)
  have howed : 0 ≤ first.pacer.owed := by
    rw [h.owed]
    decide +kernel
  exact isDue_play (P := fun p => 0 ≤ p.owed) hgo turns 0 howed
    (hturns.trans (Nat.le_add_left _ _))

end Session

theorem World.go_of_paced {s : Settings} (w : World) (h : s.realtime = true) :
    w.go s = fun k => .interval (w.interval k) := by
  funext k
  rw [go, h, if_pos rfl]

/-- A run, in real time or not, of a program that fits is reported when it is over. -/
theorem run_over {w : World} {arguments : List String} {s : Settings} {rom : List UInt8}
    (hs : Settings.ofArguments arguments = .ok s) (hrom : w.fileAt s.path = .ok rom)
    (hfit : rom.length ≤ 3584) :
    ∃ first, Session.start s rom w.key = .ok first ∧
      let last := first.play (w.go s) s.frames 0
      run w arguments = .ofSession last ∧ last.isDue = false := by
  obtain ⟨hmin, hmax⟩ := Settings.speed_of_ofArguments hs
  obtain ⟨first, hstart, rfl, _⟩ := Session.exists_start hfit hmin hmax w.key
  obtain ⟨hready, _⟩ := Session.ready_start hstart
  refine ⟨first, hstart, ?_, ?_⟩
  · rw [run_eq hs hrom, runRom, hstart]
  · cases hpace : first.settings.realtime with
    | true =>
      rw [w.go_of_paced hpace]
      exact hready.isDue_play_interval w.frameStep_le_interval le_rfl
    | false =>
      rw [w.go_of_unpaced hpace]
      exact hready.play_frames.2.1

/-- A session that is paced by intervals of any lengths, after any number of turns. It follows its
machine frame by frame and never finds it paused; once it is over, it ran at least the frames asked
for, unless it met the first fault, and at most seven more. If it ran no more, the report is the one
without pacing but for warnings, and these tell the times that turns dropped. It runs no more if no
turn runs more than one frame, and it is over after as many turns as frames if no interval is
shorter than a frame. -/
theorem realtime_law (s : Settings) (rom : List UInt8) (key : Random.Key) (first : Session)
    (hstart : Session.start s rom key = .ok first) (interval : Nat → Float32) (turns : Nat) :
    let after := fun k => first.play (fun i => .interval (interval i)) k 0
    let unpaced := first.play (fun _ => .frame) s.frames 0
    let m := first.pacer.machine
    let last := after turns
    let n := last.pacer.frames
    last.halted = false ∧ last.pacer.machine = m.afterFrames n ∧
    n ≤ s.frames + 7 ∧ (s.frames = 0 → n = 0) ∧
    (last.isDue = false →
      (last.fault = none ∧ s.frames ≤ n ∧ m.Sound n) ∨
        ∃ i fault, last.fault = some fault ∧ n = i + 1 ∧ m.FirstFault i fault) ∧
    (last.isDue = false → n ≤ s.frames →
      (Report.ofSession last).withoutWarnings = .ofSession unpaced ∧
        ((∀ time, Event.dropping time ∉ last.events) →
          Report.ofSession last = .ofSession unpaced)) ∧
    (∀ time, Event.dropping time ∈ last.events ↔
      ∃ k < turns, (after k).isDue = true ∧ (after k).pacer.dropped? (interval k) = some time) ∧
    ((∀ k < turns, (after (k + 1)).pacer.frames ≤ (after k).pacer.frames + 1) → n ≤ s.frames) ∧
    ((∀ k, Pacer.frameStep ≤ interval k) → s.frames ≤ turns → last.isDue = false) := by
  intro after unpaced m last n
  obtain ⟨hready, rfl⟩ := Session.ready_start hstart
  have hlast : Session.Follows first last := hready.follows_play _ turns 0
  obtain ⟨hunpaced, hunpacedDue, hunpacedLe, hunpacedQuiet⟩ := hready.play_frames
  have hsettings : last.settings = first.settings := hlast.settings
  have hfirst : first.pacer.frames ≤ first.settings.frames := hready.frames.trans_le (Nat.zero_le _)
  have hreport : last.isDue = false → n ≤ first.settings.frames →
      (Report.ofSession last).withoutWarnings = .ofSession unpaced := by
    intro hdue hle
    have hframes := hlast.frames_eq hunpaced hdue hunpacedDue (hsettings ▸ hle) hunpacedLe
    rw [hlast.report_eq hunpaced hframes, hunpacedQuiet.withoutWarnings_ofSession]
  refine ⟨hlast.halted, hlast.machine, ?_, ?_, ?_, ?_, ?_, ?_, ?_⟩
  · refine Session.frames_play_le 7 (fun k p => ?_) turns 0 (hfirst.trans (Nat.le_add_right _ _))
    obtain ⟨i, hi, hleads⟩ := p.leads_update (interval k)
    exact hleads.frames.trans_le (Nat.add_le_add_left hi _)
  · intro hnone
    have hnot : ¬ first.isDue = true := by
      rw [Session.isDue_iff, hnone]
      exact fun h => Nat.not_lt_zero _ h.2.2
    show (first.play _ turns 0).pacer.frames = 0
    rw [Session.play_of_not_due hnot, hready.frames]
  · intro hdue
    exact hsettings ▸ hlast.over hdue
  · intro hdue hle
    refine ⟨hreport hdue hle, fun hquiet => ?_⟩
    rw [← hreport hdue hle, (Session.quiet_iff.mpr hquiet).withoutWarnings_ofSession]
  · intro time
    have hwarned : Event.dropping time ∈ last.events ↔ _ :=
      Session.dropping_mem_play hready.quiet turns 0
    simp only [Nat.zero_add] at hwarned
    exact hwarned
  · exact fun hsteps => Session.frames_play_le_of_steps hsteps hfirst
  · exact fun hinterval hturns => hready.isDue_play_interval hinterval hturns

/-- Eight frames are asked for, and a second goes by at once: one turn runs all eight and drops the
rest of the second, of which the log warns. -/
theorem realtime_law_exact :
    let rom : List UInt8 := [0xD0, 0x05, 0xD0, 0x05, 0x12, 0x04]
    let s : Settings := { path := "rom", frames := 8, realtime := true }
    let first : Session :=
      { settings := s
        pacer := { machine := Machine.boot rom 1 { key := .ofSeed 0 } }
        events := Session.opening s rom }
    let last := first.play (fun _ => .interval 1) 1 0
    let unpaced := first.play (fun _ => .frame) 8 0
    Session.start s rom (.ofSeed 0) = .ok first ∧ last.isDue = false ∧ last.pacer.frames = 8 ∧
      (Report.ofSession last).withoutWarnings = .ofSession unpaced ∧
      (Report.ofSession last).log = ["WARN Dropping 0.867s of frame backlog"] := by
  intro rom s first last unpaced
  have hlast : last.isDue = false ∧ last.pacer.frames = 8 ∧
      (Report.ofSession last).log = ["WARN Dropping 0.867s of frame backlog"] := by
    decide +kernel
  obtain ⟨hdue, hframes, hlog⟩ := hlast
  obtain ⟨_, _, _, _, _, hreport, _⟩ := realtime_law s rom (.ofSeed 0) first rfl (fun _ => 1) 1
  exact ⟨rfl, hdue, hframes, (hreport hdue hframes.le).1, hlog⟩

/-- One frame is asked for, and a second goes by at once: one turn runs eight frames, and the glyph
that the first of them draws is gone from the output. -/
theorem realtime_overrun :
    let rom : List UInt8 := [0xD0, 0x05, 0xD0, 0x05, 0x12, 0x04]
    let w : World :=
      { fileAt := fun _ => .ok rom
        key := .ofSeed 0
        interval := fun _ => 1
        frameStep_le_interval := fun _ => Pacer.frameStep_le_one }
    let s : Settings := { path := "rom", frames := 1 }
    let first : Session :=
      { settings := s
        pacer := { machine := Machine.boot rom 1 { key := .ofSeed 0 } }
        events := Session.opening s rom }
    let timed : Session := { first with settings := { s with realtime := true } }
    let last := timed.play (fun _ => .interval 1) 1 0
    let unpaced := first.play (fun _ => .frame) 1 0
    run w ["rom", "-f", "1", "--realtime"] = .ofSession last ∧
      run w ["rom", "-f", "1"] = .ofSession unpaced ∧
      last.isDue = false ∧ last.fault = none ∧ last.pacer.frames = 8 ∧
      unpaced.pacer.frames = 1 ∧ last.output ≠ unpaced.output := by
  intro rom w s first timed last unpaced
  have hlast : last.isDue = false ∧ last.fault = none ∧ last.pacer.frames = 8 ∧
      unpaced.pacer.frames = 1 ∧ last.settings.dump = false ∧ unpaced.settings.dump = false ∧
      (last.pacer.machine.display.rows.toList.flatMap Display.lineOf).head? ≠
        (unpaced.pacer.machine.display.rows.toList.flatMap Display.lineOf).head? := by
    decide +kernel
  obtain ⟨hdue, hfault, hframes, hone, hdump, hplain, hhead⟩ := hlast
  refine ⟨rfl, rfl, hdue, hfault, hframes, hone, fun houtput => hhead ?_⟩
  rw [Session.output_of_not_dump hdump, Session.output_of_not_dump hplain] at houtput
  rw [String.ofList_inj.mp houtput]

end Chip8.CommandLine
