import Chip8.Proofs.Sessions

/-!
# Logs

What the log of a run says, line by line (`Entry`). Each frame tells the address and the word that
it fetched, whether its instruction is carried out, waits or faults, and tells nothing else but the
fault. A frame without a fault fetched a word, so only the last line of the trace can be missing
(`getElem?_fetches`), and the fault comes after it.

* `narrate_of_sound`, `narrate_of_firstFault`: what frames tell, up to the first fault.
* `log_law`: the lines of a run that is not paced by time. A lower verbosity leaves lines out, and
  the line of a fault is always there.
-/

namespace Chip8

open CommandLine (Event)

namespace Machine

variable {m : Machine} {n i : Nat} {fault : Fault}

/-! ## What frames fetch -/

theorem fetch_eq_ok_iff {word : UInt16} : m.fetch = .ok word ↔ m.WordAtPc word :=
  ⟨fun h => (wordAtPc_of_fetch h).1, fetch_of_wordAtPc⟩

/-- The program counter and the word there, if there is one. -/
def fetched (m : Machine) : Option (UInt16 × UInt16) := m.fetch.toOption.map (m.pc, ·)

theorem fetched_eq_some_iff {pc word : UInt16} :
    m.fetched = some (pc, word) ↔ m.pc = pc ∧ m.WordAtPc word := by
  rw [← fetch_eq_ok_iff, fetched]
  cases m.fetch <;> simp [Except.toOption]

theorem fetched_eq_none_iff : m.fetched = none ↔ ¬ ∃ word, m.WordAtPc word := by
  rw [Option.eq_none_iff_forall_ne_some]
  constructor
  · rintro h ⟨word, hw⟩
    exact h _ (fetched_eq_some_iff.mpr ⟨rfl, hw⟩)
  · rintro h ⟨pc, word⟩ hf
    exact h ⟨word, (fetched_eq_some_iff.mp hf).2⟩

/-- A frame with an outcome fetched a word, as counting the frame moves nothing that is fetched. -/
theorem exists_fetched {outcome : Outcome} (hp : m.paused = false)
    (hc : m.cycle.1 = .ok outcome) : ∃ f, m.fetched = some f := by
  have hrests := m.rests_countFrame
  obtain ⟨word, hw, _⟩ := exists_of_step_ok (hrests.paused.trans hp) hc
  have hat : m.WordAtPc word := by
    obtain ⟨high, low, hhigh, hlow, hword⟩ := fetch_eq_ok_iff.mp hw
    rw [hrests.memory, hrests.pc] at hhigh hlow
    exact ⟨high, low, hhigh, hlow, hword⟩
  exact ⟨_, fetched_eq_some_iff.mpr ⟨rfl, hat⟩⟩

/-- What the first `n` frames fetch, in order. -/
def fetches (m : Machine) (n : Nat) : List (UInt16 × UInt16) :=
  (List.range n).filterMap fun i => (m.afterFrames i).fetched

theorem fetches_succ (m : Machine) (n : Nat) :
    m.fetches (n + 1) = m.fetches n ++ (m.afterFrames n).fetched.toList := by
  rw [fetches, List.range_succ, List.filterMap_append]
  congr 1

theorem length_fetches (hp : m.paused = false) (h : m.Sound n) : (m.fetches n).length = n := by
  induction n with
  | zero => rfl
  | succ n ih =>
    have hbefore := h.mono (Nat.le_succ n)
    obtain ⟨outcome, hok⟩ := h n (Nat.lt_succ_self n)
    obtain ⟨f, hf⟩ := exists_fetched (hbefore.paused hp) hok
    rw [fetches_succ, List.length_append, ih hbefore, hf]
    rfl

/-- A last frame after sound ones adds a word exactly if it fetches one. -/
theorem fetches_last (hp : m.paused = false) (h : m.Sound n) :
    ((∃ word, (m.afterFrames n).WordAtPc word) →
      (m.fetches (n + 1)).length = n + 1 ∧
        ∃ word, (m.fetches (n + 1)).getLast? = some ((m.afterFrames n).pc, word)) ∧
    ((¬ ∃ word, (m.afterFrames n).WordAtPc word) → (m.fetches (n + 1)).length = n) := by
  rw [fetches_succ]
  constructor
  · rintro ⟨word, hw⟩
    rw [fetched_eq_some_iff.mpr ⟨rfl, hw⟩, Option.toList_some, List.length_append,
      length_fetches hp h]
    exact ⟨rfl, word, List.getLast?_concat⟩
  · intro hnone
    rw [fetched_eq_none_iff.mpr hnone, Option.toList_none, List.append_nil, length_fetches hp h]

/-- Up to the first fault, entry `i` of the list is what frame `i` fetches. -/
theorem getElem?_fetches (hp : m.paused = false) (h : m.Sound (n - 1)) (i : Nat) :
    (m.fetches n)[i]? = if i < n then (m.afterFrames i).fetched else none := by
  induction n with
  | zero => rfl
  | succ n ih =>
    have hlength : (m.fetches n).length = n := length_fetches hp h
    have hbefore := ih (h.mono (Nat.sub_le n 1))
    rw [fetches_succ]
    rcases Nat.lt_trichotomy i n with hlt | rfl | hgt
    · rw [List.getElem?_append_left (hlt.trans_eq hlength.symm), hbefore, if_pos hlt,
        if_pos (hlt.trans (Nat.lt_succ_self n))]
    · rw [List.getElem?_append_right hlength.le, hlength, Nat.sub_self,
        if_pos (Nat.lt_succ_self i)]
      cases (m.afterFrames i).fetched <;> rfl
    · rw [if_neg (by omega), List.getElem?_eq_none]
      rw [List.length_append, hlength]
      have hone : (m.afterFrames n).fetched.toList.length ≤ 1 := by
        cases (m.afterFrames n).fetched <;> simp
      omega

/-! ## What frames tell -/

/-- The events of words that were fetched. -/
def fetchEvents (words : List (UInt16 × UInt16)) : List Event :=
  words.map fun f => .fetched f.1 f.2

theorem stepEvents_of_ok {outcome : Outcome} (hp : m.paused = false) :
    m.stepEvents (.ok outcome) = fetchEvents m.fetched.toList := by
  rw [stepEvents, hp, if_neg Bool.false_ne_true, fetched]
  cases m.fetch <;> rfl

theorem stepEvents_of_error (hp : m.paused = false) :
    m.stepEvents (.error fault) = fetchEvents m.fetched.toList ++ [.pausing m.pc fault] := by
  rw [stepEvents, hp, if_neg Bool.false_ne_true, fetched]
  cases m.fetch <;> rfl

theorem narrate_succ_last (m : Machine) (n : Nat) :
    m.narrate (n + 1) = m.narrate n ++ (m.afterFrames n).stepEvents (m.afterFrames n).cycle.1 := by
  rw [narrate_add, narrate_succ]
  exact congrArg _ (List.append_nil _)

theorem fetchEvents_fetches_succ (m : Machine) (n : Nat) :
    fetchEvents (m.fetches (n + 1)) =
      fetchEvents (m.fetches n) ++ fetchEvents (m.afterFrames n).fetched.toList := by
  rw [fetches_succ]
  exact List.map_append

theorem narrate_of_sound (hp : m.paused = false) (h : m.Sound n) :
    m.narrate n = fetchEvents (m.fetches n) := by
  induction n with
  | zero => rfl
  | succ n ih =>
    have hbefore := h.mono (Nat.le_succ n)
    obtain ⟨outcome, hok⟩ := h n (Nat.lt_succ_self n)
    rw [narrate_succ_last, ih hbefore, hok, stepEvents_of_ok (hbefore.paused hp),
      fetchEvents_fetches_succ]

theorem narrate_of_firstFault (hp : m.paused = false) (h : m.FirstFault i fault) :
    m.narrate (i + 1) =
      fetchEvents (m.fetches (i + 1)) ++ [.pausing (m.afterFrames i).pc fault] := by
  rw [narrate_succ_last, narrate_of_sound hp h.before, h.answer,
    stepEvents_of_error (h.before.paused hp), fetchEvents_fetches_succ, List.append_assoc]

end Machine

namespace CommandLine

/-! ## Lines -/

/-- A line of the log: its level and its text. -/
structure Entry where
  level : Level
  text : String

namespace Entry

def line (e : Entry) : String := e.level.name ++ " " ++ e.text

/-- The lines before the first frame. -/
def opening (s : Settings) (size : Nat) : List Entry :=
  [⟨.debug, "Speed set to " ++ toString s.speed⟩,
    ⟨.debug, "Loaded " ++ toString size ++ " byte ROM at 0x200"⟩,
    ⟨.info, "Running " ++ s.path ++ " for " ++ toString s.frames ++ " frames at speed " ++
      toString s.speed⟩]

/-- The line of a word that was fetched, with its address. -/
def fetched (f : UInt16 × UInt16) : Entry :=
  ⟨.trace, "0x" ++ Numeral.hex 4 f.1.toNat ++ ": " ++ Numeral.hex 4 f.2.toNat⟩

/-- The line of a fault, with the address of the instruction that met it. -/
def pausing (pc : UInt16) (fault : Fault) : Entry :=
  ⟨.error, "Pausing at PC 0x" ++ Numeral.hex 4 pc.toNat ++ ": " ++ fault.message⟩

def soundActive : Entry := ⟨.info, "Sound timer still active"⟩

/-- The lines that a run of the given verbosity shows. -/
def shown (verbosity : Nat) (entries : List Entry) : List String :=
  (entries.filter fun e => e.level.verbosity ≤ verbosity).map line

end Entry

def Event.entry (e : Event) : Entry := ⟨e.level, e.text⟩

/-- The line begins with the name of the level. -/
def Level.Heads (l : Level) (line : String) : Prop := (l.name ++ " ").toList <+: line.toList

instance (l : Level) (line : String) : Decidable (l.Heads line) :=
  inferInstanceAs (Decidable (_ <+: _))

theorem logLines_eq_shown (verbosity : Nat) (events : List Event) :
    logLines verbosity events = Entry.shown verbosity (events.map Event.entry) := by
  rw [logLines, Entry.shown, List.filter_map, List.map_map]
  rfl

namespace Entry

variable {verbosity : Nat} {entries front ending : List Entry} {l : Level}

theorem shown_append (verbosity : Nat) (front ending : List Entry) :
    shown verbosity (front ++ ending) = shown verbosity front ++ shown verbosity ending := by
  rw [shown, List.filter_append, List.map_append]
  rfl

theorem shown_of_three_le (h : 3 ≤ verbosity) (entries : List Entry) :
    shown verbosity entries = entries.map line := by
  rw [shown, List.filter_eq_self.mpr]
  intro e _
  refine decide_eq_true (Nat.le_trans ?_ h)
  cases e.level <;> decide

/-- The names of the levels differ in their first letters. -/
theorem level_eq_of_append {l l' : Level} {rest rest' : List Char}
    (h : (l.name ++ " ").toList ++ rest = (l'.name ++ " ").toList ++ rest') : l = l' := by
  have hletter : ∀ (l : Level) (rest : List Char),
      ((l.name ++ " ").toList ++ rest).head? = l.name.toList.head? := by
    intro l rest
    cases l <;> rfl
  have hhead := congrArg List.head? h
  rw [hletter, hletter] at hhead
  revert hhead
  cases l <;> cases l' <;> decide

theorem heads_line (l : Level) (e : Entry) : l.Heads e.line ↔ e.level = l := by
  obtain ⟨level, text⟩ := e
  have hline : (line ⟨level, text⟩).toList = (level.name ++ " ").toList ++ text.toList :=
    String.toList_append
  rw [Level.Heads, hline]
  constructor
  · rintro ⟨rest, hrest⟩
    exact (level_eq_of_append hrest).symm
  · rintro rfl
    exact List.prefix_append _ _

theorem exists_heads_shown :
    (∃ line ∈ shown verbosity entries, l.Heads line) ↔
      l.verbosity ≤ verbosity ∧ ∃ e ∈ entries, e.level = l := by
  constructor
  · rintro ⟨_, hline, hl⟩
    obtain ⟨e, he, rfl⟩ := List.mem_map.mp hline
    obtain ⟨hmem, hshown⟩ := List.mem_filter.mp he
    obtain rfl := (heads_line l e).mp hl
    exact ⟨of_decide_eq_true hshown, e, hmem, rfl⟩
  · rintro ⟨hshown, e, hmem, rfl⟩
    exact ⟨e.line, List.mem_map_of_mem (List.mem_filter.mpr ⟨hmem, decide_eq_true hshown⟩),
      (heads_line _ e).mpr rfl⟩

/-- The lines of a level can be told from the others, so they can be left out. -/
theorem filter_heads_shown (l : Level) (verbosity : Nat) (entries : List Entry) :
    (shown verbosity entries).filter (fun line => ¬ l.Heads line) =
      shown verbosity (entries.filter fun e => e.level ≠ l) := by
  rw [shown, shown, List.filter_map, List.filter_filter, List.filter_filter]
  congr 1
  refine List.filter_congr fun e _ => ?_
  simp [heads_line, Bool.and_comm]

/-- If only the last line of a log can be of a level, a line of the level is the last one. -/
theorem succ_eq_length_of_heads {i : Nat} {line : String} (hfront : ∀ e ∈ front, e.level ≠ l)
    (hending : ending.length ≤ 1) (hi : (shown verbosity (front ++ ending))[i]? = some line)
    (hl : l.Heads line) : i + 1 = (shown verbosity (front ++ ending)).length := by
  rw [shown_append] at hi ⊢
  have hshort : (shown verbosity ending).length ≤ 1 := by
    rw [shown, List.length_map]
    exact (List.length_filter_le _ _).trans hending
  have hlt := (List.getElem?_eq_some_iff.mp hi).1
  have hge : (shown verbosity front).length ≤ i := by
    by_contra hnot
    rw [List.getElem?_append_left (Nat.not_le.mp hnot)] at hi
    obtain ⟨_, e, he, hlevel⟩ := exists_heads_shown.mp ⟨line, List.mem_of_getElem? hi, hl⟩
    exact hfront e he hlevel
  rw [List.length_append] at hlt ⊢
  omega

theorem countP_heads_map (l : Level) (entries : List Entry) :
    (entries.map line).countP (fun line => l.Heads line) = entries.countP fun e => e.level = l := by
  rw [List.countP_map]
  congr 1
  funext e
  simp [heads_line]

theorem countP_trace (s : Settings) (size : Nat) (words : List (UInt16 × UInt16))
    (hending : ∀ e ∈ ending, e.level ≠ .trace) :
    (opening s size ++ words.map fetched ++ ending).countP (fun e => e.level = .trace) =
      words.length := by
  have hopening : (opening s size).countP (fun e => e.level = .trace) = 0 := rfl
  have hnone : ending.countP (fun e => e.level = .trace) = 0 :=
    List.countP_eq_zero.mpr fun e he => by simpa using hending e he
  rw [List.countP_append, List.countP_append, hopening, hnone, Nat.zero_add, Nat.add_zero,
    List.countP_map]
  exact List.countP_eq_length.mpr fun _ _ => rfl

theorem level_ne_error_of_mem (s : Settings) (size : Nat) (words : List (UInt16 × UInt16)) :
    ∀ e ∈ opening s size ++ words.map fetched, e.level ≠ .error := by
  intro e he
  rcases List.mem_append.mp he with he | he
  · rcases he with _ | ⟨_, _ | ⟨_, _ | ⟨_, ⟨⟩⟩⟩⟩ <;> rintro ⟨⟩
  · obtain ⟨f, _, rfl⟩ := List.mem_map.mp he
    rintro ⟨⟩

/-- The lines of a log that ends with at most one line, which is not of the trace. -/
theorem shown_of_ending (verbosity : Nat) (s : Settings) (size : Nat)
    (words : List (UInt16 × UInt16)) (ending : List Entry)
    (hshort : ending.length ≤ 1) (htrace : ∀ e ∈ ending, e.level ≠ .trace) :
    let entries := opening s size ++ words.map fetched ++ ending
    let log := shown verbosity entries
    (3 ≤ verbosity → log = entries.map line ∧
      log.countP (fun line => Level.trace.Heads line) = words.length) ∧
    ((∃ line ∈ log, Level.error.Heads line) ↔ ∃ e ∈ ending, e.level = .error) ∧
    ∀ i line, log[i]? = some line → Level.error.Heads line → i + 1 = log.length := by
  intro entries log
  have hfront := level_ne_error_of_mem s size words
  refine ⟨fun hv => ?_, ?_, fun i line hi hl => succ_eq_length_of_heads hfront hshort hi hl⟩
  · have hall : log = entries.map line := shown_of_three_le hv entries
    rw [hall]
    exact ⟨rfl, (countP_heads_map _ _).trans (countP_trace s size words htrace)⟩
  · have hlevel : Level.error.verbosity ≤ verbosity := Nat.zero_le _
    rw [exists_heads_shown, and_iff_right hlevel]
    constructor
    · rintro ⟨e, he, hlevel⟩
      rcases List.mem_append.mp he with he | he
      · exact absurd hlevel (hfront e he)
      · exact ⟨e, he, hlevel⟩
    · rintro ⟨e, he, hlevel⟩
      exact ⟨e, List.mem_append_right _ he, hlevel⟩

end Entry

theorem map_entry_opening (s : Settings) (rom : List UInt8) :
    (Session.opening s rom).toList.map Event.entry = Entry.opening s rom.length := by
  have hstart : " byte ROM at 0x" ++ Numeral.hex 3 Memory.romStart = " byte ROM at 0x200" := by
    decide
  have hloaded : (Event.loaded rom.length).text =
      "Loaded " ++ toString rom.length ++ " byte ROM at 0x200" := by
    rw [← hstart, ← String.append_assoc]
    rfl
  rw [Entry.opening, ← hloaded]
  rfl

theorem map_entry_fetchEvents (words : List (UInt16 × UInt16)) :
    (Machine.fetchEvents words).map Event.entry = words.map Entry.fetched :=
  List.map_map

/-! ## The log of a run -/

/-- The log of a session that follows its machine without a warning, if all that is told besides the
words that were fetched comes after them. -/
theorem Session.Follows.log_eq {first last : Session} {s : Settings} {rom : List UInt8}
    (h : Follows first last) (hquiet : last.Quiet) (hopening : first.events = opening s rom)
    (ending : List Event)
    (htold : first.pacer.machine.narrate last.pacer.frames ++ last.closing.toList =
      Machine.fetchEvents (first.pacer.machine.fetches last.pacer.frames) ++ ending) :
    (Report.ofSession last).log = Entry.shown last.settings.verbosity
      (Entry.opening s rom.length ++
        (first.pacer.machine.fetches last.pacer.frames).map Entry.fetched ++
        ending.map Event.entry) := by
  rw [log_ofSession, Array.toList_append, h.events_eq hquiet, hopening, List.append_assoc, htold,
    logLines_eq_shown, List.map_append, List.map_append, map_entry_opening, map_entry_fetchEvents,
    List.append_assoc]

theorem Session.map_entry_closing {s : Session} (h : s.fault = none) :
    s.closing.toList.map Event.entry =
      if 0 < s.pacer.machine.sound.toNat then [Entry.soundActive] else [] := by
  have hsound := s.pacer.machine.hasSound_iff
  rw [closing, h]
  by_cases hon : 0 < s.pacer.machine.sound.toNat
  · rw [if_pos hon, hsound.mpr hon]
    rfl
  · rw [if_neg hon, Bool.eq_false_iff.mpr (mt hsound.mp hon)]
    rfl

theorem Session.closing_of_fault {s : Session} {fault : Fault} (h : s.fault = some fault) :
    s.closing = #[] := by
  rw [closing, h]
  rfl

/-- After sound frames alone, all that is told besides their words is whether the sound is on. -/
theorem Session.Follows.log_of_sound {first last : Session} {s : Settings} {rom : List UInt8}
    {m : Machine} (h : Follows first last) (hquiet : last.Quiet)
    (hopening : first.events = opening s rom) (hm : first.pacer.machine = m)
    (hpaused : m.paused = false) (hnone : last.fault = none)
    (hsound : m.Sound last.pacer.frames) :
    (Report.ofSession last).log = Entry.shown last.settings.verbosity
      (Entry.opening s rom.length ++ (m.fetches last.pacer.frames).map Entry.fetched ++
        if 0 < (m.afterFrames last.pacer.frames).sound.toNat then [.soundActive] else []) := by
  subst hm
  rw [← h.machine, ← map_entry_closing hnone]
  refine h.log_eq hquiet hopening last.closing.toList ?_
  rw [Machine.narrate_of_sound hpaused hsound]

/-- After the first fault, all that is told besides the words is the fault. -/
theorem Session.Follows.log_of_firstFault {first last : Session} {s : Settings}
    {rom : List UInt8} {m : Machine} {j : Nat} {fault : Fault} (h : Follows first last)
    (hquiet : last.Quiet) (hopening : first.events = opening s rom) (hm : first.pacer.machine = m)
    (hpaused : m.paused = false) (hfault : last.fault = some fault)
    (hframes : last.pacer.frames = j + 1) (hfirst : m.FirstFault j fault) :
    (Report.ofSession last).log = Entry.shown last.settings.verbosity
      (Entry.opening s rom.length ++ (m.fetches last.pacer.frames).map Entry.fetched ++
        [.pausing (m.afterFrames j).pc fault]) := by
  subst hm
  refine h.log_eq hquiet hopening [.pausing (first.pacer.machine.afterFrames j).pc fault] ?_
  rw [hframes, Machine.narrate_of_firstFault hpaused hfirst, closing_of_fault hfault,
    List.append_nil]

/-- A run that is not paced by time is a session that follows its machine until it is over, and that
drops no time. -/
theorem exists_unpaced {w : World} {arguments : List String} {s : Settings} {rom : List UInt8}
    (hs : Settings.ofArguments arguments = .ok s) (hpace : s.realtime = false)
    (hrom : w.fileAt s.path = .ok rom) (hfit : rom.length ≤ 3584) :
    ∃ first last : Session, Session.startMachine s rom w.key = .ok first.pacer.machine ∧
      first.pacer.machine.paused = false ∧ first.events = Session.opening s rom ∧
      Session.Follows first last ∧ last.Quiet ∧ last.settings = s ∧ last.isDue = false ∧
      last.pacer.frames ≤ s.frames ∧ run w arguments = .ofSession last := by
  obtain ⟨hmin, hmax⟩ := Settings.speed_of_ofArguments hs
  obtain ⟨first, hstart, hset, hevents, _⟩ := Session.exists_start hfit hmin hmax w.key
  obtain ⟨hready, _⟩ := Session.ready_start hstart
  have hplay := hready.play_frames
  rw [hset, ← w.go_of_unpaced hpace] at hplay
  obtain ⟨hlast, hdue, hle, hquiet⟩ := hplay
  have hsettings := hlast.settings.trans hset
  rw [hsettings] at hle
  refine ⟨first, _, ?_, hready.paused, hevents, hlast, hquiet, hsettings, hdue, hle, ?_⟩
  · rw [Session.start] at hstart
    cases hm : Session.startMachine s rom w.key with
    | error fault =>
      rw [hm] at hstart
      cases hstart
    | ok m =>
      rw [hm] at hstart
      cases hstart
      rfl
  · rw [run_eq hs hrom, runRom, hstart]

/-- The log of a run that is not paced by time, of a program that fits. The opening lines come
first, then one line for each frame that fetched a word, with the program counter and the word as
they were before the frame, and then the line of the first fault, or without a fault that of the
sound if it is still on. So the trace has a line for each frame that was run, except for a last one
that fetched nothing. A run of verbosity three shows all lines, and one of a lower verbosity those
of its levels; the line of a fault is shown at any verbosity, is the last one, and is there exactly
if the run failed. -/
theorem log_law (w : World) (arguments : List String) (s : Settings) (rom : List UInt8)
    (hs : Settings.ofArguments arguments = .ok s) (hpace : s.realtime = false)
    (hrom : w.fileAt s.path = .ok rom) (hfit : rom.length ≤ 3584) :
    let report := run w arguments
    ∃ m, Session.startMachine s rom w.key = .ok m ∧
      ∃ (n : Nat) (words : List (UInt16 × UInt16)) (ending : List Entry),
        let entries := Entry.opening s rom.length ++ words.map Entry.fetched ++ ending
        report.log = Entry.shown s.verbosity entries ∧
        (3 ≤ s.verbosity → report.log = entries.map Entry.line ∧
          report.log.countP (fun line => Level.trace.Heads line) = words.length) ∧
        (∀ (i : Nat) (pc word : UInt16), words[i]? = some (pc, word) ↔
          i < n ∧ (m.afterFrames i).pc = pc ∧ (m.afterFrames i).WordAtPc word) ∧
        (m.Sound s.frames →
          report.exitCode = 0 ∧ n = s.frames ∧ words.length = n ∧
          ending = if 0 < (m.afterFrames n).sound.toNat then [.soundActive] else []) ∧
        (∀ j < s.frames, ∀ fault, m.FirstFault j fault →
          let last := m.afterFrames j
          report.exitCode = 1 ∧ n = j + 1 ∧ ending = [.pausing last.pc fault] ∧
          ((∃ word, last.WordAtPc word) →
            words.length = n ∧ ∃ word, words.getLast? = some (last.pc, word)) ∧
          ((¬ ∃ word, last.WordAtPc word) → words.length = j)) ∧
        ((∃ line ∈ report.log, Level.error.Heads line) ↔
          report.error = some "Chip8 Execution error") ∧
        ∀ i line, report.log[i]? = some line → Level.error.Heads line →
          i + 1 = report.log.length := by
  intro report
  obtain ⟨first, last, hm, hpaused, hopening, hlast, hquiet, rfl, hdue, hle, hreport⟩ :
      ∃ first last : Session, _ ∧ _ ∧ _ ∧ _ ∧ _ ∧ _ ∧ _ ∧ _ ∧ report = .ofSession last :=
    exists_unpaced hs hpace hrom hfit
  have hover := hlast.over hdue
  generalize hstart : first.pacer.machine = m at hm hpaused hover
  have hwords : ∀ {n : Nat}, m.Sound (n - 1) → ∀ (i : Nat) (pc word : UInt16),
      (m.fetches n)[i]? = some (pc, word) ↔
        i < n ∧ (m.afterFrames i).pc = pc ∧ (m.afterFrames i).WordAtPc word := by
    intro n hn i pc word
    rw [Machine.getElem?_fetches hpaused hn, ← Machine.fetched_eq_some_iff]
    by_cases hi : i < n <;> simp [hi]
  rcases hover with ⟨hnone, hge, hsound⟩ | ⟨j, fault, hfault, hframes, hfirst⟩
  · have hframes := Nat.le_antisymm hle hge
    have hlog := hlast.log_of_sound hquiet hopening hstart hpaused hnone hsound
    rw [← hreport] at hlog
    obtain ⟨hall, herror, hfinal⟩ := Entry.shown_of_ending last.settings.verbosity
      last.settings rom.length (m.fetches last.pacer.frames)
      (if 0 < (m.afterFrames last.pacer.frames).sound.toNat then [.soundActive] else [])
      (by split <;> decide) (by split <;> simp [Entry.soundActive])
    rw [← hlog] at hall herror hfinal
    have hresult := hreport.trans (Session.ofSession_of_none hnone)
    refine ⟨m, hm, last.pacer.frames, m.fetches last.pacer.frames, _, hlog, hall,
      hwords (hsound.mono (Nat.sub_le _ 1)), fun _ => ⟨?_, hframes, ?_, rfl⟩,
      fun j hj fault h => absurd (hframes ▸ hsound) (h.not_sound hj), herror.trans ?_, hfinal⟩
    · rw [hresult]
    · exact Machine.length_fetches hpaused hsound
    · rw [hresult]
      split <;> simp [Entry.soundActive]
  · have hlog := hlast.log_of_firstFault hquiet hopening hstart hpaused hfault hframes hfirst
    rw [← hreport] at hlog
    obtain ⟨hall, herror, hfinal⟩ := Entry.shown_of_ending last.settings.verbosity
      last.settings rom.length (m.fetches last.pacer.frames)
      [.pausing (m.afterFrames j).pc fault] le_rfl (by simp [Entry.pausing])
    rw [← hlog] at hall herror hfinal
    have hresult := hreport.trans (Session.ofSession_of_fault hfault)
    refine ⟨m, hm, last.pacer.frames, m.fetches last.pacer.frames, _, hlog, hall,
      hwords ?_, fun h => absurd h (hfirst.not_sound (by omega)), fun k hk other h => ?_,
      herror.trans ?_, hfinal⟩
    · rw [hframes]
      exact hfirst.before
    · obtain ⟨rfl, rfl⟩ := hfirst.unique h
      obtain ⟨hword, hnone⟩ := Machine.fetches_last hpaused hfirst.before
      rw [hframes, hresult]
      exact ⟨rfl, rfl, rfl, hword, hnone⟩
    · rw [hresult]
      simp [Entry.pausing, Report.ofFailure, Failure.message]

/-- A program that waits for a key in each of three frames tells three times what it fetched. One
that jumps to the last byte of memory fetches nothing there, and with a lower verbosity its one
fetched word is left out. -/
theorem log_law_astray :
    let w : World :=
      { fileAt := fun path => .ok (if path = "wait" then [0xF0, 0x0A] else [0x1F, 0xFF])
        key := .ofSeed 0
        interval := fun _ => 1
        frameStep_le_interval := fun _ => Pacer.frameStep_le_one }
    let wait := run w ["wait", "-f", "3", "-vvv"]
    let astray := run w ["astray", "-v"]
    wait.log =
      ["DEBUG Speed set to 1", "DEBUG Loaded 2 byte ROM at 0x200",
        "INFO Running wait for 3 frames at speed 1",
        "TRACE 0x0200: F00A", "TRACE 0x0200: F00A", "TRACE 0x0200: F00A"] ∧
      astray.log =
        ["INFO Running astray for 600 frames at speed 1",
          "ERROR Pausing at PC 0x0FFF: Memory access out of bounds at address 0x1000"] := by
  intro w wait astray
  constructor
  · obtain ⟨m, hm, n, words, ending, -, hall, hwords, hsound, -⟩ :=
      log_law w ["wait", "-f", "3", "-vvv"] { path := "wait", frames := 3, verbosity := 3 }
        [0xF0, 0x0A] rfl rfl rfl (by decide)
    obtain rfl : Machine.boot [0xF0, 0x0A] 1 { key := .ofSeed 0 } = m := Except.ok.inj hm
    have hwaits : ∀ i < 3,
        let m := (Machine.boot [0xF0, 0x0A] 1 { key := .ofSeed 0 }).afterFrames i
        m.cycle.1 = .ok .waiting ∧ m.fetched = some (0x200, 0xF00A) := by
      decide +kernel
    obtain ⟨-, hn, hlength, hending⟩ := hsound fun i hi => ⟨.waiting, (hwaits i hi).1⟩
    subst hn
    obtain ⟨hlog, -⟩ := hall (by decide)
    have hsame : words = List.replicate 3 (0x200, 0xF00A) := by
      refine List.eq_replicate_iff.mpr ⟨hlength, fun f hf => ?_⟩
      obtain ⟨i, hi⟩ := List.mem_iff_getElem?.mp hf
      obtain ⟨hlt, hat⟩ := (hwords i f.1 f.2).mp hi
      exact Option.some.inj ((Machine.fetched_eq_some_iff.mpr hat).symm.trans (hwaits i hlt).2)
    have hsilent : ¬ 0 < ((Machine.boot [0xF0, 0x0A] 1 { key := .ofSeed 0 }).afterFrames
        3).sound.toNat := by
      decide +kernel
    have hwait : wait.log = _ := hlog
    rw [hwait, hsame, hending, if_neg hsilent]
    decide
  · obtain ⟨m, hm, n, words, ending, hlog, -, hwords, -, hfault, -⟩ :=
      log_law w ["astray", "-v"] { path := "astray", verbosity := 1 }
        [0x1F, 0xFF] rfl rfl rfl (by decide)
    obtain rfl : Machine.boot [0x1F, 0xFF] 1 { key := .ofSeed 0 } = m := Except.ok.inj hm
    have hfirst : (Machine.boot [0x1F, 0xFF] 1 { key := .ofSeed 0 }).FirstFault 1
        (.memoryOutOfBounds 4096) := by
      refine ⟨fun i hi => ?_, by decide +kernel⟩
      obtain rfl := Nat.lt_one_iff.mp hi
      exact ⟨.ran, by decide +kernel⟩
    obtain ⟨-, rfl, rfl, -, hnone⟩ := hfault 1 (by decide) _ hfirst
    have hlast : ((Machine.boot [0x1F, 0xFF] 1 { key := .ofSeed 0 }).afterFrames 1).pc = 0xFFF ∧
        ((Machine.boot [0x1F, 0xFF] 1 { key := .ofSeed 0 }).afterFrames 1).fetched = none := by
      decide +kernel
    obtain ⟨f, rfl⟩ := List.length_eq_one_iff.mp (hnone (Machine.fetched_eq_none_iff.mp hlast.2))
    have hastray : astray.log = _ := hlog
    rw [hastray, hlast.1]
    -- the line of the word `f` is not shown
    rfl

end CommandLine

end Chip8
