import Chip8.Proofs.Traces

/-!
# Keys

What the keypad shows of its history. Three things happen to it: a key is pressed, a key is
released, and a wait for a key takes the press that is pending (`KeyEvent`). A key is held if it was
not released since it was last pressed (`KeyEvent.Holds`), and a press is pending if nothing but
releases came after it (`KeyEvent.Pends`).

* `Moment.keypad_next`: a moment hands its event to the keypad, and else leaves it alone.
* `Machine.keypad_actAll`: the keypad after a run.
* `Machine.exists_delivers`: each press that a wait takes is a press of the history, and
  `Moment.Delivers.unique`: no other wait takes it.
* `keypad_law` puts them together for the histories of a pacer.
-/

namespace Chip8

/-! ## Events -/

/-- What happens to the keypad. -/
inductive KeyEvent where
  | press (key : Nibble)
  | release (key : Nibble)
  /-- A wait takes the pending press. -/
  | take
deriving DecidableEq, Repr

def Keypad.handle (k : Keypad) : KeyEvent → Keypad
  | .press key => k.press key
  | .release key => k.release key
  | .take => k.take

namespace KeyEvent

/-- The last event about the key is a press. -/
def Holds (history : List KeyEvent) (key : Nibble) : Prop :=
  ∃ before behind, history = before ++ .press key :: behind ∧ .release key ∉ behind

/-- The last press is one of the key, and no wait took it. -/
def Pends (history : List KeyEvent) (key : Nibble) : Prop :=
  ∃ before behind, history = before ++ .press key :: behind ∧
    ∀ event ∈ behind, ∃ other, event = .release other

variable {history : List KeyEvent} {event : KeyEvent} {key : Nibble}

/-- Where a press stands in a history with one more event: it is that event, or stands before. -/
theorem concat_eq_append_press_iff {P : KeyEvent → Prop} :
    (∃ before behind, history ++ [event] = before ++ .press key :: behind ∧ ∀ e ∈ behind, P e) ↔
      event = .press key ∨ (P event ∧
        ∃ before behind, history = before ++ .press key :: behind ∧ ∀ e ∈ behind, P e) := by
  constructor
  · rintro ⟨before, behind, h, hbehind⟩
    rcases List.eq_nil_or_concat behind with rfl | ⟨behind, last, rfl⟩
    · exact .inl (List.singleton_inj.mp (List.append_inj' h rfl).2)
    · rw [List.concat_eq_append, ← List.cons_append, ← List.append_assoc] at h
      obtain ⟨hhistory, hlast⟩ := List.append_inj' h rfl
      obtain rfl := List.singleton_inj.mp hlast
      rw [List.concat_eq_append, List.forall_mem_append, List.forall_mem_singleton] at hbehind
      exact .inr ⟨hbehind.2, before, behind, hhistory, hbehind.1⟩
  · rintro (rfl | ⟨hevent, before, behind, rfl, hbehind⟩)
    · exact ⟨history, [], rfl, fun e he => (List.not_mem_nil he).elim⟩
    · refine ⟨before, behind ++ [event], by simp, ?_⟩
      rw [List.forall_mem_append, List.forall_mem_singleton]
      exact ⟨hbehind, hevent⟩

theorem holds_iff :
    Holds history key ↔ ∃ before behind, history = before ++ .press key :: behind ∧
      ∀ e ∈ behind, e ≠ .release key := by
  have hne : ∀ behind : List KeyEvent, .release key ∉ behind ↔ ∀ e ∈ behind, e ≠ .release key :=
    fun _ => List.forall_mem_ne'.symm
  simp only [Holds, hne]

theorem holds_concat :
    Holds (history ++ [event]) key ↔
      event = .press key ∨ (event ≠ .release key ∧ Holds history key) := by
  rw [holds_iff, holds_iff]
  exact concat_eq_append_press_iff

theorem pends_concat :
    Pends (history ++ [event]) key ↔
      event = .press key ∨ ((∃ other, event = .release other) ∧ Pends history key) :=
  concat_eq_append_press_iff

theorem not_holds_nil : ¬ Holds [] key := by
  rintro ⟨before, behind, h, _⟩
  exact List.append_ne_nil_of_right_ne_nil before (List.cons_ne_nil _ behind) h.symm

theorem not_pends_nil : ¬ Pends [] key := by
  rintro ⟨before, behind, h, _⟩
  exact List.append_ne_nil_of_right_ne_nil before (List.cons_ne_nil _ behind) h.symm

end KeyEvent

namespace Keypad

variable {k : Keypad} {event : KeyEvent} {key : Nibble}

theorem isHeld_handle :
    (k.handle event).isHeld key = true ↔
      event = .press key ∨ (event ≠ .release key ∧ k.isHeld key = true) := by
  cases event with
  | press other => simp [handle, isHeld_press, Fin.val_inj, or_comm]
  | release other => simp [handle, isHeld_release, Fin.val_inj, and_comm]
  | take => simp [handle]

theorem pending_handle :
    (k.handle event).pending = some key ↔
      event = .press key ∨ ((∃ other, event = .release other) ∧ k.pending = some key) := by
  cases event <;> simp [handle, press, release, take]

end Keypad

/-! ## The events of moments -/

namespace Machine

theorem keypad_step (m : Machine) : m.step.2.keypad = m.carried?.elim m.keypad m.keypadAfter := by
  rcases step_cases m with ⟨_, hs⟩ | ⟨_, fault, _, hs⟩ | ⟨_, word, hw, _, hs⟩
  · simp [carried?, hs]
  · simp [carried?, hs]
  · rw [carried?_eq_some hw hs, hs]
    rfl

end Machine

namespace Moment

/-- Whether a wait for a key is carried out and ends. -/
def completes (e : Moment) : Bool :=
  match e.instruction?, e.answer? with
  | some (.waitKey _), some (.ok .ran) => true
  | _, _ => false

/-- What happens to the keypad at a moment. Numbers above 15 are no keys. -/
def keyEvent? (e : Moment) : Option KeyEvent :=
  match e.action with
  | .press key => (Nibble.ofNat? key.toNat).map .press
  | .release key => (Nibble.ofNat? key.toNat).map .release
  | _ => if e.completes then some .take else none

/-- A wait ends exactly if a press is pending. -/
theorem completes_iff {e : Moment} :
    e.completes = true ↔
      (∃ x, e.instruction? = some (.waitKey x)) ∧ e.machine.keypad.pending ≠ none := by
  unfold completes
  constructor
  · intro h
    split at h
    · next x hi ha =>
      refine ⟨⟨x, hi⟩, fun hnone => ?_⟩
      obtain ⟨m, _, _, hkeypad, _, hanswer, _⟩ := exists_of_instruction? hi
      rw [hanswer, Machine.outcomeOf, hkeypad, if_pos hnone] at ha
      cases ha
    · cases h
  · rintro ⟨⟨x, hi⟩, hsome⟩
    obtain ⟨m, _, _, hkeypad, _, hanswer, _⟩ := exists_of_instruction? hi
    rw [Machine.outcomeOf, hkeypad, if_neg hsome] at hanswer
    rw [hi, hanswer]

theorem keyEvent?_of_completes {e : Moment} (h : e.completes = true) :
    e.keyEvent? = some .take := by
  obtain ⟨⟨x, hx⟩, _⟩ := completes_iff.mp h
  obtain ⟨n, hn, _⟩ := exists_of_instruction? hx
  obtain ⟨m, a⟩ := e
  cases a
  case step | frame => exact if_pos h
  all_goals cases hn

theorem keypad_of_stepping {e : Moment} {m : Machine} (hm : e.machine.stepping? e.action = some m) :
    e.next.keypad = if e.completes then e.machine.keypad.take else e.machine.keypad := by
  obtain ⟨_, hkeypad, hact⟩ := Machine.act_of_stepping? hm
  have hi : e.instruction? = m.carried? := by rw [instruction?, hm, Option.bind_some]
  rw [next, hact, Machine.keypad_step, ← hi]
  cases hc : e.completes with
  | true =>
    obtain ⟨⟨x, hx⟩, _⟩ := completes_iff.mp hc
    rw [hx, ← hkeypad]
    rfl
  | false =>
    have hstalled : ∀ x, e.instruction? = some (.waitKey x) → e.machine.keypad.pending = none := by
      intro x hx
      by_contra hsome
      rw [completes_iff.mpr ⟨⟨x, hx⟩, hsome⟩] at hc
      cases hc
    rw [← hkeypad]
    cases h : e.instruction? with
    | none => rfl
    | some i =>
      cases i
      case waitKey x =>
        exact Keypad.take_of_pending_none (hkeypad.symm ▸ hstalled x h)
      all_goals rfl

theorem keypad_next {e : Moment} (hl : e.loads = false) :
    e.next.keypad = e.keyEvent?.elim e.machine.keypad e.machine.keypad.handle := by
  obtain ⟨m, a⟩ := e
  cases a
  case load rom =>
    have hlarge : ¬ rom.length ≤ Memory.romCapacity := of_decide_eq_false hl
    have hnext : next ⟨m, .load rom⟩ = m := if_neg hlarge
    rw [hnext]
    rfl
  case step =>
    rw [keypad_of_stepping rfl, keyEvent?]
    cases completes ⟨m, .step⟩ <;> rfl
  case frame =>
    rw [keypad_of_stepping rfl, keyEvent?]
    cases completes ⟨m, .frame⟩ <;> rfl
  case press key =>
    have he : keyEvent? ⟨m, .press key⟩ = (Nibble.ofNat? key.toNat).map .press := rfl
    show (m.press key).keypad = _
    rw [he, Machine.press]
    cases Nibble.ofNat? key.toNat <;> rfl
  case release key =>
    have he : keyEvent? ⟨m, .release key⟩ = (Nibble.ofNat? key.toNat).map .release := rfl
    show (m.release key).keypad = _
    rw [he, Machine.release]
    cases Nibble.ofNat? key.toNat <;> rfl
  case tick | setSpeed => rfl

theorem keypad_of_loads {e : Moment} (hl : e.loads = true) : e.next.keypad = Keypad.idle := by
  rcases e.cases with ⟨_, _, rom, hnext⟩ | ⟨h, _⟩ | ⟨h, _⟩
  · rw [hnext]
    rfl
  all_goals
    rw [hl] at h
    cases h

/-- The events since a program was last loaded. -/
def keyEvents (trace : List Moment) : List KeyEvent := (sinceLoad trace).filterMap keyEvent?

theorem keyEvents_concat (trace : List Moment) (e : Moment) :
    keyEvents (trace ++ [e]) = if e.loads then [] else keyEvents trace ++ e.keyEvent?.toList :=
  filterMap_sinceLoad_concat keyEvent? trace e

end Moment

/-! ## The keypad after a run -/

namespace Machine

/-- The keys that are held, and the press that is pending. -/
theorem keypad_actAll {m : Machine} (hm : m.keypad = Keypad.idle) (actions : List Action)
    (key : Nibble) :
    ((m.actAll actions).keypad.isHeld key = true ↔
      KeyEvent.Holds (Moment.keyEvents (m.moments actions)) key) ∧
    ((m.actAll actions).keypad.pending = some key ↔
      KeyEvent.Pends (Moment.keyEvents (m.moments actions)) key) := by
  have hidle : ∀ n : Machine, n.keypad = Keypad.idle →
      (n.keypad.isHeld key = true ↔ KeyEvent.Holds [] key) ∧
      (n.keypad.pending = some key ↔ KeyEvent.Pends [] key) := by
    intro n hn
    rw [hn, Keypad.isHeld_idle]
    exact ⟨iff_of_false Bool.false_ne_true KeyEvent.not_holds_nil,
      iff_of_false (fun h => nomatch h) KeyEvent.not_pends_nil⟩
  -- from the back, since it is the last load and the last events that count
  induction actions using List.reverseRecOn with
  | nil => exact hidle m hm
  | append_singleton actions a ih =>
    rw [moments_concat, Moment.keyEvents_concat, actAll_concat]
    let e : Moment := ⟨m.actAll actions, a⟩
    show (e.next.keypad.isHeld key = true ↔ _) ∧ (e.next.keypad.pending = some key ↔ _)
    cases hl : e.loads with
    | true => exact hidle e.next (Moment.keypad_of_loads hl)
    | false =>
      rw [if_neg Bool.false_ne_true, Moment.keypad_next hl]
      cases he : e.keyEvent? with
      | none =>
        rw [Option.toList_none, List.append_nil, Option.elim_none]
        exact ih
      | some event =>
        rw [Option.toList_some, Option.elim_some, Keypad.isHeld_handle, Keypad.pending_handle,
          KeyEvent.holds_concat, KeyEvent.pends_concat, ih.1, ih.2]
        exact ⟨Iff.rfl, Iff.rfl⟩

end Machine

/-! ## Waits -/

namespace Machine

/-- A wait without a press changes nothing. -/
theorem after_waitKey {m : Machine} (h : m.keypad.pending = none) (x : Nibble) :
    m.after (.waitKey x) = m := by
  simp only [after, pcAfter, regsAfter, keypadAfter, h, if_true, Option.elim_none,
    Keypad.take_of_pending_none h]
  rfl

theorem step_of_waiting {m : Machine} (h : m.step.1 = .ok .waiting) : m.step.2 = m := by
  rcases step_cases m with ⟨_, hs⟩ | ⟨_, fault, _, hs⟩ | ⟨_, word, _, _, hs⟩
  · rw [hs] at h
    cases h
  · rw [hs] at h
    cases h
  · rw [hs] at h ⊢
    have ho : m.outcomeOf (.ofWord word) = .waiting := Except.ok.inj h
    generalize Instruction.ofWord word = i at ho
    cases i
    case waitKey x =>
      by_cases hp : m.keypad.pending = none
      · exact after_waitKey hp x
      · rw [outcomeOf, if_neg hp] at ho
        cases ho
    all_goals cases ho

end Machine

namespace Moment

/-- What a wait for a key into Vx does: it takes the press that is pending, or finds none and leaves
the machine as its step found it. -/
structure Waits (e : Moment) (x : Nibble) : Prop where
  completes_iff : e.completes = true ↔ e.machine.keypad.pending ≠ none
  takes : ∀ key, e.machine.keypad.pending = some key →
    e.answer? = some (.ok .ran) ∧ e.next.regs[x].toNat = key.val ∧ e.next.keypad.pending = none
  stalls : e.machine.keypad.pending = none →
    e.answer? = some (.ok .waiting) ∧ e.machine.stepping? e.action = some e.next

theorem waits_of_instruction? {e : Moment} {x : Nibble} (h : e.instruction? = some (.waitKey x)) :
    e.Waits x := by
  obtain ⟨m, hm, _, hkeypad, _, hanswer, hnext⟩ := exists_of_instruction? h
  constructor
  case completes_iff =>
    rw [completes_iff]
    exact and_iff_right ⟨x, h⟩
  case takes =>
    intro key hkey
    have hpending : m.keypad.pending = some key := by rw [hkeypad, hkey]
    have hregs : (m.after (.waitKey x)).regs[x] = key.val.toUInt8 := by
      show (m.keypad.pending.elim m.regs fun key => m.regs.set x key.val.toUInt8)[x] = _
      rw [hpending]
      exact Registers.getElem_set_self _ x _
    have hlt := key.isLt
    rw [hanswer, hnext, hregs]
    refine ⟨?_, ?_, rfl⟩
    · rw [Machine.outcomeOf, hpending, if_neg (Option.some_ne_none key)]
    · rw [Nat.toUInt8_eq, UInt8.toNat_ofNat']
      omega
  case stalls =>
    intro hnone
    have hpending : m.keypad.pending = none := by rw [hkeypad, hnone]
    rw [hanswer, hnext, hm, Machine.after_waitKey hpending, Machine.outcomeOf, if_pos hpending]
    exact ⟨rfl, rfl⟩

/-! ## Which press a wait takes -/

/-- The press at place `i` of a trace is the one that the wait at place `j` takes: in between no
program is loaded, no key is pressed and no other wait ends. -/
structure Delivers (moments : List Moment) (i j : Nat) (press wait : Moment) (key : Nibble) :
    Prop where
  lt : i < j
  press_at : moments[i]? = some press
  wait_at : moments[j]? = some wait
  pressed : press.keyEvent? = some (.press key)
  completes : wait.completes = true
  between : ∀ k e, i < k → k < j → moments[k]? = some e →
    e.loads = false ∧ ∀ event, e.keyEvent? = some event → ∃ other, event = .release other

variable {moments : List Moment} {i j j' : Nat} {press wait press' wait' : Moment}
  {key key' : Nibble}

theorem Delivers.le (h : Delivers moments i j press wait key)
    (h' : Delivers moments i j' press' wait' key') : j' ≤ j := by
  by_contra hlt
  obtain ⟨_, hbetween⟩ := h'.between j wait h.lt (Nat.lt_of_not_le hlt) h.wait_at
  obtain ⟨other, hother⟩ := hbetween _ (keyEvent?_of_completes h.completes)
  cases hother

/-- A press is not taken twice. -/
theorem Delivers.unique (h : Delivers moments i j press wait key)
    (h' : Delivers moments i j' press' wait' key') : j = j' :=
  Nat.le_antisymm (h'.le h) (h.le h')

/-- A press that is pending stands in the trace, with nothing but releases behind it. -/
theorem exists_of_pends (h : KeyEvent.Pends (keyEvents moments) key) :
    ∃ head press tail, moments = head ++ press :: tail ∧ press.keyEvent? = some (.press key) ∧
      ∀ e ∈ tail, e.loads = false ∧
        ∀ event, e.keyEvent? = some event → ∃ other, event = .release other := by
  obtain ⟨before, behind, hcut, hbehind⟩ := h
  obtain ⟨first, second, hsince, _, hsecond⟩ := List.filterMap_eq_append_iff.mp hcut
  obtain ⟨gap, press, tail, rfl, _, hpress, htail⟩ := List.filterMap_eq_cons_iff.mp hsecond
  obtain ⟨front, hfront⟩ := List.rtakeWhile_suffix (fun e : Moment => !e.loads) moments
  refine ⟨front ++ (first ++ gap), press, tail, ?_, hpress, fun e he => ⟨?_, fun event hevent => ?_⟩⟩
  · rw [← hfront]
    show front ++ sinceLoad moments = _
    rw [hsince]
    simp
  · have hmem : e ∈ sinceLoad moments := by
      rw [hsince]
      simp [he]
    simpa using List.mem_rtakeWhile_imp hmem
  · apply hbehind
    rw [← htail]
    exact List.mem_filterMap.mpr ⟨e, he, hevent⟩

end Moment

namespace Machine

/-- A wait that ends takes a press of the history. -/
theorem exists_delivers {m : Machine} (hm : m.keypad = Keypad.idle) {actions : List Action}
    {j : Nat} {wait : Moment} (hwait : (m.moments actions)[j]? = some wait)
    (hcompletes : wait.completes = true) :
    ∃ i press key, Moment.Delivers (m.moments actions) i j press wait key ∧
      wait.machine.keypad.pending = some key := by
  obtain ⟨first, behind, hcut, hplace, hlast⟩ := exists_of_getElem?_moments hwait
  obtain ⟨key, hkey⟩ := Option.ne_none_iff_exists'.mp (Moment.completes_iff.mp hcompletes).2
  have hpends := (keypad_actAll hm first key).2.mp (by rw [hlast, hkey])
  obtain ⟨head, press, tail, hhead, hpress, htail⟩ := Moment.exists_of_pends hpends
  have hj : head.length + (tail.length + 1) = j := by
    rw [← hplace, hhead, List.length_append, List.length_cons]
  rw [hhead] at hcut
  refine ⟨head.length, press, key, ⟨by omega, ?_, hwait, hpress, hcompletes, ?_⟩, hkey⟩
  · rw [hcut]
    simp
  · intro k e hlt hgt he
    apply htail
    rw [hcut, List.append_assoc, List.getElem?_append_right (by omega), List.cons_append,
      List.getElem?_cons, if_neg (by omega), List.getElem?_append_left (by omega)] at he
    exact List.mem_of_getElem? he

end Machine

/-! ## Polls -/

/-- `Ex9E` skips the next instruction if the key Vx is held, and `ExA1` if it is not. -/
theorem Moment.pc_of_poll {e : Moment} {x : Nibble} :
    let held := e.machine.keypad.isHeld e.machine.regs[x].toNat
    (e.instruction? = some (.skipHeld x) →
      e.next.pc = e.machine.pc + if held then 4 else 2) ∧
    (e.instruction? = some (.skipNotHeld x) →
      e.next.pc = e.machine.pc + if held then 2 else 4) := by
  intro held
  have hskip : ∀ {i : Instruction} (skip : Machine → Bool), e.instruction? = some i →
      (∀ m : Machine, m.pcAfter i = m.pcPast (skip m)) →
      (∀ m : Machine, m.regs = e.machine.regs → m.keypad = e.machine.keypad →
        skip m = skip e.machine) →
      e.next.pc = e.machine.pc + if skip e.machine then 4 else 2 := by
    intro i skip hi hpc hsame
    obtain ⟨m, _, hrests, hkeypad, _, _, hnext⟩ := exists_of_instruction? hi
    rw [hnext]
    show m.pcAfter i = _
    rw [hpc, hsame m hrests.regs hkeypad, Machine.pcPast, hrests.pc]
  constructor
  · intro hi
    refine hskip (fun m => m.keypad.isHeld m.regs[x].toNat) hi (fun _ => rfl) ?_
    intro m hregs hkeypad
    rw [hregs, hkeypad]
  · intro hi
    have h := hskip (fun m => !m.keypad.isHeld m.regs[x].toNat) hi (fun _ => rfl) ?_
    · rw [h]
      show _ + (if (!held) = true then (4 : UInt16) else 2) = _
      cases held <;> rfl
    · intro m hregs hkeypad
      rw [hregs, hkeypad]

/-! ## Histories of calls -/

namespace Pacer

theorem perform_of_no_key (p : Pacer) {key : UInt8} (h : 16 ≤ key.toNat) :
    (p.perform (.press key)).2 = p ∧ (p.perform (.release key)).2 = p := by
  have hnone := Nibble.ofNat?_eq_none_iff.mpr h
  constructor
  · show p.mapMachine (·.press key) = p
    simp only [mapMachine, Machine.press, hnone]
  · show p.mapMachine (·.release key) = p
    simp only [mapMachine, Machine.release, hnone]

theorem performAll_of_waiting {p : Pacer} (h : (p.perform .step).1 = .ok (some .waiting)) (n : Nat)
    (later : List Call) :
    p.performAll (List.replicate n .step ++ later) = p.performAll later := by
  have hanswer : p.machine.step.1 = .ok .waiting := by
    have hmap : p.machine.step.1.map some = .ok (some .waiting) := h
    cases hs : p.machine.step.1 with
    | error fault => simp [hs, Except.map] at hmap
    | ok outcome => simpa [hs, Except.map] using hmap
  have hstep : (p.perform .step).2 = p := by
    show { p with machine := p.machine.step.2 } = p
    rw [Machine.step_of_waiting hanswer]
  induction n with
  | zero => rfl
  | succ n ih =>
    rw [List.replicate_succ, List.cons_append]
    show performAll (p.perform .step).2 _ = _
    rw [hstep, ih]

/-- The keypad of every machine that a history of calls can lead to. A key is held if it was not
released since it was last pressed, and a press is pending if it is the last one and no wait took
it, both since a program was loaded. Only a loaded program, a press and a wait that ends change what
is pending. Such a wait takes a press of the history, which no other wait takes; a wait without a
press leaves the machine alone, however often it is tried. Numbers above 15 are no keys, for the
host and for the program. -/
theorem keypad_law (seed : UInt64) (calls : List Call) :
    let moments := (ofSeed seed).moments calls
    let history := Moment.keyEvents moments
    let keypad := ((ofSeed seed).performAll calls).machine.keypad
    (∀ key : Nibble, keypad.isHeld key = true ↔ KeyEvent.Holds history key) ∧
    (∀ key : Nibble, keypad.pending = some key ↔ KeyEvent.Pends history key) ∧
    (∀ e ∈ moments, e.loads = false →
      (∀ event, e.keyEvent? = some event → ∃ key, event = .release key) →
        e.next.keypad.pending = e.machine.keypad.pending) ∧
    (∀ e ∈ moments, ∀ x, e.instruction? = some (.waitKey x) → e.Waits x) ∧
    (∀ j wait, moments[j]? = some wait → wait.completes = true →
      ∃ i press key, Moment.Delivers moments i j press wait key ∧
        wait.machine.keypad.pending = some key) ∧
    (∀ i j j' press press' wait wait' key key',
      Moment.Delivers moments i j press wait key →
        Moment.Delivers moments i j' press' wait' key' → j = j') ∧
    (∀ (p : Pacer) (key : UInt8), 16 ≤ key.toNat →
      (p.perform (.press key)).2 = p ∧ (p.perform (.release key)).2 = p) ∧
    (∀ p : Pacer, (p.perform .step).1 = .ok (some .waiting) → ∀ n later,
      p.performAll (List.replicate n .step ++ later) = p.performAll later) ∧
    (∀ e ∈ moments, ∀ x : Nibble,
      let held := e.machine.keypad.isHeld e.machine.regs[x].toNat
      (16 ≤ e.machine.regs[x].toNat → held = false) ∧
      (e.instruction? = some (.skipHeld x) →
        e.next.pc = e.machine.pc + if held then 4 else 2) ∧
      (e.instruction? = some (.skipNotHeld x) →
        e.next.pc = e.machine.pc + if held then 2 else 4)) := by
  intro moments history keypad
  have hidle : (ofSeed seed).machine.keypad = Keypad.idle := rfl
  have hkeypad := Machine.keypad_actAll hidle ((ofSeed seed).actions calls)
  rw [← machine_performAll] at hkeypad
  refine ⟨fun key => (hkeypad key).1, fun key => (hkeypad key).2, ?_,
    fun e _ x hx => Moment.waits_of_instruction? hx,
    fun j wait hj hc => Machine.exists_delivers hidle hj hc,
    fun i j j' press press' wait wait' key key' h h' => h.unique h',
    fun p key h => p.perform_of_no_key h, fun p h n later => performAll_of_waiting h n later,
    fun e _ x => ⟨Keypad.isHeld_eq_false_of_le _, Moment.pc_of_poll⟩⟩
  intro e _ hl hreleases
  rw [Moment.keypad_next hl]
  cases he : e.keyEvent? with
  | none => rfl
  | some event =>
    obtain ⟨key, rfl⟩ := hreleases event he
    rfl

/-- Two presses, of which the last one is key 0, and its release. The first wait takes the 0, the
poll finds key 0 up, and the second wait finds no press. -/
theorem keypad_law_two_waits :
    let calls : List Call :=
      [.load [0xF3, 0x0A, 0xE3, 0x9E, 0xF4, 0x0A], .press 7, .press 0, .release 0, .press 16, .cycle,
        .step, .step]
    let moments := (ofSeed 0).moments calls
    let p := (ofSeed 0).performAll calls
    KeyEvent.Holds (Moment.keyEvents moments) 7 ∧
    (∀ key, ¬ KeyEvent.Pends (Moment.keyEvents moments) key) ∧
    (∃ wait, moments[5]? = some wait ∧ wait.next.regs[(3 : Nibble)].toNat = 0 ∧
      ∃ i press, Moment.Delivers moments i 5 press wait 0) ∧
    (∃ stalled, moments[7]? = some stalled ∧ stalled.answer? = some (.ok .waiting)) ∧
    p.performAll (List.replicate 9 .step ++ [.press 5]) = p.performAll [.press 5] := by
  intro calls moments p
  let wait := moments.get ⟨5, by decide +kernel⟩
  let stalled := moments.get ⟨7, by decide +kernel⟩
  obtain ⟨hheld, hpending, hwait, hkey, hstalled, hnone, hanswer⟩ :
      ((ofSeed 0).performAll calls).machine.keypad.isHeld (7 : Nibble) = true ∧
      ((ofSeed 0).performAll calls).machine.keypad.pending = none ∧
      wait.instruction? = some (.waitKey 3) ∧ wait.machine.keypad.pending = some 0 ∧
      stalled.instruction? = some (.waitKey 4) ∧ stalled.machine.keypad.pending = none ∧
      (p.perform .step).1 = .ok (some .waiting) := by decide +kernel
  obtain ⟨held, pends, _, waits, delivers, _, _, stalls, _⟩ := keypad_law 0 calls
  have hwaits : wait.Waits 3 := waits wait (List.get_mem _ _) 3 hwait
  have hstalls : stalled.Waits 4 := waits stalled (List.get_mem _ _) 4 hstalled
  have hwaitAt : moments[5]? = some wait := List.getElem?_eq_getElem _
  have hstalledAt : moments[7]? = some stalled := List.getElem?_eq_getElem _
  have hcompletes : wait.completes = true :=
    hwaits.completes_iff.mpr fun h => nomatch hkey.symm.trans h
  obtain ⟨i, press, key, hdelivers, hpress⟩ := delivers 5 wait hwaitAt hcompletes
  obtain rfl : key = 0 := Option.some.inj (hpress.symm.trans hkey)
  refine ⟨(held 7).mp hheld, fun key h => ?_,
    ⟨wait, hwaitAt, (hwaits.takes 0 hkey).2.1, i, press, hdelivers⟩,
    ⟨stalled, hstalledAt, (hstalls.stalls hnone).1⟩, ?_⟩
  · exact nomatch hpending.symm.trans ((pends key).mpr h)
  · exact stalls p hanswer 9 [.press 5]

end Pacer

end Chip8
