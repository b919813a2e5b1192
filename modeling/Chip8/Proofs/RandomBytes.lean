import Chip8.Proofs.TwoRuns

/-!
# Random bytes

One instruction draws random bytes: `Cxnn` draws one each time that it is carried out, even if its
mask lets nothing through. So the number of bytes drawn is the number of draws in the history
(`Machine.random_actAll`), over all programs that were loaded, and each draw gives the byte of the
stream at its own place.

Machines that differ in their random streams are alike until a draw lets a bit through
(`likenessUnless_random`). `random_law` puts both together for the histories of a pacer.
-/

namespace Chip8

/-! ## Draws -/

namespace Moment

/-- Whether a random byte is drawn. -/
def draws (e : Moment) : Bool :=
  match e.instruction? with
  | some (.random _ _) => true
  | _ => false

theorem draws_iff {e : Moment} :
    e.draws = true ↔ ∃ x nn, e.instruction? = some (.random x nn) := by
  unfold draws
  constructor
  · intro h
    split at h
    · next x nn hi => exact ⟨x, nn, hi⟩
    · cases h
  · rintro ⟨x, nn, hi⟩
    rw [hi]

/-- What is loaded, waits, faults or is paused draws nothing. -/
theorem answer?_of_draws {e : Moment} (h : e.draws = true) : e.answer? = some (.ok .ran) := by
  obtain ⟨x, nn, hi⟩ := draws_iff.mp h
  obtain ⟨m, _, _, _, _, hanswer, _⟩ := exists_of_instruction? hi
  exact hanswer

/-- A draw takes one byte from the stream, and nothing else does. -/
theorem random_next (e : Moment) :
    e.next.random = if e.draws then e.machine.random.advance else e.machine.random := by
  rcases e.cases with ⟨_, hi, rom, hnext⟩ | ⟨_, m, i, hrests, hi, _, hnext⟩ | ⟨_, hi, hkeeps⟩
  · rw [hnext, draws, hi]
    rfl
  · rw [hnext, draws, hi, ← hrests.random]
    cases i <;> rfl
  · rw [hkeeps.random, draws, hi]
    rfl

theorem regs_of_random {e : Moment} {x : Nibble} {nn : UInt8}
    (h : e.instruction? = some (.random x nn)) :
    e.next.regs[x] = e.machine.random.peek &&& nn := by
  obtain ⟨m, _, hrests, _, _, _, hnext⟩ := exists_of_instruction? h
  rw [hnext, ← hrests.random]
  exact Registers.getElem_set_self _ x _

end Moment

namespace Machine

/-- A run goes on in the stream by as many bytes as it has draws. -/
theorem random_actAll (m : Machine) (actions : List Action) :
    (m.actAll actions).random =
      ⟨m.random.key, m.random.drawn + (m.moments actions).countP Moment.draws⟩ := by
  induction actions generalizing m with
  | nil => rfl
  | cons a actions ih =>
    have hnext := Moment.random_next ⟨m, a⟩
    have hact : Moment.next ⟨m, a⟩ = m.act a := rfl
    rw [hact] at hnext
    show ((m.act a).actAll actions).random = _
    rw [ih, hnext, moments, List.countP_cons]
    cases Moment.draws ⟨m, a⟩ with
    | true =>
      simp only [if_true, Random.Stream.advance, Random.Stream.mk.injEq, true_and]
      omega
    | false => simp

/-- A draw gives the byte at its place among the draws of the run. -/
theorem regs_of_getElem?_draws {m : Machine} {actions : List Action} {k : Nat} {e : Moment}
    (h : ((m.moments actions).filter Moment.draws)[k]? = some e) :
    ∃ x nn, e.instruction? = some (.random x nn) ∧
      e.next.regs[x] = Random.byteAt m.random.key (m.random.drawn + k) &&& nn := by
  obtain ⟨hk, hget⟩ := List.getElem?_eq_some_iff.mp h
  -- cut the run at the draw: before it are the draws that come first, and moments without one
  have hcut := (List.take_append_drop k ((m.moments actions).filter Moment.draws)).symm
  rw [List.drop_eq_getElem_cons hk, hget] at hcut
  obtain ⟨first, second, hrun, hfirst, hsecond⟩ := List.filter_eq_append_iff.mp hcut
  obtain ⟨gap, behind, rfl, hgap, hdraws, _⟩ := List.filter_eq_cons_iff.mp hsecond
  rw [← List.append_assoc] at hrun
  obtain ⟨before, hbefore, hlast⟩ := exists_of_moments_eq_append hrun
  have hcount : (first ++ gap).countP Moment.draws = k := by
    have hnone : gap.countP Moment.draws = 0 := List.countP_eq_zero.mpr hgap
    rw [List.countP_append, hnone, List.countP_eq_length_filter, hfirst, List.length_take]
    omega
  obtain ⟨x, nn, hi⟩ := Moment.draws_iff.mp hdraws
  refine ⟨x, nn, hi, ?_⟩
  rw [Moment.regs_of_random hi, ← hlast, random_actAll, hbefore, hcount]
  rfl

/-! ## Machines with different streams -/

/-- `n` is `m` but for the random stream. -/
def SameButRandom (m n : Machine) : Prop := ∃ random, n = { m with random := random }

/-- A draw with a mask that lets a bit through. -/
def ShowsRandom (i : Instruction) : Prop := ∃ x nn, i = .random x nn ∧ nn ≠ 0

theorem SameButRandom.after (m : Machine) (random : Random.Stream) {i : Instruction}
    (hi : ¬ ShowsRandom i) :
    SameButRandom (m.after i) (Machine.after { m with random := random } i) := by
  cases i
  case random x nn =>
    obtain rfl : nn = 0 := by
      by_contra hne
      exact hi ⟨x, nn, rfl, hne⟩
    refine ⟨random.advance, ?_⟩
    simp only [Machine.after, regsAfter, UInt8.and_zero]
    rfl
  all_goals exact ⟨random, rfl⟩

theorem likenessUnless_random : LikenessUnless ShowsRandom SameButRandom where
  paused := by rintro m _ ⟨random, rfl⟩; rfl
  step := by
    rintro m _ ⟨random, rfl⟩ hquiet
    refine step_congr ⟨random, rfl⟩ rfl rfl ?_ ⟨random, rfl⟩ fun i hi => ⟨?_, ?_⟩
    · intro i
      cases i <;> rfl
    · cases i <;> rfl
    · exact SameButRandom.after m random (hquiet i hi)
  countFrame := by
    rintro m _ ⟨random, rfl⟩
    unfold countFrame
    split <;> exact ⟨random, rfl⟩
  boot := by rintro m _ ⟨random, rfl⟩ rom; exact ⟨random, rfl⟩
  tick := by rintro m _ ⟨random, rfl⟩; exact ⟨random, rfl⟩
  press := by
    rintro m _ ⟨random, rfl⟩ key
    unfold press
    split <;> exact ⟨random, rfl⟩
  release := by
    rintro m _ ⟨random, rfl⟩ key
    unfold release
    split <;> exact ⟨random, rfl⟩
  setSpeed := by rintro m _ ⟨random, rfl⟩ speed; exact ⟨random, rfl⟩
  speedUp := by rintro m _ ⟨random, rfl⟩; exact ⟨random, rfl⟩
  speedDown := by rintro m _ ⟨random, rfl⟩; exact ⟨random, rfl⟩

end Machine

/-! ## Histories of calls -/

namespace Pacer

/-- The random stream of every machine that a history of calls can lead to. As many bytes were drawn
as instructions `Cxnn` were carried out, whatever the masks; a loaded program, a wait, a fault and a
pause draw none. Each draw gave the byte at its own place in the stream. And as long as every mask
is 0, a machine with another seed answers the same and differs in nothing but its random stream. -/
theorem random_law (seed : UInt64) (calls : List Call) :
    let trace := (ofSeed seed).moments calls
    ((ofSeed seed).performAll calls).machine.random = ⟨.ofSeed seed, trace.countP Moment.draws⟩ ∧
    (∀ e ∈ trace,
      e.next.random = if e.draws then e.machine.random.advance else e.machine.random) ∧
    (∀ e : Moment, e.draws = true ↔ ∃ x nn, e.instruction? = some (.random x nn)) ∧
    (∀ e : Moment, e.draws = true → e.answer? = some (.ok .ran)) ∧
    (∀ k e, (trace.filter Moment.draws)[k]? = some e →
      ∃ x nn, e.instruction? = some (.random x nn) ∧
        e.next.regs[x] = Random.byteAt (.ofSeed seed) k &&& nn) ∧
    (∀ seed' : UInt64,
      (∀ e ∈ trace, ∀ x nn, e.instruction? = some (.random x nn) → nn = 0) →
        List.Forall₂ (Stage.Matches Machine.SameButRandom) ((ofSeed seed).stages calls)
          ((ofSeed seed').stages calls) ∧
        Machine.SameButRandom ((ofSeed seed).performAll calls).machine
          ((ofSeed seed').performAll calls).machine) := by
  intro trace
  refine ⟨?_, fun e _ => e.random_next, fun _ => Moment.draws_iff,
    fun _ => Moment.answer?_of_draws, fun k e h => ?_, fun seed' hmasks => ?_⟩
  · rw [machine_performAll, Machine.random_actAll]
    show (⟨.ofSeed seed, 0 + trace.countP Moment.draws⟩ : Random.Stream) = _
    rw [Nat.zero_add]
  · obtain ⟨x, nn, hi, hregs⟩ := Machine.regs_of_getElem?_draws h
    refine ⟨x, nn, hi, ?_⟩
    rw [hregs]
    show Random.byteAt (.ofSeed seed) (0 + k) &&& nn = _
    rw [Nat.zero_add]
  · have hquiet : ∀ e ∈ trace, e.Quiet Machine.ShowsRandom := by
      rintro e he i hi ⟨x, nn, rfl, hne⟩
      exact hne (hmasks e he x nn hi)
    have halike : Alike Machine.SameButRandom (ofSeed seed) (ofSeed seed') :=
      ⟨⟨{ key := .ofSeed seed' }, rfl⟩, rfl⟩
    obtain ⟨hstages, hall⟩ := Machine.likenessUnless_random.stages halike hquiet
    exact ⟨hstages, hall.machine⟩

/-- A draw without a mask, a draw, a fault and a pause, and then another program with a draw: it is
the third one, and up to the second one the seed does not matter. -/
theorem random_law_reloaded :
    let first : List Call := [.load [0xC0, 0x00, 0xC1, 0xFF, 0x00, 0xEE], .cycle, .tick]
    let calls := first ++ [.step, .step, .update 1, .load [0xC2, 0x0F], .step]
    ((ofSeed 7).performAll calls).machine.random.drawn = 3 ∧
      (∃ e ∈ (ofSeed 7).moments calls, e.instruction? = some (.random 2 0x0F) ∧
        e.next.regs[(2 : Nibble)] = Random.byteAt (.ofSeed 7) 2 &&& 0x0F) ∧
      Machine.SameButRandom ((ofSeed 7).performAll first).machine
        ((ofSeed 8).performAll first).machine := by
  intro first calls
  let draws := ((ofSeed 7).moments calls).filter Moment.draws
  let third := draws.get ⟨2, by decide +kernel⟩
  obtain ⟨hcount, hthird, hfirst⟩ :
      ((ofSeed 7).moments calls).countP Moment.draws = 3 ∧
      third.instruction? = some (.random 2 0x0F) ∧
      ((ofSeed 7).moments first).map Moment.instruction? =
        [none, some (.random 0 0), none] := by decide +kernel
  have law := random_law 7 calls
  obtain ⟨x, nn, hi, hregs⟩ := law.2.2.2.2.1 2 third (List.getElem?_eq_getElem _)
  rw [hthird] at hi
  cases hi
  have hmasks : ∀ e ∈ (ofSeed 7).moments first, ∀ x nn,
      e.instruction? = some (.random x nn) → nn = 0 := by
    intro e he x nn hi
    have hmem : some (Instruction.random x nn) ∈ ((ofSeed 7).moments first).map Moment.instruction? :=
      List.mem_map.mpr ⟨e, he, hi⟩
    rw [hfirst] at hmem
    obtain ⟨_, rfl⟩ : x = 0 ∧ nn = 0 := by simpa using hmem
    rfl
  refine ⟨?_, ⟨third, List.mem_of_mem_filter (List.get_mem draws _), hthird, hregs⟩,
    ((random_law 7 first).2.2.2.2.2 8 hmasks).2⟩
  rw [law.1, hcount]

end Pacer

end Chip8
