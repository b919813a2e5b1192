import Chip8.Proofs.Traces

/-!
# Two runs

A likeness is a relation of machines that no action breaks and no answer tells. Some relations are
likenesses only until an instruction is carried out that tells the machines apart
(`LikenessUnless`).

* `Likeness.performAll`: a host cannot tell two pacers apart whose machines are alike and to which
  the same time is owed, whatever it asks of them.
* `Pairing.stages`: two hosts may ask different things of alike pacers, as long as they ask the same
  of the program (`Pairing`). If nothing tells the machines apart, calls that belong together get
  one reply and leave alike machines.
-/

namespace Chip8

namespace Machine

/-- Two machines that fetch the same word and find the same fault make like steps, if they do so
when they carry out an instruction. -/
theorem step_congr {R : Machine → Machine → Prop} {m n : Machine} (h : R m n)
    (hpaused : n.paused = m.paused) (hfetch : n.fetch = m.fetch)
    (hfault : ∀ i, n.faultOf i = m.faultOf i)
    (hstop : R { m with paused := true } { n with paused := true })
    (hafter : ∀ i, m.carried? = some i →
      n.outcomeOf i = m.outcomeOf i ∧ R (m.after i) (n.after i)) :
    n.step.1 = m.step.1 ∧ R m.step.2 n.step.2 := by
  rcases step_cases m with ⟨hp, hm⟩ | ⟨hp, fault, hf, hm⟩ | ⟨hp, word, hw, hf, hm⟩
  · rw [hm, step_of_paused (hpaused.trans hp)]
    exact ⟨rfl, h⟩
  · have hnext : n.nextFault = some fault := by
      rw [← hf, nextFault, nextFault, hfetch]
      cases m.fetch with
      | ok word => exact hfault _
      | error fault => rfl
    rw [hm, step_of_fault (hpaused.trans hp) hnext]
    exact ⟨rfl, hstop⟩
  · obtain ⟨houtcome, hnext⟩ := hafter _ (carried?_eq_some hw hm)
    rw [hm, step_eq_after (hpaused.trans hp) (hfetch.trans hw) ((hfault _).trans hf), houtcome]
    exact ⟨rfl, hnext⟩

end Machine

/-- No instruction that `tells` is carried out. -/
def Moment.Quiet (tells : Instruction → Prop) (e : Moment) : Prop :=
  ∀ i, e.instruction? = some i → ¬ tells i

/-- A relation of machines that no action breaks, apart from the steps that a program makes. -/
structure Kept (R : Machine → Machine → Prop) : Prop where
  paused : ∀ {m n}, R m n → n.paused = m.paused
  countFrame : ∀ {m n}, R m n → R m.countFrame n.countFrame
  boot : ∀ {m n}, R m n → ∀ rom,
    R (Machine.boot rom m.speed m.random) (Machine.boot rom n.speed n.random)
  tick : ∀ {m n}, R m n → R m.tick n.tick
  press : ∀ {m n}, R m n → ∀ key, R (m.press key) (n.press key)
  release : ∀ {m n}, R m n → ∀ key, R (m.release key) (n.release key)
  setSpeed : ∀ {m n}, R m n → ∀ speed, R (m.setSpeed speed) (n.setSpeed speed)

/-- A relation of machines that every action keeps and that no answer shows. -/
structure Likeness (R : Machine → Machine → Prop) : Prop extends Kept R where
  speed : ∀ {m n}, R m n → n.speed = m.speed
  step : ∀ {m n}, R m n → n.step.1 = m.step.1 ∧ R m.step.2 n.step.2

/-- A relation of machines that every action keeps and that no answer shows, as long as the first
machine carries out no instruction that `tells`. -/
structure LikenessUnless (tells : Instruction → Prop) (R : Machine → Machine → Prop) : Prop
    extends Kept R where
  step : ∀ {m n}, R m n → (∀ i, m.carried? = some i → ¬ tells i) →
    n.step.1 = m.step.1 ∧ R m.step.2 n.step.2
  speedUp : ∀ {m n}, R m n → R m.speedUp n.speedUp
  speedDown : ∀ {m n}, R m n → R m.speedDown n.speedDown

theorem Likeness.unless {R : Machine → Machine → Prop} (hR : Likeness R)
    (tells : Instruction → Prop) : LikenessUnless tells R where
  toKept := hR.toKept
  step h _ := hR.step h
  speedUp {m n} h := by
    rw [Machine.speedUp, Machine.speedUp, hR.speed h]
    exact hR.setSpeed h _
  speedDown {m n} h := by
    rw [Machine.speedDown, Machine.speedDown, hR.speed h]
    exact hR.setSpeed h _

namespace Pacer

/-- Two pacers with alike machines and the same time owed to them. -/
structure Alike (R : Machine → Machine → Prop) (p q : Pacer) : Prop where
  machine : R p.machine q.machine
  owed : q.owed = p.owed

end Pacer

/-! ## One call -/

namespace LikenessUnless

open Pacer

variable {tells : Instruction → Prop} {R : Machine → Machine → Prop} (hR : LikenessUnless tells R)

include hR

theorem cycle {m n : Machine} (h : R m n) (hquiet : Moment.Quiet tells ⟨m, .frame⟩) :
    n.cycle.1 = m.cycle.1 ∧ R m.cycle.2 n.cycle.2 :=
  hR.step (hR.countFrame h) hquiet

theorem afterFrame {p q : Pacer} (h : Alike R p q)
    (hquiet : Moment.Quiet tells ⟨p.machine, .frame⟩) : Alike R p.afterFrame q.afterFrame where
  machine := (hR.cycle h.machine hquiet).2
  owed := congrArg (· - frameStep) h.owed

theorem drain {p q : Pacer} (h : Alike R p q) (budget : Nat) (last : Outcome)
    (hquiet : ∀ k, (drain budget last p).2.frames = p.frames + k →
      ∀ e ∈ p.machine.moments (List.replicate k .frame), e.Quiet tells) :
    (drain budget last q).1 = (drain budget last p).1 ∧
      Alike R (drain budget last p).2 (drain budget last q).2 := by
  induction budget generalizing last p q with
  | zero =>
    by_cases hdue : frameStep ≤ p.owed
    · rw [drain_of_no_budget hdue, drain_of_no_budget (h.owed.symm ▸ hdue)]
      exact ⟨rfl, h.machine, rfl⟩
    · rw [drain_of_not_due hdue, drain_of_not_due (h.owed.symm ▸ hdue)]
      exact ⟨rfl, h⟩
  | succ budget ih =>
    by_cases hdue : frameStep ≤ p.owed
    · have hdue' : frameStep ≤ q.owed := h.owed.symm ▸ hdue
      cases hc : p.machine.cycle.1 with
      | ok outcome =>
        rw [drain_of_ok hdue hc] at hquiet ⊢
        have hrest : ∀ k,
            (Pacer.drain budget outcome p.afterFrame).2.frames = p.afterFrame.frames + k →
              ∀ e ∈ p.machine.moments (List.replicate (k + 1) .frame), e.Quiet tells :=
          fun k hk => hquiet (k + 1) (hk.trans (Nat.add_right_comm _ _ _))
        obtain ⟨k, hk, _⟩ := drain_frames budget outcome p.afterFrame
        have hfirst : Moment.Quiet tells ⟨p.machine, .frame⟩ := hrest k hk _ List.mem_cons_self
        have hanswer := (hR.cycle h.machine hfirst).1
        rw [drain_of_ok hdue' (hanswer.trans hc)]
        exact ih (hR.afterFrame h hfirst) outcome
          fun k hk e he => hrest k hk e (List.mem_cons_of_mem _ he)
      | error fault =>
        rw [drain_of_error hdue hc] at hquiet ⊢
        have hfirst : Moment.Quiet tells ⟨p.machine, .frame⟩ := hquiet 1 rfl _ List.mem_cons_self
        have hanswer := (hR.cycle h.machine hfirst).1
        rw [drain_of_error hdue' (hanswer.trans hc)]
        exact ⟨rfl, hR.afterFrame h hfirst⟩
    · rw [drain_of_not_due hdue, drain_of_not_due (h.owed.symm ▸ hdue)]
      exact ⟨rfl, h⟩

theorem update {p q : Pacer} (h : Alike R p q) (dt : Float32)
    (hquiet : ∀ e ∈ p.machine.moments (p.actionsOf (.update dt)), e.Quiet tells) :
    (q.update dt).1 = (p.update dt).1 ∧ Alike R (p.update dt).2 (q.update dt).2 := by
  have howed : Alike R { p with owed := p.owed + dt } { q with owed := q.owed + dt } :=
    ⟨h.machine, congrArg (· + dt) h.owed⟩
  have hframes : ∀ k, (p.update dt).2.frames = p.frames + k →
      ∀ e ∈ p.machine.moments (List.replicate k .frame), e.Quiet tells := by
    intro k hk
    rwa [actionsOf, hk, Nat.add_sub_cancel_left] at hquiet
  unfold Pacer.update at hframes ⊢
  rw [hR.paused h.machine]
  exact hR.drain howed _ _ hframes

theorem perform {p q : Pacer} (h : Alike R p q) (call : Call)
    (hquiet : ∀ e ∈ p.machine.moments (p.actionsOf call), e.Quiet tells) :
    (q.perform call).1 = (p.perform call).1 ∧ Alike R (p.perform call).2 (q.perform call).2 := by
  obtain ⟨hm, howed⟩ := h
  cases call
  case load rom =>
    rw [perform_load, perform_load]
    split
    · exact ⟨rfl, hR.boot hm rom, howed⟩
    · exact ⟨rfl, hm, howed⟩
  case step =>
    obtain ⟨hanswer, hnext⟩ := hR.step hm (hquiet ⟨p.machine, .step⟩ List.mem_cons_self)
    exact ⟨congrArg (·.map some) hanswer, hnext, howed⟩
  case cycle | runFrame =>
    obtain ⟨hanswer, hnext⟩ := hR.cycle hm (hquiet ⟨p.machine, .frame⟩ List.mem_cons_self)
    exact ⟨congrArg (·.map some) hanswer, hnext, howed⟩
  case update dt =>
    obtain ⟨hanswer, hnext⟩ := hR.update ⟨hm, howed⟩ dt hquiet
    exact ⟨congrArg (·.map some) hanswer, hnext⟩
  case tick => exact ⟨rfl, hR.tick hm, howed⟩
  case press key => exact ⟨rfl, hR.press hm key, howed⟩
  case release key => exact ⟨rfl, hR.release hm key, howed⟩
  case setSpeed speed => exact ⟨rfl, hR.setSpeed hm speed.toNat, howed⟩
  case speedUp => exact ⟨rfl, hR.speedUp hm, howed⟩
  case speedDown => exact ⟨rfl, hR.speedDown hm, howed⟩

end LikenessUnless

/-! ## One history for both -/

/-- Alike pacers give the same replies for ever, and stay alike. -/
theorem Likeness.performAll {R : Machine → Machine → Prop} (hR : Likeness R) {p q : Pacer}
    (h : Pacer.Alike R p q) (calls : List Call) :
    q.exchanges calls = p.exchanges calls ∧
      Pacer.Alike R (p.performAll calls) (q.performAll calls) := by
  induction calls generalizing p q with
  | nil => exact ⟨rfl, h⟩
  | cons call calls ih =>
    obtain ⟨hreply, hnext⟩ := (hR.unless fun _ => False).perform h call fun _ _ _ _ => id
    obtain ⟨hexchanges, hall⟩ := ih hnext
    refine ⟨?_, hall⟩
    rw [Pacer.exchanges, Pacer.exchanges, Pacer.exchange, Pacer.exchange, hreply, hexchanges]

/-! ## Two histories -/

/-- A call with its reply, and the machine that it leaves. -/
structure Stage where
  exchange : Exchange
  machine : Machine

namespace Stage

/-- The same reply, and machines that `R` relates. -/
structure Matches (R : Machine → Machine → Prop) (s t : Stage) : Prop where
  reply : t.exchange.reply = s.exchange.reply
  machine : R s.machine t.machine

/-- The stages of the calls that ask for something. -/
def asking {α : Type} (asks : Call → Option α) (stages : List Stage) : List Stage :=
  stages.filter fun s => (asks s.exchange.call).isSome

end Stage

namespace Pacer

/-- The stages of a history. -/
def stages (p : Pacer) : List Call → List Stage
  | [] => []
  | call :: calls => ⟨p.exchange call, (p.perform call).2.machine⟩ :: stages (p.perform call).2 calls

end Pacer

/-- Calls ask for things of type `α`, or for nothing. Alike pacers stay alike when one of them gets
a call that asks for nothing, or both get calls that ask for the same thing; then their replies are
the same too. This need only hold as long as no instruction that `tells` is carried out. -/
structure Pairing {α : Type} (tells : Instruction → Prop) (R : Machine → Machine → Prop)
    (asks : Call → Option α) : Prop where
  left : ∀ {p q : Pacer} {call}, Pacer.Alike R p q → asks call = none →
    Pacer.Alike R (p.perform call).2 q
  right : ∀ {p q : Pacer} {call}, Pacer.Alike R p q → asks call = none →
    Pacer.Alike R p (q.perform call).2
  both : ∀ {p q : Pacer} {call call'} {a : α}, Pacer.Alike R p q →
    asks call = some a → asks call' = some a →
    (∀ e ∈ p.machine.moments (p.actionsOf call), e.Quiet tells) →
      (q.perform call').1 = (p.perform call).1 ∧
        Pacer.Alike R (p.perform call).2 (q.perform call').2

namespace Pairing

open Pacer

variable {α : Type} {tells : Instruction → Prop} {R : Machine → Machine → Prop}
  {asks : Call → Option α} (hR : Pairing tells R asks)

include hR

/-- Calls that ask for nothing may come first in the second history. -/
theorem of_silent {p q : Pacer} (h : Alike R p q) {calls : List Call}
    (hsilent : ∀ call ∈ calls, asks call = none) (later : List Call) :
    ∃ q', Alike R p q' ∧ q.performAll (calls ++ later) = q'.performAll later ∧
      Stage.asking asks (q.stages (calls ++ later)) = Stage.asking asks (q'.stages later) := by
  induction calls generalizing q with
  | nil => exact ⟨q, h, rfl, rfl⟩
  | cons call calls ih =>
    rw [List.forall_mem_cons] at hsilent
    obtain ⟨q', halike, hperform, hstages⟩ := ih (hR.right h hsilent.1) hsilent.2
    refine ⟨q', halike, hperform, ?_⟩
    rw [← hstages]
    exact List.filter_cons_of_neg (by simp [exchange, hsilent.1])

/-- Two histories that ask for the same things, one after the other. -/
theorem stages {p q : Pacer} (h : Alike R p q) {calls calls' : List Call}
    (hasks : calls'.filterMap asks = calls.filterMap asks)
    (hquiet : ∀ e ∈ p.moments calls, e.Quiet tells) :
    List.Forall₂ (Stage.Matches R) (Stage.asking asks (p.stages calls))
        (Stage.asking asks (q.stages calls')) ∧
      Alike R (p.performAll calls) (q.performAll calls') := by
  induction calls generalizing p q calls' with
  | nil =>
    obtain ⟨q', halike, hperform, hstages⟩ :=
      hR.of_silent h (List.filterMap_eq_nil_iff.mp hasks) []
    rw [List.append_nil] at hperform hstages
    rw [hperform, hstages]
    exact ⟨.nil, halike⟩
  | cons call calls ih =>
    rw [moments_cons, List.forall_mem_append] at hquiet
    cases ha : asks call with
    | none =>
      rw [List.filterMap_cons_none ha] at hasks
      have hdrop : Stage.asking asks (p.stages (call :: calls)) =
          Stage.asking asks ((p.perform call).2.stages calls) :=
        List.filter_cons_of_neg (by simp [exchange, ha])
      rw [hdrop]
      exact ih (hR.left h ha) hasks hquiet.2
    | some a =>
      rw [List.filterMap_cons_some ha] at hasks
      obtain ⟨before, call', behind, rfl, hsilent, ha', hbehind⟩ :=
        List.filterMap_eq_cons_iff.mp hasks
      obtain ⟨q', halike, hperform, hstages⟩ := hR.of_silent h hsilent (call' :: behind)
      obtain ⟨hreply, hnext⟩ := hR.both halike ha ha' hquiet.1
      obtain ⟨hmatches, hall⟩ := ih hnext hbehind hquiet.2
      have hkeep : ∀ {r : Pacer} {call : Call} {calls : List Call}, asks call = some a →
          Stage.asking asks (r.stages (call :: calls)) =
            ⟨r.exchange call, (r.perform call).2.machine⟩ ::
              Stage.asking asks ((r.perform call).2.stages calls) :=
        fun ha => List.filter_cons_of_pos (by simp [exchange, ha])
      rw [hperform, hstages, hkeep ha, hkeep ha']
      exact ⟨.cons ⟨hreply, hnext.machine⟩ hmatches, hall⟩

end Pairing

/-- One history for both, as long as nothing tells the machines apart. -/
theorem LikenessUnless.stages {tells : Instruction → Prop} {R : Machine → Machine → Prop}
    (hR : LikenessUnless tells R) {p q : Pacer} (h : Pacer.Alike R p q) {calls : List Call}
    (hquiet : ∀ e ∈ p.moments calls, e.Quiet tells) :
    List.Forall₂ (Stage.Matches R) (p.stages calls) (q.stages calls) ∧
      Pacer.Alike R (p.performAll calls) (q.performAll calls) := by
  have hpairing : Pairing tells R (some : Call → Option Call) := by
    constructor
    case left | right =>
      rintro p q call _ ⟨⟩
    case both =>
      rintro p q call call' a h ⟨⟩ ⟨⟩ hquiet
      exact hR.perform h call hquiet
  have hall : ∀ stages, Stage.asking (some : Call → Option Call) stages = stages :=
    fun stages => List.filter_eq_self.mpr fun _ _ => rfl
  have hstages := hpairing.stages h rfl hquiet
  rwa [hall, hall] at hstages

end Chip8
