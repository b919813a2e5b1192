import Chip8.CommandLine.Arguments

/-!
# What arguments can ask for

Reading the arguments changes the settings where a value is accepted and where a flag is raised,
and nowhere else. What neither breaks, and what holds of the settings at first, therefore holds of
all settings that arguments can ask for (`Settings.ofArguments_induction`). The speed is an
instance: arguments that start a run ask for one of the speeds that a machine has
(`Settings.speed_of_ofArguments`).
-/

namespace Chip8.CommandLine

theorem speed_of_readSpeed {text : List Char} {speed : Nat} (h : readSpeed text = .ok speed) :
    Machine.minSpeed ≤ speed ∧ speed ≤ Machine.maxSpeed := by
  unfold readSpeed at h
  split at h
  · cases h
  · split at h
    · cases h
    · split at h
      · cases h
      · next hle hge =>
        cases h
        exact ⟨Nat.not_lt.mp hge, Nat.not_lt.mp hle⟩

theorem exists_of_bind_eq_ok {ε α β : Type} {x : Except ε α} {f : α → Except ε β} {b : β}
    (h : x >>= f = .ok b) : ∃ a, x = .ok a ∧ f a = .ok b := by
  cases x with
  | error e => cases h
  | ok a => exact ⟨a, rfl, h⟩

namespace Reader

variable {P : Settings → Prop} {r next : Reader} {p : Parameter} {text : List Char}

/-- A property of settings that no parameter breaks. -/
structure Kept (P : Settings → Prop) : Prop where
  accept : ∀ {r next : Reader} {p text}, r.accept p text = .ok next → P r.settings → P next.settings
  raise : ∀ {r next : Reader} {p}, r.raise p = .ok next → P r.settings → P next.settings

namespace Kept

variable (hP : Kept P)

include hP

theorem settle (h : r.settle = .ok next) (hr : P r.settings) : P next.settings := by
  unfold Reader.settle at h
  split at h
  · cases h
    exact hr
  · cases h
  · exact hP.accept h hr

theorem placePath (h : r.placePath text = .ok next) (hr : P r.settings) : P next.settings := by
  unfold Reader.placePath at h
  split at h
  · cases h
  · obtain ⟨settled, hs, hnext⟩ := exists_of_bind_eq_ok h
    have hsettled := hP.settle hs hr
    cases hnext
    exact hsettled

theorem placeOption {attached : Option (List Char)} (h : r.placeOption p attached = .ok next)
    (hr : P r.settings) : P next.settings := by
  obtain ⟨settled, hs, hnext⟩ := exists_of_bind_eq_ok h
  have hsettled := hP.settle hs hr
  cases attached with
  | none =>
    cases hnext
    exact hsettled
  | some text => exact hP.accept hnext hsettled

theorem placeFlag (h : r.placeFlag p = .ok next) (hr : P r.settings) : P next.settings := by
  obtain ⟨settled, hs, hnext⟩ := exists_of_bind_eq_ok h
  exact hP.raise hnext (hP.settle hs hr)

theorem placeLong {name : List Char} {attached : Option (List Char)}
    (h : r.placeLong name attached = .ok next) (hr : P r.settings) : P next.settings := by
  unfold Reader.placeLong at h
  split at h
  · cases h
  · split at h
    · exact hP.placeOption h hr
    · split at h
      · cases h
      · exact hP.placeFlag h hr

theorem placeShort {group : List Char} (h : r.placeShort group = .ok next) (hr : P r.settings) :
    P next.settings := by
  induction group generalizing r with
  | nil =>
    cases h
    exact hr
  | cons c rest ih =>
    unfold Reader.placeShort at h
    split at h
    · cases h
    · split at h
      · exact hP.placeOption h hr
      · obtain ⟨flagged, hf, hnext⟩ := exists_of_bind_eq_ok h
        exact ih hnext (hP.placeFlag hf hr)

theorem placeText (h : r.placeText text = .ok next) (hr : P r.settings) : P next.settings := by
  unfold Reader.placeText at h
  split at h
  · cases h
    exact hr
  · exact hP.placePath h hr

theorem place (h : r.place text = .ok next) (hr : P r.settings) : P next.settings := by
  unfold Reader.place at h
  split at h
  · exact hP.placePath h hr
  · split at h
    · cases h
      exact hr
    · exact hP.placeLong h hr
    · exact hP.placeText h hr
    · exact hP.placeShort h hr
    · exact hP.placeText h hr

theorem placeAll {arguments : List String}
    (h : arguments.foldlM (fun (r : Reader) a => r.place a.toList) r = .ok next)
    (hr : P r.settings) : P next.settings := by
  induction arguments generalizing r with
  | nil =>
    cases h
    exact hr
  | cons a arguments ih =>
    rw [List.foldlM_cons] at h
    obtain ⟨placed, hp, hnext⟩ := exists_of_bind_eq_ok h
    exact ih hnext (hP.place hp hr)

theorem finish {s : Settings} (h : r.finish = .ok s) (hr : P r.settings) : P s := by
  obtain ⟨settled, hs, hnext⟩ := exists_of_bind_eq_ok h
  split at hnext
  · cases hnext
    exact hP.settle hs hr
  · cases hnext

end Kept

/-- No parameter takes the speed out of its range. -/
theorem kept_speed :
    Kept fun s => Machine.minSpeed ≤ s.speed ∧ s.speed ≤ Machine.maxSpeed where
  accept := by
    intro r next p text h hr
    cases p
    case path =>
      simp only [accept] at h
      split at h
      · cases h
      · cases h
        exact hr
    case speed =>
      obtain ⟨marked, _, h⟩ := exists_of_bind_eq_ok h
      obtain ⟨speed, hs, h⟩ := exists_of_bind_eq_ok h
      cases h
      unfold readAs at hs
      cases hread : readSpeed text with
      | error e =>
        rw [hread] at hs
        cases hs
      | ok value =>
        rw [hread] at hs
        cases hs
        exact speed_of_readSpeed hread
    case frames =>
      obtain ⟨marked, _, h⟩ := exists_of_bind_eq_ok h
      obtain ⟨frames, _, h⟩ := exists_of_bind_eq_ok h
      cases h
      exact hr
    case keys =>
      obtain ⟨keys, _, h⟩ := exists_of_bind_eq_ok h
      cases h
      exact hr
    all_goals cases h
  raise := by
    intro r next p h hr
    cases p
    case realtime | dump =>
      obtain ⟨marked, _, h⟩ := exists_of_bind_eq_ok h
      cases h
      exact hr
    case verbose =>
      cases h
      exact hr
    all_goals cases h

end Reader

namespace Settings

/-- What no parameter breaks holds of all settings that arguments ask for. -/
theorem ofArguments_induction {P : Settings → Prop} (hP : Reader.Kept P) (hstart : P {})
    {arguments : List String} {s : Settings} (h : ofArguments arguments = .ok s) : P s := by
  obtain ⟨r, hr, hs⟩ := exists_of_bind_eq_ok h
  exact hP.finish hs (hP.placeAll hr hstart)

theorem speed_of_ofArguments {arguments : List String} {s : Settings}
    (h : ofArguments arguments = .ok s) :
    Machine.minSpeed ≤ s.speed ∧ s.speed ≤ Machine.maxSpeed :=
  ofArguments_induction Reader.kept_speed (by decide) h

end Settings

end Chip8.CommandLine
