import Mathlib.Data.List.Basic
import Chip8.CommandLine.Session

/-!
# What is shown of a refusal

The text for arguments that start no run quotes what was typed, and that may be anything. It is
shown as plain text, so no argument can make the program write a control sequence
(`report_of_refused`). Plain text is exactly what holds nothing else than graphic characters and
blanks (`PlainText.plain_eq_self_iff`), and a text that quotes such an argument is shown word by
word (`Refusal.message_of_shows`).
-/

namespace Chip8.CommandLine

/-! ## Plain text -/

namespace PlainText

variable {s : State} {interrupted : Bool} {text : List Char} {c : Char}

/-- What is shown within a control sequence is shown outside as well. -/
theorem State.ground_shows_of_shows (h : s.shows c = true) : State.ground.shows c = true := by
  cases s <;> simp_all [State.shows]

theorem shows_of_mem_plainFrom (h : c ∈ plainFrom s interrupted text) :
    State.ground.shows c = true := by
  induction text generalizing s interrupted with
  | nil => cases h
  | cons d ds ih =>
    rw [plainFrom] at h
    by_cases hd : (if interrupted then .ground else s).shows d = true
    · rw [if_pos hd] at h
      rcases List.mem_cons.mp h with rfl | h
      · exact State.ground_shows_of_shows hd
      · exact ih h
    · rw [if_neg hd] at h
      exact ih h

theorem shows_of_mem_plain (h : c ∈ plain text) : State.ground.shows c = true :=
  shows_of_mem_plainFrom h

theorem plainFrom_of_shows (h : ∀ c ∈ text, State.ground.shows c = true) :
    plainFrom .ground interrupted text = text := by
  induction text generalizing interrupted with
  | nil => rfl
  | cons c cs ih =>
    obtain ⟨hc, hcs⟩ := List.forall_mem_cons.mp h
    rw [plainFrom, ite_self, if_pos hc, ite_self, ih hcs]

/-- A text stays as it is exactly if it holds nothing but graphic characters and blanks. -/
theorem plain_eq_self_iff : plain text = text ↔ ∀ c ∈ text, State.ground.shows c = true :=
  ⟨fun h _ hc => shows_of_mem_plain (h ▸ hc), plainFrom_of_shows⟩

theorem plain_plain (text : List Char) : plain (plain text) = plain text :=
  plain_eq_self_iff.mpr fun _ => shows_of_mem_plain

end PlainText

/-! ## Refusals -/

open PlainText (State)

namespace Refusal

variable {r : Refusal}

theorem shows_of_mem_message {c : Char} (h : c ∈ r.message.toList) :
    State.ground.shows c = true := by
  rw [message, String.toList_ofList] at h
  obtain ⟨run, _, hc⟩ := List.mem_flatMap.mp h
  exact PlainText.shows_of_mem_plain hc

/-- A text for refused arguments that has nothing to leave out is shown word by word. -/
theorem message_of_shows (h : ∀ run ∈ r.runs, ∀ c ∈ run.toList, State.ground.shows c = true) :
    r.message = String.join r.runs := by
  have hruns : (r.runs.flatMap fun run => PlainText.plain run.toList) =
      r.runs.flatMap String.toList :=
    List.flatMap_congr fun run hrun => PlainText.plain_eq_self_iff.mpr (h run hrun)
  rw [message, hruns, ← String.toList_join, String.ofList_toList]

/-- An argument without a place is named as it was typed, if it is plain text. -/
theorem message_unexpectedArgument {text : List Char}
    (h : ∀ c ∈ text, State.ground.shows c = true) :
    (unexpectedArgument text).message =
      "unexpected argument '" ++ String.ofList text ++
        "' found\n\nFor more information, try '--help'." := by
  have hquoted : ∀ c ∈ (String.ofList text).toList, State.ground.shows c = true := by
    rw [String.toList_ofList]
    exact h
  rw [message_of_shows]
  · rw [← String.toList_inj, String.toList_join]
    simp [runs, helpOffer]
  · refine List.forall_mem_cons.mpr ⟨List.all_eq_true.mp (by decide), ?_⟩
    refine List.forall_mem_cons.mpr ⟨hquoted, ?_⟩
    have hoffer :
        (helpOffer "' found").all (fun run => run.toList.all State.ground.shows) = true := by
      decide
    exact fun run hrun => List.all_eq_true.mp (List.all_eq_true.mp hoffer run hrun)

end Refusal

/-- Whatever the arguments, a run that they do not start reports nothing but plain text. -/
theorem report_of_refused {w : World} {arguments : List String} {r : Refusal}
    (h : Settings.ofArguments arguments = .error r) :
    let report := run w arguments
    (∀ c ∈ report.output.toList, State.ground.shows c = true) ∧
      (∀ error ∈ report.error, ∀ c ∈ error.toList, State.ground.shows c = true) ∧
      report.causes = [] ∧ report.log = [] := by
  intro report
  have hreport : report = .ofRefusal r := by
    show run w arguments = _
    rw [run, h]
  rw [hreport]
  have hmessage : ∀ c ∈ r.message.toList, State.ground.shows c = true :=
    fun _ => Refusal.shows_of_mem_message
  cases r with
  | help => exact ⟨hmessage, by simp [Report.ofRefusal], rfl, rfl⟩
  | _ =>
    refine ⟨by simp [Report.ofRefusal, Report.ofFailure], ?_, rfl, rfl⟩
    rintro error ⟨⟩
    exact hmessage

end Chip8.CommandLine
