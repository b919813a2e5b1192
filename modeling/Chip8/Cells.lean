/-!
# Runs of cells

A run is a block of consecutive cells of a vector. `readRun` takes a run out and `writeRun` puts
one in, and both stop at the end of the vector. Each is described cell by cell:

* `getElem?_readRun`: cell `i` of the run from `start` is cell `start + i`;
* `getElem?_writeRun`: the cells of the run hold the new values and all others keep theirs.

So a run just written is read back (`readRun_writeRun`).
-/

namespace Chip8

variable {α : Type} {n : Nat}

/-- The `length` cells from `start` on, as far as there are that many. -/
def readRun (v : Vector α n) (start length : Nat) : List α :=
  (v.extract start (start + length)).toList

/-- The cells with `values` put in from `start` on. -/
def writeRun (v : Vector α n) (start : Nat) : List α → Vector α n
  | [] => v
  | a :: as => writeRun (v.setIfInBounds start a) (start + 1) as

theorem getElem?_readRun (v : Vector α n) (start length i : Nat) :
    (readRun v start length)[i]? = if i < length then v[start + i]? else none := by
  unfold readRun
  simp only [Vector.getElem?_toList, Vector.getElem?_extract]
  by_cases h : i < length
  · by_cases h' : start + i < n
    · rw [if_pos (by omega), if_pos h]
    · rw [if_neg (by omega), if_pos h, Vector.getElem?_eq_none (by omega)]
  · rw [if_neg (by omega), if_neg h]

theorem length_readRun {v : Vector α n} {start length : Nat} (h : start + length ≤ n) :
    (readRun v start length).length = length := by
  simp only [readRun, Vector.length_toList]
  omega

theorem getElem?_writeRun (v : Vector α n) (start : Nat) (values : List α) (k : Nat) :
    (writeRun v start values)[k]? =
      if start ≤ k ∧ k < start + values.length ∧ k < n then values[k - start]? else v[k]? := by
  induction values generalizing v start with
  | nil => rw [writeRun, if_neg (by rw [List.length_nil]; omega)]
  | cons a as ih =>
    rw [writeRun, ih, Vector.getElem?_setIfInBounds]
    simp only [List.length_cons]
    by_cases hk : k = start
    · subst hk
      by_cases hn : k < n
      · rw [if_neg (by omega), if_pos rfl, if_pos hn, if_pos (by omega), Nat.sub_self]
        rfl
      · rw [if_neg (by omega), if_pos rfl, if_neg hn, if_neg (by omega),
          Vector.getElem?_eq_none (by omega)]
    · by_cases hr : start + 1 ≤ k ∧ k < start + 1 + as.length ∧ k < n
      · rw [if_pos hr, if_pos (by omega), show k - start = k - (start + 1) + 1 by omega]
        rfl
      · rw [if_neg hr, if_neg (Ne.symm hk), if_neg (by omega)]

theorem getElem?_writeRun_of_outside (v : Vector α n) (start : Nat) (values : List α) {k : Nat}
    (h : k < start ∨ start + values.length ≤ k) : (writeRun v start values)[k]? = v[k]? := by
  rw [getElem?_writeRun, if_neg (by omega)]

/-- A run that fits is read back as it was written. -/
theorem readRun_writeRun (v : Vector α n) (start : Nat) (values : List α)
    (h : start + values.length ≤ n) :
    readRun (writeRun v start values) start values.length = values := by
  apply List.ext_getElem?
  intro i
  rw [getElem?_readRun, getElem?_writeRun]
  by_cases hi : i < values.length
  · rw [if_pos hi, if_pos (by omega), Nat.add_sub_cancel_left]
  · rw [if_neg hi, List.getElem?_eq_none (by omega)]

/-- Writing back what is there changes nothing. -/
theorem writeRun_readRun (v : Vector α n) (start length : Nat) (h : start + length ≤ n) :
    writeRun v start (readRun v start length) = v := by
  apply Vector.ext
  intro k hk
  have key : (writeRun v start (readRun v start length))[k]? = v[k]? := by
    rw [getElem?_writeRun, getElem?_readRun, length_readRun h]
    split
    · next hr => rw [if_pos (by omega), show start + (k - start) = k by omega]
    · rfl
  simpa [hk] using key

end Chip8
