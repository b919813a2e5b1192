import Chip8.Proofs.Sessions
import Chip8.Proofs.Settings

/-!
# Keys that are held from the start

The keys of a command line are pressed once the program is loaded, in the order in which they were
named. So all of them are held in the first frame, and the last one is the press still to be taken
(`Keypad.pressAll_eq`). `key_options_law` goes the whole way, from the pieces of the arguments to
the keypad at the start.
-/

namespace Chip8

namespace Keypad

/-- The bits of some keys. -/
def mask (keys : List Nibble) : BitVec 16 :=
  keys.foldr (fun key held => 1#16 <<< key.val ||| held) 0#16

theorem getLsbD_mask (keys : List Nibble) (i : Nat) :
    (mask keys).getLsbD i = true ↔ ∃ key ∈ keys, key.val = i := by
  induction keys with
  | nil => simp [mask]
  | cons key keys ih =>
    have hkey : (1#16 <<< key.val).getLsbD i = decide (key.val = i) := by
      have := key.isLt
      rw [← BitVec.twoPow_eq, BitVec.getLsbD_twoPow]
      by_cases h : key.val = i
      · subst h; simp
      · simp [h]
    show (1#16 <<< key.val ||| mask keys).getLsbD i = true ↔ _
    rw [BitVec.getLsbD_or, Bool.or_eq_true, ih, hkey, decide_eq_true_iff, List.exists_mem_cons_iff]

/-- Pressing keys one after the other holds them all and leaves the last press pending. -/
theorem pressAll_eq (k : Keypad) (keys : List Nibble) :
    keys.foldl press k =
      { held := k.held ||| mask keys, pending := keys.getLast?.or k.pending } := by
  induction keys generalizing k with
  | nil =>
    have hmask : mask [] = 0#16 := rfl
    rw [hmask, BitVec.or_zero]
    rfl
  | cons key keys ih =>
    rw [List.foldl_cons, ih, List.getLast?_cons]
    congr 1
    · exact BitVec.or_assoc _ _ _
    · show keys.getLast?.or (some key) = _
      cases keys.getLast? <;> rfl

end Keypad

namespace Machine

theorem press_key (m : Machine) (key : Nibble) :
    m.press key.val.toUInt8 = { m with keypad := m.keypad.press key } := by
  have hkey : ∀ key : Nibble, Nibble.ofNat? key.val.toUInt8.toNat = some key := by decide
  rw [press, hkey]

theorem keypad_pressAll (m : Machine) (keys : List Nibble) :
    (keys.foldl (fun m key => m.press key.val.toUInt8) m).keypad =
      keys.foldl Keypad.press m.keypad := by
  induction keys generalizing m with
  | nil => rfl
  | cons key keys ih =>
    rw [List.foldl_cons, List.foldl_cons, ih, press_key]

end Machine

namespace CommandLine

/-- A session starts with all keys held that were asked for, and with the last of them pending. -/
theorem Session.keypad_start {settings : Settings} {rom : List UInt8} {random : Random.Key}
    {first : Session} (h : start settings rom random = .ok first) :
    first.pacer.machine.keypad =
      { held := Keypad.mask settings.keys, pending := settings.keys.getLast? } := by
  rw [start_eq] at h
  split at h
  · cases h
    show (settings.keys.foldl _ (Machine.boot _ _ _)).keypad = _
    rw [Machine.keypad_pressAll, Keypad.pressAll_eq]
    show Keypad.mk (0#16 ||| _) (settings.keys.getLast?.or none) = _
    rw [BitVec.zero_or, Option.or_none]
  · cases h

/-- The keys held in the first frame are those that were asked for. -/
theorem Session.isHeld_start {settings : Settings} {rom : List UInt8} {random : Random.Key}
    {first : Session} (h : start settings rom random = .ok first) (i : Nat) :
    first.pacer.machine.keypad.isHeld i = true ↔ ∃ key ∈ settings.keys, key.val = i := by
  rw [keypad_start h]
  exact Keypad.getLsbD_mask settings.keys i

/-- What the key options do. A text names a key if it is a hexadecimal numeral of at most 15, and is
quoted in the error otherwise. A command line is accepted if it would be but for its keys and each
piece between the commas of its key options names one. It then asks for these keys in their order,
over all options. If the program can be loaded, the run starts with these keys held and no others,
and with the last one as the press still to be taken. -/
theorem key_options_law :
    (∀ text : List Char,
      (∀ key : Nibble, readKey text = .ok key ↔ Numeral.IsHex text key.val) ∧
      ((¬ ∃ key : Nibble, Numeral.IsHex text key.val) →
        ∃ error, readKey text = .error error ∧
          error.message = "Invalid key: '" ++ String.ofList text ++ "', expected 0-F")) ∧
    ∀ arguments : List String,
      (∀ s, Settings.ofArguments arguments = .ok s →
        ∃ items, Says (arguments.map String.toList) items) ∧
      ∀ items, Says (arguments.map String.toList) items →
        let pieces := items.flatMap Item.pieces
        ((∃ s, Settings.ofArguments arguments = .ok s) ↔
          IsRun items ∧ ∀ piece ∈ pieces, ∃ key : Nibble, Numeral.IsHex piece key.val) ∧
        ∀ s, Settings.ofArguments arguments = .ok s →
          List.Forall₂ (fun piece (key : Nibble) => Numeral.IsHex piece key.val) pieces s.keys ∧
          ∀ w rom, w.fileAt s.path = .ok rom → rom.length ≤ 3584 →
            ∃ first, Session.start s rom w.key = .ok first ∧
              run w arguments = .ofSession (first.play (w.go s) s.frames 0) ∧
              first.pacer.machine.keypad =
                { held := Keypad.mask s.keys, pending := s.keys.getLast? } ∧
              ∀ i, first.pacer.machine.keypad.isHeld i = true ↔ ∃ key ∈ s.keys, key.val = i := by
  refine ⟨fun text => ⟨fun key => readKey_eq_ok_iff, fun hnone => ?_⟩, fun arguments =>
    ⟨fun s hs => exists_says hs, fun items hsays => ⟨exists_ofArguments_iff hsays, fun s hs => ?_⟩⟩⟩
  · exact ⟨_, readKey_eq_error fun key h => hnone ⟨key, h⟩, rfl⟩
  obtain ⟨_, _, hset⟩ := (ofArguments_eq_ok_iff hsays).mp hs
  obtain ⟨keys, hkeys, hpieces⟩ := hset.exists_keys
  refine ⟨?_, fun w rom hrom hfit => ?_⟩
  · rw [hkeys]
    exact hpieces
  · obtain ⟨hmin, hmax⟩ := Settings.speed_of_ofArguments hs
    obtain ⟨first, hstart, _⟩ := Session.exists_start hfit hmin hmax w.key
    refine ⟨first, hstart, ?_, Session.keypad_start hstart, Session.isHeld_start hstart⟩
    rw [run_eq hs hrom, runRom, hstart]

/-- Keys of two options, one of them in a group with a flag, are held together. The number 16 is no
key. -/
theorem key_options_law_two_options :
    let arguments := ["rom", "-k", "A,+0f", "-vk3"]
    let w : World :=
      { fileAt := fun _ => .ok [0x00, 0xE0]
        key := .ofSeed 0
        interval := fun _ => 1
        frameStep_le_interval := fun _ => Pacer.frameStep_le_one }
    (∃ s first, Settings.ofArguments arguments = .ok s ∧
      Session.start s [0x00, 0xE0] w.key = .ok first ∧
      first.pacer.machine.keypad = { held := 0x8408#16, pending := some 3 }) ∧
    ¬ ∃ s, Settings.ofArguments ["rom", "-k", "A,10"] = .ok s := by
  intro arguments w
  constructor
  · have hs : Settings.ofArguments arguments =
        .ok { path := "rom", keys := [10, 15, 3], verbosity := 1 } := rfl
    have hsays : Says (arguments.map String.toList)
        [.value .path ['r', 'o', 'm'], .value .keys ['A', ',', '+', '0', 'f'], .flag .verbose,
          .value .keys ['3']] := by
      have hk : Tells ['-', 'k'] [] (some .keys) :=
        .short (by decide) (by decide) (.waiting rfl rfl)
      have hvk3 : Tells ['-', 'v', 'k', '3'] [.flag .verbose, .value .keys ['3']] none :=
        .short (by decide) (by decide) (.flag rfl rfl (.joined rfl rfl (by decide) (by decide)))
      exact .path (by decide) (.separate hk (by decide) (.options hvk3 .nil))
    obtain ⟨-, hlaw⟩ := ((key_options_law.2 arguments).2 _ hsays).2 _ hs
    obtain ⟨first, hfirst, -, hkeypad, -⟩ := hlaw w [0x00, 0xE0] rfl (by decide)
    exact ⟨_, first, hs, hfirst, hkeypad⟩
  · intro haccepted
    have hsays : Says (["rom", "-k", "A,10"].map String.toList)
        [.value .path ['r', 'o', 'm'], .value .keys ['A', ',', '1', '0']] := by
      have hk : Tells ['-', 'k'] [] (some .keys) :=
        .short (by decide) (by decide) (.waiting rfl rfl)
      exact .path (by decide) (.separate hk (by decide) .nil)
    obtain ⟨-, hpieces⟩ := ((key_options_law.2 _).2 _ hsays).1.mp haccepted
    obtain ⟨key, hkey⟩ := hpieces ['1', '0'] (by decide)
    have hread := ((key_options_law.1 ['1', '0']).1 key).mpr hkey
    cases hread

end CommandLine

end Chip8
