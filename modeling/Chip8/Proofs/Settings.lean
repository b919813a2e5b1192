import Mathlib.Data.List.Nodup
import Chip8.Proofs.CommandLines
import Chip8.Proofs.Numerals

/-!
# What a command line asks for

Each item of a command line sets something, if its text can be read (`Item.Sets`), and the settings
are what all items leave, one after the other (`SetAll`). Items make up a run if each of them can be
read, if those that are allowed once come once, and if there is a path among them
(`ofArguments_eq_ok_iff`). Whether an item can be read does not depend on the settings that it
finds, so the items can be looked at one by one to tell whether a command line is accepted
(`exists_ofArguments_iff`).
-/

namespace Chip8.CommandLine

/-! ## Keys -/

/-- A key is read from its hexadecimal numerals. -/
theorem readKey_eq_ok_iff {text : List Char} {key : Nibble} :
    readKey text = .ok key ↔ Numeral.IsHex text key.val := by
  have hread : readKey text = .ok key ↔ Numeral.read 16 byteLimit text = .ok key.val := by
    unfold readKey
    cases Numeral.read 16 byteLimit text with
    | error e => simp [Except.toOption]
    | ok n =>
      have hn : Nibble.ofNat? n = some key ↔ n = key.val := by
        rw [Nibble.ofNat?_eq_some_iff, eq_comm]
      rw [Except.ok.injEq, ← hn, Except.toOption, Option.bind_some]
      cases Nibble.ofNat? n <;> simp
  have hlimit : key.val ≤ byteLimit := Nat.le_trans (Nat.le_of_lt key.isLt) (by decide)
  rw [hread, Numeral.read_sixteen_eq_ok_iff, and_iff_left hlimit]

/-- A text that names no key is quoted in the refusal. -/
theorem readKey_eq_error {text : List Char} (h : ∀ key : Nibble, ¬ Numeral.IsHex text key.val) :
    readKey text = .error (.notAKey text) := by
  cases hread : readKey text with
  | ok key => exact absurd (readKey_eq_ok_iff.mp hread) (h key)
  | error e =>
    unfold readKey at hread
    split at hread
    · cases hread
    · exact hread.symm

theorem piecesOf_eq_splitOn (text : List Char) : piecesOf text = text.splitOn ',' := by
  induction text with
  | nil => rfl
  | cons c cs ih =>
    rw [piecesOf, ih, List.splitOn, List.splitOn, List.splitOnP_cons_eq_if_modifyHead]
    by_cases hc : c = ','
    · simp [hc]
    · simp only [hc, if_false, beq_iff_eq]
      cases hcs : cs.splitOnP (· == ',') with
      | nil => exact absurd hcs (List.splitOnP_ne_nil _ cs)
      | cons piece pieces => rfl

theorem mapM_eq_ok_iff {ε α β : Type} {f : α → Except ε β} {xs : List α} {ys : List β} :
    xs.mapM f = .ok ys ↔ List.Forall₂ (fun x y => f x = .ok y) xs ys := by
  induction xs generalizing ys with
  | nil =>
    rw [List.mapM_nil, List.forall₂_nil_left_iff]
    exact ⟨fun h => (Except.ok.inj h).symm, fun h => h ▸ rfl⟩
  | cons x xs ih =>
    rw [List.mapM_cons, List.forall₂_cons_left_iff]
    constructor
    · intro h
      obtain ⟨y, hy, h⟩ := exists_of_bind_eq_ok h
      obtain ⟨rest, hrest, h⟩ := exists_of_bind_eq_ok h
      cases h
      exact ⟨y, rest, hy, ih.mp hrest, rfl⟩
    · rintro ⟨y, rest, hy, hrest, rfl⟩
      rw [hy, ih.mpr hrest]
      rfl

theorem readAs_eq_ok_iff {α : Type} {p : Parameter} {readValue : List Char → Except ValueError α}
    {text : List Char} {value : α} :
    Reader.readAs p readValue text = .ok value ↔ readValue text = .ok value := by
  unfold Reader.readAs
  cases readValue text <;> simp [Except.mapError]

theorem readKeys_eq_ok_iff {text : List Char} {keys : List Nibble} :
    (piecesOf text).mapM (Reader.readAs .keys readKey) = .ok keys ↔
      List.Forall₂ (fun piece key => Numeral.IsHex piece key.val) (text.splitOn ',') keys := by
  simp only [mapM_eq_ok_iff, readAs_eq_ok_iff, readKey_eq_ok_iff, piecesOf_eq_splitOn]

/-! ## Items -/

/-- The parameters that may be given once. -/
def Parameter.isSingle : Parameter → Bool
  | .path | .speed | .frames | .realtime | .dump => true
  | .keys | .verbose | .help => false

namespace Item

def parameter : Item → Parameter
  | value p _ => p
  | flag p => p

/-- The pieces in which an item names keys. -/
def pieces : Item → List (List Char)
  | value .keys text => text.splitOn ','
  | _ => []

/-- `item.Sets s t` if the item can be read and takes the settings `s` to `t`. -/
inductive Sets : Item → Settings → Settings → Prop where
  | path {text : List Char} {s : Settings} (hne : text ≠ []) :
      Sets (value .path text) s { s with path := String.ofList text }
  | speed {text : List Char} {s : Settings} {speed : Nat} (h : readSpeed text = .ok speed) :
      Sets (value .speed text) s { s with speed }
  | frames {text : List Char} {s : Settings} {frames : Nat} (h : readFrames text = .ok frames) :
      Sets (value .frames text) s { s with frames }
  | keys {text : List Char} {s : Settings} {keys : List Nibble}
      (h : List.Forall₂ (fun piece key => Numeral.IsHex piece key.val) (text.splitOn ',') keys) :
      Sets (value .keys text) s { s with keys := s.keys ++ keys }
  | realtime {s : Settings} : Sets (flag .realtime) s { s with realtime := true }
  | dump {s : Settings} : Sets (flag .dump) s { s with dump := true }
  | verbose {s : Settings} : Sets (flag .verbose) s { s with verbosity := s.verbosity + 1 }

end Item

/-- What items set one after the other. -/
inductive SetAll : List Item → Settings → Settings → Prop where
  | nil {s : Settings} : SetAll [] s s
  | cons {item : Item} {items : List Item} {s t u : Settings} (h : item.Sets s t)
      (hs : SetAll items t u) : SetAll (item :: items) s u

/-- The parameters of items that may be given once, in their order. -/
def singles (items : List Item) : List Parameter :=
  (items.map Item.parameter).filter Parameter.isSingle

theorem singles_cons (item : Item) (items : List Item) :
    singles (item :: items) = singles [item] ++ singles items := by
  simp only [singles, List.map_cons, List.map_nil]
  exact List.filter_append [_] _

variable {item : Item} {items : List Item} {s s' t : Settings}

/-! ## Taking items in -/

namespace Reader

variable {r u : Reader}

theorem mark_bind_eq_ok_iff {p : Parameter} {f : Reader → Except Refusal Reader} :
    r.mark p >>= f = .ok u ↔ p ∉ r.given ∧ f { r with given := p :: r.given } = .ok u := by
  unfold mark
  by_cases h : p ∈ r.given
  · rw [if_pos h]
    exact ⟨by rintro ⟨⟩, fun hu => absurd h hu.1⟩
  · rw [if_neg h, and_iff_right h]
    exact Iff.rfl

/-- The reader after items that leave the settings `s`. -/
def settling (r : Reader) (items : List Item) (s : Settings) : Reader :=
  { r with settings := s, given := (singles items).reverse ++ r.given }

theorem take_path_eq_ok_iff {text : List Char} :
    r.take (.value .path text) = .ok u ↔ .path ∉ r.given ∧ text ≠ [] ∧
      u = r.settling [.value .path text] { r.settings with path := String.ofList text } := by
  show (if .path ∈ r.given then _ else _) = _ ↔ _
  by_cases hgiven : .path ∈ r.given
  · simp [hgiven]
  · rw [if_neg hgiven, and_iff_right hgiven]
    cases text with
    | nil => exact ⟨by rintro ⟨⟩, fun hu => absurd rfl hu.1⟩
    | cons c cs =>
      rw [and_iff_right (List.cons_ne_nil c cs)]
      exact ⟨fun hu => (Except.ok.inj hu).symm, fun hu => congrArg Except.ok hu.symm⟩

theorem exists_sets_of_accept {p : Parameter} {text : List Char} (hp : p ≠ .path)
    (h : r.accept p text = .ok u) :
    (singles [.value p text]).Disjoint r.given ∧
      ∃ s, (Item.value p text).Sets r.settings s ∧ u = r.settling [.value p text] s := by
  cases p
  case path => exact absurd rfl hp
  case speed =>
    obtain ⟨hnew, h⟩ := mark_bind_eq_ok_iff.mp h
    obtain ⟨speed, hspeed, h⟩ := exists_of_bind_eq_ok h
    cases h
    exact ⟨List.singleton_disjoint.mpr hnew, _, .speed (readAs_eq_ok_iff.mp hspeed), rfl⟩
  case frames =>
    obtain ⟨hnew, h⟩ := mark_bind_eq_ok_iff.mp h
    obtain ⟨frames, hframes, h⟩ := exists_of_bind_eq_ok h
    cases h
    exact ⟨List.singleton_disjoint.mpr hnew, _, .frames (readAs_eq_ok_iff.mp hframes), rfl⟩
  case keys =>
    obtain ⟨keys, hkeys, h⟩ := exists_of_bind_eq_ok h
    cases h
    exact ⟨List.disjoint_nil_left _, _, .keys (readKeys_eq_ok_iff.mp hkeys), rfl⟩
  all_goals cases h

theorem exists_sets_of_raise {p : Parameter} (h : r.raise p = .ok u) :
    (singles [.flag p]).Disjoint r.given ∧
      ∃ s, (Item.flag p).Sets r.settings s ∧ u = r.settling [.flag p] s := by
  cases p
  case realtime =>
    obtain ⟨hnew, h⟩ := mark_bind_eq_ok_iff.mp h
    cases h
    exact ⟨List.singleton_disjoint.mpr hnew, _, .realtime, rfl⟩
  case dump =>
    obtain ⟨hnew, h⟩ := mark_bind_eq_ok_iff.mp h
    cases h
    exact ⟨List.singleton_disjoint.mpr hnew, _, .dump, rfl⟩
  case verbose =>
    cases h
    exact ⟨List.disjoint_nil_left _, _, .verbose, rfl⟩
  all_goals cases h

/-- An item is taken in if it can be read, and was not given before or may be given again. -/
theorem take_eq_ok_iff :
    r.take item = .ok u ↔
      (singles [item]).Disjoint r.given ∧
        ∃ s, item.Sets r.settings s ∧ u = r.settling [item] s := by
  constructor
  · intro h
    cases item with
    | flag p => exact exists_sets_of_raise h
    | value p text =>
      by_cases hp : p = .path
      · subst hp
        obtain ⟨hnew, hne, hu⟩ := take_path_eq_ok_iff.mp h
        exact ⟨List.singleton_disjoint.mpr hnew, _, .path hne, hu⟩
      · rw [take_value hp] at h
        exact exists_sets_of_accept hp h
  · rintro ⟨hnew, s, hs, rfl⟩
    cases hs with
    | path hne => exact take_path_eq_ok_iff.mpr ⟨List.singleton_disjoint.mp hnew, hne, rfl⟩
    | speed h =>
      refine mark_bind_eq_ok_iff.mpr ⟨List.singleton_disjoint.mp hnew, ?_⟩
      rw [readAs_eq_ok_iff.mpr h]
      rfl
    | frames h =>
      refine mark_bind_eq_ok_iff.mpr ⟨List.singleton_disjoint.mp hnew, ?_⟩
      rw [readAs_eq_ok_iff.mpr h]
      rfl
    | keys h =>
      show (piecesOf _).mapM _ >>= _ = _
      rw [readKeys_eq_ok_iff.mpr h]
      rfl
    | realtime | dump => exact mark_bind_eq_ok_iff.mpr ⟨List.singleton_disjoint.mp hnew, rfl⟩
    | verbose => rfl

theorem settling_cons (r : Reader) (item : Item) (items : List Item) (s s' : Settings) :
    r.settling (item :: items) s' = (r.settling [item] s).settling items s' := by
  simp only [settling, singles_cons item items, List.reverse_append, List.append_assoc]

theorem disjoint_given_settling {given : List Parameter} :
    given.Disjoint (r.settling [item] s).given ↔
      (singles [item]).Disjoint given ∧ given.Disjoint r.given := by
  rw [settling, List.disjoint_append_right, List.disjoint_reverse_right, List.disjoint_comm]

/-- Items are taken in if each can be read, and none that may be given once was given before. -/
theorem foldlM_take_eq_ok_iff :
    items.foldlM take r = .ok u ↔
      (singles items).Nodup ∧ (singles items).Disjoint r.given ∧
        ∃ s, SetAll items r.settings s ∧ u = r.settling items s := by
  induction items generalizing r with
  | nil =>
    constructor
    · rintro ⟨⟩
      exact ⟨List.nodup_nil, List.disjoint_nil_left _, _, .nil, rfl⟩
    · rintro ⟨_, _, s, hs, rfl⟩
      cases hs
      rfl
  | cons item items ih =>
    have hone : (singles [item]).Nodup := (List.nodup_singleton _).filter _
    rw [List.foldlM_cons, singles_cons, List.nodup_append', List.disjoint_append_left]
    constructor
    · intro h
      obtain ⟨t, ht, h⟩ := exists_of_bind_eq_ok h
      obtain ⟨hnew, s, hs, rfl⟩ := take_eq_ok_iff.mp ht
      obtain ⟨honce, hapart, s', hs', rfl⟩ := ih.mp h
      obtain ⟨hitem, hrest⟩ := disjoint_given_settling.mp hapart
      exact ⟨⟨hone, honce, hitem⟩, ⟨hnew, hrest⟩, s', .cons hs hs',
        (r.settling_cons item items s s').symm⟩
    · rintro ⟨⟨_, honce, hitem⟩, ⟨hnew, hrest⟩, s', hall, rfl⟩
      cases hall with
      | cons hs hs' =>
        rw [take_eq_ok_iff.mpr ⟨hnew, _, hs, rfl⟩]
        exact ih.mpr ⟨honce, disjoint_given_settling.mpr ⟨hitem, hrest⟩, s', hs',
          r.settling_cons item items _ s'⟩

theorem takeAll_eq_ok_iff (hr : r.pending = none) :
    r.takeAll items = .ok t ↔
      (singles items).Nodup ∧ (singles items).Disjoint r.given ∧ SetAll items r.settings t ∧
        (.path ∈ singles items ∨ .path ∈ r.given) := by
  have hfinish : ∀ s, (r.settling items s).finish = .ok t ↔
      s = t ∧ (.path ∈ singles items ∨ .path ∈ r.given) := by
    intro s
    have hgiven : .path ∈ (r.settling items s).given ↔
        .path ∈ singles items ∨ .path ∈ r.given := by
      rw [settling, List.mem_append, List.mem_reverse]
    rw [finish, settle_of_not_pending (r := r.settling items s) hr, ← hgiven]
    show (if .path ∈ (r.settling items s).given then _ else _) = _ ↔ _
    split
    · next hpath => exact ⟨fun h => ⟨Except.ok.inj h, hpath⟩, fun h => congrArg Except.ok h.1⟩
    · next hpath => exact ⟨by rintro ⟨⟩, fun h => absurd h.2 hpath⟩
  constructor
  · intro h
    obtain ⟨u, hu, h⟩ := exists_of_bind_eq_ok h
    obtain ⟨honce, hapart, s, hs, rfl⟩ := foldlM_take_eq_ok_iff.mp hu
    obtain ⟨rfl, hpath⟩ := (hfinish s).mp h
    exact ⟨honce, hapart, hs, hpath⟩
  · rintro ⟨honce, hapart, hs, hpath⟩
    rw [takeAll, foldlM_take_eq_ok_iff.mpr ⟨honce, hapart, t, hs, rfl⟩]
    exact (hfinish t).mpr ⟨rfl, hpath⟩

end Reader

/-! ## Command lines -/

theorem toOption_eq_some_iff {ε α : Type} {x : Except ε α} {a : α} :
    x.toOption = some a ↔ x = .ok a := by
  cases x <;> simp [Except.toOption]

theorem ofArguments_eq_readAll (arguments : List String) :
    Settings.ofArguments arguments = ({} : Reader).readAll (arguments.map String.toList) := by
  rw [Settings.ofArguments, Reader.readAll, List.foldlM_map]

/-- What a command line asks for is what its items set. -/
theorem ofArguments_eq_ok_iff {arguments : List String}
    (h : Says (arguments.map String.toList) items) :
    Settings.ofArguments arguments = .ok t ↔
      (singles items).Nodup ∧ .path ∈ singles items ∧ SetAll items {} t := by
  have hread := Reader.toOption_readAll_of_says (r := {}) h rfl (by rintro p ⟨⟩)
  rw [← ofArguments_eq_readAll] at hread
  rw [← toOption_eq_some_iff, hread, toOption_eq_some_iff]
  show ({} : Reader).takeAll items = .ok t ↔ _
  rw [Reader.takeAll_eq_ok_iff rfl]
  simp [and_comm]

/-- A command line that is accepted says some items. -/
theorem exists_says {arguments : List String} (h : Settings.ofArguments arguments = .ok s) :
    ∃ items, Says (arguments.map String.toList) items := by
  rw [ofArguments_eq_readAll] at h
  exact (Reader.exists_says_of_readAll rfl h).1 (by rintro p ⟨⟩)

/-! ## Reading items one by one -/

/-- Whether an item can be read does not depend on the settings that it finds. -/
theorem Item.exists_sets (h : ∃ t, item.Sets s t) (s' : Settings) : ∃ t, item.Sets s' t := by
  obtain ⟨t, h⟩ := h
  cases h with
  | path hne => exact ⟨_, .path hne⟩
  | speed h => exact ⟨_, .speed h⟩
  | frames h => exact ⟨_, .frames h⟩
  | keys h => exact ⟨_, .keys h⟩
  | realtime => exact ⟨_, .realtime⟩
  | dump => exact ⟨_, .dump⟩
  | verbose => exact ⟨_, .verbose⟩

theorem exists_setAll_iff :
    (∃ t, SetAll items s t) ↔ ∀ item ∈ items, ∃ t, item.Sets s t := by
  induction items generalizing s with
  | nil => exact ⟨fun _ _ h => absurd h List.not_mem_nil, fun _ => ⟨s, .nil⟩⟩
  | cons item items ih =>
    rw [List.forall_mem_cons]
    constructor
    · rintro ⟨t, ht⟩
      cases ht with
      | cons h hs =>
        exact ⟨⟨_, h⟩, fun other hother => Item.exists_sets (ih.mp ⟨t, hs⟩ other hother) s⟩
    · rintro ⟨⟨u, hu⟩, hrest⟩
      obtain ⟨t, ht⟩ := ih.mpr fun other hother => Item.exists_sets (hrest other hother) u
      exact ⟨t, .cons hu ht⟩

theorem exists_forall₂_iff {α β : Type} {R : α → β → Prop} {xs : List α} :
    (∃ ys, List.Forall₂ R xs ys) ↔ ∀ x ∈ xs, ∃ y, R x y := by
  induction xs with
  | nil => simp
  | cons x xs ih =>
    rw [List.forall_mem_cons, ← ih]
    constructor
    · rintro ⟨_, h⟩
      obtain ⟨y, ys, hy, hys, rfl⟩ := List.forall₂_cons_left_iff.mp h
      exact ⟨⟨y, hy⟩, ys, hys⟩
    · rintro ⟨⟨y, hy⟩, ys, hys⟩
      exact ⟨y :: ys, .cons hy hys⟩

/-- An item can be read if all the keys that it names can. -/
theorem Item.exists_sets_iff :
    (∃ t, item.Sets s t) ↔
      ((∃ text, item = .value .keys text) ∨ ∃ t, item.Sets {} t) ∧
        ∀ piece ∈ item.pieces, ∃ key : Nibble, Numeral.IsHex piece key.val := by
  constructor
  · intro h
    refine ⟨.inr (exists_sets h {}), ?_⟩
    obtain ⟨t, h⟩ := h
    cases h with
    | keys h => exact exists_forall₂_iff.mp ⟨_, h⟩
    | _ => exact fun piece hpiece => absurd hpiece List.not_mem_nil
  · rintro ⟨⟨text, rfl⟩ | hother, hpieces⟩
    · obtain ⟨keys, hkeys⟩ := exists_forall₂_iff.mpr hpieces
      exact ⟨_, .keys hkeys⟩
    · exact exists_sets hother s

/-- Items that ask for a run, whatever keys they name. -/
structure IsRun (items : List Item) : Prop where
  path : .path ∈ singles items
  once : (singles items).Nodup
  readable : ∀ item ∈ items, (∃ text, item = .value .keys text) ∨ ∃ s, item.Sets {} s

/-- A command line is accepted if each piece that should name a key does, and if it would be
accepted but for the keys. -/
theorem exists_ofArguments_iff {arguments : List String}
    (h : Says (arguments.map String.toList) items) :
    (∃ s, Settings.ofArguments arguments = .ok s) ↔
      IsRun items ∧
        ∀ piece ∈ items.flatMap Item.pieces, ∃ key : Nibble, Numeral.IsHex piece key.val := by
  simp only [ofArguments_eq_ok_iff h, exists_and_left, exists_setAll_iff]
  constructor
  · rintro ⟨honce, hpath, hitems⟩
    have hread := fun item hitem => Item.exists_sets_iff.mp (hitems item hitem)
    refine ⟨⟨hpath, honce, fun item hitem => (hread item hitem).1⟩, fun piece hpiece => ?_⟩
    obtain ⟨item, hitem, hpiece⟩ := List.mem_flatMap.mp hpiece
    exact (hread item hitem).2 piece hpiece
  · rintro ⟨⟨hpath, honce, hreadable⟩, hpieces⟩
    refine ⟨honce, hpath, fun item hitem => ?_⟩
    refine Item.exists_sets_iff.mpr ⟨hreadable item hitem, fun piece hpiece => ?_⟩
    exact hpieces piece (List.mem_flatMap.mpr ⟨item, hitem, hpiece⟩)

/-! ## The keys asked for -/

theorem Item.Sets.exists_keys (h : item.Sets s t) :
    ∃ keys, t.keys = s.keys ++ keys ∧
      List.Forall₂ (fun piece (key : Nibble) => Numeral.IsHex piece key.val) item.pieces keys := by
  cases h with
  | keys h => exact ⟨_, rfl, h⟩
  | _ => exact ⟨[], (List.append_nil _).symm, .nil⟩

/-- The keys are those that the pieces of all items name, in their order. -/
theorem SetAll.exists_keys (h : SetAll items s t) :
    ∃ keys, t.keys = s.keys ++ keys ∧
      List.Forall₂ (fun piece (key : Nibble) => Numeral.IsHex piece key.val)
        (items.flatMap Item.pieces) keys := by
  induction h with
  | nil => exact ⟨[], (List.append_nil _).symm, .nil⟩
  | cons h _ ih =>
    obtain ⟨these, hthese, hpieces⟩ := h.exists_keys
    obtain ⟨rest, hrest, hall⟩ := ih
    refine ⟨these ++ rest, ?_, ?_⟩
    · rw [hrest, hthese, List.append_assoc]
    · exact List.rel_append hpieces hall

end Chip8.CommandLine
