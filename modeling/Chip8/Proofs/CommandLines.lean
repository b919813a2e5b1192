import Chip8.Proofs.Arguments

/-!
# The grammar of a command line

Arguments are read one at a time, with a value or a path kept pending until something else comes.
What they say all together is simpler: a list of items, each a flag or a parameter with its value
(`Says`). Reading the arguments comes down to taking the items in one by one
(`Reader.toOption_readAll_of_says`), and arguments that say nothing of this kind are refused
(`Reader.exists_says_of_readAll`).
-/

namespace Chip8.CommandLine

/-- One thing that a command line says: a path or an option with its value, or a flag. -/
inductive Item where
  | value (p : Parameter) (text : List Char)
  | flag (p : Parameter)

/-! ## The grammar -/

/-- An argument that names no option. A dash alone names none. -/
def IsText (argument : List Char) : Prop := argument.head? = some '-' → argument = ['-']

instance (argument : List Char) : Decidable (IsText argument) := inferInstanceAs (Decidable (_ → _))

/-- What a group of short names says. The last one may be an option that waits for its value. -/
inductive Group : List Char → List Item → Option Parameter → Prop where
  | nil : Group [] [] none
  | flag {c : Char} {p : Parameter} {rest : List Char} {items : List Item}
      {waiting : Option Parameter} (hc : Parameter.ofShort? c = some p)
      (hp : p.takesValue = false) (h : Group rest items waiting) :
      Group (c :: rest) (.flag p :: items) waiting
  | waiting {c : Char} {p : Parameter} (hc : Parameter.ofShort? c = some p)
      (hp : p.takesValue = true) : Group [c] [] (some p)
  /-- `k=5` -/
  | equals {c : Char} {p : Parameter} (hc : Parameter.ofShort? c = some p)
      (hp : p.takesValue = true) (text : List Char) : Group (c :: '=' :: text) [.value p text] none
  /-- `k5` -/
  | joined {c : Char} {p : Parameter} {text : List Char} (hc : Parameter.ofShort? c = some p)
      (hp : p.takesValue = true) (hne : text ≠ []) (hsign : text.head? ≠ some '=') :
      Group (c :: text) [.value p text] none

/-- What an argument with options says. An option may wait for its value in the next argument. -/
inductive Tells : List Char → List Item → Option Parameter → Prop where
  | short {group : List Char} {items : List Item} {waiting : Option Parameter} (hne : group ≠ [])
      (hlong : group.head? ≠ some '-') (h : Group group items waiting) :
      Tells ('-' :: group) items waiting
  | flag {name : List Char} {p : Parameter} (hname : Parameter.ofLong? name = some p)
      (hp : p.takesValue = false) : Tells ('-' :: '-' :: name) [.flag p] none
  | waiting {name : List Char} {p : Parameter} (hname : Parameter.ofLong? name = some p)
      (hp : p.takesValue = true) : Tells ('-' :: '-' :: name) [] (some p)
  | equals {name : List Char} {p : Parameter} (hname : Parameter.ofLong? name = some p)
      (hp : p.takesValue = true) (text : List Char) :
      Tells ('-' :: '-' :: (name ++ '=' :: text)) [.value p text] none

/-- What a command line says. -/
inductive Says : List (List Char) → List Item → Prop where
  | nil : Says [] []
  /-- After `--` there are paths only. -/
  | paths (texts : List (List Char)) : Says (['-', '-'] :: texts) (texts.map (.value .path))
  | path {text : List Char} {rest : List (List Char)} {items : List Item} (htext : IsText text)
      (h : Says rest items) : Says (text :: rest) (.value .path text :: items)
  | options {argument : List Char} {rest : List (List Char)} {these items : List Item}
      (ht : Tells argument these none) (h : Says rest items) :
      Says (argument :: rest) (these ++ items)
  | separate {argument text : List Char} {p : Parameter} {rest : List (List Char)}
      {these items : List Item} (ht : Tells argument these (some p)) (htext : IsText text)
      (h : Says rest items) :
      Says (argument :: text :: rest) (these ++ .value p text :: items)

/-! ## Taking items in -/

namespace Reader

variable {r t next : Reader} {p : Parameter} {text : List Char} {items : List Item}

/-- Takes in an item, with nothing kept pending. -/
def take (r : Reader) : Item → Except Refusal Reader
  | .value .path text =>
    if .path ∈ r.given then .error (.unexpectedArgument text)
    else { r with given := .path :: r.given }.accept .path text
  | .value p text => r.accept p text
  | .flag p => r.raise p

/-- What is asked for after some more items. -/
def takeAll (r : Reader) (items : List Item) : Except Refusal Settings := do
  (← items.foldlM take r).finish

/-- What is asked for after some more arguments. -/
def readAll (r : Reader) (arguments : List (List Char)) : Except Refusal Settings := do
  (← arguments.foldlM place r).finish

theorem readAll_cons (r : Reader) (a : List Char) (rest : List (List Char)) :
    r.readAll (a :: rest) = r.place a >>= (·.readAll rest) := by
  rw [readAll, List.foldlM_cons, bind_assoc]
  rfl

theorem takeAll_append (r : Reader) (these items : List Item) :
    r.takeAll (these ++ items) = these.foldlM take r >>= (·.takeAll items) := by
  rw [takeAll, List.foldlM_append, bind_assoc]
  rfl

theorem takeAll_cons (r : Reader) (item : Item) (items : List Item) :
    r.takeAll (item :: items) = r.take item >>= (·.takeAll items) := by
  rw [takeAll, List.foldlM_cons, bind_assoc]
  rfl

/-- The reader with something else pending. -/
def waitFor (r : Reader) (pending : Option (Parameter × Option (List Char))) (pathsOnly : Bool) :
    Reader := { r with pending, pathsOnly }

theorem mark_waitFor (r : Reader) (p : Parameter)
    (pending : Option (Parameter × Option (List Char))) (pathsOnly : Bool) :
    (r.waitFor pending pathsOnly).mark p = (r.mark p).map (·.waitFor pending pathsOnly) := by
  by_cases h : p ∈ r.given
  · simp [mark, waitFor, h, Except.map]
  · simp [mark, waitFor, h, Except.map]

theorem accept_waitFor (r : Reader) (p : Parameter) (text : List Char)
    (pending : Option (Parameter × Option (List Char))) (pathsOnly : Bool) :
    (r.waitFor pending pathsOnly).accept p text =
      (r.accept p text).map (·.waitFor pending pathsOnly) := by
  cases p
  case path =>
    cases h : text.isEmpty <;> simp [accept, waitFor, h, Except.map]
  case speed =>
    simp only [accept, mark_waitFor]
    cases r.mark .speed <;> cases readAs .speed readSpeed text <;> rfl
  case frames =>
    simp only [accept, mark_waitFor]
    cases r.mark .frames <;> cases readAs .frames readFrames text <;> rfl
  case keys =>
    simp only [accept]
    cases (piecesOf text).mapM (readAs .keys readKey) <;> rfl
  all_goals rfl

theorem raise_waitFor (r : Reader) (p : Parameter)
    (pending : Option (Parameter × Option (List Char))) (pathsOnly : Bool) :
    (r.waitFor pending pathsOnly).raise p = (r.raise p).map (·.waitFor pending pathsOnly) := by
  cases p
  case realtime =>
    simp only [raise, mark_waitFor]
    cases r.mark .realtime <;> rfl
  case dump =>
    simp only [raise, mark_waitFor]
    cases r.mark .dump <;> rfl
  all_goals rfl

theorem take_waitFor (r : Reader) (item : Item)
    (pending : Option (Parameter × Option (List Char))) (pathsOnly : Bool) :
    (r.waitFor pending pathsOnly).take item = (r.take item).map (·.waitFor pending pathsOnly) := by
  match item with
  | .flag p => exact raise_waitFor r p pending pathsOnly
  | .value .path text =>
    by_cases h : .path ∈ r.given
    · simp [take, waitFor, h, Except.map]
    · have hgiven : .path ∉ (r.waitFor pending pathsOnly).given := h
      rw [take, take, if_neg h, if_neg hgiven]
      exact accept_waitFor { r with given := .path :: r.given } .path text pending pathsOnly
  | .value .speed text => exact accept_waitFor r .speed text pending pathsOnly
  | .value .frames text => exact accept_waitFor r .frames text pending pathsOnly
  | .value .keys text => exact accept_waitFor r .keys text pending pathsOnly
  | .value .realtime _ | .value .dump _ | .value .verbose _ | .value .help _ => rfl

theorem foldlM_take_waitFor (r : Reader) (items : List Item)
    (pending : Option (Parameter × Option (List Char))) (pathsOnly : Bool) :
    items.foldlM take (r.waitFor pending pathsOnly) =
      (items.foldlM take r).map (·.waitFor pending pathsOnly) := by
  induction items generalizing r with
  | nil => rfl
  | cons item items ih =>
    rw [List.foldlM_cons, List.foldlM_cons, take_waitFor]
    cases r.take item with
    | error e => rfl
    | ok t => exact ih t

theorem keeps_of_map {x : Except Refusal Reader} {pending : Option (Parameter × Option (List Char))}
    {pathsOnly : Bool} (hx : x = x.map (·.waitFor pending pathsOnly)) (h : x = .ok t) :
    t.pending = pending ∧ t.pathsOnly = pathsOnly := by
  rw [h] at hx
  rw [Except.ok.inj hx]
  exact ⟨rfl, rfl⟩

theorem keeps_of_accept (h : r.accept p text = .ok t) :
    t.pending = r.pending ∧ t.pathsOnly = r.pathsOnly :=
  keeps_of_map (accept_waitFor r p text r.pending r.pathsOnly) h

theorem keeps_of_raise (h : r.raise p = .ok t) :
    t.pending = r.pending ∧ t.pathsOnly = r.pathsOnly :=
  keeps_of_map (raise_waitFor r p r.pending r.pathsOnly) h

theorem keeps_of_foldlM_take (h : items.foldlM take r = .ok t) :
    t.pending = r.pending ∧ t.pathsOnly = r.pathsOnly :=
  keeps_of_map (foldlM_take_waitFor r items r.pending r.pathsOnly) h

theorem takeAll_waitFor (r : Reader) (items : List Item) (pathsOnly : Bool) :
    (r.waitFor none pathsOnly).takeAll items = (r.waitFor none false).takeAll items := by
  rw [takeAll, takeAll, foldlM_take_waitFor, foldlM_take_waitFor]
  cases items.foldlM take r <;> rfl

/-! ## Settling -/

theorem settle_of_not_pending (h : r.pending = none) : r.settle = .ok r := by
  rw [settle, h]

theorem keeps_of_settle (h : r.settle = .ok t) :
    t.pending = none ∧ t.pathsOnly = r.pathsOnly := by
  unfold settle at h
  split at h
  · next hnone =>
    cases h
    exact ⟨hnone, rfl⟩
  · cases h
  · exact keeps_of_accept h

/-- A reader settles once. -/
theorem settle_bind_settle (r : Reader) {α : Type} (f : Reader → Except Refusal α) :
    (r.settle >>= fun t => t.settle >>= f) = r.settle >>= f := by
  cases h : r.settle with
  | error e => rfl
  | ok t =>
    show t.settle >>= f = f t
    rw [settle_of_not_pending (keeps_of_settle h).1]
    rfl

/-! ## Placing options -/

theorem take_flag (r : Reader) (p : Parameter) : r.take (.flag p) = r.raise p := rfl

theorem take_value (hp : p ≠ .path) (r : Reader) (text : List Char) :
    r.take (.value p text) = r.accept p text := by
  cases p
  case path => exact absurd rfl hp
  all_goals rfl

theorem ne_path_of_ofShort? {c : Char} (h : Parameter.ofShort? c = some p) : p ≠ .path := by
  rintro rfl
  unfold Parameter.ofShort? at h
  split at h <;> cases h

theorem placeShort_cons_flag {c : Char} (hc : Parameter.ofShort? c = some p)
    (hp : p.takesValue = false) (r : Reader) (rest : List Char) :
    r.placeShort (c :: rest) = r.placeFlag p >>= (·.placeShort rest) := by
  simp [placeShort, hc, hp]

theorem placeShort_cons_option {c : Char} (hc : Parameter.ofShort? c = some p)
    (hp : p.takesValue = true) (r : Reader) (rest : List Char) :
    r.placeShort (c :: rest) = r.placeOption p (attachedValue? rest) := by
  simp [placeShort, hc, hp]

theorem waitFor_none (hr : r.pending = none) (hpaths : r.pathsOnly = false) :
    r.waitFor none false = r := by
  rw [waitFor, ← hr, ← hpaths]

/-- Taking in one item with nothing pending, in the form that placing an argument has. -/
theorem take_eq_foldlM (hr : r.pending = none) (hpaths : r.pathsOnly = false) (item : Item) :
    r.take item = ([item].foldlM take r).map (·.waitFor none false) := by
  have hmap := r.take_waitFor item none false
  rw [waitFor_none hr hpaths] at hmap
  rw [List.foldlM_cons, hmap]
  cases r.take item <;> rfl

/-- Placing an option with nothing pending: its value is taken in, or waited for. -/
theorem placeOption_eq (hp : p ≠ .path) (hr : r.pending = none) (hpaths : r.pathsOnly = false) :
    (∀ text, r.placeOption p (some text) =
      ([Item.value p text].foldlM take r).map (·.waitFor none false)) ∧
    r.placeOption p none =
      (([] : List Item).foldlM take r).map (·.waitFor (some (p, none)) false) := by
  constructor
  · intro text
    rw [← take_eq_foldlM hr hpaths, take_value hp, placeOption, settle_of_not_pending hr]
    rfl
  · rw [placeOption, settle_of_not_pending hr]
    show Except.ok (r.waitFor (some (p, none)) r.pathsOnly) = _
    rw [hpaths]
    rfl

theorem placeOption_settle (r : Reader) (p : Parameter) (attached : Option (List Char)) :
    r.placeOption p attached = r.settle >>= (·.placeOption p attached) := by
  simp only [placeOption, settle_bind_settle]

/-- What comes of a group of short names, if nothing is pending. -/
theorem placeShort_of_group {group : List Char} {these : List Item} {waiting : Option Parameter}
    (h : Group group these waiting) (hr : r.pending = none) (hpaths : r.pathsOnly = false) :
    r.placeShort group =
      (these.foldlM take r).map (·.waitFor (waiting.map (·, none)) false) := by
  induction h generalizing r with
  | nil =>
    show Except.ok r = Except.ok (r.waitFor none false)
    rw [waitFor_none hr hpaths]
  | @flag c p rest items waiting hc hp h ih =>
    rw [placeShort_cons_flag hc hp, placeFlag, settle_of_not_pending hr, List.foldlM_cons,
      take_flag]
    show r.raise p >>= _ = _
    cases hraise : r.raise p with
    | error e => rfl
    | ok t =>
      obtain ⟨hpending, hpathsOnly⟩ := keeps_of_raise hraise
      exact ih (hpending.trans hr) (hpathsOnly.trans hpaths)
  | @waiting c p hc hp =>
    rw [placeShort_cons_option hc hp]
    exact (placeOption_eq (ne_path_of_ofShort? hc) hr hpaths).2
  | @equals c p hc hp text =>
    rw [placeShort_cons_option hc hp]
    exact (placeOption_eq (ne_path_of_ofShort? hc) hr hpaths).1 text
  | @joined c p text hc hp hne hsign =>
    have hvalue : attachedValue? text = some text := by
      unfold attachedValue?
      split
      · exact absurd rfl hne
      · exact absurd rfl hsign
      · rfl
    rw [placeShort_cons_option hc hp, hvalue]
    exact (placeOption_eq (ne_path_of_ofShort? hc) hr hpaths).1 text

/-- An option looks at what is pending first, and an option of a group does so for all of it. -/
theorem placeShort_settle {group : List Char} {these : List Item} {waiting : Option Parameter}
    (h : Group group these waiting) (hne : group ≠ []) (r : Reader) :
    r.placeShort group = r.settle >>= (·.placeShort group) := by
  cases h with
  | nil => exact absurd rfl hne
  | flag hc hp _ =>
    simp only [placeShort_cons_flag hc hp, placeFlag, bind_assoc, settle_bind_settle]
  | waiting hc hp | equals hc hp | joined hc hp =>
    simp only [placeShort_cons_option hc hp]
    exact placeOption_settle r _ _

theorem place_short {group : List Char} (hr : r.pathsOnly = false) (hne : group ≠ [])
    (hlong : group.head? ≠ some '-') : r.place ('-' :: group) = r.placeShort group := by
  obtain ⟨c, rest, rfl⟩ := List.exists_cons_of_ne_nil hne
  have hc : c ≠ '-' := fun h => hlong (h ▸ rfl)
  unfold place
  rw [hr, if_neg Bool.false_ne_true]
  split <;> simp_all

theorem place_long {name : List Char} (hr : r.pathsOnly = false) (hne : name ≠ []) :
    r.place ('-' :: '-' :: name) = r.placeLong (splitLong name).1 (splitLong name).2 := by
  obtain ⟨c, rest, rfl⟩ := List.exists_cons_of_ne_nil hne
  unfold place
  rw [hr, if_neg Bool.false_ne_true]
  rfl

theorem place_text (hr : r.pathsOnly = false) (htext : IsText text) :
    r.place text = r.placeText text := by
  unfold place
  rw [hr, if_neg Bool.false_ne_true]
  split <;> simp_all [IsText]

/-- Long names are not empty and have no equals sign, and none of them is that of the path. -/
theorem of_ofLong? {name : List Char} (h : Parameter.ofLong? name = some p) :
    name ≠ [] ∧ '=' ∉ name ∧ p ≠ .path := by
  have hnames : ∀ known : String, String.ofList name = known →
      known.toList ≠ [] ∧ '=' ∉ known.toList → name ≠ [] ∧ '=' ∉ name := by
    rintro _ rfl h
    rwa [String.toList_ofList] at h
  unfold Parameter.ofLong? at h
  split at h
  case h_8 => cases h
  all_goals
    next hknown =>
    obtain ⟨hne, hequals⟩ := hnames _ hknown (by decide)
    cases h
    exact ⟨hne, hequals, by decide⟩

theorem splitLong_append {name : List Char} (h : '=' ∉ name) (rest : List Char) :
    splitLong (name ++ rest) = (name ++ (splitLong rest).1, (splitLong rest).2) := by
  have hall : ∀ c ∈ name, (c != '=') = true := by
    intro c hc
    rw [bne_iff_ne]
    rintro rfl
    exact h hc
  rw [splitLong, List.takeWhile_append_of_pos hall, List.dropWhile_append_of_pos hall]
  rfl

theorem splitLong_name {name : List Char} (h : '=' ∉ name) : splitLong name = (name, none) := by
  have hsplit := splitLong_append h []
  simpa [splitLong] using hsplit

theorem splitLong_equals {name : List Char} (h : '=' ∉ name) (text : List Char) :
    splitLong (name ++ '=' :: text) = (name, some text) := by
  rw [splitLong_append h]
  simp [splitLong]

theorem ne_path_of_group {group : List Char} {these : List Item} (h : Group group these (some p)) :
    p ≠ .path := by
  generalize hw : some p = waiting at h
  induction h with
  | flag _ _ _ ih => exact ih hw
  | waiting hc _ =>
    cases hw
    exact ne_path_of_ofShort? hc
  | _ => cases hw

/-- No option is the path. -/
theorem ne_path_of_tells {argument : List Char} {these : List Item}
    (h : Tells argument these (some p)) : p ≠ .path := by
  cases h with
  | short _ _ h => exact ne_path_of_group h
  | waiting hname _ => exact (of_ofLong? hname).2.2

/-- What comes of an argument with options: first all that is pending is looked at. -/
theorem place_of_tells {argument : List Char} {these : List Item} {waiting : Option Parameter}
    (h : Tells argument these waiting) (hr : r.pathsOnly = false) :
    r.place argument = r.settle >>= fun t =>
      (these.foldlM take t).map (·.waitFor (waiting.map (·, none)) false) := by
  have hsettled : ∀ {f g : Reader → Except Refusal Reader},
      (∀ t, t.pending = none → t.pathsOnly = false → f t = g t) →
        r.settle >>= f = r.settle >>= g := by
    intro f g hfg
    cases hs : r.settle with
    | error e => rfl
    | ok t =>
      obtain ⟨hpending, hpathsOnly⟩ := keeps_of_settle hs
      exact hfg t hpending (hpathsOnly.trans hr)
  cases h with
  | short hne hlong h =>
    rw [place_short hr hne hlong, placeShort_settle h hne]
    exact hsettled fun t hpending hpathsOnly => placeShort_of_group h hpending hpathsOnly
  | @flag name p hname hp =>
    obtain ⟨hne, hequals, _⟩ := of_ofLong? hname
    have hlong : r.placeLong name none = r.placeFlag p := by simp [placeLong, hname, hp]
    rw [place_long hr hne, splitLong_name hequals, hlong]
    exact hsettled fun t hpending hpathsOnly => take_eq_foldlM hpending hpathsOnly (.flag p)
  | @waiting name p hname hp =>
    obtain ⟨hne, hequals, hpath⟩ := of_ofLong? hname
    have hlong : r.placeLong name none = r.placeOption p none := by simp [placeLong, hname, hp]
    rw [place_long hr hne, splitLong_name hequals, hlong, placeOption_settle]
    exact hsettled fun t hpending hpathsOnly => (placeOption_eq hpath hpending hpathsOnly).2
  | @equals name p hname hp text =>
    obtain ⟨hne, hequals, hpath⟩ := of_ofLong? hname
    have hlong : r.placeLong name (some text) = r.placeOption p (some text) := by
      simp [placeLong, hname, hp]
    rw [place_long hr (by simp [hne]), splitLong_equals hequals, hlong, placeOption_settle]
    exact hsettled fun t hpending hpathsOnly => (placeOption_eq hpath hpending hpathsOnly).1 text

/-! ## Reading what is said -/

theorem path_mem_given_of_mark (hp : p ≠ .path) (h : r.mark p = .ok t) :
    .path ∈ t.given ↔ .path ∈ r.given := by
  unfold mark at h
  split at h
  · cases h
  · cases h
    rw [List.mem_cons, or_iff_right hp.symm]

theorem path_mem_given_of_accept (h : r.accept p text = .ok t) :
    .path ∈ t.given ↔ .path ∈ r.given := by
  cases p
  case path =>
    simp only [accept] at h
    split at h
    · cases h
    · cases h
      rfl
  case speed | frames =>
    obtain ⟨marked, hmark, h⟩ := exists_of_bind_eq_ok h
    obtain ⟨_, _, h⟩ := exists_of_bind_eq_ok h
    cases h
    have hgiven := path_mem_given_of_mark (by decide) hmark
    exact hgiven
  case keys =>
    obtain ⟨_, _, h⟩ := exists_of_bind_eq_ok h
    cases h
    rfl
  all_goals cases h

theorem path_mem_given_of_settle (h : r.settle = .ok t) :
    .path ∈ t.given ↔ .path ∈ r.given := by
  unfold settle at h
  split at h
  · cases h
    rfl
  · cases h
  · have hgiven := path_mem_given_of_accept h
    exact hgiven

theorem readAll_nil (r : Reader) : r.readAll [] = r.settle >>= (·.takeAll []) := by
  show r.finish = r.settle >>= fun t => t.finish
  simp only [finish, settle_bind_settle]

/-- A path is taken in once something else comes, if nothing waits for a value. -/
theorem toOption_placePath_bind {go : Reader → Except Refusal Settings}
    (hgo : ∀ u : Reader, u.pathsOnly = r.pathsOnly → (∀ p, u.pending ≠ some (p, none)) →
      (go u).toOption = (u.settle >>= (·.takeAll items)).toOption) (text : List Char) :
    (r.placePath text >>= go).toOption =
      (r.settle >>= (·.takeAll (.value .path text :: items))).toOption := by
  unfold placePath
  by_cases hpath : .path ∈ r.given
  · rw [if_pos hpath]
    cases hs : r.settle with
    | error e => rfl
    | ok t =>
      have htake : t.take (.value .path text) = .error (.unexpectedArgument text) :=
        if_pos ((path_mem_given_of_settle hs).mpr hpath)
      show none = (t.takeAll _).toOption
      rw [takeAll_cons, htake]
      rfl
  · rw [if_neg hpath]
    cases hs : r.settle with
    | error e => rfl
    | ok t =>
      obtain ⟨hpending, hpathsOnly⟩ := keeps_of_settle hs
      have htake : t.take (.value .path text) =
          { t with given := .path :: t.given }.accept .path text :=
        if_neg fun h => hpath ((path_mem_given_of_settle hs).mp h)
      let u : Reader :=
        { t with given := .path :: t.given, pending := some (.path, some text) }
      have hwaits : ∀ p, u.pending ≠ some (p, none) := by
        rintro p ⟨⟩
      have hsettle : u.settle = { t with given := .path :: t.given }.accept .path text := by
        rw [hpending]
        rfl
      have hu : (go u).toOption = _ := hgo u hpathsOnly hwaits
      rw [hsettle, ← htake, ← takeAll_cons] at hu
      exact hu

/-- The items of an argument with options are taken in at once, if all that is pending can be. -/
theorem toOption_place_bind {argument : List Char} {these : List Item} {waiting : Option Parameter}
    (ht : Tells argument these waiting) (hr : r.pathsOnly = false)
    {go : Reader → Except Refusal Settings}
    (hgo : ∀ u : Reader, u.pending = none → u.pathsOnly = false →
      (go (u.waitFor (waiting.map (·, none)) false)).toOption = (u.takeAll items).toOption) :
    (r.place argument >>= go).toOption = (r.settle >>= (·.takeAll (these ++ items))).toOption := by
  rw [place_of_tells ht hr, bind_assoc]
  cases hs : r.settle with
  | error e => rfl
  | ok t =>
    obtain ⟨hpending, hpathsOnly⟩ := keeps_of_settle hs
    show ((these.foldlM take t).map _ >>= go).toOption = (t.takeAll (these ++ items)).toOption
    rw [takeAll_append]
    cases hthese : these.foldlM take t with
    | error e => rfl
    | ok u =>
      obtain ⟨hkept, hkeptOnly⟩ := keeps_of_foldlM_take hthese
      exact hgo u (hkept.trans hpending) (hkeptOnly.trans (hpathsOnly.trans hr))

theorem toOption_readAll_paths (hr : r.pathsOnly = true) (texts : List (List Char)) :
    (r.readAll texts).toOption =
      (r.settle >>= (·.takeAll (texts.map (.value .path)))).toOption := by
  induction texts generalizing r with
  | nil =>
    rw [readAll_nil]
    rfl
  | cons text texts ih =>
    have hplace : r.place text = r.placePath text := if_pos hr
    rw [readAll_cons, hplace, List.map_cons]
    exact toOption_placePath_bind (fun u hu _ => ih (hu.trans hr)) text

theorem settle_pathsOnly (r : Reader) :
    { r with pathsOnly := true }.settle = r.settle.map (·.waitFor none true) := by
  obtain ⟨settings, given, pending, pathsOnly⟩ := r
  match pending with
  | none => rfl
  | some (p, none) => rfl
  | some (p, some text) => exact accept_waitFor ⟨settings, given, none, pathsOnly⟩ p text none true

/-- Reading arguments that say these items comes down to settling and taking them in. -/
theorem toOption_readAll_of_says {arguments : List (List Char)} (h : Says arguments items)
    (hr : r.pathsOnly = false) (hw : ∀ p, r.pending ≠ some (p, none)) :
    (r.readAll arguments).toOption = (r.settle >>= (·.takeAll items)).toOption := by
  induction h generalizing r with
  | nil => rw [readAll_nil]
  | paths texts =>
    have hplace : r.place ['-', '-'] = .ok { r with pathsOnly := true } := by
      simp [place, hr]
    rw [readAll_cons, hplace]
    show (Reader.readAll _ texts).toOption = _
    rw [toOption_readAll_paths rfl, settle_pathsOnly]
    cases hs : r.settle with
    | error e => rfl
    | ok t =>
      obtain ⟨hpending, hpathsOnly⟩ := keeps_of_settle hs
      show ((t.waitFor none true).takeAll _).toOption = (t.takeAll _).toOption
      rw [takeAll_waitFor, waitFor_none hpending (hpathsOnly.trans hr)]
  | @path text rest items htext h ih =>
    have hplace : r.placeText text = r.placePath text := by
      unfold placeText
      split
      · next p hp => exact absurd hp (hw p)
      · rfl
    rw [readAll_cons, place_text hr htext, hplace]
    exact toOption_placePath_bind (fun u hu hpending => ih (hu.trans hr) hpending) text
  | @options argument rest these items ht h ih =>
    rw [readAll_cons]
    refine toOption_place_bind ht hr fun u hpending hpathsOnly => ?_
    show ((u.waitFor none false).readAll rest).toOption = _
    rw [waitFor_none hpending hpathsOnly, ih hpathsOnly (by simp [hpending]),
      settle_of_not_pending hpending]
    rfl
  | @separate argument text p rest these items ht htext h ih =>
    rw [readAll_cons]
    refine toOption_place_bind ht hr fun u hpending hpathsOnly => ?_
    -- the text is the value that is waited for
    have hplace : (u.waitFor (some (p, none)) false).place text =
        .ok (u.waitFor (some (p, some text)) false) := by
      rw [place_text rfl htext]
      rfl
    have hsettle : (u.waitFor (some (p, some text)) false).settle = u.accept p text := by
      show (u.waitFor none false).accept p text = _
      rw [waitFor_none hpending hpathsOnly]
    show ((u.waitFor (some (p, none)) false).readAll (text :: rest)).toOption = _
    rw [readAll_cons, hplace, takeAll_cons, take_value (ne_path_of_tells ht), ← hsettle]
    exact ih rfl (by rintro p ⟨⟩)

/-! ## Nothing else is read -/

theorem exists_group {group : List Char} (h : r.placeShort group = .ok t) :
    ∃ these waiting, Group group these waiting := by
  induction group generalizing r with
  | nil => exact ⟨_, _, .nil⟩
  | cons c rest ih =>
    unfold placeShort at h
    split at h
    · cases h
    · next p hc =>
      cases hp : p.takesValue with
      | false =>
        rw [hp, if_neg Bool.false_ne_true] at h
        obtain ⟨_, _, h⟩ := exists_of_bind_eq_ok h
        obtain ⟨these, waiting, hgroup⟩ := ih h
        exact ⟨_, _, .flag hc hp hgroup⟩
      | true =>
        match rest with
        | [] => exact ⟨_, _, .waiting hc hp⟩
        | d :: text =>
          by_cases hd : d = '='
          · subst hd
            exact ⟨_, _, .equals hc hp text⟩
          · exact ⟨_, _, .joined hc hp (List.cons_ne_nil d text) (by simpa using hd)⟩

theorem splitLong_cases (text : List Char) :
    ((splitLong text).1 = text ∧ (splitLong text).2 = none) ∨
      ∃ value, text = (splitLong text).1 ++ '=' :: value ∧ (splitLong text).2 = some value := by
  induction text with
  | nil => exact .inl ⟨rfl, rfl⟩
  | cons c cs ih =>
    by_cases hc : c = '='
    · subst hc
      exact .inr ⟨cs, rfl, rfl⟩
    · have hcons : splitLong (c :: cs) = (c :: (splitLong cs).1, (splitLong cs).2) := by
        simp [splitLong, hc]
      rw [hcons]
      rcases ih with ⟨hname, hnone⟩ | ⟨value, hcs, hsome⟩
      · exact .inl ⟨congrArg (c :: ·) hname, hnone⟩
      · exact .inr ⟨value, congrArg (c :: ·) hcs, hsome⟩

theorem exists_tells_long {text : List Char}
    (h : r.placeLong (splitLong text).1 (splitLong text).2 = .ok t) :
    ∃ these waiting, Tells ('-' :: '-' :: text) these waiting := by
  have hsplit := splitLong_cases text
  generalize (splitLong text).1 = name at h hsplit
  generalize (splitLong text).2 = attached at h hsplit
  unfold placeLong at h
  split at h
  · cases h
  · next p hname =>
    cases hp : p.takesValue with
    | false =>
      rcases hsplit with ⟨rfl, rfl⟩ | ⟨value, rfl, rfl⟩
      · exact ⟨_, _, .flag hname hp⟩
      · rw [hp, if_neg Bool.false_ne_true] at h
        cases h
    | true =>
      rcases hsplit with ⟨rfl, rfl⟩ | ⟨value, rfl, rfl⟩
      · exact ⟨_, _, .waiting hname hp⟩
      · exact ⟨_, _, .equals hname hp value⟩

/-- An argument that can be placed begins the paths, names no option, or tells something. -/
theorem place_cases {argument : List Char} (hr : r.pathsOnly = false)
    (h : r.place argument = .ok t) :
    argument = ['-', '-'] ∨ IsText argument ∨
      ∃ these waiting, Tells argument these waiting := by
  unfold place at h
  rw [hr, if_neg Bool.false_ne_true] at h
  split at h
  · exact .inl rfl
  · exact .inr (.inr (exists_tells_long h))
  · exact .inr (.inl fun _ => rfl)
  · next group _ hlong hdash =>
    obtain ⟨these, waiting, hgroup⟩ := exists_group h
    refine .inr (.inr ⟨_, _, .short (fun hnil => hdash ?_) (fun hhead => ?_) hgroup⟩)
    · rw [hnil]
    · obtain ⟨rest, rfl⟩ := List.head?_eq_some_iff.mp hhead
      exact hlong rest rfl
  · next htext =>
    refine .inr (.inl fun hhead => ?_)
    obtain ⟨rest, rfl⟩ := List.head?_eq_some_iff.mp hhead
    exact absurd rfl (htext rest)

theorem settle_of_waiting (h : r.pending = some (p, none)) :
    r.settle = .error (.missingValue p) := by
  rw [settle, h]

/-- What waits for its value waits in vain once there are paths only. -/
theorem readAll_ne_ok_of_waiting (hr : r.pathsOnly = true) (hw : r.pending = some (p, none))
    (texts : List (List Char)) (s : Settings) : r.readAll texts ≠ .ok s := by
  intro h
  have hread := toOption_readAll_paths hr texts
  rw [h, settle_of_waiting hw] at hread
  cases hread

/-- Arguments that are read say some items, after the value that may be waited for. -/
theorem exists_says_of_readAll {arguments : List (List Char)} {s : Settings}
    (hr : r.pathsOnly = false) (h : r.readAll arguments = .ok s) :
    ((∀ p, r.pending ≠ some (p, none)) → ∃ items, Says arguments items) ∧
    ∀ p, r.pending = some (p, none) → ∃ text rest items,
      arguments = text :: rest ∧ IsText text ∧ Says rest items := by
  induction arguments generalizing r with
  | nil =>
    refine ⟨fun _ => ⟨[], .nil⟩, fun p hw => ?_⟩
    rw [readAll_nil, settle_of_waiting hw] at h
    cases h
  | cons argument rest ih =>
    rw [readAll_cons] at h
    obtain ⟨t, hplace, hrest⟩ := exists_of_bind_eq_ok h
    rcases place_cases hr hplace with rfl | htext | ⟨these, waiting, ht⟩
    · have hpaths : r.place ['-', '-'] = .ok { r with pathsOnly := true } := by
        simp [place, hr]
      cases hpaths.symm.trans hplace
      refine ⟨fun _ => ⟨_, .paths rest⟩, fun p hw => ?_⟩
      let t : Reader := { r with pathsOnly := true }
      exact absurd hrest (readAll_ne_ok_of_waiting (r := t) rfl hw rest s)
    · -- the text is pending next, for itself or for the option that waits
      have hnext : t.pathsOnly = false ∧ ∀ p, t.pending ≠ some (p, none) := by
        rw [place_text hr htext] at hplace
        unfold placeText at hplace
        split at hplace
        · cases hplace
          exact ⟨hr, by rintro p ⟨⟩⟩
        · unfold placePath at hplace
          split at hplace
          · cases hplace
          · obtain ⟨settled, hsettled, hplaced⟩ := exists_of_bind_eq_ok hplace
            have hkept := (keeps_of_settle hsettled).2.trans hr
            cases hplaced
            exact ⟨hkept, by rintro p ⟨⟩⟩
      obtain ⟨items, hitems⟩ := (ih hnext.1 hrest).1 hnext.2
      exact ⟨fun _ => ⟨_, .path htext hitems⟩, fun _ _ => ⟨_, _, _, rfl, htext, hitems⟩⟩
    · rw [place_of_tells ht hr] at hplace
      obtain ⟨settled, hsettled, htaken⟩ := exists_of_bind_eq_ok hplace
      refine ⟨fun _ => ?_, fun p hw => ?_⟩
      · cases hthese : these.foldlM take settled with
        | error e =>
          rw [hthese] at htaken
          cases htaken
        | ok u =>
          rw [hthese] at htaken
          cases htaken
          have hread := ih rfl hrest
          cases waiting with
          | none =>
            obtain ⟨items, hitems⟩ := hread.1 (by rintro p ⟨⟩)
            exact ⟨_, .options ht hitems⟩
          | some p =>
            obtain ⟨text, rest, items, rfl, htext, hitems⟩ := hread.2 p rfl
            exact ⟨_, .separate ht htext hitems⟩
      · rw [settle_of_waiting hw] at hsettled
        cases hsettled

end Reader

end Chip8.CommandLine
