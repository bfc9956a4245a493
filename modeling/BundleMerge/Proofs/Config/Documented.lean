import BundleMerge.Config.Decode
import BundleMerge.Proofs.Toml.Tables

/-! The shape of a configuration file, as it is documented: which fields there are, and of which
type each is. A document is read as a configuration if it has this shape, and only then. The
configuration is told field by field, by what the document gives under its key, so the order of the
entries, which decoding goes through one by one, makes no difference. -/
namespace BundleMerge

namespace Toml

namespace Value

def scalar? : Value → Option Scalar
  | .scalar s _ => some s
  | _ => none

def text? (v : Value) : Option String :=
  match v.scalar? with
  | some (.string s) => some s
  | _ => none

def flag? (v : Value) : Option Bool :=
  match v.scalar? with
  | some (.boolean b) => some b
  | _ => none

/-- An integer that is not negative. -/
def natural? (v : Value) : Option Nat :=
  match v.scalar? with
  | some (.integer (.ofNat n)) => some n
  | _ => none

/-- The items of an array, which may be tables that have headers. -/
def items? : Value → Option (List Value)
  | .array items _ | .tables items => some items
  | _ => none

def texts? (v : Value) : Option (List String) :=
  v.items?.bind (·.mapM text?)

def entries? : Value → Option Entries
  | .table _ entries _ => some entries
  | _ => none

end Value

/-- What entries give under a name, or else the default. -/
def Entries.given {α : Type} (entries : Entries) (name : String) (read : Value → Option α)
    (default : α) : α :=
  ((entries.get? name).bind read).getD default

end Toml

namespace Config

open Toml (Value Key Entries)

/-- The types that the fields of a configuration have. -/
inductive FieldType where
  | text
  | flag
  | natural
  | texts
  /-- A table of texts, under some of these names. -/
  | table (names : List String)

def HasType : FieldType → Value → Prop
  | .text, v => v.text?.isSome
  | .flag, v => v.flag?.isSome
  | .natural, v => v.natural?.isSome
  | .texts, v => ∃ items ∈ v.items?, ∀ item ∈ items, item.text?.isSome
  | .table names, v =>
    ∃ entries ∈ v.entries?, ∀ e ∈ entries, e.1.name ∈ names ∧ e.2.text?.isSome

instance : (type : FieldType) → (v : Value) → Decidable (HasType type v)
  | .text, v => inferInstanceAs (Decidable (v.text?.isSome))
  | .flag, v => inferInstanceAs (Decidable (v.flag?.isSome))
  | .natural, v => inferInstanceAs (Decidable (v.natural?.isSome))
  | .texts, v =>
    inferInstanceAs (Decidable (∃ items ∈ v.items?, ∀ item ∈ items, item.text?.isSome))
  | .table names, v =>
    inferInstanceAs (Decidable
      (∃ entries ∈ v.entries?, ∀ e ∈ entries, e.1.name ∈ names ∧ e.2.text?.isSome))

/-- The fields of a configuration. -/
def fields : List (String × FieldType) :=
  [("input", .text), ("output", .text), ("target", .text), ("copy_dir", .text),
    ("source_app", .text), ("is_close", .flag), ("exclude", .texts), ("debounce_ms", .natural),
    ("full_copy_threshold", .natural),
    ("bridge", .table ["registration", "entry_point", "host_global", "pre_launch_hook"]),
    ("files", .table ["entry_script", "manifest", "secondary_manifest", "bridge_output"])]

/-- Every key is that of a field, and its value has the type of the field. -/
def Documented (entries : Entries) : Prop :=
  ∀ e ∈ entries, ∃ field ∈ fields, field.1 = e.1.name ∧ HasType field.2 e.2

/-- What is nested is written as tables, if it is written at all. -/
def Nested (entries : Entries) : Prop :=
  ∀ e ∈ entries, e.1.name = "bridge" ∨ e.1.name = "files" → e.2.entries?.isSome

instance : Decidable (Documented entries) := inferInstanceAs (Decidable (∀ e ∈ entries, _))

instance : Decidable (Nested entries) := inferInstanceAs (Decidable (∀ e ∈ entries, _))

def path? (v : Value) : Option Path := v.text?.map Path.mk

def bridgeOf (entries : Entries) : Bridge where
  registration := entries.given "registration" Value.text? "App"
  entryPoint := entries.given "entry_point" Value.text? "WepyApp"
  hostGlobal := entries.given "host_global" Value.text? "wx"
  preLaunchHook := entries.given "pre_launch_hook" Value.text? "__beforeOnLaunch__"

def filesOf (entries : Entries) : FileNames where
  entryScript := entries.given "entry_script" Value.text? "app.js"
  manifest := entries.given "manifest" Value.text? "app.json"
  secondaryManifest := entries.given "secondary_manifest" Value.text? "uni-app.json"
  bridgeOutput := entries.given "bridge_output" Value.text? "wepy-app.js"

/-- A configuration with the fields that entries give. -/
def laidOver (c : Config) (entries : Entries) : Config where
  input := entries.given "input" path? c.input
  output := entries.given "output" path? c.output
  target := entries.given "target" path? c.target
  copyDir := entries.given "copy_dir" (fun v => (path? v).map some) c.copyDir
  sourceApp := entries.given "source_app" (fun v => (path? v).map some) c.sourceApp
  isClose := entries.given "is_close" Value.flag? c.isClose
  exclude := entries.given "exclude" Value.texts? c.exclude
  debounceMs := entries.given "debounce_ms" Value.natural? c.debounceMs
  fullCopyThreshold := entries.given "full_copy_threshold" Value.natural? c.fullCopyThreshold
  bridge := entries.given "bridge" (fun v => v.entries?.map bridgeOf) c.bridge
  files := entries.given "files" (fun v => v.entries?.map filesOf) c.files

variable {α : Type} {c c' : Config} {key : Key} {v : Value} {e : Key × Value}
  {entries es : Entries} {name : String}

/-! ### Values -/

theorem text_ok_iff {expected s : String} : text expected v = .ok s ↔ v.text? = some s := by
  cases v with
  | scalar t start => cases t <;> simp [text, misfit, Value.text?, Value.scalar?]
  | array | table | tables => simp [text, misfit, Value.text?, Value.scalar?]

theorem path_ok_iff {p : Path} : path v = .ok p ↔ path? v = some p := by
  rw [path, Toml.map_ok_iff, path?, Option.map_eq_some_iff]
  simp only [text_ok_iff]

theorem boolean_ok_iff {b : Bool} : boolean v = .ok b ↔ v.flag? = some b := by
  cases v with
  | scalar t start => cases t <;> simp [boolean, misfit, Value.flag?, Value.scalar?]
  | array | table | tables => simp [boolean, misfit, Value.flag?, Value.scalar?]

theorem natural_ok_iff {type : String} {n : Nat} :
    natural type v = .ok n ↔ v.natural? = some n := by
  cases v with
  | scalar t start =>
    cases t with
    | integer k => cases k <;> simp [natural, Value.natural?, Value.scalar?]
    | string | float | boolean | date => simp [natural, misfit, Value.natural?, Value.scalar?]
  | array | table | tables => simp [natural, misfit, Value.natural?, Value.scalar?]

theorem mapM_ok_iff {items : List Value} {ss : List String} :
    items.mapM string = .ok ss ↔ items.mapM Value.text? = some ss := by
  induction items generalizing ss with
  | nil => simp [pure, Except.pure]
  | cons v items ih =>
    simp only [List.mapM_cons, Toml.bind_ok_iff, Option.bind_eq_bind, Option.bind_eq_some_iff,
      string, text_ok_iff, ih, pure, Except.pure, Except.ok.injEq, Option.some.injEq]

theorem strings_ok_iff {ss : List String} : strings v = .ok ss ↔ v.texts? = some ss := by
  cases v with
  | array | tables => exact mapM_ok_iff
  | scalar | table => simp [strings, misfit, Value.texts?, Value.items?]

theorem mapM_isSome {items : List Value} :
    (∃ ss, items.mapM Value.text? = some ss) ↔ ∀ item ∈ items, item.text?.isSome := by
  induction items with
  | nil => simp
  | cons v items ih =>
    rw [List.forall_mem_cons, ← ih]
    simp only [List.mapM_cons, Option.bind_eq_bind, Option.bind_eq_some_iff, Option.pure_def,
      Option.some.injEq, Option.isSome_iff_exists]
    constructor
    · rintro ⟨_, s, found, ss, rest, -⟩
      exact ⟨⟨s, found⟩, ss, rest⟩
    · rintro ⟨⟨s, found⟩, ss, rest⟩
      exact ⟨_, s, found, ss, rest, rfl⟩

theorem hasType_texts : HasType .texts v ↔ ∃ ss, v.texts? = some ss := by
  simp only [HasType, Value.texts?, Option.bind_eq_some_iff, ← mapM_isSome, Option.mem_def]
  exact ⟨fun ⟨items, found, ss, each⟩ => ⟨ss, items, found, each⟩,
    fun ⟨ss, items, found, each⟩ => ⟨items, found, ss, each⟩⟩

theorem hasType_path : HasType .text v ↔ ∃ p, path? v = some p := by
  simp [HasType, path?, Option.isSome_iff_exists]

/-! ### Tables of texts -/

theorem given_nil {read : Value → Option α} {default : α} :
    Entries.given [] name read default = default := rfl

/-- A new key is given by its own entry, and by no other. -/
theorem given_cons {read : Value → Option α} {default : α} (new : e.1.name ∉ entries.names) :
    Entries.given (e :: entries) name read default =
      entries.given name read (Entries.given [e] name read default) := by
  simp only [Entries.given, Entries.get?_cons]
  by_cases same : e.1.name = name
  · subst same
    rw [if_pos rfl, if_pos rfl, Entries.get?_eq_none.mpr new]
    rfl
  · rw [if_neg same, if_neg same]
    rfl

theorem given_single {read : Value → Option α} {default : α} :
    Entries.given [(key, v)] name read default =
      if key.name = name then (read v).getD default else default := by
  rw [Entries.given, Entries.get?_cons]
  split <;> rfl

/-- The texts of a table are those at its slots, each of which has its own key and can be set on its
own. -/
structure Texts.Lawful {Slot : Type} [DecidableEq Slot] (t : Texts Slot α)
    (get : α → Slot → String) : Prop where
  listed : ∀ slot, slot ∈ t.all
  apart : ∀ slot other, t.key slot = t.key other → slot = other
  get_set : ∀ a slot s other, get (t.set a slot s) other = if slot = other then s else get a other
  ext : ∀ a b, (∀ slot, get a slot = get b slot) → a = b

theorem bridgeTexts_lawful : bridgeTexts.Lawful Bridge.get where
  listed slot := by cases slot <;> decide
  apart slot other same := by
    revert same
    cases slot <;> cases other <;> decide
  get_set b slot s other := by cases slot <;> cases other <;> rfl
  ext b b' same := by
    cases b
    cases b'
    simp only [Bridge.mk.injEq]
    exact ⟨same .registration, same .entryPoint, same .hostGlobal, same .preLaunchHook⟩

theorem fileTexts_lawful : fileTexts.Lawful FileNames.get where
  listed slot := by cases slot <;> decide
  apart slot other same := by
    revert same
    cases slot <;> cases other <;> decide
  get_set f slot s other := by cases slot <;> cases other <;> rfl
  ext f f' same := by
    cases f
    cases f'
    simp only [FileNames.mk.injEq]
    exact ⟨same .entryScript, same .manifest, same .secondaryManifest, same .bridgeOutput⟩

section
variable {Slot : Type} [DecidableEq Slot] {t : Texts Slot α} {get : α → Slot → String} {a b : α}

theorem under_ok_iff {β : Type} {r : Decoded β} {x : β} : under key r = .ok x ↔ r = .ok x :=
  Toml.mapError_ok_iff

theorem setText_ok_iff (lawful : t.Lawful get) : setText t a (key, v) = .ok b ↔
    ∃ slot s, t.key slot = key.name ∧ v.text? = some s ∧ t.set a slot s = b := by
  rw [setText]
  split
  · next slot found =>
    have named : t.key slot = key.name := by simpa using List.find?_some found
    simp only [Toml.map_ok_iff, under_ok_iff, string, text_ok_iff]
    constructor
    · rintro ⟨s, value, same⟩
      exact ⟨slot, s, named, value, same⟩
    · rintro ⟨other, s, named', value, same⟩
      obtain rfl := lawful.apart slot other (named.trans named'.symm)
      exact ⟨s, value, same⟩
  · next unknown =>
    refine ⟨nofun, ?_⟩
    rintro ⟨slot, s, named, -, -⟩
    exact absurd named (by simpa using List.find?_eq_none.mp unknown slot (lawful.listed slot))

theorem get_set_given {slot : Slot} {s : String} (lawful : t.Lawful get)
    (named : t.key slot = key.name) (value : v.text? = some s) (other : Slot) :
    get (t.set a slot s) other =
      Entries.given [(key, v)] (t.key other) Value.text? (get a other) := by
  rw [lawful.get_set, given_single, value, ← named]
  by_cases same : slot = other
  · rw [if_pos same, same, if_pos rfl, Option.getD_some]
  · rw [if_neg same, if_neg (mt (lawful.apart slot other) same)]

/-- Setting the texts of a table one by one sets each to what the table gives. -/
theorem setTexts_ok_iff (lawful : t.Lawful get) (once : entries.names.Nodup) :
    entries.foldlM (setText t) a = .ok b ↔
      (∀ e ∈ entries, e.1.name ∈ t.all.map t.key ∧ e.2.text?.isSome) ∧
        ∀ slot, get b slot = entries.given (t.key slot) Value.text? (get a slot) := by
  induction entries generalizing a with
  | nil =>
    simp only [given_nil]
    constructor
    · intro same
      cases same
      exact ⟨nofun, fun _ => rfl⟩
    · exact fun ⟨_, same⟩ => congrArg Except.ok (lawful.ext a b fun slot => (same slot).symm)
  | cons e entries ih =>
    obtain ⟨key, v⟩ := e
    obtain ⟨new, once⟩ := List.nodup_cons.mp once
    rw [List.foldlM_cons, Toml.bind_ok_iff, List.forall_mem_cons]
    simp only [setText_ok_iff lawful, ih once, given_cons new]
    constructor
    · rintro ⟨_, ⟨slot, s, named, value, rfl⟩, each, gives⟩
      have known : key.name ∈ t.all.map t.key := named ▸ List.mem_map_of_mem (lawful.listed slot)
      refine ⟨⟨⟨known, Option.isSome_of_eq_some value⟩, each⟩, ?_⟩
      intro other
      rw [gives other, get_set_given lawful named value]
    · rintro ⟨⟨⟨known, isText⟩, each⟩, gives⟩
      obtain ⟨slot, -, named⟩ := List.mem_map.mp known
      obtain ⟨s, value⟩ := Option.isSome_iff_exists.mp isText
      refine ⟨_, ⟨slot, s, named, value, rfl⟩, each, ?_⟩
      intro other
      rw [gives other, get_set_given lawful named value]

/-- A table of texts is read as what it gives, slot by slot. -/
theorem texts_ok_iff {expected : String} {read : Entries → α} (lawful : t.Lawful get)
    (isTable : v.entries? = some es) (once : es.names.Nodup)
    (gives : ∀ slot, get (read es) slot = es.given (t.key slot) Value.text? (get a slot)) :
    texts t expected a v = .ok b ↔
      HasType (.table (t.all.map t.key)) v ∧ v.entries?.map read = some b := by
  have table : texts t expected a v = .ok b ↔ es.foldlM (setText t) a = .ok b := by
    unfold Value.entries? at isTable
    split at isTable
    · cases isTable
      exact Toml.mapError_ok_iff
    · cases isTable
  have typed : HasType (.table (t.all.map t.key)) v ↔
      ∀ e ∈ es, e.1.name ∈ t.all.map t.key ∧ e.2.text?.isSome := by
    simp [HasType, isTable]
  rw [table, typed, setTexts_ok_iff lawful once, isTable, Option.map_some, Option.some.injEq]
  refine and_congr_right fun _ => ⟨fun same => ?_, fun same => same ▸ gives⟩
  exact lawful.ext _ _ fun slot => (gives slot).trans (same slot).symm

end

theorem bridgeOf_get (entries : Entries) (slot : Bridge.Slot) : (bridgeOf entries).get slot =
    entries.given (bridgeTexts.key slot) Value.text? (Bridge.get {} slot) := by
  cases slot <;> rfl

theorem filesOf_get (entries : Entries) (slot : FileNames.Slot) : (filesOf entries).get slot =
    entries.given (fileTexts.key slot) Value.text? (FileNames.get {} slot) := by
  cases slot <;> rfl

/-! ### Configurations -/

/-- A field that is read as its type says, and set, is what the entry gives. -/
theorem field_ok_iff (read : Value → Option α) {r : Decoded α} {type : FieldType} {f : α → Config}
    (reads : ∀ a, r = .ok a ↔ HasType type v ∧ read v = some a)
    (given : HasType type v → ∃ a, read v = some a)
    (sets : ∀ a, read v = some a → f a = c.laidOver [(key, v)]) :
    (under key r).map f = .ok c' ↔ HasType type v ∧ c' = c.laidOver [(key, v)] := by
  simp only [Toml.map_ok_iff, under_ok_iff, reads]
  constructor
  · rintro ⟨a, ⟨typed, found⟩, rfl⟩
    exact ⟨typed, sets a found⟩
  · rintro ⟨typed, rfl⟩
    obtain ⟨a, found⟩ := given typed
    exact ⟨a, ⟨typed, found⟩, sets a found⟩

theorem plain_ok_iff {r : Decoded α} {type : FieldType} {read : Value → Option α} {f : α → Config}
    (reads : ∀ a, r = .ok a ↔ read v = some a)
    (typed : HasType type v ↔ ∃ a, read v = some a)
    (sets : ∀ a, read v = some a → f a = c.laidOver [(key, v)]) :
    (under key r).map f = .ok c' ↔ HasType type v ∧ c' = c.laidOver [(key, v)] := by
  refine field_ok_iff read (fun a => ?_) typed.mp sets
  rw [reads, typed]
  exact ⟨fun found => ⟨⟨a, found⟩, found⟩, And.right⟩

/-- Only one field has the name of a key. -/
theorem fits_iff (type : FieldType)
    (only : fields.filter (·.1 = key.name) = [(key.name, type)]) :
    (∃ field ∈ fields, field.1 = key.name ∧ HasType field.2 v) ↔ HasType type v := by
  constructor
  · rintro ⟨field, known, named, typed⟩
    have among : field ∈ fields.filter (·.1 = key.name) :=
      List.mem_filter.mpr ⟨known, decide_eq_true named⟩
    rw [only, List.mem_singleton] at among
    rwa [among] at typed
  · intro typed
    have among : (key.name, type) ∈ fields.filter (·.1 = key.name) := by
      rw [only]
      exact List.mem_singleton_self _
    exact ⟨_, List.mem_of_mem_filter among, rfl, typed⟩

theorem setField_ok_iff (nested : Nested [(key, v)]) (distinct : v.Distinct) :
    setField c (key, v) = .ok c' ↔
      (∃ field ∈ fields, field.1 = key.name ∧ HasType field.2 v) ∧
        c' = c.laidOver [(key, v)] := by
  have table (named : key.name = "bridge" ∨ key.name = "files") :
      ∃ es, v.entries? = some es ∧ es.names.Nodup := by
    have isTable := nested (key, v) (List.mem_singleton.mpr rfl) named
    cases distinct with
    | table once each => exact ⟨_, rfl, once⟩
    | scalar | array | tables => cases isTable
  unfold setField
  dsimp only
  split
  case h_1 named | h_2 named | h_3 named | h_4 named | h_5 named =>
    rw [fits_iff .text (by simp [fields, named])]
    refine plain_ok_iff (fun p => path_ok_iff) hasType_path fun p found => ?_
    simp [laidOver, given_single, named, found]
  case h_6 named =>
    rw [fits_iff .flag (by simp [fields, named])]
    refine plain_ok_iff (fun b => boolean_ok_iff) Option.isSome_iff_exists fun b found => ?_
    simp [laidOver, given_single, named, found]
  case h_7 named =>
    rw [fits_iff .texts (by simp [fields, named])]
    refine plain_ok_iff (fun ss => strings_ok_iff) hasType_texts fun ss found => ?_
    simp [laidOver, given_single, named, found]
  case h_8 named | h_9 named =>
    rw [fits_iff .natural (by simp [fields, named])]
    refine plain_ok_iff (fun n => natural_ok_iff) Option.isSome_iff_exists fun n found => ?_
    simp [laidOver, given_single, named, found]
  case h_10 named =>
    obtain ⟨es, isTable, once⟩ := table (.inl named)
    rw [fits_iff (.table (Bridge.Slot.all.map Bridge.Slot.key))
      (by simp [fields, named, Bridge.Slot.all, Bridge.Slot.key])]
    refine field_ok_iff (fun v => v.entries?.map bridgeOf)
      (fun b => texts_ok_iff bridgeTexts_lawful isTable once (bridgeOf_get es))
      (fun _ => by simp [isTable]) fun b found => ?_
    simp [laidOver, given_single, named, found]
  case h_11 named =>
    obtain ⟨es, isTable, once⟩ := table (.inr named)
    rw [fits_iff (.table (FileNames.Slot.all.map FileNames.Slot.key))
      (by simp [fields, named, FileNames.Slot.all, FileNames.Slot.key])]
    refine field_ok_iff (fun v => v.entries?.map filesOf)
      (fun f => texts_ok_iff fileTexts_lawful isTable once (filesOf_get es))
      (fun _ => by simp [isTable]) fun f found => ?_
    simp [laidOver, given_single, named, found]
  case h_12 =>
    refine ⟨nofun, ?_⟩
    rintro ⟨⟨field, known, named, -⟩, -⟩
    have among : key.name ∈ fields.map (·.1) := named ▸ List.mem_map_of_mem known
    simp only [fields, List.map_cons, List.map_nil, List.mem_cons, List.not_mem_nil] at among
    grind

theorem laidOver_cons (new : e.1.name ∉ entries.names) :
    c.laidOver (e :: entries) = (c.laidOver [e]).laidOver entries := by
  simp only [laidOver, given_cons new]

/-- Setting the fields one by one sets each to what the entries give. -/
theorem setFields_ok_iff (nested : Nested entries) (distinct : entries.Distinct) :
    entries.foldlM setField c = .ok c' ↔ Documented entries ∧ c' = c.laidOver entries := by
  induction entries generalizing c with
  | nil =>
    simp only [List.foldlM_nil, pure, Except.pure, Except.ok.injEq]
    exact ⟨fun same => ⟨nofun, same.symm⟩, fun ⟨_, same⟩ => same.symm⟩
  | cons e entries ih =>
    obtain ⟨new, once⟩ := List.nodup_cons.mp distinct.once
    obtain ⟨first, others⟩ := List.forall_mem_cons.mp distinct.each
    obtain ⟨nestedFirst, nested⟩ := List.forall_mem_cons.mp nested
    have each : Nested [e] := List.forall_mem_singleton.mpr nestedFirst
    rw [List.foldlM_cons, Toml.bind_ok_iff, Documented, List.forall_mem_cons, laidOver_cons new]
    simp only [setField_ok_iff each first, ih nested ⟨once, others⟩]
    constructor
    · rintro ⟨_, ⟨fits, rfl⟩, documented, same⟩
      exact ⟨⟨fits, documented⟩, same⟩
    · rintro ⟨⟨fits, documented⟩, same⟩
      exact ⟨_, ⟨fits, rfl⟩, documented, same⟩

theorem parse_ok_iff {text : String} (read : Toml.parse text.toList = .ok entries)
    (nested : Nested entries) :
    parse text = .ok c ↔ Documented entries ∧ c = laidOver {} entries := by
  have decoded : parse text = .ok c ↔ ofEntries entries = .ok c := by
    rw [parse, Toml.mapError_ok_iff, decode, read]
    exact Toml.mapError_ok_iff
  rw [decoded, ofEntries, setFields_ok_iff nested (Toml.parse_distinct read)]

/-! ### Order -/

theorem scalar?_same {w : Value} (same : v.Same w) : v.scalar? = w.scalar? := by
  cases same <;> rfl

theorem text?_same {w : Value} (same : v.Same w) : v.text? = w.text? := by
  rw [Value.text?, scalar?_same same, Value.text?]

theorem flag?_same {w : Value} (same : v.Same w) : v.flag? = w.flag? := by
  rw [Value.flag?, scalar?_same same, Value.flag?]

theorem natural?_same {w : Value} (same : v.Same w) : v.natural? = w.natural? := by
  rw [Value.natural?, scalar?_same same, Value.natural?]

theorem path?_same {w : Value} (same : v.Same w) : path? v = path? w := by
  rw [path?, text?_same same, path?]

theorem mapM_same {items items' : List Value} (same : List.Forall₂ Value.Same items items') :
    items.mapM Value.text? = items'.mapM Value.text? := by
  induction same with
  | nil => rfl
  | cons first others ih => rw [List.mapM_cons, List.mapM_cons, ih, text?_same first]

theorem texts?_same {w : Value} (same : v.Same w) : v.texts? = w.texts? := by
  cases same with
  | scalar | table => rfl
  | array each | tables each => exact mapM_same each

theorem given_same {read : Value → Option α} {default : α} (same : entries.Same es)
    (reads : ∀ v w, v.Same w → read v = read w) :
    entries.given name read default = es.given name read default := by
  rw [Entries.given, Entries.given]
  obtain ⟨absent, absent'⟩ | ⟨v, w, found, found', value⟩ := same.get? name
  · rw [absent, absent']
  · rw [found, found', Option.bind_some, Option.bind_some, reads v w value]

theorem entries?_same (read : Entries → α)
    (reads : ∀ es es', Entries.Same es es' → read es = read es') {w : Value} (same : v.Same w) :
    v.entries?.map read = w.entries?.map read := by
  cases same with
  | table names each => exact congrArg some (reads _ _ ⟨names, each⟩)
  | scalar | array | tables => rfl

theorem bridgeOf_same (same : entries.Same es) : bridgeOf entries = bridgeOf es := by
  simp only [bridgeOf, given_same same fun _ _ => text?_same]

theorem filesOf_same (same : entries.Same es) : filesOf entries = filesOf es := by
  simp only [filesOf, given_same same fun _ _ => text?_same]

/-- What entries give does not depend on their order. -/
theorem laidOver_same (same : entries.Same es) : c.laidOver entries = c.laidOver es := by
  simp only [laidOver, given_same same fun _ _ => path?_same, given_same same fun _ _ => flag?_same,
    given_same same fun _ _ => texts?_same, given_same same fun _ _ => natural?_same,
    given_same same fun _ _ => entries?_same bridgeOf fun _ _ => bridgeOf_same,
    given_same same fun _ _ => entries?_same filesOf fun _ _ => filesOf_same,
    given_same same fun v w (value : v.Same w) => congrArg (Option.map some) (path?_same value)]

/-- What holds of the entries of one table holds of those of the other, if it does not tell values
apart that say the same. -/
theorem forall_same (holds : String → Value → Prop) (same : entries.Same es)
    (alike : ∀ name v w, v.Same w → (holds name v ↔ holds name w)) :
    (∀ e ∈ entries, holds e.1.name e.2) ↔ ∀ e ∈ es, holds e.1.name e.2 := by
  constructor
  · intro each e' member'
    obtain ⟨e, member, named⟩ :=
      List.mem_map.mp ((same.names e'.1.name).mpr (List.mem_map.mpr ⟨e', member', rfl⟩))
    exact (alike _ _ _ (same.each e member e' member' named)).mp (named ▸ each e member)
  · intro each e member
    obtain ⟨e', member', named⟩ :=
      List.mem_map.mp ((same.names e.1.name).mp (List.mem_map.mpr ⟨e, member, rfl⟩))
    exact (alike _ _ _ (same.each e member e' member' named.symm)).mpr (named ▸ each e' member')

theorem hasType_same {type : FieldType} {w : Value} (same : v.Same w) :
    HasType type v ↔ HasType type w := by
  cases type with
  | text => rw [HasType, HasType, text?_same same]
  | flag => rw [HasType, HasType, flag?_same same]
  | natural => rw [HasType, HasType, natural?_same same]
  | texts => rw [hasType_texts, hasType_texts, texts?_same same]
  | table names =>
    cases same with
    | scalar | array | tables => simp [HasType, Value.entries?]
    | table alike each =>
      simp only [HasType, Value.entries?, Option.mem_def, Option.some.injEq, exists_eq_left']
      refine forall_same (fun name v => name ∈ names ∧ v.text?.isSome) ⟨alike, each⟩
        fun name v w value => ?_
      rw [text?_same value]

theorem documented_same (same : entries.Same es) : Documented entries ↔ Documented es := by
  refine forall_same (fun name v => ∃ field ∈ fields, field.1 = name ∧ HasType field.2 v) same
    fun name v w value => ?_
  simp only [hasType_same value]

theorem nested_same (same : entries.Same es) : Nested entries ↔ Nested es := by
  refine forall_same
    (fun name v => name = "bridge" ∨ name = "files" → v.entries?.isSome) same
    fun name v w value => ?_
  have alike : v.entries?.isSome = w.entries?.isSome := by
    rw [← Option.isSome_map, entries?_same (fun _ => ()) (fun _ _ _ => rfl) value, Option.isSome_map]
  rw [alike]

/-- A document whose nested tables are tables is read as a configuration if it has the documented
shape, and only then. It is read as the configuration that its entries give, and so is every
document that says the same in another order. -/
theorem parse_documented {text : String} (read : Toml.parse text.toList = .ok entries)
    (nested : Nested entries) :
    ((∃ c, parse text = .ok c) ↔ Documented entries) ∧
      (∀ c, parse text = .ok c → c = laidOver {} entries) ∧
      ∀ text' es, Toml.parse text'.toList = .ok es → entries.Same es →
        ∀ c, parse text' = .ok c ↔ parse text = .ok c := by
  refine ⟨?_, ?_, ?_⟩
  · simp only [parse_ok_iff read nested]
    exact ⟨fun ⟨_, documented, _⟩ => documented, fun documented => ⟨_, documented, rfl⟩⟩
  · intro c parsed
    exact ((parse_ok_iff read nested).mp parsed).2
  · intro text' es read' same c
    rw [parse_ok_iff read nested, parse_ok_iff read' ((nested_same same).mp nested),
      documented_same same, laidOver_same same]

def sample : String :=
  "exclude = ['*.map']\ndebounce_ms = 200\nbridge.entry_point = \"Main\"\ntarget = \"out\"\n"

def sampleEntries : Entries := (Toml.parse sample.toList).toOption.getD []

def sampleConfig : Config where
  target := ⟨"out"⟩
  exclude := ["*.map"]
  debounceMs := 200
  bridge := { entryPoint := "Main" }

/-- A document with a list, a number, a table along a dotted key and a path. -/
theorem parse_documented_sample :
    Toml.parse sample.toList = .ok sampleEntries ∧ Nested sampleEntries ∧
      Documented sampleEntries ∧ parse sample = .ok sampleConfig := by
  have readable : (Toml.parse sample.toList).toOption.isSome = true := by decide +kernel
  have read : Toml.parse sample.toList = .ok sampleEntries := by
    rw [sampleEntries]
    cases found : Toml.parse sample.toList with
    | error e => rw [found] at readable; cases readable
    | ok entries => rfl
  have nested : Nested sampleEntries := by decide +kernel
  have documented : Documented sampleEntries := by decide +kernel
  have same : laidOver {} sampleEntries = sampleConfig := by decide +kernel
  obtain ⟨reads, gives, -⟩ := parse_documented read nested
  obtain ⟨c, parsed⟩ := reads.mpr documented
  exact ⟨read, nested, documented, by rw [parsed, gives c parsed, same]⟩

end Config

end BundleMerge
