import Mathlib.Data.List.Forall2
import Mathlib.Data.List.Nodup
import BundleMerge.Toml.Document

/-! No table of a document has two entries under one key, so an entry is what is found under its
key. Whatever changes a table on the way through a document keeps this of every table in it.
Two documents say the same if they have the same keys with the same values, in whatever order. -/
namespace BundleMerge.Toml

theorem map_ok_iff {ε α β : Type} {x : Except ε α} {f : α → β} {b : β} :
    x.map f = .ok b ↔ ∃ a, x = .ok a ∧ f a = b := by
  cases x with
  | error e => exact ⟨nofun, fun ⟨_, found, _⟩ => nomatch found⟩
  | ok a => simp [Except.map]

theorem mapError_ok_iff {ε ε' α : Type} {x : Except ε α} {f : ε → ε'} {a : α} :
    x.mapError f = .ok a ↔ x = .ok a := by
  cases x <;> simp [Except.mapError]

theorem bind_ok_iff {ε α β : Type} {x : Except ε α} {f : α → Except ε β} {b : β} :
    x >>= f = .ok b ↔ ∃ a, x = .ok a ∧ f a = .ok b := by
  cases x with
  | error e => exact ⟨nofun, fun ⟨_, found, _⟩ => nomatch found⟩
  | ok a => simp [bind, Except.bind]

namespace Entries

variable {entries : Entries} {e : Key × Value} {name : String} {v : Value}

def names (entries : Entries) : List String :=
  entries.map (·.1.name)

theorem get?_cons :
    get? (e :: entries) name = if e.1.name = name then some e.2 else get? entries name := by
  rw [get?, get?, List.find?_cons]
  by_cases same : e.1.name = name <;> simp [same]

theorem get?_eq_none : get? entries name = none ↔ name ∉ entries.names := by
  simp [get?, names]

theorem contains_iff : entries.contains name = true ↔ name ∈ entries.names := by
  simp [contains, names]

theorem mem_of_get? (found : get? entries name = some v) :
    ∃ e ∈ entries, e.1.name = name ∧ e.2 = v := by
  obtain ⟨e, first, rfl⟩ := Option.map_eq_some_iff.mp found
  exact ⟨e, List.mem_of_find?_eq_some first, by simpa using List.find?_some first, rfl⟩

theorem get?_of_mem (once : entries.names.Nodup) (member : e ∈ entries) :
    get? entries e.1.name = some e.2 := by
  induction entries with
  | nil => cases member
  | cons first rest ih =>
    obtain ⟨new, once⟩ := List.nodup_cons.mp once
    rw [get?_cons]
    obtain rfl | member := List.mem_cons.mp member
    · exact if_pos rfl
    · have other : first.1.name ≠ e.1.name := fun same =>
        new (List.mem_map.mpr ⟨e, member, same.symm⟩)
      rw [if_neg other, ih once member]

end Entries

/-- In no table of a value, however deep, are two entries under one key. -/
inductive Value.Distinct : Value → Prop
  | scalar {s : Scalar} {start : List Char} : Distinct (.scalar s start)
  | array {items : List Value} {start : List Char} (each : ∀ v ∈ items, Distinct v) :
      Distinct (.array items start)
  | table {form : Form} {entries : Entries} {start : Option (List Char)}
      (once : entries.names.Nodup) (each : ∀ e ∈ entries, Distinct e.2) :
      Distinct (.table form entries start)
  | tables {items : List Value} (each : ∀ v ∈ items, Distinct v) : Distinct (.tables items)

structure Entries.Distinct (entries : Entries) : Prop where
  once : entries.names.Nodup
  each : ∀ e ∈ entries, e.2.Distinct

variable {α : Type} {entries es : Entries} {key : Key} {name : String} {v : Value} {form : Form}
  {start : Option (List Char)} {items : List Value} {dotted : Bool} {keys : List Key}

theorem Value.Distinct.inTable (distinct : (Value.table form es start).Distinct) :
    es.Distinct := by
  cases distinct with
  | table once each => exact ⟨once, each⟩

theorem Value.Distinct.inTables (distinct : (Value.tables items).Distinct) :
    ∀ v ∈ items, v.Distinct := by
  cases distinct with
  | tables each => exact each

namespace Entries.Distinct

theorem nil : Entries.Distinct [] := ⟨List.nodup_nil, nofun⟩

theorem table (distinct : es.Distinct) : (Value.table form es start).Distinct :=
  .table distinct.once distinct.each

theorem found (distinct : entries.Distinct) (found : entries.get? name = some v) :
    v.Distinct := by
  obtain ⟨e, member, -, rfl⟩ := Entries.mem_of_get? found
  exact distinct.each e member

theorem add (distinct : entries.Distinct) (value : v.Distinct)
    (new : entries.get? key.name = none) : Entries.Distinct (entries ++ [(key, v)]) where
  once := by
    rw [Entries.names, List.map_append, List.nodup_append]
    refine ⟨distinct.once, List.nodup_singleton _, ?_⟩
    rintro old among _ single rfl
    obtain rfl := List.mem_singleton.mp single
    exact Entries.get?_eq_none.mp new among
  each e member := by
    obtain member | member := List.mem_append.mp member
    · exact distinct.each e member
    · obtain rfl := List.mem_singleton.mp member
      exact value

theorem replace (distinct : entries.Distinct) (value : v.Distinct) :
    Entries.Distinct (entries.map fun e => if e.1.name = name then (e.1, v) else e) where
  once := by
    have same : Entries.names (entries.map fun e => if e.1.name = name then (e.1, v) else e) =
        entries.names := by
      rw [Entries.names, List.map_map]
      refine List.map_congr_left fun e _ => ?_
      dsimp only [Function.comp_apply]
      split <;> rfl
    rw [same]
    exact distinct.once
  each e member := by
    obtain ⟨old, among, rfl⟩ := List.mem_map.mp member
    split
    · exact value
    · exact distinct.each old among

theorem remove (distinct : entries.Distinct) :
    Entries.Distinct (entries.filter (·.1.name ≠ name)) where
  once := (List.filter_sublist.map _).nodup distinct.once
  each e member := distinct.each e (List.mem_of_mem_filter member)

end Entries.Distinct

theorem addEntry_distinct (distinct : entries.Distinct) (value : v.Distinct)
    (added : addEntry key v entries = some es) : es.Distinct := by
  rw [addEntry] at added
  split at added
  · cases added
  · next new =>
    cases added
    exact distinct.add value (Entries.get?_eq_none.mpr (mt Entries.contains_iff.mpr new))

/-- A change of tables that keeps their keys apart, and gives back what it should. -/
def Keeps (P : α → Prop) (change : Form → Entries → Option (α × Entries)) : Prop :=
  ∀ ⦃form entries a es⦄, entries.Distinct → change form entries = some (a, es) →
    P a ∧ es.Distinct

theorem descend_keeps {P : α → Prop} {change : Form → Entries → Option (α × Entries)}
    (keeps : Keeps P change) (keys : List Key) : Keeps P (descend dotted change keys) := by
  induction keys with
  | nil => exact keeps
  | cons key keys ih =>
    intro form entries a es distinct changed
    rw [descend] at changed
    split at changed
    · next new =>
      obtain ⟨⟨a, below⟩, inside, same⟩ := Option.map_eq_some_iff.mp changed
      cases same
      obtain ⟨given, below⟩ := ih .nil inside
      exact ⟨given, distinct.add below.table new⟩
    · next old =>
      split at changed
      · cases changed
      · obtain ⟨⟨a, below⟩, inside, same⟩ := Option.map_eq_some_iff.mp changed
        cases same
        obtain ⟨given, below⟩ := ih (distinct.found old).inTable inside
        exact ⟨given, distinct.replace below.table⟩
    · next items old =>
      split at changed
      · next last =>
        obtain ⟨⟨a, below⟩, inside, same⟩ := Option.map_eq_some_iff.mp changed
        cases same
        have each := (distinct.found old).inTables
        obtain ⟨given, below⟩ := ih (each _ (List.mem_of_getLast? last)).inTable inside
        refine ⟨given, distinct.replace (.tables ?_)⟩
        rw [List.forall_mem_append]
        exact ⟨fun v member => each v (List.dropLast_subset _ member),
          List.forall_mem_singleton.mpr below.table⟩
      · cases changed
    · cases changed

/-- A change of tables that gives back nothing but the table. -/
theorem descend_distinct {change : Form → Entries → Option (Unit × Entries)}
    (keeps : Keeps (fun _ => True) change) (distinct : entries.Distinct)
    (changed : (descend dotted change keys form entries).map (·.2) = some es) : es.Distinct := by
  obtain ⟨⟨_, after⟩, done, rfl⟩ := Option.map_eq_some_iff.mp changed
  exact (descend_keeps keeps keys distinct done).2

theorem addEntry_keeps {a : Unit} (distinct : entries.Distinct) (value : v.Distinct)
    (added : (addEntry key v entries).map (fun es => ((), es)) = some (a, es)) :
    True ∧ es.Distinct := by
  obtain ⟨_, added, same⟩ := Option.map_eq_some_iff.mp added
  cases same
  exact ⟨trivial, addEntry_distinct distinct value added⟩

theorem addAlong_distinct (distinct : entries.Distinct) (value : v.Distinct)
    (added : addAlong keys v form entries = some es) : es.Distinct := by
  rw [addAlong] at added
  split at added
  · cases added
  · refine descend_distinct ?_ distinct added
    intro form entries _ es distinct changed
    dsimp only at changed
    split at changed
    · cases changed
    · exact addEntry_keeps distinct value changed

/-! ### Values -/

variable {fuel depth : Nat} {cs rest : List Char}

/-- What a round of the readers gives, if the rounds after it give values with their keys apart. -/
structure ReadsDistinct (fuel : Nat) : Prop where
  value : ∀ {depth cs v rest}, readValue fuel depth cs = .ok (v, rest) → v.Distinct
  items : ∀ {depth cs items rest}, readItems fuel depth cs = .ok (items, rest) →
    ∀ v ∈ items, v.Distinct
  pairs : ∀ {depth entries cs es rest}, entries.Distinct →
    readPairs fuel depth entries cs = .ok (some es, rest) → es.Distinct
  pair : ∀ {depth cs keys v rest}, readPair fuel depth cs = .ok ((keys, v), rest) → v.Distinct

theorem readValue_distinct (later : ReadsDistinct fuel)
    (read : readValue (fuel + 1) depth cs = .ok (v, rest)) : v.Distinct := by
  unfold readValue at read
  split at read
  · split at read
    · cases read
    · obtain ⟨⟨items, _⟩, inside, same⟩ := map_ok_iff.mp read
      cases same
      exact .array (later.items inside)
  · split at read
    · cases read
    · split at read
      · cases read
      · cases read
      · next inside =>
        cases read
        exact (later.pairs .nil inside).table
  · obtain ⟨⟨s, _⟩, -, same⟩ := map_ok_iff.mp read
    cases same
    exact .scalar

theorem readItems_distinct (later : ReadsDistinct fuel)
    (read : readItems (fuel + 1) depth cs = .ok (items, rest)) : ∀ v ∈ items, v.Distinct := by
  unfold readItems at read
  split at read
  · cases read
  · cases read
    exact List.forall_mem_nil _
  · split at read
    · cases read
    · next value =>
      split at read
      · cases read
      · obtain ⟨⟨others, _⟩, after, same⟩ := map_ok_iff.mp read
        cases same
        exact List.forall_mem_cons.mpr ⟨later.value value, later.items after⟩
      · cases read
        exact List.forall_mem_singleton.mpr (later.value value)
      · cases read

theorem readPairs_distinct (later : ReadsDistinct fuel) (distinct : entries.Distinct)
    (read : readPairs (fuel + 1) depth entries cs = .ok (some es, rest)) : es.Distinct := by
  unfold readPairs at read
  split at read
  · split at read
    · cases read
      exact distinct
    · cases read
  · split at read
    · cases read
    · next value =>
      split at read
      · cases read
      · next added =>
        have distinct := addAlong_distinct distinct (later.pair value) added
        split at read
        · exact later.pairs distinct read
        · cases read
          exact distinct
        · cases read

theorem readPair_distinct (later : ReadsDistinct fuel)
    (read : readPair (fuel + 1) depth cs = .ok ((keys, v), rest)) : v.Distinct := by
  unfold readPair at read
  split at read
  · cases read
  · obtain ⟨⟨w, _⟩, value, same⟩ := map_ok_iff.mp read
    cases same
    exact later.value value
  · cases read

theorem readsDistinct (fuel : Nat) : ReadsDistinct fuel := by
  induction fuel with
  | zero =>
    constructor
    case value => intro _ _ _ _ read; rw [readValue] at read; cases read
    case items => intro _ _ _ _ read; rw [readItems] at read; cases read
    case pairs => intro _ _ _ _ _ _ read; rw [readPairs] at read; cases read
    case pair => intro _ _ _ _ _ read; rw [readPair] at read; cases read
  | succ fuel later =>
    exact ⟨readValue_distinct later, readItems_distinct later, readPairs_distinct later,
      readPair_distinct later⟩

/-! ### Tables -/

namespace Draft

structure Distinct (d : Draft) : Prop where
  closed : d.closed.Distinct
  current : d.current.entries.Distinct

variable {d d' : Draft} {path : List Key} {text : List Char}

theorem Distinct.close (distinct : d.Distinct) (closed : d.close = some es) : es.Distinct := by
  rw [Draft.close] at closed
  split at closed
  · cases closed
    exact distinct.current
  · refine descend_distinct ?_ distinct.closed closed
    intro form entries _ es kept changed
    dsimp only at changed
    split at changed
    · split at changed
      · next old =>
        cases changed
        refine ⟨trivial, kept.replace (.tables ?_)⟩
        rw [List.forall_mem_append]
        exact ⟨(kept.found old).inTables, List.forall_mem_singleton.mpr distinct.current.table⟩
      · cases changed
    · exact addEntry_keeps kept distinct.current.table changed

theorem Distinct.openTable (distinct : d.Distinct) (opened : d.openTable path text = some d') :
    d'.Distinct := by
  obtain ⟨closed, ends, opened⟩ := Option.bind_eq_some_iff.mp opened
  obtain ⟨key, -, opened⟩ := Option.bind_eq_some_iff.mp opened
  obtain ⟨⟨inside, around⟩, done, same⟩ := Option.bind_eq_some_iff.mp opened
  cases same
  have kept : inside.Distinct ∧ around.Distinct := by
    refine descend_keeps ?_ _ (distinct.close ends) done
    intro form entries _ es kept changed
    dsimp only at changed
    split at changed
    · cases changed
      exact ⟨.nil, kept⟩
    · next old =>
      cases changed
      exact ⟨(kept.found old).inTable, kept.remove⟩
    · cases changed
  exact ⟨kept.2, kept.1⟩

theorem Distinct.openArray (distinct : d.Distinct) (opened : d.openArray path text = some d') :
    d'.Distinct := by
  obtain ⟨closed, ends, opened⟩ := Option.bind_eq_some_iff.mp opened
  obtain ⟨key, -, opened⟩ := Option.bind_eq_some_iff.mp opened
  obtain ⟨⟨_, around⟩, done, same⟩ := Option.bind_eq_some_iff.mp opened
  cases same
  have kept : True ∧ around.Distinct := by
    refine descend_keeps (P := fun _ => True) ?_ _ (distinct.close ends) done
    intro form entries _ es kept changed
    dsimp only at changed
    split at changed
    · next new =>
      cases changed
      exact ⟨trivial, kept.add (.tables nofun) new⟩
    · cases changed
      exact ⟨trivial, kept⟩
    · cases changed
  exact ⟨kept.2, .nil⟩

theorem Distinct.set (distinct : d.Distinct) (value : v.Distinct) (done : d.set keys v = some d') :
    d'.Distinct := by
  obtain ⟨entries, added, rfl⟩ := Option.map_eq_some_iff.mp done
  exact ⟨distinct.closed, addAlong_distinct distinct.current value added⟩

end Draft

theorem readLinesOf_distinct {d : Draft} (distinct : d.Distinct)
    (read : readLinesOf fuel d cs = .ok entries) : entries.Distinct := by
  induction fuel generalizing d cs with
  | zero =>
    rw [readLinesOf] at read
    cases read
  | succ fuel ih =>
    unfold readLinesOf at read
    split at read
    · cases closed : d.close with
      | none => rw [closed] at read; cases read
      | some es =>
        rw [closed] at read
        cases read
        exact distinct.close closed
    · split at read
      · cases read
      · exact ih distinct read
    · split at read
      · cases read
      · dsimp only at read
        split at read
        · cases read
        · next opened =>
          split at opened
          · exact ih (distinct.openArray opened) read
          · exact ih (distinct.openTable opened) read
    · split at read
      · exact ih distinct read
      · split at read
        · cases read
        · next pair =>
          split at read
          · cases read
          · split at read
            · cases read
            · next done => exact ih (distinct.set ((readsDistinct _).pair pair) done) read

/-- In a document, no table has two entries under one key. -/
theorem parse_distinct {text : List Char} (read : parse text = .ok entries) : entries.Distinct :=
  readLinesOf_distinct ⟨.nil, .nil⟩ read

/-! ### Order -/

/-- Values that say the same. Where they start, how their tables came about, and the order of the
entries in a table make no difference. -/
inductive Value.Same : Value → Value → Prop
  | scalar {s : Scalar} {start start' : List Char} : Same (.scalar s start) (.scalar s start')
  | array {items items' : List Value} {start start' : List Char}
      (each : List.Forall₂ Same items items') : Same (.array items start) (.array items' start')
  | table {form form' : Form} {es es' : Entries} {start start' : Option (List Char)}
      (names : ∀ name, name ∈ es.names ↔ name ∈ es'.names)
      (each : ∀ e ∈ es, ∀ e' ∈ es', e.1.name = e'.1.name → Same e.2 e'.2) :
      Same (.table form es start) (.table form' es' start')
  | tables {items items' : List Value} (each : List.Forall₂ Same items items') :
      Same (.tables items) (.tables items')

structure Entries.Same (es es' : Entries) : Prop where
  names : ∀ name, name ∈ es.names ↔ name ∈ es'.names
  each : ∀ e ∈ es, ∀ e' ∈ es', e.1.name = e'.1.name → e.2.Same e'.2

/-- Of entries with their keys apart, two under one name are one. -/
theorem Entries.eq_of_name {e e' : Key × Value} (once : entries.names.Nodup) (member : e ∈ entries)
    (member' : e' ∈ entries) (same : e.1.name = e'.1.name) : e = e' :=
  List.inj_on_of_nodup_map once member member' same

theorem Value.Distinct.same (distinct : v.Distinct) : v.Same v := by
  induction distinct with
  | scalar => exact .scalar
  | array each ih => exact .array (List.forall₂_same.mpr ih)
  | table once each ih =>
    refine .table (fun _ => Iff.rfl) fun e member e' member' same => ?_
    rw [← Entries.eq_of_name once member member' same]
    exact ih e member
  | tables each ih => exact .tables (List.forall₂_same.mpr ih)

/-- Entries in another order say the same. -/
theorem Entries.Distinct.same_of_perm (distinct : entries.Distinct) (order : entries.Perm es) :
    entries.Same es where
  names name := (order.map _).mem_iff
  each e member e' member' same := by
    rw [← Entries.eq_of_name distinct.once member (order.mem_iff.mpr member') same]
    exact (distinct.each e member).same

/-- What is found under a name in entries that say the same. -/
theorem Entries.Same.get? (same : entries.Same es) (name : String) :
    (entries.get? name = none ∧ es.get? name = none) ∨
      ∃ v v', entries.get? name = some v ∧ es.get? name = some v' ∧ v.Same v' := by
  cases found : entries.get? name with
  | none =>
    have unknown := mt (same.names name).mpr (Entries.get?_eq_none.mp found)
    exact .inl ⟨rfl, Entries.get?_eq_none.mpr unknown⟩
  | some v =>
    obtain ⟨e, member, rfl, rfl⟩ := Entries.mem_of_get? found
    cases found' : es.get? e.1.name with
    | none =>
      have known := (same.names _).mp (List.mem_map.mpr ⟨e, member, rfl⟩)
      exact absurd known (Entries.get?_eq_none.mp found')
    | some v' =>
      obtain ⟨e', member', named, rfl⟩ := Entries.mem_of_get? found'
      exact .inr ⟨_, _, rfl, rfl, same.each e member e' member' named.symm⟩

end BundleMerge.Toml
