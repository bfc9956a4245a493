import Std.Data.TreeMap.Lemmas
import BundleMerge.Disk.Basic
import BundleMerge.Proofs.Path.Resolved

/-! Disks that hold a tree: whatever is there is in a directory, under an ordinary name. On such
a disk a path from the root is told by its place alone: what it leads to is what is there, and
it can be read exactly if a file is there. -/
namespace BundleMerge

namespace Path

variable {p : Path} {place : List String} {s : String}

/-- No text that holds the end mark of the system's texts can be looked up. -/
def NulFree (p : Path) : Prop := '\x00' ∉ p.text.toList

theorem isEmpty_of_parts (some : p.parts ≠ []) : p.isEmpty = false := by
  apply isEmpty_eq_false_iff.mpr
  intro empty
  rw [parts, empty] at some
  exact some rfl

/-- A path that ends in a name does not ask for a directory. -/
theorem namesDirectory_join_name (ordinary : Ordinary s) :
    (p.join ⟨s⟩).namesDirectory = false := by
  have single : pieces s.toList = [s.toList] := pieces_of_single ordinary.single
  have last : ∃ before, pieces (p.join ⟨s⟩).text.toList = before ++ [s.toList] := by
    by_cases empty : p.text.toList = []
    · exact ⟨[], by simp [join, isEmpty, ordinary.relative, String.toList_eq_nil_iff.mp empty, single]⟩
    · obtain ⟨front, joined, -⟩ := text_join empty ordinary.relative
      exact ⟨pieces front, by rw [joined, pieces_append_slash, single]⟩
  obtain ⟨before, split⟩ := last
  rw [namesDirectory, split, List.getLast?_concat]
  exact ordinary.loud

theorem nulFree_join_name (ordinary : Ordinary s) :
    (p.join ⟨s⟩).NulFree ↔ p.NulFree ∧ '\x00' ∉ s.toList := by
  by_cases empty : p.text.toList = []
  · simp [NulFree, join, isEmpty, ordinary.relative, String.toList_eq_nil_iff.mp empty]
  · obtain ⟨front, joined, text | text⟩ := text_join empty ordinary.relative
    · simp [NulFree, joined, text]
    · simp [NulFree, joined, text]

theorem NulFree.of_join {q : Path} (nonempty : p.text.toList ≠ []) (relative : q.isAbsolute = false)
    (free : (p.join q).NulFree) : p.NulFree := by
  obtain ⟨front, joined, text | text⟩ := text_join nonempty relative
  all_goals
    intro nul
    refine free ?_
    simp_all

end Path

namespace Disk

variable {d : Disk} {p : Path} {place q : Place} {n : Node} {bytes : ByteArray}

/-- Whatever is on the disk is in a directory, under an ordinary name. -/
structure WellFormed (d : Disk) : Prop where
  parent : ∀ {place name n}, d.node? (place ++ [name]) = some n → d.node? place = some .dir
  ordinary : ∀ {place name n}, d.node? (place ++ [name]) = some n → Path.Ordinary name

/-- The file at a place, if there is one. -/
def fileAt (d : Disk) (place : Place) : Option ByteArray :=
  match d.node? place with
  | some (.file bytes) => some bytes
  | _ => none

theorem fileAt_eq_some_iff : d.fileAt place = some bytes ↔ d.node? place = some (.file bytes) := by
  unfold fileAt
  split <;> simp_all

theorem fileAt_congr {d' : Disk} (same : d'.node? place = d.node? place) :
    d'.fileAt place = d.fileAt place := by
  rw [fileAt, fileAt, same]

theorem node?_root (d : Disk) : d.node? [] = some .dir := by
  simp [node?]

theorem node?_assign (place_ne : place ≠ []) :
    (d.assign place n).node? q = if q = place then some n else d.node? q := by
  by_cases root : q = []
  · simp [node?, root, Ne.symm place_ne]
  · simp only [node?, assign, root, if_false, Std.TreeMap.getElem?_insert,
      Std.LawfulEqCmp.compare_eq_iff_eq, eq_comm (a := place)]

theorem WellFormed.above (tree : d.WellFormed) (there : d.node? (place ++ q) = some n)
    (below : q ≠ []) : d.node? place = some .dir := by
  induction q using List.reverseRecOn generalizing n with
  | nil => exact absurd rfl below
  | append_singleton q name ih =>
    rw [← List.append_assoc] at there
    have dir := tree.parent there
    by_cases direct : q = []
    · simpa [direct] using dir
    · exact ih dir direct

theorem WellFormed.names (tree : d.WellFormed) (there : d.node? place = some n) :
    ∀ s ∈ place, Path.Ordinary s := by
  induction place using List.reverseRecOn generalizing n with
  | nil => simp
  | append_singleton place name ih =>
    intro s member
    obtain member | member := List.mem_append.mp member
    · exact ih (tree.parent there) s member
    · rw [List.mem_singleton.mp member]
      exact tree.ordinary there

/-- The names that lead to a file from a place above it are ordinary. -/
theorem WellFormed.names_below {names : List String} (tree : d.WellFormed)
    (there : (d.fileAt (place ++ names)).isSome) : ∀ s ∈ names, Path.Ordinary s := by
  intro s member
  obtain ⟨bytes, file⟩ := Option.isSome_iff_exists.mp there
  exact tree.names (fileAt_eq_some_iff.mp file) s (List.mem_append_right _ member)

/-- There is nothing below a file. -/
theorem WellFormed.fileAt_below {names : List String} (tree : d.WellFormed)
    (regular : d.fileAt place = some bytes) (below : names ≠ []) :
    d.fileAt (place ++ names) = none := by
  rw [Option.eq_none_iff_forall_ne_some]
  intro inner there
  have dir := tree.above (fileAt_eq_some_iff.mp there) below
  rw [fileAt_eq_some_iff.mp regular] at dir
  cases dir

/-- Whether a disk is well-formed is told by the nodes that it lists. -/
theorem WellFormed.of_nodes (checked : ∀ entry ∈ d.nodes.toList,
    d.node? entry.1.dropLast = some .dir ∧ ∀ name ∈ entry.1.getLast?, Path.Ordinary name) :
    d.WellFormed := by
  have each : ∀ {place name n}, d.node? (place ++ [name]) = some n →
      d.node? place = some .dir ∧ Path.Ordinary name := by
    intro place name n there
    rw [node?, if_neg (by simp)] at there
    obtain ⟨dir, ordinary⟩ := checked _ (Std.TreeMap.mem_toList_iff_getElem?_eq_some.mpr there)
    rw [List.dropLast_concat] at dir
    exact ⟨dir, ordinary name (by simp)⟩
  exact ⟨fun there => (each there).1, fun there => (each there).2⟩

/-! ### Looking up -/

/-- What parts pass on their way are directories. -/
def Passes (d : Disk) (parts : List Path.Part) : Prop :=
  ∀ front, front <+: parts → front ≠ parts → d.node? (Path.resolve [] front) = some .dir

theorem passes_snoc {parts : List Path.Part} {part : Path.Part} : d.Passes (parts ++ [part]) ↔
    ∀ front, front <+: parts → d.node? (Path.resolve [] front) = some .dir := by
  constructor
  · intro passes front inside
    refine passes front (inside.trans (List.prefix_append ..)) ?_
    rintro rfl
    have shorter := inside.length_le
    rw [List.length_append, List.length_singleton] at shorter
    omega
  · intro dirs front inside proper
    rcases List.prefix_concat_iff.mp inside with whole | early
    · exact absurd whole proper
    · exact dirs front early

theorem advance_ok_iff {part : Path.Part} :
    d.advance place part = .ok q ↔ d.node? place = some .dir ∧ q = Path.enter place part := by
  unfold advance
  split <;> rename_i there <;> rw [there]
  · simp
  · simp
  · cases part <;> simp [Path.enter, eq_comm]

theorem foldlM_advance {parts : List Path.Part} :
    parts.foldlM d.advance place = .ok q ↔ q = Path.resolve place parts ∧
      ∀ front, front <+: parts → front ≠ parts →
        d.node? (Path.resolve place front) = some .dir := by
  induction parts generalizing place with
  | nil =>
    simp only [List.foldlM_nil, pure, Except.pure, Except.ok.injEq, List.prefix_nil]
    exact ⟨fun same => ⟨same.symm, fun front empty proper => absurd empty proper⟩, fun h => h.1.symm⟩
  | cons part parts ih =>
    rw [List.foldlM_cons]
    constructor
    · intro followed
      cases first : d.advance place part with
      | error e => rw [first] at followed; cases followed
      | ok next =>
        rw [first] at followed
        obtain ⟨dir, rfl⟩ := advance_ok_iff.mp first
        obtain ⟨rfl, dirs⟩ := ih.mp followed
        refine ⟨rfl, fun front inside proper => ?_⟩
        cases front with
        | nil => exact dir
        | cons other front =>
          obtain ⟨rfl, deeper⟩ := List.cons_prefix_cons.mp inside
          exact dirs front deeper fun same => proper (by rw [same])
    · rintro ⟨rfl, dirs⟩
      have first : d.advance place part = .ok (Path.enter place part) :=
        advance_ok_iff.mpr ⟨dirs [] List.nil_prefix (by simp), rfl⟩
      rw [first]
      refine ih.mpr ⟨rfl, fun front inside proper => ?_⟩
      exact dirs (part :: front) (List.cons_prefix_cons.mpr ⟨rfl, inside⟩) (by simpa using proper)

/-- Where parts start: at the root, or where relative paths do. -/
def start (d : Disk) (parts : List Path.Part) : Place :=
  if parts.head? = some .root then [] else d.cwd

theorem start_front {front parts : List Path.Part} (inside : front <+: parts) (some : front ≠ []) :
    d.start front = d.start parts := by
  obtain ⟨part, front, rfl⟩ := List.exists_cons_of_ne_nil some
  obtain ⟨rest, rfl⟩ := inside
  rfl

/-- Parts that start at the root lead to the same place from anywhere. -/
theorem resolve_start (parts : List Path.Part) :
    Path.resolve (d.start parts) parts = Path.resolve d.cwd parts := by
  cases parts with
  | nil => rfl
  | cons first rest => cases first <;> rfl

/-- Parts are followed through directories only. -/
theorem follow_iff {parts : List Path.Part} : d.follow parts = .ok q ↔
    q = Path.resolve (d.start parts) parts ∧ ∀ front, front <+: parts → front ≠ parts →
      d.node? (Path.resolve (d.start parts) front) = some .dir := by
  cases parts with
  | nil => exact foldlM_advance
  | cons first rest =>
    cases first with
    | here | up | name => exact foldlM_advance
    | root =>
      rw [follow, foldlM_advance]
      refine and_congr Iff.rfl ⟨fun dirs front inside proper => ?_, fun dirs front inside proper => ?_⟩
      · cases front with
        | nil => exact node?_root d
        | cons first front =>
          obtain ⟨rfl, deeper⟩ := List.cons_prefix_cons.mp inside
          exact dirs front deeper fun same => proper (by rw [same])
      · exact dirs (.root :: front) (List.cons_prefix_cons.mpr ⟨rfl, inside⟩) (by simpa using proper)

theorem follow_snoc {parts : List Path.Part} {part : Path.Part} (some : parts ≠ []) :
    d.follow (parts ++ [part]) = d.follow parts >>= (d.advance · part) := by
  obtain ⟨first, rest, rfl⟩ := List.exists_cons_of_ne_nil some
  cases first <;> simp [follow]

/-- Parts from the root are followed through directories only. -/
theorem follow_ok_iff {parts : List Path.Part} (rooted : Path.Rooted parts) :
    d.follow parts = .ok q ↔ q = Path.resolve [] parts ∧ d.Passes parts := by
  have start : d.start parts = [] := if_pos rooted.root
  rw [follow_iff, start]
  rfl

theorem locate_iff : d.locate p = .ok q ↔
    p.NulFree ∧ p.isEmpty = false ∧ d.follow p.parts = .ok q := by
  unfold locate
  by_cases free : p.NulFree
  · have found : p.text.toList.contains '\x00' = false := by simpa [Path.NulFree] using free
    rw [found, if_neg Bool.false_ne_true]
    cases p.isEmpty <;> simp [free]
  · have found : p.text.toList.contains '\x00' = true := by simpa [Path.NulFree] using free
    rw [found, if_pos rfl]
    simp [free]

theorem locate_place (located : d.locate p = .ok place) : place = p.seenFrom d.cwd := by
  obtain ⟨-, -, followed⟩ := locate_iff.mp located
  obtain ⟨rfl, -⟩ := follow_iff.mp followed
  exact resolve_start p.parts

theorem locate_ok_iff (absolute : p.isAbsolute = true) :
    d.locate p = .ok q ↔ p.NulFree ∧ q = p.resolved ∧ d.Passes p.parts := by
  have nonempty : p.isEmpty = false :=
    Path.isEmpty_eq_false_iff.mpr (Path.nonempty_of_absolute absolute)
  rw [locate_iff, follow_ok_iff (Path.rooted absolute)]
  exact and_congr_right fun _ => and_iff_right nonempty

/-- The last part of a way that leads to no directory is a name, in a directory. -/
theorem WellFormed.arrives {parts : List Path.Part} {base : Place} (tree : d.WellFormed)
    (some : parts ≠ []) (ordinary : ∀ s, Path.Part.name s ∈ parts → Path.Ordinary s)
    (dirs : ∀ front, front <+: parts → front ≠ parts →
      d.node? (Path.resolve base front) = .some .dir)
    (free : d.node? (Path.resolve base parts) ≠ .some .dir) :
    ∃ above name, Path.resolve base parts = above ++ [name] ∧ Path.Ordinary name ∧
      d.node? above = .some .dir ∧ parts.getLast? = .some (.name name) := by
  obtain rfl | ⟨front, last, rfl⟩ := parts.eq_nil_or_concat'
  · exact absurd rfl some
  · have dir := dirs front (List.prefix_append ..) (by simp)
    rw [Path.resolve_snoc] at free ⊢
    cases last with
    | root => exact absurd (node?_root d) free
    | here => exact absurd dir free
    | name s => exact ⟨_, s, rfl, ordinary s (by simp), dir, List.getLast?_concat⟩
    | up =>
      generalize Path.resolve base front = place at dir free
      obtain rfl | ⟨above, name, rfl⟩ := place.eq_nil_or_concat'
      · exact absurd dir free
      · rw [Path.enter, List.dropLast_concat] at free
        exact absurd (tree.parent dir) free

theorem stat_ok_iff_locate : d.stat p = .ok n ↔ ∃ place, d.locate p = .ok place ∧
    d.node? place = some n ∧ (p.namesDirectory = true → n = .dir) := by
  unfold stat
  cases d.locate p with
  | error e => simp
  | ok place =>
    simp only [Except.ok.injEq, exists_eq_left']
    cases d.node? place with
    | none => simp
    | some m =>
      cases m with
      | dir => simpa using fun same _ => same.symm
      | file bytes =>
        cases p.namesDirectory with
        | false => simp
        | true =>
          simp only [if_true, reduceCtorEq, Option.some.injEq, forall_const, false_iff, not_and]
          rintro rfl
          exact Node.noConfusion

/-- What lies under a name in a directory is found by the name. -/
theorem stat_join_name {name : String} (dir : d.stat p = .ok .dir)
    (ordinary : Path.Ordinary name) (there : d.node? (p.seenFrom d.cwd ++ [name]) = some n)
    (free : (p.join ⟨name⟩).NulFree) : d.stat (p.join ⟨name⟩) = .ok n := by
  obtain ⟨place, located, here, -⟩ := stat_ok_iff_locate.mp dir
  obtain ⟨-, -, followed⟩ := locate_iff.mp located
  obtain rfl := locate_place located
  obtain ⟨same, dirs⟩ := follow_iff.mp followed
  have parts : (p.join ⟨name⟩).parts = p.parts ++ [.name name] := Path.parts_join_name ordinary
  have start : d.start (p.parts ++ [.name name]) = d.start p.parts := by
    cases p.parts <;> rfl
  have followed' : d.follow (p.parts ++ [.name name]) = .ok (p.seenFrom d.cwd ++ [name]) := by
    rw [follow_iff, start, Path.resolve_snoc, ← same]
    refine ⟨rfl, fun front inside proper => ?_⟩
    rcases List.prefix_concat_iff.mp inside with whole | early
    · exact absurd whole proper
    · by_cases all : front = p.parts
      · rw [all, ← same]
        exact here
      · exact dirs front early all
  have nonempty : (p.join ⟨name⟩).isEmpty = false := Path.isEmpty_of_parts (by simp [parts])
  refine stat_ok_iff_locate.mpr ⟨_, locate_iff.mpr ⟨free, nonempty, ?_⟩, there, ?_⟩
  · rw [parts]
    exact followed'
  · rw [Path.namesDirectory_join_name ordinary]
    nofun

theorem stat_ok_iff_passes (absolute : p.isAbsolute = true) :
    d.stat p = .ok n ↔ p.NulFree ∧ d.Passes p.parts ∧ d.node? p.resolved = some n ∧
      (p.namesDirectory = true → n = .dir) := by
  simp only [stat_ok_iff_locate, locate_ok_iff absolute]
  constructor
  · rintro ⟨_, ⟨free, rfl, passes⟩, there⟩
    exact ⟨free, passes, there⟩
  · rintro ⟨free, passes, there⟩
    exact ⟨_, ⟨free, rfl, passes⟩, there⟩

/-! ### Places in a tree -/

/-- In a tree the way to a place that is there is open. -/
theorem WellFormed.passes (tree : d.WellFormed) (leads : p.LeadsTo place)
    (there : d.node? place = some n) : d.Passes p.parts := by
  intro front inside proper
  rw [leads] at inside proper
  cases front with
  | nil => exact node?_root d
  | cons first front =>
    obtain ⟨rfl, deeper⟩ := List.cons_prefix_cons.mp inside
    obtain ⟨names, above, rfl⟩ := List.prefix_map_iff.mp deeper
    obtain ⟨rest, rfl⟩ := above
    rw [Path.resolve, List.foldl_cons, ← Path.resolve, Path.resolve_names]
    exact tree.above there (by simpa using proper)

theorem stat_ok_iff (tree : d.WellFormed) (leads : p.LeadsTo place) :
    d.stat p = .ok n ↔
      p.NulFree ∧ d.node? place = some n ∧ (p.namesDirectory = true → n = .dir) := by
  rw [stat_ok_iff_passes leads.absolute, leads.resolved]
  refine and_congr_right fun _ => ⟨fun h => h.2, fun h => ⟨?_, h⟩⟩
  exact tree.passes leads h.1

theorem existsAt_iff : d.existsAt p = true ↔ ∃ n, d.stat p = .ok n := by
  unfold existsAt
  cases d.stat p <;> simp [Except.isOk, Except.toBool]

theorem read_ok_iff_stat : d.read p = .ok bytes ↔ d.stat p = .ok (.file bytes) := by
  unfold read
  cases d.stat p with
  | error e => simp
  | ok n => cases n <;> simp

theorem read_ok_iff_locate : d.read p = .ok bytes ↔
    ∃ place, d.locate p = .ok place ∧ d.fileAt place = some bytes ∧ p.namesDirectory = false := by
  rw [read_ok_iff_stat, stat_ok_iff_locate]
  refine exists_congr fun place => and_congr_right fun _ => ?_
  rw [fileAt_eq_some_iff]
  simp

theorem read_ok_iff_passes (absolute : p.isAbsolute = true) :
    d.read p = .ok bytes ↔ p.NulFree ∧ d.Passes p.parts ∧
      d.fileAt p.resolved = some bytes ∧ p.namesDirectory = false := by
  rw [read_ok_iff_stat, stat_ok_iff_passes absolute, fileAt_eq_some_iff]
  simp

/-- A path from the root can be read exactly if a file is there. -/
theorem read_ok_iff (tree : d.WellFormed) (leads : p.LeadsTo place) :
    d.read p = .ok bytes ↔
      p.NulFree ∧ d.fileAt place = some bytes ∧ p.namesDirectory = false := by
  rw [read_ok_iff_stat, stat_ok_iff tree leads, fileAt_eq_some_iff]
  simp

/-- What is there may be unreadable, but is not reported missing. -/
theorem readText_not_missing (there : d.existsAt p = true) : d.readText p ≠ .error (.system 2) := by
  intro missing
  obtain ⟨n, here⟩ := existsAt_iff.mp there
  cases n with
  | dir => simp [readText, read, here, DiskError.isDirectory] at missing
  | file bytes =>
    rw [readText, read_ok_iff_stat.mpr here] at missing
    cases decoded : String.fromUTF8? bytes <;> simp [decoded] at missing

theorem readText_ok_iff {text : String} :
    d.readText p = .ok text ↔ ∃ bytes, d.read p = .ok bytes ∧ String.fromUTF8? bytes = some text := by
  unfold readText
  cases d.read p with
  | error e => simp
  | ok bytes =>
    simp only [Except.ok.injEq, exists_eq_left']
    cases String.fromUTF8? bytes <;> simp

/-! ### Disks that agree at a place -/

/-- What can be read at a path depends on its text, and on the file there. -/
theorem readText_ok_iff_file {text : String} (tree : d.WellFormed) (leads : p.LeadsTo place) :
    d.readText p = .ok text ↔ p.NulFree ∧ p.namesDirectory = false ∧
      (d.fileAt place).bind String.fromUTF8? = some text := by
  simp only [readText_ok_iff, read_ok_iff tree leads, Option.bind_eq_some_iff]
  constructor
  · rintro ⟨bytes, ⟨free, file, names⟩, decoded⟩
    exact ⟨free, names, bytes, file, decoded⟩
  · rintro ⟨free, names, bytes, file, decoded⟩
    exact ⟨bytes, ⟨free, file, names⟩, decoded⟩

theorem readText_ok_congr {d' : Disk} {text : String} (tree : d.WellFormed) (tree' : d'.WellFormed)
    (leads : p.LeadsTo place) (same : d'.fileAt place = d.fileAt place) :
    d'.readText p = .ok text ↔ d.readText p = .ok text := by
  rw [readText_ok_iff_file tree' leads, readText_ok_iff_file tree leads, same]

section Agreement

variable {d' : Disk} (tree : d.WellFormed) (tree' : d'.WellFormed) (leads : p.LeadsTo place)
  (same : d'.node? place = d.node? place)

include tree tree' leads same

theorem stat_ok_congr : d'.stat p = .ok n ↔ d.stat p = .ok n := by
  rw [stat_ok_iff tree' leads, stat_ok_iff tree leads, same]

theorem existsAt_congr : d'.existsAt p = d.existsAt p := by
  rw [Bool.eq_iff_iff, existsAt_iff, existsAt_iff]
  exact exists_congr fun _ => stat_ok_congr tree tree' leads same

/-- A file that is missing in a directory is missing in both. -/
theorem readText_join_congr {name : String} (ordinary : Path.Ordinary name)
    (there : d'.node? (place ++ [name]) = d.node? (place ++ [name])) (present : d.existsAt p = true) :
    d'.readText (p.join ⟨name⟩) = d.readText (p.join ⟨name⟩) := by
  have present' : d'.existsAt p = true := by rwa [existsAt_congr tree tree' leads same]
  have way : ∀ {d : Disk}, d.existsAt p = true → d.follow p.parts = .ok place := by
    intro d found
    obtain ⟨n, stat⟩ := existsAt_iff.mp found
    obtain ⟨q, located, -⟩ := stat_ok_iff_locate.mp stat
    obtain ⟨-, rfl, -⟩ := (locate_ok_iff leads.absolute).mp located
    obtain ⟨-, -, followed⟩ := locate_iff.mp located
    rwa [leads.resolved] at followed
  have onward : ∀ {d : Disk}, d.existsAt p = true →
      d.follow (p.join ⟨name⟩).parts = d.advance place (.name name) := by
    intro d found
    rw [Path.parts_join_name ordinary, follow_snoc (Path.rooted leads.absolute).ne_nil, way found]
    rfl
  have followed : d'.follow (p.join ⟨name⟩).parts = d.follow (p.join ⟨name⟩).parts := by
    rw [onward present, onward present', advance, advance, same]
  have located : d'.locate (p.join ⟨name⟩) = d.locate (p.join ⟨name⟩) := by
    rw [locate, locate, followed]
  unfold readText read stat
  rw [located]
  cases found : d.locate (p.join ⟨name⟩) with
  | error e => rfl
  | ok q =>
    obtain ⟨-, -, arrived⟩ := locate_iff.mp found
    rw [onward present] at arrived
    obtain ⟨-, rfl⟩ := advance_ok_iff.mp arrived
    dsimp only [Path.enter]
    rw [there]

end Agreement

end Disk
end BundleMerge
