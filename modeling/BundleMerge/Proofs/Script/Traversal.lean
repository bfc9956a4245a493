import BundleMerge.Proofs.Script.Reading
import BundleMerge.Script.Cursor

/-! The walk through a tree, move by move. At each place it goes down to the first child. When it
cannot, it is done with the place: it goes on to the next sibling, or up to the parent, which it is
then done with too. However the tree is made, this comes to an end, and every tree in it has been
come to once, before its children and from left to right. -/
namespace BundleMerge.Script

/-- A tree in a tree, with the way down to it: which child to take, time after time. -/
structure Occurrence where
  way : List Nat
  tree : Tree

namespace Tree

/-- The tree to which a way leads. -/
def at? (t : Tree) : List Nat → Option Tree
  | [] => some t
  | i :: is => t.children[i]?.bind fun u => at? u is

mutual

/-- The occurrences in a tree that stands at the end of a way, each before its children and from
left to right. -/
def occurrencesAt (way : List Nat) : Tree → List Occurrence
  | .leaf k lead lexeme => [⟨way, .leaf k lead lexeme⟩]
  | .node k children => ⟨way, .node k children⟩ :: occurrencesFrom way 0 children

/-- Those in the children from the one with number `i` on. -/
def occurrencesFrom (way : List Nat) (i : Nat) : List Tree → List Occurrence
  | [] => []
  | t :: ts => occurrencesAt (way ++ [i]) t ++ occurrencesFrom way (i + 1) ts

end

def occurrences (t : Tree) : List Occurrence :=
  t.occurrencesAt []

/-- A leaf has no children, and is otherwise like any tree. -/
theorem occurrencesAt_eq (way : List Nat) (t : Tree) :
    t.occurrencesAt way = ⟨way, t⟩ :: occurrencesFrom way 0 t.children := by
  cases t with
  | leaf k lead lexeme => rfl
  | node k ts => rfl

theorem size_eq (t : Tree) : t.size = sizeAll t.children + 1 := by
  cases t with
  | leaf k lead lexeme => rfl
  | node k ts => rfl

theorem children_induction {motive : Tree → Prop}
    (step : ∀ t : Tree, (∀ u ∈ t.children, motive u) → motive t) (t : Tree) : motive t := by
  induction t using induction with
  | leaf k lead lexeme => exact step _ nofun
  | node k ts each => exact step _ each

theorem length_occurrencesFrom {ts : List Tree}
    (each : ∀ t ∈ ts, ∀ way, (t.occurrencesAt way).length = t.size) (way : List Nat) (i : Nat) :
    (occurrencesFrom way i ts).length = sizeAll ts := by
  induction ts generalizing i with
  | nil => rfl
  | cons t ts ih =>
    obtain ⟨first, others⟩ := List.forall_mem_cons.mp each
    rw [occurrencesFrom, List.length_append, first, ih others, sizeAll]

theorem length_occurrencesAt (t : Tree) : ∀ way, (t.occurrencesAt way).length = t.size := by
  induction t using children_induction with
  | step t each =>
    intro way
    rw [occurrencesAt_eq, List.length_cons, length_occurrencesFrom each, size_eq]

theorem mem_occurrencesFrom {way : List Nat} {o : Occurrence} {ts : List Tree}
    (each : ∀ t ∈ ts, ∀ way, o ∈ t.occurrencesAt way ↔
      ∃ down, o.way = way ++ down ∧ t.at? down = some o.tree) (i : Nat) :
    o ∈ occurrencesFrom way i ts ↔ ∃ j t down, ts[j]? = some t ∧
      o.way = way ++ (i + j) :: down ∧ t.at? down = some o.tree := by
  induction ts generalizing i with
  | nil => simp [occurrencesFrom]
  | cons t ts ih =>
    obtain ⟨first, others⟩ := List.forall_mem_cons.mp each
    rw [occurrencesFrom, List.mem_append, first, ih others]
    constructor
    · rintro (⟨down, ends, leads⟩ | ⟨j, u, down, found, ends, leads⟩)
      · exact ⟨0, t, down, rfl, by simpa using ends, leads⟩
      · exact ⟨j + 1, u, down, found, by rw [ends]; congr 2; omega, leads⟩
    · rintro ⟨j, u, down, found, ends, leads⟩
      cases j with
      | zero =>
        cases found
        exact .inl ⟨down, by simpa using ends, leads⟩
      | succ j => exact .inr ⟨j, u, down, found, by rw [ends]; congr 2; omega, leads⟩

theorem mem_occurrencesAt {o : Occurrence} (t : Tree) : ∀ way, o ∈ t.occurrencesAt way ↔
    ∃ down, o.way = way ++ down ∧ t.at? down = some o.tree := by
  induction t using children_induction with
  | step t each =>
    intro way
    rw [occurrencesAt_eq, List.mem_cons, mem_occurrencesFrom each]
    constructor
    · rintro (rfl | ⟨j, u, down, found, ends, leads⟩)
      · exact ⟨[], (List.append_nil way).symm, rfl⟩
      · exact ⟨j :: down, by simpa using ends, by rw [at?, found]; exact leads⟩
    · rintro ⟨down, ends, leads⟩
      cases down with
      | nil =>
        obtain ⟨_, u⟩ := o
        cases leads
        exact .inl (by simpa using ends)
      | cons j down =>
        obtain ⟨u, found, leads⟩ := Option.bind_eq_some_iff.mp leads
        exact .inr ⟨j, u, down, found, by simpa using ends, leads⟩

/-- The occurrences in a tree are what its ways lead to. -/
theorem mem_occurrences {o : Occurrence} (t : Tree) :
    o ∈ t.occurrences ↔ t.at? o.way = some o.tree := by
  rw [occurrences, mem_occurrencesAt]
  constructor
  · rintro ⟨down, ends, leads⟩
    rw [ends]
    exact leads
  · exact fun leads => ⟨o.way, rfl, leads⟩

theorem nodup_occurrencesFrom {way : List Nat} {ts : List Tree}
    (each : ∀ t ∈ ts, ∀ way, ((t.occurrencesAt way).map (·.way)).Nodup) (i : Nat) :
    ((occurrencesFrom way i ts).map (·.way)).Nodup := by
  induction ts generalizing i with
  | nil => exact List.nodup_nil
  | cons t ts ih =>
    obtain ⟨first, others⟩ := List.forall_mem_cons.mp each
    rw [occurrencesFrom, List.map_append, List.nodup_append]
    refine ⟨first _, ih others (i + 1), ?_⟩
    -- The ways part here: one goes down to child `i`, the other to a later one.
    intro left inFirst right inOthers same
    obtain ⟨o, here, rfl⟩ := List.mem_map.mp inFirst
    obtain ⟨p, later, rfl⟩ := List.mem_map.mp inOthers
    obtain ⟨down, ends, -⟩ := (mem_occurrencesAt t _).mp here
    obtain ⟨j, u, down', -, ends', -⟩ :=
      (mem_occurrencesFrom (fun t _ => mem_occurrencesAt t) _).mp later
    rw [ends, ends', List.append_assoc, List.append_cancel_left_eq] at same
    have numbers := (List.cons.inj same).1
    omega

theorem nodup_occurrencesAt (t : Tree) :
    ∀ way, ((t.occurrencesAt way).map (·.way)).Nodup := by
  induction t using children_induction with
  | step t each =>
    intro way
    rw [occurrencesAt_eq, List.map_cons, List.nodup_cons]
    refine ⟨?_, nodup_occurrencesFrom each 0⟩
    intro below
    obtain ⟨o, among, same⟩ := List.mem_map.mp below
    obtain ⟨j, u, down, -, ends, -⟩ :=
      (mem_occurrencesFrom (fun t _ => mem_occurrencesAt t) _).mp among
    rw [ends] at same
    simpa using congrArg List.length same

end Tree

namespace Cursor

/-- The way down to a level, by the levels above it. A level knows how many siblings follow. -/
def wayTo : Level → List Level → List Nat
  | _, [] => []
  | l, p :: ps => wayTo p ps ++ [p.tree.children.length - (l.rights.length + 1)]

def occurrence (c : Cursor) : Occurrence :=
  ⟨wayTo c.level c.above, c.level.tree⟩

/-- Climbing is to go on to the next sibling, or else to go up and climb from there. -/
theorem climb_eq (c : Cursor) : c.climb = (c.nextSibling?).or (c.parent?.bind climb) := by
  obtain ⟨⟨start, t, rights⟩, above⟩ := c
  cases rights with
  | cons u us => rw [climb]; rfl
  | nil =>
    cases above with
    | nil => rw [climb]; rfl
    | cons l ls => rw [climb]; rfl

end Cursor

/-- What the loop of a walk is about: it comes to a place, or is done with what is below it. -/
inductive Moment where
  | visit (c : Cursor)
  | leave (c : Cursor)

namespace Moment

/-- What the loop is about next, unless it ends. -/
def next? : Moment → Option Moment
  | visit c =>
    match c.firstChild? with
    | some d => some (visit d)
    | none => some (leave c)
  | leave c =>
    match c.nextSibling? with
    | some d => some (visit d)
    | none => c.parent?.map leave

def visited? : Moment → Option Cursor
  | visit c => some c
  | leave _ => none

@[simp]
theorem visited_visit (c : Cursor) (ms : List Moment) :
    (visit c :: ms).filterMap visited? = c :: ms.filterMap visited? :=
  rfl

@[simp]
theorem visited_leave (c : Cursor) (ms : List Moment) :
    (leave c :: ms).filterMap visited? = ms.filterMap visited? :=
  rfl

/-- The moments of the loop from one on, up to its end. -/
inductive Runs : Moment → List Moment → Prop
  | ends {m : Moment} (stop : m.next? = none) : Runs m [m]
  | goes {m n : Moment} {ms : List Moment} (next : m.next? = some n) (runs : Runs n ms) :
      Runs m (m :: ms)

theorem Runs.unique {m : Moment} {ms ns : List Moment} (first : Runs m ms) (second : Runs m ns) :
    ms = ns := by
  induction first generalizing ns with
  | ends stop =>
    cases second with
    | ends _ => rfl
    | goes next _ => cases stop.symm.trans next
  | goes next _ ih =>
    cases second with
    | ends stop => cases next.symm.trans stop
    | goes next' runs =>
      cases next.symm.trans next'
      rw [ih runs]

/-- Where the loop is with some children of `p` still to come: at the first of them, or done with
`p`. -/
def atChildren (p : Level) (ps : List Level) (start : Nat) : List Tree → Moment
  | [] => leave ⟨p, ps⟩
  | t :: ts => visit ⟨⟨start, t, ts⟩, p :: ps⟩

theorem visit_next (l : Level) (ls : List Level) :
    (visit ⟨l, ls⟩).next? = some (atChildren l ls l.start l.tree.children) := by
  rw [next?, Cursor.firstChild?]
  cases l.tree.children with
  | nil => rfl
  | cons t ts => rfl

theorem leave_next (start : Nat) (t : Tree) (ts : List Tree) (p : Level) (ps : List Level) :
    (leave ⟨⟨start, t, ts⟩, p :: ps⟩).next? = some (atChildren p ps (start + t.width) ts) := by
  cases ts with
  | nil => rfl
  | cons u us => rfl

/-- The moments from the visit of a place until the loop is done with what is below it. -/
structure Tours (c : Cursor) (ms : List Moment) : Prop where
  /-- Whatever the loop does from then on. -/
  runs : ∀ rest, Runs (.leave c) rest → Runs (.visit c) (ms ++ rest)
  visits : (ms.filterMap visited?).map Cursor.occurrence =
    c.level.tree.occurrencesAt (Cursor.wayTo c.level c.above)
  length : ms.length + 1 = 2 * c.level.tree.size

/-- The same for the children of `p` from the one with number `i` on. -/
structure ToursChildren (p : Level) (ps : List Level) (start i : Nat) (ts : List Tree)
    (ms : List Moment) : Prop where
  runs : ∀ rest, Runs (.leave ⟨p, ps⟩) rest → Runs (atChildren p ps start ts) (ms ++ rest)
  visits : (ms.filterMap visited?).map Cursor.occurrence =
    Tree.occurrencesFrom (Cursor.wayTo p ps) i ts
  length : ms.length = 2 * Tree.sizeAll ts

/-- A tour of the first child, and then one of the others. -/
theorem Tours.cons {p : Level} {ps : List Level} {start i : Nat} {t : Tree} {ts : List Tree}
    {first others : List Moment} (number : p.tree.children.length = i + (ts.length + 1))
    (tour : Tours ⟨⟨start, t, ts⟩, p :: ps⟩ first)
    (tours : ToursChildren p ps (start + t.width) (i + 1) ts others) :
    ToursChildren p ps start i (t :: ts)
      (first ++ .leave ⟨⟨start, t, ts⟩, p :: ps⟩ :: others) where
  runs rest runs := by
    rw [List.append_assoc]
    exact tour.runs _ (.goes (leave_next ..) (tours.runs rest runs))
  visits := by
    have way : Cursor.wayTo ⟨start, t, ts⟩ (p :: ps) = Cursor.wayTo p ps ++ [i] := by
      rw [Cursor.wayTo, number, Nat.add_sub_cancel]
    rw [List.filterMap_append, List.map_append, tour.visits, way, Tree.occurrencesFrom,
      visited_leave, tours.visits]
  length := by
    have first := tour.length
    have others := tours.length
    simp only [List.length_append, List.length_cons, Tree.sizeAll] at first ⊢
    omega

theorem exists_toursChildren {p : Level} {ps : List Level} {ts : List Tree}
    (each : ∀ t ∈ ts, ∀ start rights above, ∃ ms, Tours ⟨⟨start, t, rights⟩, above⟩ ms)
    (start i : Nat) (number : p.tree.children.length = i + ts.length) :
    ∃ ms, ToursChildren p ps start i ts ms := by
  induction ts generalizing start i with
  | nil => exact ⟨[], fun _ runs => runs, rfl, rfl⟩
  | cons t ts ih =>
    obtain ⟨first, others⟩ := List.forall_mem_cons.mp each
    obtain ⟨ms, tour⟩ := first start ts (p :: ps)
    obtain ⟨ns, tours⟩ := ih others (start + t.width) (i + 1)
      (number.trans (by rw [List.length_cons]; omega))
    exact ⟨_, Tours.cons number tour tours⟩

theorem exists_tours (t : Tree) :
    ∀ start rights above, ∃ ms, Tours ⟨⟨start, t, rights⟩, above⟩ ms := by
  induction t using Tree.children_induction with
  | step t each =>
    intro start rights above
    have number : t.children.length = 0 + t.children.length := (Nat.zero_add _).symm
    obtain ⟨ms, tours⟩ : ∃ ms, ToursChildren ⟨start, t, rights⟩ above start 0 t.children ms :=
      exists_toursChildren each start 0 number
    refine ⟨.visit ⟨⟨start, t, rights⟩, above⟩ :: ms, ?runs, ?visits, ?length⟩
    case runs => exact fun rest runs => .goes (visit_next ..) (tours.runs rest runs)
    case visits =>
      rw [visited_visit, List.map_cons, tours.visits, Tree.occurrencesAt_eq]
      rfl
    case length =>
      show (_ :: ms).length + 1 = 2 * t.size
      rw [List.length_cons, tours.length, Tree.size_eq]
      omega

/-- What the walk visits from a moment on: the place itself, or the one that is climbed to. -/
def walkOn (fuel : Nat) : Moment → List Cursor
  | visit c => c.walk fuel
  | leave c => c.climb.elim [] (Cursor.walk fuel)

theorem walkOn_visit {c : Cursor} {n : Moment} (next : (visit c).next? = some n) (fuel : Nat) :
    walkOn (fuel + 1) (visit c) = c :: walkOn fuel n := by
  cases down : c.firstChild? with
  | some d =>
    obtain rfl : visit d = n := by simpa only [next?, down, Option.some.injEq] using next
    simp only [walkOn, Cursor.walk, Cursor.next?, down]
  | none =>
    obtain rfl : leave c = n := by simpa only [next?, down, Option.some.injEq] using next
    cases climbed : c.climb with
    | some d => simp only [walkOn, Cursor.walk, Cursor.next?, down, climbed, Option.elim_some]
    | none => simp only [walkOn, Cursor.walk, Cursor.next?, down, climbed, Option.elim_none]

theorem walkOn_leave {c : Cursor} {n : Moment} (next : (leave c).next? = some n) (fuel : Nat) :
    walkOn fuel (leave c) = walkOn fuel n := by
  cases along : c.nextSibling? with
  | some d =>
    obtain rfl : visit d = n := by simpa only [next?, along, Option.some.injEq] using next
    simp only [walkOn, Cursor.climb_eq c, along, Option.some_or, Option.elim_some]
  | none =>
    obtain ⟨p, up, rfl⟩ : ∃ p, c.parent? = some p ∧ leave p = n := by
      simpa only [next?, along, Option.map_eq_some_iff] using next
    simp only [walkOn, Cursor.climb_eq c, along, up, Option.none_or, Option.bind_some]

theorem walkOn_end {c : Cursor} (stop : (leave c).next? = none) (fuel : Nat) :
    walkOn fuel (leave c) = [] := by
  cases along : c.nextSibling? with
  | some d => simp only [next?, along, reduceCtorEq] at stop
  | none =>
    have top : c.parent? = none := by simpa only [next?, along, Option.map_eq_none_iff] using stop
    simp only [walkOn, Cursor.climb_eq c, along, top, Option.or_none, Option.bind_none,
      Option.elim_none]

theorem Runs.walkOn_eq {m : Moment} {ms : List Moment} (runs : Runs m ms) {fuel : Nat}
    (enough : (ms.filterMap visited?).length ≤ fuel) : ms.filterMap visited? = walkOn fuel m := by
  induction runs generalizing fuel with
  | @ends m stop =>
    cases m with
    | visit c => cases (visit_next c.level c.above).symm.trans stop
    | leave c => exact (walkOn_end stop fuel).symm
  | @goes m n ms next runs ih =>
    cases m with
    | visit c =>
      rw [visited_visit, List.length_cons] at enough
      obtain ⟨less, rfl⟩ : ∃ less, fuel = less + 1 := ⟨fuel - 1, by omega⟩
      rw [visited_visit, walkOn_visit next, ih (Nat.le_of_succ_le_succ enough)]
    | leave c =>
      rw [visited_leave] at enough ⊢
      rw [walkOn_leave next, ih enough]

end Moment

/-- However a tree is made, the loop of a walk through it ends, after two moments for each tree in
it. It visits the occurrences in the tree in their order, and these are all places in the tree, each
of them once. -/
theorem walk_preorder (t : Tree) :
    (∃ ms, Moment.Runs (.visit (.root t)) ms ∧
        (∀ ns, Moment.Runs (.visit (.root t)) ns → ns = ms) ∧
        ms.length = 2 * t.size ∧ ms.filterMap Moment.visited? = visits t) ∧
      (visits t).map Cursor.occurrence = t.occurrences ∧
      (t.occurrences.map Occurrence.way).Nodup ∧
      ∀ o, o ∈ t.occurrences ↔ t.at? o.way = some o.tree := by
  obtain ⟨ms, tour⟩ := Moment.exists_tours t 0 [] []
  have runs : Moment.Runs (.visit (.root t)) (ms ++ [.leave (.root t)]) :=
    tour.runs _ (.ends rfl)
  have visited : (ms ++ [Moment.leave (.root t)]).filterMap Moment.visited? =
      ms.filterMap Moment.visited? := by
    rw [List.filterMap_append, Moment.visited_leave]
    exact List.append_nil _
  have count : (ms.filterMap Moment.visited?).length = t.size := by
    rw [← List.length_map (f := Cursor.occurrence), tour.visits]
    exact t.length_occurrencesAt []
  have visits_eq : (ms ++ [Moment.leave (.root t)]).filterMap Moment.visited? = visits t :=
    runs.walkOn_eq (Nat.le_of_eq (by rw [visited, count]))
  refine ⟨⟨_, runs, fun ns other => other.unique runs, ?_, visits_eq⟩, ?_,
    t.nodup_occurrencesAt [], fun o => t.mem_occurrences⟩
  · rw [List.length_append]
    exact tour.length
  · rw [← visits_eq, visited]
    exact tour.visits

end BundleMerge.Script
