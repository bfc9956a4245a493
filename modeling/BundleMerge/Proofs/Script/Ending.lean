import BundleMerge.Proofs.Script.Depth

/-! Every script is read to an end. Each lexeme but the end of a statement or of the script takes
something from the text, and so does every symbol of the grammar but the whole program. -/
namespace BundleMerge.Script

/-! ### Lexemes take something -/

section
variable {cs w : List Char} {n : Nat}

theorem take_ne_nil (more : cs ≠ []) (positive : 0 < n) : cs.take n ≠ [] := by
  obtain ⟨n, rfl⟩ := Nat.exists_eq_add_one.mpr positive
  cases cs with
  | nil => exact absurd rfl more
  | cons c cs => simp

theorem take_front_ne_nil (word : w ≠ []) (front : w.isPrefixOf cs = true) :
    cs.take w.length ≠ [] := by
  obtain ⟨rest, rfl⟩ := List.isPrefixOf_iff_prefix.mp front
  rwa [List.take_left]

theorem mark?_ne_nil (word : w ≠ []) (found : mark? w cs = some n) : cs.take n ≠ [] := by
  unfold mark? at found
  split at found
  · split at found <;> cases found
    exact take_front_ne_nil word ‹_›
  · cases found

theorem word?_ne_nil (word : w ≠ []) (found : word? w cs = some n) : cs.take n ≠ [] := by
  unfold word? at found
  split at found
  · dsimp only at found
    split at found <;> cases found
    exact take_front_ne_nil word ‹_›
  · cases found

theorem privateName?_ne_nil (found : privateName? cs = some n) : cs.take n ≠ [] := by
  unfold privateName? at found
  split at found
  · obtain ⟨k, -, rfl⟩ := Option.map_eq_some_iff.mp found
    exact take_ne_nil nofun (by omega)
  · cases found

theorem digits?_pos {digit : Char → Bool} (found : digits? digit cs = some n) :
    cs ≠ [] ∧ 0 < n := by
  cases cs with
  | nil => cases found
  | cons c cs =>
    rw [digits?] at found
    split at found
    · rename_i first
      cases found
      refine ⟨nofun, ?_⟩
      unfold digits
      rw [if_pos first]
      exact Nat.succ_pos _
    · cases found

theorem decimal?_ne_nil (found : decimal? cs = some n) : cs.take n ≠ [] := by
  unfold decimal? at found
  split at found
  · obtain ⟨k, -, rfl⟩ := Option.map_eq_some_iff.mp found
    exact take_ne_nil nofun (by omega)
  · obtain ⟨k, whole, rfl⟩ := Option.map_eq_some_iff.mp found
    obtain ⟨more, positive⟩ := digits?_pos whole
    refine take_ne_nil more ?_
    dsimp only
    split
    · split <;> omega
    · split <;> omega

theorem number?_ne_nil (found : number? cs = some n) : cs.take n ≠ [] := by
  unfold number? at found
  split at found
  · split at found
    · cases found
      refine take_ne_nil nofun ?_
      split <;> omega
    · exact decimal?_ne_nil found
  · exact decimal?_ne_nil found

theorem string?_ne_nil (found : string? cs = some n) : cs.take n ≠ [] := by
  unfold string? at found
  split at found
  · split at found
    · obtain ⟨k, -, rfl⟩ := Option.map_eq_some_iff.mp found
      exact take_ne_nil nofun (by omega)
    · cases found
  · cases found

theorem markupString?_ne_nil (found : markupString? cs = some n) : cs.take n ≠ [] := by
  unfold markupString? at found
  split at found
  · split at found
    · obtain ⟨k, -, rfl⟩ := Option.map_eq_some_iff.mp found
      exact take_ne_nil nofun (by omega)
    · cases found
  · cases found

theorem regex?_ne_nil (found : regex? cs = some n) : cs.take n ≠ [] := by
  unfold regex? at found
  split at found
  · cases found
  · cases found
  · obtain ⟨k, -, rfl⟩ := Option.map_eq_some_iff.mp found
    exact take_ne_nil nofun (by omega)
  · cases found

theorem condition?_ne_nil (found : condition? cs = some n) : cs.take n ≠ [] := by
  unfold condition? at found
  split at found
  · cases found
  · split at found <;> cases found
    exact take_ne_nil nofun (by omega)
  · cases found
    exact take_ne_nil nofun (by omega)
  · cases found

theorem templateChars?_ne_nil (found : templateChars? cs = some n) : cs.take n ≠ [] := by
  unfold templateChars? at found
  split at found
  · cases found
  · cases found
  · rename_i positive rest
    cases found
    refine take_ne_nil ?_ (Nat.pos_of_ne_zero positive)
    rintro rfl
    cases rest

theorem markupName?_ne_nil (found : markupName? cs = some n) : cs.take n ≠ [] := by
  unfold markupName? at found
  split at found
  · dsimp only at found
    split at found
    · split at found
      · cases found
        exact take_ne_nil nofun (by omega)
      · exact name?_ne_nil found
    · exact name?_ne_nil found
  · cases found

theorem markupText?_ne_nil (found : markupText? cs = some n) : cs.take n ≠ [] := by
  unfold markupText? at found
  dsimp only at found
  split at found
  · cases found
  · rename_i positive
    cases found
    refine take_ne_nil ?_ (Nat.pos_of_ne_zero positive)
    rintro rfl
    exact positive rfl

theorem reference?_ne_nil (found : reference? cs = some n) : cs.take n ≠ [] := by
  unfold reference? at found
  dsimp only at found
  split at found
  all_goals
    first
    | cases found
    | split at found <;> cases found
      exact take_ne_nil nofun (by omega)

theorem markupComment?_ne_nil (found : markupComment? cs = some n) : cs.take n ≠ [] := by
  unfold markupComment? at found
  split at found
  · rename_i front
    cases found
    rw [Bool.or_eq_true, List.isPrefixOf_iff_prefix, List.isPrefixOf_iff_prefix] at front
    obtain ⟨rest, rfl⟩ | ⟨rest, rfl⟩ := front
    all_goals exact take_ne_nil nofun (Nat.succ_pos _)
  · cases found

theorem interpreterLine?_ne_nil (found : interpreterLine? cs = some n) : cs.take n ≠ [] := by
  unfold interpreterLine? at found
  split at found
  · cases found
    exact take_ne_nil nofun (by omega)
  · cases found

end

section
variable {s : Spot} {kind : LeafKind} {leaf : Tree} {rest : List Char} {n : Nat}

theorem drop_shorter {cs : List Char} (front : cs.take n ≠ []) :
    (cs.drop n).length < cs.length := by
  rw [Ne, List.take_eq_nil_iff, not_or] at front
  have positive := List.length_pos_iff.mpr front.2
  rw [List.length_drop]
  omega

theorem Spot.leaf_shorter (kind : LeafKind) (front : s.next.take n ≠ []) :
    (s.leaf kind n).2.length < s.here.length := by
  refine Nat.lt_of_lt_of_le (drop_shorter front) ?_
  rw [Spot.here, List.length_append]
  exact Nat.le_add_left ..

theorem Spot.map_leaf_shorter {found : Option Nat}
    (front : ∀ n, found = some n → s.next.take n ≠ [])
    (scanned : found.map (s.leaf kind) = some (leaf, rest)) : rest.length < s.here.length := by
  obtain ⟨n, here, same⟩ := Option.map_eq_some_iff.mp scanned
  have shorter := Spot.leaf_shorter kind (front n here)
  rwa [same] at shorter

theorem Spot.map_leafHere_shorter {found : Option Nat}
    (front : ∀ n, found = some n → s.here.take n ≠ [])
    (scanned : found.map (s.leafHere kind) = some (leaf, rest)) : rest.length < s.here.length := by
  obtain ⟨n, here, same⟩ := Option.map_eq_some_iff.mp scanned
  cases same
  exact drop_shorter (front n here)

/-- Whether lexemes of the class take something from the text. -/
def Token.scans : Token → Bool
  | .mark m | .exact m | .word m | .templateMark m => m ≠ ""
  | .oneOf words => words.all (· ≠ "")
  | .statementEnd _ | .finish => false
  | _ => true

theorem toList_ne_nil {w : String} (word : decide (w ≠ "") = true) : w.toList ≠ [] := by
  simpa using word

theorem Token.scan_shorter {t : Token} (scanned : t.scan s = some (leaf, rest))
    (scans : t.scans = true) : rest.length < s.here.length := by
  cases t with
  | mark m => exact Spot.map_leaf_shorter (fun _ => mark?_ne_nil (toList_ne_nil scans)) scanned
  | word w => exact Spot.map_leaf_shorter (fun _ => word?_ne_nil (toList_ne_nil scans)) scanned
  | oneOf words =>
    refine Spot.map_leaf_shorter (fun n found => ?_) scanned
    obtain ⟨w, listed, found⟩ := List.exists_of_findSome?_eq_some found
    exact word?_ne_nil (toList_ne_nil (List.all_eq_true.mp scans w listed)) found
  | exact m =>
    simp only [Token.scan, Option.ite_none_right_eq_some, Option.some.injEq] at scanned
    obtain ⟨front, same⟩ := scanned
    have shorter := Spot.leaf_shorter .mark
      (take_front_ne_nil (toList_ne_nil scans) front)
    rwa [String.length_toList, same] at shorter
  | templateMark m =>
    simp only [Token.scan, Option.ite_none_right_eq_some, Option.some.injEq] at scanned
    obtain ⟨front, same⟩ := scanned
    cases same
    exact drop_shorter (take_front_ne_nil (toList_ne_nil scans) front)
  | name | property =>
    obtain ⟨n, found, scanned⟩ := Option.bind_eq_some_iff.mp scanned
    split at scanned <;> cases scanned
    exact Spot.leaf_shorter .name (name?_ne_nil found)
  | privateName => exact Spot.map_leaf_shorter (fun _ => privateName?_ne_nil) scanned
  | number => exact Spot.map_leaf_shorter (fun _ => number?_ne_nil) scanned
  | string => exact Spot.map_leaf_shorter (fun _ => string?_ne_nil) scanned
  | regex => exact Spot.map_leaf_shorter (fun _ => regex?_ne_nil) scanned
  | condition => exact Spot.map_leaf_shorter (fun _ => condition?_ne_nil) scanned
  | markupName => exact Spot.map_leaf_shorter (fun _ => markupName?_ne_nil) scanned
  | markupString => exact Spot.map_leaf_shorter (fun _ => markupString?_ne_nil) scanned
  | aside => exact Spot.map_leaf_shorter (fun _ => markupComment?_ne_nil) scanned
  | templateChars => exact Spot.map_leafHere_shorter (fun _ => templateChars?_ne_nil) scanned
  | markupText => exact Spot.map_leafHere_shorter (fun _ => markupText?_ne_nil) scanned
  | reference => exact Spot.map_leafHere_shorter (fun _ => reference?_ne_nil) scanned
  | interpreterLine => exact Spot.map_leafHere_shorter (fun _ => interpreterLine?_ne_nil) scanned
  | statementEnd | finish => cases scans

theorem Token.scan_keeps {t : Token} (scanned : t.scan s = some (leaf, rest)) :
    rest.length ≤ s.here.length := by
  rw [← Token.scan_text scanned, List.length_append]
  exact Nat.le_add_left ..

end

/-! ### The grammar -/

/-- Whatever a symbol is read as takes something from the text, but a program may be empty. -/
def profile : Profile Symbol Token where
  scans := Token.scans
  takes
    | .program => false
    | _ => true
  depth
    | .program => 62
    | .statement => 57
    | .expressions _ => 32
    | .expression _ => 30
    | .covering _ => 28
    | .operand _ => 26
    | .chainStart => 18
    | .member => 13
    | .declarators _ => 8
    | .classDef => 6
    | .construction | .function => 4
    | _ => 3

theorem profile_right : profile.Right grammar 150 where
  keeps _ _ _ _ := Token.scan_keeps
  scans _ _ _ _ := Token.scan_shorter
  takes x := by
    rcases x with _ | _ | _ | ⟨_ | _⟩ | ⟨_ | _, _ | _⟩ | ⟨_ | _, _ | _⟩ | ⟨_ | _, _ | _⟩ |
      ⟨_ | _, _ | _⟩ | _ <;> decide
  depth x := by
    rcases x with _ | _ | _ | ⟨_ | _⟩ | ⟨_ | _, _ | _⟩ | ⟨_ | _, _ | _⟩ | ⟨_ | _, _ | _⟩ |
      ⟨_ | _, _ | _⟩ | _ <;> decide
  fits x := by
    rcases x with _ | _ | _ | ⟨_ | _⟩ | ⟨_ | _, _ | _⟩ | ⟨_ | _, _ | _⟩ | ⟨_ | _, _ | _⟩ |
      ⟨_ | _, _ | _⟩ | _ <;> decide

/-- Reading a script comes to an end, and no fuel would make anything else of it. -/
theorem run_program (script : List Char) : grammar.Comes (.symbol .program) [] (.of script)
    (grammar.run (readingDepth script.length) (.symbol .program) [] (.of script)) := by
  refine ⟨run_ne_spent profile_right trivial ?_, _, rfl⟩
  rw [Spot.here_of, readingDepth]
  simp only [Rule.depth, profile]
  omega

/-- A script is read as a tree exactly if reading it with fuel enough comes to that tree. -/
theorem parse_eq_some_iff {script : List Char} {t : Tree} : parse script = some t ↔
    ∃ s, grammar.Comes (.symbol .program) [] (.of script) (.read [t] s) := by
  have comes := run_program script
  constructor
  · intro read
    unfold parse at read
    split at read <;> cases read
    rename_i s same
    rw [same] at comes
    exact ⟨s, comes⟩
  · rintro ⟨s, read⟩
    rw [parse, comes.unique read]

end BundleMerge.Script
