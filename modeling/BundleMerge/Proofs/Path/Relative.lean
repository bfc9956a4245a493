import BundleMerge.Proofs.Path.Parts

/-! A path as seen from another one that leads to it. Its parts are those that the other path
lacks, and joining it to the other path leads back. -/
namespace BundleMerge.Path

variable {p q base : Path} {ps qs : List (List Char)} {names : List String} {n : Nat}

/-! ### Dropping stretches -/

theorem ofPieces_cons_cons (piece next : List Char) (rest : List (List Char)) :
    ofPieces (piece :: next :: rest) = piece ++ '/' :: ofPieces (next :: rest) := by
  simp [ofPieces, List.intercalate]

theorem pieces_ofPieces (nonempty : ps ≠ []) (single : ∀ piece ∈ ps, '/' ∉ piece) :
    pieces (ofPieces ps) = ps := by
  induction ps with
  | nil => exact absurd rfl nonempty
  | cons piece rest ih =>
    obtain ⟨first, others⟩ := List.forall_mem_cons.mp single
    cases rest with
    | nil => simpa [ofPieces] using pieces_of_single first
    | cons next rest =>
      rw [ofPieces_cons_cons, pieces_append_slash, pieces_of_single first,
        ih (List.cons_ne_nil next rest) others, List.singleton_append]

theorem body_pieces_ofPieces (single : ∀ piece ∈ ps, '/' ∉ piece) :
    body (pieces (ofPieces ps)) = body ps := by
  by_cases empty : ps = []
  · subst empty
    rfl
  · rw [pieces_ofPieces empty single]

theorem body_cons_silent {piece : List Char} (quiet : silent piece = true) :
    body (piece :: ps) = body ps := by
  rw [body, List.filter_cons_of_neg (by simp [quiet]), ← body]

theorem body_cons_loud {piece : List Char} (loud : silent piece = false) :
    body (piece :: ps) = partOf piece :: body ps := by
  rw [body, List.filter_cons_of_pos (by simp [loud]), List.map_cons, ← body]

theorem dropSilentEnd_cons {piece : List Char} : dropSilentEnd (piece :: ps) =
    if silent piece ∧ dropSilentEnd ps = [] then [] else piece :: dropSilentEnd ps := by
  unfold dropSilentEnd
  rw [List.reverse_cons, List.dropWhile_append]
  cases rest : ps.reverse.dropWhile silent with
  | nil => cases loud : silent piece <;> simp [loud]
  | cons last front => simp

theorem dropSilentEnd_cons_loud {piece : List Char} (loud : silent piece = false) :
    dropSilentEnd (piece :: ps) = piece :: dropSilentEnd ps := by
  rw [dropSilentEnd_cons, if_neg (by simp [loud])]

theorem body_dropSilentEnd : body (dropSilentEnd ps) = body ps := by
  induction ps with
  | nil => rfl
  | cons piece rest ih =>
    cases loud : silent piece with
    | false => rw [dropSilentEnd_cons_loud loud, body_cons_loud loud, body_cons_loud loud, ih]
    | true =>
      rw [dropSilentEnd_cons, body_cons_silent loud, ← ih]
      split
      · rename_i ended
        rw [ended.2]
      · exact body_cons_silent loud

theorem dropSilentEnd_subset : dropSilentEnd ps ⊆ ps := by
  intro piece member
  rw [dropSilentEnd, List.mem_reverse] at member
  exact List.mem_reverse.mp ((List.dropWhile_sublist _).mem member)

theorem body_dropNames : body (dropNames n ps) = (body ps).drop n := by
  induction ps generalizing n with
  | nil => simp [dropNames, body]
  | cons piece rest ih =>
    cases n <;> cases loud : silent piece <;>
      simp [dropNames, loud, body_cons_silent, body_cons_loud, ih]

/-- What is left after names are dropped begins with a name. -/
theorem dropNames_begins : dropNames n ps = [] ∨
    ∃ piece rest, dropNames n ps = piece :: rest ∧ silent piece = false := by
  induction ps generalizing n with
  | nil => cases n <;> simp [dropNames]
  | cons piece rest ih =>
    cases n with
    | zero =>
      cases loud : silent piece with
      | false => exact .inr ⟨piece, rest, by simp [dropNames, loud], loud⟩
      | true => simpa only [dropNames, loud, if_true] using ih
    | succ n =>
      cases loud : silent piece with
      | false => simpa only [dropNames, loud, Bool.false_eq_true, if_false] using ih
      | true => simpa only [dropNames, loud, if_true] using ih

theorem dropNames_subset : dropNames n ps ⊆ ps := by
  induction ps generalizing n with
  | nil => cases n <;> simp [dropNames]
  | cons piece rest ih =>
    have below : ∀ k, dropNames k rest ⊆ piece :: rest := fun k =>
      List.subset_cons_of_subset piece ih
    cases n <;> cases loud : silent piece <;> simp [dropNames, loud, below]

/-! ### What is left of a path -/

theorem startsWith_of_relativeTo? (found : p.relativeTo? base = some q) :
    p.startsWith base = true := by
  unfold relativeTo? at found
  split at found
  · assumption
  · cases found

theorem ofPieces_relative (single : ∀ piece ∈ ps, '/' ∉ piece)
    (begins : ps = [] ∨ ∃ piece rest, ps = piece :: rest ∧ silent piece = false) :
    (⟨String.ofList (ofPieces ps)⟩ : Path).isAbsolute = false := by
  rw [isAbsolute, String.toList_ofList, decide_eq_false_iff_not]
  obtain rfl | ⟨piece, rest, rfl, loud⟩ := begins
  · simp [ofPieces]
  · obtain ⟨first, -⟩ := List.forall_mem_cons.mp single
    cases piece with
    | nil => cases loud
    | cons c cs =>
      have other : c ≠ '/' := fun same => first (by simp [same])
      cases rest with
      | nil => simpa [ofPieces] using other
      | cons next rest => simpa [ofPieces_cons_cons] using other

theorem dropParts_absolute (n : Nat) (tail : List Char) : dropParts (n + 1) ('/' :: tail) =
    ofPieces (dropSilentEnd (dropNames n (pieces tail))) := by
  have split : pieces ('/' :: tail) = [] :: pieces tail := by simp [pieces]
  simp only [dropParts, partsOf_slash, split]

/-- What is left of a path inside an absolute one is relative, and its parts come last. -/
theorem relativeTo?_some (absolute : base.isAbsolute = true) (inside : p.startsWith base = true) :
    ∃ rel, p.relativeTo? base = some rel ∧ rel.isAbsolute = false ∧
      p.parts = base.parts ++ body (pieces rel.text.toList) := by
  obtain ⟨baseTail, baseText⟩ := isAbsolute_iff.mp absolute
  have baseParts : base.parts = .root :: body (pieces baseTail) := by
    rw [parts, baseText, partsOf_slash]
  rw [startsWith, List.isPrefixOf_iff_prefix, baseParts] at inside
  obtain ⟨rest, whole⟩ := inside
  obtain ⟨tail, text⟩ := isAbsolute_iff.mp (absolute_of_root whole.symm)
  have spelled : p.parts = .root :: body (pieces tail) := by rw [parts, text, partsOf_slash]
  have split : body (pieces tail) = body (pieces baseTail) ++ rest := by
    rw [spelled, List.cons_append] at whole
    exact (List.cons.inj whole).2.symm
  have single : ∀ piece ∈ dropSilentEnd (dropNames (body (pieces baseTail)).length (pieces tail)),
      '/' ∉ piece := fun piece member =>
    single_of_mem_pieces (dropNames_subset (dropSilentEnd_subset member))
  have left : dropParts base.parts.length p.text.toList = ofPieces
      (dropSilentEnd (dropNames (body (pieces baseTail)).length (pieces tail))) := by
    rw [baseParts, List.length_cons, text, dropParts_absolute]
  refine ⟨⟨String.ofList (dropParts base.parts.length p.text.toList)⟩, ?_, ?_, ?_⟩
  · rw [relativeTo?, startsWith, List.isPrefixOf_iff_prefix.mpr, if_pos rfl]
    exact ⟨rest, baseParts ▸ whole⟩
  · rw [left]
    refine ofPieces_relative single ?_
    obtain none | ⟨piece, more, begins, loud⟩ :=
      @dropNames_begins (pieces tail) (body (pieces baseTail)).length
    · exact .inl (by rw [none]; rfl)
    · exact .inr ⟨piece, dropSilentEnd more, by rw [begins, dropSilentEnd_cons_loud loud], loud⟩
  · rw [String.toList_ofList, left, body_pieces_ofPieces single, body_dropSilentEnd,
      body_dropNames, spelled, split, List.drop_left, baseParts, List.cons_append]

/-! ### Paths that are spelled plainly -/

/-- The text of names with one slash between them. -/
def plain (names : List String) : Path :=
  ⟨String.ofList (ofPieces (names.map String.toList))⟩

theorem names_single (ordinary : ∀ s ∈ names, Ordinary s) :
    ∀ piece ∈ names.map String.toList, '/' ∉ piece := by
  intro piece member
  obtain ⟨s, inside, rfl⟩ := List.mem_map.mp member
  exact (ordinary s inside).single

theorem text_plain (names : List String) :
    (plain names).text.toList = ofPieces (names.map String.toList) :=
  String.toList_ofList

theorem plain_relative (ordinary : ∀ s ∈ names, Ordinary s) : (plain names).isAbsolute = false := by
  refine ofPieces_relative (names_single ordinary) ?_
  cases names with
  | nil => exact .inl rfl
  | cons s rest =>
    exact .inr ⟨s.toList, rest.map String.toList, rfl, (ordinary s (List.mem_cons_self ..)).loud⟩

theorem text_join_sep (nonempty : p.text.toList ≠ []) (relative : q.isAbsolute = false) :
    (p.join q).text.toList =
      p.text.toList ++ ((if p.endsInSlash then [] else ['/']) ++ q.text.toList) := by
  have empty := isEmpty_eq_false_iff.mpr nonempty
  by_cases slash : p.endsInSlash = true <;> simp [join, relative, slash, empty]

theorem endsInSlash_join {s : String} (nonempty : p.text.toList ≠ []) (ordinary : Ordinary s) :
    (p.join ⟨s⟩).endsInSlash = false := by
  have some : s.toList ≠ [] := fun h => ordinary.nonempty (String.toList_inj.mp h)
  rw [endsInSlash, text_join_sep nonempty ordinary.relative, ← List.append_assoc,
    List.getLast?_append_of_ne_nil _ some, decide_eq_false_iff_not]
  intro last
  exact ordinary.single (List.mem_of_getLast? last)

theorem ofPieces_cons (piece : List Char) (rest : List (List Char)) :
    ofPieces (piece :: rest) = piece ++ rest.flatMap ('/' :: ·) := by
  induction rest generalizing piece with
  | nil => simp [ofPieces]
  | cons next rest ih => rw [ofPieces_cons_cons, ih, List.flatMap_cons, List.cons_append]

theorem text_descend (nonempty : p.text.toList ≠ []) (noSlash : p.endsInSlash = false)
    (ordinary : ∀ s ∈ names, Ordinary s) : (p.descend names).text.toList =
      p.text.toList ++ (names.map String.toList).flatMap ('/' :: ·) := by
  induction names generalizing p with
  | nil => simp [descend]
  | cons s names ih =>
    obtain ⟨first, rest⟩ := List.forall_mem_cons.mp ordinary
    have next := text_join_sep nonempty first.relative
    rw [noSlash] at next
    have whole := ih (by simp [next]) (endsInSlash_join nonempty first) rest
    rw [descend, List.foldl_cons, ← descend, whole, next]
    simp

/-- Going down by names one after the other leads to the same text as joining them at once. -/
theorem descend_eq_join (nonempty : p.text.toList ≠ []) (some : names ≠ [])
    (ordinary : ∀ s ∈ names, Ordinary s) : p.descend names = p.join (plain names) := by
  obtain ⟨s, rest, rfl⟩ := List.exists_cons_of_ne_nil some
  obtain ⟨first, others⟩ := List.forall_mem_cons.mp ordinary
  have relative := plain_relative ordinary
  have next := text_join_sep nonempty first.relative
  have whole := text_descend (p := p.join ⟨s⟩) (by simp [next, first.nonempty])
    (endsInSlash_join nonempty first) others
  have joined := text_join_sep nonempty relative
  have same : (p.descend (s :: rest)).text.toList = (p.join (plain (s :: rest))).text.toList := by
    rw [descend, List.foldl_cons, ← descend, whole, next, joined]
    simp [plain, ofPieces_cons]
  exact congrArg Path.mk (String.toList_inj.mp same)

theorem dropNames_append {piece : List Char} (loud : silent piece = false) :
    dropNames (body ps).length (ps ++ piece :: qs) = piece :: qs := by
  induction ps with
  | nil => simp [body, dropNames, loud]
  | cons first ps ih =>
    cases quiet : silent first with
    | false => rwa [body_cons_loud quiet, List.length_cons, List.cons_append, dropNames, quiet]
    | true =>
      rw [body_cons_silent quiet, List.cons_append]
      cases count : (body ps).length <;> rw [count] at ih <;> rwa [dropNames, if_pos quiet]

theorem dropSilentEnd_loud (loud : ∀ piece ∈ ps, silent piece = false) : dropSilentEnd ps = ps := by
  induction ps with
  | nil => rfl
  | cons piece ps ih =>
    obtain ⟨first, rest⟩ := List.forall_mem_cons.mp loud
    rw [dropSilentEnd_cons_loud first, ih rest]

/-- Where a relative path is joined to an absolute one, its stretches come after those of the
other. -/
theorem pieces_join {baseTail : List Char} (baseText : base.text.toList = '/' :: baseTail)
    (relative : q.isAbsolute = false) :
    ∃ tail ps, (base.join q).text.toList = '/' :: tail ∧
      pieces tail = ps ++ pieces q.text.toList ∧ body ps = body (pieces baseTail) := by
  have nonempty : base.text.toList ≠ [] := by simp [baseText]
  obtain ⟨front, joined, text⟩ := text_join nonempty relative
  cases front with
  | nil =>
    obtain text | text := text
    · exact absurd text nonempty
    · obtain rfl : baseTail = [] := by simpa [baseText] using text
      exact ⟨_, [], joined, rfl, rfl⟩
  | cons c front =>
    have split : pieces (front ++ '/' :: q.text.toList) = pieces front ++ pieces q.text.toList :=
      pieces_append_slash ..
    obtain text | text := text
    · obtain ⟨rfl, rfl⟩ := List.cons.inj (baseText.symm.trans text)
      exact ⟨_, pieces baseTail, joined, split, rfl⟩
    · obtain ⟨rfl, rfl⟩ := List.cons.inj (baseText.symm.trans text)
      refine ⟨_, pieces front, joined, split, ?_⟩
      change body (pieces front) = body (pieces (front ++ '/' :: []))
      rw [pieces_append_slash, body_append]
      simp [pieces, body, silent]

/-- A path that is spelled plainly from another one is that path followed by its names. -/
theorem relativeTo?_join_plain (absolute : base.isAbsolute = true) (some : names ≠ [])
    (ordinary : ∀ s ∈ names, Ordinary s) :
    (base.join (plain names)).relativeTo? base = .some (plain names) := by
  obtain ⟨baseTail, baseText⟩ := isAbsolute_iff.mp absolute
  have nonempty := nonempty_of_absolute absolute
  have relative := plain_relative ordinary
  have baseParts : base.parts = .root :: body (pieces baseTail) := by
    rw [parts, baseText, partsOf_slash]
  have inside : (base.join (plain names)).startsWith base = true := by
    rw [startsWith, List.isPrefixOf_iff_prefix, parts_join nonempty relative]
    exact List.prefix_append ..
  have spelled : pieces (plain names).text.toList = names.map String.toList := by
    rw [text_plain, pieces_ofPieces (by simpa using some) (names_single ordinary)]
  obtain ⟨tail, ps, joined, split, same⟩ := pieces_join baseText relative
  obtain ⟨s, rest, rfl⟩ := List.exists_cons_of_ne_nil some
  have loud : ∀ piece ∈ (s :: rest).map String.toList, silent piece = false := by
    intro piece member
    obtain ⟨t, inside, rfl⟩ := List.mem_map.mp member
    exact (ordinary t inside).loud
  rw [relativeTo?, if_pos inside, joined, baseParts, List.length_cons, dropParts_absolute, split,
    spelled, ← same, List.map_cons, dropNames_append (loud _ (by simp)), ← List.map_cons,
    dropSilentEnd_loud loud, plain]

end BundleMerge.Path
