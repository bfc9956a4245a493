import Mathlib.Data.List.Nodup
import BundleMerge.Proofs.Options
import BundleMerge.Proofs.Script.Declared
import BundleMerge.Proofs.Script.Followed
import BundleMerge.Proofs.Script.Statements

/-! The bridge script of a valid configuration. It is read as a sketch, with a hole for each of the
identifiers that it is built from, so one reading of the sketch tells about the scripts of all
configurations, whatever follows them. -/
namespace BundleMerge.Bridge

open Script

/-- Words that have a meaning of their own in an expression or at the start of a statement. -/
def reservedWords : List String :=
  Syntax.expressionWords ++ Syntax.statementWords

/-- What the script declares under names of its own. -/
def ownNames : List String :=
  ["__bridgePreRegister", "__bridgeOptions", "__bridgeChain"]

/-- The script can be read; the names that it declares are distinct, and none of them is that of
the registration function. -/
def IsUsable (b : Bridge) : Prop :=
  ∃ t, parse b.script.toList = some t ∧
    t.declared = (ownNames ++ [b.entryPoint]).map String.toList ∧
    t.declared.Nodup ∧ b.registration.toList ∉ t.declared

/-! ### The sketch -/

def hole : Slot → Char
  | .registration => '\ue000'
  | .entryPoint => '\ue001'
  | .hostGlobal => '\ue002'
  | .preLaunchHook => '\ue003'

def Piece.sketch : Piece → List Char
  | .text s => s.toList
  | .slot s => [hole s]

def Piece.isPlain : Piece → Bool
  | .text s => s.toList.all fun c => Script.isPlain c && !isHole c
  | .slot _ => true

def sketch : List Char :=
  template.flatMap Piece.sketch

/-- What the configuration has for the holes. -/
def names (b : Bridge) (h : Char) : List Char :=
  match Slot.all.find? (hole · = h) with
  | some slot => (b.get slot).toList
  | none => [h]

/-- Which names are meant for the holes. -/
def choiceAt (choice : Slot → Choice) (h : Char) : Choice :=
  match Slot.all.find? (hole · = h) with
  | some slot => choice slot
  | none => .allBut []

/-! ### Reading the sketch -/

/-- The names that the sketch declares. -/
def sketchNames : List (List Char) :=
  ownNames.map String.toList ++ [[hole .entryPoint]]

/-- What comes of reading the statements of the sketch, if such names are meant for the holes,
whatever follows the sketch. -/
def opening (choice : Slot → Choice) : Option Prospects :=
  prospects grammar.rule (guessInLine (choiceAt choice)) 400 ((Rule.symbol .statement).times 5) []
    (.of sketch)

/-- Every way of reading goes as far as the last line end, and declares the names of the sketch. -/
def settled (p : Prospects) : Bool :=
  !p.miss && !p.stuck && p.reads.all fun (ts, s) =>
    s.here = ['\n'] && (Script.Tree.node .program ts.reverse).declared = sketchNames

/-- What comes of reading the sketch as a script, if such names are meant for the holes. -/
def outlook (choice : Slot → Choice) : Option Prospects :=
  prospects grammar.rule (guess (choiceAt choice)) 400 (.symbol .program) [] (.of sketch)

/-- No reserved words where the script needs an expression. -/
def meant : Slot → Choice
  | .registration | .hostGlobal => .allBut reservedWords
  | .entryPoint | .preLaunchHook => .allBut []

def meantClass : Slot → Choice
  | .registration => .only ["class"]
  | _ => .allBut []

/-- Prospects that have been computed, with what has been found out about them. -/
structure Computed (outcome : Option Prospects) (check : Prospects → Bool) where
  prospects : Prospects
  found : outcome = some prospects
  checked : check prospects = true

def Computed.of {outcome : Option Prospects} {check : Prospects → Bool}
    (passed : outcome.any check = true) : Computed outcome check :=
  match outcome, passed with
  | some p, passed => ⟨p, rfl, passed⟩

/-- The statements of the sketch are read if no reserved words are meant. -/
def computedUsual : Computed (opening meant) settled := .of <| by
  simp only [opening, sketch, template, registry, chaining, entry, adoption, combination, launch,
    launchMarker, Piece.sketch, List.cons_append, List.nil_append, List.flatMap_cons,
    List.flatMap_nil, List.append_nil]
  -- The texts as lists of characters, which are much faster to compute with.
  repeat rewrite [String.toList_ofList]
  decide +kernel

def computedClass : Computed (outlook meantClass) (·.reads.isEmpty) := .of <| by
  simp only [outlook, sketch, template, registry, chaining, entry, adoption, combination, launch,
    launchMarker, Piece.sketch, List.cons_append, List.nil_append, List.flatMap_cons,
    List.flatMap_nil, List.append_nil]
  repeat rewrite [String.toList_ofList]
  decide +kernel

theorem template_plain : ∀ piece ∈ template, piece.isPlain = true := by
  rw [← List.all_eq_true]
  simp only [template, registry, chaining, entry, adoption, combination, launch, launchMarker,
    Piece.isPlain, List.cons_append, List.nil_append, List.all_cons, List.all_nil, Bool.and_true]
  repeat rewrite [String.toList_ofList]
  decide

/-! ### Filling the holes -/

section
variable {b : Bridge} {choice : Slot → Choice}

theorem names_hole (b : Bridge) (slot : Slot) : b.names (hole slot) = (b.get slot).toList := by
  cases slot <;> rfl

theorem start_of_identifierStart {c : Char} (start : Config.isIdentifierStart c = true) :
    isNameStart c = true := by
  have ascii : (65 ≤ c.toNat ∧ c.toNat ≤ 90 ∨ 97 ≤ c.toNat ∧ c.toNat ≤ 122) ∨
      c.toNat = 95 ∨ c.toNat = 36 := by
    simp only [Config.isIdentifierStart, Bool.or_eq_true, decide_eq_true_eq] at start
    rcases start with (letter | rfl) | rfl
    · obtain upper | lower := Bool.or_eq_true_iff.mp letter
      · exact .inl (.inl (of_decide_eq_true upper))
      · obtain ⟨first, last⟩ := Bool.and_eq_true_iff.mp lower
        exact .inl (.inr ⟨of_decide_eq_true first, of_decide_eq_true last⟩)
    · exact .inr (.inl rfl)
    · exact .inr (.inr rfl)
  have digit : c.isDigit = false := by
    rw [← Bool.not_eq_true, Char.isDigit_iff_toNat]
    simp only [Char.reduceToNat]
    omega
  simp only [isNameStart, isNamePart, isBlank, isPunctuation, digit]
  generalize c.toNat = n at ascii
  simp
  omega

theorem part_of_digit {c : Char} (digit : c.isDigit = true) : isNamePart c = true := by
  simp only [Char.isDigit_iff_toNat, Char.reduceToNat] at digit
  simp only [isNamePart, isBlank, isPunctuation]
  generalize c.toNat = n at digit
  simp
  omega

theorem name_of_identifier {s : String} (identifier : Config.isIdentifier s = true) :
    (∃ c cs, s.toList = c :: cs ∧ isNameStart c = true) ∧ ∀ c ∈ s.toList, isNamePart c = true := by
  unfold Config.isIdentifier at identifier
  split at identifier
  · cases identifier
  · rename_i c cs spelled
    rw [Bool.and_eq_true, List.all_eq_true] at identifier
    obtain ⟨start, others⟩ := identifier
    rw [spelled]
    refine ⟨⟨c, cs, rfl, start_of_identifierStart start⟩, List.forall_mem_cons.mpr
      ⟨part_of_start (start_of_identifierStart start), fun d inside => ?_⟩⟩
    obtain start | digit := Bool.or_eq_true_iff.mp (others d inside)
    · exact part_of_start (start_of_identifierStart start)
    · exact part_of_digit digit

/-- Identifiers are names. -/
theorem names_right (identifiers : ∀ slot, Config.isIdentifier (b.get slot) = true)
    (allowed : ∀ slot, (choice slot).allows (b.get slot) = true) :
    Names b.names (choiceAt choice) where
  start h inside := by
    unfold names
    cases Slot.all.find? (hole · = h) with
    | some slot => exact (name_of_identifier (identifiers slot)).1
    | none => exact ⟨h, [], rfl, start_of_hole inside⟩
  part h inside := by
    unfold names
    cases Slot.all.find? (hole · = h) with
    | some slot => exact (name_of_identifier (identifiers slot)).2
    | none => exact List.forall_mem_singleton.mpr (part_of_hole inside)
  allowed h _ := by
    unfold names choiceAt
    cases Slot.all.find? (hole · = h) with
    | some slot =>
      dsimp only
      rw [String.ofList_toList]
      exact allowed slot
    | none => rfl

theorem sketch_plain : Plain sketch := by
  intro c member
  obtain ⟨piece, listed, inside⟩ := List.mem_flatMap.mp member
  have plain := template_plain piece listed
  cases piece with
  | text s =>
    have both := List.all_eq_true.mp plain c inside
    rw [Bool.and_eq_true] at both
    exact both.1
  | slot slot =>
    cases List.mem_singleton.mp inside
    cases slot <;> decide

/-- The script is the sketch with the identifiers in its holes. -/
theorem script_eq (b : Bridge) : b.script.toList = fill b.names sketch := by
  rw [script, String.toList_join, List.flatMap_map, sketch, fill, List.flatMap_assoc]
  refine List.flatMap_congr fun piece listed => ?_
  have plain := template_plain piece listed
  cases piece with
  | text s =>
    have clear : s.toList.any isHole = false := by
      rw [List.any_eq_false]
      intro c inside
      have both := List.all_eq_true.mp plain c inside
      rw [Bool.and_eq_true, Bool.not_eq_true'] at both
      exact Bool.eq_false_iff.mp both.2
    exact (fill_clear clear).symm
  | slot slot =>
    have inside : isHole (hole slot) = true := by cases slot <;> rfl
    exact ((fill_hole inside).trans (by rw [names_hole, fill_nil, List.append_nil]; rfl)).symm

/-- The script has no interpreter line. -/
theorem script_line (b : Bridge) (more : List Char) :
    ¬ "#!".toList <+: b.script.toList ++ more := by
  have first : sketch.head? = some 'c' := rfl
  obtain ⟨rest, whole⟩ := List.head?_eq_some_iff.mp first
  rw [script_eq, whole, fill_cons rfl]
  rintro ⟨tail, same⟩
  cases same

/-- The names of the sketch, once the holes are filled. -/
theorem fill_sketchNames (b : Bridge) :
    sketchNames.map (fill b.names) = (ownNames ++ [b.entryPoint]).map String.toList := by
  have clear : ∀ name ∈ ownNames, name.toList.any isHole = false := by decide
  have own : ownNames.map (fill b.names ∘ String.toList) = ownNames.map String.toList :=
    List.map_congr_left fun name listed => fill_clear (clear name listed)
  have entry : fill b.names [hole .entryPoint] = b.entryPoint.toList := by
    rw [fill_hole rfl, names_hole, fill_nil, List.append_nil]
    rfl
  rw [sketchNames, List.map_append, List.map_map, List.map_append, own, List.map_singleton,
    List.map_singleton, entry]

end

/-! ### Reading the script -/

section
variable {b : Bridge} (identifiers : ∀ slot, Config.isIdentifier (b.get slot) = true)

include identifiers

/-- The statements of the script are read, whatever follows it, if the names that are needed in
expressions are no reserved words. -/
theorem comes_script (registration : b.registration ∉ reservedWords)
    (host : b.hostGlobal ∉ reservedWords) (more : List Char) :
    ∃ ts, grammar.Comes ((Rule.symbol .statement).times 5) [] (.of (b.script.toList ++ more))
        (.read ts (.of ('\n' :: more))) ∧
      (Script.Tree.node .program ts.reverse).declared =
        (ownNames ++ [b.entryPoint]).map String.toList := by
  have allowed : ∀ slot, (meant slot).allows (b.get slot) = true := by
    intro slot
    cases slot with
    | registration => simpa [meant, Choice.allows, get] using registration
    | hostGlobal => simpa [meant, Choice.allows, get] using host
    | entryPoint | preLaunchHook => rfl
  have blind : ((Rule.symbol .statement : Syntax).times 5).Blind := by simp [Rule.times]
  obtain ⟨p, found, settles⟩ := computedUsual
  have included := include_run (guess_right_followed (names_right identifiers allowed) more) blind
    sketch_plain found (Nat.le_refl _)
  rw [settled, Bool.and_eq_true, Bool.and_eq_true, Bool.not_eq_true', Bool.not_eq_true',
    List.all_eq_true] at settles
  obtain ⟨⟨sure, free⟩, settles⟩ := settles
  rw [List.map_nil, ← script_eq] at included
  generalize run : grammar.run 400 _ _ _ = o at included
  cases included with
  | @read ts cs member =>
    obtain ⟨rest, declares⟩ := Bool.and_eq_true_iff.mp (settles _ member)
    have rest : cs = ['\n'] := (Spot.here_of cs).symm.trans (of_decide_eq_true rest)
    subst rest
    refine ⟨_, ⟨nofun, 400, run⟩, ?_⟩
    rw [← Tree.mapNames_node_reverse, Tree.declared_mapNames, of_decide_eq_true declares,
      fill_sketchNames]
  | miss missed => cases missed.symm.trans sure
  | stuck failed => cases failed.symm.trans free

/-- The script can be read if the names that are needed in expressions are no reserved words. -/
theorem parse_script (registration : b.registration ∉ reservedWords)
    (host : b.hostGlobal ∉ reservedWords) : ∃ t, parse b.script.toList = some t ∧
      t.declared = (ownNames ++ [b.entryPoint]).map String.toList := by
  obtain ⟨ts, opening, declares⟩ := comes_script identifiers registration host []
  have nothing : grammar.Comes Syntax.statements [] (.of []) (.read [.leaf .gap [] []] (.of [])) :=
    ⟨nofun, 100, rfl⟩
  have blank : isBlank '\n' = true := rfl
  obtain ⟨us, s, read, shapes⟩ := comes_statements blank ts nothing
  have line := script_line b []
  rw [List.append_nil] at opening line
  refine ⟨_, (parse_eq_statements line).mpr
    ⟨_, s, (comes_statements_of_times opening).mpr read, rfl⟩, ?_⟩
  obtain ⟨u, rfl, shape⟩ := List.map_eq_singleton_iff.mp shapes
  have other : u.hasKind .statement = false := by
    rw [← Tree.hasKind_shape, shape]
    rfl
  rw [List.reverse_append, List.reverse_singleton, Tree.declared_concat _ other, declares]

/-- A registration function called `class` makes a script that cannot be read. -/
theorem parse_class (registration : b.registration = "class") : parse b.script.toList = none := by
  have allowed : ∀ slot, (meantClass slot).allows (b.get slot) = true := by
    intro slot
    cases slot with
    | registration => simp [meantClass, Choice.allows, get, registration]
    | entryPoint | hostGlobal | preLaunchHook => rfl
  obtain ⟨p, found, unread⟩ := computedClass
  have deep : 400 ≤ readingDepth b.script.toList.length := by
    rw [readingDepth]
    omega
  have included := include_run (guess_right (names_right identifiers allowed))
    (Rule.blind_symbol _) sketch_plain found deep
  rw [List.map_nil, ← script_eq] at included
  unfold parse
  generalize grammar.run _ _ _ _ = o at included
  cases included with
  | read member =>
    rw [List.isEmpty_iff.mp unread] at member
    cases member
  | miss | stuck => rfl

end

/-! ### Valid configurations -/

theorem toList_injective : Function.Injective String.toList :=
  fun _ _ => String.toList_injective

theorem nodup_names {entry : String} :
    ((ownNames ++ [entry]).map String.toList).Nodup ↔ entry ∉ ownNames := by
  have own : ownNames.Nodup := by decide
  rw [List.nodup_map_iff toList_injective, List.nodup_append_comm, List.singleton_append,
    List.nodup_cons]
  exact and_iff_left own

theorem mem_names {entry name : String} (other : name ≠ entry) :
    name.toList ∈ (ownNames ++ [entry]).map String.toList ↔ name ∈ ownNames := by
  rw [List.mem_map_of_injective toList_injective, List.mem_append, List.mem_singleton]
  exact or_iff_left other

/-- The script of a valid configuration can be read unless the registration function or the host
object is called by a reserved word. It can be used if it spares its own names besides. -/
theorem isUsable_iff (c : Config) (valid : c.validate = .ok ())
    (registration : c.bridge.registration ∉ reservedWords)
    (host : c.bridge.hostGlobal ∉ reservedWords) :
    (∃ t, parse c.bridge.script.toList = some t ∧
      t.declared = (ownNames ++ [c.bridge.entryPoint]).map String.toList) ∧
    (c.bridge.IsUsable ↔ c.bridge.registration ∉ ownNames ∧ c.bridge.entryPoint ∉ ownNames) := by
  have valid := Config.validate_ok_iff.mp valid
  obtain ⟨t, read, declares⟩ := parse_script valid.identifiers registration host
  refine ⟨⟨t, read, declares⟩, ?_⟩
  constructor
  · rintro ⟨u, -, declares, distinct, apart⟩
    rw [declares] at distinct apart
    exact ⟨mt (mem_names valid.entry).mpr apart, nodup_names.mp distinct⟩
  · rintro ⟨apart, distinct⟩
    refine ⟨t, read, declares, ?_, ?_⟩
    · rw [declares]
      exact nodup_names.mpr distinct
    · rw [declares]
      exact mt (mem_names valid.entry).mp apart

theorem isUsable_iff_default : ({ target := ⟨"out"⟩ } : Config).bridge.IsUsable :=
  (isUsable_iff { target := ⟨"out"⟩ } (by decide) (by decide)
    (by decide)).2.mpr (by decide)

def classRegistration : Config :=
  { target := ⟨"out"⟩, bridge := { registration := "class" } }

def chainEntry : Config :=
  { target := ⟨"out"⟩, bridge := { entryPoint := "__bridgeChain" } }

/-- A configuration is valid whose registration function is called by a reserved word, and so is
one whose entry point is called as a function of the script. -/
theorem valid_unusable :
    (classRegistration.validate = .ok () ∧
      parse classRegistration.bridge.script.toList = none ∧
      ¬ classRegistration.bridge.IsUsable) ∧
    (chainEntry.validate = .ok () ∧ ¬ chainEntry.bridge.IsUsable) := by
  constructor
  · have valid : classRegistration.validate = .ok () := by decide
    have unread := parse_class (Config.validate_ok_iff.mp valid).identifiers rfl
    refine ⟨valid, unread, ?_⟩
    rintro ⟨t, read, -⟩
    cases read.symm.trans unread
  · refine ⟨by decide, ?_⟩
    rintro ⟨t, -, declares, distinct, -⟩
    rw [declares] at distinct
    exact nodup_names.mp distinct (by decide)

end BundleMerge.Bridge
