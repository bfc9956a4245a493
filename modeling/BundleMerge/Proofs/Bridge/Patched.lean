import BundleMerge.Proofs.Bridge.Readable
import BundleMerge.Proofs.Script.Complete

/-! The bridge file as a script. The statements of the bridge script end before the script that
follows them begins, so the whole is accepted if that script is, except that an interpreter line
may stand at the start of a whole script only. -/
namespace BundleMerge.Script

/-! ### The marks that a renamed script starts with -/

/-- The same text, or other texts from a name on. -/
inductive SameFront : List Char → List Char → Prop where
  | same (a : List Char) : SameFront a a
  | names (front : List Char) {c d : Char} (rest rest' : List Char) : isNameStart c = true →
      isNameStart d = true → SameFront (front ++ c :: rest) (front ++ d :: rest')

namespace SameFront

variable {a b a' b' m : List Char}

theorem append (early : SameFront a b) (late : SameFront a' b') :
    SameFront (a ++ a') (b ++ b') := by
  cases early with
  | same a =>
    cases late with
    | same a' => exact .same _
    | names front rest rest' start start' =>
      rw [← List.append_assoc, ← List.append_assoc]
      exact .names _ rest rest' start start'
  | names front rest rest' start start' =>
    rw [List.append_assoc, List.append_assoc]
    exact .names front (rest ++ a') (rest' ++ b') start start'

theorem not_front {c : Char} {rest : List Char} (start : isNameStart c = true)
    (marks : m.all isPunctuation = true) (nonempty : m ≠ []) : ¬ m <+: c :: rest := by
  cases m with
  | nil => contradiction
  | cons p m =>
    rw [List.all_cons, Bool.and_eq_true] at marks
    rintro ⟨tail, same⟩
    cases same
    exact ne_of_part marks.1 (part_of_start start) rfl

/-- What is made of marks is at the start of both texts or of none. -/
theorem marks (texts : SameFront a b) (marks : m.all isPunctuation = true) :
    m <+: a ↔ m <+: b := by
  cases texts with
  | same a => rfl
  | @names front c d rest rest' start start' =>
    induction front generalizing m with
    | nil =>
      cases m with
      | nil => simp
      | cons p m =>
        exact iff_of_false (not_front start marks nofun) (not_front start' marks nofun)
    | cons f front ih =>
      cases m with
      | nil => simp
      | cons p m =>
        rw [List.all_cons, Bool.and_eq_true] at marks
        rw [List.cons_append, List.cons_append, List.cons_prefix_cons, List.cons_prefix_cons,
          ih marks.2]

end SameFront

/-- A name is replaced by a name. -/
def Renaming.IsProper (r : Renaming) : Prop :=
  r.callee.toList.head?.any isNameStart = true ∧ r.replacement.toList.head?.any isNameStart = true

section
variable {rules : List Renaming} {name : List Char}

theorem sameFront_replaced (proper : ∀ r ∈ rules, r.IsProper) (name : List Char) :
    SameFront name ((replacement? rules name).getD name) := by
  cases replaced : replacement? rules name with
  | none => exact .same name
  | some put =>
    obtain ⟨before, rule, after, rfl, -, called, puts⟩ := replacement?_eq_some.mp replaced
    obtain ⟨start, start'⟩ := proper rule (by simp)
    rw [called] at start
    rw [puts] at start'
    obtain ⟨c, first, start⟩ := (Option.any_eq_true ..).mp start
    obtain ⟨d, first', start'⟩ := (Option.any_eq_true ..).mp start'
    obtain ⟨rest, rfl⟩ := List.head?_eq_some_iff.mp first
    obtain ⟨rest', rfl⟩ := List.head?_eq_some_iff.mp first'
    exact .names [] rest rest' start start'

theorem sameFront_all {ts : List Tree}
    (each : ∀ t ∈ ts, SameFront t.text (t.renamed rules).text) :
    SameFront (Tree.textAll ts) (Tree.textAll (Tree.renamedAll rules ts)) := by
  induction ts with
  | nil => exact .same []
  | cons t ts ih =>
    obtain ⟨first, others⟩ := List.forall_mem_cons.mp each
    exact first.append (ih others)

/-- A renamed script is the same up to the first name that is replaced. -/
theorem sameFront_renamed (proper : ∀ r ∈ rules, r.IsProper) (t : Tree) :
    SameFront t.text (t.renamed rules).text := by
  induction t using Tree.call_induction with
  | leaf k lead lexeme => exact .same _
  | call lead name ts each =>
    have callee := (SameFront.same lead).append (sameFront_replaced proper name)
    exact callee.append (sameFront_all each)
  | other k ts other each =>
    rw [Tree.renamed_other other]
    exact sameFront_all each

end

end BundleMerge.Script

namespace BundleMerge.Bridge

open Script

section
variable {b : Bridge} (identifiers : ∀ slot, Config.isIdentifier (b.get slot) = true)
  (registration : b.registration ∉ reservedWords) (host : b.hostGlobal ∉ reservedWords)

include identifiers registration host

/-- After the bridge script, a script is accepted if it is accepted alone and has no interpreter
line. -/
theorem isSome_parse_script_append (more : List Char) :
    (parse (b.script.toList ++ more)).isSome ↔ (parse more).isSome ∧ ¬ "#!".toList <+: more := by
  obtain ⟨ts, opening, -⟩ := comes_script identifiers registration host more
  exact isSome_parse_after opening rfl (script_line b more)

/-- The bridge file of a script is accepted if the renamed script is and has no interpreter line. -/
theorem isSome_parse_patched (script : String) {t : Script.Tree}
    (read : parse script.toList = some t) :
    (parse (b.script.toList ++ (t.renamed (Patcher.ofBridge b).rules).text)).isSome ↔
      (parse (t.renamed (Patcher.ofBridge b).rules).text).isSome ∧
        ¬ "#!".toList <+: script.toList := by
  have proper : ∀ r ∈ (Patcher.ofBridge b).rules, r.IsProper := by
    have start : ∀ slot, (b.get slot).toList.head?.any isNameStart = true := by
      intro slot
      obtain ⟨⟨c, cs, spelled, start⟩, -⟩ := name_of_identifier (identifiers slot)
      rw [spelled]
      exact start
    exact List.forall_mem_singleton.mpr ⟨start .registration, start .entryPoint⟩
  rw [isSome_parse_script_append identifiers registration host, ← parse_text read,
    (sameFront_renamed proper t).marks (show "#!".toList.all isPunctuation = true by decide)]

end

end BundleMerge.Bridge

namespace BundleMerge.Patcher

open Script

/-- The bridge file of a valid configuration is accepted exactly if the renamed script is and has no
interpreter line, unless the registration function or the host object is called by a reserved word.
If the name of the entry point lets the renamed script be read as the renamed tree, interpreter
lines alone decide. -/
theorem patch_accepted_iff (c : Config) (valid : c.validate = .ok ())
    (registration : c.bridge.registration ∉ Bridge.reservedWords)
    (host : c.bridge.hostGlobal ∉ Bridge.reservedWords) {script text : String}
    (patched : (ofBridge c.bridge).patch script = some text) :
    ∃ t, parse script.toList = some t ∧
      text.toList =
        c.bridge.script.toList ++ (t.renamed (ofBridge c.bridge).rules).text ∧
      ((parse text.toList).isSome ↔ (parse (t.renamed (ofBridge c.bridge).rules).text).isSome ∧
        ¬ "#!".toList <+: script.toList) ∧
      (KeepsTree (ofBridge c.bridge).rules script.toList →
        ((parse text.toList).isSome ↔ ¬ "#!".toList <+: script.toList)) := by
  have identifiers := (Config.validate_ok_iff.mp valid).identifiers
  have accepted : (parse script.toList).isSome = true := by
    have accepted : ((ofBridge c.bridge).patch script).isSome = true := by rw [patched]; rfl
    rwa [patch, Option.isSome_map, rename, Option.isSome_map] at accepted
  obtain ⟨t, read⟩ := Option.isSome_iff_exists.mp accepted
  obtain rfl := Option.some.inj ((patch_eq (ofBridge c.bridge) read).symm.trans patched)
  have whole := Bridge.isSome_parse_patched identifiers registration host script read
  rw [String.toList_append, String.toList_ofList]
  refine ⟨t, read, rfl, whole, fun keeps => ?_⟩
  rw [show (ofBridge c.bridge).bridgeScript = c.bridge.script from rfl, whole, keeps t read]
  exact and_iff_right rfl

theorem patch_accepted_iff_default : ∃ text,
    (ofBridge { }).patch "App(\x7b\x7d);\n" = some text ∧ (parse text.toList).isSome := by
  have readable : (parse "App(\x7b\x7d);\n".toList).isSome = true := by decide +kernel
  have keeps : KeepsTree (ofBridge { }).rules "App(\x7b\x7d);\n".toList := by decide +kernel
  obtain ⟨t, read⟩ := Option.isSome_iff_exists.mp readable
  have patched := patch_eq (ofBridge { }) read
  obtain ⟨-, -, -, -, accepted⟩ := patch_accepted_iff { target := ⟨"out"⟩ } (by decide) (by decide)
    (by decide) patched
  exact ⟨_, patched, (accepted keeps).mpr (by decide)⟩

/-- With an interpreter line, the bridge file of a script cannot be read. -/
theorem patch_line_unreadable :
    let c : Config := { target := ⟨"out"⟩ }
    c.validate = .ok () ∧ (∀ slot, c.bridge.get slot ∉ Bridge.reservedWords) ∧
      ∃ text, (ofBridge c.bridge).patch "#!/usr/bin/env node\nApp(\x7b\x7d);\n" = some text ∧
        parse text.toList = none := by
  intro c
  have valid : c.validate = .ok () := by decide
  have spared : ∀ slot, c.bridge.get slot ∉ Bridge.reservedWords := by
    intro slot
    cases slot <;> decide
  have readable : (parse "#!/usr/bin/env node\nApp(\x7b\x7d);\n".toList).isSome = true := by
    decide +kernel
  obtain ⟨t, read⟩ := Option.isSome_iff_exists.mp readable
  refine ⟨valid, spared, _, patch_eq (ofBridge c.bridge) read, ?_⟩
  have accepted := Bridge.isSome_parse_patched (Config.validate_ok_iff.mp valid).identifiers
    (spared .registration) (spared .hostGlobal) _ read
  rw [String.toList_append, String.toList_ofList, ← Option.not_isSome_iff_eq_none]
  exact fun whole => (accepted.mp whole).2 (by decide)

end BundleMerge.Patcher
