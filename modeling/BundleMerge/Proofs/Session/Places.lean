import BundleMerge.Proofs.Disk.Exact
import BundleMerge.Proofs.Session.Confined

/-! Where a change is looked for. What is reported where it is written is queued as the path in
the output tree that has the same parts beyond it, and the per-file pass copies it to the path in
the target that has the same parts once more. All of this is decided by the parts: how the trees
and the reported paths are spelled makes no difference. -/
namespace BundleMerge

namespace Collector

variable {c : Collector} {cwd file rel : Path} {n : Notification}

/-- The parts of what a path stands for. -/
def placed (c : Collector) (role : AssetRole) (parts : List Path.Part) : List Path.Part :=
  if role.reportedAtSource && c.input.parts.isPrefixOf parts then
    c.output.parts ++ parts.drop c.input.parts.length
  else parts

/-- What a notification stands for has the parts of the reported path, but for those of the input
tree, if it begins with them. -/
theorem resolve_parts (input : c.input.isAbsolute = true) (output : c.output.isAbsolute = true)
    (resolved : Path.absolute? cwd n.file = some file) :
    (c.resolve cwd n).parts = c.placed n.role file.parts := by
  unfold resolve placed
  rw [resolved]
  cases n.role.reportedAtSource with
  | false => rfl
  | true =>
    by_cases inside : file.startsWith c.input = true
    · obtain ⟨rel, found, relative, whole⟩ := Path.relativeTo?_some input inside
      have front : c.input.parts.isPrefixOf file.parts = true := inside
      simp only [Option.getD_some, found, if_true, front, Bool.and_self]
      rw [Path.parts_join (Path.nonempty_of_absolute output) relative, whole, List.drop_left]
    · have front : c.input.parts.isPrefixOf file.parts = false := eq_false_of_ne_true inside
      simp [Path.relativeTo?, inside, front]

/-- The tree in which the files of a role are reported. -/
def treeOf (c : Collector) (role : AssetRole) : Path :=
  if role.reportedAtSource then c.input else c.output

theorem placed_goesOn (c : Collector) (role : AssetRole) (rest : List Path.Part) :
    c.placed role ((c.treeOf role).parts ++ rest) = c.output.parts ++ rest := by
  unfold placed treeOf
  cases role.reportedAtSource with
  | false => rfl
  | true =>
    have front : c.input.parts.isPrefixOf (c.input.parts ++ rest) = true :=
      List.isPrefixOf_iff_prefix.mpr (List.prefix_append ..)
    simp [front]

end Collector

namespace Merger

variable {m : Merger} {before later : List Path} {src dest rel : Path}

/-- In the per-file pass over a queue, one path of it is copied to another path, between what is
done for the paths before and after it. If the copy succeeds, the files that it reaches are
there. -/
structure CopiesTo (m : Merger) (before : List Path) (src : Path) (later : List Path)
    (dest : Path) : Prop where
  pass : m.copyChanges .perFile (before ++ src :: later) = (do
    let early ← m.copyQueued false before
    let merged ← m.stageIf (!before.any (·.sameAs m.config.primaryManifest) &&
      src.sameAs m.config.primaryManifest)
    let n ← Disk.copy m.excluded src dest
    let late ← m.copyQueued ((before ++ [src]).any (·.sameAs m.config.primaryManifest)) later
    pure (early.1 + (n + late.1), early.2 || (merged || late.2)))
  files : ∀ (s s' : Site) (count : Nat), s.disk.WellFormed →
    Disk.Apart src.resolved dest.resolved →
    (Disk.copy m.excluded src dest).run s = (.ok count, s') →
    ∀ names bytes, Disk.Reached m.excluded src dest names →
      s.disk.fileAt (src.resolved ++ names) = some bytes →
      s'.disk.fileAt (dest.resolved ++ names) = some bytes

theorem copiesTo (accepted : m.options.Accepted)
    (inside : ∀ p ∈ before ++ src :: later, p.startsWith m.config.output = true)
    (relative : rel.isAbsolute = false)
    (here : src.sameAs (m.config.output.join rel) = true) :
    ∃ dest, dest.sameAs (m.config.target.join rel) = true ∧ m.CopiesTo before src later dest := by
  have output := output_absolute accepted
  have target := target_absolute accepted
  obtain ⟨earlier, first, -⟩ := by simpa only [List.forall_mem_append, List.forall_mem_cons] using inside
  obtain ⟨left, found, placed⟩ := destination_parts accepted first
  have beyond : m.beyond src = Path.body (Path.pieces rel.text.toList) := by
    rw [beyond, Path.sameAs_iff.mp here, Path.parts_join (Path.nonempty_of_absolute output) relative,
      List.drop_left]
  refine ⟨m.config.target.join left, ?_, ?_, ?_⟩
  · rw [Path.sameAs_iff, placed, beyond,
      Path.parts_join (Path.nonempty_of_absolute target) relative]
  · have found' : ∀ p ∈ before, ∃ rel, p.relativeTo? m.config.output = some rel := fun p member =>
      (destination_parts accepted (earlier p member)).imp fun _ => And.left
    rw [copyChanges, copyQueued_append found', copyQueued_cons found]
    cases met : before.any (·.sameAs m.config.primaryManifest) <;> simp [met]
  · intro s s' count tree apart ran names bytes reached file
    have from_ : src.seenFrom s.disk.cwd = src.resolved :=
      Path.seenFrom_absolute (absolute_of_inside accepted first)
    have to_ : (m.config.target.join left).seenFrom s.disk.cwd =
        (m.config.target.join left).resolved := Path.seenFrom_absolute (Path.absolute_join left target)
    rw [← to_]
    rw [← from_] at file
    refine Disk.file_of_all tree (.refl _) ?_ (Disk.copyEntries_of_copy ran) reached file
    rwa [from_, to_]

end Merger

namespace Session

variable {m : Merger} {s : Session} {calls : List Call} {cwd src file rel : Path}
  {n : Notification} {now : Nat}

theorem queue_notify (s : Session) (cwd : Path) (n : Notification) (now : Nat) :
    (s.notify cwd n now).queue = s.queue ++ s.recorded (.notify cwd n now) := by
  have kept := (step_moves s (.notify cwd n now)).conserves
  exact kept

theorem recorded_after (s : Session) (calls : List Call) :
    (after s calls).recorded = s.recorded := by
  induction calls using List.reverseRecOn with
  | nil => rfl
  | append_singleton calls call ih => rw [after_append, (step_moves _ call).recorded_eq, ih]

/-- What runs have taken and what is still queued begins with the output tree. -/
theorem queued_inside (m : Merger) (calls : List Call)
    (member : src ∈ (history (ofMerger m) calls).flatMap Event.taken ++
      (after (ofMerger m) calls).queue) : src.startsWith m.config.output = true := by
  rw [conserved] at member
  obtain ⟨call, -, recorded⟩ := List.mem_flatMap.mp member
  obtain ⟨cwd, n, now, rfl, -, inside⟩ := mem_recorded recorded
  exact inside

theorem recorded_of_inside (listening : m.config.isClose = false)
    (inside : ((ofMerger m).collector.resolve cwd n).startsWith m.config.output = true) :
    (ofMerger m).recorded (.notify cwd n now) = [(ofMerger m).collector.resolve cwd n] := by
  have kept : (!(ofMerger m).closed &&
      ((ofMerger m).collector.resolve cwd n).startsWith (ofMerger m).collector.output) = true := by
    rw [Bool.and_eq_true]
    exact ⟨congrArg Bool.not listening, inside⟩
  exact if_pos kept

theorem collector_absolute (accepted : m.options.Accepted) :
    (ofMerger m).collector.input.isAbsolute = true ∧
      (ofMerger m).collector.output.isAbsolute = true :=
  ⟨accepted.input_absolute, Merger.output_absolute accepted⟩

/-- A file in the tree where its role is reported is queued as the same file in the output tree. -/
theorem recorded_placed (now : Nat) (accepted : m.options.Accepted)
    (listening : m.config.isClose = false) (resolved : Path.absolute? cwd n.file = some file)
    (relative : rel.isAbsolute = false)
    (here : file.sameAs (((ofMerger m).collector.treeOf n.role).join rel) = true) :
    ∃ p, (ofMerger m).recorded (.notify cwd n now) = [p] ∧
      p.sameAs (m.config.output.join rel) = true := by
  obtain ⟨input, output⟩ := collector_absolute accepted
  have tree : ((ofMerger m).collector.treeOf n.role).isAbsolute = true := by
    unfold Collector.treeOf
    split
    · exact input
    · exact output
  have parts : ((ofMerger m).collector.resolve cwd n).parts =
      m.config.output.parts ++ Path.body (Path.pieces rel.text.toList) := by
    rw [Collector.resolve_parts input output resolved, Path.sameAs_iff.mp here,
      Path.parts_join (Path.nonempty_of_absolute tree) relative, Collector.placed_goesOn]
    rfl
  refine ⟨_, recorded_of_inside listening ?_, ?_⟩
  · rw [Path.startsWith, List.isPrefixOf_iff_prefix, parts]
    exact List.prefix_append ..
  · rw [Path.sameAs_iff, parts]
    exact (Path.parts_join (Path.nonempty_of_absolute output) relative).symm

/-- Whatever calls an open session gets, all that it queues lies in the output tree. A file that is
reported in the tree of its role is queued as the same file in the output tree, and where the pass
over the queue comes to it, it is copied to the same file in the target. -/
theorem queued_in_place (accepted : m.options.Accepted) (listening : m.config.isClose = false)
    (calls : List Call) :
    let s := after (ofMerger m) calls
    (∀ src ∈ (history (ofMerger m) calls).flatMap Event.taken ++ s.queue,
      src.startsWith m.config.output = true ∧ (src.relativeTo? m.config.output).isSome) ∧
    (∀ cwd n now file rel, Path.absolute? cwd n.file = some file → rel.isAbsolute = false →
      (n.role ≠ .script ∧ file.sameAs (m.config.input.join rel) = true ∨
        n.role = .script ∧ file.sameAs (m.config.output.join rel) = true) →
      ∃ p, (s.notify cwd n now).queue = s.queue ++ [p] ∧
        p.sameAs (m.config.output.join rel) = true) ∧
    (∀ before src later rel, s.queue = before ++ src :: later → rel.isAbsolute = false →
      src.sameAs (m.config.output.join rel) = true →
      ∃ dest, dest.sameAs (m.config.target.join rel) = true ∧
        m.CopiesTo before src later dest) := by
  intro s
  refine ⟨fun src member => ?_, ?_, ?_⟩
  · have inside := queued_inside m calls member
    obtain ⟨rel, found, -⟩ := Merger.destination_parts accepted inside
    exact ⟨inside, by rw [found]; rfl⟩
  · intro cwd n now file rel resolved relative reported
    have here : file.sameAs (((ofMerger m).collector.treeOf n.role).join rel) = true := by
      unfold Collector.treeOf
      obtain ⟨role, here⟩ | ⟨role, here⟩ := reported
      · have source : n.role.reportedAtSource = true := by
          cases given : n.role with
          | script => exact absurd given role
          | markup | manifest | style | misc => rfl
        rw [source]
        exact here
      · rw [role]
        exact here
    obtain ⟨p, queued, same⟩ := recorded_placed now accepted listening resolved relative here
    refine ⟨p, ?_, same⟩
    rw [queue_notify, recorded_after, queued]
  · intro before src later rel queue relative here
    refine Merger.copiesTo accepted (fun p member => ?_) relative here
    exact queued_inside m calls (List.mem_append_right _ (queue ▸ member))

/-- Two kinds of reports, and a queue with one path to be copied. -/
theorem queued_in_place_deep :
    let s := after (ofMerger deep) [.notify ⟨"/"⟩ ⟨⟨"src//a.wxml"⟩, .markup⟩ 0]
    s.queue = [⟨"/build/dist/a.wxml"⟩] ∧
      (∃ p, (s.notify ⟨"/src/pages"⟩ ⟨⟨"./b.json"⟩, .manifest⟩ 1).queue = s.queue ++ [p] ∧
        p.sameAs (deep.config.output.join ⟨"pages/b.json"⟩) = true) ∧
      (∃ p, (s.notify ⟨"/build"⟩ ⟨⟨"dist/c.js/"⟩, .script⟩ 1).queue = s.queue ++ [p] ∧
        p.sameAs (deep.config.output.join ⟨"c.js"⟩) = true) ∧
      ∃ dest, dest.sameAs (deep.config.target.join ⟨"a.wxml"⟩) = true ∧
        deep.CopiesTo [] ⟨"/build/dist/a.wxml"⟩ [] dest := by
  intro s
  obtain ⟨-, report, copy⟩ := queued_in_place deep_accepted rfl
    [.notify ⟨"/"⟩ ⟨⟨"src//a.wxml"⟩, .markup⟩ 0]
  have queue : s.queue = [⟨"/build/dist/a.wxml"⟩] := by decide +kernel
  refine ⟨queue, ?_, ?_, ?_⟩
  · exact report _ _ 1 ⟨"/src/pages/b.json"⟩ _ (by decide +kernel) (by decide +kernel)
      (.inl ⟨nofun, by decide +kernel⟩)
  · exact report _ _ 1 ⟨"/build/dist/c.js/"⟩ _ (by decide +kernel) (by decide +kernel)
      (.inr ⟨rfl, by decide +kernel⟩)
  · exact copy [] _ [] _ queue (by decide +kernel) (by decide +kernel)

end Session
end BundleMerge
