import BundleMerge.Proofs.Script.Reading

/-! How deep reading goes. A rule that takes something whenever it is read leaves less of the text,
and before something is taken a symbol leads to finitely many others only. So the depth that a
reading needs is bounded by the length of the text: reading a script never uses up its fuel, and
what it comes to does not hang on how much there is. -/
namespace BundleMerge.Script

section
variable {Symbol Class : Type}

/-! ### Taking something -/

/-- What is known of the classes and symbols of a grammar: which of them take something from the
text whenever they are read, and how deep a symbol leads before something is taken. -/
structure Profile (Symbol Class : Type) where
  scans : Class → Bool
  takes : Symbol → Bool
  depth : Symbol → Nat

namespace Rule

variable (p : Profile Symbol Class)

/-- Whether the rule takes something from the text whenever it is read. -/
def takes : Rule Symbol Class → Bool
  | .lexeme c => p.scans c
  | .symbol x => p.takes x
  | .nothing | .many _ | .ahead _ | .never _ => false
  | .seq first second => first.takes || second.takes
  | .alt first second => first.takes && second.takes
  | .node _ r | .extend _ _ r | .check _ r | .must r => r.takes

/-- How deep the rule leads before something is taken. -/
def depth : Rule Symbol Class → Nat
  | .lexeme _ | .nothing => 1
  | .symbol x => p.depth x + 1
  | .seq first second => max first.depth (if first.takes p then 0 else second.depth) + 1
  | .alt first second => max first.depth second.depth + 1
  | .many r | .ahead r | .never r | .node _ r | .extend _ _ r | .check _ r | .must r => r.depth + 1

/-- No part of the rule leads deeper than a limit, and what is repeated takes something. -/
def Fits (limit : Nat) : Rule Symbol Class → Prop
  | .lexeme _ | .nothing | .symbol _ => True
  | .seq first second => first.Fits limit ∧ second.Fits limit ∧ second.depth p ≤ limit
  | .alt first second => first.Fits limit ∧ second.Fits limit
  | .many r => r.Fits limit ∧ r.takes p = true ∧ r.depth p < limit
  | .ahead r | .never r | .node _ r | .extend _ _ r | .check _ r | .must r => r.Fits limit

instance Fits.decidable (limit : Nat) : (r : Rule Symbol Class) → Decidable (r.Fits p limit)
  | .lexeme _ | .nothing | .symbol _ => isTrue trivial
  | .seq first second =>
    have := decidable limit first
    have := decidable limit second
    inferInstanceAs (Decidable (_ ∧ _ ∧ _))
  | .alt first second =>
    have := decidable limit first
    have := decidable limit second
    inferInstanceAs (Decidable (_ ∧ _))
  | .many r =>
    have := decidable limit r
    inferInstanceAs (Decidable (_ ∧ _ ∧ _))
  | .ahead r | .never r | .node _ r | .extend _ _ r | .check _ r | .must r => decidable limit r

end Rule

/-- The profile is right about a grammar, and no rule of it leads deeper than the limit. -/
structure Profile.Right (p : Profile Symbol Class) (g : Grammar Symbol Class) (limit : Nat) :
    Prop where
  keeps : ∀ c s leaf rest, g.scan c s = some (leaf, rest) → rest.length ≤ s.here.length
  scans : ∀ c s leaf rest, g.scan c s = some (leaf, rest) → p.scans c = true →
    rest.length < s.here.length
  takes : ∀ x, p.takes x = true → (g.rule x).takes p = true
  depth : ∀ x, (g.rule x).depth p ≤ p.depth x
  fits : ∀ x, (g.rule x).Fits p limit

variable {g : Grammar Symbol Class} {p : Profile Symbol Class} {limit fuel m n : Nat}
  {r first second : Rule Symbol Class} {trees trees' : List Tree} {s s' : Spot} {o : Outcome}

theorem Reads.keeps (right : p.Right g limit) (reads : Reads g r trees s trees' s') :
    s'.here.length ≤ s.here.length := by
  induction reads with
  | lexeme scanned =>
    rw [Spot.here_of]
    exact right.keeps _ _ _ _ scanned
  | nothing | done | ahead | never => exact Nat.le_refl _
  | seq _ _ early late | again _ _ early late => exact Nat.le_trans late early
  | first _ ih | second _ ih | symbol _ ih | must _ ih | node _ ih | extend _ _ ih
  | check _ _ ih => exact ih

theorem Reads.shortens (right : p.Right g limit) (reads : Reads g r trees s trees' s')
    (takes : r.takes p = true) : s'.here.length < s.here.length := by
  induction reads with
  | lexeme scanned =>
    rw [Spot.here_of]
    exact right.scans _ _ _ _ scanned takes
  | nothing | done | ahead | never | again => cases takes
  | seq early late before after =>
    rcases Bool.or_eq_true_iff.mp takes with first | second
    · exact Nat.lt_of_le_of_lt (late.keeps right) (before first)
    · exact Nat.lt_of_lt_of_le (after second) (early.keeps right)
  | first _ ih => exact ih (Bool.and_eq_true_iff.mp takes).1
  | second _ ih => exact ih (Bool.and_eq_true_iff.mp takes).2
  | symbol _ ih => exact ih (right.takes _ takes)
  | must _ ih | node _ ih | extend _ _ ih | check _ _ ih => exact ih takes

/-! ### Enough fuel -/

namespace Outcome

theorem andThen_ne_spent {next : List Tree → Spot → Outcome} (early : o ≠ .spent)
    (late : ∀ trees s, o = .read trees s → next trees s ≠ .spent) : o.andThen next ≠ .spent := by
  cases o with
  | read trees s => exact late trees s rfl
  | miss | stuck => nofun
  | spent => exact absurd rfl early

/-- What comes next may run with other fuel, as long as it comes to the same. -/
theorem andThen_congr {next next' : List Tree → Spot → Outcome}
    (same : ∀ trees s, o = .read trees s → next trees s = next' trees s) :
    o.andThen next = o.andThen next' := by
  cases o with
  | read trees s => exact same trees s rfl
  | miss | stuck | spent => rfl

end Outcome

/-- With fuel for the depth of the rule, and for the limit at each character of the text, reading
comes to an end. -/
theorem run_ne_spent (right : p.Right g limit) (fits : r.Fits p limit)
    (enough : r.depth p + limit * s.here.length ≤ fuel) : g.run fuel r trees s ≠ .spent := by
  induction fuel generalizing r trees s with
  | zero => cases r <;> simp [Rule.depth] at enough
  | succ fuel ih =>
    -- Whatever is read leaves fuel enough for a rule that leads no deeper, or no deeper than the
    -- limit if something has been taken.
    have after : ∀ {r' : Rule Symbol Class} {r₀ trees₀ trees₁ s₁} {fuel₀ : Nat}, r'.Fits p limit →
        g.run fuel₀ r₀ trees₀ s = .read trees₁ s₁ →
        (r₀.takes p = true ∧ r'.depth p ≤ limit ∨
          r'.depth p + limit * s.here.length ≤ fuel) → limit * s.here.length ≤ fuel →
        g.run fuel r' trees₁ s₁ ≠ .spent := by
      intro r' r₀ trees₀ trees₁ s₁ fuel₀ fits' read deep some
      refine ih fits' ?_
      have reads := reads_of_run read
      rcases deep with ⟨takes, shallow⟩ | deep
      · have shorter := reads.shortens right takes
        have scaled := Nat.mul_le_mul_left limit (Nat.succ_le_of_lt shorter)
        rw [Nat.mul_succ] at scaled
        omega
      · have scaled := Nat.mul_le_mul_left limit (reads.keeps right)
        omega
    cases r with
    | lexeme c =>
      rw [Grammar.run]
      split <;> simp
    | nothing => simp [Grammar.run]
    | seq first second =>
      obtain ⟨early, late, shallow⟩ := fits
      rw [Rule.depth] at enough
      refine Outcome.andThen_ne_spent (ih early (by omega)) fun trees₁ s₁ read => ?_
      refine after late read ?_ (by omega)
      cases takes : first.takes p with
      | true => exact .inl ⟨rfl, shallow⟩
      | false =>
        rw [takes, if_neg Bool.false_ne_true] at enough
        exact .inr (by omega)
    | alt first second =>
      rw [Rule.depth] at enough
      rw [Grammar.run]
      split
      · exact ih fits.2 (by omega)
      · exact ih fits.1 (by omega)
    | many r =>
      obtain ⟨inside, takes, shallow⟩ := fits
      have again : (Rule.many r).Fits p limit := ⟨inside, takes, shallow⟩
      rw [Rule.depth] at enough
      have once : g.run fuel r trees s ≠ .spent := ih inside (by omega)
      rw [Grammar.run]
      split
      · exact after again ‹_› (.inl ⟨takes, shallow⟩) (by omega)
      · simp
      · exact once
    | ahead r | never r =>
      rw [Rule.depth] at enough
      have inside : g.run fuel r [] s ≠ .spent := ih fits (by omega)
      rw [Grammar.run]
      split
      · simp
      · exact absurd ‹_› inside
      · simp
    | symbol x =>
      have deep := right.depth x
      rw [Rule.depth] at enough
      exact ih (right.fits x) (by omega)
    | node k r =>
      rw [Rule.depth] at enough
      exact Outcome.andThen_ne_spent (ih fits (by omega)) fun _ _ _ => by simp
    | extend fit k r =>
      cases trees with
      | nil => simp [Grammar.run]
      | cons t trees =>
        rw [Rule.depth] at enough
        refine Outcome.andThen_ne_spent (ih fits (by omega)) fun _ _ _ => ?_
        split <;> simp
    | check fit r =>
      rw [Rule.depth] at enough
      refine Outcome.andThen_ne_spent (ih fits (by omega)) fun _ _ _ => ?_
      split <;> simp
    | must r =>
      rw [Rule.depth] at enough
      have inside : g.run fuel r trees s ≠ .spent := ih fits (by omega)
      rw [Grammar.run]
      split
      · simp
      · exact inside

/-- More fuel changes nothing. -/
theorem run_mono (ended : g.run n r trees s ≠ .spent) (more : n ≤ m) :
    g.run m r trees s = g.run n r trees s := by
  induction n generalizing m r trees s with
  | zero => exact absurd rfl ended
  | succ n ih =>
    obtain ⟨m, rfl⟩ := Nat.exists_eq_succ_of_ne_zero (Nat.ne_zero_of_lt more)
    have more : n ≤ m := Nat.le_of_succ_le_succ more
    -- A part that comes to an end does so with more fuel, and then what follows it.
    have parts : ∀ {r : Rule Symbol Class} {trees s} {next next' : List Tree → Spot → Outcome},
        (g.run n r trees s).andThen next ≠ .spent →
        (∀ trees s, next trees s ≠ .spent → next' trees s = next trees s) →
        (g.run m r trees s).andThen next' = (g.run n r trees s).andThen next := by
      intro r trees s next next' ended late
      have early : g.run n r trees s ≠ .spent := by
        intro spent
        rw [spent] at ended
        exact ended rfl
      rw [ih early more]
      refine Outcome.andThen_congr fun trees₁ s₁ read => late trees₁ s₁ ?_
      rwa [read] at ended
    cases r with
    | lexeme | nothing => rfl
    | seq first second =>
      exact parts ended fun _ _ ended => ih ended more
    | node k r => exact parts ended fun _ _ _ => rfl
    | check fit r => exact parts ended fun _ _ _ => rfl
    | extend fit k r =>
      cases trees with
      | nil => rfl
      | cons t trees => exact parts ended fun _ _ _ => rfl
    | symbol x => exact ih ended more
    | alt first second =>
      have early : g.run n first trees s ≠ .spent := by
        intro spent
        rw [Grammar.run, spent] at ended
        exact ended rfl
      rw [Grammar.run, Grammar.run, ih early more]
      rw [Grammar.run] at ended
      split
      · rename_i missed
        rw [missed] at ended
        exact ih ended more
      · rfl
    | many r =>
      have once : g.run n r trees s ≠ .spent := by
        intro spent
        rw [Grammar.run, spent] at ended
        exact ended rfl
      rw [Grammar.run, Grammar.run, ih once more]
      rw [Grammar.run] at ended
      split
      · rename_i read
        rw [read] at ended
        exact ih ended more
      · rfl
      · rfl
    | ahead r | never r =>
      have inside : g.run n r [] s ≠ .spent := by
        intro spent
        rw [Grammar.run, spent] at ended
        exact ended rfl
      rw [Grammar.run, Grammar.run, ih inside more]
    | must r =>
      have inside : g.run n r trees s ≠ .spent := by
        intro spent
        rw [Grammar.run, spent] at ended
        exact ended rfl
      rw [Grammar.run, Grammar.run, ih inside more]

/-! ### What reading comes to -/

/-- What reading a rule comes to with fuel enough. -/
def Grammar.Comes (g : Grammar Symbol Class) (r : Rule Symbol Class) (trees : List Tree) (s : Spot)
    (o : Outcome) : Prop :=
  o ≠ .spent ∧ ∃ fuel, g.run fuel r trees s = o

theorem Grammar.Comes.enough (comes : g.Comes r trees s o) :
    ∃ n, ∀ m, n ≤ m → g.run m r trees s = o := by
  obtain ⟨ended, n, rfl⟩ := comes
  exact ⟨n, fun m more => run_mono ended more⟩

theorem Grammar.Comes.unique {o' : Outcome} (comes : g.Comes r trees s o)
    (comes' : g.Comes r trees s o') : o = o' := by
  obtain ⟨n, enough⟩ := comes.enough
  obtain ⟨n', enough'⟩ := comes'.enough
  exact (enough _ (Nat.le_max_left n n')).symm.trans (enough' _ (Nat.le_max_right n n'))

theorem Grammar.Comes.reads (comes : g.Comes r trees s (.read trees' s')) :
    Reads g r trees s trees' s' := by
  obtain ⟨-, fuel, read⟩ := comes
  exact reads_of_run read

/-! Parts of rules. -/

section
variable {c : Class} {x : Symbol} {k : Kind} {ts us : List Tree} {t : Spot}

theorem comes_nothing : g.Comes .nothing trees s (.read trees s) :=
  ⟨nofun, 1, rfl⟩

theorem comes_lexeme_miss (missed : g.scan c s = none) : g.Comes (.lexeme c) trees s .miss :=
  ⟨nofun, 1, by rw [Grammar.run, missed]⟩

/-- A rule that goes over into another, with one fuel less, comes to the same. -/
theorem comes_congr {r' : Rule Symbol Class} (same : ∀ m, n ≤ m →
    g.run (m + 1) r trees s = g.run m r' trees' s') :
    g.Comes r trees s o ↔ g.Comes r' trees' s' o := by
  constructor
  · intro comes
    obtain ⟨k, enough⟩ := comes.enough
    refine ⟨comes.1, max n k, ?_⟩
    rw [← same _ (Nat.le_max_left n k)]
    exact enough _ (Nat.le_succ_of_le (Nat.le_max_right n k))
  · intro comes
    obtain ⟨k, enough⟩ := comes.enough
    refine ⟨comes.1, max n k + 1, ?_⟩
    rw [same _ (Nat.le_max_left n k)]
    exact enough _ (Nat.le_max_right n k)

theorem comes_symbol : g.Comes (.symbol x) trees s o ↔ g.Comes (g.rule x) trees s o :=
  comes_congr fun _ (_ : 0 ≤ _) => rfl

theorem comes_node_read : g.Comes (.node k r) trees s (.read ts t) ↔
    ∃ us, g.Comes r [] s (.read us t) ∧ ts = .node k us.reverse :: trees := by
  constructor
  · rintro ⟨-, _ | n, same⟩
    · cases same
    · obtain ⟨us, t', inside, built⟩ := Outcome.andThen_read same
      cases built
      exact ⟨us, ⟨nofun, n, inside⟩, rfl⟩
  · rintro ⟨us, ⟨-, n, inside⟩, rfl⟩
    exact ⟨nofun, n + 1, by rw [Grammar.run, inside, Outcome.andThen]⟩

theorem comes_seq_read : g.Comes (.seq first second) trees s (.read ts t) ↔
    ∃ us s', g.Comes first trees s (.read us s') ∧ g.Comes second us s' (.read ts t) := by
  constructor
  · rintro ⟨-, _ | n, same⟩
    · cases same
    · obtain ⟨us, s', early, late⟩ := Outcome.andThen_read same
      exact ⟨us, s', ⟨nofun, n, early⟩, nofun, n, late⟩
  · rintro ⟨us, s', early, late⟩
    obtain ⟨n, early⟩ := early.enough
    obtain ⟨m, late⟩ := late.enough
    refine ⟨nofun, max n m + 1, ?_⟩
    rw [Grammar.run, early _ (Nat.le_max_left n m), Outcome.andThen, late _ (Nat.le_max_right n m)]

theorem comes_alt_of_miss (missed : g.Comes first trees s .miss) :
    g.Comes (.alt first second) trees s o ↔ g.Comes second trees s o := by
  obtain ⟨n, missed⟩ := missed.enough
  exact comes_congr fun m more => by rw [Grammar.run, missed m more]

theorem comes_many_of_read (once : g.Comes r trees s (.read ts t)) :
    g.Comes (.many r) trees s o ↔ g.Comes (.many r) ts t o := by
  obtain ⟨n, once⟩ := once.enough
  exact comes_congr fun m more => by rw [Grammar.run, once m more]

/-- The rule as often as a number says. -/
def Rule.times (r : Rule Symbol Class) : Nat → Rule Symbol Class
  | 0 => .nothing
  | n + 1 => .seq r (r.times n)

/-- What has been read a number of times has been read as often as it can, as far as that goes. -/
theorem comes_many_of_times (read : g.Comes (r.times n) trees s (.read ts t)) :
    g.Comes (.many r) trees s o ↔ g.Comes (.many r) ts t o := by
  induction n generalizing trees s with
  | zero =>
    cases read.unique comes_nothing
    rfl
  | succ n ih =>
    obtain ⟨us, s', once, more⟩ := comes_seq_read.mp read
    exact (comes_many_of_read once).trans (ih more)

end

end

end BundleMerge.Script
