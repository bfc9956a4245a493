import Mathlib.Tactic.IntervalCases
import BundleMerge.Json.Printer
import BundleMerge.Proofs.Json.Reader

/-! What is written is read back. This holds for every layout that puts nothing but blanks between
the tokens, and for every value that can be stored and has no floats in it. -/
namespace BundleMerge.Json

variable {l : Layout} {cs cs' gap more rest rest' text last : List Char} {c : Char} {v : Json}
  {items : List Json} {fields known : Fields} {key : String} {fuel indent depth : Nat}

/-- All numbers in the value are integers. -/
inductive Integral : Json → Prop where
  | null : Integral .null
  | bool (b : Bool) : Integral (.bool b)
  | int (n : Int) : Integral (.number (.int n))
  | string (s : String) : Integral (.string s)
  | array {items : List Json} (each : ∀ v ∈ items, Integral v) : Integral (.array items)
  | object {fields : Fields} (each : ∀ field ∈ fields, Integral field.2) : Integral (.object fields)

/-! ### Blanks -/

def Blank (gap : List Char) : Prop := ∀ c ∈ gap, isSpace c = true

/-- Between the tokens stand blanks only. -/
structure Layout.Spaced (l : Layout) : Prop where
  lead : ∀ depth, Blank (l.lead depth)
  colon : ∃ gap, l.colon = ':' :: gap ∧ Blank gap

theorem skipSpace_append (blank : Blank gap) (cs : List Char) :
    skipSpace (gap ++ cs) = skipSpace cs :=
  List.dropWhile_append_of_pos blank

theorem skipSpace_cons {c : Char} (solid : isSpace c = false) : skipSpace (c :: cs) = c :: cs :=
  List.dropWhile_cons_of_neg (by simp [solid])

/-- What comes next does not go on with a number. -/
def Ends (cs : List Char) : Prop :=
  ∀ c ∈ cs.head?, c.isDigit = false ∧ c ≠ '.' ∧ c ≠ 'e' ∧ c ≠ 'E'

theorem ends_nil : Ends [] := nofun

theorem ends_blank (blank : Blank gap) (ends : Ends cs) : Ends (gap ++ cs) := by
  cases gap with
  | nil => exact ends
  | cons c gap =>
    intro c' here
    obtain rfl : c = c' := by simpa using here
    have space : isSpace c = true := blank c (List.mem_cons_self ..)
    simp only [isSpace, Bool.or_eq_true, decide_eq_true_eq] at space
    rcases space with ((rfl | rfl) | rfl) | rfl <;> decide

/-! ### Numbers -/

/-- Digits are gathered as long as the number that they make is small enough. -/
theorem gather_digits (ds : List Char) (n : Nat) (small : Nat.ofDigitChars 10 ds n ≤ maxNatural) :
    gather n ds = (Nat.ofDigitChars 10 ds n, []) := by
  induction ds generalizing n with
  | nil => rfl
  | cons d ds ih =>
    have next : 10 * n + (d.toNat - '0'.toNat) = n * 10 + digitValue d := by
      rw [Nat.mul_comm]
      rfl
    rw [Nat.ofDigitChars_cons, next] at small ⊢
    have more : n * 10 + digitValue d ≤ Nat.ofDigitChars 10 ds (n * 10 + digitValue d) := by
      rw [Nat.ofDigitChars_eq_ofDigitChars_zero]
      exact (Nat.le_mul_of_pos_left _ (by simp)).trans (Nat.le_add_right ..)
    rw [gather, if_pos (more.trans small), ih _ small]

theorem toDigits_head {n : Nat} (positive : n ≠ 0) :
    ∃ d ds, Nat.toDigits 10 n = d :: ds ∧ d.isDigit = true ∧ d ≠ '0' := by
  induction n using Nat.strongRecOn with
  | _ n ih =>
    by_cases small : n < 10
    · refine ⟨n.digitChar, [], Nat.toDigits_of_lt_base small, ?_⟩
      interval_cases n <;> simp_all
    · obtain ⟨d, ds, digits, digit, leading⟩ := ih (n / 10) (by omega) (by omega)
      refine ⟨d, ds ++ [(n % 10).digitChar], ?_, digit, leading⟩
      rw [Nat.toDigits_of_base_le (by decide) (by omega), digits, List.cons_append]

theorem takeWhile_digits (n : Nat) (ends : Ends rest) :
    (Nat.toDigits 10 n ++ rest).takeWhile Char.isDigit = Nat.toDigits 10 n ∧
      (Nat.toDigits 10 n ++ rest).dropWhile Char.isDigit = rest := by
  have digits : ∀ c ∈ Nat.toDigits 10 n, c.isDigit = true := fun c member =>
    Nat.isDigit_of_mem_toDigits (by decide) (by decide) member
  rw [List.takeWhile_append_of_pos digits, List.dropWhile_append_of_pos digits]
  cases rest with
  | nil => simp
  | cons c rest =>
    have other : c.isDigit = false := (ends c rfl).1
    simp [other]

theorem readAfterDigits_ends {n : Nat} (negative : Bool) (ends : Ends rest)
    (fits : negative = true → n ≠ 0 ∧ n ≤ 2 ^ 63) :
    readAfterDigits negative n [] rest = .ok (.int (if negative then -n else n), rest) := by
  unfold readAfterDigits
  split
  · exact absurd rfl (ends '.' rfl).2.1
  · exact absurd rfl (ends 'e' rfl).2.2.1
  · exact absurd rfl (ends 'E' rfl).2.2.2
  · cases negative with
    | false => rfl
    | true =>
      obtain ⟨positive, low⟩ := fits rfl
      have inside : (decide (n = 0) || decide (n > Nat.pow 2 63)) = false := by
        rw [Bool.or_eq_false_iff, decide_eq_false_iff_not, decide_eq_false_iff_not]
        exact ⟨positive, Nat.not_lt.mpr low⟩
      simp [inside]

theorem readNumber_digits {n : Nat} (negative : Bool) (ends : Ends rest) (small : n < 2 ^ 64)
    (fits : negative = true → n ≠ 0 ∧ n ≤ 2 ^ 63) :
    readNumber negative (Nat.toDigits 10 n ++ rest) =
      .ok (.int (if negative then -n else n), rest) := by
  by_cases zero : n = 0
  · subst zero
    rw [Nat.toDigits_zero, List.singleton_append, readNumber]
    have after : rest.head?.any Char.isDigit = false := by
      cases rest with
      | nil => rfl
      | cons c rest => exact (ends c rfl).1
    simp only [if_true, after, Bool.false_eq_true, if_false]
    exact readAfterDigits_ends negative ends fits
  · obtain ⟨d, ds, digits, digit, leading⟩ := toDigits_head zero
    have bound : maxNatural = 2 ^ 64 - 1 := rfl
    obtain ⟨taken, left⟩ := takeWhile_digits n ends
    have gathered : gather 0 (Nat.toDigits 10 n) = (n, []) := by
      rw [gather_digits _ _ (by rw [Nat.ofDigitChars_ten_toDigits]; omega),
        Nat.ofDigitChars_ten_toDigits]
    have cut : readNumber negative (Nat.toDigits 10 n ++ rest) =
        readAfterDigits negative
          (gather 0 ((Nat.toDigits 10 n ++ rest).takeWhile Char.isDigit)).1
          (gather 0 ((Nat.toDigits 10 n ++ rest).takeWhile Char.isDigit)).2
          ((Nat.toDigits 10 n ++ rest).dropWhile Char.isDigit) := by
      rw [digits, List.cons_append, readNumber, if_neg leading, if_pos digit]
    rw [cut, taken, left, gathered]
    exact readAfterDigits_ends negative ends fits

theorem readNumber_writeInt {n : Int} (fits : (Number.int n).Fits) (ends : Ends rest) :
    if n < 0 then
      ∃ ds, writeInt n = '-' :: ds ∧ readNumber true (ds ++ rest) = .ok (.int n, rest)
    else
      ∃ d ds, writeInt n = d :: ds ∧ d.isDigit = true ∧
        readNumber false (d :: ds ++ rest) = .ok (.int n, rest) := by
  obtain ⟨low, high⟩ := fits
  split
  · next below =>
    refine ⟨Nat.toDigits 10 n.natAbs, by simp [writeInt, below], ?_⟩
    rw [readNumber_digits true ends (by omega) (fun _ => by omega)]
    simp only [if_true, Except.ok.injEq, Prod.mk.injEq, and_true, Number.int.injEq]
    omega
  · next above =>
    cases digits : Nat.toDigits 10 n.natAbs with
    | nil => exact absurd digits Nat.toDigits_ne_nil
    | cons d ds =>
      have digit : d.isDigit = true :=
        Nat.isDigit_of_mem_toDigits (n := n.natAbs) (b := 10) (by decide) (by decide)
          (digits ▸ List.mem_cons_self ..)
      refine ⟨d, ds, by simp [writeInt, above, digits], digit, ?_⟩
      rw [← digits, readNumber_digits false ends (by omega) nofun]
      simp only [Bool.false_eq_true, if_false, Except.ok.injEq, Prod.mk.injEq, and_true,
        Number.int.injEq]
      omega

/-! ### Texts -/

theorem hexValue?_hexDigit {n : Nat} (small : n < 16) : hexValue? (hexDigit n) = some n := by
  interval_cases n <;> decide

theorem length_hexDigit {n : Nat} (small : n < 16) :
    (String.utf8EncodeChar (hexDigit n)).length = 1 := by
  interval_cases n <;> decide

theorem readHex_hexDigits {n : Nat} (small : n < 32) (cs : List Char) :
    readHex ('0' :: '0' :: hexDigit (n / 16) :: hexDigit (n % 16) :: cs) = .ok (n, cs) := by
  have long : (utf8Bytes ['0', '0', hexDigit (n / 16), hexDigit (n % 16)]).length = 4 := by
    simp only [utf8Bytes, List.flatMap_cons, List.flatMap_nil, List.length_append,
      length_hexDigit (show n / 16 < 16 by omega), length_hexDigit (show n % 16 < 16 by omega)]
    decide
  have zero : hexValue? '0' = some 0 := by decide
  have taken : ('0' :: '0' :: hexDigit (n / 16) :: hexDigit (n % 16) :: cs).take 4 =
      ['0', '0', hexDigit (n / 16), hexDigit (n % 16)] := rfl
  rw [readHex, taken, long, if_neg (by decide)]
  simp only [zero, hexValue?_hexDigit (show n / 16 < 16 by omega),
    hexValue?_hexDigit (show n % 16 < 16 by omega), Except.ok.injEq, Prod.mk.injEq, and_true]
  omega

/-- A character is read back from the way in which it is written. -/
theorem readChars_escapeChar (c : Char) (cs : List Char) :
    readChars (fuel + 1) (escapeChar c ++ cs) =
      (readChars fuel cs).map fun (text, rest) => (c :: text, rest) := by
  have code {n : Nat} (here : c.toNat = n) : c = Char.ofNat n := by
    rw [← here, Char.ofNat_toNat]
  unfold escapeChar
  split_ifs with quote slash backspace tab line feed return_ control
  · rw [quote]
    rfl
  · rw [slash]
    rfl
  · rw [code backspace]
    rfl
  · rw [code tab]
    rfl
  · rw [code line]
    rfl
  · rw [code feed]
    rfl
  · rw [code return_]
    rfl
  · have escape : readEscape ('u' :: '0' :: '0' :: hexDigit (c.toNat / 16) ::
        hexDigit (c.toNat % 16) :: cs) = .ok (c, cs) := by
      simp only [readEscape, readHex_hexDigits control]
      rw [if_neg (by simp; omega), if_neg (by simp; omega), Char.ofNat_toNat]
    simp only [List.cons_append, List.nil_append, readChars, escape]
    rfl
  · simp [readChars, quote, slash, control]

theorem readChars_escaped (text rest : List Char) (enough : text.length < fuel) :
    readChars fuel (text.flatMap escapeChar ++ '"' :: rest) = .ok (text, rest) := by
  induction text generalizing fuel with
  | nil =>
    cases fuel with
    | zero => cases enough
    | succ fuel => rfl
  | cons c text ih =>
    cases fuel with
    | zero => cases enough
    | succ fuel =>
      rw [List.flatMap_cons, List.append_assoc, readChars_escapeChar,
        ih (Nat.lt_of_succ_lt_succ enough)]
      rfl

theorem readString_written (s : String) (rest : List Char) :
    readString (s.toList.flatMap escapeChar ++ '"' :: rest) = .ok (s, rest) := by
  have long (text : List Char) : text.length ≤ (text.flatMap escapeChar).length := by
    induction text with
    | nil => exact Nat.le_refl _
    | cons c text ih =>
      have one : 1 ≤ (escapeChar c).length := by
        unfold escapeChar
        split_ifs <;> simp
      rw [List.flatMap_cons, List.length_append, List.length_cons]
      omega
  have enough := long s.toList
  rw [readString, readChars_escaped _ _ (by rw [List.length_append]; omega)]
  simp [Except.map]

/-! ### One item or field -/

theorem readItems_close {first : Bool} (here : skipSpace cs = ']' :: rest) :
    readItems (fuel + 1) depth first cs = .ok ([], rest) := by
  simp only [readItems, here]

theorem readFields_close {first : Bool} (here : skipSpace cs = '\x7d' :: rest) :
    readFields (fuel + 1) depth first known cs = .ok (known, rest) := by
  simp only [readFields, here]

theorem readItems_first (here : skipSpace cs = c :: more) (other : c ≠ ']')
    (value : readValue fuel depth (c :: more) = .ok (v, rest))
    (others : readItems fuel depth false rest = .ok (items, last)) :
    readItems (fuel + 1) depth true cs = .ok (v :: items, last) := by
  rw [readItems, here]
  split
  · contradiction
  · exact absurd (List.cons.inj ‹_›).1 other
  · next same =>
    obtain ⟨rfl, rfl⟩ := List.cons.inj same
    simp only [if_true, value, others]
    rfl

theorem readItems_next (here : skipSpace cs = ',' :: cs') (after : skipSpace cs' = c :: more)
    (other : c ≠ ']') (value : readValue fuel depth (c :: more) = .ok (v, rest))
    (others : readItems fuel depth false rest = .ok (items, last)) :
    readItems (fuel + 1) depth false cs = .ok (v :: items, last) := by
  rw [readItems, here]
  split
  · contradiction
  · next same => exact absurd (List.cons.inj same).1 (by decide)
  · next same =>
    obtain ⟨rfl, rfl⟩ := List.cons.inj same
    rw [if_neg (by decide), if_pos rfl, after]
    split
    · contradiction
    · next same => exact absurd (List.cons.inj same).1 other
    · simp only [value, others]
      rfl

theorem readFields_first (here : skipSpace cs = '"' :: cs')
    (name : readString cs' = .ok (key, rest)) (colon : skipSpace rest = ':' :: text)
    (value : readValue fuel depth text = .ok (v, rest'))
    (others : readFields fuel depth false (known.insert key v) rest' = .ok (fields, last)) :
    readFields (fuel + 1) depth true known cs = .ok (fields, last) := by
  rw [readFields, here]
  split
  · contradiction
  · next same => exact absurd (List.cons.inj same).1 (by decide)
  · next same =>
    obtain ⟨rfl, rfl⟩ := List.cons.inj same
    simp only [if_true, name, colon, value, others]

theorem readFields_next (here : skipSpace cs = ',' :: cs') (after : skipSpace cs' = '"' :: more)
    (name : readString more = .ok (key, rest)) (colon : skipSpace rest = ':' :: text)
    (value : readValue fuel depth text = .ok (v, rest'))
    (others : readFields fuel depth false (known.insert key v) rest' = .ok (fields, last)) :
    readFields (fuel + 1) depth false known cs = .ok (fields, last) := by
  rw [readFields, here]
  split
  · contradiction
  · next same => exact absurd (List.cons.inj same).1 (by decide)
  · next same =>
    obtain ⟨rfl, rfl⟩ := List.cons.inj same
    rw [if_neg (by decide), if_pos rfl, after]
    simp only [name, colon, value, others]
/-! ### Values -/

/-- How the text of a value starts. -/
def Starts (cs : List Char) : Prop :=
  ∃ c more, cs = c :: more ∧ isSpace c = false ∧ c ≠ ']'

theorem isSpace_digit {c : Char} (digit : c.isDigit = true) : isSpace c = false ∧ c ≠ ']' := by
  constructor
  · refine Bool.eq_false_iff.mpr fun space => ?_
    simp only [isSpace, Bool.or_eq_true, decide_eq_true_eq] at space
    rcases space with ((rfl | rfl) | rfl) | rfl <;> cases digit
  · rintro rfl
    cases digit

theorem writeInt_starts {n : Int} (fits : (Number.int n).Fits) : Starts (writeInt n) := by
  have written := readNumber_writeInt fits ends_nil
  split at written
  · obtain ⟨ds, text, -⟩ := written
    exact ⟨'-', ds, text, by decide, by decide⟩
  · obtain ⟨d, ds, text, digit, -⟩ := written
    obtain ⟨solid, other⟩ := isSpace_digit digit
    exact ⟨d, ds, text, solid, other⟩

theorem writeAt_starts (storable : Storable depth v) (integral : Integral v) :
    Starts (writeAt l indent v) := by
  cases integral with
  | null => exact ⟨'n', _, rfl, by decide, by decide⟩
  | bool b =>
    cases b with
    | true => exact ⟨'t', _, rfl, by decide, by decide⟩
    | false => exact ⟨'f', _, rfl, by decide, by decide⟩
  | int n =>
    obtain _ | _ | fits := storable
    exact writeInt_starts fits
  | string s => exact ⟨'"', _, rfl, by decide, by decide⟩
  | @array items _ => cases items <;> exact ⟨'[', _, rfl, by decide, by decide⟩
  | @object fields _ => cases fields <;> exact ⟨'\x7b', _, rfl, by decide, by decide⟩

theorem Starts.length_pos (starts : Starts cs) : 0 < cs.length := by
  obtain ⟨c, more, rfl, -⟩ := starts
  exact Nat.zero_lt_succ _

/-- A value is read back where it is written, with brackets to spare. -/
def ReadsBack (l : Layout) (depth : Nat) (v : Json) : Prop :=
  ∀ ⦃indent fuel : Nat⦄ ⦃cs rest : List Char⦄, skipSpace cs = writeAt l indent v ++ rest →
    Ends rest → 2 * (writeAt l indent v).length ≤ fuel →
      readValue fuel (depth + 1) cs = .ok (v, rest)

theorem ends_items (spaced : l.Spaced) (items : List Json) (rest : List Char) :
    Ends (writeItems l (indent + 1) items ++ l.lead indent ++ ']' :: rest) := by
  cases items with
  | nil =>
    rw [writeItems, List.nil_append]
    exact ends_blank (spaced.lead indent) (by intro c here; cases here; decide)
  | cons item items => intro c here; cases here; decide

theorem ends_fields (spaced : l.Spaced) (fields : Fields) (rest : List Char) :
    Ends (writeFields l (indent + 1) fields ++ l.lead indent ++ '\x7d' :: rest) := by
  cases fields with
  | nil =>
    rw [writeFields, List.nil_append]
    exact ends_blank (spaced.lead indent) (by intro c here; cases here; decide)
  | cons field fields =>
    obtain ⟨key, value⟩ := field
    intro c here
    cases here
    decide

/-- The value that comes next is read, and then the rest of its list or object. -/
theorem ReadsBack.next (back : ReadsBack l depth v) (starts : Starts (writeAt l indent v))
    (ends : Ends rest) (enough : 2 * (writeAt l indent v).length ≤ fuel) :
    ∃ c more, writeAt l indent v = c :: more ∧ isSpace c = false ∧ c ≠ ']' ∧
      readValue fuel (depth + 1) (c :: (more ++ rest)) = .ok (v, rest) := by
  obtain ⟨c, more, text, solid, other⟩ := starts
  refine ⟨c, more, text, solid, other, back ?_ ends enough⟩
  rw [skipSpace_cons solid, text, List.cons_append]

theorem readItems_written (spaced : l.Spaced) (rest : List Char)
    (starts : ∀ v ∈ items, ∀ indent, Starts (writeAt l indent v))
    (each : ∀ v ∈ items, ReadsBack l depth v)
    (enough : 2 * (writeItems l (indent + 1) items).length + 1 ≤ fuel) :
    readItems fuel (depth + 1) false
      (writeItems l (indent + 1) items ++ l.lead indent ++ ']' :: rest) = .ok (items, rest) := by
  obtain ⟨fuel, rfl⟩ := Nat.exists_eq_succ_of_ne_zero (show fuel ≠ 0 by omega)
  induction items generalizing fuel with
  | nil =>
    refine readItems_close ?_
    rw [writeItems, List.nil_append, skipSpace_append (spaced.lead indent),
      skipSpace_cons (by decide)]
  | cons item items ih =>
    simp only [writeItems, List.length_append, List.length_cons] at enough
    obtain ⟨fuel, rfl⟩ := Nat.exists_eq_succ_of_ne_zero (show fuel ≠ 0 by omega)
    obtain ⟨c, more, text, solid, other, value⟩ :=
      (each item (List.mem_cons_self ..)).next (starts item (List.mem_cons_self ..) (indent + 1))
        (ends_items spaced items rest) (show _ ≤ fuel + 1 by omega)
    have others := ih (fun v member => starts v (List.mem_cons_of_mem _ member))
      (fun v member => each v (List.mem_cons_of_mem _ member)) fuel (by omega)
    have opens : writeItems l (indent + 1) (item :: items) ++ l.lead indent ++ ']' :: rest =
        ',' :: (l.lead (indent + 1) ++ (c :: (more ++
          (writeItems l (indent + 1) items ++ l.lead indent ++ ']' :: rest)))) := by
      simp only [writeItems, text, List.append_assoc, List.cons_append]
    rw [opens]
    refine readItems_next (skipSpace_cons (by decide)) ?_ other value others
    rw [skipSpace_append (spaced.lead (indent + 1)), skipSpace_cons solid]

theorem Fields.insert_new (new : key ∉ known.keys) : known.insert key v = known ++ [(key, v)] := by
  induction known with
  | nil => rfl
  | cons field known ih =>
    obtain ⟨other, new⟩ := not_or.mp (List.mem_cons.not.mp new)
    rw [Fields.insert, if_neg (Ne.symm other), ih new, List.cons_append]

/-- A field is read from behind the quote that opens its name. -/
theorem readString_field (spaced : l.Spaced) (key : String) (rest : List Char) :
    ∃ text gap, readString (key.toList.flatMap escapeChar ++ '"' :: (l.colon ++ rest)) =
      .ok (key, ':' :: text) ∧ text = gap ++ rest ∧ Blank gap := by
  obtain ⟨gap, colon, blank⟩ := spaced.colon
  exact ⟨gap ++ rest, gap, by rw [readString_written, colon, List.cons_append], rfl, blank⟩

theorem readFields_written (spaced : l.Spaced) (rest : List Char)
    (starts : ∀ field ∈ fields, ∀ indent, Starts (writeAt l indent field.2))
    (each : ∀ field ∈ fields, ReadsBack l depth field.2)
    (distinct : (known ++ fields).keys.Nodup)
    (enough : 2 * (writeFields l (indent + 1) fields).length + 1 ≤ fuel) :
    readFields fuel (depth + 1) false known
      (writeFields l (indent + 1) fields ++ l.lead indent ++ '\x7d' :: rest) =
        .ok (known ++ fields, rest) := by
  obtain ⟨fuel, rfl⟩ := Nat.exists_eq_succ_of_ne_zero (show fuel ≠ 0 by omega)
  induction fields generalizing fuel known with
  | nil =>
    rw [List.append_nil]
    refine readFields_close ?_
    rw [writeFields, List.nil_append, skipSpace_append (spaced.lead indent),
      skipSpace_cons (by decide)]
  | cons field fields ih =>
    obtain ⟨key, value⟩ := field
    simp only [writeFields, List.length_append, List.length_cons] at enough
    obtain ⟨fuel, rfl⟩ := Nat.exists_eq_succ_of_ne_zero (show fuel ≠ 0 by omega)
    have grown : (known ++ [(key, value)] ++ fields).keys.Nodup := by
      rwa [List.append_assoc, List.singleton_append]
    have new : key ∉ known.keys := by
      rw [Fields.keys, List.map_append] at distinct
      exact fun member => List.disjoint_of_nodup_append distinct member (List.mem_cons_self ..)
    have whole : known.insert key value ++ fields = known ++ (key, value) :: fields := by
      rw [Fields.insert_new new, List.append_assoc, List.singleton_append]
    have others := ih (fun field member => starts field (List.mem_cons_of_mem _ member))
      (fun field member => each field (List.mem_cons_of_mem _ member)) grown fuel (by omega)
    rw [← Fields.insert_new new, whole] at others
    let after := writeFields l (indent + 1) fields ++ l.lead indent ++ '\x7d' :: rest
    obtain ⟨text, gap, name, rfl, blank⟩ := readString_field spaced key
      (writeAt l (indent + 1) value ++ after)
    have opens : writeFields l (indent + 1) ((key, value) :: fields) ++ l.lead indent ++
        '\x7d' :: rest = ',' :: (l.lead (indent + 1) ++ '"' :: (key.toList.flatMap escapeChar ++
          '"' :: (l.colon ++ (writeAt l (indent + 1) value ++ after)))) := by
      simp [writeFields, writeString, after]
    rw [opens]
    refine readFields_next (skipSpace_cons (by decide)) ?_ name (skipSpace_cons (by decide)) ?_ others
    · rw [skipSpace_append (spaced.lead (indent + 1)), skipSpace_cons (by decide)]
    · have back : ReadsBack l depth value := each (key, value) (List.mem_cons_self ..)
      refine @back (indent + 1) _ _ _ ?_ (ends_fields spaced fields rest) (by omega)
      obtain ⟨c, more, first, solid, -⟩ := starts (key, value) (List.mem_cons_self ..) (indent + 1)
      rw [skipSpace_append blank, first, List.cons_append, skipSpace_cons solid]

theorem readValue_array (here : skipSpace cs = '[' :: more)
    (items_ : readItems fuel (depth + 1) true more = .ok (items, rest)) :
    readValue (fuel + 1) (depth + 2) cs = .ok (.array items, rest) := by
  simp only [readValue, here]
  rw [if_neg (by omega), show depth + 2 - 1 = depth + 1 from rfl, items_]
  rfl

theorem readValue_object (here : skipSpace cs = '\x7b' :: more)
    (fields_ : readFields fuel (depth + 1) true [] more = .ok (fields, rest)) :
    readValue (fuel + 1) (depth + 2) cs = .ok (.object fields, rest) := by
  simp only [readValue, here]
  rw [if_neg (by omega), show depth + 2 - 1 = depth + 1 from rfl, fields_]
  rfl

theorem readsBack_number {n : Int} (fits : (Number.int n).Fits) :
    ReadsBack l depth (.number (.int n)) := by
  intro indent fuel cs rest here ends enough
  have some : 0 < (writeAt l indent (.number (.int n))).length := (writeInt_starts fits).length_pos
  obtain ⟨fuel, rfl⟩ := Nat.exists_eq_succ_of_ne_zero (show fuel ≠ 0 by omega)
  change skipSpace cs = writeInt n ++ rest at here
  have written := readNumber_writeInt fits ends
  split at written
  · obtain ⟨ds, text, number⟩ := written
    rw [text, List.cons_append] at here
    simp only [readValue, here, number]
    rfl
  · obtain ⟨d, ds, text, digit, number⟩ := written
    rw [text, List.cons_append] at here
    rw [List.cons_append] at number
    rw [readValue, here]
    split <;> first
      | (next same => cases (List.cons.inj same).1 ▸ digit)
      | skip
    · contradiction
    · next same =>
      obtain ⟨rfl, rfl⟩ := List.cons.inj same
      rw [if_pos digit, number]
      rfl

theorem readsBack_array (spaced : l.Spaced)
    (starts : ∀ v ∈ items, ∀ indent, Starts (writeAt l indent v))
    (each : ∀ v ∈ items, ReadsBack l depth v) : ReadsBack l (depth + 1) (.array items) := by
  intro indent fuel cs rest here ends enough
  cases items with
  | nil =>
    obtain ⟨fuel, rfl⟩ : ∃ n, fuel = n + 2 := ⟨fuel - 2, by simp [writeAt] at enough; omega⟩
    exact readValue_array here (readItems_close (skipSpace_cons (by decide)))
  | cons item items =>
    simp only [writeAt, List.length_append, List.length_cons, List.length_nil] at enough
    obtain ⟨fuel, rfl⟩ : ∃ n, fuel = n + 2 := ⟨fuel - 2, by omega⟩
    obtain ⟨c, more, text, solid, other, value⟩ :=
      (each item (List.mem_cons_self ..)).next (starts item (List.mem_cons_self ..) (indent + 1))
        (ends_items spaced items rest) (show _ ≤ fuel by omega)
    have others := readItems_written spaced rest
      (fun v member => starts v (List.mem_cons_of_mem _ member))
      (fun v member => each v (List.mem_cons_of_mem _ member))
      (show 2 * (writeItems l (indent + 1) items).length + 1 ≤ fuel by omega)
    have opens : writeAt l indent (.array (item :: items)) ++ rest =
        '[' :: (l.lead (indent + 1) ++ (c :: (more ++
          (writeItems l (indent + 1) items ++ l.lead indent ++ ']' :: rest)))) := by
      simp only [writeAt, text, List.append_assoc, List.cons_append, List.nil_append]
    rw [opens] at here
    refine readValue_array here (readItems_first ?_ other value others)
    rw [skipSpace_append (spaced.lead (indent + 1)), skipSpace_cons solid]

theorem readsBack_object (spaced : l.Spaced)
    (starts : ∀ field ∈ fields, ∀ indent, Starts (writeAt l indent field.2))
    (each : ∀ field ∈ fields, ReadsBack l depth field.2) (distinct : fields.keys.Nodup) :
    ReadsBack l (depth + 1) (.object fields) := by
  intro indent fuel cs rest here ends enough
  cases fields with
  | nil =>
    obtain ⟨fuel, rfl⟩ : ∃ n, fuel = n + 2 := ⟨fuel - 2, by simp [writeAt] at enough; omega⟩
    exact readValue_object here (readFields_close (skipSpace_cons (by decide)))
  | cons field fields =>
    obtain ⟨key, value⟩ := field
    simp only [writeAt, List.length_append, List.length_cons, List.length_nil] at enough
    obtain ⟨fuel, rfl⟩ : ∃ n, fuel = n + 2 := ⟨fuel - 2, by omega⟩
    have others := @readFields_written l fields [(key, value)] _ indent _ spaced rest
      (fun field member => starts field (List.mem_cons_of_mem _ member))
      (fun field member => each field (List.mem_cons_of_mem _ member)) distinct
      (show 2 * (writeFields l (indent + 1) fields).length + 1 ≤ fuel by omega)
    let after := writeFields l (indent + 1) fields ++ l.lead indent ++ '\x7d' :: rest
    obtain ⟨text, gap, name, rfl, blank⟩ := readString_field spaced key
      (writeAt l (indent + 1) value ++ after)
    have opens : writeAt l indent (.object ((key, value) :: fields)) ++ rest =
        '\x7b' :: (l.lead (indent + 1) ++ '"' :: (key.toList.flatMap escapeChar ++
          '"' :: (l.colon ++ (writeAt l (indent + 1) value ++ after)))) := by
      simp [writeAt, writeString, after]
    have back : ReadsBack l depth value := each (key, value) (List.mem_cons_self ..)
    obtain ⟨c, more, first, solid, -⟩ := starts (key, value) (List.mem_cons_self ..) (indent + 1)
    rw [opens] at here
    refine readValue_object here (readFields_first ?_ name (skipSpace_cons (by decide))
      (@back (indent + 1) _ _ _ ?_ (ends_fields spaced fields rest) (by omega)) others)
    · rw [skipSpace_append (spaced.lead (indent + 1)), skipSpace_cons (by decide)]
    · rw [skipSpace_append blank, first, List.cons_append, skipSpace_cons solid]

theorem readsBack (spaced : l.Spaced) (storable : Storable depth v) (integral : Integral v) :
    ReadsBack l depth v := by
  induction storable with
  | null =>
    intro indent fuel cs rest here ends enough
    obtain ⟨fuel, rfl⟩ : ∃ n, fuel = n + 1 := ⟨fuel - 1, by simp [writeAt] at enough; omega⟩
    simp only [readValue, here, writeAt, List.cons_append]
    rfl
  | bool b =>
    intro indent fuel cs rest here ends enough
    cases b <;>
      obtain ⟨fuel, rfl⟩ : ∃ n, fuel = n + 1 := ⟨fuel - 1, by simp [writeAt] at enough; omega⟩ <;>
      simp only [readValue, here, writeAt, List.cons_append] <;>
      rfl
  | number fits =>
    cases integral
    exact readsBack_number fits
  | string s =>
    intro indent fuel cs rest here ends enough
    obtain ⟨fuel, rfl⟩ : ∃ n, fuel = n + 1 :=
      ⟨fuel - 1, by simp [writeAt, writeString] at enough; omega⟩
    have text : writeAt l indent (.string s) ++ rest =
        '"' :: (s.toList.flatMap escapeChar ++ '"' :: rest) := by simp [writeAt, writeString]
    simp only [readValue, here, text, readString_written]
    rfl
  | array each ih =>
    obtain _ | _ | _ | _ | integral := integral
    exact readsBack_array spaced
      (fun v member indent => writeAt_starts (each v member) (integral v member))
      fun v member => ih v member (integral v member)
  | object distinct each ih =>
    obtain _ | _ | _ | _ | _ | integral := integral
    exact readsBack_object spaced
      (fun field member indent => writeAt_starts (each field member) (integral field member))
      (fun field member => ih field member (integral field member)) distinct

theorem pretty_spaced : pretty.Spaced where
  lead depth := by
    intro c member
    obtain rfl | member := List.mem_cons.mp member
    · decide
    · rw [List.eq_of_mem_replicate member]
      decide
  colon := ⟨[' '], rfl, by intro c member; rw [List.mem_singleton.mp member]; decide⟩

/-- A value without floats that can be stored is read back from its text. -/
theorem parse_write (spaced : l.Spaced) (storable : Storable deepest v) (integral : Integral v) :
    parse (v.write l) = .ok v := by
  obtain ⟨c, more, first, solid, -⟩ : Starts (writeAt l 0 v) := writeAt_starts storable integral
  have read : readValue (2 * (writeAt l 0 v).length + 2) depthLimit (writeAt l 0 v) =
      .ok (v, []) := by
    refine @readsBack l v deepest spaced storable integral 0 _ _ _ ?_ ends_nil (by omega)
    rw [List.append_nil, first, skipSpace_cons solid]
  have none : skipSpace [] = [] := rfl
  rw [parse, Json.write, String.toList_ofList, readAll, read]
  simp only [none]
  rfl

end BundleMerge.Json
