import Mathlib.Data.List.Basic
import Provenance.Proofs.Json.ReadBack

/-! # The form of values

What the text of a value looks like, told without a reader. A value that does not matter is skipped
as a whole, whatever it is made of, however deep it goes and whatever comes behind it.
-/

namespace Provenance.Json

variable {s r w body : List Char}

/-! ## Blanks -/

def Blank (s : List Char) : Prop := ∀ c ∈ s, isSpace c = true

theorem blank_nil : Blank [] := fun _ listed => absurd listed List.not_mem_nil

theorem blank_singleton {c : Char} (space : isSpace c = true) : Blank [c] := by
  intro d listed
  rwa [List.mem_singleton.mp listed]

theorem dropSpace_append (blank : Blank s) (r : List Char) : dropSpace (s ++ r) = dropSpace r :=
  List.dropWhile_append_of_pos blank

theorem dropSpace_append_cons (blank : Blank s) {c : Char} (visible : isSpace c = false)
    (r : List Char) : dropSpace (s ++ c :: r) = c :: r :=
  (dropSpace_append blank _).trans (dropSpace_of_visible visible r)

theorem dropSpace_of_blank (blank : Blank s) : dropSpace s = [] := by
  rw [← List.append_nil s, dropSpace_append blank]
  rfl

theorem endsNumeral_of_blank (blank : Blank s) (ends : EndsNumeral r) : EndsNumeral (s ++ r) := by
  cases s with
  | nil => exact ends
  | cons c t =>
      refine endsNumeral_cons _ ?_
      have space := blank c List.mem_cons_self
      simp only [isSpace, Bool.or_eq_true, beq_iff_eq] at space
      rcases space with ((rfl | rfl) | rfl) | rfl <;> decide

/-! ## Literals -/

/-- What can stand between quotation marks. An escape by number can be half of a pair. -/
inductive LiteralText : List Char → Prop
  | done : LiteralText []
  | plain {c : Char} {body : List Char} (quote : c ≠ '"') (backslash : c ≠ '\\')
      (control : ¬ c < ' ') (rest : LiteralText body) : LiteralText (c :: body)
  | short {c d : Char} {body : List Char} (known : (c, d) ∈ shortEscapes)
      (rest : LiteralText body) : LiteralText ('\\' :: c :: body)
  | unit {a b c d : Char} {n : Nat} {body : List Char} (digits : unitOf? a b c d = some n)
      (rest : LiteralText body) : LiteralText ('\\' :: 'u' :: a :: b :: c :: d :: body)

/-- The text that a literal stands for. Escapes by number come in pairs where they have to. -/
inductive Unescapes : List Char → List Char → Prop
  | done : Unescapes [] []
  | plain {c : Char} {body text : List Char} (quote : c ≠ '"') (backslash : c ≠ '\\')
      (control : ¬ c < ' ') (rest : Unescapes body text) : Unescapes (c :: body) (c :: text)
  | short {c d : Char} {body text : List Char} (known : (c, d) ∈ shortEscapes)
      (rest : Unescapes body text) : Unescapes ('\\' :: c :: body) (d :: text)
  | unit {a b c d : Char} {n : Nat} {body text : List Char} (digits : unitOf? a b c d = some n)
      (high : isHighUnit n = false) (low : isLowUnit n = false) (rest : Unescapes body text) :
      Unescapes ('\\' :: 'u' :: a :: b :: c :: d :: body) (Char.ofNat n :: text)
  | pair {a b c d a' b' c' d' : Char} {n m : Nat} {body text : List Char}
      (digits : unitOf? a b c d = some n) (high : isHighUnit n = true)
      (digits' : unitOf? a' b' c' d' = some m) (low : isLowUnit m = true)
      (rest : Unescapes body text) :
      Unescapes ('\\' :: 'u' :: a :: b :: c :: d :: '\\' :: 'u' :: a' :: b' :: c' :: d' :: body)
        (joinUnits n m :: text)

theorem shortEscapes_spec : ∀ known ∈ shortEscapes,
    shortEscapes.lookup known.1 = some known.2 ∧ known.1 ≠ 'u' := by
  decide

theorem readUnit_of_digits {a b c d : Char} {n : Nat} (digits : unitOf? a b c d = some n)
    (r : List Char) : readUnit (a :: b :: c :: d :: r) = .ok (n, r) := by
  simp only [readUnit, digits]

/-- A text without quotation marks, backslashes and control characters is written as it is. -/
theorem unescapes_self (plain : s.all fun c => c != '"' && c != '\\' && !decide (c < ' ')) :
    Unescapes s s := by
  induction s with
  | nil => exact .done
  | cons c s ih =>
      simp only [List.all_cons, Bool.and_eq_true, bne_iff_ne, Bool.not_eq_true',
        decide_eq_false_iff_not] at plain
      obtain ⟨⟨⟨quote, backslash⟩, control⟩, rest⟩ := plain
      exact .plain quote backslash control (ih (by simpa using rest))

theorem skipLiteral_escape {r' : List Char} (escape : skipEscape r = .ok r') :
    skipLiteral ('\\' :: r) = skipLiteral r' := by
  rw [skipLiteral, if_neg (by decide), if_pos rfl]
  split
  · next same =>
      rw [escape] at same
      cases same
      rfl
  · next same =>
      rw [escape] at same
      cases same

theorem skipEscape_short {c d : Char} (known : (c, d) ∈ shortEscapes) (r : List Char) :
    skipEscape (c :: r) = .ok r := by
  obtain ⟨listed, other⟩ := shortEscapes_spec _ known
  unfold skipEscape
  split
  · next same => cases same
  · next same => exact absurd (List.cons.inj same).1 other
  · next same =>
      obtain ⟨rfl, rfl⟩ := List.cons.inj same
      rw [if_pos (Option.isSome_of_eq_some listed)]

theorem readEscape_short {c d : Char} (known : (c, d) ∈ shortEscapes) (r : List Char) :
    readEscape (c :: r) = .ok (d, r) := by
  obtain ⟨listed, other⟩ := shortEscapes_spec _ known
  unfold readEscape
  split
  · next same => cases same
  · next same => exact absurd (List.cons.inj same).1 other
  · next same =>
      obtain ⟨rfl, rfl⟩ := List.cons.inj same
      simp only [listed]

theorem LiteralText.skip (literal : LiteralText body) (r : List Char) :
    skipLiteral (body ++ '"' :: r) = .ok r := by
  induction literal with
  | done => rw [List.nil_append, skipLiteral, if_pos rfl]
  | plain quote backslash control _ ih =>
      rw [List.cons_append, skipLiteral, if_neg quote, if_neg backslash, if_neg control, ih]
  | @short c d body known _ ih =>
      exact (skipLiteral_escape (skipEscape_short known (body ++ '"' :: r))).trans ih
  | @unit a b c d n body digits _ ih =>
      have escape : skipEscape ('u' :: a :: b :: c :: d :: (body ++ '"' :: r)) =
          .ok (body ++ '"' :: r) := by
        rw [skipEscape, readUnit_of_digits digits]
        rfl
      exact (skipLiteral_escape escape).trans ih

theorem Unescapes.read {text : List Char} (unescapes : Unescapes body text) (read r : List Char) :
    readLiteral read (body ++ '"' :: r) = .ok (read.reverse ++ text, r) := by
  induction unescapes generalizing read with
  | done => rw [List.nil_append, readLiteral, if_pos rfl, List.append_nil]
  | plain quote backslash control _ ih =>
      rw [List.cons_append, readLiteral, if_neg quote, if_neg backslash, if_neg control, ih]
      simp
  | @short c d body text known _ ih =>
      have escape := readEscape_short known (body ++ '"' :: r)
      refine (readLiteral_escape escape).trans ?_
      rw [ih]
      simp
  | @unit a b c d n body text digits high low _ ih =>
      have escape : readEscape ('u' :: a :: b :: c :: d :: (body ++ '"' :: r)) =
          .ok (Char.ofNat n, body ++ '"' :: r) := by
        simp only [readEscape, readUnit_of_digits digits, low, high, Bool.false_eq_true, if_false]
      refine (readLiteral_escape escape).trans ?_
      rw [ih]
      simp
  | @pair a b c d a' b' c' d' n m body text digits high digits' low _ ih =>
      have not_low : isLowUnit n = false := by
        simp only [isHighUnit, isLowUnit, Bool.and_eq_true, decide_eq_true_eq,
          Bool.and_eq_false_iff, decide_eq_false_iff_not] at high ⊢
        omega
      have escape : readEscape ('u' :: a :: b :: c :: d :: '\\' :: 'u' :: a' :: b' :: c' :: d' ::
          (body ++ '"' :: r)) = .ok (joinUnits n m, body ++ '"' :: r) := by
        simp only [readEscape, readUnit_of_digits digits, not_low, high, Bool.false_eq_true,
          if_false, if_true, readLowUnit, readUnit_of_digits digits', low]
      refine (readLiteral_escape escape).trans ?_
      rw [ih]
      simp

/-! ## Numerals -/

def FractionText (s : List Char) : Prop :=
  s = [] ∨ ∃ ds, ds ≠ [] ∧ (∀ c ∈ ds, c.isDigit = true) ∧ s = '.' :: ds

def ExponentText (s : List Char) : Prop :=
  s = [] ∨ ∃ e sign ds, (e = 'e' ∨ e = 'E') ∧ (sign = [] ∨ sign = ['+'] ∨ sign = ['-']) ∧
    ds ≠ [] ∧ (∀ c ∈ ds, c.isDigit = true) ∧ s = e :: (sign ++ ds)

inductive NumeralText : List Char → Prop
  | mk {sign whole fraction exponent : List Char} (signed : sign = [] ∨ sign = ['-'])
      (digits : WholeDigits whole) (places : FractionText fraction)
      (power : ExponentText exponent) : NumeralText (sign ++ (whole ++ (fraction ++ exponent)))

/-- A text that starts neither with a digit nor with a point. -/
def EndsFraction (r : List Char) : Prop := ∀ c t, r = c :: t → c.isDigit = false ∧ c ≠ '.'

theorem ExponentText.endsFraction (power : ExponentText s) (ends : EndsNumeral r) :
    EndsFraction (s ++ r) := by
  rcases power with rfl | ⟨e, sign, ds, letter, -, -, -, rfl⟩
  · intro c t same
    exact ⟨(ends c t same).1, (ends c t same).2.1⟩
  · intro c t same
    obtain ⟨rfl, -⟩ := List.cons.inj same
    rcases letter with rfl | rfl <;> decide

theorem ExponentText.read (power : ExponentText s) (atEnd : Error) (ends : EndsNumeral r) :
    ∃ exponent, readExponent atEnd (s ++ r) = .ok (exponent, r) := by
  rcases power with rfl | ⟨e, sign, ds, letter, signed, some, digits, rfl⟩
  · exact ⟨none, readExponent_ends atEnd ends⟩
  · have read := readDigits_append atEnd some digits fun c t same => (ends c t same).1
    have split_sign : (splitSign (sign ++ (ds ++ r))).2 = ds ++ r := by
      rcases signed with rfl | rfl | rfl
      · obtain ⟨d, t, rfl⟩ := List.exists_cons_of_ne_nil some
        have digit := digits d List.mem_cons_self
        rw [List.nil_append, List.cons_append]
        unfold splitSign
        split
        · next same => cases (List.cons.inj same).1 ▸ digit
        · next same => cases (List.cons.inj same).1 ▸ digit
        · rfl
      · rfl
      · rfl
    refine ⟨.some ((splitSign (sign ++ (ds ++ r))).1, ds), ?_⟩
    rw [List.cons_append, List.append_assoc, readExponent, if_pos letter, split_sign, read]

theorem FractionText.read (places : FractionText s) (atEnd : Error) (ends : EndsFraction r) :
    ∃ fraction, readFraction atEnd (s ++ r) = .ok (fraction, r) := by
  rcases places with rfl | ⟨ds, some, digits, rfl⟩
  · refine ⟨[], ?_⟩
    rw [List.nil_append]
    unfold readFraction
    split
    · next t => exact absurd rfl (ends '.' t rfl).2
    · rfl
  · exact ⟨ds, readDigits_append atEnd some digits fun c t same => (ends c t same).1⟩

theorem FractionText.stops (places : FractionText s) (ends : EndsFraction r) :
    ∀ c t, s ++ r = c :: t → c.isDigit = false := by
  rcases places with rfl | ⟨ds, -, -, rfl⟩
  · exact fun c t same => (ends c t same).1
  · intro c t same
    obtain ⟨rfl, -⟩ := List.cons.inj same
    rfl

theorem NumeralText.starts (numeral : NumeralText w) :
    ∃ c t, w = c :: t ∧ (c = '-' ∨ c.isDigit = true) := by
  obtain ⟨signed, digits, -, -⟩ := numeral
  rcases signed with rfl | rfl
  · obtain ⟨d, ds, rfl⟩ := List.exists_cons_of_ne_nil digits.some
    exact ⟨d, _, rfl, .inr (digits.digits d List.mem_cons_self)⟩
  · exact ⟨'-', _, rfl, .inl rfl⟩

theorem NumeralText.read (numeral : NumeralText w) (atEnd : Error) (ends : EndsNumeral r) :
    ∃ n, readNumeral atEnd (w ++ r) = .ok (n, r) := by
  obtain @⟨sign, whole, fraction, exponent, signed, digits, places, power⟩ := numeral
  have ends_fraction := power.endsFraction ends
  obtain ⟨f, fraction_read⟩ := places.read atEnd ends_fraction
  obtain ⟨e, exponent_read⟩ := power.read atEnd ends
  have whole_read := digits.read atEnd (places.stops ends_fraction)
  have minus : (splitMinus (sign ++ (whole ++ (fraction ++ (exponent ++ r))))).2 =
      whole ++ (fraction ++ (exponent ++ r)) := by
    rcases signed with rfl | rfl
    · obtain ⟨d, ds, rfl⟩ := List.exists_cons_of_ne_nil digits.some
      have digit := digits.digits d List.mem_cons_self
      rw [List.nil_append, List.cons_append]
      unfold splitMinus
      split
      · next same => cases (List.cons.inj same).1 ▸ digit
      · rfl
    · rfl
  simp only [List.append_assoc, readNumeral, minus, whole_read, fraction_read, exponent_read, bind,
    Except.bind]
  exact ⟨_, rfl⟩

/-! ## Scalars -/

/-- A value without brackets. -/
inductive ScalarText : List Char → Prop
  | null : ScalarText ['n', 'u', 'l', 'l']
  | boolean (b : Bool) : ScalarText (writeBool b)
  | numeral {w : List Char} (numeral : NumeralText w) : ScalarText w
  | literal {body : List Char} (literal : LiteralText body) : ScalarText ('"' :: (body ++ ['"']))

theorem skipScalar_numeral {c : Char} (start : c = '-' ∨ c.isDigit = true) (t : List Char) :
    skipScalar (c :: t) = (readNumeral .malformed (c :: t)).map Prod.snd := by
  have other := fun d : Char => ne_of_starts_numeral (d := d) start
  unfold skipScalar
  split
  · next same => cases same
  · next same => exact absurd (List.cons.inj same).1 (other '"' (by decide) (by decide))
  · next same => exact absurd (List.cons.inj same).1 (other 'n' (by decide) (by decide))
  · next same => exact absurd (List.cons.inj same).1 (other 't' (by decide) (by decide))
  · next same => exact absurd (List.cons.inj same).1 (other 'f' (by decide) (by decide))
  · next same =>
      obtain ⟨rfl, rfl⟩ := List.cons.inj same
      rw [if_pos start]

theorem ScalarText.starts (scalar : ScalarText w) :
    ∃ c t, w = c :: t ∧ isSpace c = false ∧ c ≠ ']' ∧ c ≠ '[' ∧ c ≠ '{' := by
  cases scalar with
  | null => exact ⟨'n', _, rfl, by decide⟩
  | boolean b => cases b <;> exact ⟨_, _, rfl, by decide⟩
  | numeral numeral =>
      obtain ⟨c, t, rfl, start⟩ := numeral.starts
      have other := fun d : Char => ne_of_starts_numeral (d := d) start
      exact ⟨c, t, rfl, visible_of_starts_numeral start, other ']' (by decide) (by decide),
        other '[' (by decide) (by decide), other '{' (by decide) (by decide)⟩
  | literal => exact ⟨'"', _, rfl, by decide⟩

theorem ScalarText.skip (scalar : ScalarText w) (ends : EndsNumeral r) :
    skipScalar (w ++ r) = .ok r := by
  cases scalar with
  | null => rfl
  | boolean b => cases b <;> rfl
  | numeral numeral =>
      obtain ⟨n, read⟩ := numeral.read .malformed ends
      obtain ⟨c, t, rfl, start⟩ := numeral.starts
      rw [List.cons_append] at read ⊢
      rw [skipScalar_numeral start, read]
      rfl
  | literal literal =>
      rw [List.cons_append, List.append_assoc, List.singleton_append, skipScalar, literal.skip]

/-! ## Values -/

def Bracket.opening : Bracket → Char
  | .list => '['
  | .object => '{'

/-- What stands before a value in a bracket: nothing in a list, a key and a colon in an object. -/
def KeyText : Bracket → List Char → Prop
  | .list, s => s = []
  | .object, s => ∃ before body after, Blank before ∧ LiteralText body ∧ Blank after ∧
      s = before ++ '"' :: (body ++ '"' :: (after ++ [':']))

/-- A value, or what comes inside a bracket up to its end. -/
inductive Part where
  | value
  | inside (b : Bracket) (first : Bool)

/-- The texts of values, to any depth. -/
inductive Forms : Part → List Char → Prop
  | scalar {w : List Char} (scalar : ScalarText w) : Forms .value w
  | bracket {b : Bracket} {rest : List Char} (inside : Forms (.inside b true) rest) :
      Forms .value (b.opening :: rest)
  | close {b : Bracket} {first : Bool} {space : List Char} (blank : Blank space) :
      Forms (.inside b first) (space ++ [b.closing])
  | item {b : Bracket} {first : Bool} {space key before w rest : List Char} (blank : Blank space)
      (keyed : KeyText b key) (blank' : Blank before) (value : Forms .value w)
      (later : Forms (.inside b false) rest) :
      Forms (.inside b first) (space ++ (lead first ++ (key ++ (before ++ (w ++ rest)))))

theorem forms_writeInt (i : Int) : Forms .value (writeInt i) := by
  have numeral : ∀ {sign : List Char} (n : Nat), sign = [] ∨ sign = ['-'] →
      Forms .value (sign ++ writeNat n) := by
    intro sign n signed
    have text := NumeralText.mk signed (wholeDigits_writeNat n) (.inl rfl) (.inl rfl)
    rw [List.append_nil, List.append_nil] at text
    exact .scalar (.numeral text)
  cases i with
  | ofNat n => exact numeral n (.inl rfl)
  | negSucc n => exact numeral (n + 1) (.inr rfl)

theorem Forms.starts (forms : Forms .value w) :
    ∃ c t, w = c :: t ∧ isSpace c = false ∧ c ≠ ']' := by
  cases forms with
  | scalar scalar =>
      obtain ⟨c, t, front, visible, other, -⟩ := scalar.starts
      exact ⟨c, t, front, visible, other⟩
  | @bracket b rest => cases b <;> exact ⟨_, _, rfl, by decide⟩

theorem Forms.endsNumeral {b : Bracket} (forms : Forms (.inside b false) w) (r : List Char) :
    EndsNumeral (w ++ r) := by
  cases forms with
  | close blank =>
      rw [List.append_assoc]
      exact endsNumeral_of_blank blank (endsNumeral_cons r (by cases b <;> decide))
  | item blank =>
      rw [List.append_assoc]
      exact endsNumeral_of_blank blank (endsNumeral_cons _ (by decide))

/-! ## Skipping -/

theorem readColon_of_blank (blank : Blank s) (r : List Char) :
    readColon (s ++ ':' :: r) = .ok r := by
  simp only [readColon, dropSpace_append_cons blank (c := ':') rfl, if_true]

section Steps

variable {stack : List Bracket} {b : Bracket} {c : Char} {place : Place}

theorem skipFrom_value_eq (stack : List Bracket) (s : List Char) :
    skipFrom .value stack s =
      match dropSpace s with
      | [] => .error .truncated
      | c :: r =>
          if c = '[' then skipFrom .opened (.list :: stack) r
          else if c = '{' then skipFrom .opened (.object :: stack) r
          else (skipScalar (c :: r)).bind (skipFrom .after stack) := by
  rw [skipFrom]
  split
  next empty => rw [empty]
  next c r next =>
    rw [next]
    dsimp only
    split
    · rfl
    split
    · rfl
    split
    next skipped => rw [skipped]; rfl
    next failed => rw [failed]; rfl

theorem skipFrom_inside_eq (place : Place) (inside : place ≠ .value) (b : Bracket)
    (stack : List Bracket) (s : List Char) :
    skipFrom place (b :: stack) s =
      match dropSpace s with
      | [] => .error .truncated
      | c :: r =>
          if c = b.closing then skipFrom .after stack r
          else if place = .opened then (skipKey b (c :: r)).bind (skipFrom .value (b :: stack))
          else if c = ',' then (skipKey b r).bind (skipFrom .value (b :: stack))
          else .error .malformed := by
  rw [skipFrom]
  · split
    next empty => rw [empty]
    next c r next =>
      rw [next]
      dsimp only
      split
      · rfl
      split
      · split
        next keyed => rw [keyed]; rfl
        next failed => rw [failed]; rfl
      split
      · split
        next keyed => rw [keyed]; rfl
        next failed => rw [failed]; rfl
      · rfl
  · exact inside

theorem skipFrom_scalar (next : dropSpace s = c :: w) (list : c ≠ '[') (object : c ≠ '{')
    (skipped : skipScalar (c :: w) = .ok r) :
    skipFrom .value stack s = skipFrom .after stack r := by
  rw [skipFrom_value_eq, next]
  dsimp only
  rw [if_neg list, if_neg object, skipped]
  rfl

theorem skipFrom_opening (next : dropSpace s = b.opening :: r) :
    skipFrom .value stack s = skipFrom .opened (b :: stack) r := by
  rw [skipFrom_value_eq, next]
  cases b <;> rfl

theorem skipFrom_closing (inside : place ≠ .value) (next : dropSpace s = b.closing :: r) :
    skipFrom place (b :: stack) s = skipFrom .after stack r := by
  rw [skipFrom_inside_eq place inside, next]
  exact if_pos rfl

theorem skipFrom_first (next : dropSpace s = c :: w) (still_open : c ≠ b.closing)
    (keyed : skipKey b (c :: w) = .ok r) :
    skipFrom .opened (b :: stack) s = skipFrom .value (b :: stack) r := by
  rw [skipFrom_inside_eq .opened (by decide), next]
  dsimp only
  rw [if_neg still_open, if_pos rfl, keyed]
  rfl

theorem skipFrom_later (next : dropSpace s = ',' :: w) (keyed : skipKey b w = .ok r) :
    skipFrom .after (b :: stack) s = skipFrom .value (b :: stack) r := by
  have still_open : ',' ≠ b.closing := by cases b <;> decide
  rw [skipFrom_inside_eq .after (by decide), next]
  dsimp only
  rw [if_neg still_open, if_neg (by decide), if_pos rfl, keyed]
  rfl

/-- The blanks before a value are skipped with it. -/
theorem skipFrom_blank (blank : Blank s) (stack : List Bracket) (r : List Char) :
    skipFrom .value stack (s ++ r) = skipFrom .value stack r := by
  rw [skipFrom_value_eq, skipFrom_value_eq, dropSpace_append blank]

end Steps

/-- Once its key is read, an item of a bracket goes on with its value. -/
theorem skipKey_key {b : Bracket} {key : List Char} (keyed : KeyText b key) (r : List Char) :
    skipKey b (key ++ r) = .ok r := by
  cases b with
  | list =>
      obtain rfl : key = [] := keyed
      rfl
  | object =>
      obtain ⟨before, body, after, blank, literal, blank', rfl⟩ := keyed
      have next : dropSpace (before ++ '"' :: (body ++ '"' :: (after ++ ':' :: r))) =
          '"' :: (body ++ '"' :: (after ++ ':' :: r)) := dropSpace_append_cons blank rfl _
      simp only [List.append_assoc, List.cons_append, List.nil_append, skipKey, next, if_true,
        literal.skip, Except.bind, readColon_of_blank blank']

/-- Where a bracket has just been opened, an item shows that it is not closed at once. -/
theorem skipFrom_first_item {b : Bracket} {space key before value : List Char} (blank : Blank space)
    (keyed : KeyText b key) (blank' : Blank before)
    (starts : ∃ c t, value = c :: t ∧ isSpace c = false ∧ c ≠ ']') (stack : List Bracket)
    (r : List Char) :
    skipFrom .opened (b :: stack) (space ++ (key ++ (before ++ (value ++ r)))) =
      skipFrom .value (b :: stack) (value ++ r) := by
  cases b with
  | list =>
      obtain rfl : key = [] := keyed
      obtain ⟨c, t, rfl, visible, other⟩ := starts
      refine skipFrom_first ?_ other rfl
      rw [List.nil_append, dropSpace_append blank, List.cons_append,
        dropSpace_append_cons blank' visible]
      rfl
  | object =>
      have read := skipKey_key keyed (before ++ (value ++ r))
      obtain ⟨space', body, after, blank_key, literal, blank_after, rfl⟩ := keyed
      rw [← skipFrom_blank blank' _ (value ++ r)]
      simp only [List.append_assoc, List.cons_append, List.nil_append] at read ⊢
      have next := dropSpace_append_cons blank_key (c := '"') rfl
        (body ++ '"' :: (after ++ ':' :: (before ++ (value ++ r))))
      refine skipFrom_first ((dropSpace_append blank _).trans next) (by decide) ?_
      rw [skipKey, next] at read
      rwa [skipKey, dropSpace_of_visible rfl]

/-- What it is to skip a value or the rest of a bracket. -/
def Skips : Part → List Char → Prop
  | .value, w => ∀ stack r, EndsNumeral r →
      skipFrom .value stack (w ++ r) = skipFrom .after stack r
  | .inside b first, w => ∀ stack r,
      skipFrom (if first then .opened else .after) (b :: stack) (w ++ r) = skipFrom .after stack r

theorem Forms.skips {part : Part} (forms : Forms part w) : Skips part w := by
  induction forms with
  | scalar scalar =>
      intro stack r ends
      have skipped := scalar.skip ends
      obtain ⟨c, t, rfl, visible, -, list, object⟩ := scalar.starts
      exact skipFrom_scalar (dropSpace_of_visible visible _) list object skipped
  | @bracket b rest _ inside =>
      intro stack r _
      have next : dropSpace (b.opening :: (rest ++ r)) = b.opening :: (rest ++ r) :=
        dropSpace_of_visible (by cases b <;> rfl) _
      exact (skipFrom_opening next).trans (inside stack r)
  | @close b first space blank =>
      intro stack r
      rw [List.append_assoc]
      exact skipFrom_closing (by cases first <;> decide)
        (dropSpace_append_cons blank (by cases b <;> rfl) _)
  | @item b first space key before w rest blank keyed blank' value later value_skipped
      later_skipped =>
      intro stack r
      have ends := later.endsNumeral r
      simp only [List.append_assoc]
      refine Eq.trans ?_ ((value_skipped (b :: stack) _ ends).trans (later_skipped stack r))
      cases first with
      | true => exact skipFrom_first_item blank keyed blank' value.starts stack _
      | false =>
          have comma := dropSpace_append_cons blank (c := ',') rfl
            (key ++ (before ++ (w ++ (rest ++ r))))
          exact (skipFrom_later comma (skipKey_key keyed _)).trans (skipFrom_blank blank' _ _)

theorem Forms.skipValue (forms : Forms .value w) (blank : Blank s) (ends : EndsNumeral r) :
    skipValue (s ++ (w ++ r)) = .ok r := by
  have inside : Place.after ≠ .value := by decide
  rw [Json.skipValue, skipFrom_blank blank, forms.skips [] r ends, skipFrom]
  exact inside

end Provenance.Json
