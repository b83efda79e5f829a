import ChainGrammar.Proofs.Expression.Exactness
import ChainGrammar.Proofs.Numeral.RoundTrip
import ChainGrammar.Proofs.Text.Quoted

/-!
# Values that survive being written and read

The text of a value is a literal of that value for every whole number, every truth value, every finite
floating-point number whose text has a point, and every text whose characters are all kept
(`literal_of_survives`).  No other value comes back: whatever is read where its text stands is of
another kind, or another text (`survives_of_argument`).

The second half asks for less than equality.  A float without a point is not read as a float
at all, so it is lost under any notion of sameness that tells the kinds of values apart
(`Value.Alike`).
-/

set_option autoImplicit false

namespace ChainGrammar

/-- A value that is read back from its text. -/
def Value.Survives : Value → Prop
  | .int _ => True
  | .float x => x.isFinite = true ∧ '.' ∈ x.chars
  | .bool _ => True
  | .string s => ∀ c ∈ s.toList, Text.Kept c

instance : DecidablePred Value.Survives
  | .int _ => inferInstanceAs (Decidable True)
  | .float x => inferInstanceAs (Decidable (x.isFinite = true ∧ '.' ∈ x.chars))
  | .bool _ => inferInstanceAs (Decidable True)
  | .string s => List.decidableBAll Text.Kept s.toList

/-- Values of the same kind, and the same texts. -/
def Value.Alike : Value → Value → Prop
  | .int _, .int _ => True
  | .float _, .float _ => True
  | .bool _, .bool _ => True
  | .string s, .string t => s = t
  | _, _ => False

theorem Value.Alike.refl (value : Value) : value.Alike value := by
  cases value <;> trivial

theorem Value.Alike.of_equals {first second : Value} (h : first.equals second = true) :
    first.Alike second := by
  cases first <;> cases second <;> first | trivial | exact eq_of_beq h

/-- A value that survives is equal to itself. -/
theorem Value.equals_self {value : Value} (survives : value.Survives) :
    value.equals value = true := by
  cases value with
  | int n => exact beq_self_eq_true n
  | bool b => exact beq_self_eq_true b
  | string s => exact beq_self_eq_true s
  | float x => simp [Value.equals, Binary64.numEq, Binary64.isNaN_eq_false survives.1]

namespace Expression

/-! ## The literals of surviving values -/

/-- The text of a whole number is a literal of it. -/
theorem literal_intChars (n : Int64) : Literal (Value.intChars n.toInt) (.int n) := by
  have low := n.le_toInt
  have high := n.toInt_lt
  have hbound : wholeBound = 2 ^ 63 := rfl
  have habs := Decimal.number_digits n.toInt.natAbs
  have run := Decimal.digits_run n.toInt.natAbs
  unfold Value.intChars
  split_ifs with negative
  · have value : Int64.ofInt (-(number (Decimal.digits n.toInt.natAbs) : Int)) = n := by
      rw [habs, show -(n.toInt.natAbs : Int) = n.toInt by omega, Int64.ofInt_toInt]
    have := Literal.negativeInt run (by omega)
    rwa [value] at this
  · by_cases zero : n.toInt = 0
    · obtain rfl : n = 0 := Int64.toInt_inj.1 zero
      exact .zero
    · have value : Int64.ofInt (number (Decimal.digits n.toInt.natAbs) : Int) = n := by
        rw [habs, show (n.toInt.natAbs : Int) = n.toInt by omega, Int64.ofInt_toInt]
      have := Literal.int (.inl rfl) run (Decimal.head?_digits (by omega)) (by omega)
      rwa [value] at this

/-- The text of a finite floating-point number is a literal of it if it has a point. -/
theorem literal_float {x : Binary64} (finite : x.isFinite = true) (point : '.' ∈ x.chars) :
    Literal x.chars (.float x) := by
  unfold Binary64.chars at point ⊢
  rw [if_neg (by simp [Binary64.isNaN_eq_false finite])] at point ⊢
  split_ifs at point ⊢ with negative
  · have inside : '.' ∈ x.magnitudeChars := by simpa using point
    obtain ⟨whole, fraction, text, before, behind, value⟩ := Binary64.exists_pointed finite inside
    have run : Digits (whole ++ fraction) := by
      refine ⟨fun h => before.1 (List.append_eq_nil_iff.1 h).1, fun c hc => ?_⟩
      exact (List.mem_append.1 hc).elim (before.2 c) (behind.2 c)
    have := Literal.negativeFloat run
    rw [← negative, value] at this
    rwa [text]
  · obtain ⟨whole, fraction, text, before, behind, value⟩ := Binary64.exists_pointed finite point
    have := Literal.float before behind
    rw [← Bool.eq_false_of_not_eq_true negative, value] at this
    rwa [text]

/-- A text in quotes is a literal of what is read for its characters. -/
theorem literal_quotedChars (text : List Char) :
    Literal (Text.quotedChars text) (.string (String.ofList (text.flatMap Text.reread))) :=
  .text (.inl rfl) (Text.quoted_flatMap text)

/-- The text of a value that survives is a literal of that value. -/
theorem literal_of_survives {value : Value} (survives : value.Survives) :
    Literal value.chars value := by
  cases value with
  | int n => exact literal_intChars n
  | float x => exact literal_float survives.1 survives.2
  | bool b => cases b with
    | true => exact .yes
    | false => exact .no
  | string s =>
    have := literal_quotedChars s.toList
    rwa [(Text.flatMap_reread_eq_iff s.toList).2 survives, String.ofList_toList] at this

/-! ## Values that are lost -/

/-- What stands behind an argument in the text of a call: a comma or the closing parenthesis. -/
def Behind (rest : List Char) : Prop := ∃ mark cs, rest = mark :: cs ∧ (mark = ',' ∨ mark = ')')

theorem Behind.endsNumber {rest : List Char} (h : Behind rest) : EndsNumber rest := by
  obtain ⟨mark, cs, rfl, rfl | rfl⟩ := h <;> exact stopsAt_cons (by decide)

/-- Characters of a kind that has neither the comma nor the parenthesis end no argument. -/
theorem ne_of_kind {kind : Char → Bool} {c : Char} (comma : kind ',' = false)
    (closing : kind ')' = false) (h : kind c = true) : c ≠ ',' ∧ c ≠ ')' := by
  constructor
  · rintro rfl
    rw [comma] at h
    cases h
  · rintro rfl
    rw [closing] at h
    cases h

/-- A literal of a float has a point, and no character that ends an argument. -/
theorem of_literal_float {lit : List Char} {x : Binary64} (written : Literal lit (.float x)) :
    '.' ∈ lit ∧ ∀ c ∈ lit, c ≠ ',' ∧ c ≠ ')' := by
  have digit : ∀ {c : Char}, c.isDigit = true → c ≠ ',' ∧ c ≠ ')' := ne_of_kind rfl rfl
  have pointed : ∀ {whole fraction : List Char}, (∀ c ∈ whole, c.isDigit = true) →
      (∀ c ∈ fraction, c.isDigit = true) →
      ∀ c ∈ whole ++ '.' :: fraction, c ≠ ',' ∧ c ≠ ')' := fun before behind =>
    List.forall_mem_append.2 ⟨fun c hc => digit (before c hc),
      List.forall_mem_cons.2 ⟨by decide, fun c hc => digit (behind c hc)⟩⟩
  cases written with
  | negativeFloat digits =>
    have all := List.forall_mem_append.1 digits.2
    exact ⟨by simp, List.forall_mem_cons.2 ⟨by decide, pointed all.1 all.2⟩⟩
  | float before behind => exact ⟨by simp, pointed before.2 behind.2⟩

/-- Of two beginnings of a text, one without commas and parentheses ends no later than one that has such a
mark behind it, so its characters are among those of the other. -/
theorem mem_of_append_eq {first second left rest : List Char} {c : Char}
    (same : first ++ left = second ++ rest) (behind : Behind rest) (mem : c ∈ first)
    (free : ∀ d ∈ first, d ≠ ',' ∧ d ≠ ')') : c ∈ second := by
  rcases List.append_eq_append_iff.1 same with ⟨more, rfl, -⟩ | ⟨more, rfl, hrest⟩
  · exact List.mem_append_left more mem
  · obtain ⟨mark, cs, rfl, hmark⟩ := behind
    cases more with
    | nil => simpa using mem
    | cons d more =>
      obtain ⟨rfl, -⟩ := List.cons.inj hrest
      have := free mark (by simp)
      exact (hmark.elim this.1 this.2).elim

/-- A floating-point number whose text has a point is finite. -/
theorem isFinite_of_point {x : Binary64} (point : '.' ∈ x.chars) : x.isFinite = true := by
  refine Decidable.byContradiction fun infinite => ?_
  unfold Binary64.chars Binary64.magnitudeChars at point
  rw [if_neg infinite] at point
  split_ifs at point <;> exact absurd point (by decide)

/-- A value whose text is read as an argument of its kind, and as the same text, survives. -/
theorem survives_of_argument {value read : Value} {blanks rest left : List Char} (all : Blanks blanks)
    (behind : Behind rest) (h : argument (blanks ++ value.chars ++ rest) = .ok (some (read, left)))
    (alike : read.Alike value) : value.Survives := by
  cases value with
  | int n => trivial
  | bool b => trivial
  | string s =>
    have hread := argument_complete all (literal_quotedChars s.toList) behind.endsNumber
    obtain ⟨rfl, rfl⟩ := Prod.mk.inj (Option.some.inj (Except.ok.inj (hread.symm.trans h)))
    have same : String.ofList (s.toList.flatMap Text.reread) = s := alike
    refine (Text.flatMap_reread_eq_iff s.toList).1 ?_
    rw [← String.toList_ofList (l := s.toList.flatMap Text.reread), same]
  | float x =>
    have blank : ∀ {c : Char}, isBlank c = true → c ≠ ',' ∧ c ≠ ')' := ne_of_kind rfl rfl
    cases read with
    | float y =>
      obtain ⟨front, lit, same, frontAll, written⟩ := argument_sound h
      obtain ⟨point, free⟩ := of_literal_float written
      have freeAll : ∀ c ∈ front ++ lit, c ≠ ',' ∧ c ≠ ')' :=
        List.forall_mem_append.2 ⟨fun c hc => blank (frontAll c hc), free⟩
      have inside : '.' ∈ blanks ++ x.chars :=
        mem_of_append_eq same.symm behind (List.mem_append_right front point) freeAll
      have point : '.' ∈ x.chars :=
        (List.mem_append.1 inside).resolve_left fun h => absurd (all '.' h) (by decide)
      exact ⟨isFinite_of_point point, point⟩
    | int => cases alike
    | bool => cases alike
    | string => cases alike

/-- An argument that comes back alike survives, and what is left is what stands behind it. -/
theorem argument_alike {value read : Value} {blanks rest left : List Char} (all : Blanks blanks)
    (behind : Behind rest) (h : argument (blanks ++ value.chars ++ rest) = .ok (some (read, left)))
    (alike : read.Alike value) : value.Survives ∧ left = rest := by
  have survives := survives_of_argument all behind h alike
  have whole := argument_complete all (literal_of_survives survives) behind.endsNumber
  obtain ⟨-, rfl⟩ := Prod.mk.inj (Option.some.inj (Except.ok.inj (h.symm.trans whole)))
  exact ⟨survives, rfl⟩

end Expression

end ChainGrammar
