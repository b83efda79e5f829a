import ChainGrammar.Proofs.Expression.Exactness

/-!
# Joining two expressions

Two expressions behind each other are one expression, if a dot stands between them, and it denotes the calls of
the first and then those of the second (`readChars_join`).  The second one may bring the dot along
(`joint`).  Nothing that the grammar derives has to be read again: blanks behind the first expression
and in front of the second go to the separator or to the call behind it.
-/

set_option autoImplicit false

namespace ChainGrammar.Expression

/-- What has to be put in front of an expression that continues another one: a dot, unless one is there. -/
def joint (behind : String) : String :=
  if (skipBlanks behind.toList).head? = some '.' then "" else "."

theorem joint_dot {behind : String} {rest : List Char} (dot : skipBlanks behind.toList = '.' :: rest) :
    joint behind = "" := by
  rw [joint, dot, List.head?_cons, if_pos rfl]

theorem joint_other {behind : String} (other : ∀ rest, skipBlanks behind.toList ≠ '.' :: rest) :
    joint behind = "." := by
  refine if_neg fun hdot => ?_
  obtain ⟨rest, hrest⟩ := List.head?_eq_some_iff.1 hdot
  exact other rest hrest

/-- Blanks behind blanks are blanks. -/
theorem Blanks.append {first second : List Char} (h₁ : Blanks first) (h₂ : Blanks second) :
    Blanks (first ++ second) := by
  intro c hc
  rcases List.mem_append.1 hc with hc | hc
  · exact h₁ c hc
  · exact h₂ c hc

/-- Blanks in front of a call belong to it. -/
theorem Written.blanks_append {blanks text : List Char} {call : Call} (all : Blanks blanks)
    (h : Written text call) : Written (blanks ++ text) call := by
  cases h with
  | @intro before name between inside behind values first named second arguments third =>
    have h := Written.intro (all.append first) named second arguments third
    simpa only [List.append_assoc] using h

/-- Blanks in front of joined calls belong to the first of them. -/
theorem Joined.blanks_append {blanks joined : List Char} {calls : List Call} (all : Blanks blanks)
    (h : Joined joined calls) : Joined (blanks ++ joined) calls := by
  cases h with
  | single written => exact .single (written.blanks_append all)
  | @cons text between rest first others written betweenAll chain =>
    have h := Joined.cons (written.blanks_append all) betweenAll chain
    simpa only [List.append_assoc] using h

/-- Joined calls are joined to others by a dot. -/
theorem Joined.append {joined between others : List Char} {calls more : List Call}
    (h₁ : Joined joined calls) (all : Blanks between) (h₂ : Joined others more) :
    Joined (joined ++ between ++ '.' :: others) (calls ++ more) := by
  induction h₁ with
  | single written => exact .cons written all h₂
  | @cons text blanks rest first calls written blanksAll chain ih =>
    have h := Joined.cons written blanksAll ih
    simpa only [List.append_assoc, List.cons_append] using h

/-- Two expressions with a joint between them denote the calls of the first and then those of the second. -/
theorem Denotes.append {first second : String} {calls others : List Call}
    (h₁ : Denotes first.toList calls) (h₂ : Denotes second.toList others) :
    Denotes (first ++ joint second ++ second).toList (calls ++ others) := by
  rw [String.toList_append, String.toList_append]
  generalize first.toList = text at h₁
  generalize hsecond : second.toList = text' at h₂
  cases h₁ with
  | intro front chain behindAll =>
    cases h₂ with
    | @intro _ joined' behind' _ front' chain' behindAll' =>
      cases front' with
      | blanks all =>
        -- no dot is there, so one is put in, and the blanks behind it belong to the call that follows
        have hother : ∀ rest, skipBlanks second.toList ≠ '.' :: rest := by
          rw [hsecond, List.append_assoc, skipBlanks_blanks all]
          exact chain'.no_dot behind'
        have h := Denotes.intro front (chain.append behindAll (chain'.blanks_append all)) behindAll'
        rw [joint_other hother]
        simpa [List.append_assoc] using h
      | @dot blanks all =>
        have hdot : skipBlanks second.toList = '.' :: (joined' ++ behind') := by
          rw [hsecond, List.append_assoc, List.append_assoc]
          exact skipBlanks_append all (stopsAt_cons (by decide))
        have h := Denotes.intro front (chain.append (behindAll.append all) chain') behindAll'
        rw [joint_dot hdot]
        simpa [List.append_assoc] using h

/-- What is read of an expression is what is read of its characters. -/
theorem read_ok_iff_readChars (input : String) (calls : List Call) :
    read input = .ok calls ↔ readChars input.toList = .ok calls := by
  unfold read
  dsimp only
  split
  · rename_i hchars
    rw [hchars]
    simp only [Except.ok.injEq]
  · rename_i hchars
    rw [hchars]
    simp only [reduceCtorEq]

/-- An expression that is read denotes what is read. -/
theorem denotes_of_read {input : String} {calls : List Call} (h : read input = .ok calls) :
    Denotes input.toList calls :=
  denotes_of_readChars ((read_ok_iff_readChars input calls).1 h)

/-- Two expressions with a joint between them are read as the calls of the first and then those of the
second. -/
theorem read_join {first second : String} {calls others : List Call} (h₁ : read first = .ok calls)
    (h₂ : read second = .ok others) : read (first ++ joint second ++ second) = .ok (calls ++ others) :=
  (read_ok_iff_readChars _ _).2
    (readChars_of_denotes ((denotes_of_read h₁).append (denotes_of_read h₂)))

end ChainGrammar.Expression
