import ChainGrammar.Expression.Grammar
import Mathlib.Tactic.SplitIfs

/-!
# Reading quoted text

Texts are written with more escapes than are read: the reader knows those for the double quote, the
backslash, the newline and the tab, and leaves every other pair as it stands.  So what is read for
a quoted text is put together character by character (`quoted_flatMap`), a character that is
kept comes back alone and every other one comes back as two characters or more.  A quoted text is
therefore read as itself exactly if all of its characters are kept (`flatMap_reread_eq_iff`).
-/

set_option autoImplicit false

namespace ChainGrammar.Text

open Expression (Quoted decodePair)

/-- A character that is written as itself, or with an escape that is read. -/
def Kept (c : Char) : Prop := escape c = [c] ∨ c = '"' ∨ c = '\\' ∨ c = '\n' ∨ c = '\t'

instance : DecidablePred Kept := fun c =>
  inferInstanceAs (Decidable (escape c = [c] ∨ c = '"' ∨ c = '\\' ∨ c = '\n' ∨ c = '\t'))

/-- What is read for one character of a quoted text: an escape of more than one character begins with
a backslash. -/
def reread (c : Char) : List Char :=
  match escape c with
  | _ :: d :: rest => decodePair d ++ rest
  | plain => plain

/-! ## The shape of an escape -/

/-- A hexadecimal digit is neither a quote nor a backslash. -/
theorem of_mem_toDigits {n : Nat} {c : Char} (h : c ∈ Nat.toDigits 16 n) : c ≠ '"' ∧ c ≠ '\\' := by
  have digit : ∀ d < 16, d.digitChar ≠ '"' ∧ d.digitChar ≠ '\\' := by decide
  induction n using Nat.strongRecOn with
  | ind n ih =>
    by_cases small : n < 16
    · rw [Nat.toDigits_of_lt_base small] at h
      obtain rfl := List.mem_singleton.1 h
      exact digit n small
    · rw [Nat.toDigits_of_base_le (by decide) (by omega)] at h
      rcases List.mem_append.1 h with h | h
      · exact ih (n / 16) (by omega) h
      · obtain rfl := List.mem_singleton.1 h
        exact digit (n % 16) (Nat.mod_lt n (by decide))

/-- An escape is the character itself or a pair that begins with a backslash; behind the pair stand
neither quotes nor backslashes. -/
theorem escape_cases (c : Char) :
    (escape c = [c] ∧ c ≠ '"' ∧ c ≠ '\\') ∨
      ∃ d rest, escape c = '\\' :: d :: rest ∧ ∀ e ∈ rest, e ≠ '"' ∧ e ≠ '\\' := by
  have pair : ∀ d, ∃ d' rest, ['\\', d] = '\\' :: d' :: rest ∧
      ∀ e ∈ rest, e ≠ '"' ∧ e ≠ '\\' := fun d => ⟨d, [], rfl, fun e he => absurd he List.not_mem_nil⟩
  unfold escape
  split_ifs with null tab newline return_ mark hidden
  · exact .inr (pair '0')
  · exact .inr (pair 't')
  · exact .inr (pair 'n')
  · exact .inr (pair 'r')
  · exact .inr (pair c)
  · refine .inr ⟨'u', '\x7b' :: Nat.toDigits 16 c.toNat ++ ['\x7d'], rfl, fun e he => ?_⟩
    rcases List.mem_append.1 he with he | he
    · rcases List.mem_cons.1 he with rfl | he
      · decide
      · exact of_mem_toDigits he
    · obtain rfl := List.mem_singleton.1 he
      decide
  · exact .inl ⟨rfl, not_or.1 mark⟩

/-! ## What is read for it -/

/-- Plain characters between quotes denote themselves. -/
theorem quoted_plain {plain cs text : List Char} (all : ∀ e ∈ plain, e ≠ '"' ∧ e ≠ '\\')
    (rest : Quoted '"' cs text) : Quoted '"' (plain ++ cs) (plain ++ text) := by
  induction plain with
  | nil => exact rest
  | cons e plain ih =>
    have first := all e List.mem_cons_self
    exact .char first.1 first.2 (ih fun e' he' => all e' (List.mem_cons_of_mem e he'))

/-- A written text stands between quotes and denotes what is read for its characters. -/
theorem quoted_flatMap (text : List Char) : Quoted '"' (text.flatMap escape) (text.flatMap reread) := by
  induction text with
  | nil => exact .nil
  | cons c text ih =>
    rw [List.flatMap_cons, List.flatMap_cons, reread]
    rcases escape_cases c with ⟨itself, noQuote, noBackslash⟩ | ⟨d, rest, pair, plain⟩
    · rw [itself]
      exact .char noQuote noBackslash ih
    · rw [pair]
      have := Quoted.pair (c := d) (quoted_plain plain ih)
      rwa [← List.append_assoc] at this

/-- A character that is kept is read as itself. -/
theorem reread_of_kept {c : Char} (kept : Kept c) : reread c = [c] := by
  rcases kept with itself | rfl | rfl | rfl | rfl
  · rw [reread, itself]
  all_goals rfl

/-- For any other character more than one is read. -/
theorem one_lt_length_reread {c : Char} (lost : ¬Kept c) : 1 < (reread c).length := by
  obtain ⟨notItself, notQuote, notBackslash, notNewline, notTab⟩ :
      escape c ≠ [c] ∧ c ≠ '"' ∧ c ≠ '\\' ∧ c ≠ '\n' ∧ c ≠ '\t' := by
    simpa only [Kept, not_or] using lost
  unfold reread
  unfold escape at notItself ⊢
  rw [if_neg notTab, if_neg notNewline, if_neg (not_or.2 ⟨notQuote, notBackslash⟩)] at *
  split_ifs at notItself ⊢ with null return_ hidden
  · decide
  · decide
  · change 1 < (['\\', 'u'] ++ _).length
    rw [List.length_append]
    exact Nat.lt_add_right _ (by decide)
  · exact absurd rfl notItself

/-- What is read for a text is at least as long as the text. -/
theorem length_le_flatMap_reread (text : List Char) :
    text.length ≤ (text.flatMap reread).length := by
  induction text with
  | nil => exact Nat.zero_le _
  | cons c text ih =>
    have one : 1 ≤ (reread c).length := by
      by_cases kept : Kept c
      · exact Nat.le_of_eq (congrArg List.length (reread_of_kept kept)).symm
      · exact Nat.le_of_lt (one_lt_length_reread kept)
    rw [List.flatMap_cons, List.length_append, List.length_cons]
    omega

/-- A written text is read as itself exactly if all of its characters are kept. -/
theorem flatMap_reread_eq_iff (text : List Char) :
    text.flatMap reread = text ↔ ∀ c ∈ text, Kept c := by
  induction text with
  | nil => simp
  | cons c text ih =>
    rw [List.flatMap_cons, List.forall_mem_cons]
    constructor
    · intro same
      -- a lost character would make the whole longer, and nothing behind it makes up for that
      have kept : Kept c := by
        refine Decidable.byContradiction fun lost => ?_
        have length := congrArg List.length same
        rw [List.length_append, List.length_cons] at length
        have := one_lt_length_reread lost
        have := length_le_flatMap_reread text
        omega
      rw [reread_of_kept kept] at same
      exact ⟨kept, ih.1 (List.cons.inj same).2⟩
    · rintro ⟨kept, all⟩
      rw [reread_of_kept kept, ih.2 all]
      rfl

end ChainGrammar.Text
