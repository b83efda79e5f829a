import ChainGrammar.Proofs.Expression.Survival
import Mathlib.Data.List.Forall2

/-!
# Transcripts that are read back

The text of a transcript is an expression, and it denotes the recorded calls again exactly if every
call survives: its method has a name that expressions allow, and all of its arguments survive
(`read_text_iff`).

That the survivors come back is a matter of the grammar: their texts are joined as the grammar joins
them (`joined_of_survives`).  For the converse the text is read from the front.  Everything before an
argument has survived, so it has been read as far as it was written, and the argument is read at the
place where its own text begins; what is read there must be alike to it, so it survives too
(`survives_of_moreArguments`, `survives_of_calls`).
-/

set_option autoImplicit false

namespace ChainGrammar

instance : DecidablePred Expression.Name
  | [] => isFalse fun h => nomatch h
  | c :: cs =>
    decidable_of_iff (Expression.isNameStart c = true ∧ cs.all Expression.isNamePart = true)
      ⟨fun h => .intro h.1 (List.all_eq_true.1 h.2),
        fun | .intro start parts => ⟨start, List.all_eq_true.2 parts⟩⟩

/-- A call that is read back from its text. -/
structure Call.Survives (call : Call) : Prop where
  named : Expression.Name call.method.toList
  args : ∀ value ∈ call.args, value.Survives

instance : DecidablePred Call.Survives := fun call =>
  decidable_of_iff (Expression.Name call.method.toList ∧ ∀ value ∈ call.args, value.Survives)
    ⟨fun h => ⟨h.1, h.2⟩, fun h => ⟨h.named, h.args⟩⟩

/-- Calls of the same method with arguments that match one by one. -/
structure Call.Matches (same : Value → Value → Prop) (first second : Call) : Prop where
  method : first.method = second.method
  args : List.Forall₂ same first.args second.args

/-- Equality of calls: the arguments compare as values do. -/
def Call.Equals : Call → Call → Prop := Call.Matches fun first second => first.equals second = true

namespace Expression

/-! ## Arguments -/

/-- The arguments behind the first one, as a call shows them. -/
def othersChars (args : List Value) : List Char := args.flatMap fun value => ',' :: ' ' :: value.chars

/-- The arguments of a call are shown one by one, each further one behind a comma. -/
theorem intercalate_cons (value : Value) (args : List Value) :
    List.intercalate [',', ' '] ((value :: args).map Value.chars) = value.chars ++ othersChars args := by
  induction args generalizing value with
  | nil => simp [othersChars]
  | cons next args ih =>
    rw [List.map_cons, List.map_cons, List.intercalate_cons_cons, ← List.map_cons, ih next]
    simp [othersChars]

/-- An argument in the text of a call ends at a comma or at the closing parenthesis. -/
theorem behind_othersChars (args : List Value) (cs : List Char) :
    Behind (othersChars args ++ ')' :: cs) := by
  cases args with
  | nil => exact ⟨')', cs, rfl, .inr rfl⟩
  | cons value args => exact ⟨',', _, rfl, .inl rfl⟩

theorem blanks_single : Blanks [' '] := by
  intro c hc
  obtain rfl := List.mem_singleton.1 hc
  rfl

/-- Further arguments that survive are written as the grammar has them. -/
theorem others_of_survives {args : List Value} (survive : ∀ value ∈ args, value.Survives) :
    Others (othersChars args) args := by
  induction args with
  | nil => exact .nil
  | cons value args ih =>
    obtain ⟨first, others⟩ := List.forall_mem_cons.1 survive
    exact .cons blanks_nil blanks_single (literal_of_survives first) (ih others)

/-- Arguments that survive are written as the grammar has them. -/
theorem arguments_of_survives {args : List Value} (survive : ∀ value ∈ args, value.Survives) :
    Arguments (List.intercalate [',', ' '] (args.map Value.chars)) args := by
  cases args with
  | nil => exact .nil
  | cons value args =>
    obtain ⟨first, others⟩ := List.forall_mem_cons.1 survive
    rw [intercalate_cons]
    exact .cons blanks_nil (literal_of_survives first) (others_of_survives others)

/-- Further arguments that come back alike survive. -/
theorem survives_of_moreArguments {args values : List Value} {cs left : List Char}
    (h : moreArguments (othersChars args ++ ')' :: cs) = .ok (values, left))
    (alike : List.Forall₂ Value.Alike values args) : ∀ value ∈ args, value.Survives := by
  -- the values read go along with the arguments written, each at the place where its text begins
  induction alike with
  | nil => exact List.forall_mem_nil _
  | @cons read value values args first _ ih =>
    obtain ⟨behind, rest, comma, hread, hmore⟩ := moreArguments_cons h
    have text : othersChars (value :: args) ++ ')' :: cs =
        ',' :: ([' '] ++ value.chars ++ (othersChars args ++ ')' :: cs)) := by
      simp [othersChars]
    rw [text] at comma
    obtain rfl := (List.cons.inj comma).2
    obtain ⟨survives, rfl⟩ := argument_alike blanks_single (behind_othersChars args cs) hread first
    exact List.forall_mem_cons.2 ⟨survives, ih hmore⟩

/-- Arguments that come back alike survive. -/
theorem survives_of_arguments {args values : List Value} {cs left : List Char}
    (h : arguments (List.intercalate [',', ' '] (args.map Value.chars) ++ ')' :: cs) =
      .ok (values, left))
    (alike : List.Forall₂ Value.Alike values args) : ∀ value ∈ args, value.Survives := by
  cases alike with
  | nil => exact List.forall_mem_nil _
  | @cons read value values args first others =>
    rw [intercalate_cons, List.append_assoc] at h
    obtain ⟨rest, hread, hmore⟩ := arguments_cons h
    obtain ⟨survives, rfl⟩ := argument_alike blanks_nil (behind_othersChars args cs) hread first
    exact List.forall_mem_cons.2 ⟨survives, survives_of_moreArguments hmore others⟩

/-! ## Calls -/

/-- A call that survives is written as the grammar has it. -/
theorem written_of_survives {call : Call} (survives : call.Survives) : Written call.chars call := by
  have := Written.intro blanks_nil survives.named blanks_nil (arguments_of_survives survives.args)
    blanks_nil
  rw [String.ofList_toList] at this
  simpa only [Call.chars, List.nil_append, List.append_nil] using this

/-- A call of an allowed name that comes back alike survives, and what is left is what stands behind it. -/
theorem call_alike {written read : Call} {rest left : List Char}
    (named : Name written.method.toList)
    (h : call (written.chars ++ rest) = .ok (read, left)) (alike : read.Matches Value.Alike written) :
    written.Survives ∧ left = rest := by
  have survives : written.Survives := by
    refine ⟨named, ?_⟩
    obtain ⟨name, afterName, inside, afterArguments, hname, hopen, harguments, -⟩ := call_parts h
    obtain ⟨c, cs, first, notBlank, -⟩ := named.first
    have text : written.chars ++ rest = written.method.toList ++ '(' ::
        (List.intercalate [',', ' '] (written.args.map Value.chars) ++ ')' :: rest) := by
      simp only [Call.chars, List.append_assoc, List.cons_append, List.nil_append]
    have stops : StopsAt isBlank (written.chars ++ rest) := by
      rw [text, first]
      exact stopsAt_cons notBlank
    rw [skipBlanks_stop stops, text, methodName_complete named (stopsAt_cons (by decide))] at hname
    obtain ⟨-, rfl⟩ := Prod.mk.inj (Option.some.inj hname)
    obtain ⟨-, rfl⟩ := List.cons.inj hopen
    exact survives_of_arguments harguments alike.args
  have whole := call_complete (written_of_survives survives) rest
  obtain ⟨-, rfl⟩ := Prod.mk.inj (Except.ok.inj (h.symm.trans whole))
  exact ⟨survives, rfl⟩

/-! ## Chains of calls -/

/-- The calls of a transcript with dots between them. -/
def chainChars (calls : List Call) : List Char := List.intercalate ['.'] (calls.map Call.chars)

theorem chainChars_singleton (call : Call) : chainChars [call] = call.chars :=
  List.intercalate_singleton

/-- Between two calls stands a dot. -/
theorem chainChars_cons (first second : Call) (calls : List Call) :
    chainChars (first :: second :: calls) = first.chars ++ '.' :: chainChars (second :: calls) := by
  unfold chainChars
  rw [List.map_cons, List.map_cons, List.intercalate_cons_cons, List.append_assoc]
  rfl

/-- Calls that survive are joined as the grammar joins them. -/
theorem joined_of_survives {first : Call} {calls : List Call}
    (survive : ∀ call ∈ first :: calls, call.Survives) :
    Joined (chainChars (first :: calls)) (first :: calls) := by
  induction calls generalizing first with
  | nil =>
    have := Joined.single (written_of_survives (survive first List.mem_cons_self))
    rwa [chainChars_singleton]
  | cons second calls ih =>
    obtain ⟨head, others⟩ := List.forall_mem_cons.1 survive
    have := Joined.cons (written_of_survives head) blanks_nil (ih others)
    rw [List.append_nil] at this
    rwa [chainChars_cons]

/-- Calls of allowed names that come back alike survive. -/
theorem survives_of_calls {written : List Call} {read : List Call} {left : List Char}
    (named : ∀ call ∈ written, Name call.method.toList)
    (h : calls (chainChars written) = .ok (read, left))
    (alike : List.Forall₂ (Call.Matches Value.Alike) read written) :
    ∀ call ∈ written, call.Survives := by
  induction alike with
  | nil => exact List.forall_mem_nil _
  | @cons first call read written alike others ih =>
    obtain ⟨head, names⟩ := List.forall_mem_cons.1 named
    obtain ⟨rest, hcall, hdot⟩ := calls_cons h
    cases written with
    | nil =>
      rw [chainChars_singleton, ← List.append_nil call.chars] at hcall
      exact List.forall_mem_singleton.2 (call_alike head hcall alike).1
    | cons second written =>
      rw [chainChars_cons] at hcall
      obtain ⟨survives, rfl⟩ := call_alike head hcall alike
      exact List.forall_mem_cons.2 ⟨survives, ih names (hdot _ rfl)⟩

/-- The calls that an expression denotes have allowed names. -/
theorem Joined.named {cs : List Char} {calls : List Call} (h : Joined cs calls) :
    ∀ call ∈ calls, Name call.method.toList := by
  have name : ∀ {cs : List Char} {call : Call}, Written cs call → Name call.method.toList := by
    rintro _ _ ⟨-, named, -, -, -⟩
    rwa [String.toList_ofList]
  induction h with
  | single written => exact List.forall_mem_singleton.2 (name written)
  | cons written _ _ ih => exact List.forall_mem_cons.2 ⟨name written, ih⟩

theorem Denotes.named {cs : List Char} {calls : List Call} (h : Denotes cs calls) :
    ∀ call ∈ calls, Name call.method.toList := by
  obtain ⟨-, joined, -⟩ := h
  exact joined.named

/-! ## Transcripts -/

/-- A chain of calls begins with its first call. -/
theorem exists_chainChars (first : Call) (calls : List Call) :
    ∃ rest, chainChars (first :: calls) = first.chars ++ rest := by
  cases calls with
  | nil => exact ⟨[], by rw [chainChars_singleton, List.append_nil]⟩
  | cons second calls => exact ⟨_, chainChars_cons first second calls⟩

/-- In front of an allowed name nothing is skipped. -/
theorem skipLeadingDot_chainChars {first : Call} (calls : List Call)
    (named : Name first.method.toList) :
    skipLeadingDot (chainChars (first :: calls)) = chainChars (first :: calls) := by
  obtain ⟨c, cs, front, notBlank, notDot⟩ := named.first
  obtain ⟨rest, hrest⟩ := exists_chainChars first calls
  obtain ⟨behind, text⟩ : ∃ behind, chainChars (first :: calls) = c :: behind :=
    ⟨_, by rw [hrest, Call.chars, front]; rfl⟩
  have hskip : skipBlanks (chainChars (first :: calls)) = chainChars (first :: calls) :=
    skipBlanks_stop (by rw [text]; exact stopsAt_cons notBlank)
  rw [skipLeadingDot_other, hskip]
  intro rest' dot
  rw [hskip, text] at dot
  exact notDot (List.cons.inj dot).1

/-- Calls that come back alike survive. -/
theorem survives_of_readChars {written read : List Call} (h : readChars (chainChars written) = .ok read)
    (alike : List.Forall₂ (Call.Matches Value.Alike) read written) :
    ∀ call ∈ written, call.Survives := by
  -- a name with blanks or a dot in front would lose them, so first the names: those read are allowed
  have named : ∀ call ∈ written, Name call.method.toList := by
    have names := (denotes_of_readChars h).named
    clear h
    induction alike with
    | nil => exact List.forall_mem_nil _
    | cons first _ ih =>
      obtain ⟨head, names⟩ := List.forall_mem_cons.1 names
      exact List.forall_mem_cons.2 ⟨first.method ▸ head, ih names⟩
  cases written with
  | nil => exact List.forall_mem_nil _
  | cons first calls =>
    unfold readChars at h
    rw [skipLeadingDot_chainChars calls (named first List.mem_cons_self)] at h
    split at h
    · cases h
    · rename_i hcalls
      cases h
      exact survives_of_calls named hcalls alike
    · cases h

/-- Calls that survive come back from their text. -/
theorem readChars_of_survives {first : Call} {calls : List Call}
    (survive : ∀ call ∈ first :: calls, call.Survives) :
    readChars (chainChars (first :: calls)) = .ok (first :: calls) := by
  have denoted := Denotes.intro (.blanks blanks_nil) (joined_of_survives survive) blanks_nil
  rw [List.nil_append, List.append_nil] at denoted
  exact readChars_of_denotes denoted

/-- A transcript is read from the characters of its text. -/
theorem read_text {written answer : List Call} :
    read (Transcript.text ⟨written⟩) = .ok answer ↔ readChars (chainChars written) = .ok answer := by
  unfold read Transcript.text
  dsimp only
  rw [String.toList_ofList, ← chainChars]
  split
  · rename_i hchars
    rw [hchars]
    simp only [Except.ok.injEq]
  · rename_i hchars
    rw [hchars]
    simp only [reduceCtorEq]

end Expression

namespace Transcript

/-- The text of a transcript with calls is read as these calls exactly if each of them survives, and
it is read as calls equal to them in no other case. -/
theorem read_text_iff {calls : List Call} (nonempty : calls ≠ []) :
    (Expression.read (text ⟨calls⟩) = .ok calls ↔ ∀ call ∈ calls, call.Survives) ∧
      ((∃ read, Expression.read (text ⟨calls⟩) = .ok read ∧ List.Forall₂ Call.Equals read calls) ↔
        ∀ call ∈ calls, call.Survives) := by
  obtain ⟨first, others, rfl⟩ := List.exists_cons_of_ne_nil nonempty
  have comesBack : (∀ call ∈ first :: others, call.Survives) →
      Expression.read (text ⟨first :: others⟩) = .ok (first :: others) := fun survive =>
    Expression.read_text.2 (Expression.readChars_of_survives survive)
  refine ⟨⟨fun h => ?_, comesBack⟩, ⟨?_, fun survive => ⟨_, comesBack survive, ?_⟩⟩⟩
  · refine Expression.survives_of_readChars (Expression.read_text.1 h) ?_
    exact List.forall₂_same.2 fun call _ =>
      ⟨rfl, List.forall₂_same.2 fun value _ => Value.Alike.refl value⟩
  · rintro ⟨read, h, equal⟩
    refine Expression.survives_of_readChars (Expression.read_text.1 h) ?_
    exact equal.imp fun _ _ same => ⟨same.method, same.args.imp fun _ _ => Value.Alike.of_equals⟩
  · exact List.forall₂_same.2 fun call hcall =>
      ⟨rfl, List.forall₂_same.2 fun value hvalue =>
        Value.equals_self ((survive call hcall).args value hvalue)⟩

/-- A chain with a value of every kind, among them the least whole number and every escape that is read. -/
def sampleCalls : List Call :=
  [⟨"select", [.string "\"a\\\n\t'"]⟩,
   ⟨"$is_2", [.int Int64.minValue, .float ⟨0x3fe0000000000000⟩, .bool false]⟩]

/-- The calls come back, and a whole float in their place does not. -/
theorem read_text_sample :
    Expression.read (text ⟨sampleCalls⟩) = .ok sampleCalls ∧
      Expression.read (text ⟨[⟨"is", [.float ⟨0x3ff0000000000000⟩]⟩]⟩) ≠
        .ok [⟨"is", [.float ⟨0x3ff0000000000000⟩]⟩] := by
  constructor
  · exact (read_text_iff (List.cons_ne_nil _ _)).1.2 (by decide +kernel)
  · exact fun h => absurd ((read_text_iff (List.cons_ne_nil _ _)).1.1 h) (by decide +kernel)

end Transcript

end ChainGrammar
