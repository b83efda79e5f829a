import ChainGrammar.Proofs.Rule.Uses
import Mathlib.Data.List.Find

/-!
# The faults of a list of rules

What the checks of a list of rules look for, said without the checks: the first rule with an empty definition
(`Rules.FirstEmpty`), the first reference to a name that no rule has (`Rules.FirstUndefined`), and the rules to
which no other rule links (`Rules.IsTop`).  The references of a rule are listed once each, which leaves the first
undefined one where it is (`Rules.find?_eraseDups`).
-/

set_option autoImplicit false

namespace ChainGrammar

/-- What the segment references, if it does, is the name of a rule. -/
def Segment.Resolved (rules : List Rule) (segment : Segment) : Prop :=
  ∀ used, segment.target? = some used → used ∈ Rules.names rules

namespace Rules

variable {rules : List Rule} {rule : Rule} {name target : String} {index : Nat}

/-! ## Empty definitions -/

/-- The rule of the name is the first one with an empty definition, and the index is that of its first one. -/
def FirstEmpty (rules : List Rule) (name : String) (index : Nat) : Prop :=
  ∃ before rule behind, rules = before ++ rule :: behind ∧ rule.name = name ∧
    (∀ earlier ∈ before, [] ∉ earlier.definitions) ∧
    rule.definitions[index]? = some [] ∧ ∀ smaller < index, rule.definitions[smaller]? ≠ some []

/-- No rule has an empty definition. -/
def Full (rules : List Rule) : Prop := ∀ rule ∈ rules, [] ∉ rule.definitions

theorem findIdx?_isEmpty_eq_none_iff {definitions : List Definition} :
    definitions.findIdx? List.isEmpty = none ↔ [] ∉ definitions := by
  simp only [List.findIdx?_eq_none_iff, List.isEmpty_eq_false_iff]
  exact ⟨fun h hnil => h [] hnil rfl, fun h definition hdefinition hnil => h (hnil ▸ hdefinition)⟩

theorem findIdx?_isEmpty_eq_some_iff {definitions : List Definition} :
    definitions.findIdx? List.isEmpty = some index ↔
      definitions[index]? = some [] ∧ ∀ smaller < index, definitions[smaller]? ≠ some [] := by
  rw [List.findIdx?_eq_some_iff_getElem]
  constructor
  · rintro ⟨within, hempty, hfirst⟩
    refine ⟨by simpa [List.getElem?_eq_getElem within] using hempty, fun smaller hsmaller => ?_⟩
    simpa [List.getElem?_eq_getElem (Nat.lt_trans hsmaller within)] using hfirst smaller hsmaller
  · rintro ⟨hempty, hfirst⟩
    obtain ⟨within, hempty⟩ := List.getElem?_eq_some_iff.1 hempty
    refine ⟨within, by simpa using hempty, fun smaller hsmaller => ?_⟩
    simpa [List.getElem?_eq_getElem (Nat.lt_trans hsmaller within)] using hfirst smaller hsmaller

theorem emptyDefinition?_eq_none_iff : emptyDefinition? rules = none ↔ Full rules := by
  simp only [emptyDefinition?, List.findSome?_eq_none_iff, Option.map_eq_none_iff,
    findIdx?_isEmpty_eq_none_iff, Full]

theorem emptyDefinition?_eq_some_iff :
    emptyDefinition? rules = some (name, index) ↔ FirstEmpty rules name index := by
  simp only [emptyDefinition?, List.findSome?_eq_some_iff, Option.map_eq_some_iff, Option.map_eq_none_iff,
    findIdx?_isEmpty_eq_none_iff, findIdx?_isEmpty_eq_some_iff, FirstEmpty, Prod.mk.injEq]
  constructor
  · rintro ⟨before, rule, behind, hrules, ⟨_, hfirst, hname, rfl⟩, hbefore⟩
    exact ⟨before, rule, behind, hrules, hname, hbefore, hfirst⟩
  · rintro ⟨before, rule, behind, hrules, hname, hbefore, hfirst⟩
    exact ⟨before, rule, behind, hrules, ⟨index, hfirst, hname, rfl⟩, hbefore⟩

/-! ## Undefined references -/

/-- The rule of the name is the first one with a reference to a name that no rule has, and the target is that of
the first such reference in the rule. -/
def FirstUndefined (rules : List Rule) (name target : String) : Prop :=
  ∃ before rule behind, rules = before ++ rule :: behind ∧ rule.name = name ∧
    (∀ earlier ∈ before, ∀ segment ∈ earlier.definitions.flatten, segment.Resolved rules) ∧
    ∃ front segment back, rule.definitions.flatten = front ++ segment :: back ∧
      (∀ other ∈ front, other.Resolved rules) ∧ segment.target? = some target ∧ target ∉ names rules

/-- What is found first in a list is found first when repetitions are left out. -/
theorem find?_eraseDups {α : Type} [BEq α] [LawfulBEq α] (p : α → Bool) (l : List α) :
    l.eraseDups.find? p = l.find? p := by
  match l with
  | [] => rfl
  | a :: l =>
    rw [List.eraseDups_cons, List.find?_cons, List.find?_cons]
    by_cases hp : p a = true
    · simp only [hp]
    · simp only [hp]
      rw [find?_eraseDups p (l.filter fun b => !b == a), List.find?_filter]
      apply List.find?_congr
      intro b _
      by_cases hsame : b = a <;> simp [hsame, hp]
termination_by l.length
decreasing_by exact Nat.lt_succ_of_le (List.length_filter_le ..)

theorem isNone_find?_iff : (find? rules name).isNone = true ↔ name ∉ names rules := by
  rw [Option.isNone_iff_eq_none, find?_eq_none_iff]

/-- The first of the listed references that is undefined is that of the first undefined segment. -/
theorem find?_references_eq_some_iff :
    (rule.references.find? fun used => (find? rules used).isNone) = some target ↔
      ∃ front segment back, rule.definitions.flatten = front ++ segment :: back ∧
        (∀ other ∈ front, other.Resolved rules) ∧ segment.target? = some target ∧ target ∉ names rules := by
  have resolved : ∀ segment : Segment,
      (!(segment.target?.any fun used => (find? rules used).isNone)) = true ↔ segment.Resolved rules := by
    intro segment
    cases h : segment.target? with
    | none => simp [Segment.Resolved, h]
    | some used => simp [Segment.Resolved, h, mem_names_iff, Option.isSome_iff_exists]
  rw [Rule.references, find?_eraseDups, List.find?_filterMap, Option.bind_eq_some_iff]
  simp only [List.find?_eq_some_iff_append, resolved]
  constructor
  · rintro ⟨segment, ⟨undefined, front, back, hsegments, hfront⟩, htarget⟩
    rw [htarget, Option.any_some, isNone_find?_iff] at undefined
    exact ⟨front, segment, back, hsegments, hfront, htarget, undefined⟩
  · rintro ⟨front, segment, back, hsegments, hfront, htarget, undefined⟩
    refine ⟨segment, ⟨?_, front, back, hsegments, hfront⟩, htarget⟩
    rwa [htarget, Option.any_some, isNone_find?_iff]

theorem find?_references_eq_none_iff :
    (rule.references.find? fun used => (find? rules used).isNone) = none ↔
      ∀ segment ∈ rule.definitions.flatten, segment.Resolved rules := by
  simp only [List.find?_eq_none, isNone_find?_iff, not_not, Rule.references, List.mem_eraseDups,
    List.mem_filterMap, Segment.Resolved]
  constructor
  · intro h segment hsegment used hused
    exact h used ⟨segment, hsegment, hused⟩
  · rintro h used ⟨segment, hsegment, hused⟩
    exact h segment hsegment used hused

theorem undefinedReference?_eq_some_iff :
    undefinedReference? rules = some (name, target) ↔ FirstUndefined rules name target := by
  simp only [undefinedReference?, List.findSome?_eq_some_iff, Option.map_eq_some_iff, Option.map_eq_none_iff,
    find?_references_eq_none_iff, find?_references_eq_some_iff, FirstUndefined, Prod.mk.injEq]
  constructor
  · rintro ⟨before, rule, behind, hrules, ⟨_, hfirst, hname, rfl⟩, hbefore⟩
    exact ⟨before, rule, behind, hrules, hname, hbefore, hfirst⟩
  · rintro ⟨before, rule, behind, hrules, hname, hbefore, hfirst⟩
    exact ⟨before, rule, behind, hrules, ⟨target, hfirst, hname, rfl⟩, hbefore⟩

/-! ## Entry rules -/

/-- The name is that of a rule to which no rule links. -/
def IsTop (rules : List Rule) (name : String) : Prop := name ∈ names rules ∧ ∀ user, ¬Links rules user name

theorem mem_names_topRules_iff : name ∈ names (topRules rules) ↔ IsTop rules name := by
  simp only [names, List.mem_map, mem_topRules_iff, IsTop]
  constructor
  · rintro ⟨rule, ⟨hrule, unlinked⟩, rfl⟩
    exact ⟨⟨rule, hrule, rfl⟩, unlinked⟩
  · rintro ⟨⟨rule, hrule, rfl⟩, unlinked⟩
    exact ⟨rule, ⟨hrule, unlinked⟩, rfl⟩

/-- There is no top rule exactly if a rule links to each of them. -/
theorem topRules_isEmpty_iff :
    (names (topRules rules)).isEmpty = true ↔ ∀ name ∈ names rules, ∃ user, Links rules user name := by
  simp only [List.isEmpty_iff, List.eq_nil_iff_forall_not_mem, mem_names_topRules_iff, IsTop, not_and,
    not_forall, not_not]

/-- The names of the top rules other than the main rule, in authoring order. -/
def otherEntries (rules : List Rule) (options : Options) : List String :=
  (names (topRules rules)).filter fun name => decide (options.mainRule ≠ some name)

theorem mem_otherEntries_iff {options : Options} :
    name ∈ otherEntries rules options ↔ IsTop rules name ∧ options.mainRule ≠ some name := by
  rw [otherEntries, List.mem_filter, mem_names_topRules_iff, decide_eq_true_iff]

theorem otherEntries_sublist (rules : List Rule) (options : Options) :
    (otherEntries rules options).Sublist (names rules) :=
  List.filter_sublist.trans (List.filter_sublist.map Rule.name)

/-- If a rule links to each rule, there is no entry rule. -/
theorem entryNames_of_linked (options : Options) (linked : ∀ name ∈ names rules, ∃ user, Links rules user name) :
    entryNames rules options = .error (.noEntryPoint (cycle rules)) := by
  unfold entryNames
  exact if_pos (topRules_isEmpty_iff.2 linked)

theorem not_isEmpty_of_top (top : ∃ name, IsTop rules name) : ¬(names (topRules rules)).isEmpty = true := by
  obtain ⟨name, htop⟩ := top
  rw [topRules_isEmpty_iff]
  intro linked
  obtain ⟨user, huser⟩ := linked name htop.1
  exact htop.2 user huser

/-- The main rule must be defined. -/
theorem entryNames_of_undefined {options : Options} (top : ∃ name, IsTop rules name)
    (hmain : options.mainRule = some name) (undefined : name ∉ names rules) :
    entryNames rules options = .error (.undefinedMainRule name) := by
  have missing : ¬(find? rules name).isSome = true := by
    rwa [Option.isSome_iff_exists, ← mem_names_iff]
  unfold entryNames
  simp only [if_neg (not_isEmpty_of_top top), hmain, if_neg missing]

/-- The entry rules are the main rule, if there is one, and then the other top rules. -/
theorem entryNames_of_defined {options : Options} (top : ∃ name, IsTop rules name)
    (defined : ∀ main, options.mainRule = some main → main ∈ names rules) :
    entryNames rules options = .ok (options.mainRule.toList ++ otherEntries rules options) := by
  unfold entryNames otherEntries
  simp only [if_neg (not_isEmpty_of_top top)]
  cases hmain : options.mainRule with
  | none => simp
  | some main =>
    have found : (find? rules main).isSome = true := by
      rw [Option.isSome_iff_exists, ← mem_names_iff]
      exact defined main hmain
    simp only [if_pos found]
    simp [eq_comm, bne, beq_eq_decide]

end Rules

end ChainGrammar
