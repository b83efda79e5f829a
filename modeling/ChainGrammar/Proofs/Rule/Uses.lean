import ChainGrammar.Proofs.Rule.Order

/-!
# Which rule uses which

The references between rules as a relation on names: `Rules.Uses` says that a definition of a rule mentions a name,
`Rules.Links` that it is the name of another rule.  The top rules are those to which nothing links
(`Rules.mem_topRules_iff`), and without undefined references every used name is the name of a rule
(`Rules.resolved_iff`).
-/

set_option autoImplicit false

namespace ChainGrammar

/-- The references of a rule are the targets of its segments. -/
theorem Rule.mem_references_iff {rule : Rule} {name : String} :
    name ∈ rule.references ↔
      ∃ definition ∈ rule.definitions, ∃ segment ∈ definition, segment.target? = some name := by
  rw [Rule.references, List.mem_eraseDups, List.mem_filterMap]
  constructor
  · rintro ⟨segment, hsegment, htarget⟩
    obtain ⟨definition, hdefinition, hmem⟩ := List.mem_flatten.1 hsegment
    exact ⟨definition, hdefinition, segment, hmem, htarget⟩
  · rintro ⟨definition, hdefinition, segment, hmem, htarget⟩
    exact ⟨segment, List.mem_flatten.2 ⟨definition, hdefinition, hmem⟩, htarget⟩

theorem Rule.referencesRule_iff {rule : Rule} {name : String} :
    rule.referencesRule name = true ↔ name ∈ rule.references := by
  simp [Rule.referencesRule, Rule.references]

namespace Rules

variable {rules : List Rule} {rule : Rule} {name user used : String}

/-- A definition of a rule of the first name references the second name. -/
def Uses (rules : List Rule) (user used : String) : Prop :=
  ∃ rule ∈ rules, rule.name = user ∧
    ∃ definition ∈ rule.definitions, ∃ segment ∈ definition, segment.target? = some used

/-- A rule references a name that is not its own. -/
def Links (rules : List Rule) (user used : String) : Prop := Uses rules user used ∧ used ≠ user

/-- Every name that is referenced is the name of a rule. -/
def Resolved (rules : List Rule) : Prop := ∀ user used, Uses rules user used → used ∈ names rules

theorem mem_names_of_mem (h : rule ∈ rules) : rule.name ∈ names rules := List.mem_map_of_mem h

/-- The names of the rules are those under which a rule is found. -/
theorem mem_names_iff : name ∈ names rules ↔ ∃ rule, find? rules name = some rule := by
  constructor
  · intro h
    obtain ⟨rule, hrule, rfl⟩ := List.mem_map.1 h
    exact find?_isSome_of_mem hrule
  · rintro ⟨rule, found⟩
    rw [← find?_name found]
    exact mem_names_of_mem (find?_mem found)

theorem find?_eq_none_iff : find? rules name = none ↔ name ∉ names rules := by
  rw [mem_names_iff, ← Option.isSome_iff_exists, Option.not_isSome_iff_eq_none]

theorem Uses.mem_names (h : Uses rules user used) : user ∈ names rules := by
  obtain ⟨rule, hrule, rfl, _⟩ := h
  exact mem_names_of_mem hrule

/-- A rule uses the names that it references. -/
theorem uses_of_mem_references (hrule : rule ∈ rules) (h : used ∈ rule.references) :
    Uses rules rule.name used :=
  ⟨rule, hrule, rfl, Rule.mem_references_iff.1 h⟩

/-- With distinct names the rule of a name uses nothing but what it references. -/
theorem uses_iff_of_find? (distinct : (names rules).Nodup) (found : find? rules user = some rule) :
    Uses rules user used ↔ used ∈ rule.references := by
  constructor
  · rintro ⟨other, hother, hname, h⟩
    have same : find? rules user = some other := (find?_eq_some_iff distinct).2 ⟨hother, hname⟩
    obtain rfl := Option.some.inj (found.symm.trans same)
    exact Rule.mem_references_iff.2 h
  · intro h
    rw [← find?_name found]
    exact uses_of_mem_references (find?_mem found) h

/-- The other rules that the rule of a name references are those that it links to. -/
theorem mem_successors_iff (distinct : (names rules).Nodup) (found : find? rules user = some rule) :
    used ∈ successors rule ↔ Links rules user used := by
  rw [Links, uses_iff_of_find? distinct found, ← find?_name found]
  simp [successors]

/-- The top rules are those to which no rule links. -/
theorem mem_topRules_iff :
    rule ∈ topRules rules ↔ rule ∈ rules ∧ ∀ user, ¬Links rules user rule.name := by
  rw [topRules, List.mem_filter]
  refine and_congr_right fun _ => ?_
  simp only [Bool.not_eq_true', List.any_eq_false, Bool.and_eq_true, bne_iff_ne, not_and,
    Rule.referencesRule_iff]
  constructor
  · rintro h user ⟨⟨other, hother, rfl, href⟩, hne⟩
    exact h other hother (Ne.symm hne) (Rule.mem_references_iff.2 href)
  · intro h other hother hne href
    exact h other.name ⟨uses_of_mem_references hother href, Ne.symm hne⟩

/-- No reference is undefined if every name that is referenced is the name of a rule. -/
theorem resolved_iff : Resolved rules ↔ undefinedReference? rules = none := by
  simp only [undefinedReference?, List.findSome?_eq_none_iff, Option.map_eq_none_iff,
    List.find?_eq_none, Option.isNone_iff_eq_none, find?_eq_none_iff, not_not]
  constructor
  · exact fun h rule hrule used hused => h rule.name used (uses_of_mem_references hrule hused)
  · rintro h user used ⟨rule, hrule, rfl, href⟩
    exact h rule hrule used (Rule.mem_references_iff.2 href)

end Rules

end ChainGrammar
