import ChainGrammar.Proofs.Rule.Uses
import Mathlib.Data.List.Chain
import Mathlib.Logic.Relation

/-!
# Cycles of references

`Rules.cycle` explains why a list of rules has no top rule: it is a cycle of references between distinct rules
wherever there is one, and empty otherwise (`Rules.cycle_explains`).

The search descends along references.  The names on its path make a trail, each linked to the next
(`Rules.Trail`), so a name that comes up a second time closes a cycle (`Rules.Trail.isCycle_closedBy`).  The names
that it has finished are in an order in which every name stands in front of those that it links to
(`Rules.Settled`).  None of them is therefore on a cycle (`Rules.Settled.not_transGen`), and when all rules are
finished, the last of them has no rule that links to it (`Rules.Settled.eq_nil_of_linked`).
-/

set_option autoImplicit false

namespace ChainGrammar.Rules

variable {rules : List Rule} {rule : Rule} {name user used : String} {path finished found : List String}

/-- Distinct rules, at least two, each of which references the next one, and the last the first. -/
inductive IsCycle (rules : List Rule) : List String → Prop where
  | intro {first : String} {others : List String} (several : others ≠ [])
      (distinct : (first :: others).Nodup) (defined : ∀ name ∈ first :: others, name ∈ names rules)
      (linked : (first :: others ++ [first]).IsChain (Links rules)) :
      IsCycle rules (first :: others ++ [first])

/-- No rule links to itself through others. -/
def Acyclic (rules : List Rule) : Prop := ∀ name, ¬Relation.TransGen (Links rules) name name

/-- In a row of names each of which is related to the next, the last is reached from the first. -/
theorem transGen_of_isChain {α : Type} {r : α → α → Prop} {first last : α} {between : List α}
    (h : (first :: between ++ [last]).IsChain r) : Relation.TransGen r first last := by
  induction between generalizing first with
  | nil => exact .single (by simpa using h)
  | cons next between ih =>
    rw [List.cons_append, List.cons_append, List.isChain_cons_cons] at h
    exact .head h.1 (ih h.2)

theorem IsCycle.not_acyclic (h : IsCycle rules found) : ¬Acyclic rules := by
  cases h with
  | intro _ _ _ linked => exact fun acyclic => acyclic _ (transGen_of_isChain linked)

/-! ## The path -/

/-- A path of distinct rules, newest first, each of which the one before it links to. -/
structure Trail (rules : List Rule) (path : List String) : Prop where
  linked : path.IsChain fun newer older => Links rules older newer
  distinct : path.Nodup
  defined : ∀ name ∈ path, name ∈ names rules

/-- The newest rule of the path, if there is one, links to the name. -/
def LinkedFrom (rules : List Rule) (path : List String) (name : String) : Prop :=
  ∀ newest ∈ path.head?, Links rules newest name

theorem trail_nil (rules : List Rule) : Trail rules [] := ⟨.nil, .nil, nofun⟩

theorem Trail.cons (trail : Trail rules path) (linked : LinkedFrom rules path name) (off : name ∉ path)
    (defined : name ∈ names rules) : Trail rules (name :: path) where
  linked := trail.linked.cons linked
  distinct := List.nodup_cons.2 ⟨off, trail.distinct⟩
  defined := List.forall_mem_cons.2 ⟨defined, trail.defined⟩

/-- A link to a rule on the path closes a cycle. -/
theorem Trail.isCycle_closedBy (trail : Trail rules path) (linked : LinkedFrom rules path name)
    (on : name ∈ path) : IsCycle rules (closedBy path name) := by
  obtain ⟨newer, older, rfl, hnew⟩ := List.eq_append_cons_of_mem on
  have htake : (newer ++ name :: older).takeWhile (fun other => other != name) = newer := by
    rw [List.takeWhile_append_of_pos, List.takeWhile_cons_of_neg, List.append_nil]
    · simp
    · intro other hother
      simpa using ne_of_mem_of_not_mem hother hnew
  rw [closedBy, htake]
  -- the names in question are the newest of the path, down to the one that is met again
  have hpart : newer ++ [name] <+: newer ++ name :: older := ⟨older, by simp⟩
  apply IsCycle.intro
  · rintro hnil
    obtain rfl := List.reverse_eq_nil_iff.1 hnil
    exact (linked name (by simp)).2 rfl
  · have hdistinct := trail.distinct.sublist hpart.sublist
    simpa [List.nodup_append] using (List.nodup_reverse.2 hdistinct)
  · intro other hother
    apply trail.defined other
    apply hpart.subset
    simpa [or_comm] using hother
  · have hback : (name :: newer.reverse).IsChain (Links rules) := by
      rw [← List.reverse_concat', List.isChain_reverse]
      exact trail.linked.prefix hpart
    apply hback.append (.singleton name)
    intro newest hnewest other hother
    obtain rfl : name = other := by simpa using hother
    rw [← List.reverse_concat', List.getLast?_reverse] at hnewest
    apply linked newest
    cases newer <;> simpa using hnewest

/-- What the descent reports is a cycle. -/
theorem isCycle_of_follow (distinct : (names rules).Nodup) (trail : Trail rules path) {ahead : List String}
    (linked : ∀ name ∈ ahead, LinkedFrom rules path name)
    (h : follow rules path finished ahead = .error found) : IsCycle rules found := by
  fun_induction follow rules path finished ahead with
  | case1 => cases h
  | case2 path finished name rest on =>
    obtain rfl := Except.error.inj h
    exact trail.isCycle_closedBy (linked name List.mem_cons_self) on
  | case3 path finished name rest off done ih =>
    exact ih trail (fun other hother => linked other (List.mem_cons_of_mem _ hother)) h
  | case4 path finished name rest off pending missing ih =>
    exact ih trail (fun other hother => linked other (List.mem_cons_of_mem _ hother)) h
  | case5 path finished name rest off pending rule hrule fewer inner hinner ih =>
    obtain rfl := Except.error.inj h
    apply ih (trail.cons (linked name List.mem_cons_self) off (mem_names_iff.2 ⟨rule, hrule⟩)) _ hinner
    intro other hother newest hnewest
    obtain rfl : name = newest := by simpa using hnewest
    exact (mem_successors_iff distinct hrule).1 hother
  | case6 path finished name rest off pending rule found fewer inner hinner _ ih =>
    exact ih trail (fun other hother => linked other (List.mem_cons_of_mem _ hother)) h

/-! ## The finished names -/

/-- Every name stands in front of the rules that it links to. -/
inductive Settled (rules : List Rule) : List String → Prop where
  | nil : Settled rules []
  | cons {name : String} {older : List String}
      (behind : ∀ used ∈ names rules, Links rules name used → used ∈ older)
      (further : Settled rules older) : Settled rules (name :: older)

/-- The rules that settled names link to are settled. -/
theorem Settled.mem_of_links (settled : Settled rules finished) (h : name ∈ finished)
    (linked : Links rules name used) (defined : used ∈ names rules) : used ∈ finished := by
  induction settled with
  | nil => cases h
  | cons behind _ ih =>
    apply List.mem_cons_of_mem
    rcases List.mem_cons.1 h with rfl | h
    · exact behind used defined linked
    · exact ih h

/-- A name from which a rule is reached is the name of a rule. -/
theorem mem_names_of_reaches (h : Relation.ReflTransGen (Links rules) name used)
    (defined : used ∈ names rules) : name ∈ names rules := by
  cases h.cases_head with
  | inl same => exact same ▸ defined
  | inr further =>
    obtain ⟨next, linked, _⟩ := further
    exact linked.1.mem_names

/-- The rules that are reached from settled names are settled. -/
theorem Settled.mem_of_reaches (settled : Settled rules finished) (h : name ∈ finished)
    (reached : Relation.ReflTransGen (Links rules) name used) (defined : used ∈ names rules) :
    used ∈ finished := by
  induction reached using Relation.ReflTransGen.head_induction_on with
  | refl => exact h
  | head linked further ih => exact ih (settled.mem_of_links h linked (mem_names_of_reaches further defined))

/-- No settled name is on a cycle. -/
theorem Settled.not_transGen (settled : Settled rules finished) (h : name ∈ finished) :
    ¬Relation.TransGen (Links rules) name name := by
  intro cyclic
  induction settled with
  | nil => cases h
  | @cons first older behind further ih =>
    apply ih
    rcases List.mem_cons.1 h with rfl | h
    · -- what the first name links to stands behind it, so the way back to it would lead to a later place
      obtain ⟨next, linked, reached⟩ := Relation.TransGen.head'_iff.1 cyclic
      have defined : name ∈ names rules := linked.1.mem_names
      have hnext := behind next (mem_names_of_reaches reached defined) linked
      exact further.mem_of_reaches hnext reached defined
    · exact h

/-- If every rule is settled and has a rule that links to it, there are no rules. -/
theorem Settled.eq_nil_of_linked (settled : Settled rules finished)
    (all : ∀ name ∈ names rules, name ∈ finished)
    (linked : ∀ name ∈ names rules, ∃ user, Links rules user name) : rules = [] := by
  induction settled with
  | nil => simpa [names, List.eq_nil_iff_forall_not_mem] using all
  | @cons first older behind further ih =>
    apply ih
    intro name hname
    rcases List.mem_cons.1 (all name hname) with rfl | hmem
    · -- the rule that links to the first name stands in front of it, so the name stands further back again
      obtain ⟨user, huser⟩ := linked name hname
      have hmem : user ∈ older :=
        (List.mem_cons.1 (all user huser.1.mem_names)).resolve_left (Ne.symm huser.2)
      exact further.mem_of_links hmem huser hname
    · exact hmem

/-- A descent that meets no cycle settles all rules ahead. -/
theorem settled_of_follow (distinct : (names rules).Nodup) (settled : Settled rules finished)
    {ahead done : List String} (h : follow rules path finished ahead = .ok done) :
    Settled rules done ∧ finished ⊆ done ∧ ∀ name ∈ ahead, name ∈ names rules → name ∈ done := by
  fun_induction follow rules path finished ahead generalizing done with
  | case1 path finished =>
    obtain rfl := Except.ok.inj h
    exact ⟨settled, List.Subset.refl _, nofun⟩
  | case2 => cases h
  | case3 path finished name rest off known ih =>
    obtain ⟨hsettled, hsub, hrest⟩ := ih settled h
    exact ⟨hsettled, hsub, List.forall_mem_cons.2 ⟨fun _ => hsub known, hrest⟩⟩
  | case4 path finished name rest off pending missing ih =>
    obtain ⟨hsettled, hsub, hrest⟩ := ih settled h
    refine ⟨hsettled, hsub, List.forall_mem_cons.2 ⟨fun defined => ?_, hrest⟩⟩
    exact absurd defined (find?_eq_none_iff.1 missing)
  | case5 => cases h
  | case6 path finished name rest off pending rule found fewer inner hinner ihInner ih =>
    obtain ⟨hbelow, hsubInner, hsuccessors⟩ := ihInner settled hinner
    have hbehind : ∀ used ∈ names rules, Links rules name used → used ∈ inner := by
      intro used defined linked
      exact hsuccessors used ((mem_successors_iff distinct found).2 linked) defined
    obtain ⟨hsettled, hsub, hrest⟩ := ih (.cons hbehind hbelow) h
    refine ⟨hsettled, fun other hother => ?_, List.forall_mem_cons.2 ⟨fun _ => ?_, hrest⟩⟩
    · exact hsub (List.mem_cons_of_mem _ (hsubInner hother))
    · exact hsub List.mem_cons_self

/-! ## What the search finds -/

/-- The search finds a cycle, or it settles all rules. -/
theorem cycle_cases (distinct : (names rules).Nodup) :
    IsCycle rules (cycle rules) ∨
      cycle rules = [] ∧ ∃ done, Settled rules done ∧ ∀ name ∈ names rules, name ∈ done := by
  unfold cycle
  cases h : follow rules [] [] (names rules) with
  | error found =>
    left
    exact isCycle_of_follow distinct (trail_nil rules) (fun _ _ _ hnewest => by simp at hnewest) h
  | ok done =>
    right
    obtain ⟨settled, _, all⟩ := settled_of_follow distinct .nil h
    exact ⟨rfl, done, settled, fun name hname => all name hname hname⟩

/-- If every rule is referenced by another one, the search finds a cycle of references.  It finds none exactly
where there is none, and then one of the rules is a top rule. -/
theorem cycle_explains (distinct : (names rules).Nodup) :
    (rules ≠ [] → (∀ name ∈ names rules, ∃ user, Links rules user name) → IsCycle rules (cycle rules)) ∧
      (cycle rules = [] ↔ Acyclic rules) ∧ (rules ≠ [] → Acyclic rules → topRules rules ≠ []) := by
  have explained : rules ≠ [] → (∀ name ∈ names rules, ∃ user, Links rules user name) →
      IsCycle rules (cycle rules) := by
    intro nonempty linked
    rcases cycle_cases distinct with hcycle | ⟨_, done, settled, all⟩
    · exact hcycle
    · exact absurd (settled.eq_nil_of_linked all linked) nonempty
  refine ⟨explained, ⟨?_, ?_⟩, ?_⟩
  · intro hnil name cyclic
    rcases cycle_cases distinct with hcycle | ⟨_, done, settled, all⟩
    · rw [hnil] at hcycle
      cases hcycle
    · obtain ⟨next, linked, _⟩ := Relation.TransGen.head'_iff.1 cyclic
      exact settled.not_transGen (all name linked.1.mem_names) cyclic
  · intro acyclic
    rcases cycle_cases distinct with hcycle | ⟨hnil, _⟩
    · exact absurd acyclic hcycle.not_acyclic
    · exact hnil
  · intro nonempty acyclic hnil
    refine (explained nonempty fun name hname => ?_).not_acyclic acyclic
    obtain ⟨rule, hrule, rfl⟩ := List.mem_map.1 hname
    by_contra unlinked
    have htop : rule ∈ topRules rules := mem_topRules_iff.2 ⟨hrule, not_exists.1 unlinked⟩
    rw [hnil] at htop
    cases htop

/-- Expressions and terms that are parts of each other; an expression also goes on with itself. -/
def mutualRules : List Rule :=
  [⟨"expression", [[.reference "term" false .once, .reference "expression" true .once]]⟩,
    ⟨"term", [[.symbol "open" [] false, .reference "expression" false .once, .symbol "close" [] false],
      [.symbol "atom" ["name"] false, .reference "suffix" true .unbounded]]⟩,
    ⟨"suffix", [[.symbol "of" [] false, .reference "term" false .once]]⟩]

theorem cycle_explains_mutual :
    (names mutualRules).Nodup ∧ mutualRules ≠ [] ∧
      (∀ name ∈ names mutualRules, ∃ user, Links mutualRules user name) ∧
      cycle mutualRules = ["expression", "term", "expression"] ∧
      IsCycle mutualRules (cycle mutualRules) := by
  have distinct : (names mutualRules).Nodup := by decide
  have nonempty : mutualRules ≠ [] := nofun
  have linked : ∀ name ∈ names mutualRules, ∃ user, Links mutualRules user name := by
    have uses : ∀ rule ∈ mutualRules, ∃ other ∈ mutualRules,
        rule.name ∈ other.references ∧ rule.name ≠ other.name := by decide +kernel
    rintro name hname
    obtain ⟨rule, hrule, rfl⟩ := List.mem_map.1 hname
    obtain ⟨other, hother, href, hne⟩ := uses rule hrule
    exact ⟨other.name, uses_of_mem_references hother href, hne⟩
  have found : cycle mutualRules = ["expression", "term", "expression"] := by cbv
  exact ⟨distinct, nonempty, linked, found, (cycle_explains distinct).1 nonempty linked⟩

end ChainGrammar.Rules
