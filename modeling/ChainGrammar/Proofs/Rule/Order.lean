import ChainGrammar.Proofs.Tree.Unfolded
import Mathlib.Data.List.Forall2
import Mathlib.Data.List.Nodup

/-!
# The order of rules

Rules are found by their names, so where the names are distinct the order of the rules decides little: which
of several faults is reported, and in what order the entry rules come.  Reordered rules have the same
unfoldings (`Rules.Reordered.ofEntry`), and they have entry rules or a fault of the same kind
(`Rules.Reordered.entryNames`).
-/

set_option autoImplicit false

namespace ChainGrammar

/-- Something is found in a list in whatever order the list is. -/
theorem rel_findSome? {α β : Type} {l l' : List α} (perm : l.Perm l') (f : α → Option β) :
    Option.Rel (fun _ _ => True) (l.findSome? f) (l'.findSome? f) := by
  have hnone : l.findSome? f = none ↔ l'.findSome? f = none := by
    simp only [List.findSome?_eq_none_iff, perm.mem_iff]
  cases hfirst : l.findSome? f with
  | none =>
    rw [hnone.1 hfirst]
    exact .none
  | some first =>
    cases hsecond : l'.findSome? f with
    | none =>
      rw [hnone.2 hsecond] at hfirst
      cases hfirst
    | some second => exact .some trivial

/-- Two answers that are both faults or both values, which are related. -/
inductive Agree {ε α : Type} (faults : ε → ε → Prop) (values : α → α → Prop) :
    Except ε α → Except ε α → Prop where
  | error {fault fault' : ε} (h : faults fault fault') : Agree faults values (.error fault) (.error fault')
  | ok {value value' : α} (h : values value value') : Agree faults values (.ok value) (.ok value')

/-- The values of answers that agree are related. -/
theorem Agree.of_ok {ε α : Type} {faults : ε → ε → Prop} {values : α → α → Prop} {value value' : α}
    (h : Agree faults values (.ok value) (.ok value')) : values value value' := by
  cases h with
  | ok hvalues => exact hvalues

/-- Faults of the same kind, which may name different rules. -/
inductive RuleError.SameKind : RuleError → RuleError → Prop where
  | noRules : SameKind .noRules .noRules
  | noEntryPoint (cycle cycle' : List String) : SameKind (.noEntryPoint cycle) (.noEntryPoint cycle')
  | undefinedReference (rule reference rule' reference' : String) :
      SameKind (.undefinedReference rule reference) (.undefinedReference rule' reference')
  | emptyDefinition (rule rule' : String) (index index' : Nat) :
      SameKind (.emptyDefinition rule index) (.emptyDefinition rule' index')
  | undefinedMainRule (name : String) : SameKind (.undefinedMainRule name) (.undefinedMainRule name)

namespace Rules

variable {rules other : List Rule}

/-- The same rules in another order, with distinct names. -/
structure Reordered (rules other : List Rule) : Prop where
  perm : rules.Perm other
  distinct : (names rules).Nodup

/-- Where names are distinct, a rule is found by its name exactly if it is one of the rules. -/
theorem find?_eq_some_iff (distinct : (names rules).Nodup) {name : String} {rule : Rule} :
    find? rules name = some rule ↔ rule ∈ rules ∧ rule.name = name := by
  constructor
  · exact fun found => ⟨find?_mem found, find?_name found⟩
  · rintro ⟨hrule, rfl⟩
    obtain ⟨found, hfound⟩ := find?_isSome_of_mem hrule
    rw [hfound, List.inj_on_of_nodup_map distinct (find?_mem hfound) hrule (find?_name hfound)]

namespace Reordered

/-- The order of the rules does not matter for finding one. -/
theorem find? (same : Reordered rules other) (name : String) :
    Rules.find? rules name = Rules.find? other name := by
  have distinct : (names other).Nodup := (same.perm.map Rule.name).nodup same.distinct
  refine Option.ext fun rule => ?_
  rw [find?_eq_some_iff same.distinct, find?_eq_some_iff distinct, same.perm.mem_iff]

/-- Reordered rules are unfolded alike on every path. -/
theorem bodyOf (same : Reordered rules other) (path : List String) (name : String) (off : name ∉ path) :
    Unfolding.bodyOf rules path name off = Unfolding.bodyOf other path name off := by
  cases found : Rules.find? rules name with
  | none => rw [Tree.bodyOf_of_none found, Tree.bodyOf_of_none ((same.find? name).symm.trans found)]
  | some rule =>
    -- on the longer path fewer rules are left to be unfolded
    have fewer := unvisited_cons_lt found off
    have inner : (fun target h => Unfolding.bodyOf rules (name :: path) target h) =
        fun target h => Unfolding.bodyOf other (name :: path) target h := by
      funext target h
      exact bodyOf same (name :: path) target h
    rw [Tree.bodyOf_of_find? found off, inner,
      Tree.bodyOf_of_find? ((same.find? name).symm.trans found) off]
termination_by unvisited rules path
decreasing_by exact fewer

/-- Reordered rules have the same unfolded entry rules. -/
theorem ofEntry (same : Reordered rules other) :
    Unfolding.ofEntry rules = Unfolding.ofEntry other := by
  funext name
  rw [Unfolding.ofEntry, Unfolding.ofEntry, same.bodyOf]

theorem emptyDefinition? (same : Reordered rules other) :
    Option.Rel (fun _ _ => True) (Rules.emptyDefinition? rules) (Rules.emptyDefinition? other) :=
  rel_findSome? same.perm _

theorem undefinedReference? (same : Reordered rules other) :
    Option.Rel (fun _ _ => True) (Rules.undefinedReference? rules) (Rules.undefinedReference? other) := by
  unfold Rules.undefinedReference?
  simp only [same.find?]
  exact rel_findSome? same.perm _

/-- The same rules are top rules. -/
theorem topRules (same : Reordered rules other) : (topRules rules).Perm (topRules other) := by
  unfold Rules.topRules
  simp only [same.perm.any_eq]
  exact same.perm.filter _

/-- Reordered rules have the same entry rules, with the main rule in front if there is one, or else a fault of
the same kind. -/
theorem entryNames (same : Reordered rules other) (options : Options) :
    Agree RuleError.SameKind
      (fun entries entries' => entries.Perm entries' ∧ ∀ main, options.mainRule = some main →
        entries.head? = some main ∧ entries'.head? = some main)
      (Rules.entryNames rules options) (Rules.entryNames other options) := by
  have htop : (names (Rules.topRules rules)).Perm (names (Rules.topRules other)) :=
    same.topRules.map Rule.name
  have hempty : (names (Rules.topRules rules)).isEmpty = (names (Rules.topRules other)).isEmpty := by
    rw [Bool.eq_iff_iff, List.isEmpty_iff, List.isEmpty_iff]
    exact ⟨fun h => List.nil_perm.1 (h ▸ htop), fun h => List.perm_nil.1 (h ▸ htop)⟩
  unfold Rules.entryNames
  dsimp only
  rw [← hempty]
  split
  · exact .error (.noEntryPoint _ _)
  · cases options.mainRule with
    | none => exact .ok ⟨htop, nofun⟩
    | some main =>
      dsimp only
      rw [same.find? main]
      split
      · refine .ok ⟨.cons main (htop.filter _), fun name hname => ?_⟩
        obtain rfl := Option.some.inj hname
        exact ⟨rfl, rfl⟩
      · exact .error (.undefinedMainRule main)

end Reordered

end Rules

end ChainGrammar
