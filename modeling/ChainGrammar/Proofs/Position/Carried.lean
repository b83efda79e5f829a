import ChainGrammar.Proofs.Position.Machine

/-!
# The nestings that are carried over

A call carries over the nestings of the called items and all that are below these
(`Position.gathered_nestingsOf`).  They make a table again, and they stand for the same stacks as before
(`Position.unfolds_nestingsOf_iff`).
-/

set_option autoImplicit false

namespace ChainGrammar

namespace Nesting

/-- A table is being divided into what is left and what is kept; what is kept still needs no more than
what is to do. -/
structure Gathering (all left kept : Std.TreeMap Nat Nesting) (todo : List Nat) : Prop where
  fromLeft : ∀ (number : Nat) (nesting : Nesting), left[number]? = some nesting →
    all[number]? = some nesting
  fromKept : ∀ (number : Nat) (nesting : Nesting), kept[number]? = some nesting →
    all[number]? = some nesting
  split : ∀ (number : Nat) (nesting : Nesting), all[number]? = some nesting →
    left[number]? = some nesting ∨ kept[number]? = some nesting
  closed : ∀ (number : Nat) (nesting : Nesting), kept[number]? = some nesting →
    ∀ below, some below ∈ nesting.parents → below ∈ all → below ∈ kept ∨ below ∈ todo

/-- What is gathered is part of the table, has what there was to do, and is closed. -/
structure Gathered (all result : Std.TreeMap Nat Nesting) (wanted : Nat → Prop) : Prop where
  part : ∀ (number : Nat) (nesting : Nesting), result[number]? = some nesting →
    all[number]? = some nesting
  wanted : ∀ number, wanted number → number ∈ all → number ∈ result
  closed : ∀ (number : Nat) (nesting : Nesting), result[number]? = some nesting →
    ∀ below, some below ∈ nesting.parents → below ∈ all → below ∈ result

variable {all left kept : Std.TreeMap Nat Nesting} {number : Nat} {rest : List Nat}

/-- A number that is not left is passed over. -/
theorem gather_none (missing : left[number]? = none) :
    gather left kept (number :: rest) = gather left kept rest := by
  rw [gather]
  split
  · rfl
  · rename_i nesting found
    rw [missing] at found
    cases found

/-- A nesting that is left is moved, and the nestings below it are to be moved too. -/
theorem gather_some {nesting : Nesting} (found : left[number]? = some nesting) :
    gather left kept (number :: rest) =
      gather (left.erase number) (kept.insert number nesting)
        (nesting.parents.filterMap id ++ rest) := by
  rw [gather]
  split
  · rename_i missing
    rw [found] at missing
    cases missing
  · rename_i other hother
    obtain rfl := Option.some.inj (found.symm.trans hother)
    rfl

/-- A number that is not left need not be done. -/
theorem Gathering.skip (h : Gathering all left kept (number :: rest))
    (missing : left[number]? = none) : Gathering all left kept rest := by
  refine { h with closed := fun other nesting found below hbelow hall => ?_ }
  rcases h.closed other nesting found below hbelow hall with hkept | htodo
  · exact .inl hkept
  · rcases List.mem_cons.1 htodo with rfl | htodo
    · obtain ⟨nesting', hnesting'⟩ := Walk.exists_of_mem hall
      rcases h.split below nesting' hnesting' with hleft | hkept
      · rw [missing] at hleft
        cases hleft
      · exact .inl (Walk.mem_of_getElem? hkept)
    · exact .inr htodo

/-- Moving a nesting leaves what it needs to be done. -/
theorem Gathering.move (h : Gathering all left kept (number :: rest)) {nesting : Nesting}
    (found : left[number]? = some nesting) :
    Gathering all (left.erase number) (kept.insert number nesting)
      (nesting.parents.filterMap id ++ rest) := by
  have hinsert : ∀ other : Nat, (kept.insert number nesting)[other]? =
      if number = other then some nesting else kept[other]? := by
    intro other
    simp only [Std.TreeMap.getElem?_insert, Std.LawfulEqOrd.compare_eq_iff_eq]
  have herase : ∀ other : Nat, (left.erase number)[other]? =
      if number = other then none else left[other]? := by
    intro other
    simp only [Std.TreeMap.getElem?_erase, Std.LawfulEqOrd.compare_eq_iff_eq]
  constructor
  · intro other nesting' hother
    rw [herase] at hother
    split at hother
    · cases hother
    · exact h.fromLeft other nesting' hother
  · intro other nesting' hother
    rw [hinsert] at hother
    split at hother
    · rename_i hsame
      obtain rfl := Option.some.inj hother
      exact hsame ▸ h.fromLeft number nesting found
    · exact h.fromKept other nesting' hother
  · intro other nesting' hall
    rw [herase, hinsert]
    split
    · rename_i hsame
      subst hsame
      rw [h.fromLeft number nesting found] at hall
      exact .inr hall
    · exact h.split other nesting' hall
  · intro other nesting' hother below hbelow hall
    rw [hinsert] at hother
    have hmem : ∀ other : Nat, other ∈ kept.insert number nesting ↔ number = other ∨ other ∈ kept := by
      intro other
      simp only [Std.TreeMap.mem_insert, Std.LawfulEqOrd.compare_eq_iff_eq]
    rw [hmem, List.mem_append, List.mem_filterMap]
    split at hother
    · obtain rfl := Option.some.inj hother
      exact .inr (.inl ⟨some below, hbelow, rfl⟩)
    · rcases h.closed other nesting' hother below hbelow hall with hkept | htodo
      · exact .inl (.inr hkept)
      · rcases List.mem_cons.1 htodo with rfl | htodo
        · exact .inl (.inl rfl)
        · exact .inr (.inr htodo)

/-- Everything that is kept or to be done is gathered, with all that is below it. -/
theorem Gathering.gathered (left kept : Std.TreeMap Nat Nesting) (todo : List Nat)
    (h : Gathering all left kept todo) :
    Gathered all (gather left kept todo) fun number => number ∈ kept ∨ number ∈ todo := by
  match todo, h with
  | [], h =>
    rw [gather]
    refine ⟨h.fromKept, fun number hnumber _ => ?_, fun number nesting found below hbelow hall => ?_⟩
    · exact hnumber.resolve_right List.not_mem_nil
    · exact (h.closed number nesting found below hbelow hall).resolve_right List.not_mem_nil
  | number :: rest, h =>
    cases found : left[number]? with
    | none =>
      rw [gather_none found]
      have ih := Gathering.gathered left kept rest (h.skip found)
      refine { ih with wanted := fun other hother hall => ?_ }
      rcases hother with hkept | htodo
      · exact ih.wanted other (.inl hkept) hall
      · rcases List.mem_cons.1 htodo with rfl | htodo
        · obtain ⟨nesting, hnesting⟩ := Walk.exists_of_mem hall
          rcases h.split other nesting hnesting with hleft | hkept
          · rw [found] at hleft
            cases hleft
          · exact ih.wanted other (.inl (Walk.mem_of_getElem? hkept)) hall
        · exact ih.wanted other (.inr htodo) hall
    | some nesting =>
      rw [gather_some found]
      have fewer := size_erase_lt found
      have ih := Gathering.gathered (left.erase number) (kept.insert number nesting)
        (nesting.parents.filterMap id ++ rest) (h.move found)
      refine { ih with wanted := fun other hother hall => ih.wanted other ?_ hall }
      rw [Std.TreeMap.mem_insert, Std.LawfulEqOrd.compare_eq_iff_eq]
      rcases hother with hkept | htodo
      · exact .inl (.inr hkept)
      · rcases List.mem_cons.1 htodo with rfl | htodo
        · exact .inl (.inl rfl)
        · exact .inr (List.mem_append_right _ htodo)
termination_by (left.size, todo.length)

end Nesting

namespace Position

variable {tree : Tree} {position : Position} {items : List Item}

/-- The nestings that are carried over. -/
theorem gathered_nestingsOf (position : Position) (items : List Item) :
    Nesting.Gathered position.nestings (position.nestingsOf items)
      fun number => ∃ item ∈ items, item.nesting = some number := by
  have h : Nesting.Gathering position.nestings position.nestings ∅ (items.filterMap Item.nesting) := by
    refine ⟨fun _ _ h => h, fun number nesting h => ?_, fun _ _ h => .inl h,
      fun number nesting h => ?_⟩ <;> simp at h
  have hgathered := h.gathered
  refine { hgathered with wanted := fun number hnumber => hgathered.wanted number (.inr ?_) }
  exact List.mem_filterMap.2 hnumber

/-- A nesting that is carried over stays as it is. -/
theorem getElem?_nestingsOf {number : Nat} {nesting : Nesting}
    (found : position.nestings[number]? = some nesting) (carried : number ∈ position.nestingsOf items) :
    (position.nestingsOf items)[number]? = some nesting := by
  obtain ⟨other, hother⟩ := Walk.exists_of_mem carried
  obtain rfl := Option.some.inj
    (found.symm.trans ((position.gathered_nestingsOf items).part number other hother))
  exact hother

/-- The nestings that are carried over make a table. -/
theorem table_nestingsOf {next : Nat} (table : Nesting.Table tree position.nestings next)
    (items : List Item) : Nesting.Table tree (position.nestingsOf items) next := by
  have hgathered := position.gathered_nestingsOf items
  have hpresent : ∀ (number : Nat) (nesting : Nesting),
      (position.nestingsOf items)[number]? = some nesting → ∀ parent ∈ nesting.parents,
        Nesting.Present (position.nestingsOf items) parent := by
    rintro number nesting found parent hparent below rfl
    have hall := table.present number nesting (hgathered.part number nesting found) _ hparent below rfl
    exact hgathered.closed number nesting found below hparent hall
  refine ⟨fun number hnumber => ?_, fun number nesting found => ?_, fun number nesting found => ?_,
    hpresent, fun number nesting found parent hparent => ?_, fun number nesting found => ?_⟩
  · obtain ⟨nesting, found⟩ := Walk.exists_of_mem hnumber
    exact table.below number (Walk.mem_of_getElem? (hgathered.part number nesting found))
  · exact table.frame number nesting (hgathered.part number nesting found)
  · exact table.distinct number nesting (hgathered.part number nesting found)
  · have hdepth : Nesting.depthIn (position.nestingsOf items) parent =
        Nesting.depthIn position.nestings parent := by
      cases parent with
      | none => rfl
      | some below =>
        obtain ⟨other, hother⟩ := Walk.exists_of_mem (hpresent number nesting found _ hparent below rfl)
        rw [Nesting.depthIn, Nesting.depthIn, hother, hgathered.part below other hother]
    rw [hdepth]
    exact table.depth number nesting (hgathered.part number nesting found) parent hparent
  · exact table.founded number nesting (hgathered.part number nesting found)

/-- Of two positions the second has all nestings that the first has of what is below a nesting. -/
theorem Unfolds.transfer {other : Position} {nesting : Option Nat} {stack : List Frame}
    (h : position.Unfolds nesting stack) (present : Nesting.Present other.nestings nesting)
    (part : ∀ (number : Nat) (nesting : Nesting), position.nestings[number]? = some nesting →
      number ∈ other.nestings → other.nestings[number]? = some nesting ∧
        ∀ parent ∈ nesting.parents, Nesting.Present other.nestings parent) :
    other.Unfolds nesting stack := by
  induction h with
  | top => exact .top
  | nested found member rest ih =>
    obtain ⟨hother, hparents⟩ := part _ _ found (present _ rfl)
    exact .nested hother member (ih (hparents _ member))

/-- The nestings that are carried over stand for the same stacks as before. -/
theorem unfolds_nestingsOf_iff {next : Nat} (table : Nesting.Table tree position.nestings next)
    {carried : Position} (hcarried : carried.nestings = position.nestingsOf items) {item : Item}
    (hitem : item ∈ items) {stack : List Frame} :
    carried.Unfolds item.nesting stack ↔ position.Unfolds item.nesting stack := by
  have hgathered := position.gathered_nestingsOf items
  have htable := table_nestingsOf table items
  constructor
  · intro h
    refine h.transfer (fun number hnumber => ?_) fun number nesting found _ => ?_
    · have hpresent := h.present number hnumber
      rw [hcarried] at hpresent
      obtain ⟨nesting, found⟩ := Walk.exists_of_mem hpresent
      exact Walk.mem_of_getElem? (hgathered.part number nesting found)
    · rw [hcarried] at found
      have hpart := hgathered.part number nesting found
      exact ⟨hpart, table.present number nesting hpart⟩
  · intro h
    refine h.transfer (fun number hnumber => ?_) fun number nesting found hmem => ?_
    · rw [hcarried]
      exact hgathered.wanted number ⟨item, hitem, hnumber⟩ (h.present number hnumber)
    · rw [hcarried] at hmem ⊢
      obtain ⟨other, hother⟩ := Walk.exists_of_mem hmem
      obtain rfl := Option.some.inj (found.symm.trans (hgathered.part number other hother))
      exact ⟨hother, htable.present number nesting hother⟩

end Position

end ChainGrammar
