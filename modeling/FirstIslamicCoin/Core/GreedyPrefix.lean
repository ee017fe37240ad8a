import Mathlib.Algebra.Order.BigOperators.Group.List
import Mathlib.Data.List.Basic
import Mathlib.Tactic.Linarith
import Mathlib.Tactic.Ring

/-!
# Taking items until they are enough

A loop that takes the items of a list in order and stops as soon as what it has taken is
enough.  It returns the shortest prefix that is enough, or everything when no prefix is.
When every item has a price, no selection of items is worth more, after the prices, than
the items that are worth more than their price.
-/

namespace FirstIslamicCoin.GreedyPrefix

section Take

variable {Item : Type} (enough : List Item → Bool)

/-- Take items behind those already taken until they are enough. -/
def takeUntil (taken : List Item) : List Item → List Item
  | [] => taken
  | item :: items =>
      if enough (taken ++ [item]) then taken ++ [item]
      else takeUntil (taken ++ [item]) items

/-- The shortest nonempty prefix that is enough. -/
structure IsShortest (items front : List Item) : Prop where
  starts : front <+: items
  nonempty : front ≠ []
  sufficient : enough front = true
  shortest : ∀ earlier, earlier <+: front → earlier ≠ [] → enough earlier = true → earlier = front

variable {enough}

theorem IsShortest.unique {items front other : List Item} (hfront : IsShortest enough items front)
    (hother : IsShortest enough items other) : front = other := by
  rcases List.prefix_or_prefix_of_prefix hfront.starts hother.starts with hshort | hshort
  · exact hother.shortest front hshort hfront.nonempty hfront.sufficient
  · exact (hfront.shortest other hshort hother.nonempty hother.sufficient).symm

theorem IsShortest.singleton {item : Item} (hitem : enough [item] = true) :
    IsShortest enough [item] [item] where
  starts := List.prefix_rfl
  nonempty := List.cons_ne_nil _ _
  sufficient := hitem
  shortest := by
    intro earlier hprefix hne _
    rcases List.prefix_cons_iff.mp hprefix with hnil | ⟨rest, rfl, hrest⟩
    · exact absurd hnil hne
    · rw [List.prefix_nil.mp hrest]

/-- The loop in terms of what follows the items already taken. -/
theorem takeUntil_append (taken items : List Item) :
    takeUntil enough taken items =
      taken ++ takeUntil (fun front => enough (taken ++ front)) [] items := by
  induction items generalizing taken enough with
  | nil => exact (List.append_nil taken).symm
  | cons item items ih =>
    rw [takeUntil, takeUntil, List.nil_append]
    split_ifs with hstop
    · rfl
    · rw [ih, @ih (fun front => enough (taken ++ front)) [item], List.append_assoc]
      simp only [List.append_assoc]

/-- Either the loop stops at the shortest prefix that is enough, or it takes everything and
no prefix is. -/
theorem takeUntil_cases (items : List Item) :
    IsShortest enough items (takeUntil enough [] items) ∨
      takeUntil enough [] items = items ∧
        ∀ front, front <+: items → front ≠ [] → enough front = false := by
  induction items generalizing enough with
  | nil =>
    refine .inr ⟨rfl, fun front hfront hne => ?_⟩
    exact absurd (List.prefix_nil.mp hfront) hne
  | cons item items ih =>
    rw [takeUntil, List.nil_append]
    by_cases hstop : enough [item] = true
    · rw [if_pos hstop]
      refine .inl ⟨List.prefix_append [item] items, List.cons_ne_nil _ _, hstop, ?_⟩
      intro earlier hearlier hne _
      rcases List.prefix_cons_iff.mp hearlier with hnil | ⟨rest, hrest, hprefix⟩
      · exact absurd hnil hne
      · rw [hrest, List.prefix_nil.mp hprefix]
    · rw [if_neg hstop, takeUntil_append]
      have hsingle : enough [item] = false := Bool.eq_false_iff.mpr hstop
      rcases @ih fun front => enough ([item] ++ front) with hfound | ⟨hall, hnone⟩
      · left
        set tail := takeUntil (fun front => enough ([item] ++ front)) [] items
        refine ⟨List.prefix_cons_inj item |>.mpr hfound.starts, List.cons_ne_nil _ _,
          hfound.sufficient, ?_⟩
        intro earlier hearlier hne henough
        rcases List.prefix_cons_iff.mp hearlier with hnil | ⟨rest, rfl, hprefix⟩
        · exact absurd hnil hne
        · have hrest : rest ≠ [] := by
            rintro rfl
            rw [hsingle] at henough
            exact absurd henough Bool.false_ne_true
          rw [hfound.shortest rest hprefix hrest henough]
          rfl
      · right
        refine ⟨by rw [hall]; rfl, fun front hfront hne => ?_⟩
        rcases List.prefix_cons_iff.mp hfront with hnil | ⟨rest, rfl, hprefix⟩
        · exact absurd hnil hne
        · by_cases hrest : rest = []
          · rw [hrest]
            exact hsingle
          · exact hnone rest hprefix hrest

theorem takeUntil_starts (enough : List Item → Bool) (items : List Item) :
    takeUntil enough [] items <+: items := by
  rcases @takeUntil_cases Item enough items with hfound | ⟨hall, -⟩
  · exact hfound.starts
  · exact ⟨[], by rw [hall, List.append_nil]⟩

/-- The loop finds the shortest prefix that is enough. -/
theorem takeUntil_eq {items front : List Item} (hfront : IsShortest enough items front) :
    takeUntil enough [] items = front := by
  rcases takeUntil_cases items with hfound | ⟨-, hnone⟩
  · exact hfound.unique hfront
  · have hshort := hnone front hfront.starts hfront.nonempty
    rw [hfront.sufficient] at hshort
    exact Bool.noConfusion hshort

/-- Items taken that are enough are the shortest prefix that is. -/
theorem isShortest_takeUntil {items : List Item} (henough : enough (takeUntil enough [] items) = true)
    (hne : takeUntil enough [] items ≠ []) :
    IsShortest enough items (takeUntil enough [] items) := by
  rcases takeUntil_cases items with hfound | ⟨-, hnone⟩
  · exact hfound
  · rw [hnone _ (takeUntil_starts enough items) hne] at henough
    exact Bool.noConfusion henough

/-- The items taken are not enough when no prefix is. -/
theorem takeUntil_short_iff {items : List Item} (hnil : enough [] = false) :
    enough (takeUntil enough [] items) = false ↔
      ∀ front, front <+: items → front ≠ [] → enough front = false := by
  rcases @takeUntil_cases Item enough items with hfound | ⟨hall, hnone⟩
  · refine iff_of_false (by rw [hfound.sufficient]; exact Bool.noConfusion) fun hshort => ?_
    have hfalse := hshort _ hfound.starts hfound.nonempty
    rw [hfound.sufficient] at hfalse
    exact Bool.noConfusion hfalse
  · refine iff_of_true ?_ hnone
    by_cases hitems : items = []
    · rw [hall, hitems, hnil]
    · rw [hall, hnone items List.prefix_rfl hitems]

/-- Only the prefixes of the items matter. -/
theorem IsShortest.congr {other : List Item → Bool} {items front : List Item}
    (hsame : ∀ part, part <+: items → enough part = other part)
    (hfront : IsShortest enough items front) : IsShortest other items front where
  starts := hfront.starts
  nonempty := hfront.nonempty
  sufficient := by rw [← hsame front hfront.starts, hfront.sufficient]
  shortest := by
    intro earlier hearlier hne henough
    rw [← hsame earlier (hearlier.trans hfront.starts)] at henough
    exact hfront.shortest earlier hearlier hne henough

end Take

section Worth

def worthwhile (price : ℤ) (values : List ℤ) : List ℤ := values.filter fun value => price < value

/-- What values are worth after a price for each. -/
def netWorth (price : ℤ) (values : List ℤ) : ℤ := (values.map fun value => value - price).sum

theorem netWorth_eq (price : ℤ) (values : List ℤ) :
    netWorth price values = values.sum - price * values.length := by
  induction values with
  | nil => simp [netWorth]
  | cons value values ih =>
    rw [netWorth] at ih ⊢
    rw [List.map_cons, List.sum_cons, ih, List.sum_cons, List.length_cons]
    push_cast
    ring

/-- No selection is worth more than the values above the price. -/
theorem netWorth_le_worthwhile (price : ℤ) {values selection : List ℤ}
    (hselection : selection.Sublist values) :
    netWorth price selection ≤ netWorth price (worthwhile price values) := by
  induction hselection with
  | slnil => exact le_refl _
  | cons value hsublist ih =>
    refine ih.trans ?_
    rw [worthwhile, worthwhile, List.filter_cons]
    split_ifs with hworth
    · have hpositive : price < value := by simpa using hworth
      rw [netWorth, netWorth, List.map_cons, List.sum_cons]
      linarith
    · exact le_refl _
  | cons_cons value hsublist ih =>
    rw [worthwhile, List.filter_cons]
    rw [worthwhile, netWorth, netWorth] at ih
    rw [netWorth, List.map_cons, List.sum_cons]
    split_ifs with hworth
    · rw [netWorth, List.map_cons, List.sum_cons]
      linarith
    · have hnegative : value ≤ price := by simpa using hworth
      rw [netWorth]
      linarith

end Worth

end FirstIslamicCoin.GreedyPrefix
