import Mathlib

/-!
# Finite maps and weighted totals

A finite map is a lookup function together with a proof that only finitely
many keys are bound.  Evaluation uses the function alone; the proof lets every
map be summed.  The lemmas say how inserting and erasing one key moves a
weighted total, which is all that value accounting over a map needs.
-/

namespace FirstIslamicCoin

/-- A lookup function that binds finitely many keys. -/
structure FiniteMap (α β : Type) where
  lookup : α → Option β
  finite_support : {key | lookup key ≠ none}.Finite

namespace FiniteMap

variable {α β : Type}

@[ext]
theorem ext {left right : FiniteMap α β}
    (hlookup : ∀ key, left.lookup key = right.lookup key) : left = right := by
  cases left
  cases right
  congr
  exact funext hlookup

def empty : FiniteMap α β where
  lookup := fun _ => none
  finite_support := by simp

@[simp]
theorem lookup_empty (key : α) : (empty : FiniteMap α β).lookup key = none := rfl

section Update

variable [DecidableEq α]

/-- Bind `key` to `value`, replacing what was there. -/
protected def insert (map : FiniteMap α β) (key : α) (value : β) : FiniteMap α β where
  lookup := fun other => if other = key then some value else map.lookup other
  finite_support := by
    refine (map.finite_support.insert key).subset ?_
    intro other hother
    by_cases heq : other = key
    · exact Set.mem_insert_iff.mpr (.inl heq)
    · refine Set.mem_insert_of_mem _ ?_
      simpa [heq] using hother

protected def erase (map : FiniteMap α β) (key : α) : FiniteMap α β where
  lookup := fun other => if other = key then none else map.lookup other
  finite_support := by
    refine map.finite_support.subset ?_
    intro other hother
    by_cases heq : other = key
    · simp [heq] at hother
    · simpa [heq] using hother

section

variable (map : FiniteMap α β)

include map

theorem lookup_insert (key other : α) (value : β) :
    (map.insert key value).lookup other =
      if other = key then some value else map.lookup other := rfl

theorem lookup_erase (key other : α) :
    (map.erase key).lookup other = if other = key then none else map.lookup other := rfl

@[simp]
theorem lookup_insert_self (key : α) (value : β) :
    (map.insert key value).lookup key = some value := by
  simp [lookup_insert]

@[simp]
theorem lookup_erase_self (key : α) :
    (map.erase key).lookup key = none := by
  simp [lookup_erase]

theorem lookup_insert_of_ne {key other : α} (value : β) (hne : other ≠ key) :
    (map.insert key value).lookup other = map.lookup other := by
  simp [lookup_insert, hne]

theorem lookup_erase_of_ne {key other : α} (hne : other ≠ key) :
    (map.erase key).lookup other = map.lookup other := by
  simp [lookup_erase, hne]

end

theorem map_lookup_erase {map : FiniteMap α β} {key : α} {keys : List α} (hnotMem : key ∉ keys) :
    keys.map (map.erase key).lookup = keys.map map.lookup := by
  apply List.map_congr_left
  intro other hmem
  exact lookup_erase_of_ne map (fun heq => hnotMem (heq ▸ hmem))

/-- Putting an erased binding back gives the map back. -/
theorem insert_erase {map : FiniteMap α β} {key : α} {value : β}
    (hbound : map.lookup key = some value) : (map.erase key).insert key value = map := by
  ext1 other
  by_cases heq : other = key
  · simp [heq, hbound]
  · simp [lookup_erase, lookup_insert, heq]

end Update

section Bulk

variable [DecidableEq α]

/-- Bind each key of a list in turn. -/
def insertAll (map : FiniteMap α β) (entries : List (α × β)) : FiniteMap α β :=
  entries.foldl (fun current entry => current.insert entry.1 entry.2) map

def eraseAll (map : FiniteMap α β) (keys : List α) : FiniteMap α β :=
  keys.foldl FiniteMap.erase map

section

variable (map : FiniteMap α β)

include map

@[simp]
theorem insertAll_nil : map.insertAll [] = map := rfl

@[simp]
theorem insertAll_cons (entry : α × β) (entries : List (α × β)) :
    map.insertAll (entry :: entries) = (map.insert entry.1 entry.2).insertAll entries := rfl

@[simp]
theorem eraseAll_nil : map.eraseAll [] = map := rfl

@[simp]
theorem eraseAll_cons (key : α) (keys : List α) :
    map.eraseAll (key :: keys) = (map.erase key).eraseAll keys := rfl

theorem lookup_eraseAll (keys : List α) (other : α) :
    (map.eraseAll keys).lookup other = if other ∈ keys then none else map.lookup other := by
  induction keys generalizing map with
  | nil => simp
  | cons key keys ih =>
    rw [eraseAll_cons, ih]
    by_cases hmem : other ∈ keys
    · simp [hmem]
    · by_cases heq : other = key
      · simp [heq]
      · simp [hmem, heq, lookup_erase]

end

variable {map : FiniteMap α β} {entries : List (α × β)}

theorem lookup_insertAll_of_notMem {other : α} (hfresh : other ∉ entries.map Prod.fst) :
    (map.insertAll entries).lookup other = map.lookup other := by
  induction entries generalizing map with
  | nil => rfl
  | cons entry entries ih =>
    rw [List.map_cons, List.mem_cons, not_or] at hfresh
    rw [insertAll_cons, ih hfresh.2, lookup_insert_of_ne _ _ hfresh.1]

theorem lookup_insertAll_of_mem {entry : α × β} (hnodup : (entries.map Prod.fst).Nodup)
    (hmem : entry ∈ entries) : (map.insertAll entries).lookup entry.1 = some entry.2 := by
  induction entries generalizing map with
  | nil => simp at hmem
  | cons first entries ih =>
    rw [List.map_cons, List.nodup_cons] at hnodup
    rw [insertAll_cons]
    rcases List.mem_cons.mp hmem with rfl | htail
    · rw [lookup_insertAll_of_notMem hnodup.1, lookup_insert_self]
    · exact ih hnodup.2 htail

/-- A key bound after a bulk insertion was bound before or is one of the new
entries. -/
theorem lookup_insertAll_cases {key : α} {value : β}
    (hlookup : (map.insertAll entries).lookup key = some value) :
    map.lookup key = some value ∨ (key, value) ∈ entries := by
  induction entries generalizing map with
  | nil => exact .inl hlookup
  | cons entry entries ih =>
    rw [insertAll_cons] at hlookup
    rcases ih hlookup with hbefore | hmem
    · rw [lookup_insert] at hbefore
      split_ifs at hbefore with heq
      · have hvalue : entry.2 = value := by simpa using hbefore
        exact .inr (by rw [heq, ← hvalue]; exact List.mem_cons_self)
      · exact .inl hbefore
    · exact .inr (List.mem_cons_of_mem _ hmem)

/-- What a bulk insertion binds a new key to does not depend on the map. -/
theorem lookup_insertAll_congr (left right : FiniteMap α β) {key : α}
    (hmem : key ∈ entries.map Prod.fst) :
    (left.insertAll entries).lookup key = (right.insertAll entries).lookup key := by
  induction entries generalizing left right with
  | nil => simp at hmem
  | cons entry entries ih =>
    rw [insertAll_cons, insertAll_cons]
    by_cases htail : key ∈ entries.map Prod.fst
    · exact ih _ _ htail
    · have heq : key = entry.1 := by
        rw [List.map_cons, List.mem_cons] at hmem
        exact hmem.resolve_right htail
      rw [lookup_insertAll_of_notMem htail, lookup_insertAll_of_notMem htail, heq,
        lookup_insert_self, lookup_insert_self]

/-- Erasing the first of some fresh entries just inserted leaves the others. -/
theorem erase_insertAll_cons {entry : α × β} (hfresh : map.lookup entry.1 = none)
    (hnotMem : entry.1 ∉ entries.map Prod.fst) :
    (map.insertAll (entry :: entries)).erase entry.1 = map.insertAll entries := by
  ext1 key
  by_cases heq : key = entry.1
  · rw [heq, lookup_erase_self, lookup_insertAll_of_notMem hnotMem, hfresh]
  · rw [lookup_erase_of_ne _ heq, insertAll_cons]
    by_cases hmem : key ∈ entries.map Prod.fst
    · exact lookup_insertAll_congr _ _ hmem
    · rw [lookup_insertAll_of_notMem hmem, lookup_insertAll_of_notMem hmem,
        lookup_insert_of_ne _ _ heq]

section AllBound

/-- Every binding of a map has a property. -/
def AllBound (holds : α → β → Prop) (map : FiniteMap α β) : Prop :=
  ∀ key value, map.lookup key = some value → holds key value

variable {holds : α → β → Prop} {map : FiniteMap α β}

theorem AllBound.erase (hmap : map.AllBound holds) (key : α) :
    (map.erase key).AllBound holds := by
  intro other value hlookup
  rw [lookup_erase] at hlookup
  split_ifs at hlookup
  exact hmap other value hlookup

theorem AllBound.eraseAll (hmap : map.AllBound holds) (keys : List α) :
    (map.eraseAll keys).AllBound holds := by
  intro other value hlookup
  rw [lookup_eraseAll] at hlookup
  split_ifs at hlookup
  exact hmap other value hlookup

theorem AllBound.insertAll (hmap : map.AllBound holds) {entries : List (α × β)}
    (hentries : ∀ entry ∈ entries, holds entry.1 entry.2) :
    (map.insertAll entries).AllBound holds := by
  intro key value hlookup
  rcases lookup_insertAll_cases hlookup with hbefore | hnew
  · exact hmap key value hbefore
  · exact hentries (key, value) hnew

end AllBound

section SameImage

variable {γ : Type} {f : β → γ} {left right : FiniteMap α β}

/-- Two maps bind the same keys, to values with the same image. -/
def SameImage (f : β → γ) (left right : FiniteMap α β) : Prop :=
  ∀ key, (right.lookup key).map f = (left.lookup key).map f

namespace SameImage

variable (hsame : SameImage f left right)

include hsame

theorem eraseAll (keys : List α) :
    SameImage f (left.eraseAll keys) (right.eraseAll keys) := by
  intro key
  rw [lookup_eraseAll, lookup_eraseAll]
  split_ifs
  · rfl
  · exact hsame key

theorem insertAll {entries others : List (α × β)}
    (hentries : others.map (Prod.map id f) = entries.map (Prod.map id f)) :
    SameImage f (left.insertAll entries) (right.insertAll others) := by
  induction entries generalizing left right others with
  | nil =>
    obtain rfl : others = [] := by simpa using hentries
    exact hsame
  | cons entry entries ih =>
    obtain ⟨other, rest, rfl, hhead, hrest⟩ := List.map_eq_cons_iff.mp hentries
    obtain ⟨hkey, hvalue⟩ := Prod.mk.inj hhead
    have hinserted : SameImage f (left.insert entry.1 entry.2)
        (right.insert other.1 other.2) := by
      intro key
      rw [lookup_insert, lookup_insert, show other.1 = entry.1 from hkey]
      split_ifs
      · exact congrArg some hvalue
      · exact hsame key
    exact ih hinserted hrest

omit [DecidableEq α] in
theorem exists_lookup {key : α} {value : β} (hlookup : left.lookup key = some value) :
    ∃ other, right.lookup key = some other ∧ f other = f value := by
  have hkey := hsame key
  rwa [hlookup, Option.map_some, Option.map_eq_some_iff] at hkey

end SameImage

end SameImage

end Bulk

section Total

variable (weight : β → ℤ)

/-- The weight of what `key` is bound to, and `0` for an unbound key. -/
def weightAt (map : FiniteMap α β) (key : α) : ℤ :=
  (map.lookup key).elim 0 weight

/-- The sum of the weights of all bound values. -/
noncomputable def total (map : FiniteMap α β) : ℤ :=
  ∑ key ∈ map.finite_support.toFinset, map.weightAt weight key

variable {map : FiniteMap α β}

theorem weightAt_of_lookup {key : α} {value : β} (hbound : map.lookup key = some value) :
    map.weightAt weight key = weight value := by
  simp [weightAt, hbound]

@[simp]
theorem total_empty : (empty : FiniteMap α β).total weight = 0 := by
  simp [total, weightAt]

/-- Any finite set of keys that covers the bound ones gives the total. -/
theorem total_eq_sum_of_subset {keys : Finset α}
    (hcover : ∀ key, map.lookup key ≠ none → key ∈ keys) :
    map.total weight = ∑ key ∈ keys, map.weightAt weight key := by
  refine Finset.sum_subset ?_ ?_
  · intro key hkey
    exact hcover key (by simpa using hkey)
  · intro key _ hunbound
    have hnone : map.lookup key = none := by simpa using hunbound
    simp [weightAt, hnone]

theorem sum_weightAt_nonneg {keys : List α}
    (hnonneg : ∀ key ∈ keys, ∀ value, map.lookup key = some value → 0 ≤ weight value) :
    0 ≤ (keys.map (map.weightAt weight)).sum := by
  apply List.sum_nonneg
  intro sum hmem
  obtain ⟨key, hkey, rfl⟩ := List.mem_map.mp hmem
  cases hlookup : map.lookup key with
  | none => simp [weightAt, hlookup]
  | some value =>
    rw [weightAt_of_lookup weight hlookup]
    exact hnonneg key hkey value hlookup

variable [DecidableEq α]

theorem total_insert {key : α} (value : β) (hfresh : map.lookup key = none) :
    (map.insert key value).total weight = map.total weight + weight value := by
  let keys := insert key map.finite_support.toFinset
  have hafter : (map.insert key value).total weight =
      ∑ other ∈ keys, (map.insert key value).weightAt weight other := by
    refine total_eq_sum_of_subset weight fun other hother => ?_
    by_cases heq : other = key
    · simp [keys, heq]
    · simpa [keys, heq, lookup_insert] using hother
  have hnotMem : key ∉ map.finite_support.toFinset := by simp [hfresh]
  rw [hafter, Finset.sum_insert hnotMem, add_comm]
  congr 1
  · refine Finset.sum_congr rfl fun other hother => ?_
    have hne : other ≠ key := fun heq => hnotMem (heq ▸ hother)
    simp [weightAt, lookup_insert_of_ne map value hne]
  · simp [weightAt]

theorem total_erase {key : α} {value : β} (hbound : map.lookup key = some value) :
    (map.erase key).total weight = map.total weight - weight value := by
  have hback := total_insert weight value (lookup_erase_self map key)
  rw [insert_erase hbound] at hback
  omega

/-- The weights of distinct keys together never exceed the total of a map
with nonnegative weights. -/
theorem sum_weightAt_le_total {keys : List α} (hnodup : keys.Nodup)
    (hnonneg : ∀ key value, map.lookup key = some value → 0 ≤ weight value) :
    (keys.map (map.weightAt weight)).sum ≤ map.total weight := by
  have hcover : map.total weight = ∑ key ∈ map.finite_support.toFinset ∪ keys.toFinset,
        map.weightAt weight key := by
    refine total_eq_sum_of_subset weight fun key hkey => ?_
    simp [hkey]
  rw [hcover, ← List.sum_toFinset _ hnodup]
  refine Finset.sum_le_sum_of_subset_of_nonneg Finset.subset_union_right ?_
  intro key _ _
  cases hlookup : map.lookup key with
  | none => simp [weightAt, hlookup]
  | some value =>
    rw [weightAt_of_lookup weight hlookup]
    exact hnonneg key value hlookup

/-- Fresh distinct keys add their weights to the total. -/
theorem total_insertAll {entries : List (α × β)} (hnodup : (entries.map Prod.fst).Nodup)
    (hfresh : ∀ entry ∈ entries, map.lookup entry.1 = none) :
    (map.insertAll entries).total weight =
      map.total weight + (entries.map fun entry => weight entry.2).sum := by
  induction entries generalizing map with
  | nil => simp
  | cons entry entries ih =>
    rw [List.map_cons, List.nodup_cons] at hnodup
    have hrest : ∀ other ∈ entries,
        (map.insert entry.1 entry.2).lookup other.1 = none := by
      intro other hmem
      have hne : other.1 ≠ entry.1 := fun heq =>
        hnodup.1 (heq ▸ List.mem_map_of_mem hmem)
      rw [lookup_insert_of_ne _ _ hne]
      exact hfresh other (List.mem_cons_of_mem _ hmem)
    rw [insertAll_cons, ih hnodup.2 hrest,
      total_insert weight entry.2 (hfresh entry List.mem_cons_self),
      List.map_cons, List.sum_cons, add_assoc]

/-- Distinct bound keys take their weights off the total. -/
theorem total_eraseAll {keys : List α} (hnodup : keys.Nodup)
    (hbound : ∀ key ∈ keys, map.lookup key ≠ none) :
    (map.eraseAll keys).total weight = map.total weight - (keys.map (map.weightAt weight)).sum := by
  induction keys generalizing map with
  | nil => simp
  | cons key keys ih =>
    rw [List.nodup_cons] at hnodup
    obtain ⟨value, hvalue⟩ := Option.ne_none_iff_exists'.mp (hbound key List.mem_cons_self)
    have hne : ∀ other ∈ keys, other ≠ key := fun other hmem heq =>
      hnodup.1 (heq ▸ hmem)
    have hrest : ∀ other ∈ keys, (map.erase key).lookup other ≠ none := by
      intro other hmem
      rw [lookup_erase_of_ne _ (hne other hmem)]
      exact hbound other (List.mem_cons_of_mem _ hmem)
    have hweights : keys.map ((map.erase key).weightAt weight) =
        keys.map (map.weightAt weight) := by
      apply List.map_congr_left
      intro other hmem
      simp only [weightAt, lookup_erase_of_ne _ (hne other hmem)]
    rw [eraseAll_cons, ih hnodup.2 hrest, total_erase weight hvalue, hweights,
      List.map_cons, List.sum_cons, weightAt_of_lookup weight hvalue]
    omega

end Total

end FiniteMap

end FirstIslamicCoin
