import Mathlib

/-!
# Reading a list page by page, with a key as the cursor

A list is ordered by descending keys, items without a key last.  A reader takes the first
items, asks again for the items below the smallest key it was given, and goes on while there
are more.  It gets every item with a key exactly when no page ends between two items of one
key.
-/

namespace FirstIslamicCoin.KeyPaging

section Sorting

variable {Item : Type} (before : Item → Item → Prop) [DecidableRel before] [Std.Total before]
  [IsTrans Item before]

omit [Std.Total before] in
theorem filter_orderedInsert (keeps : Item → Bool) (item : Item) {items : List Item}
    (hsorted : items.Pairwise before) :
    (items.orderedInsert before item).filter keeps =
      if keeps item then (items.filter keeps).orderedInsert before item
      else items.filter keeps := by
  induction items with
  | nil => by_cases hkeeps : keeps item <;> simp [hkeeps]
  | cons first items ih =>
    obtain ⟨hfirst, hrest⟩ := List.pairwise_cons.mp hsorted
    by_cases hle : before item first
    · have hall : ∀ other ∈ (first :: items).filter keeps, before item other := by
        intro other hmem
        rcases List.mem_cons.mp (List.mem_filter.mp hmem).1 with rfl | hother
        · exact hle
        · exact trans_of before hle (hfirst other hother)
      rw [List.orderedInsert_cons_of_le before items hle, List.filter_cons]
      split_ifs
      · cases hcases : (first :: items).filter keeps with
        | nil => rfl
        | cons head tail =>
          rw [List.orderedInsert_cons_of_le before tail (hall head (hcases ▸ List.mem_cons_self))]
      · rfl
    · rw [List.orderedInsert_of_not_le before items hle, List.filter_cons, ih hrest,
        List.filter_cons]
      split_ifs
      · rw [List.orderedInsert_of_not_le before _ hle]
      · rfl
      · rfl
      · rfl

/-- A stable sort commutes with a selection. -/
theorem filter_insertionSort (keeps : Item → Bool) (items : List Item) :
    (items.insertionSort before).filter keeps = (items.filter keeps).insertionSort before := by
  induction items with
  | nil => rfl
  | cons item items ih =>
    rw [List.insertionSort_cons,
      filter_orderedInsert before keeps item (List.pairwise_insertionSort before items), ih,
      List.filter_cons]
    split_ifs <;> rfl

end Sorting

section Reading

variable {Item : Type} (key : Item → Option ℤ)

def below (bound : ℤ) (item : Item) : Bool := (key item).all (· < bound)

/-- What a reader is given, page by page; nothing when the fuel does not suffice. -/
def collect (limit : ℕ) : ℕ → List Item → Option (List Item)
  | 0, _ => none
  | fuel + 1, items =>
      if limit < items.length then
        match ((items.take limit).filterMap key).min? with
        | none => some (items.take limit)
        | some bound =>
            (collect limit fuel (items.filter (below key bound))).map (items.take limit ++ ·)
      else some (items.take limit)

/-- Keys go down, and items without a key come last. -/
def Descends (first second : Item) : Prop :=
  ∀ low, key second = some low → ∃ high, key first = some high ∧ low ≤ high

/-- No page ends between two items of one key. -/
def Unsplit (limit : ℕ) (items : List Item) : Prop :=
  ∀ (position : ℕ) (last next : Item), (position + 1) % limit = 0 →
    items[position]? = some last → items[position + 1]? = some next → key last = key next →
      key next = none

variable {key} {limit : ℕ} {items : List Item}

theorem mem_of_mem_collect {fuel : ℕ} {received : List Item}
    (hcollect : collect key limit fuel items = some received) {item : Item}
    (hmem : item ∈ received) : item ∈ items := by
  induction fuel generalizing items received with
  | zero => exact absurd hcollect nofun
  | succ fuel ih =>
    rw [collect] at hcollect
    split_ifs at hcollect
    · split at hcollect
      · obtain rfl := Option.some.inj hcollect
        exact List.mem_of_mem_take hmem
      · obtain ⟨rest, hrest, rfl⟩ := Option.map_eq_some_iff.mp hcollect
        rcases List.mem_append.mp hmem with hpage | hlater
        · exact List.mem_of_mem_take hpage
        · exact (List.mem_filter.mp (ih hrest hlater)).1
    · obtain rfl := Option.some.inj hcollect
      exact List.mem_of_mem_take hmem

/-- The smallest key of a page that ends with a key. -/
theorem min?_filterMap_of_last {front : List Item} {last : Item} {bound : ℤ}
    (hordered : (front ++ [last]).Pairwise (Descends key)) (hlast : key last = some bound) :
    ((front ++ [last]).filterMap key).min? = some bound := by
  rw [List.min?_eq_some_iff]
  refine ⟨List.mem_filterMap.mpr ⟨last, by simp, hlast⟩, ?_⟩
  intro other hother
  obtain ⟨item, hitem, hkey⟩ := List.mem_filterMap.mp hother
  rcases List.mem_append.mp hitem with hfront | hsame
  · obtain ⟨high, hhigh, hle⟩ :=
      (List.pairwise_append.mp hordered).2.2 item hfront last (by simp) bound hlast
    rwa [Option.some.inj (hkey.symm.trans hhigh)]
  · rw [List.mem_singleton.mp hsame, hlast] at hkey
    exact (Option.some.inj hkey).le

theorem length_filter_below_lt {bound : ℤ} (hbound : bound ∈ items.filterMap key) :
    (items.filter (below key bound)).length < items.length := by
  obtain ⟨item, hitem, hkey⟩ := List.mem_filterMap.mp hbound
  exact List.length_filter_lt_length_iff_exists.mpr ⟨item, hitem, by simp [below, hkey]⟩

theorem exists_split_page (hlimit : 0 < limit) (hmore : limit < items.length) :
    ∃ start last next tail, items = start ++ last :: next :: tail ∧ start.length + 1 = limit := by
  obtain ⟨count, rfl⟩ : ∃ count, limit = count + 1 := ⟨limit - 1, by omega⟩
  refine ⟨items.take count, items[count], items[count + 1], items.drop (count + 2), ?_, ?_⟩
  · rw [← List.drop_eq_getElem_cons hmore, ← List.drop_eq_getElem_cons, List.take_append_drop]
  · rw [List.length_take]
    omega

/-- Below the key of the last item of a page stands what follows the page, unless the next
item has that key too. -/
theorem filter_below_page {start tail : List Item} {last next : Item} {bound : ℤ}
    (hordered : (start ++ last :: next :: tail).Pairwise (Descends key))
    (hlast : key last = some bound) (hnext : key next ≠ some bound) :
    (start ++ last :: next :: tail).filter (below key bound) = next :: tail := by
  obtain ⟨-, hfrom, hacross⟩ := List.pairwise_append.mp hordered
  obtain ⟨hlastAll, hrest⟩ := List.pairwise_cons.mp hfrom
  have hstart : start.filter (below key bound) = [] := by
    rw [List.filter_eq_nil_iff]
    intro item hitem
    obtain ⟨high, hhigh, hle⟩ := hacross item hitem last List.mem_cons_self bound hlast
    simp [below, hhigh, hle]
  have hafter : (next :: tail).filter (below key bound) = next :: tail := by
    rw [List.filter_eq_self]
    have hhead : below key bound next = true := by
      cases hkey : key next with
      | none => simp [below, hkey]
      | some low =>
        obtain ⟨high, hhigh, hle⟩ := hlastAll next List.mem_cons_self low hkey
        obtain rfl := Option.some.inj (hlast.symm.trans hhigh)
        have hne : low ≠ bound := fun heq => hnext (by rw [hkey, heq])
        simpa [below, hkey] using lt_of_le_of_ne hle hne
    refine List.forall_mem_cons.mpr ⟨hhead, fun item hitem => ?_⟩
    cases hkey : key item with
    | none => simp [below, hkey]
    | some low =>
      obtain ⟨high, hhigh, hle⟩ := (List.pairwise_cons.mp hrest).1 item hitem low hkey
      have hbelow : high < bound := by simpa [below, hhigh] using hhead
      simpa [below, hkey] using hle.trans_lt hbelow
  rw [List.filter_append, hstart, List.nil_append, List.filter_cons_of_neg (by simp [below, hlast]),
    hafter]

/-- A cut after the first page, and the cuts of the rest. -/
theorem unsplit_append {start tail : List Item} {last next : Item} (hstart : start.length + 1 = limit)
    (hnext : key last = key next → key next = none) :
    Unsplit key limit (start ++ last :: next :: tail) ↔ Unsplit key limit (next :: tail) := by
  have hshift : ∀ position, (start ++ last :: next :: tail)[limit + position]? =
      (next :: tail)[position]? := by
    intro position
    have hsplit : start ++ last :: next :: tail = (start ++ [last]) ++ next :: tail := by simp
    rw [hsplit, List.getElem?_append_right (by simp; omega)]
    congr 1
    simp
    omega
  constructor
  · intro hall position one two hcut hone htwo
    refine hall (limit + position) one two ?_ (by rw [hshift, hone]) ?_
    · rw [Nat.add_assoc, Nat.add_mod_left, hcut]
    · rw [Nat.add_assoc, hshift, htwo]
  · intro hall position one two hcut hone htwo
    obtain ⟨count, hcount⟩ := Nat.dvd_of_mod_eq_zero hcut
    match count, hcount with
    | 0, hcount => omega
    | 1, hcount =>
      obtain rfl : position = start.length := by omega
      rw [List.getElem?_append_right le_rfl, Nat.sub_self] at hone
      rw [List.getElem?_append_right (by omega), Nat.add_sub_cancel_left] at htwo
      obtain rfl := Option.some.inj hone
      obtain rfl := Option.some.inj htwo
      exact hnext
    | count + 2, hcount =>
      obtain ⟨later, rfl⟩ : ∃ later, position = limit + later := by
        refine ⟨position - limit, ?_⟩
        have hmul : limit * (count + 2) = limit * count + limit + limit := by ring
        omega
      refine hall later one two ?_ (by rw [← hshift, hone]) ?_
      · rwa [Nat.add_assoc, Nat.add_mod_left] at hcut
      · rw [← hshift, ← Nat.add_assoc, htwo]

/-- The reader gets every item with a key exactly when no page ends between two items of one
key. -/
theorem exists_collect (hlimit : 0 < limit) (hordered : items.Pairwise (Descends key))
    (hnodup : items.Nodup) {fuel : ℕ} (hfuel : items.length < fuel) :
    ∃ received, collect key limit fuel items = some received ∧
      ((∀ item ∈ items, key item ≠ none → item ∈ received) ↔ Unsplit key limit items) := by
  induction fuel generalizing items with
  | zero => omega
  | succ fuel ih =>
    rw [collect]
    split_ifs with hmore
    swap
    · refine ⟨_, rfl, iff_of_true ?_ ?_⟩
      · intro item hitem _
        rwa [List.take_of_length_le (by omega)]
      · intro position last next hcut _ hnext
        obtain ⟨hlt, -⟩ := List.getElem?_eq_some_iff.mp hnext
        have hle := Nat.le_of_dvd (Nat.succ_pos position) (Nat.dvd_of_mod_eq_zero hcut)
        omega
    obtain ⟨start, last, next, tail, rfl, hstart⟩ := exists_split_page hlimit hmore
    have hpage : (start ++ last :: next :: tail).take limit = start ++ [last] := by
      rw [← hstart, List.take_length_add_append]
      rfl
    rw [hpage]
    have hpages : ∀ {bound : ℤ}, ((start ++ [last]).filterMap key).min? = some bound →
        ((start ++ last :: next :: tail).filter (below key bound)).length < fuel := by
      intro bound hmin
      have hmem : bound ∈ (start ++ last :: next :: tail).filterMap key := by
        rw [← hpage] at hmin
        exact ((List.take_sublist _ _).filterMap key).subset (List.min?_mem hmin)
      have hless := length_filter_below_lt hmem
      omega
    obtain ⟨-, hfrom, -⟩ := List.pairwise_append.mp hordered
    cases hlast : key last with
    | none =>
      -- nothing after the page has a key
      have hnone : ∀ item ∈ next :: tail, key item = none := by
        intro item hitem
        by_contra hkey
        obtain ⟨low, hlow⟩ := Option.ne_none_iff_exists'.mp hkey
        obtain ⟨high, hhigh, -⟩ := (List.pairwise_cons.mp hfrom).1 item hitem low hlow
        exact absurd (hlast.symm.trans hhigh) nofun
      have hfront : ∀ item ∈ start ++ last :: next :: tail, key item ≠ none →
          item ∈ start ++ [last] := by
        intro item hitem hkey
        rw [List.append_cons, List.mem_append] at hitem
        exact hitem.resolve_right fun hafter => hkey (hnone item hafter)
      have hunsplit : Unsplit key limit (start ++ last :: next :: tail) := by
        rw [unsplit_append hstart fun _ => hnone next List.mem_cons_self]
        exact fun _ _ two _ _ htwo _ => hnone two (List.mem_of_getElem? htwo)
      cases hmin : ((start ++ [last]).filterMap key).min? with
      | none => exact ⟨_, rfl, iff_of_true hfront hunsplit⟩
      | some bound =>
        obtain ⟨received, hreceived, -⟩ :=
          ih (hordered.filter _) (hnodup.filter _) (hpages hmin)
        exact ⟨_, by dsimp only; rw [hreceived]; rfl, iff_of_true
          (fun item hitem hkey => List.mem_append_left _ (hfront item hitem hkey)) hunsplit⟩
    | some bound =>
      have hmin : ((start ++ [last]).filterMap key).min? = some bound := by
        refine min?_filterMap_of_last (hordered.sublist ?_) hlast
        rw [← hpage]
        exact List.take_sublist _ _
      obtain ⟨received, hreceived, hiff⟩ :=
        ih (hordered.filter _) (hnodup.filter _) (hpages hmin)
      refine ⟨start ++ [last] ++ received, by rw [hmin]; dsimp only; rw [hreceived]; rfl, ?_⟩
      have hnotFront : ∀ item ∈ next :: tail, item ∉ start ++ [last] := by
        intro item hitem hpaged
        rw [List.append_cons] at hnodup
        exact (List.nodup_append.mp hnodup).2.2 item hpaged item hitem rfl
      by_cases hnext : key next = some bound
      · -- the next item has the key of the cursor and is skipped
        refine iff_of_false (fun hall => ?_) fun hunsplit => ?_
        · have hgot := hall next (by simp) (by rw [hnext]; exact nofun)
          rcases List.mem_append.mp hgot with hpaged | hlater
          · exact hnotFront next List.mem_cons_self hpaged
          · have hbelow := (List.mem_filter.mp (mem_of_mem_collect hreceived hlater)).2
            simp [below, hnext] at hbelow
        · have hkey := hunsplit start.length last next (by rw [hstart, Nat.mod_self])
            (by simp) (by simp) (hlast.trans hnext.symm)
          exact absurd (hnext.symm.trans hkey) nofun
      · rw [filter_below_page hordered hlast hnext] at hiff
        rw [unsplit_append hstart fun heq => absurd (heq.symm.trans hlast) hnext, ← hiff]
        constructor
        · intro hall item hitem hkey
          have hgot := hall item (by
            rw [List.append_cons]
            exact List.mem_append_right _ hitem) hkey
          exact (List.mem_append.mp hgot).resolve_left (hnotFront item hitem)
        · intro hall item hitem hkey
          rw [List.append_cons, List.mem_append] at hitem
          exact List.mem_append.mpr (hitem.imp_right fun hafter => hall item hafter hkey)

end Reading

end FirstIslamicCoin.KeyPaging
