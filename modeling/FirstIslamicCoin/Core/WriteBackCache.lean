import FirstIslamicCoin.Core.FiniteMap
import FirstIslamicCoin.Core.Outcome

/-!
# Write-back caches over a map

A cache holds some keys of a map below it.  An entry is dirty when it may differ
from the map below, and fresh when the map below does not have the key; a value
may also stand for "no longer there", which is what `isSpent` tells.  What a
cache shows over a map is the overlay of the two.  An entry is sound when its
flags say the truth about the map below it.  The rules say how the overlay and
soundness change when one key of the cache or of the map below is written, and
that writing all dirty entries back one by one leaves below what the cache
showed.
-/

namespace FirstIslamicCoin.WriteBack

open Outcome

variable {Key Value : Type}

/-- A cached value with its two flags. -/
structure Entry (Value : Type) where
  value : Value
  dirty : Bool
  fresh : Bool
  deriving DecidableEq, Repr

abbrev Cache (Key Value : Type) := AList fun _ : Key => Entry Value

section Overlay

variable [DecidableEq Key] (isSpent : Value → Bool)

/-- A value, unless it stands for nothing. -/
def live (value : Value) : Option Value :=
  if isSpent value then none else some value

theorem finite_elim (cache : Cache Key Value) (below : FiniteMap Key Value)
    (shown : Key → Entry Value → Option Value) :
    {key | (cache.lookup key).elim (below.lookup key) (shown key) ≠ none}.Finite := by
  refine (cache.keys.toFinset.finite_toSet.union below.finite_support).subset ?_
  intro key hkey
  by_cases hmem : key ∈ cache
  · exact .inl (by simpa using AList.mem_keys.mp hmem)
  · rw [Set.mem_ofPred_eq, AList.lookup_eq_none.mpr hmem] at hkey
    exact .inr hkey

/-- What a cache shows over a map. -/
def overlay (cache : Cache Key Value) (below : FiniteMap Key Value) :
    FiniteMap Key Value where
  lookup key := (cache.lookup key).elim (below.lookup key) fun entry =>
    live isSpent entry.value
  finite_support := finite_elim cache below _

/-- What committing the dirty entries of a cache leaves of a map; `store` is what the
map keeps of a value. -/
def committed (store : Value → Value) (cache : Cache Key Value)
    (below : FiniteMap Key Value) : FiniteMap Key Value where
  lookup key := (cache.lookup key).elim (below.lookup key) fun entry =>
    if entry.dirty then (live isSpent entry.value).map store else below.lookup key
  finite_support := finite_elim cache below _

/-- A map without the values that stand for nothing. -/
def settled (map : FiniteMap Key Value) : FiniteMap Key Value where
  lookup key := (map.lookup key).bind (live isSpent)
  finite_support := by
    refine map.finite_support.subset fun key hkey hnone => hkey ?_
    rw [hnone]
    rfl

def write (map : FiniteMap Key Value) (key : Key) :
    Option Value → FiniteMap Key Value
  | some value => map.insert key value
  | none => map.erase key

theorem lookup_write (map : FiniteMap Key Value) (key other : Key) (value : Option Value) :
    (write map key value).lookup other = if other = key then value else map.lookup other := by
  cases value <;> rfl

theorem write_lookup_self (map : FiniteMap Key Value) (key : Key) :
    write map key (map.lookup key) = map := by
  ext1 other
  rw [lookup_write]
  split_ifs with heq
  · rw [heq]
  · rfl

variable {isSpent} {cache : Cache Key Value} {below : FiniteMap Key Value} {key : Key}
  {entry : Entry Value}

theorem lookup_overlay (cache : Cache Key Value) (below : FiniteMap Key Value) (key : Key) :
    (overlay isSpent cache below).lookup key =
      (cache.lookup key).elim (below.lookup key) fun entry => live isSpent entry.value := rfl

theorem lookup_overlay_of_some (hlookup : cache.lookup key = some entry) :
    (overlay isSpent cache below).lookup key = live isSpent entry.value := by
  rw [lookup_overlay, hlookup]
  rfl

theorem lookup_overlay_of_none (hlookup : cache.lookup key = none) :
    (overlay isSpent cache below).lookup key = below.lookup key := by
  rw [lookup_overlay, hlookup]
  rfl

@[simp]
theorem overlay_empty (below : FiniteMap Key Value) :
    overlay isSpent (∅ : Cache Key Value) below = below :=
  FiniteMap.ext fun key => lookup_overlay_of_none (AList.lookup_empty key)

theorem overlay_insert (cache : Cache Key Value) (below : FiniteMap Key Value) (key : Key)
    (entry : Entry Value) :
    overlay isSpent (cache.insert key entry) below =
      write (overlay isSpent cache below) key (live isSpent entry.value) := by
  ext1 other
  rw [lookup_write]
  split_ifs with heq
  · rw [heq, lookup_overlay_of_some (AList.lookup_insert cache)]
  · rw [lookup_overlay, lookup_overlay, AList.lookup_insert_ne heq]

theorem overlay_erase (cache : Cache Key Value) (below : FiniteMap Key Value) (key : Key) :
    overlay isSpent (cache.erase key) below =
      write (overlay isSpent cache below) key (below.lookup key) := by
  ext1 other
  rw [lookup_write]
  split_ifs with heq
  · rw [heq, lookup_overlay_of_none (AList.lookup_erase key cache)]
  · rw [lookup_overlay, lookup_overlay, AList.lookup_erase_ne heq]

/-- A change below is seen through a cache that does not hold the key. -/
theorem overlay_write (hfree : cache.lookup key = none) (value : Option Value) :
    overlay isSpent cache (write below key value) =
      write (overlay isSpent cache below) key value := by
  ext1 other
  rw [lookup_write]
  cases hlookup : cache.lookup other with
  | none =>
    rw [lookup_overlay_of_none hlookup, lookup_overlay_of_none hlookup, lookup_write]
  | some found =>
    have hne : other ≠ key := by
      rintro rfl
      rw [hfree] at hlookup
      exact absurd hlookup nofun
    rw [if_neg hne, lookup_overlay_of_some hlookup, lookup_overlay_of_some hlookup]

end Overlay

section Sound

variable (isSpent : Value → Bool)

/-- The flags of an entry say the truth about what is below it. -/
structure Entry.Sound (below : Option Value) (entry : Entry Value) : Prop where
  fresh_below : entry.fresh = true → below = none
  clean_eq : entry.dirty = false → live isSpent entry.value = below
  spent_flags : isSpent entry.value = true → entry.dirty = !entry.fresh

variable [DecidableEq Key]

def Sound (cache : Cache Key Value) (below : FiniteMap Key Value) : Prop :=
  ∀ key entry, cache.lookup key = some entry → entry.Sound isSpent (below.lookup key)

variable {isSpent} {cache : Cache Key Value} {below : FiniteMap Key Value} {key : Key}
  {entry : Entry Value}

theorem live_eq_none_iff {value : Value} : live isSpent value = none ↔ isSpent value = true := by
  rw [live]
  split_ifs with hspent <;> simp [hspent]

/-- A fresh entry that is not spent is dirty. -/
theorem Entry.Sound.dirty_of_fresh {above : Option Value} (hentry : entry.Sound isSpent above)
    (hfresh : entry.fresh = true) (hunspent : isSpent entry.value = false) :
    entry.dirty = true := by
  by_contra hclean
  have hnone := (hentry.clean_eq (by simpa using hclean)).trans (hentry.fresh_below hfresh)
  rw [live_eq_none_iff, hunspent] at hnone
  exact Bool.noConfusion hnone

theorem sound_empty (below : FiniteMap Key Value) :
    Sound isSpent (∅ : Cache Key Value) below := by
  intro key entry hlookup
  rw [AList.lookup_empty] at hlookup
  exact absurd hlookup nofun

section

variable (hsound : Sound isSpent cache below)

include hsound

theorem Sound.insert (hentry : entry.Sound isSpent (below.lookup key)) :
    Sound isSpent (cache.insert key entry) below := by
  intro other found hlookup
  by_cases heq : other = key
  · subst heq
    rw [AList.lookup_insert, Option.some.injEq] at hlookup
    rwa [← hlookup]
  · rw [AList.lookup_insert_ne heq] at hlookup
    exact hsound other found hlookup

theorem Sound.erase (key : Key) :
    Sound isSpent (cache.erase key) below := by
  intro other found hlookup
  by_cases heq : other = key
  · rw [heq, AList.lookup_erase] at hlookup
    exact absurd hlookup nofun
  · rw [AList.lookup_erase_ne heq] at hlookup
    exact hsound other found hlookup

/-- Writing a key below that the cache does not hold keeps it sound. -/
theorem Sound.write_below (hfree : cache.lookup key = none) (value : Option Value) :
    Sound isSpent cache (write below key value) := by
  intro other found hlookup
  have hne : other ≠ key := by
    rintro rfl
    rw [hfree] at hlookup
    exact absurd hlookup nofun
  rw [lookup_write, if_neg hne]
  exact hsound other found hlookup

/-- An entry that may be dropped: what is below shows the same. -/
theorem Sound.overlay_erase_clean (hlookup : cache.lookup key = some entry)
    (hclean : entry.dirty = false) :
    overlay isSpent (cache.erase key) below = overlay isSpent cache below := by
  have hshown : (overlay isSpent cache below).lookup key = below.lookup key := by
    rw [lookup_overlay_of_some hlookup, (hsound key entry hlookup).clean_eq hclean]
  rw [overlay_erase, ← hshown, write_lookup_self]

end

theorem lookup_committed (store : Value → Value) (cache : Cache Key Value)
    (below : FiniteMap Key Value) (key : Key) :
    (committed isSpent store cache below).lookup key =
      (cache.lookup key).elim (below.lookup key) fun entry =>
        if entry.dirty then (live isSpent entry.value).map store else below.lookup key := rfl

/-- Committing a sound cache to a map that keeps every value leaves what the cache
showed. -/
theorem Sound.committed_eq_overlay (hsound : Sound isSpent cache below) :
    committed isSpent id cache below = overlay isSpent cache below := by
  ext1 key
  rw [lookup_committed, lookup_overlay]
  cases hlookup : cache.lookup key with
  | none => rfl
  | some entry =>
    rw [Option.elim_some, Option.elim_some, Option.map_id, id]
    split_ifs with hdirty
    · rfl
    · exact ((hsound key entry hlookup).clean_eq (by simpa using hdirty)).symm

end Sound

section WriteBack

variable [DecidableEq Key] {isSpent : Value → Bool} {below : FiniteMap Key Value} {ε : Type}

/-- Write-back of one entry into the cache below, as a law: it never fails on sound
caches, keeps the cache below sound, and makes it show the entry if that is dirty. -/
def WritesEntry (isSpent : Value → Bool)
    (body : Cache Key Value → (Sigma fun _ : Key => Entry Value) → Except ε (Cache Key Value)) :
    Prop :=
  ∀ below cache item, Sound isSpent cache below →
    item.2.Sound isSpent ((overlay isSpent cache below).lookup item.1) →
    ∃ after, body cache item = .ok after ∧ Sound isSpent after below ∧
      overlay isSpent after below = if item.2.dirty then
        write (overlay isSpent cache below) item.1 (live isSpent item.2.value)
      else overlay isSpent cache below

/-- Writing back a list of entries with distinct keys. -/
theorem WritesEntry.loop_eq_ok
    {body : Cache Key Value → (Sigma fun _ : Key => Entry Value) → Except ε (Cache Key Value)}
    (hbody : WritesEntry isSpent body) {items : List (Sigma fun _ : Key => Entry Value)}
    {cache : Cache Key Value} (hnodup : items.NodupKeys) (hsound : Sound isSpent cache below)
    (hitems : ∀ item ∈ items, item.2.Sound isSpent ((overlay isSpent cache below).lookup item.1)) :
    ∃ after, loop body cache items = .ok after ∧ Sound isSpent after below ∧
      ∀ key, (overlay isSpent after below).lookup key =
        (items.dlookup key).elim ((overlay isSpent cache below).lookup key) fun entry =>
          live isSpent entry.value := by
  induction items generalizing cache with
  | nil => exact ⟨cache, rfl, hsound, fun _ => rfl⟩
  | cons item items ih =>
    obtain ⟨key, entry⟩ := item
    obtain ⟨hnotMem, hrest⟩ := List.nodupKeys_cons.mp hnodup
    obtain ⟨hentry, htail⟩ := List.forall_mem_cons.mp hitems
    obtain ⟨next, hnext, hsoundNext, hoverlay⟩ := hbody below cache ⟨key, entry⟩ hsound hentry
    -- dirty or not, the key now shows the entry and the others what they did
    have hshown : ∀ other, (overlay isSpent next below).lookup other =
        if other = key then live isSpent entry.value
        else (overlay isSpent cache below).lookup other := by
      intro other
      rw [hoverlay]
      cases hdirty : entry.dirty with
      | true => rw [if_pos rfl, lookup_write]
      | false =>
        rw [if_neg Bool.false_ne_true]
        split_ifs with heq
        · rw [heq, hentry.clean_eq hdirty]
        · rfl
    have hkeys : ∀ other ∈ items, other.1 ≠ key := by
      rintro other hmem rfl
      have hkey : other.1 ∈ items.keys := List.mem_keys_of_mem hmem
      exact hnotMem hkey
    obtain ⟨after, hafter, hsoundAfter, hlookup⟩ := ih hrest hsoundNext fun other hmem => by
      rw [hshown, if_neg (hkeys other hmem)]
      exact htail other hmem
    refine ⟨after, loop_cons_eq_ok.mpr ⟨next, hnext, hafter⟩, hsoundAfter, fun other => ?_⟩
    rw [hlookup, hshown]
    by_cases heq : other = key
    · subst heq
      have hnone : items.dlookup other = none := List.dlookup_eq_none.mpr hnotMem
      rw [hnone, List.dlookup_cons_eq, if_pos rfl]
      rfl
    · have hne : other ≠ (⟨key, entry⟩ : Sigma fun _ : Key => Entry Value).1 := heq
      rw [List.dlookup_cons_ne _ _ hne, if_neg heq]

/-- Writing a sound cache back into the one below it makes that show what the two
showed together. -/
theorem WritesEntry.overlay_eq
    {body : Cache Key Value → (Sigma fun _ : Key => Entry Value) → Except ε (Cache Key Value)}
    (hbody : WritesEntry isSpent body) {child parent : Cache Key Value}
    (hchild : Sound isSpent child (overlay isSpent parent below))
    (hparent : Sound isSpent parent below) :
    ∃ after, loop body parent child.entries = .ok after ∧ Sound isSpent after below ∧
      overlay isSpent after below = overlay isSpent child (overlay isSpent parent below) := by
  have hitems : ∀ item ∈ child.entries,
      item.2.Sound isSpent ((overlay isSpent parent below).lookup item.1) := fun item hmem =>
    hchild item.1 item.2 (List.mem_dlookup child.nodupKeys hmem)
  obtain ⟨after, hafter, hsound, hlookup⟩ := hbody.loop_eq_ok child.nodupKeys hparent hitems
  exact ⟨after, hafter, hsound, FiniteMap.ext hlookup⟩

end WriteBack

section Writes

variable [DecidableEq Key]

/-- Writes to single keys, one after the other. -/
def writeAll (map : FiniteMap Key Value) (changes : List (Key × Option Value)) :
    FiniteMap Key Value :=
  changes.foldl (fun current change => write current change.1 change.2) map

/-- What the last of some writes to a key writes there. -/
def lastWrite (key : Key) : List (Key × Option Value) → Option (Option Value)
  | [] => none
  | change :: changes =>
      (lastWrite key changes).or (if key = change.1 then some change.2 else none)

variable {key : Key} {changes : List (Key × Option Value)}

theorem writeAll_append (map : FiniteMap Key Value) (first second : List (Key × Option Value)) :
    writeAll map (first ++ second) = writeAll (writeAll map first) second :=
  List.foldl_append

/-- Only the last write to a key counts. -/
theorem lookup_writeAll (map : FiniteMap Key Value) (changes : List (Key × Option Value))
    (key : Key) :
    (writeAll map changes).lookup key = (lastWrite key changes).getD (map.lookup key) := by
  induction changes generalizing map with
  | nil => rfl
  | cons change changes ih =>
    have hfirst : writeAll map (change :: changes) =
        writeAll (write map change.1 change.2) changes := rfl
    rw [hfirst, ih, lookup_write, lastWrite]
    cases lastWrite key changes with
    | some value => rfl
    | none => split_ifs <;> rfl

theorem lastWrite_append (key : Key) (first second : List (Key × Option Value)) :
    lastWrite key (first ++ second) = (lastWrite key second).or (lastWrite key first) := by
  induction first with
  | nil => rw [List.nil_append, lastWrite, Option.or_none]
  | cons change first ih => rw [List.cons_append, lastWrite, ih, lastWrite, Option.or_assoc]

theorem lastWrite_eq_none_iff :
    lastWrite key changes = none ↔ ∀ change ∈ changes, change.1 ≠ key := by
  induction changes with
  | nil => simp [lastWrite]
  | cons change changes ih =>
    rw [lastWrite, Option.or_eq_none_iff, ih, List.forall_mem_cons, and_comm]
    refine and_congr_left fun _ => ?_
    split_ifs with heq
    · simp [heq]
    · simp [Ne.symm heq]

/-- The last write to a key is one of the writes. -/
theorem mem_of_lastWrite {value : Option Value} (hlast : lastWrite key changes = some value) :
    (key, value) ∈ changes := by
  induction changes with
  | nil => exact absurd hlast nofun
  | cons change changes ih =>
    rw [lastWrite, Option.or_eq_some_iff] at hlast
    rcases hlast with hrest | ⟨_, hfirst⟩
    · exact List.mem_cons_of_mem _ (ih hrest)
    · split_ifs at hfirst with heq
      obtain rfl := Option.some.inj hfirst
      rw [heq]
      exact List.mem_cons_self

/-- Among writes to distinct keys every one is the last to its key. -/
theorem lastWrite_of_mem {value : Option Value} (hnodup : (changes.map Prod.fst).Nodup)
    (hmem : (key, value) ∈ changes) : lastWrite key changes = some value := by
  induction changes with
  | nil => exact absurd hmem List.not_mem_nil
  | cons change changes ih =>
    obtain ⟨hnotMem, hrest⟩ := List.nodup_cons.mp hnodup
    rw [lastWrite]
    rcases List.mem_cons.mp hmem with rfl | htail
    · have hnone : lastWrite key changes = none := by
        refine lastWrite_eq_none_iff.mpr fun change hchange heq => hnotMem ?_
        exact List.mem_map.mpr ⟨change, hchange, heq⟩
      rw [hnone, if_pos rfl, Option.none_or]
    · rw [ih hrest htail, Option.some_or]

theorem lastWrite_map (convert : Value → Value) (key : Key) (changes : List (Key × Option Value)) :
    lastWrite key (changes.map fun change => (change.1, change.2.map convert)) =
      (lastWrite key changes).map (Option.map convert) := by
  induction changes with
  | nil => rfl
  | cons change changes ih =>
    rw [List.map_cons, lastWrite, lastWrite, ih]
    cases lastWrite key changes with
    | some value => rfl
    | none => split_ifs <;> rfl

end Writes

end FirstIslamicCoin.WriteBack
