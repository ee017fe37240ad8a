import FirstIslamicCoin.Consensus.CoinsCache

/-!
# A stack of coins caches refines a finite map

Every layer shows a finite map: the one below it, overlaid with its own entries.
The plain model has these maps and nothing else: adding or spending a coin writes
one key, and writing a layer back copies its map to the layer below.  Every
operation of the stack does to the maps shown what the plain model does, answers
as they would, and keeps the flags of every entry true.
-/

namespace FirstIslamicCoin

open Outcome WriteBack

namespace CCoinsViewCache

def shown (below : CoinsView) : List CCoinsViewCache → CoinsView
  | [] => below
  | cache :: rest => overlay Coin.isSpent cache.cacheCoins (shown below rest)

def shownAll (below : CoinsView) : List CCoinsViewCache → List CoinsView
  | [] => [below]
  | cache :: rest => shown below (cache :: rest) :: shownAll below rest

/-- The flags of every entry of every layer say the truth. -/
def SoundLayers (below : CoinsView) : List CCoinsViewCache → Prop
  | [] => True
  | cache :: rest =>
      WriteBack.Sound Coin.isSpent cache.cacheCoins (shown below rest) ∧ SoundLayers below rest

theorem shownAll_eq_cons (below : CoinsView) (layers : List CCoinsViewCache) :
    ∃ deeper, shownAll below layers = shown below layers :: deeper := by
  cases layers with
  | nil => exact ⟨[], rfl⟩
  | cons cache rest => exact ⟨shownAll below rest, rfl⟩

theorem shown_eq_of_shownAll {below : CoinsView} {layers : List CCoinsViewCache}
    {map : CoinsView} {deeper : List CoinsView}
    (heq : shownAll below layers = map :: deeper) : shown below layers = map := by
  obtain ⟨tail, htail⟩ := shownAll_eq_cons below layers
  rw [htail] at heq
  exact (List.cons.inj heq).1

theorem length_shownAll (below : CoinsView) (layers : List CCoinsViewCache) :
    (shownAll below layers).length = layers.length + 1 := by
  induction layers with
  | nil => rfl
  | cons cache rest ih => rw [shownAll, List.length_cons, List.length_cons, ih]

end CCoinsViewCache

open CCoinsViewCache

variable {State : Type}

/-- A base view finds the unspent coins of a finite map. -/
def CCoinsView.Finds (view : CCoinsView State) (contents : State → CoinsView) : Prop :=
  ∀ base outpoint,
    (view.getCoin base outpoint).bind (live Coin.isSpent) = (contents base).lookup outpoint

/-- A base view that is a finite map of unspent coins: it finds what the map has,
and a batch write of dirty entries, with a hash it accepts, changes it to what the
entries say. -/
structure CCoinsView.Lawful (view : CCoinsView State) (contents : State → CoinsView)
    (accepts : UInt256 → Prop) : Prop where
  finds : view.Finds contents
  batchWrite_eq : ∀ base mapCoins hashBlock erase, accepts hashBlock →
    ∃ after, view.batchWrite base mapCoins hashBlock erase =
        some (if erase then ∅ else mapCoins, after) ∧
      contents after = committed Coin.isSpent id mapCoins (contents base)

section Layer

variable {view : CCoinsView State} {contents : State → CoinsView} {accepts : UInt256 → Prop}
  {base : State} {cache : CCoinsViewCache} {rest : List CCoinsViewCache}
  {outpoint : COutPoint}

/-- `FetchCoin` finds what the layer shows and changes nothing that is shown. -/
structure Fetched (below : CoinsView) (layers : List CCoinsViewCache) (outpoint : COutPoint)
    (it : Option CCoinsCacheEntry) (top : CCoinsViewCache) (fetched : List CCoinsViewCache) :
    Prop where
  lookup_eq : top.cacheCoins.lookup outpoint = it
  shown_eq : (shown below layers).lookup outpoint =
    it.bind fun entry => live Coin.isSpent entry.value
  sound : SoundLayers below (top :: fetched)
  shownAll_eq : shownAll below (top :: fetched) = shownAll below layers
  hashBlocks_eq : (top :: fetched).map hashBlock = layers.map hashBlock

/-- What `GetCoin` through some layers finds, and how it leaves them. -/
structure Got (below : CoinsView) (layers : List CCoinsViewCache) (outpoint : COutPoint)
    (found : Option Coin) (fetched : List CCoinsViewCache) : Prop where
  shown_eq : (shown below layers).lookup outpoint = found.bind (live Coin.isSpent)
  sound : SoundLayers below fetched
  shownAll_eq : shownAll below fetched = shownAll below layers
  hashBlocks_eq : fetched.map hashBlock = layers.map hashBlock

theorem Fetched.got {below : CoinsView} {layers fetched : List CCoinsViewCache}
    {it : Option CCoinsCacheEntry} {top : CCoinsViewCache}
    (hfetched : Fetched below layers outpoint it top fetched) :
    Got below layers outpoint (it.bind fun entry => live Coin.isSpent entry.value)
      (top :: fetched) where
  shown_eq := by
    rw [hfetched.shown_eq]
    cases it with
    | none => rfl
    | some entry =>
      rw [Option.bind_some]
      cases hspent : entry.value.isSpent <;> simp [live, hspent]
  sound := hfetched.sound
  shownAll_eq := hfetched.shownAll_eq
  hashBlocks_eq := hfetched.hashBlocks_eq

theorem fetchCoin_of_some {it : CCoinsCacheEntry}
    (hlookup : cache.cacheCoins.lookup outpoint = some it)
    (below : Option Coin × List CCoinsViewCache) :
    cache.fetchCoin outpoint rest below = (some it, cache, rest) := by
  simp only [fetchCoin, hlookup]

theorem fetchCoin_of_none (hlookup : cache.cacheCoins.lookup outpoint = none)
    (fetched : List CCoinsViewCache) :
    cache.fetchCoin outpoint rest (none, fetched) = (none, cache, fetched) := by
  simp only [fetchCoin, hlookup]

theorem fetchCoin_of_found (hlookup : cache.cacheCoins.lookup outpoint = none) (tmp : Coin)
    (fetched : List CCoinsViewCache) :
    cache.fetchCoin outpoint rest (some tmp, fetched) =
      (some ⟨tmp, false, tmp.isSpent⟩, cache.store outpoint ⟨tmp, false, tmp.isSpent⟩,
        fetched) := by
  simp only [fetchCoin, hlookup]

theorem fetchCoin_fetched {below : CoinsView}
    (hsound : SoundLayers below (cache :: rest)) {found : Option Coin}
    {fetched : List CCoinsViewCache} (hgot : Got below rest outpoint found fetched) :
    Fetched below (cache :: rest) outpoint (cache.fetchCoin outpoint rest (found, fetched)).1
      (cache.fetchCoin outpoint rest (found, fetched)).2.1
      (cache.fetchCoin outpoint rest (found, fetched)).2.2 := by
  have hshown : shown below fetched = shown below rest := by
    obtain ⟨deeper, heq⟩ := shownAll_eq_cons below rest
    exact shown_eq_of_shownAll (hgot.shownAll_eq.trans heq)
  have htop : WriteBack.Sound Coin.isSpent cache.cacheCoins (shown below fetched) := by
    rw [hshown]
    exact hsound.1
  cases hlookup : cache.cacheCoins.lookup outpoint with
  | some it =>
    rw [fetchCoin_of_some hlookup]
    exact ⟨hlookup, lookup_overlay_of_some hlookup, hsound, rfl, rfl⟩
  | none =>
    have hbelow : (shown below (cache :: rest)).lookup outpoint = found.bind (live Coin.isSpent) :=
      (lookup_overlay_of_none hlookup).trans hgot.shown_eq
    cases found with
    | none =>
      rw [fetchCoin_of_none hlookup]
      refine ⟨hlookup, hbelow, ⟨htop, hgot.sound⟩, ?_, ?_⟩
      · rw [shownAll, shownAll, hgot.shownAll_eq, shown, shown, hshown]
      · rw [List.map_cons, List.map_cons, hgot.hashBlocks_eq]
    | some tmp =>
      have hentry : Entry.Sound Coin.isSpent ((shown below fetched).lookup outpoint)
          (⟨tmp, false, tmp.isSpent⟩ : CCoinsCacheEntry) := by
        rw [hshown, hgot.shown_eq, Option.bind_some]
        refine ⟨fun hspent => live_eq_none_iff.mpr hspent, fun _ => rfl, ?_⟩
        intro hspent
        rw [hspent]
        rfl
      have hsame : overlay Coin.isSpent (cache.cacheCoins.insert outpoint ⟨tmp, false, tmp.isSpent⟩)
          (shown below fetched) = overlay Coin.isSpent cache.cacheCoins (shown below rest) := by
        rw [overlay_insert, hshown, ← hbelow.trans (Option.bind_some tmp _), shown,
          write_lookup_self]
      rw [fetchCoin_of_found hlookup]
      refine ⟨AList.lookup_insert _, hbelow, ⟨htop.insert hentry, hgot.sound⟩, ?_, ?_⟩
      · rw [shownAll, shownAll, hgot.shownAll_eq, shown, shown, store, hsame]
      · rw [List.map_cons, List.map_cons, hgot.hashBlocks_eq]
        rfl

theorem getCoin_got (outpoint : COutPoint) (hfinds : view.Finds contents)
    {layers : List CCoinsViewCache} (hsound : SoundLayers (contents base) layers) :
    Got (contents base) layers outpoint (getCoin view base outpoint layers).1
      (getCoin view base outpoint layers).2 := by
  induction layers with
  | nil => exact ⟨(hfinds base outpoint).symm, trivial, rfl, rfl⟩
  | cons cache rest ih => exact (fetchCoin_fetched hsound (ih hsound.2)).got

/-- Fetching through the layers as they are. -/
theorem fetched_of_sound (outpoint : COutPoint) (hfinds : view.Finds contents)
    (hsound : SoundLayers (contents base) (cache :: rest)) :
    Fetched (contents base) (cache :: rest) outpoint
      (cache.fetchCoin outpoint rest (getCoin view base outpoint rest)).1
      (cache.fetchCoin outpoint rest (getCoin view base outpoint rest)).2.1
      (cache.fetchCoin outpoint rest (getCoin view base outpoint rest)).2.2 :=
  fetchCoin_fetched hsound (getCoin_got outpoint hfinds hsound.2)

theorem accepts_of_hashBlocks {layers fetched : List CCoinsViewCache}
    (heq : fetched.map hashBlock = layers.map hashBlock)
    (haccepts : ∀ layer ∈ layers, accepts layer.hashBlock) :
    ∀ layer ∈ fetched, accepts layer.hashBlock := by
  intro layer hmem
  have hhash : layer.hashBlock ∈ layers.map hashBlock := by
    rw [← heq]
    exact List.mem_map_of_mem hmem
  obtain ⟨other, hother, hsame⟩ := List.mem_map.mp hhash
  rw [← hsame]
  exact haccepts other hother

end Layer

namespace CoinsOp

/-- The key that an operation writes, and what it writes there. -/
def change : CoinsOp → Option (COutPoint × Option Coin)
  | .addCoin outpoint coin _ =>
      if coin.out.scriptPubKey.isUnspendable then none else some (outpoint, some coin)
  | .spendCoin outpoint => some (outpoint, none)
  | _ => none

def update (op : CoinsOp) (map : CoinsView) : CoinsView :=
  op.change.elim map fun change => write map change.1 change.2

def writesBack : CoinsOp → Bool
  | .sync | .flush => true
  | _ => false

/-- The operation on plain maps, one for every layer: the layers above the one that
is written see the change, and writing a layer back copies its map down. -/
def plain (op : CoinsOp) : ℕ → List CoinsView → List CoinsView
  | _, [] => []
  | 0, map :: below => op.update map :: if op.writesBack then map :: below.tail else below
  | level + 1, map :: below => op.update map :: op.plain level below

/-- What a plain map answers.  The coin that `SpendCoin` moves out is the one of the
map; a call that returns true may also have met an entry that was spent before. -/
def Answers (map : CoinsView) : CoinsOp → CoinsAnswer → Prop
  | .getCoin outpoint, answer => answer = .coin (map.lookup outpoint)
  | .haveCoin outpoint, answer => answer = .present (map.haveCoin outpoint)
  | .spendCoin outpoint, answer => ∃ moveout, answer = .moved moveout ∧
      moveout.bind (live Coin.isSpent) = map.lookup outpoint
  | _, answer => answer = .done

/-- What `AddCoin` asks of its caller: no unspent coin is overwritten unannounced. -/
def Allowed (map : CoinsView) : CoinsOp → Prop
  | .addCoin outpoint coin possibleOverwrite => coin.isSpent = false ∧
      (possibleOverwrite = true ∨ coin.out.scriptPubKey.isUnspendable = true ∨
        map.lookup outpoint = none)
  | _ => True

/-- An operation at a level may be called; what it writes is not held by a layer
above, which would not see the change. -/
def Permitted (op : CoinsOp) : ℕ → List CCoinsViewCache → List CoinsView → Prop
  | 0, _ :: _, map :: _ => op.Allowed map
  | level + 1, cache :: rest, _ :: maps =>
      (∀ change ∈ op.change, cache.cacheCoins.lookup change.1 = none) ∧
        op.Permitted level rest maps
  | _, _, _ => False

end CoinsOp

section OneLayer

variable {cache : CCoinsViewCache} {below : CoinsView} {outpoint : COutPoint} {coin : Coin}

theorem live_of_unspent (hunspent : coin.isSpent = false) :
    live Coin.isSpent coin = some coin := by
  rw [live, hunspent, if_neg Bool.false_ne_true]

theorem any_unspent_eq (it : Option CCoinsCacheEntry) :
    (it.any fun entry => !entry.value.isSpent) =
      (it.bind fun entry => live Coin.isSpent entry.value).isSome := by
  cases it with
  | none => rfl
  | some entry => cases hspent : entry.value.isSpent <;> simp [live, hspent]

theorem isSpent_cleared : Coin.cleared.isSpent = true := rfl

theorem sound_unspent {fresh : Bool} (hunspent : coin.isSpent = false)
    (hfresh : fresh = true → below.lookup outpoint = none) :
    Entry.Sound Coin.isSpent (below.lookup outpoint) (⟨coin, true, fresh⟩ : CCoinsCacheEntry) where
  fresh_below := hfresh
  clean_eq := nofun
  spent_flags := fun hspent => by
    rw [hunspent] at hspent
    exact Bool.noConfusion hspent

section

variable (hsound : WriteBack.Sound Coin.isSpent cache.cacheCoins below)

include hsound

/-- An entry is kept fresh, and one that is not dirty may become fresh, when the layer
shows no coin there. -/
theorem addCoin_fresh_below
    (hnone : (overlay Coin.isSpent cache.cacheCoins below).lookup outpoint = none)
    (hfresh : ((cache.emplaced outpoint).fresh || !(cache.emplaced outpoint).dirty) = true) :
    below.lookup outpoint = none := by
  cases hlookup : cache.cacheCoins.lookup outpoint with
  | none => rwa [lookup_overlay_of_none hlookup] at hnone
  | some it =>
    have hentry := hsound outpoint it hlookup
    rw [emplaced, hlookup, Option.getD_some, Bool.or_eq_true, Bool.not_eq_true'] at hfresh
    rw [lookup_overlay_of_some hlookup] at hnone
    rcases hfresh with hfresh | hclean
    · exact hentry.fresh_below hfresh
    · exact (hentry.clean_eq hclean).symm.trans hnone

theorem addCoin_eq_ok_of_allowed {possibleOverwrite : Bool}
    (hallowed : (CoinsOp.addCoin outpoint coin possibleOverwrite).Allowed
      (overlay Coin.isSpent cache.cacheCoins below)) :
    ∃ added, cache.addCoin outpoint coin possibleOverwrite = .ok added ∧
      WriteBack.Sound Coin.isSpent added.cacheCoins below ∧
      overlay Coin.isSpent added.cacheCoins below =
        (CoinsOp.addCoin outpoint coin possibleOverwrite).update
          (overlay Coin.isSpent cache.cacheCoins below) ∧
      added.hashBlock = cache.hashBlock := by
  obtain ⟨hunspent, hcases⟩ := hallowed
  rw [addCoin, hunspent]
  cases hdrop : coin.out.scriptPubKey.isUnspendable with
  | true =>
    refine ⟨cache, rfl, hsound, ?_, rfl⟩
    simp only [CoinsOp.update, CoinsOp.change, hdrop, if_true, Option.elim]
  | false =>
    have hshown : ∀ fresh, overlay Coin.isSpent
        (cache.cacheCoins.insert outpoint ⟨coin, true, fresh⟩) below =
          (CoinsOp.addCoin outpoint coin possibleOverwrite).update
            (overlay Coin.isSpent cache.cacheCoins below) := by
      intro fresh
      rw [overlay_insert, live_of_unspent hunspent]
      simp only [CoinsOp.update, CoinsOp.change, hdrop, Bool.false_eq_true, if_false, Option.elim]
    cases possibleOverwrite with
    | true =>
      refine ⟨_, rfl, hsound.insert (sound_unspent hunspent ?_), hshown _, rfl⟩
      intro hfresh
      cases hlookup : cache.cacheCoins.lookup outpoint with
      | none =>
        rw [emplaced, hlookup] at hfresh
        exact Bool.noConfusion hfresh
      | some it =>
        rw [emplaced, hlookup] at hfresh
        exact (hsound outpoint it hlookup).fresh_below hfresh
    | false =>
      have hnone : (overlay Coin.isSpent cache.cacheCoins below).lookup outpoint = none := by
        simpa [hdrop] using hcases
      have hspent : (cache.emplaced outpoint).value.isSpent = true := by
        rw [emplaced]
        cases hlookup : cache.cacheCoins.lookup outpoint with
        | none => exact isSpent_cleared
        | some it =>
          rw [lookup_overlay_of_some hlookup] at hnone
          exact live_eq_none_iff.mp hnone
      refine ⟨cache.store outpoint ⟨coin, true,
          (cache.emplaced outpoint).fresh || !(cache.emplaced outpoint).dirty⟩, ?_,
        hsound.insert (sound_unspent hunspent (addCoin_fresh_below hsound hnone)),
        hshown _, rfl⟩
      simp only [Bool.not_false, require_true, ok_bind, Bool.false_eq_true, if_false, hspent]

/-- Dropping a fresh entry, or leaving it as spent, takes the key away. -/
theorem spent_entry {it : CCoinsCacheEntry} (hlookup : cache.cacheCoins.lookup outpoint = some it) :
    let spent := if it.fresh then cache.drop outpoint
      else cache.store outpoint ⟨.cleared, true, it.fresh⟩
    WriteBack.Sound Coin.isSpent spent.cacheCoins below ∧
      overlay Coin.isSpent spent.cacheCoins below =
        write (overlay Coin.isSpent cache.cacheCoins below) outpoint none := by
  have hentry := hsound outpoint it hlookup
  cases hfresh : it.fresh with
  | true =>
    rw [if_pos rfl]
    refine ⟨hsound.erase outpoint, ?_⟩
    rw [drop, overlay_erase, hentry.fresh_below hfresh]
  | false =>
    rw [if_neg Bool.false_ne_true]
    exact ⟨hsound.insert ⟨nofun, nofun, fun _ => rfl⟩, overlay_insert _ _ _ _⟩

end

theorem uncache_eq (outpoint : COutPoint)
    (hsound : WriteBack.Sound Coin.isSpent cache.cacheCoins below) :
    WriteBack.Sound Coin.isSpent (cache.uncache outpoint).cacheCoins below ∧
      overlay Coin.isSpent (cache.uncache outpoint).cacheCoins below =
        overlay Coin.isSpent cache.cacheCoins below ∧
      (cache.uncache outpoint).hashBlock = cache.hashBlock := by
  rw [uncache]
  cases hlookup : cache.cacheCoins.lookup outpoint with
  | none => exact ⟨hsound, rfl, rfl⟩
  | some it =>
    dsimp only
    split_ifs with hclean
    · rw [Bool.and_eq_true, Bool.not_eq_true'] at hclean
      exact ⟨hsound.erase outpoint, hsound.overlay_erase_clean hlookup hclean.1, rfl⟩
    · exact ⟨hsound, rfl, rfl⟩

theorem lookup_sweep (mapCoins : CCoinsMap) (outpoint : COutPoint) :
    (sweep mapCoins).lookup outpoint = (mapCoins.lookup outpoint).bind fun it =>
      if it.value.isSpent then none else some ⟨it.value, false, false⟩ := by
  -- the loop over any entries with distinct keys, from any map that agrees with them
  have hloop : ∀ (items : List (Sigma fun _ : COutPoint => CCoinsCacheEntry))
      (current : CCoinsMap), items.NodupKeys →
      (items.foldl (fun current it =>
        if it.2.value.isSpent then current.erase it.1
        else current.insert it.1 ⟨it.2.value, false, false⟩) current).lookup outpoint =
        (items.dlookup outpoint).elim (current.lookup outpoint) fun it =>
          if it.value.isSpent then none else some ⟨it.value, false, false⟩ := by
    intro items
    induction items with
    | nil => exact fun _ _ => rfl
    | cons item items ih =>
      obtain ⟨key, entry⟩ := item
      intro current hnodup
      obtain ⟨hnotMem, hrest⟩ := List.nodupKeys_cons.mp hnodup
      rw [List.foldl_cons, ih _ hrest]
      by_cases heq : outpoint = key
      · subst heq
        have hnone : items.dlookup outpoint = none := List.dlookup_eq_none.mpr hnotMem
        rw [hnone, List.dlookup_cons_eq]
        cases hspent : entry.value.isSpent with
        | true => simp only [hspent, if_true, Option.elim, AList.lookup_erase]
        | false =>
          simp only [hspent, Bool.false_eq_true, if_false, Option.elim, AList.lookup_insert]
      · have hne : outpoint ≠ (⟨key, entry⟩ : Sigma fun _ : COutPoint => CCoinsCacheEntry).1 :=
          heq
        rw [List.dlookup_cons_ne _ _ hne]
        cases entry.value.isSpent with
        | true => simp only [if_true, AList.lookup_erase_ne heq]
        | false =>
          simp only [Bool.false_eq_true, if_false, AList.lookup_insert_ne heq]
  rw [sweep, hloop _ _ mapCoins.nodupKeys]
  change (mapCoins.lookup outpoint).elim _ _ = _
  cases mapCoins.lookup outpoint <;> rfl

/-- After a sync the layer holds clean entries of what it showed. -/
theorem sweep_eq (cache : CCoinsViewCache) (below : CoinsView) :
    WriteBack.Sound Coin.isSpent (sweep cache.cacheCoins)
        (overlay Coin.isSpent cache.cacheCoins below) ∧
      overlay Coin.isSpent (sweep cache.cacheCoins) (overlay Coin.isSpent cache.cacheCoins below) =
        overlay Coin.isSpent cache.cacheCoins below := by
  constructor
  · intro key entry hlookup
    rw [lookup_sweep] at hlookup
    obtain ⟨it, hit, hentry⟩ := Option.bind_eq_some_iff.mp hlookup
    split_ifs at hentry with hspent
    obtain rfl := Option.some.inj hentry
    rw [lookup_overlay_of_some hit]
    exact ⟨nofun, fun _ => rfl, fun hlive => absurd hlive hspent⟩
  · ext1 key
    rw [lookup_overlay, lookup_sweep]
    cases hit : cache.cacheCoins.lookup key with
    | none => rfl
    | some it =>
      rw [lookup_overlay_of_some hit, Option.bind_some]
      cases hspent : it.value.isSpent <;> simp [live, hspent]

theorem batchWriteEntry_writesEntry : WritesEntry Coin.isSpent batchWriteEntry := by
  intro below cacheCoins item hsound hitem
  obtain ⟨key, entry⟩ := item
  rw [batchWriteEntry]
  dsimp only at hitem ⊢
  cases hdirty : entry.dirty with
  | false => exact ⟨cacheCoins, rfl, hsound, rfl⟩
  | true =>
    rw [if_pos rfl, Bool.not_true, if_neg Bool.false_ne_true]
    have hmerged : ∀ fresh, (fresh = true → below.lookup key = none) →
        (entry.value.isSpent = true → fresh = false) →
        WriteBack.Sound Coin.isSpent (cacheCoins.insert key ⟨entry.value, true, fresh⟩) below ∧
          overlay Coin.isSpent (cacheCoins.insert key ⟨entry.value, true, fresh⟩) below =
            write (overlay Coin.isSpent cacheCoins below) key (live Coin.isSpent entry.value) := by
      intro fresh hfresh hspent
      refine ⟨hsound.insert ⟨hfresh, nofun, fun hgone => ?_⟩, overlay_insert _ _ _ _⟩
      rw [hspent hgone]
      rfl
    cases hlookup : cacheCoins.lookup key with
    | none =>
      have hnever : (entry.fresh && entry.value.isSpent) = false := by
        cases hspent : entry.value.isSpent with
        | false => exact Bool.and_false _
        | true =>
          have hflags := hitem.spent_flags hspent
          rw [hdirty] at hflags
          simpa using hflags
      dsimp only
      rw [hnever, Bool.not_false, if_pos rfl]
      rw [lookup_overlay_of_none hlookup] at hitem
      refine ⟨_, rfl, hmerged entry.fresh hitem.fresh_below fun hspent => ?_⟩
      simpa [hspent] using hnever
    | some itUs =>
      have hours := hsound key itUs hlookup
      rw [lookup_overlay_of_some hlookup] at hitem
      have hmisapplied : (entry.fresh && !itUs.value.isSpent) = false := by
        cases hfresh : entry.fresh with
        | false => exact Bool.false_and _
        | true =>
          have hgone := live_eq_none_iff.mp (hitem.fresh_below hfresh)
          rw [hgone]
          rfl
      dsimp only
      rw [hmisapplied, if_neg Bool.false_ne_true]
      split_ifs with herase
      · rw [Bool.and_eq_true] at herase
        refine ⟨_, rfl, hsound.erase key, ?_⟩
        rw [overlay_erase, hours.fresh_below herase.1, live_eq_none_iff.mpr herase.2]
      · refine ⟨_, rfl, hmerged itUs.fresh hours.fresh_below fun hspent => ?_⟩
        simpa [hspent] using herase

end OneLayer

section Level

variable {view : CCoinsView State} {contents : State → CoinsView} {accepts : UInt256 → Prop}
  {base : State} {cache : CCoinsViewCache} {rest layers : List CCoinsViewCache}

/-- `base->BatchWrite` of a whole layer: what the layer showed is now shown below it,
and nothing changes further down. -/
theorem batchWriteBelow_eq_ok (hlawful : view.Lawful contents accepts)
    (hsound : SoundLayers (contents base) (cache :: rest))
    (haccepts : ∀ layer ∈ cache :: rest, accepts layer.hashBlock) (erase : Bool) :
    ∃ below after, batchWriteBelow view cache.cacheCoins cache.hashBlock erase base rest =
        .ok (if erase then ∅ else cache.cacheCoins, below, after) ∧
      SoundLayers (contents after) below ∧
      shownAll (contents after) below = shown (contents base) (cache :: rest) ::
        (shownAll (contents base) rest).tail ∧
      ∀ layer ∈ below, accepts layer.hashBlock := by
  obtain ⟨hhash, hrest⟩ := List.forall_mem_cons.mp haccepts
  cases rest with
  | nil =>
    obtain ⟨after, hwrite, hcontents⟩ :=
      hlawful.batchWrite_eq base cache.cacheCoins cache.hashBlock erase hhash
    refine ⟨[], after, ?_, trivial, ?_, List.forall_mem_nil _⟩
    · rw [batchWriteBelow, hwrite]
    · have hcommitted : committed Coin.isSpent id cache.cacheCoins (contents base) =
          shown (contents base) [cache] := Sound.committed_eq_overlay hsound.1
      rw [shownAll, shownAll, List.tail_cons, hcontents, hcommitted]
  | cons parent rest =>
    obtain ⟨hcache, hparent, hdeeper⟩ := hsound
    obtain ⟨cacheCoins, hloop, hsoundParent, hoverlay⟩ :=
      batchWriteEntry_writesEntry.overlay_eq hcache hparent
    refine ⟨⟨cacheCoins, cache.hashBlock⟩ :: rest, base, ?_, ⟨hsoundParent, hdeeper⟩, ?_, ?_⟩
    · rw [batchWriteBelow, batchWrite, hloop]
      rfl
    · rw [shownAll, shownAll, List.tail_cons, shown, shown, hoverlay, shown]
    · exact List.forall_mem_cons.mpr ⟨hhash, (List.forall_mem_cons.mp hrest).2⟩

/-- An operation at a level did what the plain model says. -/
structure Performed (contents : State → CoinsView) (accepts : UInt256 → Prop) (op : CoinsOp)
    (level : ℕ) (base : State) (layers : List CCoinsViewCache) (answer : CoinsAnswer)
    (after : List CCoinsViewCache × State) : Prop where
  answers : ∀ map ∈ (shownAll (contents base) layers)[level]?, op.Answers map answer
  sound : SoundLayers (contents after.2) after.1
  shownAll_eq : shownAll (contents after.2) after.1 =
    op.plain level (shownAll (contents base) layers)
  accepts : ∀ layer ∈ after.1, accepts layer.hashBlock

theorem operate_performed {op : CoinsOp} (hfinds : view.Finds contents)
    (hlawful : op.writesBack = true → view.Lawful contents accepts)
    (hsound : SoundLayers (contents base) (cache :: rest))
    (haccepts : ∀ layer ∈ cache :: rest, accepts layer.hashBlock)
    (hallowed : op.Allowed (shown (contents base) (cache :: rest))) :
    ∃ answer after, CoinsStack.operate view base cache rest op = .ok (answer, after) ∧
      Performed contents accepts op 0 base (cache :: rest) answer after := by
  have hhead : ∀ {answer : CoinsAnswer},
      op.Answers (shown (contents base) (cache :: rest)) answer →
      ∀ map ∈ (shownAll (contents base) (cache :: rest))[0]?, op.Answers map answer := by
    intro answer hanswer map hmap
    rw [shownAll, List.getElem?_cons_zero, Option.mem_some_iff] at hmap
    rwa [← hmap]
  cases op with
  | addCoin outpoint coin possibleOverwrite =>
    obtain ⟨added, hadded, hsoundAdded, hoverlay, hhash⟩ :=
      addCoin_eq_ok_of_allowed hsound.1 hallowed
    refine ⟨.done, (added :: rest, base), ?_, hhead rfl, ⟨hsoundAdded, hsound.2⟩, ?_, ?_⟩
    · rw [CoinsStack.operate, hadded]
      rfl
    · rw [shownAll, shownAll, shown, hoverlay]
      rfl
    · rw [List.forall_mem_cons] at haccepts ⊢
      rwa [hhash]
  | spendCoin outpoint =>
    have hfetched := fetched_of_sound outpoint hfinds hsound
    have hacceptsAfter := accepts_of_hashBlocks hfetched.hashBlocks_eq haccepts
    rw [CoinsStack.operate, spendCoin]
    generalize cache.fetchCoin outpoint rest (getCoin view base outpoint rest) = fetched
      at hfetched hacceptsAfter
    obtain ⟨it, top, fetched⟩ := fetched
    have hfirst : shown (contents base) (top :: fetched) =
        shown (contents base) (cache :: rest) := shown_eq_of_shownAll hfetched.shownAll_eq
    have hdeeper : shownAll (contents base) fetched = shownAll (contents base) rest :=
      (List.cons.inj hfetched.shownAll_eq).2
    cases it with
    | none =>
      refine ⟨.moved none, (top :: fetched, base), rfl,
        hhead ⟨none, rfl, hfetched.shown_eq.symm⟩, hfetched.sound, ?_, hacceptsAfter⟩
      have hnone : (shown (contents base) (cache :: rest)).lookup outpoint = none :=
        hfetched.shown_eq
      have hkeep := write_lookup_self (shown (contents base) (cache :: rest)) outpoint
      rw [hnone] at hkeep
      rw [hfetched.shownAll_eq]
      exact congrArg (· :: shownAll (contents base) rest) hkeep.symm
    | some it =>
      obtain ⟨hsoundSpent, hspent⟩ := spent_entry hfetched.sound.1 hfetched.lookup_eq
      refine ⟨.moved (some it.value), (_ :: fetched, base), rfl,
        hhead ⟨some it.value, rfl, hfetched.shown_eq.symm⟩, ⟨hsoundSpent, hfetched.sound.2⟩,
        ?_, ?_⟩
      · rw [shownAll, shown, hspent, hdeeper, ← shown, hfirst]
        rfl
      · rw [List.forall_mem_cons] at hacceptsAfter ⊢
        refine ⟨?_, hacceptsAfter.2⟩
        split_ifs
        · exact hacceptsAfter.1
        · exact hacceptsAfter.1
  | getCoin outpoint =>
    have hfetched := fetched_of_sound outpoint hfinds hsound
    refine ⟨_, _, rfl, hhead ?_, hfetched.sound, hfetched.shownAll_eq,
      accepts_of_hashBlocks hfetched.hashBlocks_eq haccepts⟩
    exact congrArg CoinsAnswer.coin hfetched.shown_eq.symm
  | haveCoin outpoint =>
    have hfetched := fetched_of_sound outpoint hfinds hsound
    refine ⟨_, _, rfl, hhead ?_, hfetched.sound, hfetched.shownAll_eq,
      accepts_of_hashBlocks hfetched.hashBlocks_eq haccepts⟩
    refine congrArg CoinsAnswer.present ((any_unspent_eq _).trans ?_)
    rw [CoinsView.haveCoin, hfetched.shown_eq]
    rfl
  | uncache outpoint =>
    obtain ⟨hsoundAfter, hoverlay, hhash⟩ := uncache_eq outpoint hsound.1
    refine ⟨.done, (cache.uncache outpoint :: rest, base), rfl, hhead rfl,
      ⟨hsoundAfter, hsound.2⟩, ?_, ?_⟩
    · rw [shownAll, shownAll, shown, hoverlay]
      rfl
    · rw [List.forall_mem_cons] at haccepts ⊢
      rwa [hhash]
  | sync =>
    obtain ⟨below, after, hwrite, hsoundBelow, hshownBelow, hacceptsBelow⟩ :=
      batchWriteBelow_eq_ok (hlawful rfl) hsound haccepts false
    have hshown := shown_eq_of_shownAll hshownBelow
    obtain ⟨hsoundSweep, hsweep⟩ := sweep_eq cache (shown (contents base) rest)
    refine ⟨.done, ({ cache with cacheCoins := sweep cache.cacheCoins } :: below, after), ?_,
      hhead rfl, ⟨by rw [hshown]; exact hsoundSweep, hsoundBelow⟩, ?_, ?_⟩
    · rw [CoinsStack.operate, sync, hwrite]
      rfl
    · rw [shownAll, shown, hshownBelow, hshown, shown, hsweep, shownAll]
      rfl
    · exact List.forall_mem_cons.mpr ⟨(List.forall_mem_cons.mp haccepts).1, hacceptsBelow⟩
  | flush =>
    obtain ⟨below, after, hwrite, hsoundBelow, hshownBelow, hacceptsBelow⟩ :=
      batchWriteBelow_eq_ok (hlawful rfl) hsound haccepts true
    have hshown := shown_eq_of_shownAll hshownBelow
    refine ⟨.done, ({ cache with cacheCoins := ∅ } :: below, after), ?_,
      hhead rfl, ⟨sound_empty _, hsoundBelow⟩, ?_, ?_⟩
    · rw [CoinsStack.operate, flush, hwrite]
      rfl
    · rw [shownAll, shown, overlay_empty, hshownBelow, hshown, shownAll]
      rfl
    · exact List.forall_mem_cons.mpr ⟨(List.forall_mem_cons.mp haccepts).1, hacceptsBelow⟩

namespace CoinsOp

variable {op : CoinsOp} {map : CoinsView} {level : ℕ}

theorem exists_plain_eq_cons (op : CoinsOp) (level : ℕ) (map : CoinsView)
    (below : List CoinsView) : ∃ deeper, op.plain level (map :: below) = op.update map :: deeper := by
  cases level with
  | zero => exact ⟨_, rfl⟩
  | succ level => exact ⟨_, rfl⟩

/-- A change below is seen through a layer that does not hold the key. -/
theorem overlay_update (hfree : ∀ change ∈ op.change, cache.cacheCoins.lookup change.1 = none) :
    overlay Coin.isSpent cache.cacheCoins (op.update map) =
      op.update (overlay Coin.isSpent cache.cacheCoins map) := by
  rw [update, update]
  cases hchange : op.change with
  | none => rfl
  | some change => exact overlay_write (hfree change hchange) change.2

theorem sound_update (hfree : ∀ change ∈ op.change, cache.cacheCoins.lookup change.1 = none)
    (hsound : WriteBack.Sound Coin.isSpent cache.cacheCoins map) :
    WriteBack.Sound Coin.isSpent cache.cacheCoins (op.update map) := by
  rw [update]
  cases hchange : op.change with
  | none => exact hsound
  | some change => exact hsound.write_below (hfree change hchange) change.2

/-- A flush copies the map of its level one level down. -/
theorem plain_flush (level : ℕ) {maps : List CoinsView} (hlevel : level + 1 < maps.length) :
    (CoinsOp.flush.plain level maps)[level + 1]? = maps[level]? ∧
      (CoinsOp.flush.plain level maps).length = maps.length := by
  induction level generalizing maps with
  | zero =>
    obtain ⟨map, below, rfl⟩ := List.exists_cons_of_length_pos (by omega : 0 < maps.length)
    obtain ⟨next, below, rfl⟩ := List.exists_cons_of_length_pos (Nat.lt_of_succ_lt_succ hlevel)
    exact ⟨rfl, rfl⟩
  | succ level ih =>
    cases maps with
    | nil => simp at hlevel
    | cons map below =>
      obtain ⟨hcopied, hlength⟩ := ih (by simpa using hlevel)
      rw [plain, List.getElem?_cons_succ, List.length_cons, List.length_cons, hlength]
      exact ⟨hcopied, rfl⟩

theorem permitted_flush {layers : List CCoinsViewCache} {maps : List CoinsView}
    (hlevel : level < layers.length) (hlength : maps.length = layers.length + 1) :
    CoinsOp.flush.Permitted level layers maps := by
  induction level generalizing layers maps with
  | zero =>
    cases layers with
    | nil => simp at hlevel
    | cons cache rest =>
      cases maps with
      | nil => simp at hlength
      | cons map below => exact trivial
  | succ level ih =>
    cases layers with
    | nil => simp at hlevel
    | cons cache rest =>
      cases maps with
      | nil => simp at hlength
      | cons map below =>
        exact ⟨nofun, ih (by simpa using hlevel) (by simpa using hlength)⟩

end CoinsOp

theorem operateAt_performed {op : CoinsOp} {level : ℕ} (hfinds : view.Finds contents)
    (hlawful : op.writesBack = true → view.Lawful contents accepts)
    (hsound : SoundLayers (contents base) layers)
    (haccepts : ∀ layer ∈ layers, accepts layer.hashBlock)
    (hpermitted : op.Permitted level layers (shownAll (contents base) layers)) :
    ∃ answer after, CoinsStack.operateAt view base op level layers = .ok (answer, after) ∧
      Performed contents accepts op level base layers answer after := by
  induction layers generalizing level with
  | nil =>
    cases level with
    | zero => exact hpermitted.elim
    | succ level => exact hpermitted.elim
  | cons cache rest ih =>
    cases level with
    | zero => exact operate_performed hfinds hlawful hsound haccepts hpermitted
    | succ level =>
      obtain ⟨hfree, hrest⟩ := hpermitted
      obtain ⟨hhash, hacceptsRest⟩ := List.forall_mem_cons.mp haccepts
      obtain ⟨answer, after, hok, hperformed⟩ := ih hsound.2 hacceptsRest hrest
      obtain ⟨maps, hmaps⟩ := shownAll_eq_cons (contents base) rest
      have hshown : shown (contents after.2) after.1 = op.update (shown (contents base) rest) := by
        obtain ⟨deeper, hdeeper⟩ :=
          op.exists_plain_eq_cons level (shown (contents base) rest) maps
        have hall : shownAll (contents after.2) after.1 =
            op.update (shown (contents base) rest) :: deeper := by
          rw [hperformed.shownAll_eq, hmaps, hdeeper]
        exact shown_eq_of_shownAll hall
      refine ⟨answer, (cache :: after.1, after.2), ?_, hperformed.answers, ⟨?_, hperformed.sound⟩,
        ?_, List.forall_mem_cons.mpr ⟨hhash, hperformed.accepts⟩⟩
      · rw [CoinsStack.operateAt, hok]
        rfl
      · rw [hshown]
        exact CoinsOp.sound_update hfree hsound.1
      · rw [shownAll, shown, hshown, CoinsOp.overlay_update hfree, hperformed.shownAll_eq]
        rfl

end Level

section Stack

variable {view : CCoinsView State} {contents : State → CoinsView} {accepts : UInt256 → Prop}

/-- A stack stands for plain maps, one for every layer and one for the base. -/
structure CoinsStack.Refines (contents : State → CoinsView) (accepts : UInt256 → Prop)
    (stack : CoinsStack State) (maps : List CoinsView) : Prop where
  sound : SoundLayers (contents stack.base) stack.layers
  shownAll_eq : shownAll (contents stack.base) stack.layers = maps
  accepts : ∀ layer ∈ stack.layers, accepts layer.hashBlock

namespace CoinsStack

variable {stack : CoinsStack State} {maps : List CoinsView} {op : CoinsOp} {level : ℕ}

theorem Refines.length_eq (hrefines : stack.Refines contents accepts maps) :
    maps.length = stack.layers.length + 1 := by
  rw [← hrefines.shownAll_eq, length_shownAll]

/-- One operation of the stack is one operation of the plain maps. -/
theorem Refines.perform (hfinds : view.Finds contents)
    (hlawful : op.writesBack = true → view.Lawful contents accepts)
    (hrefines : stack.Refines contents accepts maps)
    (hpermitted : op.Permitted level stack.layers maps) :
    ∃ answer next, stack.perform view level op = .ok (answer, next) ∧
      (∀ map ∈ maps[level]?, op.Answers map answer) ∧
      next.Refines contents accepts (op.plain level maps) := by
  obtain ⟨hsound, rfl, haccepts⟩ := hrefines
  obtain ⟨answer, after, hok, hperformed⟩ :=
    operateAt_performed hfinds hlawful hsound haccepts hpermitted
  refine ⟨answer, ⟨after.1, after.2⟩, ?_, hperformed.answers, hperformed.sound,
    hperformed.shownAll_eq, hperformed.accepts⟩
  rw [CoinsStack.perform, hok]
  rfl

/-- Flushing the levels from one on carries its map to the base. -/
theorem Refines.flushFrom (hlawful : view.Lawful contents accepts) {count : ℕ} {map : CoinsView}
    (hrefines : stack.Refines contents accepts maps)
    (hlevel : level + count = stack.layers.length) (hmap : maps[level]? = some map) :
    ∃ flushed, loop (fun (current : CoinsStack State) level => do
        let (_, after) ← current.perform view level .flush
        .ok after) stack (List.range' level count) = .ok flushed ∧
      contents flushed.base = map := by
  induction count generalizing level stack maps with
  | zero =>
    refine ⟨stack, rfl, ?_⟩
    have hlast : maps.getLast? = some (contents stack.base) := by
      rw [← hrefines.shownAll_eq]
      induction stack.layers with
      | nil => rfl
      | cons cache rest ih =>
        obtain ⟨deeper, hdeeper⟩ := shownAll_eq_cons (contents stack.base) rest
        rw [hdeeper] at ih
        rw [shownAll, hdeeper, List.getLast?_cons_cons, ih]
    rw [List.getLast?_eq_getElem?, hrefines.length_eq, Nat.add_sub_cancel, ← hlevel,
      Nat.add_zero, hmap] at hlast
    exact (Option.some.inj hlast).symm
  | succ count ih =>
    have hpermitted : CoinsOp.flush.Permitted level stack.layers maps :=
      CoinsOp.permitted_flush (by omega) hrefines.length_eq
    obtain ⟨answer, next, hok, _, hnext⟩ := hrefines.perform hlawful.finds (fun _ => hlawful) hpermitted
    have hlength : next.layers.length = stack.layers.length := by
      have hbefore := hrefines.length_eq
      have hafter := hnext.length_eq
      rw [(CoinsOp.plain_flush level (by omega)).2] at hafter
      omega
    have hrest : level + 1 + count = next.layers.length := by omega
    have hcopied : (CoinsOp.flush.plain level maps)[level + 1]? = some map := by
      rw [(CoinsOp.plain_flush level (by rw [hrefines.length_eq]; omega)).1, hmap]
    obtain ⟨flushed, hloop, hbase⟩ := ih hnext hrest hcopied
    refine ⟨flushed, ?_, hbase⟩
    rw [List.range'_succ, loop_cons_eq_ok]
    exact ⟨next, by rw [hok]; rfl, hloop⟩

theorem Refines.flushAll (hlawful : view.Lawful contents accepts) {map : CoinsView}
    (hrefines : stack.Refines contents accepts maps) (hmap : maps.head? = some map) :
    ∃ flushed, stack.flushAll view = .ok flushed ∧ contents flushed.base = map := by
  rw [CoinsStack.flushAll, List.range_eq_range']
  exact hrefines.flushFrom hlawful (Nat.zero_add _) (by rw [← List.head?_eq_getElem?, hmap])

end CoinsStack

/-- What true flags say: only the legal combinations occur, and a fresh entry stands
over no unspent coin. -/
theorem legal_of_soundLayers {below : CoinsView} {upper lower : List CCoinsViewCache}
    {layer : CCoinsViewCache} (hsound : SoundLayers below (upper ++ layer :: lower)) :
    layer.sanityCheck = true ∧
      ∀ outpoint entry, layer.cacheCoins.lookup outpoint = some entry → entry.fresh = true →
        (shown below lower).lookup outpoint = none := by
  induction upper with
  | nil =>
    refine ⟨List.all_eq_true.mpr fun it hmem => ?_, fun outpoint entry hlookup hfresh =>
      (hsound.1 outpoint entry hlookup).fresh_below hfresh⟩
    have hentry := hsound.1 it.1 it.2 (List.mem_dlookup layer.cacheCoins.nodupKeys hmem)
    have hdirty := hentry.dirty_of_fresh
    have hflags := hentry.spent_flags
    rw [attr]
    cases hspent : it.2.value.isSpent <;> cases hfresh : it.2.fresh <;>
      cases hclean : it.2.dirty <;> simp_all
  | cons cache upper ih => exact ih hsound.2

/-- A permitted operation of the stack together with the same one of the plain maps. -/
def StackStep (view : CCoinsView State) (state : CoinsStack State × List CoinsView)
    (label : ℕ × CoinsOp × CoinsAnswer) (next : CoinsStack State × List CoinsView) : Prop :=
  label.2.1.Permitted label.1 state.1.layers state.2 ∧
    state.1.perform view label.1 label.2.1 = .ok (label.2.2, next.1) ∧
    next.2 = label.2.1.plain label.1 state.2

theorem stackStep_of_perform {view : CCoinsView State} {state : CoinsStack State × List CoinsView}
    {level : ℕ} {op : CoinsOp} {answer : CoinsAnswer} {next : CoinsStack State}
    (hpermitted : op.Permitted level state.1.layers state.2)
    (hperform : state.1.perform view level op = .ok (answer, next)) :
    StackStep view state (level, op, answer) (next, op.plain level state.2) :=
  ⟨hpermitted, hperform, rfl⟩

theorem shownAll_of_empty {below : CoinsView} {layers : List CCoinsViewCache}
    (hempty : ∀ layer ∈ layers, layer.cacheCoins = ∅) :
    SoundLayers below layers ∧ shown below layers = below ∧
      shownAll below layers = List.replicate (layers.length + 1) below := by
  induction layers with
  | nil => exact ⟨trivial, rfl, rfl⟩
  | cons cache rest ih =>
    obtain ⟨hcache, hrest⟩ := List.forall_mem_cons.mp hempty
    obtain ⟨hsound, hshown, hall⟩ := ih hrest
    have htop : shown below (cache :: rest) = below := by
      rw [shown, hcache, overlay_empty, hshown]
    refine ⟨⟨?_, hsound⟩, htop, ?_⟩
    · rw [hcache]
      exact sound_empty _
    · rw [shownAll, htop, hall, List.length_cons, ← List.replicate_succ]

theorem coinsStack_refines_map (view : CCoinsView State) (contents : State → CoinsView)
    (accepts : UInt256 → Prop) (hlawful : view.Lawful contents accepts) (base : State)
    (layers : List CCoinsViewCache)
    (hempty : ∀ layer ∈ layers, layer.cacheCoins = ∅ ∧ accepts layer.hashBlock)
    (labels : List (ℕ × CoinsOp × CoinsAnswer)) (final : CoinsStack State × List CoinsView)
    (hrun : Run (StackStep view)
      (⟨layers, base⟩, List.replicate (layers.length + 1) (contents base)) labels final) :
    (∀ level op, op.Permitted level final.1.layers final.2 →
      ∃ answer next, final.1.perform view level op = .ok (answer, next) ∧
        ∀ map ∈ final.2[level]?, op.Answers map answer) ∧
    final.2.head? = some (labels.foldl (fun map label => label.2.1.update map) (contents base)) ∧
    (∀ upper layer lower, final.1.layers = upper ++ layer :: lower →
      layer.sanityCheck = true ∧
        ∀ outpoint entry, layer.cacheCoins.lookup outpoint = some entry → entry.fresh = true →
          (shown (contents final.1.base) lower).lookup outpoint = none) ∧
    ∃ flushed, final.1.flushAll view = .ok flushed ∧
      contents flushed.base =
        labels.foldl (fun map label => label.2.1.update map) (contents base) := by
  obtain ⟨hrefines, hhead⟩ : final.1.Refines contents accepts final.2 ∧ final.2.head? =
      some (labels.foldl (fun map label => label.2.1.update map) (contents base)) := by
    refine hrun.invariant (fun labels state => state.1.Refines contents accepts state.2 ∧
      state.2.head? =
        some (labels.foldl (fun map label => label.2.1.update map) (contents base))) ?_ ?_
    · have hcaches : ∀ layer ∈ layers, layer.cacheCoins = ∅ := fun layer hmem =>
        (hempty layer hmem).1
      obtain ⟨hsound, _, hall⟩ := @shownAll_of_empty (contents base) layers hcaches
      exact ⟨⟨hsound, hall, fun layer hmem => (hempty layer hmem).2⟩, rfl⟩
    · rintro earlier ⟨stack, maps⟩ ⟨level, op, answer⟩ ⟨next, after⟩ ⟨hrefines, hhead⟩
        ⟨hpermitted, hperform, rfl⟩
      obtain ⟨_, _, hok, _, hnext⟩ := hrefines.perform hlawful.finds (fun _ => hlawful) hpermitted
      rw [hperform] at hok
      obtain ⟨rfl, rfl⟩ := Prod.mk.inj (Except.ok.inj hok)
      refine ⟨hnext, ?_⟩
      obtain ⟨below, rfl⟩ := List.head?_eq_some_iff.mp hhead
      obtain ⟨deeper, hdeeper⟩ := op.exists_plain_eq_cons level _ below
      rw [hdeeper, List.foldl_append]
      rfl
  refine ⟨?_, hhead, ?_, hrefines.flushAll hlawful hhead⟩
  · intro level op hpermitted
    obtain ⟨answer, next, hok, hanswers, _⟩ := hrefines.perform hlawful.finds (fun _ => hlawful) hpermitted
    exact ⟨answer, next, hok, hanswers⟩
  · intro upper layer lower hlayers
    have hsound := hrefines.sound
    rw [hlayers] at hsound
    exact legal_of_soundLayers hsound

end Stack

section Memory

/-- A map of unspent coins held in memory. -/
def UnspentView : Type :=
  { coins : CoinsView // ∀ outpoint coin, coins.lookup outpoint = some coin →
    coin.isSpent = false }

theorem isSpent_of_live {coin found : Coin} (hlive : live Coin.isSpent coin = some found) :
    found.isSpent = false := by
  rw [live] at hlive
  split_ifs at hlive with hspent
  rw [← Option.some.inj hlive]
  exact Bool.eq_false_of_not_eq_true hspent

def UnspentView.commit (coins : UnspentView) (mapCoins : CCoinsMap) : UnspentView :=
  ⟨committed Coin.isSpent id mapCoins coins.1, by
    intro outpoint coin hlookup
    rw [lookup_committed] at hlookup
    cases hit : mapCoins.lookup outpoint with
    | none =>
        rw [hit] at hlookup
        exact coins.2 outpoint coin hlookup
    | some it =>
        rw [hit, Option.elim_some, Option.map_id] at hlookup
        split_ifs at hlookup
        · exact isSpent_of_live hlookup
        · exact coins.2 outpoint coin hlookup⟩

def memoryView : CCoinsView UnspentView where
  getCoin coins outpoint := coins.1.lookup outpoint
  batchWrite coins mapCoins _ erase := some (if erase then ∅ else mapCoins, coins.commit mapCoins)

theorem memoryView_lawful : memoryView.Lawful Subtype.val fun _ => True where
  finds := by
    intro coins outpoint
    change (coins.1.lookup outpoint).bind _ = coins.1.lookup outpoint
    cases hlookup : coins.1.lookup outpoint with
    | none => rfl
    | some coin =>
      rw [Option.bind_some, live_of_unspent (coins.2 outpoint coin hlookup)]
  batchWrite_eq := fun coins mapCoins _ erase _ => ⟨coins.commit mapCoins, rfl, rfl⟩

def memoryOutpoint : COutPoint := ⟨1, 0⟩

def memoryCoins : UnspentView :=
  ⟨FiniteMap.empty.insert memoryOutpoint ⟨⟨5, [0x51]⟩, false, false, 1, 0⟩, by
    intro outpoint coin hlookup
    rw [FiniteMap.lookup_insert] at hlookup
    split_ifs at hlookup
    · rw [← Option.some.inj hlookup]
      rfl
    · exact absurd hlookup nofun⟩

/-- The coin is spent in the upper of two layers and flushed to the lower one; after
all layers are flushed the base does not have it. -/
theorem coinsStack_refines_map_spent :
    ∃ stack flushed : CoinsStack UnspentView,
      CoinsStack.flushAll memoryView stack = .ok flushed ∧
        flushed.base.1.lookup memoryOutpoint = none := by
  have hrun : Run (StackStep memoryView)
      (⟨[⟨∅, 1⟩, ⟨∅, 1⟩], memoryCoins⟩, List.replicate 3 memoryCoins.1)
      [(0, .spendCoin memoryOutpoint, .moved (some ⟨⟨5, [0x51]⟩, false, false, 1, 0⟩)),
        (0, .flush, .done)] _ :=
    (Run.nil.snoc (stackStep_of_perform (by trivial) rfl)).snoc
      (stackStep_of_perform (by trivial) rfl)
  obtain ⟨_, _, _, flushed, hflush, hbase⟩ := coinsStack_refines_map memoryView Subtype.val
    (fun _ => True) memoryView_lawful memoryCoins [⟨∅, 1⟩, ⟨∅, 1⟩] (by simp) _ _ hrun
  exact ⟨_, flushed, hflush, by rw [hbase]; rfl⟩

end Memory

end FirstIslamicCoin
