import FirstIslamicCoin.Chain.BlockIndex

/-!
# Looking up an ancestor through skip pointers

`CBlockIndex::GetAncestor` walks down through `pprev` and `pskip`, choosing by the heights
that the skip pointers lead to.  Entries are the positions of a tree that only grows, as
`AddToBlockIndex` grows it, and `BuildSkip` runs `GetAncestor` itself when an entry is added.
Whatever the choice made at each step, the entry reached is one the walk through `pprev`
passes, so the list of ancestors used in the rest of the development is what the pointers
mean.
-/

namespace FirstIslamicCoin

/-- The fields of an entry that the lookup reads; a pointer is a position in the tree. -/
structure SkipEntry where
  nHeight : ℕ
  pprev : Option ℕ
  pskip : Option ℕ
  deriving DecidableEq, Repr

abbrev BlockTree := List SkipEntry

/-- What stops the node: the assertion on `pprev`, or a pointer to no entry. -/
inductive WalkFailure where
  | assertion
  | dangling
  deriving DecidableEq, Repr

section Heights

def invertLowestOne (n : ℕ) : ℕ := n &&& (n - 1)

def getSkipHeight (height : ℕ) : ℕ :=
  if height < 2 then 0
  else if height &&& 1 ≠ 0 then invertLowestOne (invertLowestOne (height - 1)) + 1
  else invertLowestOne height

theorem invertLowestOne_le (n : ℕ) : invertLowestOne n ≤ n - 1 := Nat.and_le_right

/-- A skip pointer leads down. -/
theorem getSkipHeight_lt {height : ℕ} (hpos : 0 < height) : getSkipHeight height < height := by
  have hone := invertLowestOne_le height
  have htwo := invertLowestOne_le (height - 1)
  have hthree := invertLowestOne_le (invertLowestOne (height - 1))
  rw [getSkipHeight]
  split_ifs <;> omega

/-- Whether the walk at a height takes the skip pointer: only if `pprev->pskip` is not better
than `pskip->pprev`. -/
def takesSkip (heightWalk height : ℕ) : Bool :=
  let heightSkip := getSkipHeight heightWalk
  let heightSkipPrev := getSkipHeight (heightWalk - 1)
  heightSkip == height ||
    (heightSkip > height && !(heightSkipPrev < heightSkip - 2 && heightSkipPrev ≥ height))

theorem le_of_takesSkip {heightWalk height : ℕ} (htakes : takesSkip heightWalk height = true) :
    height ≤ getSkipHeight heightWalk := by
  rw [takesSkip, Bool.or_eq_true, Bool.and_eq_true, beq_iff_eq, decide_eq_true_eq] at htakes
  omega

end Heights

namespace BlockTree

/-- The loop of `GetAncestor`. -/
def ancestorLoop (tree : BlockTree) (height pindexWalk heightWalk : ℕ) : Except WalkFailure ℕ :=
  if height < heightWalk then
    match tree[pindexWalk]? with
    | none => .error .dangling
    | some entry =>
        match entry.pskip, takesSkip heightWalk height with
        | some pskip, true => ancestorLoop tree height pskip (getSkipHeight heightWalk)
        | _, _ =>
            match entry.pprev with
            | none => .error .assertion
            | some pprev => ancestorLoop tree height pprev (heightWalk - 1)
  else .ok pindexWalk
termination_by heightWalk
decreasing_by
  · exact getSkipHeight_lt (by omega)
  · omega

def getAncestor (tree : BlockTree) (pindex : ℕ) (height : ℤ) : Except WalkFailure (Option ℕ) :=
  match tree[pindex]? with
  | none => .error .dangling
  | some entry =>
      if entry.nHeight < height ∨ height < 0 then .ok none
      else (ancestorLoop tree height.toNat pindex entry.nHeight).map some

def buildSkip (tree : BlockTree) (pprev nHeight : ℕ) : Except WalkFailure (Option ℕ) :=
  getAncestor tree pprev (getSkipHeight nHeight)

/-- The pointers set by `AddToBlockIndex` and by the loading of the index: an entry whose
parent is not known keeps the height zero and has no skip pointer. -/
def addToBlockIndex (tree : BlockTree) : Option ℕ → Except WalkFailure BlockTree
  | none => .ok (tree ++ [⟨0, none, none⟩])
  | some pprev =>
      match tree[pprev]? with
      | none => .error .dangling
      | some parent => do
          let pskip ← buildSkip tree pprev (parent.nHeight + 1)
          return tree ++ [⟨parent.nHeight + 1, some pprev, pskip⟩]

/-- The trees that additions build, of any shape. -/
inductive Built : BlockTree → Prop
  | empty : Built []
  | add {tree next : BlockTree} (pprev : Option ℕ) (hbuilt : Built tree)
      (hadded : addToBlockIndex tree pprev = .ok next) : Built next

def followPrev (tree : BlockTree) : ℕ → ℕ → Option ℕ
  | 0, pindex => some pindex
  | steps + 1, pindex => do
      let entry ← tree[pindex]?
      let pprev ← entry.pprev
      followPrev tree steps pprev

variable {tree : BlockTree} {entry : SkipEntry} {pindex : ℕ}

theorem followPrev_succ {pindex pprev : ℕ} (hentry : tree[pindex]? = some entry)
    (hprev : entry.pprev = some pprev) (steps : ℕ) :
    followPrev tree (steps + 1) pindex = followPrev tree steps pprev := by
  simp [followPrev, hentry, hprev]

theorem exists_of_followPrev_succ {steps pindex ancestor : ℕ}
    (hfollow : followPrev tree (steps + 1) pindex = some ancestor) :
    ∃ entry pprev, tree[pindex]? = some entry ∧ entry.pprev = some pprev ∧
      followPrev tree steps pprev = some ancestor := by
  simp only [followPrev, Option.bind_eq_bind, Option.bind_eq_some_iff] at hfollow
  obtain ⟨entry, hentry, pprev, hprev, hrest⟩ := hfollow
  exact ⟨entry, pprev, hentry, hprev, hrest⟩

theorem followPrev_add {first second pindex middle : ℕ}
    (hfirst : followPrev tree first pindex = some middle) :
    followPrev tree (first + second) pindex = followPrev tree second middle := by
  induction first generalizing pindex with
  | zero => rw [Nat.zero_add, Option.some.inj hfirst]
  | succ first ih =>
    obtain ⟨entry, pprev, hentry, hprev, hrest⟩ := exists_of_followPrev_succ hfirst
    rw [Nat.succ_add, followPrev_succ hentry hprev]
    exact ih hrest

/-- What the additions establish: heights count up from zero along `pprev`, and a skip
pointer leads to the ancestor at its height. -/
structure Linked (tree : BlockTree) : Prop where
  root : ∀ {pindex : ℕ} {entry : SkipEntry}, tree[pindex]? = some entry → entry.pprev = none →
    entry.nHeight = 0
  prev : ∀ {pindex pprev : ℕ} {entry : SkipEntry}, tree[pindex]? = some entry →
    entry.pprev = some pprev →
      ∃ parent, tree[pprev]? = some parent ∧ entry.nHeight = parent.nHeight + 1
  skip : ∀ {pindex pskip : ℕ} {entry : SkipEntry}, tree[pindex]? = some entry →
    entry.pskip = some pskip →
      followPrev tree (entry.nHeight - getSkipHeight entry.nHeight) pindex = some pskip

/-- The walk through `pprev` passes every height. -/
theorem Linked.exists_followPrev (hlinked : Linked tree) (hentry : tree[pindex]? = some entry)
    {steps : ℕ} (hsteps : steps ≤ entry.nHeight) :
    ∃ ancestor found, followPrev tree steps pindex = some ancestor ∧
      tree[ancestor]? = some found ∧ found.nHeight + steps = entry.nHeight := by
  induction steps generalizing pindex entry with
  | zero => exact ⟨pindex, entry, rfl, hentry, rfl⟩
  | succ steps ih =>
    cases hprev : entry.pprev with
    | none =>
      have hroot := hlinked.root hentry hprev
      omega
    | some pprev =>
      obtain ⟨parent, hparent, hheight⟩ := hlinked.prev hentry hprev
      obtain ⟨ancestor, found, hfollow, hfound, hsum⟩ := ih hparent (by omega)
      exact ⟨ancestor, found, (followPrev_succ hentry hprev steps).trans hfollow, hfound,
        by omega⟩

/-- Each step of the loop stays on the walk through `pprev`, above the wanted height. -/
theorem Linked.ancestorLoop_eq (hlinked : Linked tree) {pindex height : ℕ}
    (hentry : tree[pindex]? = some entry) (hheight : height ≤ entry.nHeight) {ancestor : ℕ}
    (hfollow : followPrev tree (entry.nHeight - height) pindex = some ancestor) :
    ancestorLoop tree height pindex entry.nHeight = .ok ancestor := by
  induction hcount : entry.nHeight using Nat.strong_induction_on generalizing pindex entry with
  | _ count ih =>
    subst hcount
    rw [ancestorLoop]
    split_ifs with hmore
    · rw [hentry]
      dsimp only
      split
      · next pskip hskip htakes =>
        have hjump := hlinked.skip hentry hskip
        have hlow := le_of_takesSkip htakes
        have hdown := getSkipHeight_lt (show 0 < entry.nHeight by omega)
        obtain ⟨reached, found, hreached, hfound, hsum⟩ :=
          hlinked.exists_followPrev hentry (Nat.sub_le entry.nHeight _)
        obtain rfl := Option.some.inj (hjump.symm.trans hreached)
        have hskipHeight : found.nHeight = getSkipHeight entry.nHeight := by omega
        have hrest : followPrev tree (found.nHeight - height) pskip = some ancestor := by
          rw [← followPrev_add hjump, ← hfollow, hskipHeight]
          congr 1
          omega
        rw [← hskipHeight]
        exact ih found.nHeight (by omega) hfound (by omega) hrest rfl
      · split
        · next hnone =>
          have hroot := hlinked.root hentry hnone
          omega
        · next pprev hprev =>
          obtain ⟨parent, hparent, hnext⟩ := hlinked.prev hentry hprev
          have hsteps : entry.nHeight - height = parent.nHeight - height + 1 := by omega
          rw [hsteps, followPrev_succ hentry hprev] at hfollow
          rw [hnext, Nat.add_sub_cancel]
          exact ih parent.nHeight (by omega) hparent (by omega) hfollow rfl
    · have hsame : entry.nHeight - height = 0 := by omega
      rw [hsame, followPrev] at hfollow
      rw [Option.some.inj hfollow]

theorem Linked.getAncestor_eq (hlinked : Linked tree) {pindex height : ℕ}
    (hentry : tree[pindex]? = some entry) (hheight : height ≤ entry.nHeight) {ancestor : ℕ}
    (hfollow : followPrev tree (entry.nHeight - height) pindex = some ancestor) :
    getAncestor tree pindex height = .ok (some ancestor) := by
  rw [getAncestor, hentry]
  dsimp only
  rw [if_neg (by omega), Int.toNat_natCast, hlinked.ancestorLoop_eq hentry hheight hfollow]
  rfl

theorem getElem?_add (added : SkipEntry) (hentry : tree[pindex]? = some entry) :
    (tree ++ [added])[pindex]? = some entry := by
  rw [List.getElem?_append_left (List.getElem?_eq_some_iff.mp hentry).1, hentry]

theorem getElem?_add_cases {added : SkipEntry} (hentry : (tree ++ [added])[pindex]? = some entry) :
    tree[pindex]? = some entry ∨ pindex = tree.length ∧ entry = added := by
  rw [List.getElem?_append] at hentry
  split_ifs at hentry with hlt
  · exact .inl hentry
  · obtain ⟨hzero, hadded⟩ := List.getElem?_eq_some_iff.mp hentry
    rw [List.length_singleton] at hzero
    exact .inr ⟨by omega, by simpa using hadded.symm⟩

theorem followPrev_append (added : SkipEntry) {steps pindex ancestor : ℕ}
    (hfollow : followPrev tree steps pindex = some ancestor) :
    followPrev (tree ++ [added]) steps pindex = some ancestor := by
  induction steps generalizing pindex with
  | zero => exact hfollow
  | succ steps ih =>
    obtain ⟨entry, pprev, hentry, hprev, hrest⟩ := exists_of_followPrev_succ hfollow
    rw [followPrev_succ (getElem?_add added hentry) hprev]
    exact ih hrest

/-- An entry with its skip pointer joins a linked tree. -/
theorem Linked.add (hlinked : Linked tree) {added : SkipEntry}
    (hroot : added.pprev = none → added.nHeight = 0 ∧ added.pskip = none)
    (hprev : ∀ pprev, added.pprev = some pprev →
      ∃ parent, tree[pprev]? = some parent ∧ added.nHeight = parent.nHeight + 1 ∧
        ∀ pskip, added.pskip = some pskip →
          followPrev tree (parent.nHeight - getSkipHeight added.nHeight) pprev = some pskip) :
    Linked (tree ++ [added]) where
  root hentry hnone := by
    rcases getElem?_add_cases hentry with hold | ⟨rfl, rfl⟩
    · exact hlinked.root hold hnone
    · exact (hroot hnone).1
  prev hentry hsome := by
    rcases getElem?_add_cases hentry with hold | ⟨rfl, rfl⟩
    · obtain ⟨parent, hparent, hheight⟩ := hlinked.prev hold hsome
      exact ⟨parent, getElem?_add added hparent, hheight⟩
    · obtain ⟨parent, hparent, hheight, _⟩ := hprev _ hsome
      exact ⟨parent, getElem?_add _ hparent, hheight⟩
  skip hentry hskip := by
    rcases getElem?_add_cases hentry with hold | ⟨rfl, rfl⟩
    · exact followPrev_append added (hlinked.skip hold hskip)
    · rename_i pskip entry
      cases hpprev : entry.pprev with
      | none => exact absurd ((hroot hpprev).2.symm.trans hskip) nofun
      | some pprev =>
        obtain ⟨parent, _, hheight, hbuilt⟩ := hprev _ hpprev
        have hdown := getSkipHeight_lt (show 0 < entry.nHeight by omega)
        have hsteps : entry.nHeight - getSkipHeight entry.nHeight =
            parent.nHeight - getSkipHeight entry.nHeight + 1 := by omega
        rw [hsteps, followPrev_succ hentry hpprev]
        exact followPrev_append entry (hbuilt pskip hskip)

/-- `BuildSkip` finds the ancestor at the skip height. -/
theorem Linked.buildSkip_eq (hlinked : Linked tree) {pprev : ℕ} {parent : SkipEntry}
    (hparent : tree[pprev]? = some parent) :
    ∃ pskip, buildSkip tree pprev (parent.nHeight + 1) = .ok (some pskip) ∧
      followPrev tree (parent.nHeight - getSkipHeight (parent.nHeight + 1)) pprev = some pskip := by
  have hdown := getSkipHeight_lt (show 0 < parent.nHeight + 1 by omega)
  obtain ⟨pskip, _, hfollow, _⟩ :=
    hlinked.exists_followPrev hparent (Nat.sub_le parent.nHeight (getSkipHeight _))
  exact ⟨pskip, hlinked.getAncestor_eq hparent (by omega) hfollow, hfollow⟩

theorem Linked.addToBlockIndex {tree next : BlockTree} (hlinked : Linked tree) {pprev : Option ℕ}
    (hadded : addToBlockIndex tree pprev = .ok next) : Linked next := by
  cases pprev with
  | none =>
    obtain rfl := Except.ok.inj hadded
    exact hlinked.add (fun _ => ⟨rfl, rfl⟩) nofun
  | some pprev =>
    rw [BlockTree.addToBlockIndex] at hadded
    split at hadded
    · exact absurd hadded nofun
    · next parent hparent =>
      obtain ⟨pskip, hskip, hfollow⟩ := hlinked.buildSkip_eq hparent
      rw [hskip] at hadded
      obtain rfl := Except.ok.inj hadded
      refine hlinked.add nofun ?_
      rintro _ ⟨⟩
      refine ⟨parent, hparent, rfl, ?_⟩
      rintro _ ⟨⟩
      exact hfollow

theorem Built.linked (hbuilt : Built tree) : Linked tree := by
  induction hbuilt with
  | empty =>
    constructor
    all_goals
      intros
      simp_all
  | add pprev _ hadded ih => exact ih.addToBlockIndex hadded

/-- The lookup ends at the entry that the walk through `pprev` reaches at the height, and
with the null pointer when there is no such height. -/
theorem getAncestor_correct (hbuilt : Built tree) (hentry : tree[pindex]? = some entry)
    (height : ℤ) :
    (0 ≤ height ∧ height ≤ entry.nHeight →
      ∃ ancestor found, followPrev tree (entry.nHeight - height.toNat) pindex = some ancestor ∧
        tree[ancestor]? = some found ∧ found.nHeight = height ∧
          getAncestor tree pindex height = .ok (some ancestor)) ∧
    (¬ (0 ≤ height ∧ height ≤ entry.nHeight) → getAncestor tree pindex height = .ok none) := by
  constructor
  · rintro ⟨hnonneg, hle⟩
    obtain ⟨target, rfl⟩ := Int.eq_ofNat_of_zero_le hnonneg
    rw [Int.toNat_natCast]
    obtain ⟨ancestor, found, hfollow, hfound, hsum⟩ :=
      hbuilt.linked.exists_followPrev hentry (Nat.sub_le entry.nHeight target)
    exact ⟨ancestor, found, hfollow, hfound, by omega,
      hbuilt.linked.getAncestor_eq hentry (by omega) hfollow⟩
  · intro houtside
    rw [getAncestor, hentry]
    dsimp only
    rw [if_pos (by omega)]

theorem Built.extend (hbuilt : Built tree) (pprev : ℕ) {parent : SkipEntry} {pskip : ℕ}
    (hparent : tree[pprev]? = some parent)
    (hfollow : followPrev tree (parent.nHeight - getSkipHeight (parent.nHeight + 1)) pprev =
      some pskip) :
    Built (tree ++ [⟨parent.nHeight + 1, some pprev, some pskip⟩]) := by
  obtain ⟨found, hskip, hfound⟩ := hbuilt.linked.buildSkip_eq hparent
  obtain rfl := Option.some.inj (hfound.symm.trans hfollow)
  refine .add (some pprev) hbuilt ?_
  rw [addToBlockIndex, hparent]
  dsimp only
  rw [hskip]
  rfl

/-- A chain up to height six, and a second child of its block at height three. -/
def forked : BlockTree :=
  [⟨0, none, none⟩, ⟨1, some 0, some 0⟩, ⟨2, some 1, some 0⟩, ⟨3, some 2, some 1⟩,
    ⟨4, some 3, some 0⟩, ⟨5, some 4, some 1⟩, ⟨6, some 5, some 4⟩, ⟨4, some 3, some 0⟩]

theorem built_forked : Built forked :=
  have hroot : Built [⟨0, none, none⟩] := .add none .empty rfl
  have hthird := ((hroot.extend 0 rfl rfl).extend 1 rfl rfl).extend 2 rfl rfl
  (((hthird.extend 3 rfl rfl).extend 4 rfl rfl).extend 5 rfl rfl).extend 3 rfl rfl

/-- From height six to height one the walk does not take the first skip pointer, since that
of the parent leads further. -/
theorem getAncestor_correct_forked :
    Built forked ∧ takesSkip 6 1 = false ∧ getAncestor forked 6 1 = .ok (some 1) ∧
      getAncestor forked 7 2 = .ok (some 2) ∧ getAncestor forked 6 7 = .ok none := by
  have hentry : forked[6]? = some ⟨6, some 5, some 4⟩ := rfl
  have hother : forked[7]? = some ⟨4, some 3, some 0⟩ := rfl
  obtain ⟨hinside, -⟩ := getAncestor_correct built_forked hentry 1
  obtain ⟨hbranch, -⟩ := getAncestor_correct built_forked hother 2
  obtain ⟨-, houtside⟩ := getAncestor_correct built_forked hentry 7
  obtain ⟨first, _, hfirst, _, _, hone⟩ := hinside (by decide)
  obtain ⟨second, _, hsecond, _, _, htwo⟩ := hbranch (by decide)
  exact ⟨built_forked, by decide, by rw [hone, ← Option.some.inj hfirst],
    by rw [htwo, ← Option.some.inj hsecond], houtside (by decide)⟩

/-- The entries reached from a pointer through `pprev`, newest first. -/
inductive Reaches (tree : BlockTree) (index : ℕ → CBlockIndex) : ℕ → IndexChain → Prop
  | root {pindex : ℕ} {entry : SkipEntry} (hentry : tree[pindex]? = some entry)
      (hprev : entry.pprev = none) : Reaches tree index pindex [index pindex]
  | step {pindex pprev : ℕ} {entry : SkipEntry} {rest : IndexChain}
      (hentry : tree[pindex]? = some entry) (hprev : entry.pprev = some pprev)
      (hrest : Reaches tree index pprev rest) : Reaches tree index pindex (index pindex :: rest)

theorem Reaches.exists_cons {index : ℕ → CBlockIndex} {pointed : IndexChain}
    (hreaches : Reaches tree index pindex pointed) : ∃ rest, pointed = index pindex :: rest := by
  cases hreaches <;> exact ⟨_, rfl⟩

theorem Reaches.followPrev (hlinked : Linked tree) {index : ℕ → CBlockIndex}
    (hheights : ∀ {pindex : ℕ} {entry : SkipEntry}, tree[pindex]? = some entry →
      (index pindex).nHeight = entry.nHeight) {pindex ancestor steps : ℕ} {pointed : IndexChain}
    (hreaches : Reaches tree index pindex pointed) (hentry : tree[pindex]? = some entry)
    (hsteps : steps ≤ entry.nHeight) (hfollow : followPrev tree steps pindex = some ancestor) :
    Reaches tree index ancestor (pointed.getAncestor (entry.nHeight - steps : ℕ)) := by
  induction steps generalizing pindex entry pointed with
  | zero =>
    obtain rfl := Option.some.inj hfollow
    obtain ⟨rest, rfl⟩ := hreaches.exists_cons
    rwa [IndexChain.getAncestor, List.dropWhile_cons_of_neg (by simp [hheights hentry])]
  | succ steps ih =>
    have hhere := hheights hentry
    cases hreaches with
    | root hfound hprev =>
      have hzero := hlinked.root hfound hprev
      obtain rfl := Option.some.inj (hentry.symm.trans hfound)
      omega
    | step hfound hprev hrest =>
      obtain rfl := Option.some.inj (hentry.symm.trans hfound)
      obtain ⟨parent, hparent, hnext⟩ := hlinked.prev hfound hprev
      rw [followPrev_succ hfound hprev] at hfollow
      have htail := ih hrest hparent (by omega) hfollow
      rw [IndexChain.getAncestor, List.dropWhile_cons_of_pos (by
        rw [hhere, bne_iff_ne]
        omega)]
      have hsame : entry.nHeight - (steps + 1) = parent.nHeight - steps := by omega
      rw [hsame]
      exact htail

/-- The lookup on lists of ancestors, which the rest of the development uses, is the lookup
through the pointers. -/
theorem Reaches.exists_getAncestor (hbuilt : Built tree) {index : ℕ → CBlockIndex}
    (hheights : ∀ {pindex : ℕ} {entry : SkipEntry}, tree[pindex]? = some entry →
      (index pindex).nHeight = entry.nHeight) {pindex height : ℕ} {pointed : IndexChain}
    (hreaches : Reaches tree index pindex pointed) (hentry : tree[pindex]? = some entry)
    (hheight : height ≤ entry.nHeight) :
    ∃ ancestor, BlockTree.getAncestor tree pindex height = .ok (some ancestor) ∧
      Reaches tree index ancestor (pointed.getAncestor height) := by
  obtain ⟨ancestor, found, hfollow, _, hsum⟩ :=
    hbuilt.linked.exists_followPrev hentry (Nat.sub_le entry.nHeight height)
  refine ⟨ancestor, hbuilt.linked.getAncestor_eq hentry hheight hfollow, ?_⟩
  have hreached := hreaches.followPrev hbuilt.linked hheights hentry (Nat.sub_le _ _) hfollow
  rwa [Nat.sub_sub_self hheight] at hreached

theorem exists_getAncestor_forked :
    let index (pindex : ℕ) : CBlockIndex :=
      ⟨0, 0, 0, 0, 0, 0, 0, if pindex = 7 then 4 else pindex, 0⟩
    takesSkip 6 1 = false ∧ ∃ ancestor, getAncestor forked 6 1 = .ok (some ancestor) ∧
      Reaches forked index ancestor [index 1, index 0] := by
  intro index
  have hroot : Reaches forked index 1 [index 1, index 0] := .step rfl rfl (.root rfl rfl)
  refine ⟨by decide, @Reaches.exists_getAncestor _ _ built_forked index ?_ 6 1 _
    (.step rfl rfl (.step rfl rfl (.step rfl rfl (.step rfl rfl (.step rfl rfl hroot))))) rfl
    (by decide)⟩
  intro pindex entry hentry
  have hall : ∀ pindex < 8, ∀ entry ∈ forked[pindex]?, (index pindex).nHeight = entry.nHeight := by
    decide
  exact hall pindex (List.getElem?_eq_some_iff.mp hentry).1 entry hentry

end BlockTree

end FirstIslamicCoin
