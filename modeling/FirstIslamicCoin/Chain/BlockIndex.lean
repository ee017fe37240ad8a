import FirstIslamicCoin.Consensus.Params

/-!
# The block index

Entries of the block index as `chain.h` declares them.  A `CBlockIndex*` is
modelled by the list of entries reached from it through `pprev`, the entry it
points to first; the null pointer is the empty list.  Fields that change after
an entry is created (validity, stored data, the stake modifier) are kept by
whoever changes them, so an entry here never changes.
-/

namespace FirstIslamicCoin

structure CBlockIndex where
  hashBlock : UInt256
  nVersion : Int32
  hashMerkleRoot : UInt256
  nTime : UInt32
  nBits : UInt32
  nNonce : UInt32
  nFlags : UInt32
  nHeight : ℤ
  nChainWork : UInt256
  deriving DecidableEq, Repr

/-- `CBlockIndex*`: the entry pointed to and its ancestors, newest first. -/
abbrev IndexChain := List CBlockIndex

def blockProofOfStake : UInt32 := 1

namespace CBlockIndex

def isProofOfStake (index : CBlockIndex) : Bool :=
  index.nFlags &&& blockProofOfStake != 0

def getBlockTime (index : CBlockIndex) : ℤ := index.nTime.toNat

end CBlockIndex

namespace IndexChain

/-- `pindex->nHeight`, with `-1` for the null pointer as in
`CChain::Height`. -/
def height (pindex : IndexChain) : ℤ :=
  match pindex with
  | [] => -1
  | index :: _ => index.nHeight

/-- `GetAncestor`.  The skip list only shortens the walk through `pprev`. -/
def getAncestor (pindex : IndexChain) (nHeight : ℤ) : IndexChain :=
  pindex.dropWhile fun index => index.nHeight != nHeight

/-- `GetLastBlockIndex`: walk back to a block of the wanted kind, stopping at
genesis. -/
def getLastBlockIndex (fProofOfStake : Bool) : IndexChain → IndexChain
  | [] => []
  | [genesis] => [genesis]
  | index :: parent :: rest =>
      if index.isProofOfStake = fProofOfStake then index :: parent :: rest
      else getLastBlockIndex fProofOfStake (parent :: rest)

/-- The loop of `CChain::FindFork`; `Contains` looks at the active chain's entry of the same
height. -/
def walkToContained (chain : IndexChain) : IndexChain → IndexChain
  | [] => []
  | index :: pprev =>
      if chain.getAncestor index.nHeight = index :: pprev then index :: pprev
      else chain.walkToContained pprev

/-- `CChain::FindFork`, for the active chain given by its tip. -/
def findFork (chain pindex : IndexChain) : IndexChain :=
  chain.walkToContained
    (if chain.height < pindex.height then pindex.getAncestor chain.height else pindex)

def insertSorted (time : ℤ) : List ℤ → List ℤ
  | [] => [time]
  | other :: rest =>
      if time ≤ other then time :: other :: rest
      else other :: insertSorted time rest

def median (times : List ℤ) : ℤ :=
  let sorted := times.foldr insertSorted []
  (sorted[sorted.length / 2]?).getD 0

/-- `GetMedianTimePast`: the block's own time since protocol version 2, and
the median of eleven before. -/
def getMedianTimePast (params : Params) (pindex : IndexChain) : ℤ :=
  match pindex with
  | [] => 0
  | index :: rest =>
      if params.isProtocolV2 index.getBlockTime then index.getBlockTime
      else median (((index :: rest).take 11).map CBlockIndex.getBlockTime)

def Numbered : IndexChain → Prop
  | [] => True
  | index :: pprev => index.nHeight = height pprev + 1 ∧ Numbered pprev

/-- What the block index promises about the entries it links: they are numbered,
and the genesis block is the entry without a parent. -/
structure Rooted (params : Params) (pindex : IndexChain) : Prop where
  numbered : pindex.Numbered
  genesis_iff : ∀ index pprev, index :: pprev <:+ pindex →
    (index.hashBlock = params.hashGenesisBlock ↔ pprev = [])

theorem Rooted.hashBlock_ne {params : Params} {index : CBlockIndex}
    {pprev : IndexChain} (hrooted : Rooted params (index :: pprev)) (hheight : 0 < index.nHeight) :
    index.hashBlock ≠ params.hashGenesisBlock := by
  intro heq
  have hnext := hrooted.numbered.1
  rw [(hrooted.genesis_iff index pprev (List.suffix_refl _)).mp heq] at hnext
  simp only [height] at hnext
  omega

theorem Numbered.of_suffix {pindex ancestor : IndexChain} (hnumbered : Numbered pindex)
    (hsuffix : ancestor <:+ pindex) : Numbered ancestor := by
  induction pindex with
  | nil =>
    rw [List.suffix_nil.mp hsuffix]
    trivial
  | cons index pprev ih =>
    rcases List.suffix_cons_iff.mp hsuffix with rfl | hbefore
    · exact hnumbered
    · exact ih hnumbered.2 hbefore

theorem Numbered.height_eq {pindex : IndexChain} (hnumbered : Numbered pindex) :
    pindex.height = pindex.length - 1 := by
  induction pindex with
  | nil => rfl
  | cons index pprev ih =>
    rw [height, hnumbered.1, ih hnumbered.2, List.length_cons]
    omega

/-- An ancestor is not higher. -/
theorem Numbered.height_le_of_suffix {pindex ancestor : IndexChain} (hnumbered : Numbered pindex)
    (hsuffix : ancestor <:+ pindex) : ancestor.height ≤ pindex.height := by
  have hlength := hsuffix.length_le
  rw [hnumbered.height_eq, (hnumbered.of_suffix hsuffix).height_eq]
  omega

/-- The ancestor at a height has this height. -/
theorem getAncestor_eq_cons {pindex rest : IndexChain} {nHeight : ℤ} {index : CBlockIndex}
    (hancestor : pindex.getAncestor nHeight = index :: rest) :
    index.nHeight = nHeight ∧ index :: rest <:+ pindex := by
  refine ⟨?_, hancestor ▸ List.dropWhile_suffix _⟩
  induction pindex with
  | nil => simp [getAncestor] at hancestor
  | cons entry pprev ih =>
    rw [getAncestor, List.dropWhile_cons] at hancestor
    split_ifs at hancestor with hother
    · exact ih hancestor
    · obtain ⟨rfl, -⟩ := List.cons.inj hancestor
      simpa using hother

/-- What a chain has at a height, every chain above it has there too. -/
theorem Numbered.getAncestor_of_suffix {pindex ancestor rest : IndexChain} {nHeight : ℤ}
    {index : CBlockIndex} (hnumbered : Numbered pindex) (hsuffix : ancestor <:+ pindex)
    (hancestor : ancestor.getAncestor nHeight = index :: rest) :
    pindex.getAncestor nHeight = index :: rest := by
  induction pindex with
  | nil => rwa [← List.suffix_nil.mp hsuffix]
  | cons entry pprev ih =>
    rcases List.suffix_cons_iff.mp hsuffix with rfl | hbefore
    · exact hancestor
    · obtain ⟨hheight, hreached⟩ := getAncestor_eq_cons hancestor
      have hle : nHeight ≤ height pprev := by
        rw [← hheight]
        exact hnumbered.2.height_le_of_suffix (hreached.trans hbefore)
      have hother : (entry.nHeight != nHeight) = true := by
        rw [bne_iff_ne, hnumbered.1]
        omega
      rw [getAncestor, List.dropWhile_cons, if_pos hother]
      exact ih hnumbered.2 hbefore

section Fork

variable {pindex other common : IndexChain}

theorem Numbered.length_getAncestor (hnumbered : Numbered pindex) {nHeight : ℤ}
    (hlow : -1 ≤ nHeight) (hhigh : nHeight ≤ pindex.height) :
    (pindex.getAncestor nHeight).length = nHeight + 1 := by
  induction pindex with
  | nil =>
    obtain rfl := le_antisymm hhigh hlow
    rfl
  | cons entry pprev ih =>
    have hnext := hnumbered.1
    have hlength := hnumbered.height_eq
    rw [height] at hhigh hlength
    rw [getAncestor, List.dropWhile_cons]
    split_ifs with hother <;> rw [bne_iff_ne] at hother
    · exact ih hnumbered.2 (by omega)
    · omega

/-- Going down to the height of another block passes no common ancestor. -/
theorem Numbered.levelled (hnumbered : Numbered pindex) (hother : Numbered other)
    {level : IndexChain} (hlevel : (if other.height < pindex.height then
      pindex.getAncestor other.height else pindex) = level) :
    level.length = min pindex.length other.length ∧ level <:+ pindex ∧
      ∀ common : IndexChain, common <:+ pindex → common <:+ other → common <:+ level := by
  have hheight := hnumbered.height_eq
  have hotherHeight := hother.height_eq
  have hbelow : level.length = min pindex.length other.length ∧ level <:+ pindex := by
    subst hlevel
    split_ifs with hlower
    · have hlength := hnumbered.length_getAncestor (by omega) hlower.le
      exact ⟨by omega, List.dropWhile_suffix _⟩
    · exact ⟨by omega, List.suffix_rfl⟩
  refine ⟨hbelow.1, hbelow.2, fun common hleft hright => ?_⟩
  refine List.suffix_of_suffix_length_le hleft hbelow.2 ?_
  exact hbelow.1 ▸ le_min hleft.length_le hright.length_le

theorem Numbered.suffix_findFork_iff (hnumbered : Numbered pindex) (hother : Numbered other) :
    common <:+ other.findFork pindex ↔ common <:+ other ∧ common <:+ pindex := by
  obtain ⟨_, hbelow, hkept⟩ := hnumbered.levelled hother rfl
  have hwalk (start : IndexChain) :
      common <:+ other.walkToContained start ↔ common <:+ other ∧ common <:+ start := by
    induction start with
    | nil => simp +contextual [walkToContained]
    | cons index pprev ih =>
      rw [walkToContained]
      split_ifs with hcontained
      · have hreached : index :: pprev <:+ other := hcontained ▸ List.dropWhile_suffix _
        exact ⟨fun hcommon => ⟨hcommon.trans hreached, hcommon⟩, And.right⟩
      · rw [ih, List.suffix_cons_iff]
        refine and_congr_right fun hsuffix => ⟨.inr, fun hcommon => hcommon.resolve_left ?_⟩
        rintro rfl
        refine hcontained (hother.getAncestor_of_suffix hsuffix ?_)
        rw [getAncestor, List.dropWhile_cons, if_neg (by simp)]
  rw [findFork, hwalk]
  exact and_congr_right fun hsuffix =>
    ⟨fun hcommon => hcommon.trans hbelow, fun hcommon => hkept common hcommon hsuffix⟩

end Fork

end IndexChain

end FirstIslamicCoin
