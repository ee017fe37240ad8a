import Mathlib

/-!
# The range of a reorganisation

`BlockProcessor.calc_reorg_range` looks for the height at which the indexed chain and the
node's chain part.  It compares windows of block hashes that double in size on the way down
and stops in the first window whose lowest hash agrees.  A window that would reach block 0 is
not compared any more: the search then answers with block 0, whatever the fork point is.
-/

namespace FirstIslamicCoin.Electrum

variable {Hash : Type} [DecidableEq Hash]

/-- `diff_pos`: the first difference, or the length if there is none. -/
def diffPos : List Hash → List Hash → ℕ
  | [], _ => 0
  | hashes, [] => hashes.length
  | hash1 :: hashes1, hash2 :: hashes2 => if hash1 ≠ hash2 then 0 else diffPos hashes1 hashes2 + 1

/-- `fs_block_hashes_rev` and `block_hex_hashes`: the hashes of `count` blocks. -/
def blockHashes (blocks : ℕ → Hash) (start count : ℤ) : List Hash :=
  (List.range' start.toNat count.toNat).map blocks

/-- The loop of `calc_reorg_range`; nothing when the fuel does not suffice. -/
def reorgLoop (indexed daemon : ℕ → Hash) : ℕ → ℤ → ℤ → Option ℤ
  | 0, _, _ => none
  | fuel + 1, start, count =>
      if start > 0 then
        let n := diffPos (blockHashes indexed start count) (blockHashes daemon start count)
        if n > 0 then some (start + n)
        else reorgLoop indexed daemon fuel (start - min (count * 2) start) (min (count * 2) start)
      else some start

/-- `calc_reorg_range`: the first height to undo and the number of blocks. -/
def calcReorgRange (indexed daemon : ℕ → Hash) (height : ℤ) : Option ℤ → Option (ℤ × ℤ)
  | none => do
      let start ← reorgLoop indexed daemon (height.toNat + 1) (height - 1) 1
      return (start, height - start + 1)
  | some count => some (height - count + 1, count)

/-- The chains agree below the fork and differ from there on. -/
structure Forks (indexed daemon : ℕ → Hash) (height fork : ℕ) : Prop where
  above_genesis : 1 ≤ fork
  le_height : fork ≤ height
  agree : ∀ block < fork, indexed block = daemon block
  differ : ∀ block, fork ≤ block → block ≤ height → indexed block ≠ daemon block

section Search

variable {indexed daemon : ℕ → Hash} {height fork : ℕ}

section

variable (hforks : Forks indexed daemon height fork)

include hforks

/-- The first difference in a window that the fork lies in, or just above. -/
theorem Forks.diffPos_window {start count : ℕ} (hlow : start ≤ fork)
    (hhigh : fork ≤ start + count) :
    diffPos (blockHashes indexed start count) (blockHashes daemon start count) = fork - start := by
  simp only [blockHashes, Int.toNat_natCast]
  induction count generalizing start with
  | zero =>
    rw [List.range'_zero, List.map_nil, diffPos]
    omega
  | succ count ih =>
    rw [List.range'_succ, List.map_cons, List.map_cons, diffPos]
    rcases Nat.eq_or_lt_of_le hlow with rfl | hbelow
    · rw [if_pos (hforks.differ start le_rfl hforks.le_height), Nat.sub_self]
    · rw [if_neg (not_not.mpr (hforks.agree start hbelow)), ih (by omega) (by omega)]
      omega

theorem Forks.diffPos_above {start count : ℕ} (hlow : fork ≤ start) (hhigh : start ≤ height)
    (hcount : 0 < count) :
    diffPos (blockHashes indexed start count) (blockHashes daemon start count) = 0 := by
  obtain ⟨rest, rfl⟩ : ∃ rest, count = rest + 1 := ⟨count - 1, by omega⟩
  simp only [blockHashes, Int.toNat_natCast]
  rw [List.range'_succ, List.map_cons, List.map_cons, diffPos,
    if_pos (hforks.differ start hlow hhigh)]

theorem Forks.reorgLoop_eq {level start fuel : ℕ} (hstart : start + 2 ^ (level + 1) = height + 1)
    (hpos : 0 < start) (habove : fork ≤ start + 2 ^ level) (hfuel : start < fuel) :
    reorgLoop indexed daemon fuel start (2 ^ level : ℕ) =
      some (if height + 1 < fork + 2 ^ Nat.log 2 height then (fork : ℤ) else 0) := by
  induction fuel generalizing level start with
  | zero => omega
  | succ fuel ih =>
    have hlevel := Nat.two_pow_pos level
    have hdouble : 2 ^ (level + 1) = 2 ^ level * 2 := pow_succ 2 level
    have hlog : 2 ^ (level + 1) ≤ 2 ^ Nat.log 2 height :=
      Nat.pow_le_pow_right (by decide) (Nat.le_log_of_pow_le (by decide) (by omega))
    rw [reorgLoop, if_pos (by omega)]
    dsimp only
    rcases Nat.lt_or_ge start fork with hinside | hbelow
    · rw [hforks.diffPos_window hinside.le habove, if_pos (by omega), if_pos (by omega)]
      congr 1
      omega
    · -- the whole window differs
      rw [hforks.diffPos_above hbelow (by omega) hlevel, if_neg (by omega)]
      rcases Nat.lt_or_ge (2 ^ level * 2) start with hroom | hclipped
      · have hnext : start - 2 ^ (level + 1) + 2 ^ (level + 1 + 1) = height + 1 := by
          rw [pow_succ 2 (level + 1)]
          omega
        have hwindow := ih hnext (by omega) (by omega) (by omega)
        rw [← hwindow]
        congr 1 <;> omega
      · -- the next window would reach block 0
        have htop : Nat.log 2 height = level + 1 := by
          refine Nat.log_eq_of_pow_le_of_lt_pow (by omega) ?_
          rw [pow_succ 2 (level + 1)]
          omega
        have hclip : min (((2 ^ level : ℕ) : ℤ) * 2) (start : ℤ) = start := by omega
        obtain ⟨more, rfl⟩ : ∃ more, fuel = more + 1 := ⟨fuel - 1, by omega⟩
        rw [hclip, sub_self, reorgLoop, if_neg (by decide), htop, if_neg (by omega)]

theorem Forks.calcReorgRange_eq :
    calcReorgRange indexed daemon height none =
      some (if height + 1 < fork + 2 ^ Nat.log 2 height then ((fork : ℤ), (height : ℤ) - fork + 1)
        else (0, (height : ℤ) + 1)) := by
  have hpositive := hforks.above_genesis
  have hle := hforks.le_height
  have hstart : reorgLoop indexed daemon (height + 1) ((height : ℤ) - 1) 1 =
      some (if height + 1 < fork + 2 ^ Nat.log 2 height then (fork : ℤ) else 0) := by
    rcases Nat.eq_or_lt_of_le (hpositive.trans hle) with hone | hmore
    · -- a chain of one block above block 0 is not searched at all
      obtain rfl : height = 1 := hone.symm
      rw [reorgLoop, if_neg (by decide), Nat.log_one_right, if_neg (by omega)]
      rfl
    · have hwindow : height - 1 + 2 ^ (0 + 1) = height + 1 := by omega
      have hfuel : height - 1 < height + 1 := by omega
      have hfirst := hforks.reorgLoop_eq hwindow (by omega) (by omega) hfuel
      rw [← hfirst]
      congr 1
      omega
  rw [calcReorgRange, Int.toNat_natCast, hstart]
  dsimp only [bind, Option.bind]
  split_ifs
  · rfl
  · rw [sub_zero]
    rfl

/-- The fork point is found exactly when fewer blocks are replaced than the largest power of
two that is not above the height of the indexed chain. -/
theorem calcReorgRange_iff :
    calcReorgRange indexed daemon height none = some ((fork : ℤ), (height : ℤ) - fork + 1) ↔
      height - fork + 1 < 2 ^ Nat.log 2 height := by
  have hpositive := hforks.above_genesis
  have hle := hforks.le_height
  rw [hforks.calcReorgRange_eq, Option.some.injEq]
  split_ifs with hfew
  · exact ⟨fun _ => by omega, fun _ => rfl⟩
  · constructor
    · intro heq
      have hzero : (0 : ℤ) = fork := congrArg Prod.fst heq
      omega
    · intro hcount
      omega

end

end Search

def branch (fork block : ℕ) : ℕ := if block < fork then block else block + 1000

theorem forks_branch {height fork : ℕ} (hpositive : 1 ≤ fork) (hle : fork ≤ height) :
    Forks id (branch fork) height fork := by
  refine ⟨hpositive, hle, ?_, ?_⟩
  · intro block hbelow
    rw [branch, if_pos hbelow, id]
  · intro block hfrom _
    rw [branch, if_neg (by omega), id]
    omega

theorem calcReorgRange_iff_branch : Forks id (branch 4) 5 4 ∧
    calcReorgRange id (branch 4) 5 none = some (4, 2) := by
  have hforks : Forks id (branch 4) 5 4 := forks_branch (by decide) (by decide)
  exact ⟨hforks, (calcReorgRange_iff hforks).mpr (by decide)⟩

/-- One block above block 0 is replaced, and the search answers with block 0. -/
theorem calcReorgRange_branch_one : Forks id (branch 1) 1 1 ∧
    calcReorgRange id (branch 1) 1 none = some (0, 2) :=
  ⟨forks_branch (by decide) (by decide), by decide⟩

end FirstIslamicCoin.Electrum
