import FirstIslamicCoin.Core.Noninterference
import FirstIslamicCoin.Validation.CheckBlock

/-!
# The header spam filter

`net_processing.cpp` counts the headers it receives in one record for each
service address and punishes the sender once a record is too full.  The address
is not the sender's: it is the address at which the sender claims to reach this
node, taken from its version message.  A peer is judged by its own headers alone
exactly when no other peer names the same address, and none that may be
discouraged is connected from it.
-/

namespace FirstIslamicCoin

open ByteCodec Noninterference

section Address

/-- `Network`. -/
inductive NetworkKind where
  | unroutable
  | ipv4
  | ipv6
  | onion
  | i2p
  | cjdns
  | internal
  deriving DecidableEq, Repr

/-- `CNetAddr`, without the scope, which no comparison reads. -/
structure CNetAddr where
  net : NetworkKind
  addr : Bytes
  deriving DecidableEq, Repr

structure CService extends CNetAddr where
  port : UInt16
  deriving DecidableEq, Repr

namespace CNetAddr

def isLocal (address : CNetAddr) : Bool :=
  (address.net == .ipv4 && (address.addr[0]? == some 127 || address.addr[0]? == some 0)) ||
    (address.net == .ipv6 && address.addr == List.replicate 15 0 ++ [1])

def isValid (address : CNetAddr) : Bool :=
  !(address.net == .ipv6 && address.addr == List.replicate 16 0) &&
    !(address.net == .cjdns && address.addr[0]? != some 0xfc) &&
    !(address.net == .ipv6 && address.addr.take 4 == [0x20, 0x01, 0x0d, 0xb8]) &&
    !(address.net == .internal) &&
    !(address.net == .ipv4 &&
      (address.addr == List.replicate 4 0 || address.addr == List.replicate 4 0xff))

/-- `CSubNet(subnet).Match(address)`: the subnet of a single address. -/
def subNetMatch (subnet address : CNetAddr) : Bool :=
  subnet.net != .internal && subnet.net != .unroutable && address.isValid && subnet == address

end CNetAddr

end Address

section Filter

/-- The `-headerspamfilter` options. -/
structure HeaderSpamArgs where
  headerSpamFilter : Bool := true
  maxSize : ℕ := 500
  maxAvg : ℕ := 10
  ignorePort : Bool := true
  duringIbd : Bool := false
  deriving DecidableEq, Repr

/-- One more occurrence of a height in a map from heights to occurrences, kept
as a list in ascending order. -/
def bump (height : ℤ) : List (ℤ × ℕ) → List (ℤ × ℕ)
  | [] => [(height, 1)]
  | (other, occurrence) :: points =>
      if height < other then (height, 1) :: (other, occurrence) :: points
      else if height = other then (other, occurrence + 1) :: points
      else (other, occurrence) :: bump height points

theorem mem_bump {height : ℤ} {points : List (ℤ × ℕ)} {point : ℤ × ℕ}
    (hmem : point ∈ bump height points) :
    point.1 = height ∨ ∃ other ∈ points, other.1 = point.1 := by
  induction points with
  | nil =>
    obtain rfl := List.mem_singleton.mp hmem
    exact .inl rfl
  | cons first points ih =>
    rw [bump] at hmem
    split_ifs at hmem with hbefore hsame
    · rcases List.mem_cons.mp hmem with rfl | hmem
      · exact .inl rfl
      · exact .inr ⟨point, hmem, rfl⟩
    · rcases List.mem_cons.mp hmem with rfl | hmem
      · exact .inl hsame.symm
      · exact .inr ⟨point, List.mem_cons_of_mem _ hmem, rfl⟩
    · rcases List.mem_cons.mp hmem with rfl | hmem
      · exact .inr ⟨first, List.mem_cons_self, rfl⟩
      · rcases ih hmem with hheight | ⟨other, hother, heq⟩
        · exact .inl hheight
        · exact .inr ⟨other, List.mem_cons_of_mem _ hother, heq⟩

theorem sorted_bump (height : ℤ) {points : List (ℤ × ℕ)}
    (hsorted : points.Pairwise fun left right => left.1 < right.1) :
    (bump height points).Pairwise fun left right => left.1 < right.1 := by
  induction points with
  | nil => exact List.pairwise_singleton _ _
  | cons first points ih =>
    obtain ⟨hfirst, hrest⟩ := List.pairwise_cons.mp hsorted
    rw [bump]
    split_ifs with hbefore hsame
    · refine List.pairwise_cons.mpr ⟨fun point hmem => ?_, hsorted⟩
      rcases List.mem_cons.mp hmem with rfl | hmem
      · exact hbefore
      · exact hbefore.trans (hfirst point hmem)
    · exact List.pairwise_cons.mpr ⟨hfirst, hrest⟩
    · refine List.pairwise_cons.mpr ⟨fun point hmem => ?_, ih hrest⟩
      rcases mem_bump hmem with hheight | ⟨other, hother, heq⟩
      · change first.1 < point.1
        omega
      · exact heq ▸ hfirst other hother

/-- `CNodeHeaders`: how often each height was received, in ascending order. -/
structure CNodeHeaders where
  points : List (ℤ × ℕ)
  sorted : points.Pairwise fun left right => left.1 < right.1

namespace CNodeHeaders

@[ext]
theorem ext {left right : CNodeHeaders} (hpoints : left.points = right.points) :
    left = right := by
  cases left
  cases right
  congr

def empty : CNodeHeaders := ⟨[], .nil⟩

variable (args : HeaderSpamArgs)

/-- `addPoint`: a full record first loses its lowest height. -/
def addPoint (headers : CNodeHeaders) (height : ℤ) : CNodeHeaders :=
  let kept := if headers.points.length = args.maxSize then headers.points.tail
    else headers.points
  ⟨bump height kept, sorted_bump height (by
    dsimp only [kept]
    split_ifs
    · exact headers.sorted.tail
    · exact headers.sorted)⟩

/-- `addHeaders`, from the heights of the first and the last new header. -/
def addHeaders (headers : CNodeHeaders) (first last : Option ℤ) : CNodeHeaders :=
  match first, last with
  | some nBegin, some nEnd =>
      if args.maxSize ≠ 0 ∧ args.maxAvg ≠ 0 then
        ((List.range (nEnd + 1 - nBegin).toNat).map fun offset : ℕ =>
          nBegin + (offset : ℤ)).foldl (addPoint args) headers
      else headers
  | _, _ => headers

/-- The test for spam, with the floating-point comparisons multiplied out. -/
def banNode (size nHeaders : ℕ) : Bool :=
  (decide (3 * args.maxAvg * size ≤ 2 * nHeaders) && decide (args.maxAvg ≤ size)) ||
    (decide (args.maxAvg * size ≤ nHeaders) && decide (args.maxSize ≤ nHeaders)) ||
    decide (41 * args.maxSize ≤ 10 * nHeaders)

/-- `updateState`: the record and the result after the test. -/
def updateState (headers : CNodeHeaders) (ret : Except BlockFailure Unit) :
    CNodeHeaders × Except BlockFailure Unit :=
  let size := headers.points.length
  let nHeaders := (headers.points.map Prod.snd).sum
  if size = 0 then (headers, ret)
  else if banNode args size nHeaders then
    (empty, .error (.invalid .blockHeaderSpam "header-spam"))
  else (headers, ret)

end CNodeHeaders

end Filter

section Peers

/-- What the filter and the punishment read of a connection. -/
structure CNode where
  addr : CService
  /-- The address of this node as the peer's version message gives it. -/
  addrLocal : CService
  isInbound : Bool
  noBan : Bool
  isManual : Bool
  deriving DecidableEq, Repr

/-- What `ProcessNewBlockHeaders` answers to a headers message. -/
structure NewHeaders where
  ret : Except BlockFailure Unit
  /-- The heights of the first and the last header accepted. -/
  first : Option ℤ
  last : Option ℤ

/-- `m_service_headers`; a record that is not there is made empty when it is
looked up. -/
abbrev ServiceRecords := CService → CNodeHeaders

variable (args : HeaderSpamArgs)

/-- The key under which `ServiceHeaders` looks a record up. -/
def serviceKey (address : CService) : CService :=
  { address with port := if args.ignorePort then 0 else address.port }

/-- `ProcessNetBlockHeaders`, given what block validation answered. -/
def processNetBlockHeaders (records : ServiceRecords) (pfrom : CNode) (answer : NewHeaders)
    (isInitialBlockDownload : Bool) : ServiceRecords × Except BlockFailure Unit :=
  if args.headerSpamFilter ∧ (!isInitialBlockDownload || args.duringIbd) then
    let key := serviceKey args pfrom.addrLocal
    let updated := ((records key).addHeaders args answer.first answer.last).updateState args
      answer.ret
    (Function.update records key updated.1, updated.2)
  else (records, answer.ret)

/-- `MaybePunishNodeForBlock`, for a result that is invalid. -/
def maybePunishNodeForBlock (pfrom : CNode) (viaCompactBlock : Bool) :
    Except BlockFailure Unit → Bool
  | .error (.invalid result _) =>
      match result with
      | .blockConsensus | .blockMutated => !viaCompactBlock
      | .blockCachedInvalid => !viaCompactBlock && !pfrom.isInbound
      | .blockInvalidHeader | .blockCheckpoint | .blockInvalidPrev | .blockHeaderSpam
      | .blockMissingPrev | .blockHeaderSync => true
      | .blockTimeFuture | .blockHeaderReject | .blockHeaderLowWork => false
  | _ => false

/-- Whether discouraging a peer forgets a record: `MaybeDiscourageAndDisconnect`
and `CleanAddressHeaders`, which goes by the address of the peer itself. -/
def CNode.cleans (node : CNode) (key : CService) : Bool :=
  !node.noBan && !node.isManual && !node.addr.isLocal &&
    node.addr.toCNetAddr.subNetMatch key.toCNetAddr

def cleanAddressHeaders (records : ServiceRecords) (node : CNode) : ServiceRecords :=
  fun key => if node.cleans key then CNodeHeaders.empty else records key

/-- What peers make the node do, as far as the filter is concerned. -/
inductive NetEvent where
  /-- A headers, block or compact block message. -/
  | headers (peer : ℕ) (answer : NewHeaders) (isInitialBlockDownload viaCompactBlock : Bool)
  /-- The peer is found misbehaving and discouraged. -/
  | discouraged (peer : ℕ)

def NetEvent.peer : NetEvent → ℕ
  | .headers peer _ _ _ => peer
  | .discouraged peer => peer

/-- One event, and whether it punishes its peer. -/
def netStep (peers : ℕ → CNode) (records : ServiceRecords) :
    NetEvent → ServiceRecords × Bool
  | .headers peer answer isInitialBlockDownload viaCompactBlock =>
      let (records', ret) :=
        processNetBlockHeaders args records (peers peer) answer isInitialBlockDownload
      (records', maybePunishNodeForBlock (peers peer) viaCompactBlock ret)
  | .discouraged peer => (cleanAddressHeaders records (peers peer), false)

def noRecords : ServiceRecords := fun _ => CNodeHeaders.empty

/-- Whether the node punishes a peer depends on that peer's events alone. -/
def PunishedForOwnHeaders (peers : ℕ → CNode) (peer : ℕ) : Prop :=
  Isolated (netStep args peers) noRecords fun event => event.peer == peer

variable {args : HeaderSpamArgs} {peers : ℕ → CNode} {peer other : ℕ}

abbrev recordOf (args : HeaderSpamArgs) (peers : ℕ → CNode) (peer : ℕ)
    (records : ServiceRecords) : CNodeHeaders :=
  records (serviceKey args (peers peer).addrLocal)

/-- A message of a peer reads and writes the peer's own record only. -/
theorem netStep_headers (records : ServiceRecords) (answer : NewHeaders)
    (isInitialBlockDownload viaCompactBlock : Bool) :
    netStep args peers records (.headers peer answer isInitialBlockDownload viaCompactBlock) =
      if args.headerSpamFilter ∧ (!isInitialBlockDownload || args.duringIbd) then
        (Function.update records (serviceKey args (peers peer).addrLocal)
            (((recordOf args peers peer records).addHeaders args answer.first
              answer.last).updateState args answer.ret).1,
          maybePunishNodeForBlock (peers peer) viaCompactBlock
            (((recordOf args peers peer records).addHeaders args answer.first
              answer.last).updateState args answer.ret).2)
      else (records, maybePunishNodeForBlock (peers peer) viaCompactBlock answer.ret) := by
  simp only [netStep, processNetBlockHeaders, recordOf]
  split_ifs <;> rfl

section Separate

/-- With a key of its own that no discouraged peer cleans, a peer is judged by
its own events. -/
theorem punishedForOwnHeaders_of_separate (hseparate : ∀ other, other ≠ peer →
      serviceKey args (peers other).addrLocal ≠ serviceKey args (peers peer).addrLocal ∧
        (peers other).cleans (serviceKey args (peers peer).addrLocal) = false) :
    PunishedForOwnHeaders args peers peer := by
  refine isolated_of_unwinding
    (fun left right => recordOf args peers peer left = recordOf args peers peer right) rfl ?_ ?_
  · intro left right event hown hrelated
    have hpeer : event.peer = peer := by simpa using hown
    cases event with
    | headers sender answer isInitialBlockDownload viaCompactBlock =>
      obtain rfl : sender = peer := hpeer
      simp only [netStep_headers, hrelated]
      split_ifs
      · simp [recordOf]
      · exact ⟨hrelated, rfl⟩
    | discouraged sender =>
      obtain rfl : sender = peer := hpeer
      refine ⟨?_, rfl⟩
      simp only [netStep, cleanAddressHeaders, recordOf]
      split_ifs
      · rfl
      · exact hrelated
  · intro left right event hnotOwn hrelated
    have hother : event.peer ≠ peer := by simpa using hnotOwn
    obtain ⟨hkey, hclean⟩ := hseparate event.peer hother
    cases event with
    | headers sender answer isInitialBlockDownload viaCompactBlock =>
      rw [netStep_headers]
      split_ifs
      · rw [← hrelated]
        exact Function.update_of_ne (Ne.symm hkey) _ _
      · exact hrelated
    | discouraged sender =>
      change (peers sender).cleans _ = false at hclean
      simpa [netStep, cleanAddressHeaders, recordOf, hclean] using hrelated

end Separate

section Quiet

/-- Records under limits so small that no record can tell two histories apart. -/
def CNodeHeaders.Quiet (args : HeaderSpamArgs) (headers : CNodeHeaders) : Prop :=
  headers.points = [] ∨
    (args.maxSize = 1 ∧ 2 ≤ args.maxAvg ∧ ∃ height, headers.points = [(height, 1)])

namespace CNodeHeaders

theorem points_addPoint (headers : CNodeHeaders) (height : ℤ) :
    (headers.addPoint args height).points =
      bump height (if headers.points.length = args.maxSize then headers.points.tail
        else headers.points) := rfl

variable {headers : CNodeHeaders}

/-- A record of one place holds the last height added. -/
theorem points_foldl_addPoint (hsize : args.maxSize = 1) (heights : List ℤ) (height : ℤ)
    (hlength : headers.points.length ≤ 1) :
    ((heights ++ [height]).foldl (addPoint args) headers).points = [(height, 1)] := by
  have hpoint : ∀ (headers : CNodeHeaders) (height : ℤ), headers.points.length ≤ 1 →
      (headers.addPoint args height).points = [(height, 1)] := by
    intro headers height hlength
    rw [points_addPoint, hsize]
    cases hpoints : headers.points with
    | nil => rfl
    | cons point points =>
      rw [hpoints, List.length_cons] at hlength
      have hnil : points = [] := List.length_eq_zero_iff.mp (by omega)
      simp [hnil, bump]
  rw [List.foldl_append, List.foldl_cons, List.foldl_nil]
  apply hpoint
  induction heights generalizing headers with
  | nil => exact hlength
  | cons first heights ih =>
    rw [List.foldl_cons]
    apply ih
    rw [hpoint headers first hlength]
    rfl

theorem updateState_single (hsize : args.maxSize = 1) {height : ℤ}
    (hpoints : headers.points = [(height, 1)]) (ret : Except BlockFailure Unit) :
    headers.updateState args ret =
      if args.maxAvg ≤ 1 then (empty, .error (.invalid .blockHeaderSpam "header-spam"))
      else (headers, ret) := by
  have hban : banNode args 1 1 = decide (args.maxAvg ≤ 1) := by
    by_cases hsmall : args.maxAvg ≤ 1
    · simp [banNode, hsize, hsmall]
    · have hfirst : ¬ 3 * args.maxAvg ≤ 2 := by omega
      simp [banNode, hsize, hsmall, hfirst]
  simp only [updateState, hpoints, List.length_singleton, List.map_singleton, List.sum_singleton,
    hban, decide_eq_true_eq, one_ne_zero, if_false]

/-- A quiet record that gets no new heights answers what it is given. -/
theorem Quiet.updateState_eq (hquiet : headers.Quiet args) (ret : Except BlockFailure Unit) :
    headers.updateState args ret = (headers, ret) := by
  rcases hquiet with hempty | ⟨hsize, havg, height, hpoints⟩
  · simp [updateState, hempty]
  · rw [updateState_single hsize hpoints, if_neg (by omega)]

theorem Quiet.length_le (hquiet : headers.Quiet args) :
    headers.points.length ≤ 1 := by
  rcases hquiet with hempty | ⟨_, _, height, hpoints⟩
  · simp [hempty]
  · simp [hpoints]

/-- A message adds nothing to any record, or the same heights to every record. -/
theorem addHeaders_cases (args : HeaderSpamArgs) (first last : Option ℤ) :
    (∀ headers, addHeaders args headers first last = headers) ∨
      (args.maxSize ≠ 0 ∧ args.maxAvg ≠ 0 ∧ ∃ heights height, ∀ headers,
        addHeaders args headers first last =
          (heights ++ [height]).foldl (addPoint args) headers) := by
  match first, last with
  | none, _ => exact .inl fun _ => rfl
  | some _, none => exact .inl fun _ => rfl
  | some nBegin, some nEnd =>
    simp only [addHeaders]
    split_ifs with hlimits
    · cases (nEnd + 1 - nBegin).toNat with
      | zero => exact .inl fun _ => rfl
      | succ count =>
        refine .inr ⟨hlimits.1, hlimits.2, (List.range count).map fun offset : ℕ =>
          nBegin + offset, nBegin + count, fun headers => ?_⟩
        rw [List.range_succ, List.map_append, List.map_singleton]
    · exact .inl fun _ => rfl

/-- What a quiet record answers does not depend on the record. -/
theorem Quiet.step (hlimits : args.maxSize ≤ 1 ∨ args.maxAvg = 0) (answer : NewHeaders) :
    ∃ ret, ∀ headers : CNodeHeaders, headers.Quiet args →
      ((headers.addHeaders args answer.first answer.last).updateState args
          answer.ret).1.Quiet args ∧
        ((headers.addHeaders args answer.first answer.last).updateState args
          answer.ret).2 = ret := by
  rcases addHeaders_cases args answer.first answer.last with
    hsame | ⟨hsize, havg, heights, height, hadded⟩
  · refine ⟨answer.ret, fun headers hquiet => ?_⟩
    rw [hsame, hquiet.updateState_eq]
    exact ⟨hquiet, rfl⟩
  · have hone : args.maxSize = 1 := by omega
    -- All quiet records now hold the last height once.
    have hpoints (headers : CNodeHeaders) (hquiet : headers.Quiet args) :
        (headers.addHeaders args answer.first answer.last).points = [(height, 1)] := by
      rw [hadded]
      exact points_foldl_addPoint hone heights height hquiet.length_le
    by_cases hsmall : args.maxAvg ≤ 1
    · refine ⟨.error (.invalid .blockHeaderSpam "header-spam"), fun headers hquiet => ?_⟩
      rw [updateState_single hone (hpoints headers hquiet), if_pos hsmall]
      exact ⟨.inl rfl, rfl⟩
    · refine ⟨answer.ret, fun headers hquiet => ?_⟩
      rw [updateState_single hone (hpoints headers hquiet), if_neg hsmall]
      exact ⟨.inr ⟨hone, by omega, height, hpoints headers hquiet⟩, rfl⟩

end CNodeHeaders

/-- Limits that small leave nothing for one peer to do to another. -/
theorem punishedForOwnHeaders_of_limits (hlimits : args.maxSize ≤ 1 ∨ args.maxAvg = 0) :
    PunishedForOwnHeaders args peers peer := by
  have hquiet : ∀ records event, (∀ key, (records key).Quiet args) →
      ∀ key, ((netStep args peers records event).1 key).Quiet args := by
    intro records event hrecords key
    cases event with
    | headers sender answer isInitialBlockDownload viaCompactBlock =>
      obtain ⟨ret, hstep⟩ := CNodeHeaders.Quiet.step hlimits answer
      rw [netStep_headers]
      split_ifs
      · by_cases hkey : key = serviceKey args (peers sender).addrLocal
        · subst hkey
          simpa using (hstep _ (hrecords _)).1
        · simpa [Function.update_of_ne hkey] using hrecords key
      · exact hrecords key
    | discouraged sender =>
      simp only [netStep, cleanAddressHeaders]
      split_ifs
      · exact .inl rfl
      · exact hrecords key
  refine isolated_of_unwinding (fun left right =>
    (∀ key, (left key).Quiet args) ∧ ∀ key, (right key).Quiet args)
    ⟨fun _ => .inl rfl, fun _ => .inl rfl⟩ ?_ ?_
  · rintro left right event - ⟨hleft, hright⟩
    refine ⟨⟨hquiet left event hleft, hquiet right event hright⟩, ?_⟩
    cases event with
    | headers sender answer isInitialBlockDownload viaCompactBlock =>
      obtain ⟨ret, hstep⟩ := CNodeHeaders.Quiet.step hlimits answer
      rw [netStep_headers, netStep_headers]
      split_ifs
      · simp only [(hstep _ (hleft _)).2, (hstep _ (hright _)).2]
      · rfl
    | discouraged sender => rfl
  · rintro left right event - ⟨hleft, hright⟩
    exact ⟨hquiet left event hleft, hright⟩

theorem punishedForOwnHeaders_of_off (hoff : args.headerSpamFilter = false) :
    PunishedForOwnHeaders args peers peer := by
  refine isolated_of_unwinding (fun _ _ => True) trivial ?_ (fun _ _ _ _ _ => trivial)
  intro left right event _ _
  refine ⟨trivial, ?_⟩
  cases event with
  | headers sender answer isInitialBlockDownload viaCompactBlock =>
    simp [netStep_headers, hoff]
  | discouraged sender => rfl

end Quiet

section Shared

def oneHeader (peer : ℕ) : NetEvent :=
  .headers peer ⟨.ok (), some 1, some 1⟩ false false

def CNodeHeaders.ofCount : ℕ → CNodeHeaders
  | 0 => empty
  | count + 1 => ⟨[(1, count + 1)], List.pairwise_singleton _ _⟩

/-- The number of headers of one height at which the filter punishes. -/
theorem exists_threshold (havg : args.maxAvg ≠ 0) (hsize : 1 < args.maxSize) :
    ∃ count, CNodeHeaders.banNode args 1 (count + 2) = true ∧
      ∀ fewer, fewer < count + 2 → CNodeHeaders.banNode args 1 fewer = false := by
  have hexists : ∃ count, CNodeHeaders.banNode args 1 count = true :=
    ⟨41 * args.maxSize, by
      have hfull : 41 * args.maxSize ≤ 10 * (41 * args.maxSize) := by omega
      simp [CNodeHeaders.banNode, hfull]⟩
  have hleast := Nat.find_spec hexists
  have hzero : CNodeHeaders.banNode args 1 0 = false := by
    have hmax : args.maxSize ≠ 0 := by omega
    simp [CNodeHeaders.banNode, havg, hmax]
  have hone : CNodeHeaders.banNode args 1 1 = false := by
    have hfirst : ¬ 3 * args.maxAvg ≤ 2 := by omega
    have hsecond : ¬ args.maxSize ≤ 1 := by omega
    have hthird : ¬ 41 * args.maxSize ≤ 10 := by omega
    simp [CNodeHeaders.banNode, hfirst, hsecond, hthird]
  obtain ⟨count, hcount⟩ : ∃ count, Nat.find hexists = count + 2 := by
    match hfound : Nat.find hexists with
    | 0 => rw [hfound, hzero] at hleast; exact Bool.noConfusion hleast
    | 1 => rw [hfound, hone] at hleast; exact Bool.noConfusion hleast
    | count + 2 => exact ⟨count, rfl⟩
  refine ⟨count, hcount ▸ hleast, fun fewer hfewer => ?_⟩
  exact Bool.not_eq_true _ ▸ Nat.find_min hexists (hcount ▸ hfewer)

variable (hon : args.headerSpamFilter = true) (havg : args.maxAvg ≠ 0) (hsize : 1 < args.maxSize)

include hon havg hsize

omit hon in
theorem CNodeHeaders.addHeaders_ofCount (count : ℕ) :
    (ofCount count).addHeaders args (some 1) (some 1) = ofCount (count + 1) := by
  have hlimits : args.maxSize ≠ 0 ∧ args.maxAvg ≠ 0 := ⟨by omega, havg⟩
  rw [addHeaders, if_pos hlimits]
  ext1
  change ((ofCount count).addPoint args 1).points = _
  have hlength : (ofCount count).points.length ≤ 1 := by
    cases count <;> simp [ofCount, empty]
  rw [points_addPoint, if_neg (by omega)]
  cases count <;> rfl

/-- One more header of height 1 on a record of such headers. -/
theorem netStep_oneHeader {records : ServiceRecords} {count : ℕ}
    (hrecord : recordOf args peers peer records = CNodeHeaders.ofCount count) :
    netStep args peers records (oneHeader peer) = if CNodeHeaders.banNode args 1 (count + 1) then
        (Function.update records (serviceKey args (peers peer).addrLocal) CNodeHeaders.empty,
          true)
      else (Function.update records (serviceKey args (peers peer).addrLocal)
          (CNodeHeaders.ofCount (count + 1)), false) := by
  have hstate : (CNodeHeaders.ofCount (count + 1)).updateState args (.ok ()) =
      if CNodeHeaders.banNode args 1 (count + 1) then
        (CNodeHeaders.empty, .error (.invalid .blockHeaderSpam "header-spam"))
      else (CNodeHeaders.ofCount (count + 1), .ok ()) := by
    simp [CNodeHeaders.updateState, CNodeHeaders.ofCount]
  rw [oneHeader, netStep_headers, hrecord, CNodeHeaders.addHeaders_ofCount havg hsize, hstate]
  split_ifs with hfilter hban
  · rfl
  · rfl
  all_goals exact absurd ⟨hon, rfl⟩ hfilter

/-- Fewer headers of height 1 than the filter punishes are all on record. -/
theorem recordOf_after_oneHeader {threshold count : ℕ}
    (hbelow : ∀ fewer, fewer < threshold → CNodeHeaders.banNode args 1 fewer = false)
    (hcount : count < threshold) :
    recordOf args peers peer (after (netStep args peers) noRecords
      (List.replicate count (oneHeader peer))) = CNodeHeaders.ofCount count := by
  induction count with
  | zero => rfl
  | succ count ih =>
    have hrecord := ih (by omega)
    rw [List.replicate_succ', after, List.foldl_append]
    change recordOf args peers peer (netStep args peers (after (netStep args peers) noRecords
      (List.replicate count (oneHeader peer))) (oneHeader peer)).1 = _
    rw [netStep_oneHeader hon havg hsize hrecord, hbelow _ hcount]
    simp [recordOf]

theorem not_punishedForOwnHeaders_of_shared (hother : other ≠ peer)
    (hkey : serviceKey args (peers other).addrLocal = serviceKey args (peers peer).addrLocal) :
    ¬ PunishedForOwnHeaders args peers peer := by
  intro hisolated
  obtain ⟨count, hban, hbelow⟩ := exists_threshold havg hsize
  have heq := hisolated.output_eq (List.replicate (count + 1) (oneHeader other))
    (oneHeader peer) (by simp [oneHeader, NetEvent.peer])
  have hnone : (List.replicate (count + 1) (oneHeader other)).filter
      (fun event => event.peer == peer) = [] := by
    simp [oneHeader, NetEvent.peer, hother]
  have hrecord : recordOf args peers peer (after (netStep args peers) noRecords
      (List.replicate (count + 1) (oneHeader other))) = CNodeHeaders.ofCount (count + 1) := by
    rw [recordOf, ← hkey]
    exact recordOf_after_oneHeader hon havg hsize hbelow (by omega)
  have hempty : recordOf args peers peer (after (netStep args peers) noRecords []) =
      CNodeHeaders.ofCount 0 := rfl
  rw [hnone, netStep_oneHeader hon havg hsize hrecord, netStep_oneHeader hon havg hsize hempty,
    if_pos hban, hbelow (0 + 1) (by omega)] at heq
  exact Bool.noConfusion heq

/-- A discouraged peer whose own address is the key of another's record wipes
that record. -/
theorem not_punishedForOwnHeaders_of_cleans (hother : other ≠ peer)
    (hclean : (peers other).cleans (serviceKey args (peers peer).addrLocal) = true) :
    ¬ PunishedForOwnHeaders args peers peer := by
  intro hisolated
  obtain ⟨count, hban, hbelow⟩ := exists_threshold havg hsize
  let headers := List.replicate (count + 1) (oneHeader peer)
  have heq := hisolated.output_eq (headers ++ [.discouraged other])
    (oneHeader peer) (by simp [oneHeader, NetEvent.peer])
  have hown : (headers ++ [NetEvent.discouraged other]).filter
      (fun event => event.peer == peer) = headers := by
    simp [headers, oneHeader, NetEvent.peer, hother]
  have hrecord : recordOf args peers peer (after (netStep args peers) noRecords headers) =
      CNodeHeaders.ofCount (count + 1) :=
    recordOf_after_oneHeader hon havg hsize hbelow (by omega)
  have hwiped : recordOf args peers peer (after (netStep args peers) noRecords
      (headers ++ [.discouraged other])) = CNodeHeaders.ofCount 0 := by
    rw [after, List.foldl_append]
    simp only [List.foldl_cons, List.foldl_nil, netStep, cleanAddressHeaders, recordOf, hclean,
      if_true]
    rfl
  rw [hown, netStep_oneHeader hon havg hsize hrecord, netStep_oneHeader hon havg hsize hwiped,
    if_pos hban, hbelow (0 + 1) (by omega)] at heq
  exact Bool.noConfusion heq

end Shared

theorem punishedForOwnHeaders_iff (args : HeaderSpamArgs) (peers : ℕ → CNode) (peer : ℕ) :
    PunishedForOwnHeaders args peers peer ↔
      args.headerSpamFilter = false ∨ args.maxSize ≤ 1 ∨ args.maxAvg = 0 ∨
        ∀ other, other ≠ peer →
          serviceKey args (peers other).addrLocal ≠ serviceKey args (peers peer).addrLocal ∧
            (peers other).cleans (serviceKey args (peers peer).addrLocal) = false := by
  constructor
  · intro hisolated
    by_contra hnot
    push Not at hnot
    obtain ⟨hon, hsize, havg, other, hother, hreach⟩ := hnot
    have hfilter : args.headerSpamFilter = true := by simpa using hon
    by_cases hkey : serviceKey args (peers other).addrLocal = serviceKey args (peers peer).addrLocal
    · exact not_punishedForOwnHeaders_of_shared hfilter havg hsize hother hkey hisolated
    · have hclean : (peers other).cleans (serviceKey args (peers peer).addrLocal) = true := by
        simpa using hreach hkey
      exact not_punishedForOwnHeaders_of_cleans hfilter havg hsize hother hclean hisolated
  · rintro (hoff | hsize | havg | hseparate)
    · exact punishedForOwnHeaders_of_off hoff
    · exact punishedForOwnHeaders_of_limits (.inl hsize)
    · exact punishedForOwnHeaders_of_limits (.inr havg)
    · exact punishedForOwnHeaders_of_separate hseparate

section Victim

def inboundPeer (address : Bytes) : CNode where
  addr := ⟨⟨.ipv4, address⟩, 40000⟩
  addrLocal := ⟨⟨.ipv4, [203, 0, 113, 9]⟩, 17711⟩
  isInbound := true
  noBan := false
  isManual := false

def spamPeers (peer : ℕ) : CNode :=
  if peer = 0 then inboundPeer [198, 51, 100, 1] else inboundPeer [192, 0, 2, 1]

def tenHeaders (peer : ℕ) : NetEvent :=
  .headers peer ⟨.ok (), some 1, some 10⟩ false false

/-- Under the default options, 14 messages of one peer make the node punish
another for its first. -/
theorem spamPeers_punished :
    (spamPeers 0).addr.toCNetAddr ≠ (spamPeers 1).addr.toCNetAddr ∧
      serviceKey {} (spamPeers 0).addrLocal = serviceKey {} (spamPeers 1).addrLocal ∧
      ((trace (netStep {} spamPeers) noRecords
        (List.replicate 14 (tenHeaders 0) ++ [tenHeaders 1])).filter
          fun answer => answer.1.peer == 1).map Prod.snd = [true] ∧
      (trace (netStep {} spamPeers) noRecords
        ((List.replicate 14 (tenHeaders 0) ++ [tenHeaders 1]).filter
          fun event => event.peer == 1)).map Prod.snd = [false] := by
  refine ⟨by decide, by decide, by decide_cbv, by decide_cbv⟩

end Victim

end Peers

end FirstIslamicCoin
