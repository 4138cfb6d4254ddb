import MooncoinFormal.Pow.Compact

/-!
# The work that the next block has to show

`pow.cpp`. The height selects one of the legacy algorithms: a retarget every 320
blocks, the Kimoto gravity well, a retarget at every block, a fixed target for eight
blocks, and a well mixed with the time of the last block. A chain is the list of its
blocks from `pindexLast` back to the first one, so that the height of a block is the
number of blocks before it; of a block only the bits and the time are read. The test
for the event horizon is made with floating point numbers and is a parameter. `none`
stands for a failed assertion.
-/

namespace MooncoinFormal.Pow

structure Index where
  nBits : UInt32
  nTime : UInt32
  deriving DecidableEq

def Index.getBlockTime (index : Index) : Int := index.nTime.toNat

structure Params where
  powLimit : ArithUInt256
  nPowTargetTimespan : Int
  nPowTargetSpacing : Int
  fPowAllowMinDifficultyBlocks : Bool
  fPowNoRetargeting : Bool

variable (params : Params)

def Params.nProofOfWorkLimit : UInt32 := getCompact params.powLimit

/-- `operator*=` with a number, which is converted to a word of 32 bits. -/
def mulWord (bn : ArithUInt256) (n : Int) : ArithUInt256 :=
  bn * BitVec.ofNat 256 (n % 2 ^ 32).toNat

/-- `operator/=` with a number, which is converted to a word of 64 bits first. -/
def divWord (bn : ArithUInt256) (n : Int) : ArithUInt256 :=
  bn / BitVec.ofNat 256 (n % 2 ^ 64).toNat

def atMost (bn bnPowLimit : ArithUInt256) : ArithUInt256 :=
  if bnPowLimit < bn then bnPowLimit else bn

/-- Two assignments that keep a time between two bounds. -/
def clamp (low high value : Int) : Int :=
  let value := if value < low then low else value
  if high < value then high else value

/-! ## Retargets at fixed intervals -/

/-- The target of the last block, scaled by the time that passed. -/
def scaled (nBits : UInt32) (nActualTimespan nTargetTimespan : Int) : UInt32 :=
  getCompact (atMost (divWord (mulWord (setCompact nBits) nActualTimespan) nTargetTimespan)
    params.powLimit)

/-- The bits of the last block that does not fall under the rule for test networks. -/
def lastNonSpecial (nProofOfWorkLimit : UInt32) (nInterval : Nat) : List Index → Option UInt32
  | [] => none
  | [pindex] => some pindex.nBits
  | pindex :: pprev :: rest =>
    if (rest.length + 1) % nInterval ≠ 0 ∧ pindex.nBits = nProofOfWorkLimit then
      lastNonSpecial nProofOfWorkLimit nInterval (pprev :: rest)
    else some pindex.nBits

/-- The bits between two retargets. -/
def betweenRetargets (fTestNet : Bool) (nInterval : Nat) (nTargetSpacing : Int) (pindexLast : Index)
    (before : List Index) (blockTime : Int) : Option UInt32 :=
  if fTestNet then
    if blockTime > pindexLast.getBlockTime + nTargetSpacing * 2 then some params.nProofOfWorkLimit
    else lastNonSpecial params.nProofOfWorkLimit nInterval (pindexLast :: before)
  else some pindexLast.nBits

/-- The first block of the period that ends with the chain. -/
def pindexFirst (nInterval : Nat) (chain : List Index) : Option Index :=
  chain[if chain.length ≠ nInterval then nInterval else nInterval - 1]?

/-- The bounds on the time that passed, which were narrowed with the height. -/
def clampV1 (nextHeight : Nat) (nActualTimespan : Int) : Int :=
  if 10000 < nextHeight then clamp (28800 / 4) (28800 * 4) nActualTimespan
  else if 5000 < nextHeight then clamp (28800 / 8) (28800 * 4) nActualTimespan
  else clamp (28800 / 16) (28800 * 4) nActualTimespan

variable (pindexLast : Index) (before : List Index) (blockTime : Int)

def getNextWorkRequiredMooncoinV1 : Option UInt32 :=
  if (before.length + 1) % 320 ≠ 0 then
    betweenRetargets params params.fPowAllowMinDifficultyBlocks 320 90 pindexLast before blockTime
  else do
    let pindexFirst ← pindexFirst 320 (pindexLast :: before)
    let nActualTimespan := clampV1 (before.length + 1)
      (pindexLast.getBlockTime - pindexFirst.getBlockTime)
    return scaled params pindexLast.nBits nActualTimespan 28800

/-- The retarget at every block; the interval is one, so nothing is between two of them. -/
def getNextWorkRequiredMooncoinV3 : Option UInt32 :=
  if (before.length + 1) % 1 ≠ 0 then
    betweenRetargets params false 1 90 pindexLast before blockTime
  else do
    let pindexFirst ← pindexFirst 1 (pindexLast :: before)
    let nActualTimespan := clamp (90 - 90 / 4) (90 + 90 / 2)
      (pindexLast.getBlockTime - pindexFirst.getBlockTime)
    return scaled params pindexLast.nBits nActualTimespan 90

/-! ## Gravity wells -/

/-- What the two gravity wells do differently. -/
structure WellRules where
  pastBlocksMin : Nat
  pastBlocksMax : Nat
  /-- The next running average, from the one before and the target that was read. -/
  average : (i : Nat) → (prev current : ArithUInt256) → ArithUInt256
  /-- The latest time and the seconds that passed, when a block of some height and
  time is read. -/
  clock : (nHeight : Nat) → (latestBlockTime time : Int) → Int × Int

structure WellState where
  pastBlocksMass : Nat
  latestBlockTime : Int
  pastRateActualSeconds : Int
  pastDifficultyAverage : ArithUInt256

def WellState.pastRateTargetSeconds (state : WellState) : Int := 90 * state.pastBlocksMass

def wellPass (rules : WellRules) (nHeight : Nat) (blockReading : Index) (state : WellState) :
    WellState :=
  let i := state.pastBlocksMass + 1
  let current := setCompact blockReading.nBits
  let clock := rules.clock nHeight state.latestBlockTime blockReading.getBlockTime
  { pastBlocksMass := i
    latestBlockTime := clock.1
    pastRateActualSeconds := clock.2
    pastDifficultyAverage :=
      if i = 1 then current else rules.average i state.pastDifficultyAverage current }

/-- The test for the event horizon, of the mass and the actual and the target seconds. -/
abbrev Horizon := Nat → Int → Int → Bool

/-- The loop back over the blocks above the first one. -/
def wellLoop (rules : WellRules) (horizon : Horizon) : List Index → WellState → WellState
  | [], state => state
  | blockReading :: pprev, state =>
    if pprev.length = 0 then state
    else if 0 < rules.pastBlocksMax ∧ rules.pastBlocksMax < state.pastBlocksMass + 1 then state
    else
      let state := wellPass rules pprev.length blockReading state
      if decide (rules.pastBlocksMin ≤ state.pastBlocksMass) &&
          horizon state.pastBlocksMass state.pastRateActualSeconds
            state.pastRateTargetSeconds then state
      else wellLoop rules horizon pprev state

def wellStart : WellState := ⟨0, pindexLast.getBlockTime, 0, 0⟩

def WellState.value (state : WellState) : ArithUInt256 :=
  if state.pastRateActualSeconds ≠ 0 ∧ state.pastRateTargetSeconds ≠ 0 then
    divWord (mulWord state.pastDifficultyAverage state.pastRateActualSeconds)
      state.pastRateTargetSeconds
  else state.pastDifficultyAverage

/-- The first well; above a height the latest time is kept and one second has passed
at least. -/
def wellRulesV2 : WellRules where
  pastBlocksMin := 21600 / 90
  pastBlocksMax := 604800 / 90
  average := fun i prev current =>
    if prev < current then prev + (current - prev) / BitVec.ofNat 256 i
    else prev - (prev - current) / BitVec.ofNat 256 i
  clock := fun nHeight latestBlockTime time =>
    let latestBlockTime :=
      if latestBlockTime < time ∧ 67500 < nHeight then time else latestBlockTime
    let seconds := latestBlockTime - time
    (latestBlockTime,
      if 67500 < nHeight then (if seconds < 1 then 1 else seconds)
      else (if seconds < 0 then 0 else seconds))

variable (horizon : Horizon)

def wellV2 (pindexLast : Index) (before : List Index) : WellState :=
  wellLoop wellRulesV2 horizon (pindexLast :: before) (wellStart pindexLast)

/-- `KimotoGravityWell`, with the arguments of `GetNextWorkRequiredMooncoinV2`. -/
def getNextWorkRequiredMooncoinV2 (pindexLast : Index) (before : List Index) : UInt32 :=
  if before.length = 0 ∨ before.length < wellRulesV2.pastBlocksMin then params.nProofOfWorkLimit
  else
    let bnNew := (wellV2 horizon pindexLast before).value
    let bnNew := if params.nProofOfWorkLimit < getCompact bnNew then params.powLimit else bnNew
    if before.length + 1 = 1099915 then 471071101 else getCompact bnNew

def wellRulesV5 : WellRules where
  pastBlocksMin := 2160 / 90
  pastBlocksMax := 604800 / 90
  average := fun i prev current =>
    if prev ≤ current then (current - prev) / BitVec.ofNat 256 i + prev
    else prev - (prev - current) / BitVec.ofNat 256 i
  clock := fun _ latestBlockTime time =>
    let seconds := latestBlockTime - time
    (latestBlockTime, if seconds < 0 then 0 else seconds)

def wellV5 (pindexLast : Index) (before : List Index) : WellState :=
  wellLoop wellRulesV5 horizon (pindexLast :: before) (wellStart pindexLast)

/-- The bounds on the time of the last block. -/
def clampLast (nActualTime1 : Int) : Int :=
  clamp (90 / 3) (90 * 3) (if nActualTime1 < 0 then 90 else nActualTime1)

/-- The value that the second well clamps: half of the well's and of the last block's
target, less after a short interval, and a fixed one after a long stall. -/
def mixedV5 (kgwDual1 : ArithUInt256) (pindexLast pprev : Index) (blockTime : Int) : ArithUInt256 :=
  let nActualTimespanShort := pindexLast.getBlockTime - pprev.getBlockTime
  let kgwDual2 := divWord (mulWord (setCompact pindexLast.nBits)
    (clampLast nActualTimespanShort)) 90
  let bnNew := divWord (kgwDual2 + kgwDual1) 2
  let bnNew := if nActualTimespanShort < 90 / 6 then divWord (mulWord bnNew 85) 100 else bnNew
  if blockTime - pindexLast.getBlockTime > 3600 then divWord params.powLimit 15 else bnNew

/-- The heights of the historical chain with fixed bits. -/
def compatibilityPoint (nextHeight : Nat) : Option UInt32 :=
  if nextHeight = 1349150 then some 454022324
  else if nextHeight = 1500773 then some 469796712
  else if nextHeight = 1511216 then some 453654908
  else if nextHeight = 1527334 then some 455454971
  else if nextHeight = 1585972 then some 469833684
  else none

def getNextWorkRequiredMooncoinV5 (pindexLast : Index) (before : List Index) (blockTime : Int) :
    Option UInt32 :=
  if before.length = 0 ∨ before.length < wellRulesV5.pastBlocksMin then
    some params.nProofOfWorkLimit
  else do
    let pprev ← before.head?
    let kgwDual1 := (wellV5 horizon pindexLast before).value
    let bnNew := atMost (mixedV5 params kgwDual1 pindexLast pprev blockTime) params.powLimit
    return (compatibilityPoint (before.length + 1)).getD (getCompact bnNew)

/-- `CalculateNextWorkRequired`, the only place where `fPowNoRetargeting` is read. -/
def calculateNextWorkRequired (nFirstBlockTime : Int) : UInt32 :=
  if params.fPowNoRetargeting then pindexLast.nBits
  else
    let nActualTimespan := clamp (params.nPowTargetTimespan / 4) (params.nPowTargetTimespan * 4)
      (pindexLast.getBlockTime - nFirstBlockTime)
    let bnNew := setCompact pindexLast.nBits
    let fShift := decide (params.powLimit.toNat.size - 1 < bnNew.toNat.size)
    let bnNew := if fShift then bnNew >>> 1 else bnNew
    let bnNew := divWord (mulWord bnNew nActualTimespan) params.nPowTargetTimespan
    let bnNew := if fShift then bnNew <<< 1 else bnNew
    getCompact (atMost bnNew params.powLimit)

def getNextWorkRequiredLtc : Option UInt32 :=
  let nInterval := (params.nPowTargetTimespan / params.nPowTargetSpacing).toNat
  if (before.length + 1) % nInterval ≠ 0 then
    betweenRetargets params params.fPowAllowMinDifficultyBlocks nInterval params.nPowTargetSpacing
      pindexLast before blockTime
  else do
    let pindexFirst ← pindexFirst nInterval (pindexLast :: before)
    return calculateNextWorkRequired params pindexLast pindexFirst.getBlockTime

variable (horizonV2 horizonV5 : Horizon)

def getNextWorkRequiredMooncoinCompat (pindexLast : Index) (before : List Index) (blockTime : Int) :
    Option UInt32 :=
  let nextHeight := before.length + 1
  if nextHeight < 26850 then getNextWorkRequiredMooncoinV1 params pindexLast before blockTime
  else if nextHeight < 1100000 then
    some (getNextWorkRequiredMooncoinV2 params horizonV2 pindexLast before)
  else if nextHeight < 1250000 then getNextWorkRequiredMooncoinV3 params pindexLast before blockTime
  else if nextHeight < 1250000 + 8 then some 0x1e0fffff
  else getNextWorkRequiredMooncoinV5 params horizonV5 pindexLast before blockTime

/-- `GetNextWorkRequired` for a block of some time after the chain. -/
def getNextWorkRequired (chain : List Index) (blockTime : Int) : Option UInt32 :=
  match chain with
  | [] => none
  | pindexLast :: before =>
    if 1 ≤ before.length + 1 then
      getNextWorkRequiredMooncoinCompat params horizonV2 horizonV5 pindexLast before blockTime
    else getNextWorkRequiredLtc params pindexLast before blockTime

end MooncoinFormal.Pow
