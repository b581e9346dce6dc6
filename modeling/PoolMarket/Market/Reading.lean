import PoolMarket.Inquiry
import PoolMarket.Pool.Pair

/-!
# Reading a pool

A pool is read in two rounds. The first asks for its settings and its supply of shares, and at the
first reading of a pool also for its denoms, all at once. The second asks what the whole supply is
worth, which tells the reserves. The replies of a round may come in any order; the first failure
ends the reading.
-/

namespace PoolMarket

/-- How far the reading of a pool is. -/
inductive Reading.Stage where
  /-- The replies of the first round that have come. -/
  | survey (config : Option PairConfig) (shares : Option Amount) (denoms : Option (Both String))
  /-- Fees and supply are known, and the worth of the supply has been asked for. -/
  | valuation (fees : Fees) (shares : Amount)
  deriving DecidableEq, Repr

/-- A pool being read. -/
structure Reading where
  contract : Addr
  assets : DenomPair
  /-- The pool is read for the first time, so its denoms are compared with its listing. -/
  checksDenoms : Bool
  stage : Reading.Stage
  deriving DecidableEq, Repr

/-- Where a reply leaves a reading. -/
inductive Reading.Progress where
  | waiting (reading : Reading)
  | complete (snapshot : Snapshot)
  deriving DecidableEq, Repr

namespace Reading

/-- The reading of a pool that is not known yet. -/
def first (contract : Addr) (assets : DenomPair) : Reading :=
  { contract, assets, checksDenoms := true, stage := .survey none none none }

/-- Another reading of a known pool. -/
def again (p : Pair) : Reading :=
  { contract := p.contract, assets := p.assets, checksDenoms := false,
    stage := .survey none none none }

/-- The questions whose replies are waited for. -/
def questions (r : Reading) : List PairQuery :=
  match r.stage with
  | .survey config shares denoms =>
    (if config.isNone then [.config] else []) ++ (if shares.isNone then [.totalShares] else []) ++
      (if r.checksDenoms && denoms.isNone then [.denoms] else [])
  | .valuation _ shares => [.shareValue shares]

/-- The denoms a pool reports have to be those of its listing, in either order. -/
def checkDenoms (r : Reading) (reported : Both String) : Outcome Unit := do
  let reported ← DenomPair.ofStrings reported
  if r.assets.contains reported.first && r.assets.contains reported.second then .ok ()
  else .error (.pairMismatch r.contract.text)

/-- Goes on to the second round once the first is complete. -/
def proceed (r : Reading) : Outcome Progress :=
  match r.stage with
  | .survey (some config) (some shares) denoms =>
    match r.checksDenoms, denoms with
    | true, none => .ok (.waiting r)
    | true, some reported => do
      r.checkDenoms reported
      let fees ← config.fees
      return .waiting { r with stage := .valuation fees shares }
    | false, _ => do
      let fees ← config.fees
      return .waiting { r with stage := .valuation fees shares }
  | _ => .ok (.waiting r)

/-- Takes a reply to a question of the current round; one to any other question changes nothing. The
first failure is the failure of the reading. -/
def receive (r : Reading) (query : PairQuery) (reply : Outcome Json) : Outcome Progress :=
  match r.stage, query with
  | .survey _ shares denoms, .config => do
    let config ← (Inquiry.config r.contract).conclude reply
    proceed { r with stage := .survey (some config) shares denoms }
  | .survey config _ denoms, .totalShares => do
    let shares ← (Inquiry.totalShares r.contract).conclude reply
    proceed { r with stage := .survey config (some shares) denoms }
  | .survey config shares _, .denoms => do
    let denoms ← (Inquiry.denoms r.contract).conclude reply
    proceed { r with stage := .survey config shares (some denoms) }
  | .valuation fees shares, .shareValue _ => do
    let value ← (Inquiry.shareValue r.contract shares).conclude reply
    let deposits ← Pair.align r.assets r.contract value
    return .complete { deposits, shares, fees }
  | _, _ => .ok (.waiting r)

/-! ### What a reading keeps

A reading goes on to be of the same pool, whatever is replied, and only the reply to its last
question completes it. -/

/-- The readings are of one pool, listed alike and read in the same way. -/
structure SamePool (r s : Reading) : Prop where
  contract : s.contract = r.contract
  assets : s.assets = r.assets
  checksDenoms : s.checksDenoms = r.checksDenoms

/-- Steps of one reading are of one pool. It lets `samePool_of_proceed` follow a reply that was
noted. -/
theorem SamePool.trans {r s t : Reading} (hrs : SamePool r s) (hst : SamePool s t) :
    SamePool r t :=
  ⟨hst.contract.trans hrs.contract, hst.assets.trans hrs.assets,
    hst.checksDenoms.trans hrs.checksDenoms⟩

theorem SamePool.of_stage {r s : Reading} {stage : Stage} (h : SamePool { r with stage } s) :
    SamePool r s :=
  ⟨h.contract, h.assets, h.checksDenoms⟩

/-- Going on to the second round does not change which pool is read. By the branches of
`Reading.proceed`. -/
theorem samePool_of_proceed {r s : Reading} (h : r.proceed = .ok (.waiting s)) : SamePool r s := by
  unfold proceed at h
  split at h
  · split at h
    · cases h
      exact ⟨rfl, rfl, rfl⟩
    · obtain ⟨_, -, h⟩ := Outcome.bind_eq_ok.1 h
      obtain ⟨_, -, h⟩ := Outcome.bind_eq_ok.1 h
      cases h
      exact ⟨rfl, rfl, rfl⟩
    · obtain ⟨_, -, h⟩ := Outcome.bind_eq_ok.1 h
      cases h
      exact ⟨rfl, rfl, rfl⟩
  · cases h
    exact ⟨rfl, rfl, rfl⟩

/-- Neither does a reply. By the four cases in which one is taken (`samePool_of_proceed` in the
first round); the last completes the reading and leaves none. -/
theorem samePool_of_receive {r s : Reading} {query : PairQuery} {reply : Outcome Json}
    (h : r.receive query reply = .ok (.waiting s)) : SamePool r s := by
  unfold receive at h
  split at h
  · obtain ⟨_, -, h⟩ := Outcome.bind_eq_ok.1 h
    exact (samePool_of_proceed h).of_stage
  · obtain ⟨_, -, h⟩ := Outcome.bind_eq_ok.1 h
    exact (samePool_of_proceed h).of_stage
  · obtain ⟨_, -, h⟩ := Outcome.bind_eq_ok.1 h
    exact (samePool_of_proceed h).of_stage
  · obtain ⟨_, -, h⟩ := Outcome.bind_eq_ok.1 h
    obtain ⟨_, -, h⟩ := Outcome.bind_eq_ok.1 h
    cases h
  · cases h
    exact ⟨rfl, rfl, rfl⟩

end Reading

end PoolMarket
