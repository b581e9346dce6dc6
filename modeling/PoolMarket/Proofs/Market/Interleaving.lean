import PoolMarket.Market.Reading
import PoolMarket.Proofs.Asset.Validated
import PoolMarket.Proofs.Market.Cells

/-!
# Refreshes that interleave

Any number of refreshes share a market. Each waits for replies or for another refresh, and whatever
comes next lets one of them go on to where it waits again, so a run is a list of events in any
order. A reply is any value at all, or a failure: what the contracts answer is not restricted.

The invariant of a run ties the refreshes to the market. One that loads a pair is the only one at
the cell of the pair's key; one that waits for a pair waits at the cell of its key, or the pair is
registered.

* `Fits` — what one refresh relies on, by its stage; `Fits.onward` keeps it while another one acts.
* `Moves` — what a market and a refresh have come to when that refresh has acted. There is one such
  lemma for each function by which a refresh acts: `Consistent.advance`, `Consistent.receive`,
  `Consistent.wake`.
-/

namespace PoolMarket

/-- A market and the refreshes that were started on it. -/
structure Interleaving where
  market : Market
  refreshes : List Refresh

namespace Interleaving

/-- What lets a refresh go on. -/
inductive Event where
  | start
  | reply (task : Nat) (tokens : TokenDirectory) (question : Question) (reply : Outcome Json)
  | wake (task : Nat)

/-- A market just set up, with no refresh under way. -/
def new (s : Settings) : Interleaving := ⟨.ofSettings s, []⟩

/-- Lets one of the refreshes act. -/
def act (s : Interleaving) (task : Nat) (f : Market → Refresh → Market × Refresh) : Interleaving :=
  match s.refreshes[task]? with
  | some r => ⟨(f s.market r).1, s.refreshes.set task (f s.market r).2⟩
  | none => s

/-- A reply to a question that is not waited for goes unheard. -/
def hear (tokens : TokenDirectory) (question : Question) (reply : Outcome Json) (m : Market)
    (r : Refresh) : Market × Refresh :=
  if question ∈ Market.questions r then m.receive tokens r question reply else (m, r)

/-- Lets happen what an event says. An event about a refresh that does not exist does nothing. -/
def step (s : Interleaving) : Event → Interleaving
  | .start => { s with refreshes := s.refreshes ++ [.start] }
  | .reply task tokens question reply => s.act task (hear tokens question reply)
  | .wake task => s.act task Market.wake

def run (s : Interleaving) (events : List Event) : Interleaving := events.foldl step s

end Interleaving

/-- The settings that examples of a market start from. -/
def Deployment.settings : Settings := .standard factory router


/-! ## What a refresh relies on

A refresh stands still between its events, and meanwhile others act on the market. What it needs to
find again depends on its stage; that it does find it follows from `Onward`, except for a cell of
its own, which no one else gives back. -/

/-- The cell that a refresh is loading into. -/
def Refresh.cell? (r : Refresh) : Option Nat :=
  match r.stage with
  | .loading i _ => some i
  | _ => none

namespace Market

/-- What a refresh in some stage relies on. -/
def StageFits (m : Market) : Refresh.Stage → Prop
  | .listing _ => True
  | .updating key known _ => m.Has key known.id
  | .loading i reading => m.CellOf reading.assets.key i ∧ (m.cell i).busy = true
  | .queued i assets _ => m.CellOf assets.key i ∨ m.Delivered assets.key i
  | .finished _ => True

/-- A refresh fits a market: what it relies on is there, and what it was handed is registered. -/
structure Fits (m : Market) (r : Refresh) : Prop where
  stage : m.StageFits r.stage
  ensured : ∀ key id, (key, id) ∈ r.ensured → m.Has key id

/-- A refresh that stands still goes on to fit, unless its own cell is the one that is acted on. By
its stage: each relies on one of the fields of `Onward`. -/
theorem Fits.onward {own : Option Nat} {m n : Market} {r : Refresh} (h : m.Fits r)
    (hn : Onward own m n) (hown : ∀ i, r.cell? = some i → own ≠ some i) : n.Fits r := by
  obtain ⟨hstage, hensured⟩ := h
  refine ⟨?_, fun key id he => hn.has key id (hensured key id he)⟩
  -- each stage asks for one fact of the market, and that fact is one that others keep
  cases hr : r.stage with
  | listing after => trivial
  | updating key known reading =>
    rw [hr] at hstage
    exact hn.has key known.id hstage
  | loading i reading =>
    rw [hr] at hstage
    have hforeign := hown i (by rw [Refresh.cell?, hr])
    exact ⟨hn.foreign _ i hforeign hstage.1, hn.busy i hforeign hstage.2⟩
  | queued i assets contract =>
    rw [hr] at hstage
    rcases hstage with hcell | hdelivered
    · exact hn.cellOf _ i hcell
    · exact Or.inr (hn.delivered _ i hdelivered)
  | finished result => trivial

/-- What a market and a refresh have come to when the refresh has acted, whose cell was `own`. A
cell that it has taken was free, and no other cell is busy that was not. -/
structure Moves (own : Option Nat) (m : Market) (out : Market × Refresh) : Prop where
  consistent : out.1.Consistent
  onward : Onward own m out.1
  fits : out.1.Fits out.2
  taken : ∀ i, out.2.cell? = some i → own = some i ∨ (m.cell i).busy = false
  busy : ∀ i, (out.1.cell i).busy = true →
    out.2.cell? = some i ∨ (own ≠ some i ∧ (m.cell i).busy = true)

/-- A refresh without a cell has nothing to do with those that are busy (`Onward.refl`). -/
theorem Moves.of_same {m : Market} {r : Refresh} (hm : m.Consistent) (hfits : m.Fits r)
    (hcell : r.cell? = none) : Moves none m (m, r) where
  consistent := hm
  onward := .refl none m
  fits := hfits
  taken i h := by rw [hcell] at h; cases h
  busy i h := Or.inr ⟨by simp, h⟩

/-- A refresh that goes on waiting where it is, with its cell if it had one (`Onward.refl`). -/
theorem Moves.of_still {m : Market} {r : Refresh} (hm : m.Consistent) (hfits : m.Fits r) :
    Moves r.cell? m (m, r) where
  consistent := hm
  onward := .refl _ m
  fits := hfits
  taken _ h := Or.inl h
  busy i h := by
    by_cases hcell : r.cell? = some i
    · exact Or.inl hcell
    · exact Or.inr ⟨hcell, h⟩

/-- What is done to the own cell first, and what the refresh then does without it (`Onward.trans`).
All operations of a refresh are put together from two such parts at most. -/
theorem Moves.after {own : Option Nat} {m n : Market} {out : Market × Refresh}
    (hn : Onward own m n)
    (hidle : ∀ i, (n.cell i).busy = true → own ≠ some i ∧ (m.cell i).busy = true)
    (h : Moves none n out) : Moves own m out where
  consistent := h.consistent
  onward := hn.trans h.onward
  fits := h.fits
  taken i hi := by
    rcases h.taken i hi with hnone | hfree
    · cases hnone
    · by_cases hown : own = some i
      · exact Or.inl hown
      · refine Or.inr ?_
        cases hbusy : (m.cell i).busy with
        | false => rfl
        | true =>
          rw [hn.busy i hown hbusy] at hfree
          cases hfree
  busy i hi := by
    rcases h.busy i hi with hcell | ⟨-, hbusy⟩
    · exact Or.inl hcell
    · exact Or.inr (hidle i hbusy)

/-- Taking a free cell to load a pair of its key (`Consistent.occupy`, `Onward.occupy`). -/
theorem Moves.occupy {m : Market} {r : Refresh} {i : Nat} {assets : DenomPair} {contract : Addr}
    (hm : m.Consistent) (hcell : m.CellOf assets.key i) (hfree : (m.cell i).busy = false)
    (hensured : ∀ key id, (key, id) ∈ r.ensured → m.Has key id)
    (hstage : r.stage = .loading i (.first contract assets)) : Moves none m (m.occupy i, r) := by
  have hi := (hm.unfilled _ i hcell).1
  have hown : r.cell? = some i := by rw [Refresh.cell?, hstage]
  refine ⟨hm.occupy i, .occupy hi, ⟨?_, hensured⟩, ?_, ?_⟩
  · rw [hstage]
    exact ⟨hcell, busy_occupy hi⟩
  · intro j hj
    rw [hown, Option.some.injEq] at hj
    exact Or.inr (hj ▸ hfree)
  · intro j hj
    by_cases hij : i = j
    · exact Or.inl (hij ▸ hown)
    · rw [Market.occupy, cell_setCell_of_ne _ hij] at hj
      exact Or.inr ⟨by simp, hj⟩

/-! ## One step of a refresh

The three functions by which a refresh goes on. Each proof follows its function, applies to every
branch the lemma about the operation there, and puts the parts together by `Moves.after`. -/

/-- Going through the listings reads a known pair again, and joins or starts the load of an unknown
one. A cell that is joined is empty, since its key is not registered; so the branch in which it
holds a pair is never taken, and no recursion is needed (`Consistent.join`, `cellOf_join`). -/
theorem Consistent.advance {m : Market} {r : Refresh} {todo : List (DenomPair × Addr)}
    (hm : m.Consistent) (hensured : ∀ key id, (key, id) ∈ r.ensured → m.Has key id) :
    Moves none m (m.advance r todo) := by
  cases todo with
  | nil =>
    rw [Market.advance]
    exact .of_same hm ⟨trivial, hensured⟩ rfl
  | cons listing rest =>
    obtain ⟨assets, contract⟩ := listing
    rw [Market.advance]
    cases hknown : m.registry.get? assets.key with
    | some p => exact .of_same hm ⟨⟨p, hknown, rfl⟩, hensured⟩ rfl
    | none =>
      have hjoin := hm.join hknown
      have honward := Onward.join m assets.key
      have hcell := cellOf_join m assets.key
      have hbusy (i : Nat) (hi : ((m.join assets.key).1.cell i).busy = true) :
          none ≠ some i ∧ (m.cell i).busy = true := ⟨by simp, by rwa [cell_join] at hi⟩
      generalize m.join assets.key = joined at hjoin honward hcell hbusy ⊢
      obtain ⟨n, i⟩ := joined
      have hensured' (key : PairKey) (id : Nat) (he : (key, id) ∈ r.ensured) : n.Has key id :=
        honward.has key id (hensured key id he)
      -- joining moves the market first, and the stage is chosen in the market after it
      refine Moves.after honward hbusy ?_
      have hempty := (hjoin.unfilled _ _ hcell).2.2
      simp only at hempty ⊢
      simp only [hempty]
      cases hfree : (n.cell i).busy with
      | true => exact .of_same hjoin ⟨Or.inl hcell, hensured'⟩ rfl
      | false => exact .occupy hjoin hcell hfree hensured' rfl

/-- Noting a pair that is registered keeps true what was noted. It is done to a refresh whenever it
is through with a pair (`Refresh.ensure`). -/
theorem Fits.ensure {m : Market} {r : Refresh}
    (h : ∀ key id, (key, id) ∈ r.ensured → m.Has key id) {key : PairKey} {p : Loaded}
    (hp : m.Has key p.id) : ∀ k id, (k, id) ∈ (r.ensure key p).ensured → m.Has k id := by
  intro k id he
  rcases List.mem_cons.1 he with heq | he
  · cases heq
    exact hp
  · exact h k id he

/-- Settling is taking the pair out of its cell and going on with the listings (`Market.arrive`,
`Market.advance`). -/
theorem settle_eq (m : Market) (r : Refresh) (i : Nat) (key : PairKey) (p : Loaded) :
    m.settle r i key p =
      (m.arrive i key p).1.advance (r.ensure key (m.arrive i key p).2) r.todo := rfl

/-- Settling a load that has just filled its cell delivers the pair, which is the one registered
then (`Registry.register_new`). -/
theorem settle_fill {m : Market} {i : Nat} {pair : Pair} (r : Refresh)
    (h : m.registry.get? pair.assets.key = none) :
    (m.fill i pair).1.settle r i pair.assets.key (m.fill i pair).2 =
      (m.deliver i pair.assets.key pair).advance
        (r.ensure pair.assets.key ⟨m.loaded.length, pair⟩) r.todo := by
  have hkept : ((m.fill i pair).1.arrive i pair.assets.key (m.fill i pair).2).2 =
      ⟨m.loaded.length, pair⟩ := Registry.register_new h
  rw [settle_eq, hkept]
  rfl

/-- The last reply to a load of an unknown pair delivers it, and the refresh goes on behind its
listing (`settle_fill`). -/
theorem receive_loaded {m : Market} {r : Refresh} {i : Nat} {s : Reading} {query : PairQuery}
    {reply : Outcome Json} {snapshot : Snapshot} (tokens : TokenDirectory) (contract : Addr)
    (hstage : r.stage = .loading i s) (hreceive : s.receive query reply = .ok (.complete snapshot))
    (hnone : m.registry.get? s.assets.key = none) :
    m.receive tokens r (.pool contract query) reply =
      (m.deliver i (loadedPair tokens s snapshot).assets.key
          (loadedPair tokens s snapshot)).advance
        (r.ensure s.assets.key ⟨m.loaded.length, loadedPair tokens s snapshot⟩) r.todo := by
  unfold Market.receive
  simp only [hstage, hreceive]
  exact settle_fill r hnone

/-- A load that has failed gives its cell back, and the refresh ends (`Consistent.release`). -/
theorem Moves.fail_loading {m : Market} {r : Refresh} {i : Nat} {reading : Reading} {fault : Fault}
    (hm : m.Consistent) (hfits : m.Fits r) (hstage : r.stage = .loading i reading) :
    Moves (some i) m (m.release i, r.fail fault) := by
  have hcell : m.CellOf reading.assets.key i := by
    have h := hfits.stage
    rw [hstage] at h
    exact h.1
  have hi := (hm.unfilled _ i hcell).1
  refine ⟨hm.release i, .release m i, ⟨trivial, hfits.ensured⟩, ?_, ?_⟩
  · intro j hj
    cases hj
  · intro j hj
    rw [Market.release, cell_setCell _ hi] at hj
    split at hj
    · cases hj
    · next hij => exact Or.inr ⟨fun heq => hij (Option.some.inj heq), hj⟩

/-- A load that has succeeded delivers its pair, and the refresh goes on: `Consistent.deliver` for
the cell, `Consistent.advance` for the rest. -/
theorem Moves.complete_loading {m : Market} {r : Refresh} {i : Nat} {reading : Reading}
    {pair : Pair} (hm : m.Consistent) (hfits : m.Fits r) (hstage : r.stage = .loading i reading)
    (hassets : pair.assets = reading.assets) :
    Moves (some i) m ((m.fill i pair).1.settle r i reading.assets.key (m.fill i pair).2) := by
  -- the cell is still the one of the name, so the pair has not been registered meanwhile
  have hcell : m.CellOf pair.assets.key i := by
    have h := hfits.stage
    rw [hstage] at h
    exact hassets ▸ h.1
  obtain ⟨hi, hnone, -⟩ := hm.unfilled _ i hcell
  have hnext : ∀ k id, (k, id) ∈ (r.ensure pair.assets.key ⟨m.loaded.length, pair⟩).ensured →
      (m.deliver i pair.assets.key pair).Has k id :=
    Fits.ensure (fun k id he => has_deliver_of_has hnone (hfits.ensured k id he))
      (has_deliver hnone)
  rw [← hassets, settle_fill r hnone]
  refine Moves.after (hm.onward_deliver hcell) (fun j hj => ?_) ((hm.deliver hcell).advance hnext)
  rw [cell_deliver _ _ hi] at hj
  split at hj
  · cases hj
  · next hij => exact ⟨fun heq => hij (Option.some.inj heq), hj⟩

/-- Whatever is replied, the refresh that hears it moves on. By the cases of `Received`, each of
which is one of the moves above. -/
theorem Consistent.receive {m : Market} {r : Refresh} (hm : m.Consistent) (hfits : m.Fits r)
    (tokens : TokenDirectory) (question : Question) (reply : Outcome Json) :
    Moves r.cell? m (m.receive tokens r question reply) := by
  have hreceived := m.received tokens r question reply
  generalize m.receive tokens r question reply = out at hreceived
  cases hreceived with
  | ignored => exact .of_still hm hfits
  | pageFailed stage | page stage | updateFailed stage =>
    rw [Refresh.cell?, stage]
    exact .of_same hm ⟨trivial, hfits.ensured⟩ rfl
  | lastPage stage =>
    rw [Refresh.cell?, stage]
    exact hm.advance hfits.ensured
  | updating stage =>
    have hknown := hfits.stage
    rw [stage] at hknown
    rw [Refresh.cell?, stage]
    exact .of_same hm ⟨hknown, hfits.ensured⟩ rfl
  | updated stage =>
    have hknown := hfits.stage
    rw [stage] at hknown
    rw [Refresh.cell?, stage]
    -- the pair is rewritten, and the refresh goes on from there
    refine Moves.after Onward.updated (fun _ hi => ⟨by simp, hi⟩) (hm.updated.advance ?_)
    refine Fits.ensure (fun k id he => ?_) ((has_updated_iff _ _).2 hknown)
    exact (has_updated_iff k id).2 (hfits.ensured k id he)
  | loadFailed stage =>
    rw [Refresh.cell?, stage]
    exact .fail_loading hm hfits stage
  | @loading i _ _ _ stage waits =>
    have hown := hfits.stage
    rw [stage] at hown
    have hassets := (Reading.samePool_of_receive waits).assets
    rw [Refresh.cell?, stage]
    -- the refresh keeps its cell while it waits for the rest
    refine ⟨hm, .refl _ m, ⟨?_, hfits.ensured⟩, fun j hj => Or.inl hj, fun j hj => ?_⟩
    · exact ⟨hassets ▸ hown.1, hown.2⟩
    · by_cases hij : i = j
      · exact Or.inl (congrArg some hij)
      · exact Or.inr ⟨fun heq => hij (Option.some.inj heq), hj⟩
  | loaded stage =>
    rw [Refresh.cell?, stage]
    exact .complete_loading hm hfits stage rfl

/-- A refresh that looks again at a cell which still stands for its key takes the cell if that is
free. The cell is empty then (`Consistent.unfilled`). -/
theorem Consistent.wake_open {m : Market} {r : Refresh} (hm : m.Consistent) {i : Nat}
    {assets : DenomPair} {contract : Addr} (hstage : r.stage = .queued i assets contract)
    (h : m.CellOf assets.key i) :
    m.wake r = if (m.cell i).busy then (m, r)
      else (m.occupy i, { r with stage := .loading i (.first contract assets) }) := by
  have hempty := (hm.unfilled _ i h).2.2
  unfold Market.wake
  simp only [hstage, hempty]
  cases (m.cell i).busy <;> rfl

/-- A pair that has come out of a cell is registered, and the refresh goes on with it
(`Consistent.arrive_of_delivered`). -/
theorem Consistent.wake_delivered {m : Market} {r : Refresh} (hm : m.Consistent) {i : Nat}
    {assets : DenomPair} {contract : Addr} (hstage : r.stage = .queued i assets contract)
    (h : m.Delivered assets.key i) :
    ∃ known, m.registry.get? assets.key = some known ∧
      m.wake r = m.advance (r.ensure assets.key known) r.todo := by
  obtain ⟨p, hp, hkey, hhas⟩ := h
  obtain ⟨known, hknown, harrive⟩ := hm.arrive_of_delivered hp hkey hhas
  refine ⟨known, hknown, ?_⟩
  unfold Market.wake
  simp only [hstage, hp]
  rw [settle_eq, harrive]

/-- A refresh that looks again at the cell it waits for takes the pair, or the cell if that is free,
or goes on waiting: one lemma for each of the two things `Fits` says of it. -/
theorem Consistent.wake {m : Market} {r : Refresh} (hm : m.Consistent) (hfits : m.Fits r) :
    Moves r.cell? m (m.wake r) := by
  cases hstage : r.stage with
  | queued i assets contract =>
    have hcell : r.cell? = none := by rw [Refresh.cell?, hstage]
    have hwaits := hfits.stage
    rw [hstage] at hwaits
    rw [hcell]
    -- the cell may be free again after a failure, or filled
    rcases hwaits with hopen | hdelivered
    · rw [hm.wake_open hstage hopen]
      cases hbusy : (m.cell i).busy with
      | true => exact .of_same hm hfits hcell
      | false => exact .occupy hm hopen hbusy hfits.ensured rfl
    · obtain ⟨known, hknown, hwake⟩ := hm.wake_delivered hstage hdelivered
      rw [hwake]
      exact hm.advance (Fits.ensure hfits.ensured ⟨known, hknown, rfl⟩)
  | listing | updating | loading | finished =>
    rw [Market.wake, hstage]
    exact .of_still hm hfits

end Market

end PoolMarket
