import Mathlib.Data.List.InsertIdx
import PoolMarket.Proofs.Market.GivingUp
import PoolMarket.Proofs.Market.Idle

/-!
# Markets that cannot be told apart

Which cell a key has does not show, nor does a cell that no refresh is at. Two runs that agree in
all else go on alike, whatever comes next. So a load that has failed leaves no trace, although the
cell that it was meant for stays behind.

* `Market.Alike`, `Interleaving.Alike` — agreement in all but the numbers of cells; `Stage.Alike` is
  the same for one stage, as an inductive predicate with one constructor for each.
* `Alike.advance`, `Alike.receive`, `Alike.wake` — the same step on both sides ends alike. They use
  of the two markets only that they are `Consistent`.
* `Idle.alike_after` — where nothing is being loaded, all cells may be forgotten.
-/

namespace PoolMarket

/-! ## What can be told of a run

`sight` and `cleared` leave out the numbers of cells and the cells themselves. What has to be kept
of the cells is whether a key is being loaded, since a refresh then waits. -/

/-- All of a stage but the number of the cell. -/
def Refresh.Stage.sight : Refresh.Stage → Refresh.Stage
  | .loading _ reading => .loading 0 reading
  | .queued _ assets contract => .queued 0 assets contract
  | stage => stage

/-- All of a refresh but the number of its cell. -/
def Refresh.sight (r : Refresh) : Refresh := { r with stage := r.stage.sight }

namespace Market

/-- The pairs of a market without any record of loads. -/
def cleared (m : Market) : Market := { m with inFlight := ∅, cells := #[] }

/-- A refresh is at the cell of the key. -/
def loading (m : Market) (key : PairKey) : Bool :=
  (m.inFlight[key]?.map fun i => (m.cell i).busy).getD false

/-- The markets differ in the cells of their keys at most, and in cells that no refresh is at. -/
structure Alike (m n : Market) : Prop where
  cleared : n.cleared = m.cleared
  loading : ∀ key, n.loading key = m.loading key

end Market

/-- The runs cannot be told apart. -/
structure Interleaving.Alike (s t : Interleaving) : Prop where
  market : s.market.Alike t.market
  refreshes : t.refreshes.map Refresh.sight = s.refreshes.map Refresh.sight

/-! ## Refreshes

-/

namespace Refresh

/-- The stages agree in all but the number of the cell. -/
inductive Stage.Alike : Stage → Stage → Prop where
  | listing (after : Option (Both String)) : Alike (.listing after) (.listing after)
  | updating (key : PairKey) (known : Loaded) (reading : Reading) :
      Alike (.updating key known reading) (.updating key known reading)
  | loading (i j : Nat) (reading : Reading) : Alike (.loading i reading) (.loading j reading)
  | queued (i j : Nat) (assets : DenomPair) (contract : Addr) :
      Alike (.queued i assets contract) (.queued j assets contract)
  | finished (result : Outcome Nat) : Alike (.finished result) (.finished result)

/-- Stages that look alike agree in all but the number of their cell; this turns an equation into
cases. It stands for `Refresh.sight` in all that follows. -/
theorem Stage.alike_of_sight {s t : Stage} (h : t.sight = s.sight) : s.Alike t := by
  cases s <;> cases t <;> cases h <;> constructor

/-- Refreshes that look alike wait for the same replies (`Stage.alike_of_sight`). -/
theorem questions_of_sight {r t : Refresh} (h : t.sight = r.sight) :
    Market.questions t = Market.questions r := by
  obtain ⟨_, _, _, s⟩ := r
  obtain ⟨_, _, _, s'⟩ := t
  cases Stage.alike_of_sight (congrArg Refresh.stage h) <;> rfl

end Refresh

/-! ## What is being loaded

`loading` is followed through the operations on a market. It only sees the cells that stand for
a key, and on a consistent market no two keys have one cell, so each operation changes it at one
key. -/

namespace Market

variable {m n : Market} {r t : Refresh} {key : PairKey} {i j : Nat}

theorem loading_of_cellOf (h : m.CellOf key i) : m.loading key = (m.cell i).busy := by
  rw [loading, h]
  rfl

/-- Joining starts nothing: the new cell is free, as it was before it was there
(`cell_of_size_le`). -/
theorem loading_join (m : Market) (key k : PairKey) : (m.join key).1.loading k = m.loading k := by
  cases h : m.inFlight[key]? with
  | some i => rw [join_of_cellOf h]
  | none =>
    simp only [loading, cell_join]
    simp only [join_of_none h, Std.TreeMap.getElem?_insert, Std.compare_eq_iff_eq]
    split
    · next hk =>
      -- the new cell is free, as it was before it was there
      subst hk
      rw [h, Option.map_some, cell_of_size_le (Nat.le_refl _)]
      rfl
    · rfl

/-- And it changes nothing but the record of loads (`Market.cleared`). -/
theorem cleared_join (m : Market) (key : PairKey) : (m.join key).1.cleared = m.cleared := by
  unfold join
  cases m.inFlight[key]? <;> rfl

/-- Taking a cell or giving it back shows at its own key and at no other
(`Consistent.injective`). -/
theorem Consistent.loading_setBusy (hm : m.Consistent) (hi : m.CellOf key i) (busy : Bool)
    (k : PairKey) :
    (m.setCell i { m.cell i with busy }).loading k = if key = k then busy else m.loading k := by
  have hcell := cell_setCell { m.cell i with busy } (hm.unfilled key i hi).1
  cases hk : m.inFlight[k]? with
  | none =>
    have hkey : key ≠ k := by
      rintro rfl
      rw [CellOf, hk] at hi
      cases hi
    rw [if_neg hkey, loading, loading]
    simp only [setCell, hk, Option.map_none]
  | some j =>
    have hset : (m.setCell i { m.cell i with busy }).CellOf k j := hk
    rw [loading_of_cellOf hset, loading_of_cellOf (m := m) hk, hcell]
    -- two names never share a cell, so the other names keep theirs
    by_cases hkey : key = k
    · rw [if_pos hkey, if_pos (Option.some.inj ((hkey ▸ hi).symm.trans hk))]
    · rw [if_neg hkey, if_neg]
      rintro rfl
      exact hkey (hm.injective _ _ _ hi hk)

/-- The key that was delivered is not being loaded any more, and the others are as they were
(`cellOf_deliver_iff`). -/
theorem Consistent.loading_deliver (hm : m.Consistent) {pair : Pair}
    (hi : m.CellOf pair.assets.key i) (k : PairKey) :
    (m.deliver i pair.assets.key pair).loading k =
      if pair.assets.key = k then false else m.loading k := by
  have hcell := cell_deliver m pair (hm.unfilled _ i hi).1 pair.assets.key
  -- the delivered name leaves the flight, the cells of the others are not touched
  by_cases hkey : pair.assets.key = k
  · rw [if_pos hkey, loading]
    cases hk : (m.deliver i pair.assets.key pair).inFlight[k]? with
    | none => rfl
    | some j => exact absurd hkey ((cellOf_deliver_iff hi k j).1 hk).1
  · rw [if_neg hkey]
    cases hk : m.inFlight[k]? with
    | none =>
      cases hk' : (m.deliver i pair.assets.key pair).inFlight[k]? with
      | none => simp only [loading, hk, hk', Option.map_none]
      | some j =>
        have hthere : m.inFlight[k]? = some j := ((cellOf_deliver_iff hi k j).1 hk').2
        rw [hk] at hthere
        cases hthere
    | some j =>
      rw [loading_of_cellOf ((cellOf_deliver_iff hi k j).2 ⟨hkey, hk⟩), loading_of_cellOf hk,
        hcell, if_neg]
      rintro rfl
      exact hkey (hm.injective _ _ _ hi hk)

/-! ## Markets

Fields that show are equal, and each operation, done on both sides, keeps the two alike. Where it
is done to a cell, that has to be the cell of one key in either market. -/

namespace Alike

theorem registry (h : m.Alike n) : n.registry = m.registry := by
  show n.cleared.registry = m.cleared.registry
  rw [h.cleared]

theorem loaded (h : m.Alike n) : n.loaded = m.loaded := by
  show n.cleared.loaded = m.cleared.loaded
  rw [h.cleared]

theorem factory (h : m.Alike n) : n.factory = m.factory := by
  show n.cleared.factory = m.cleared.factory
  rw [h.cleared]

theorem pageSize (h : m.Alike n) : n.pageSize = m.pageSize := by
  show n.cleared.pageSize = m.cleared.pageSize
  rw [h.cleared]

/-- Joining on both sides keeps the two alike (`loading_join`). -/
theorem join (h : m.Alike n) (key : PairKey) : (m.join key).1.Alike (n.join key).1 where
  cleared := by rw [cleared_join, cleared_join, h.cleared]
  loading k := by rw [loading_join, loading_join, h.loading]

/-- So does taking the cell of a key, or giving it back (`Consistent.loading_setBusy`). -/
theorem setBusy (h : m.Alike n) (hm : m.Consistent) (hn : n.Consistent) (hi : m.CellOf key i)
    (hj : n.CellOf key j) (busy : Bool) :
    (m.setCell i { m.cell i with busy }).Alike (n.setCell j { n.cell j with busy }) where
  cleared := h.cleared
  loading k := by rw [hm.loading_setBusy hi, hn.loading_setBusy hj, h.loading]

/-- So does another snapshot of one pair (`Market.updated`), on both sides. -/
theorem updated (h : m.Alike n) (key : PairKey) (p : Loaded) (snapshot : Snapshot) :
    (m.updated key p snapshot).Alike (n.updated key p snapshot) where
  cleared := by
    show (n.cleared.updated key p snapshot).cleared = (m.cleared.updated key p snapshot).cleared
    rw [h.cleared]
  loading := h.loading

/-- So does delivering a pair, which gets the same number on both sides as `loaded` agrees. -/
theorem deliver (h : m.Alike n) (hm : m.Consistent) (hn : n.Consistent) {pair : Pair}
    (hi : m.CellOf pair.assets.key i) (hj : n.CellOf pair.assets.key j) :
    (m.deliver i pair.assets.key pair).Alike (n.deliver j pair.assets.key pair) where
  cleared := by
    show (n.cleared.deliver 0 pair.assets.key pair).cleared =
      (m.cleared.deliver 0 pair.assets.key pair).cleared
    rw [h.cleared]
  loading k := by rw [hm.loading_deliver hi, hn.loading_deliver hj, h.loading]

end Alike

/-! ## A step of a refresh

Each of the functions by which a refresh acts, run on two markets that are alike with refreshes
that look alike. Only what `Fits` guarantees is used of the cells: that of one key is at hand on
both sides. -/

/-- What two refreshes have come to, each on its own market. -/
structure AlikeOut (out out' : Market × Refresh) : Prop where
  market : out.1.Alike out'.1
  refresh : out'.2.sight = out.2.sight

/-- Going through the listings ends alike: whether a key is known and whether it is being loaded
agree on both sides, and these decide. By the recursion of `Market.advance`. -/
theorem Alike.advance (h : m.Alike n) (hm : m.Consistent) (hn : n.Consistent)
    (hfound : t.found = r.found) (hensured : t.ensured = r.ensured)
    (todo : List (DenomPair × Addr)) : AlikeOut (m.advance r todo) (n.advance t todo) := by
  obtain ⟨found, todo₁, ensured, stage⟩ := r
  obtain ⟨_, todo₂, _, stage'⟩ := t
  cases hfound
  cases hensured
  cases todo with
  | nil =>
    rw [Market.advance, Market.advance]
    exact ⟨h, rfl⟩
  | cons e rest =>
    rw [Market.advance, Market.advance]
    -- a known pair is left alone; for an unknown one both markets join the cell of its name
    cases hknown : m.registry.get? e.1.key with
    | some p =>
      rw [h.registry, hknown]
      exact ⟨h, rfl⟩
    | none =>
      have hknown' : n.registry.get? e.1.key = none := by rw [h.registry, hknown]
      have hi := cellOf_join m e.1.key
      have hj := cellOf_join n e.1.key
      have hempty := ((hm.join hknown).unfilled _ _ hi).2.2
      have hempty' := ((hn.join hknown').unfilled _ _ hj).2.2
      have hbusy : ((n.join e.1.key).1.cell (n.join e.1.key).2).busy =
          ((m.join e.1.key).1.cell (m.join e.1.key).2).busy := by
        rw [← loading_of_cellOf hi, ← loading_of_cellOf hj, (h.join e.1.key).loading]
      simp only [hknown', hempty, hempty', hbusy]
      cases ((m.join e.1.key).1.cell (m.join e.1.key).2).busy with
      | true => exact ⟨h.join e.1.key, rfl⟩
      | false =>
        exact ⟨(h.join e.1.key).setBusy (hm.join hknown) (hn.join hknown') hi hj true, rfl⟩

/-- So does settling a load that has succeeded (`settle_fill`, `Alike.deliver`). -/
theorem Alike.fill_settle (h : m.Alike n) (hm : m.Consistent) (hn : n.Consistent)
    (hfound : t.found = r.found) (htodo : t.todo = r.todo) (hensured : t.ensured = r.ensured)
    (pair : Pair) (hi : m.CellOf pair.assets.key i) (hj : n.CellOf pair.assets.key j) :
    AlikeOut ((m.fill i pair).1.settle r i pair.assets.key (m.fill i pair).2)
      ((n.fill j pair).1.settle t j pair.assets.key (n.fill j pair).2) := by
  rw [settle_fill r (hm.unfilled _ i hi).2.1, settle_fill t (hn.unfilled _ j hj).2.1, htodo]
  refine (h.deliver hm hn hi hj).advance (hm.deliver hi) (hn.deliver hj) ?_ ?_ r.todo
  · exact hfound
  · rw [Refresh.ensure, Refresh.ensure, hensured, h.loaded]

/-- Whatever is replied to both. By the stage, in which both agree (`Stage.alike_of_sight`), and
then by what a reading makes of the reply, which is the same on both sides. -/
theorem Alike.receive (h : m.Alike n) (hrt : t.sight = r.sight) (hm : m.Consistent)
    (hn : n.Consistent) (hr : m.Fits r) (ht : n.Fits t) (tokens : TokenDirectory)
    (question : Question) (reply : Outcome Json) :
    AlikeOut (m.receive tokens r question reply) (n.receive tokens t question reply) := by
  obtain ⟨found, todo, ensured, stage⟩ := r
  obtain ⟨_, _, _, stage'⟩ := t
  cases congrArg Refresh.found hrt
  cases congrArg Refresh.todo hrt
  cases congrArg Refresh.ensured hrt
  -- equal sights are at the same stage, and the cells they name may differ
  cases Refresh.Stage.alike_of_sight (congrArg Refresh.stage hrt) with
  | listing after =>
    cases question with
    | pool contract query => exact ⟨h, rfl⟩
    | page behind =>
      unfold Market.receive
      simp only
      unfold receivePage
      rw [h.factory, h.pageSize]
      cases (Inquiry.page m.factory after m.pageSize).conclude reply with
      | error fault => exact ⟨h, rfl⟩
      | ok page =>
        simp only
        cases readPage page with
        | error fault => exact ⟨h, rfl⟩
        | ok listings =>
          cases page.getLast? with
          | some last => exact ⟨h, rfl⟩
          | none => exact h.advance hm hn rfl rfl _
  | updating key known reading =>
    cases question with
    | page behind => exact ⟨h, rfl⟩
    | pool contract query =>
      unfold Market.receive
      simp only
      cases reading.receive query reply with
      | error fault => exact ⟨h, rfl⟩
      | ok progress =>
        cases progress with
        | waiting reading' => exact ⟨h, rfl⟩
        | complete snapshot =>
          exact (h.updated key known snapshot).advance hm.updated hn.updated rfl rfl _
  | loading i j reading =>
    have hi : m.CellOf reading.assets.key i := hr.stage.1
    have hj : n.CellOf reading.assets.key j := ht.stage.1
    cases question with
    | page behind => exact ⟨h, rfl⟩
    | pool contract query =>
      unfold Market.receive
      simp only
      cases reading.receive query reply with
      | error fault => exact ⟨h.setBusy hm hn hi hj false, rfl⟩
      | ok progress =>
        cases progress with
        | waiting reading' => exact ⟨h, rfl⟩
        | complete snapshot =>
          refine h.fill_settle hm hn ?_ ?_ ?_ (loadedPair tokens reading snapshot) hi hj <;> rfl
  | queued i j assets contract => exact ⟨h, rfl⟩
  | finished result => exact ⟨h, rfl⟩

/-- Looking again at a cell ends alike: the cells of both refreshes still stand for the key, or the
pair is registered (`wake_open`, `wake_delivered`). -/
theorem Alike.wake (h : m.Alike n) (hrt : t.sight = r.sight) (hm : m.Consistent)
    (hn : n.Consistent) (hr : m.Fits r) (ht : n.Fits t) :
    AlikeOut (m.wake r) (n.wake t) := by
  obtain ⟨found, todo, ensured, stage⟩ := r
  obtain ⟨_, _, _, stage'⟩ := t
  cases congrArg Refresh.found hrt
  cases congrArg Refresh.todo hrt
  cases congrArg Refresh.ensured hrt
  cases Refresh.Stage.alike_of_sight (congrArg Refresh.stage hrt) with
  | queued i j assets contract =>
    -- the cell is still being filled or was delivered, and the two markets cannot differ in that
    rcases hr.stage with hi | hi <;> rcases ht.stage with hj | hj
    · rw [hm.wake_open rfl hi, hn.wake_open rfl hj, ← loading_of_cellOf hi,
        ← loading_of_cellOf hj, h.loading]
      split
      · exact ⟨h, rfl⟩
      · exact ⟨h.setBusy hm hn hi hj true, rfl⟩
    · -- a name with a pair in the registry has no cell that is still being filled
      obtain ⟨-, -, -, known, hknown, -⟩ := hj
      rw [h.registry, (hm.unfilled _ i hi).2.1] at hknown
      cases hknown
    · obtain ⟨-, -, -, known, hknown, -⟩ := hi
      rw [← h.registry, (hn.unfilled _ j hj).2.1] at hknown
      cases hknown
    · obtain ⟨known, hknown, hwake⟩ := hm.wake_delivered
        (r := ⟨found, todo, ensured, .queued i assets contract⟩) rfl hi
      obtain ⟨known', hknown', hwake'⟩ := hn.wake_delivered
        (r := ⟨found, todo, ensured, .queued j assets contract⟩) rfl hj
      rw [h.registry, hknown, Option.some.injEq] at hknown'
      subst hknown'
      rw [hwake, hwake']
      refine h.advance hm hn ?_ ?_ todo <;> rfl
  | listing => exact ⟨h, hrt⟩
  | updating => exact ⟨h, hrt⟩
  | loading => exact ⟨h, hrt⟩
  | finished => exact ⟨h, hrt⟩

/-- A reply that one of them did not ask for is not asked for by the other
(`questions_of_sight`). -/
theorem Alike.hear (h : m.Alike n) (hrt : t.sight = r.sight) (hm : m.Consistent)
    (hn : n.Consistent) (hr : m.Fits r) (ht : n.Fits t) (tokens : TokenDirectory)
    (question : Question) (reply : Outcome Json) :
    AlikeOut (Interleaving.hear tokens question reply m r)
      (Interleaving.hear tokens question reply n t) := by
  unfold Interleaving.hear
  rw [Refresh.questions_of_sight hrt]
  split
  · exact h.receive hrt hm hn hr ht tokens question reply
  · exact ⟨h, hrt⟩

/-- Dropping both leaves the markets alike (`Alike.setBusy`). -/
theorem Alike.without (h : m.Alike n) (hrt : t.sight = r.sight) (hm : m.Consistent)
    (hn : n.Consistent) (hr : m.Fits r) (ht : n.Fits t) : (m.without r).Alike (n.without t) := by
  obtain ⟨found, todo, ensured, stage⟩ := r
  obtain ⟨_, _, _, stage'⟩ := t
  cases Refresh.Stage.alike_of_sight (congrArg Refresh.stage hrt) with
  | loading i j reading => exact h.setBusy hm hn hr.stage.1 ht.stage.1 false
  | listing => exact h
  | updating => exact h
  | queued => exact h
  | finished => exact h

end Market

/-! ## Every run

The lists of refreshes agree place by place, so what happens to a place happens to both. -/

namespace Interleaving

variable {s t : Interleaving}

theorem Alike.sight_getElem? (h : s.Alike t) (task : Nat) :
    t.refreshes[task]?.map Refresh.sight = s.refreshes[task]?.map Refresh.sight := by
  rw [← List.getElem?_map, ← List.getElem?_map, h.refreshes]

/-- One refresh acts in either run. What it sees is the same, so `Alike.hear` or `Alike.wake`
applies. -/
theorem Alike.act (h : s.Alike t) (task : Nat) {f : Market → Refresh → Market × Refresh}
    (hf : ∀ r u, s.refreshes[task]? = some r → t.refreshes[task]? = some u → u.sight = r.sight →
      Market.AlikeOut (f s.market r) (f t.market u)) : (s.act task f).Alike (t.act task f) := by
  have hsight := h.sight_getElem? task
  unfold Interleaving.act
  cases hr : s.refreshes[task]? with
  | none =>
    rw [hr, Option.map_none, Option.map_eq_none_iff] at hsight
    rw [hsight]
    exact h
  | some r =>
    rw [hr, Option.map_some, Option.map_eq_some_iff] at hsight
    obtain ⟨u, hu, hru⟩ := hsight
    rw [hu]
    have hout := hf r u hr hu hru
    refine ⟨hout.market, ?_⟩
    rw [List.map_set, List.map_set, h.refreshes, hout.refresh]

/-- One is dropped in either run (`Alike.without`). -/
theorem Alike.drop (h : s.Alike t) (hs : s.Sound) (ht : t.Sound) (task : Nat) :
    (s.drop task).Alike (t.drop task) := by
  have hsight := h.sight_getElem? task
  unfold Interleaving.drop
  cases hr : s.refreshes[task]? with
  | none =>
    rw [hr, Option.map_none, Option.map_eq_none_iff] at hsight
    rw [hsight]
    exact h
  | some r =>
    rw [hr, Option.map_some, Option.map_eq_some_iff] at hsight
    obtain ⟨u, hu, hru⟩ := hsight
    rw [hu]
    refine ⟨h.market.without hru hs.consistent ht.consistent (hs.fits task r hr)
      (ht.fits task u hu), ?_⟩
    rw [← List.eraseIdx_map, ← List.eraseIdx_map, h.refreshes]

/-- Whatever happens next happens alike (`Alike.act` for events, `Alike.drop` else). -/
theorem Alike.happen (h : s.Alike t) (hs : s.Sound) (ht : t.Sound) (happening : Happening) :
    (s.happen happening).Alike (t.happen happening) := by
  cases happening with
  | drop task => exact h.drop hs ht task
  | event e =>
    cases e with
    | start =>
      refine ⟨h.market, ?_⟩
      show (t.refreshes ++ [Refresh.start]).map Refresh.sight = _
      rw [List.map_append, h.refreshes, ← List.map_append]
      rfl
    | reply task tokens question reply =>
      exact h.act task fun r u hr hu hru => h.market.hear hru hs.consistent ht.consistent
        (hs.fits task r hr) (ht.fits task u hu) tokens question reply
    | wake task =>
      exact h.act task fun r u hr hu hru => h.market.wake hru hs.consistent ht.consistent
        (hs.fits task r hr) (ht.fits task u hu)

/-- What cannot be told apart goes on alike. By induction on what happens, with the invariant
`Sound` kept along on both sides. -/
theorem Alike.after (h : s.Alike t) (hs : s.Sound) (ht : t.Sound) (happenings : List Happening) :
    (s.after happenings).Alike (t.after happenings) := by
  induction happenings generalizing s t with
  | nil => exact h
  | cons happening rest ih =>
    exact ih (h.happen hs ht happening) (hs.happen happening) (ht.happen happening)

end Interleaving

/-! ## Loads that have failed

In an idle market no cell is busy, so `loading` is false at every key, as it is where there are no
cells. -/

namespace Market

variable {m : Market}

/-- Without its cells the market is idle too. It has no busy cell (`cell_of_size_le`). -/
theorem Idle.cleared (h : m.Idle) : m.cleared.Idle := by
  have hfree (key : PairKey) (i : Nat) : ¬ m.cleared.CellOf key i := by
    intro hcell
    rw [CellOf, Market.cleared, Std.TreeMap.getElem?_emptyc] at hcell
    cases hcell
  obtain ⟨⟨hkeyed, hregistered, hknown, hdistinct, hnumbered, -, -⟩, -⟩ := h
  refine ⟨⟨hkeyed, hregistered, hknown, hdistinct, hnumbered,
    fun key i hi => absurd hi (hfree key i), fun key _ i hi => absurd hi (hfree key i)⟩, fun i => ?_⟩
  rw [cell_of_size_le (Nat.zero_le i)]

/-- A cell that no refresh is at has no part in what is seen of a market. None is loading, by
`Idle`. -/
theorem Idle.alike_cleared (h : m.Idle) : m.Alike m.cleared := by
  have hnone (n : Market) (hn : n.Idle) (key : PairKey) : n.loading key = false := by
    unfold Market.loading
    cases n.inFlight[key]? with
    | none => rfl
    | some i => exact hn.free i
  refine ⟨rfl, fun key => ?_⟩
  rw [hnone _ h.cleared, hnone _ h]

/-- Whatever comes after loads that have failed, it is as if they had not been tried (`Alike.after`
on the two markets). -/
theorem Idle.alike_after (h : m.Idle) (happenings : List Interleaving.Happening) :
    ((Interleaving.mk m []).after happenings).Alike
      ((Interleaving.mk m.cleared []).after happenings) := by
  have hstart : (Interleaving.mk m []).Alike (Interleaving.mk m.cleared []) :=
    ⟨h.alike_cleared, rfl⟩
  exact hstart.after h.sound h.cleared.sound happenings

end Market

end PoolMarket
