import PoolMarket.Proofs.Market.PoolReading
import PoolMarket.Proofs.Market.Watch

/-!
# Refreshes that come to an end

`Settles` says that a refresh ends whatever the order of the replies to it, and what holds then,
while the chain and all other refreshes stand still. A refresh settles through the reading of a pool
if it does so from the completed reading on: `settled_reading`, by induction on `Reading.left`.
-/

namespace PoolMarket

open Chain (Ledger Pool)

namespace Watch

/-- However the replies to a refresh are ordered, it ends, and `P` holds then. A refresh that has
not ended asks something, and may be replied to any of its questions next. -/
inductive Settles (task : Nat) (P : Watch → Prop) : Watch → Prop where
  | finished {w : Watch} {r : Refresh} (there : w.tasks.refreshes[task]? = some r)
      (ended : r.result?.isSome = true) (holds : P w) : Settles task P w
  | waiting {w : Watch} {r : Refresh} (there : w.tasks.refreshes[task]? = some r)
      (asks : Market.questions r ≠ [])
      (replies : ∀ question ∈ Market.questions r, ∀ tokens,
        Settles task P (w.step (.ask task tokens question))) : Settles task P w

/-- A refresh settles among any others. -/
def Settled (task : Nat) (P : Watch → Prop) (l : Ledger) (m : Market) (r : Refresh) : Prop :=
  ∀ refreshes : List Refresh, refreshes[task]? = some r → Settles task P ⟨l, m, refreshes⟩

section Settled

variable {task : Nat} {P : Watch → Prop} {l : Ledger} {m : Market} {r : Refresh}

/-- A refresh that asks is replied to by the chain as it is, and no other refresh acts
(`Watch.step`). -/
theorem step_ask {refreshes : List Refresh} (hr : refreshes[task]? = some r) {question : Question}
    (hasked : question ∈ Market.questions r) (tokens : TokenDirectory) :
    Watch.step ⟨l, m, refreshes⟩ (.ask task tokens question) =
      ⟨l.count (m.addressee question),
        (m.receive tokens r question (l.answer (m.addressee question) (m.message question))).1,
        refreshes.set task (m.receive tokens r question
          (l.answer (m.addressee question) (m.message question))).2⟩ := by
  unfold Watch.step
  simp only [Interleaving.step, Interleaving.act, hr, Interleaving.hear, if_pos hasked]

/-- A refresh settles if it does so after whichever reply comes next: `Settles.waiting`, wherever
the refresh stands among others (`step_ask`). -/
theorem settled_of_replies (asks : Market.questions r ≠ [])
    (h : ∀ question ∈ Market.questions r, ∀ tokens,
      Settled task P (l.count (m.addressee question))
        (m.receive tokens r question (l.answer (m.addressee question) (m.message question))).1
        (m.receive tokens r question (l.answer (m.addressee question) (m.message question))).2) :
    Settled task P l m r := by
  intro refreshes hr
  refine .waiting hr asks fun question hasked tokens => ?_
  rw [step_ask hr hasked]
  refine h question hasked tokens _ ?_
  have htask : task < refreshes.length := (List.getElem?_eq_some_iff.1 hr).1
  rw [List.getElem?_set_self htask]

theorem settled_of_finished (ended : r.result?.isSome = true)
    (holds : ∀ refreshes : List Refresh, refreshes[task]? = some r → P ⟨l, m, refreshes⟩) :
    Settled task P l m r :=
  fun refreshes hr => .finished hr ended (holds refreshes hr)

end Settled

end Watch

namespace Chain.Ledger

theorem Still.refl (l : Ledger) : l.Still l := ⟨rfl, rfl, rfl, rfl, rfl⟩

/-- A chain that stands still can be read still: its pools and its listing are the same, and no
contract has begun to fail (`Effect.still`). -/
theorem Ready.still {l n : Ledger} (h : l.Ready) (hn : l.Still n) : n.Ready := by
  obtain ⟨hcoherent, hvalidated, hanswering⟩ := h
  refine ⟨hcoherent.effect (.still hn.factory hn.router hn.pools hn.listing), ?_, ?_⟩
  · unfold Validated
    rw [hn.pools]
    exact hvalidated
  · unfold Answering taken
    rw [hn.pools, hn.factory, hn.router, hn.failing]
    exact hanswering

end Chain.Ledger

namespace Watch

section Reading

variable {task : Nat} {P : Watch → Prop} {l : Ledger} {m : Market} {r : Refresh} {contract : Addr}
  {p : Pool}

/-- A refresh that reads a pool, in a stage that holds the reading, comes to where the reading is
complete. The induction is on the replies that are still to come: `OfPool.receive` says that each
makes them fewer or completes the reading. It is for both stages that read, of a known pair and of
an unknown one, so what a stage does with a reply is a hypothesis. -/
theorem settled_reading (stage : Reading → Refresh.Stage) (hl : l.Ready)
    (hp : l.pools[contract]? = some p)
    (hquestions : ∀ s, Market.questions { r with stage := stage s } =
      s.questions.map (.pool s.contract))
    (hwaiting : ∀ s t query reply tokens, s.receive query reply = .ok (.waiting t) →
      m.receive tokens { r with stage := stage s } (.pool s.contract query) reply =
        (m, { r with stage := stage t }))
    (hcomplete : ∀ n s query reply tokens, l.Still n → s.OfPool contract p →
      s.receive query reply = .ok (.complete p.snapshot) →
      Settled task P n
        (m.receive tokens { r with stage := stage s } (.pool s.contract query) reply).1
        (m.receive tokens { r with stage := stage s } (.pool s.contract query) reply).2)
    {n : Ledger} (hn : l.Still n) {reading : Reading} (hreading : reading.OfPool contract p) :
    Settled task P n m { r with stage := stage reading } := by
  -- on the replies still to come, of which every one that is heard takes away one
  induction hleft : reading.left using Nat.strongRecOn generalizing n reading with
  | ind left ih =>
    refine settled_of_replies ?_ ?_
    · rw [hquestions]
      exact fun h => hreading.asks (List.map_eq_nil_iff.1 h)
    · intro question hasked tokens
      rw [hquestions] at hasked
      obtain ⟨query, hquery, rfl⟩ := List.mem_map.1 hasked
      have hthere : n.pools[contract]? = some p := by rw [hn.pools, hp]
      have hcount := hn.count reading.contract
      have hreceive := hreading.receive (hl.still hn) hthere hquery
      rw [← hreading.contract] at hreceive
      rcases hreceive with ⟨t, ht, hofPool, hlt⟩ | hdone
      · -- the reading goes on, with fewer replies to come
        have hstep : m.receive tokens { r with stage := stage reading }
            (.pool reading.contract query) (n.answer (m.addressee (.pool reading.contract query))
              (m.message (.pool reading.contract query))) = (m, { r with stage := stage t }) :=
          hwaiting reading t query _ tokens ht
        rw [hstep]
        rw [hreading.contract] at hofPool
        exact ih t.left (hleft ▸ hlt) hcount hofPool rfl
      · exact hcomplete _ reading query _ tokens hcount hreading hdone

end Reading

end Watch

end PoolMarket
