import Computantis.Laws.Assumptions
import Computantis.Laws.Loading

/-! @law retry | name:Loading a second time | family:error | about:Model/Stream

    `LoadDag` maps the transactions and adds the vertices of a stream as they arrive and takes nothing
    back when it cancels. A stream that a new book accepts is accepted later, with the same graph,
    exactly by the books that have no vertex left and have mapped none of its transactions. A load that
    was cancelled after the first vertex leaves both behind, and a restart keeps the mappings. -/

namespace Computantis

open Schemes

/-- The two graphs have the same vertices and the same edges. -/
structure SameGraph (d d' : Dag) : Prop where
  get : ∀ k, d.getVertex k = d'.getVertex k
  arc : ∀ x y, d.graph.Arc x y ↔ d'.graph.Arc x y

/-- RETRY: a stream that a new book accepts is accepted with the same graph exactly when the book has
    no vertices and none of the transactions is mapped. -/
theorem load_retry_iff {n : UInt64} {st : List (Option Vertex)} {first : LoadSchedule} {fresh : Book}
    (haccept : (newAccountingBook n).loadDag first st = (fresh, none)) {b : Book}
    (hb : b.dagLoaded = false) {retry : LoadSchedule} (hstores : ∀ k, retry.saveFails k = false) :
    ((b.loadDag retry st).2 = none ∧ SameGraph (b.loadDag retry st).1.dag fresh.dag) ↔
      (∀ k, b.dag.getVertex k = none) ∧
        ∀ v ∈ delivered st, b.trxsToVertxDB.lookup v.transaction.hash = none := by
  have hl := loadable_of_loadDag (newAccountingBook_getVertex n) haccept
  constructor
  · rintro ⟨hnone, hsame⟩
    have hload : b.loadDag retry st = ((b.loadDag retry st).1, none) := Prod.ext rfl hnone
    obtain ⟨hunseen, -⟩ := loadDag_ok hload
    refine ⟨fun k => ?_, hunseen.newTrx⟩
    -- a vertex left behind would be in the new graph, where only streamed vertices are
    rw [Option.eq_none_iff_forall_ne_some]
    intro u hu
    have hstay := (loadDag_getVertex hload k u).mpr (Or.inl hu)
    rw [hsame.get, hl.get] at hstay
    obtain ⟨hmem, rfl⟩ := hstay
    exact hunseen.newHash u hmem (Dag.mem_nodes hu)
  · rintro ⟨hempty, hnew⟩
    obtain ⟨b', hload, hget, harc, -⟩ := hl.loadDag hb hempty hnew hstores
    rw [hload]
    exact ⟨rfl, hget, harc⟩

theorem loadDag_save_fails {b : Book} (hb : b.dagLoaded = false) {sched : LoadSchedule} {v : Vertex}
    (hfails : sched.saveFails v.transaction.hash = true) (rest : List (Option Vertex)) :
    b.loadDag sched (some v :: rest) =
      ({ b.updateWeightAndThroughput initialThroughput with throughput := initialThroughput },
        some [.errLeafRejected]) := by
  simp [Book.loadDag, Book.loadLocked, Book.loadVertices, Book.saveTrxInVertex, hb, hfails]

namespace Transparent

/-- A vertex below the genesis vertex. -/
def child : Vertex := sealed (trx (wallet 7) (wallet 8) ⟨4, 0⟩ [] 3) (root 10) (root 10) 1 4

/-- A genesis vertex and its child, and the genesis vertex with a grandchild whose parent is missing. -/
def goodStream : List (Option Vertex) := [some (root 10), some child]
def badStream : List (Option Vertex) :=
  [some (root 10), some (sealed (trx (wallet 8) (wallet 9) ⟨1, 0⟩ [] 5) child child 2 6)]

/-- Working stores, enumerations as they come. -/
def loadCalm : LoadSchedule := ⟨[], [], fun _ => false⟩

/-- A new book loads the good stream. -/
def freshLoad : Book × Option Err := (newAccountingBook 0).loadDag loadCalm goodStream

/-- A new book is cancelled, on the bad stream or because its first save fails. -/
def badLoad : Book × Option Err := (newAccountingBook 0).loadDag loadCalm badStream
def failedLoad : Book × Option Err := (newAccountingBook 0).loadDag ⟨[], [], fun _ => true⟩ goodStream

end Transparent

open Transparent in
/-- A new book accepts the stream; a book that was cancelled on a bad stream refuses it, and so does a
    node that is restarted on its own databases. -/
theorem retry_refused :
    freshLoad.2 = none ∧ badLoad.2 = some [.dag] ∧ badLoad.1.dagLoaded = false ∧
      (badLoad.1.loadDag loadCalm goodStream).2 = some [.errLeafRejected] ∧
      (freshLoad.1.restarted 0).dagLoaded = false ∧ (freshLoad.1.restarted 0).dag.graph.nodes.keys = [] ∧
      ((freshLoad.1.restarted 0).loadDag loadCalm goodStream).2 = some [.errLeafRejected] := by
  decide +kernel

open Transparent in
/-- The law at a book whose first load was cancelled by a store before anything was written. -/
theorem retry_accepted : failedLoad.2 = some [.errLeafRejected] ∧
    (failedLoad.1.loadDag loadCalm goodStream).2 = none ∧
    SameGraph (failedLoad.1.loadDag loadCalm goodStream).1.dag freshLoad.1.dag := by
  have hnone : freshLoad.2 = none := by decide +kernel
  have haccept : freshLoad = (freshLoad.1, none) := by rw [← hnone]
  have hcancel : failedLoad = _ := loadDag_save_fails rfl rfl _
  rw [hcancel]
  exact ⟨rfl, (@load_retry_iff 0 goodStream loadCalm freshLoad.1 haccept _ rfl loadCalm fun _ => rfl).mpr
    ⟨newAccountingBook_getVertex 0, fun v _ => AList.lookup_empty _⟩⟩

end Computantis
