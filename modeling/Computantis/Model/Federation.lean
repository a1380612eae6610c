import Computantis.Model.Node
import Computantis.Model.Wire

/-! @model federation | name:Nodes that join each other | family:machine | source:src/gossip/gossip.go

    A node starts with a genesis vertex of its own, or it asks another node for its graph. The other node
    streams its vertices as messages, each sent again until a send succeeds or `totalRetries` have failed,
    and the new node loads what arrives. From then on both take calls.

        founded ─┐
                 ├─▶ member ──called──▶ member
        joined ──┘      └──stream──▶ joined -/

namespace Computantis

open Schemes

/-! ### Serving the graph -/

/-- How often `LoadDag` tries to send one vertex. -/
def totalRetries : ℕ := 10

/-- The send loop for one vertex, with `left` tries left: the number of sends of the stream so far, and
    whether the vertex is sent. `fails n` is what comes of the `n`-th send of the stream. -/
def sendLoop (fails : ℕ → Bool) : ℕ → ℕ → ℕ × Bool
  | 0, n => (n, false)
  | left + 1, n => if fails n then sendLoop fails left (n + 1) else (n + 1, true)

/-- `LoadDag` of the gossiper from the `n`-th send on: the messages that are sent, and whether it
    returns an error. -/
def serveDag (fails : ℕ → Bool) : ℕ → List Vertex → List ProtoVertex × Bool
  | _, [] => ([], false)
  | n, vrx :: rest =>
    match sendLoop fails totalRetries n with
    | (_, false) => ([], true)
    | (n, true) =>
      let served := serveDag fails n rest
      (mapAccountantVertexToProtoVertex vrx :: served.1, served.2)

/-- The receiving loop of `updateDag`: what it hands on. A message that cannot be mapped ends the process. -/
def receiveDag : List ProtoVertex → List (Option Vertex)
  | [] => []
  | vg :: rest => match mapProtoVertexToAccountantVertex vg with
    | .error _ => []
    | .ok vrx => some vrx :: receiveDag rest

/-! ### The federation -/

/-- What its nodes have in common, and whom they sign as. -/
structure Federation where
  verifier : Verifier
  codec : Codec
  signers : Set Signer

/-- What a node is built with. -/
def Federation.env (fed : Federation) (signer : Signer) : Env := ⟨fed.verifier, signer, fed.codec⟩

/-- A state that a node can be in, with the genesis vertex that its graph goes back to. Nodes take any
    calls that meet the condition `P`, in any order, and any part of a member's stream may arrive. -/
inductive Member (fed : Federation) (G : Vertex → Prop) (P : Env → Node → Event → Prop) :
    Signer → Vertex → Node → Prop
  | founded {signer : Signer} {n : UInt64} {spec : Book.GenesisSpec} {s : Node} {g : Vertex}
      (mem : signer ∈ fed.signers) (made : Node.genesis (fed.env signer) n spec = some (s, g)) (good : G g) :
      Member fed G P signer g s
  | joined {signer other : Signer} {g : Vertex} {s : Node} (mem : signer ∈ fed.signers)
      (source : Member fed G P other g s) (sched : StreamSchedule) (fails : ℕ → Bool) (arrived : ℕ)
      {n : UInt64} {load : LoadSchedule} {book : Book}
      (loaded : (newAccountingBook n).loadDag load
        (receiveDag ((serveDag fails 0 (s.book.dag.stream sched)).1.take arrived)) = (book, none)) :
      Member fed G P signer g ⟨book, []⟩
  | called {signer : Signer} {g : Vertex} {s : Node} (before : Member fed G P signer g s) {e : Event}
      (meets : P (fed.env signer) s e) : Member fed G P signer g (s.step (fed.env signer) e)

/-! ### The wire -/

/-- The transaction with its time cut to a word. -/
def Transaction.wired (t : Transaction) : Transaction :=
  { t with createdAt := timeOfNano (unixNano t.createdAt) }

/-- The vertex with its times cut to a word. -/
def Vertex.wired (v : Vertex) : Vertex :=
  { v with createdAt := timeOfNano (unixNano v.createdAt), transaction := v.transaction.wired }

theorem Vertex.crosses_wired (v : Vertex) :
    mapProtoVertexToAccountantVertex (mapAccountantVertexToProtoVertex v) = .ok v.wired := by
  simp only [mapProtoVertexToAccountantVertex, mapAccountantVertexToProtoVertex, Transaction.ofProto,
    Transaction.toProto, Hash.ofSlice_bytes, Melange.ofProto_toProto]
  rfl

theorem unixNano_timeOfNano (n : UInt64) : unixNano (timeOfNano n) = n := by
  have hlt := n.toNat_lt
  have hmod : (timeOfNano n % 2 ^ 64).toNat = n.toNat := by
    rw [timeOfNano]
    split_ifs with h
    · omega
    · rw [Int.sub_emod_right]
      omega
  rw [unixNano, hmod, UInt64.ofNat_toNat]

section Wired

variable (v : Vertex)

@[simp] theorem Vertex.wired_hash : v.wired.hash = v.hash := rfl
@[simp] theorem Vertex.wired_leftParentHash : v.wired.leftParentHash = v.leftParentHash := rfl
@[simp] theorem Vertex.wired_rightParentHash : v.wired.rightParentHash = v.rightParentHash := rfl
@[simp] theorem Vertex.wired_weight : v.wired.weight = v.weight := rfl
@[simp] theorem Vertex.wired_signerPublicAddress : v.wired.signerPublicAddress = v.signerPublicAddress := rfl
@[simp] theorem Vertex.wired_trx_hash : v.wired.transaction.hash = v.transaction.hash := rfl
@[simp] theorem Vertex.wired_trx_issuer :
    v.wired.transaction.issuerAddress = v.transaction.issuerAddress := rfl
@[simp] theorem Vertex.wired_trx_isEmpty : v.wired.transaction.isEmpty = v.transaction.isEmpty := rfl

@[simp] theorem Vertex.wired_initData : v.wired.initData = v.initData := by
  simp [Vertex.initData, Vertex.wired, Transaction.wired, unixNano_timeOfNano]

end Wired

/-! ### What arrives -/

theorem receiveDag_map (vs : List Vertex) :
    receiveDag (vs.map mapAccountantVertexToProtoVertex) = (vs.map Vertex.wired).map some := by
  induction vs with
  | nil => rfl
  | cons v vs ih => simp only [List.map_cons, receiveDag, Vertex.crosses_wired, ih]

theorem serveDag_sends (fails : ℕ → Bool) : ∀ (vs : List Vertex) (n : ℕ), ∃ k,
    (serveDag fails n vs).1 = (vs.take k).map mapAccountantVertexToProtoVertex ∧
      ((serveDag fails n vs).2 = false → vs.take k = vs)
  | [], n => ⟨0, rfl, fun _ => rfl⟩
  | v :: vs, n => by
    rw [serveDag]
    split
    · exact ⟨0, rfl, fun h => by cases h⟩
    next m _ =>
      obtain ⟨k, hsent, hall⟩ := serveDag_sends fails vs m
      refine ⟨k + 1, ?_, fun h => ?_⟩
      · rw [List.take_succ_cons, List.map_cons]
        exact congrArg (_ :: ·) hsent
      · rw [List.take_succ_cons, hall h]

theorem sendLoop_sends {fails : ℕ → Bool} : ∀ {left n : ℕ}, (∃ i < left, fails (n + i) = false) →
    ∃ m, sendLoop fails left n = (m, true)
  | 0, n, ⟨i, hi, _⟩ => absurd hi (Nat.not_lt_zero i)
  | left + 1, n, ⟨i, hi, hok⟩ => by
    rw [sendLoop]
    split
    next hfail =>
      cases i with
      | zero => rw [Nat.add_zero, hfail] at hok; cases hok
      | succ i => exact sendLoop_sends ⟨i, by omega, by rw [Nat.add_right_comm]; exact hok⟩
    · exact ⟨_, rfl⟩

theorem serveDag_all {fails : ℕ → Bool} (hretry : ∀ n, ∃ i < totalRetries, fails (n + i) = false) :
    ∀ (vs : List Vertex) (n : ℕ), serveDag fails n vs = (vs.map mapAccountantVertexToProtoVertex, false)
  | [], _ => rfl
  | v :: vs, n => by
    obtain ⟨m, hm⟩ := sendLoop_sends (hretry n)
    rw [serveDag, hm]
    simp only [serveDag_all hretry vs m, List.map_cons]

theorem receiveDag_serveDag (fails : ℕ → Bool) (vs : List Vertex) (arrived : ℕ) : ∃ k,
    receiveDag ((serveDag fails 0 vs).1.take arrived) = ((vs.take k).map Vertex.wired).map some := by
  obtain ⟨k, hsent, -⟩ := serveDag_sends fails vs 0
  refine ⟨min arrived k, ?_⟩
  rw [hsent, ← List.map_take, List.take_take, receiveDag_map]

end Computantis
