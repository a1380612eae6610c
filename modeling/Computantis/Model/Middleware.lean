import Computantis.Model.Service
import Computantis.Model.Urls

/-! @model middleware | name:Signed requests of clients, and the webhooks server | family:data |
    source:src/walletmiddleware/wallet.middleware.go, src/gossip/gossip.go, src/webhooksserver/webhooks.server.go,
    src/webhooks/webhooks.go

    Every operation of a client that proves who asks sends one kind of message: an address, some data, the
    digest of the data and a signature of it. The operations differ in what the data is. Beside the notary the
    webhooks server takes such messages; a hook is a URL under the address that asked for it. What a node
    answers is checked by the client before it is returned. -/

namespace Computantis

/-! ### Operations -/

/-- The operations that send a signed request, with what they are called with; the blob is what the server
    has given out to be signed. The last one is of a node that lacks a parent. -/
inductive Operation where
  | rejectTransactions (hash : Hash)
  | readWaitingTransactions (blob : Bytes)
  | readDAGTransactions (blob : Bytes)
  | readSavedTransaction (hash : Hash)
  | readBalance
  | createWebhook (clientURL : Bytes)
  | processLackingParent (hash : Hash)
  deriving DecidableEq

/-- The endpoints that take a signed request. -/
inductive Endpoint where
  | reject | waiting | transactionsInDAG | saved | balance | webhooks | getVertex
  deriving DecidableEq

namespace Operation

/-- The endpoint that the operation is meant for. -/
def endpoint : Operation → Endpoint
  | .rejectTransactions _ => .reject
  | .readWaitingTransactions _ => .waiting
  | .readDAGTransactions _ => .transactionsInDAG
  | .readSavedTransaction _ => .saved
  | .readBalance => .balance
  | .createWebhook _ => .webhooks
  | .processLackingParent _ => .getVertex

/-- What is signed. -/
def data (address : Address) : Operation → Bytes
  | .rejectTransactions hash => hash.bytes
  | .readWaitingTransactions blob => blob
  | .readDAGTransactions blob => blob
  | .readSavedTransaction hash => hash.bytes
  | .readBalance => address
  | .createWebhook clientURL => clientURL
  | .processLackingParent hash => hash.bytes

/-- The message that the operation sends. -/
def signedHash (w : Signer) (op : Operation) : SignedHash :=
  let data := op.data w.address
  let signed := w.sign data
  { address := w.address, data, hash := signed.1.bytes, signature := signed.2 }

end Operation

/-! ### Answers -/

/-- The client of a wallet; it is ready when it has one. -/
structure WalletClient where
  ready : Bool
  w : Signer
  verifier : Verifier

inductive WalletClientError where
  | errWalletNotReady
  /-- The call of the node fails. -/
  | call
  | wire (e : WireError)
  | notVerified
  deriving DecidableEq, Repr

namespace WalletClient

/-- `ReadSavedTransaction`; `saved` is what the node makes of the request, `none` for a call that fails. -/
def readSavedTransaction (c : WalletClient) (saved : SignedHash → Option (Option ProtoTransaction))
    (hash : Hash) : Except WalletClientError Transaction :=
  if c.ready = false then .error .errWalletNotReady
  else
    match saved ((Operation.readSavedTransaction hash).signedHash c.w) with
    | none => .error .call
    | some protoTrx =>
      match protoTrxToTrx protoTrx with
      | .error e => .error (.wire e)
      | .ok trx =>
        let verdict :=
          match decide (trx.receiverAddress ≠ []) with
          | true => trx.checkIssuer c.verifier
          | false => trx.checkIssuerReceiver c.verifier
        match verdict with
        | .accepted => .ok trx
        | .refused => .error .notVerified
        | .panicked => .error (.wire .panicked)

end WalletClient

/-! ### Webhooks -/

/-- The hooks for new transactions, the only trigger there is. -/
abbrev Hooks := AList fun _ : Address => Bytes

inductive WebhooksError where
  | errNotAuthorized
  | errProcessingFailure
  | wire (e : WireError)
  deriving DecidableEq, Repr

def Hooks.webhooks (v : Verifier) (hooks : Hooks) (req : SignedHash) : Hooks × Except WebhooksError Unit :=
  match req.signed v with
  | .error e => (hooks, .error (.wire e))
  | .ok false => (hooks, .error .errNotAuthorized)
  | .ok true =>
    if Url.parse req.data = false then (hooks, .error .errProcessingFailure)
    else (hooks.insert req.address req.data, .ok ())

end Computantis
