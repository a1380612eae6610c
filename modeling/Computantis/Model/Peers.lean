import Computantis.Model.Gossip

/-! @model peers | name:The table of connected nodes | family:state | source:src/gossip/gossip.go

    A node keeps the nodes that it is connected to in a map from addresses to connections. `Announce` and
    `Discover` take the signed connection data of another node and put it there; `Discover` answers with the
    whole table. They differ in when they dial.

        Announce:  verify ──▶ lock ──▶ drop the old entry ──▶ dial ──▶ new entry
        Discover:  verify ──▶ dial ──▶ lock ──▶ drop the old entry ──▶ new entry ──▶ answer

    All that a handler does to the map is done under one lock, so handlers that overlap act one after the
    other. -/

namespace Computantis

open Schemes

structure ConnectionData where
  publicAddress : Address
  url : Bytes
  createdAt : UInt64
  digest : Bytes
  signature : Bytes
  deriving DecidableEq

/-- The bytes that connection data is signed over. -/
def initConnectionData (publicAddress url : Bytes) (createdAt : UInt64) : Bytes :=
  publicAddress ++ url ++ le64 createdAt

def validateSignature (v : Verifier) (sigAddr pubAddr url : Bytes) (createdAt : UInt64) (signature : Bytes)
    (hash : Hash) : Verdict :=
  v.check (initConnectionData pubAddr url createdAt) signature hash sigAddr

/-- The check in front of both handlers; the digest is made an array. -/
def ConnectionData.validate (v : Verifier) (cd : ConnectionData) : Except WireError Bool :=
  match Hash.ofSlice cd.digest with
  | .error e => .error e
  | .ok digest =>
    (validateSignature v cd.publicAddress cd.publicAddress cd.url cd.createdAt cd.signature digest).returned

inductive PeerError where
  | errDiscoveryAttemptSignatureFailed
  | dialFailed
  | wire (e : WireError)
  deriving DecidableEq, Repr

inductive PeerReply where
  | empty
  | connectedNodes (signerPublicAddress : Address) (connections : List ConnectionData)
  deriving DecidableEq

/-- The node itself: who it is and where it listens. -/
structure PeerEnv where
  verifier : Verifier
  signer : Signer
  url : Bytes

/-- A request, and what it meets: whether dialling succeeds, the clock, and the order of the map. -/
inductive PeerRequest where
  | announce (cd : ConnectionData) (dials : Bool)
  | discover (cd : ConnectionData) (dials : Bool) (now : UInt64) (order : List Address)
  deriving DecidableEq

namespace PeerRequest

def data : PeerRequest → ConnectionData
  | announce cd _ => cd
  | discover cd _ _ _ => cd

def dials : PeerRequest → Bool
  | announce _ dials => dials
  | discover _ dials _ _ => dials

def isAnnounce : PeerRequest → Bool
  | announce .. => true
  | discover .. => false

end PeerRequest

/-- The map from addresses to the URLs that are dialled. -/
abbrev NodesMap := AList fun _ : Address => Bytes

/-- The map, whether the process has stopped, and a record of the requests that were processed with success,
    latest first, that no handler reads. -/
structure PeerTable where
  nodes : NodesMap
  processed : List ConnectionData
  down : Bool

namespace PeerTable

variable (env : PeerEnv) (s : PeerTable)

/-- The table of a new node. -/
def fresh : PeerTable := ⟨∅, [], false⟩

/-- What one node tells about a node. -/
def connection (now : UInt64) (address url : Bytes) : ConnectionData :=
  let signed := env.signer.sign (initConnectionData address url now)
  ⟨address, url, now, signed.1.bytes, signed.2⟩

/-- The answer of `Discover`: the node itself, then its table. -/
def connectedNodes (now : UInt64) (order : List Address) : PeerReply :=
  .connectedNodes env.signer.address (connection env now env.signer.address env.url ::
    (enumerate order s.nodes.keys).filterMap fun a => (s.nodes.lookup a).map (connection env now a))

/-- The new entry. -/
def enter (cd : ConnectionData) : PeerTable :=
  { s with nodes := s.nodes.insert cd.publicAddress cd.url, processed := cd :: s.processed }

/-- The entry of the address is closed and taken out. -/
def drop (a : Address) : PeerTable := { s with nodes := s.nodes.erase a }

def announce (cd : ConnectionData) (dials : Bool) : PeerTable × Except PeerError PeerReply :=
  match cd.validate env.verifier with
  | .error e => (s, .error (.wire e))
  | .ok false => (s, .error .errDiscoveryAttemptSignatureFailed)
  | .ok true =>
    let s := s.drop cd.publicAddress
    -- the old entry is gone when dialling fails
    if dials then (s.enter cd, .ok .empty) else (s, .error .dialFailed)

def discover (cd : ConnectionData) (dials : Bool) (now : UInt64) (order : List Address) :
    PeerTable × Except PeerError PeerReply :=
  match cd.validate env.verifier with
  | .error e => (s, .error (.wire e))
  | .ok false => (s, .error .errDiscoveryAttemptSignatureFailed)
  | .ok true =>
    if dials then
      let s := (s.drop cd.publicAddress).enter cd
      (s, .ok (s.connectedNodes env now order))
    else (s, .error .dialFailed)

def handle : PeerRequest → PeerTable × Except PeerError PeerReply
  | .announce cd dials => s.announce env cd dials
  | .discover cd dials now order => s.discover env cd dials now order

/-- A handler in its process; a panic ends it. -/
def step (r : PeerRequest) : PeerTable :=
  if s.down then s
  else match s.handle env r with
    | (s, .error (.wire .panicked)) => { s with down := true }
    | (s, _) => s

end PeerTable

end Computantis
