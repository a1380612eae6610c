import Computantis.Model.Service

/-! @model session | name:Data to be signed, and who asks with it | family:machine |
    source:src/dataprovider/dataprovider.go, src/notaryserver/notary.server.go

    Two endpoints answer only to the owner of an address. The owner first asks for some bytes, signs them and
    sends them back; the provider keeps the bytes for each address until they expire, and a cleaner drops
    those that have. Nobody has to prove anything to be given the bytes, and bytes that were sent back stay.

        Data a ──▶ bytes ──▶ sign ──▶ Waiting ⟨a, bytes, signature⟩ ──▶ provider: still the bytes of a? -/

namespace Computantis

/-! ### The provider -/

/-- What an `int64` makes of a number. -/
def int64 (n : ℤ) : ℤ := n.bmod (2 ^ 64)

/-- The bytes that were given out, and the time until which they count. -/
structure Challenge where
  raw : Bytes
  timestamp : ℤ

/-- `Cache` of the package. -/
structure DataProvider where
  data : Address → Option Challenge
  longevity : ℤ

namespace DataProvider

/-- `New` with the longevity in seconds; none means a minute. -/
def new (longevity : UInt64) : DataProvider where
  data _ := none
  longevity := int64 ((if longevity = 0 then 60 else longevity).toNat * 10 ^ 9)

/-- `clean` goes over the map and deletes what has expired. -/
def clean (p : DataProvider) (now : Time) : DataProvider :=
  { p with data := fun k => (p.data k).filter fun v => !decide (v.timestamp < int64 now) }

/-- `ProvideData`; `buf` is what the random source writes. -/
def provideData (p : DataProvider) (address : Address) (buf : Bytes) (now : Time) : DataProvider × Bytes :=
  ({ p with data := Function.update p.data address (some ⟨buf, int64 (now + p.longevity)⟩) }, buf)

def validateData (p : DataProvider) (address : Address) (data : Bytes) (now : Time) : Bool :=
  match p.data address with
  | none => false
  | some d => if d.timestamp < int64 now then false else decide (data = d.raw)

end DataProvider

/-! ### The server with its provider -/

/-- The signed request that the handler asks the provider about. -/
def Request.challenged : Request → Option SignedHash
  | .waiting req => some req
  | .transactionsInDAG req => some req
  | _ => none

structure Session where
  service : Service
  provider : DataProvider

/-- What happens at the server, and the signatures that owners of addresses make. -/
inductive Session.Event where
  | data (address : Address) (buf : Bytes) (now : Time)
  | clean (now : Time)
  | serve (e : Service.Event)
  | sign (address : Address) (message : Bytes) (now : Time)

/-- What comes back: a data blob, or the response of the server as before. -/
inductive Session.Response where
  | blob (res : Except NotaryError Bytes)
  | served (r : Computantis.Response)
  deriving DecidableEq

namespace Session

/-- A server that starts. -/
def fresh (service : Service) (longevity : UInt64) : Session := ⟨service, .new longevity⟩

/-- `Data`. -/
def giveOut (s : Session) (address : Address) (buf : Bytes) (now : Time) : Session × Except NotaryError Bytes :=
  if address = [] then (s, .error .errRequestIsEmpty)
  else
    let (provider, d) := s.provider.provideData address buf now
    ({ s with provider }, .ok d)

/-- The circumstances of a request, with the provider's word on its data. -/
def informed (s : Session) (r : Request) (w : Circumstance) : Circumstance :=
  { w with dataValid := r.challenged.all fun req => s.provider.validateData req.address req.data w.now }

/-- One event; nothing of a process that is gone goes on. -/
def step (env : ServerEnv) (s : Session) : Session.Event → Session × Session.Response
  | .data address buf now =>
    if s.service.down then (s, .served .lost)
    else
      let (s, res) := s.giveOut address buf now
      (s, .blob res)
  | .clean now =>
    (if s.service.down then s else { s with provider := s.provider.clean now }, .served .none)
  | .serve (.request r w) =>
    let (service, res) := s.service.step env (.request r (s.informed r w))
    ({ s with service }, .served res)
  | .serve e =>
    let (service, res) := s.service.step env e
    ({ s with service }, .served res)
  | .sign _ _ _ => (s, .served .none)

end Session

end Computantis
