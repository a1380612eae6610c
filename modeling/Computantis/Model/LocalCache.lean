import Computantis.Model.Vertex
import Computantis.Schemes.Catalogue

/-! @model localcache | name:The local cache of transactions | family:store | source:src/localcache/local.cache.go

    Transactions that wait for their receivers are kept under their hashes, and the hashes under the addresses of
    issuers and receivers. Maps are walked in an order of their own, which is an argument of the reads. -/

namespace Computantis

open Schemes

structure LocalCacheConfig where
  maxLen : ℤ

structure TransactionCache where
  trxs : Table Hash Transaction
  issuerTrxs : Catalogue Address Hash
  receiverTrxs : Catalogue Address Hash
  maxLen : ℤ

inductive LocalCacheError where
  | errNotAllowReoccurringHash (hash : Hash)
  | maxSizeReached (maxLen : ℤ)
  | issuerHasNoTransaction (address : Address)
  | receiverHasNoTransaction (address : Address)
  | errUnexpected (address : Address) (hash : Hash)
  deriving DecidableEq

namespace TransactionCache

def newTransactionCache (cfg : LocalCacheConfig) : TransactionCache where
  trxs := ∅
  issuerTrxs := ∅
  receiverTrxs := ∅
  maxLen := if cfg.maxLen < 1000 then 1000 else cfg.maxLen

def writeIssuerSignedTransactionForReceiver (c : TransactionCache) (trx : Transaction) :
    TransactionCache × Except LocalCacheError Unit :=
  match c.trxs.lookup trx.hash with
  | some _ => (c, .error (.errNotAllowReoccurringHash trx.hash))
  | none =>
    if (c.trxs.keys.length : ℤ) = c.maxLen then (c, .error (.maxSizeReached c.maxLen))
    else
      ({ c with
          trxs := c.trxs.insert trx.hash trx
          issuerTrxs := c.issuerTrxs.enter trx.issuerAddress trx.hash
          receiverTrxs := c.receiverTrxs.enter trx.receiverAddress trx.hash }, .ok ())

/-- The loop of both reads. -/
def readHashes (trxs : Table Hash Transaction) (address : Address) :
    List Hash → List Transaction → Except LocalCacheError (List Transaction)
  | [], read => .ok read
  | hash :: rest, read =>
    match trxs.lookup hash with
    | none => .error (.errUnexpected address hash)
    | some trx => readHashes trxs address rest (read ++ [trx])

/-- The reads differ in the index and in the error for an address that is not there. -/
def readAwaiting (c : TransactionCache) (index : Catalogue Address Hash) (missing : Address → LocalCacheError)
    (order : List Hash) (address : Address) : Except LocalCacheError (List Transaction) :=
  match index.lookup address with
  | none => .error (missing address)
  | some hashes => readHashes c.trxs address (enumerate order hashes.keys) []

def readAwaitingTransactionsByReceiver (c : TransactionCache) (order : List Hash) (address : Address) :
    Except LocalCacheError (List Transaction) :=
  c.readAwaiting c.receiverTrxs .receiverHasNoTransaction order address

def readAwaitingTransactionsByIssuer (c : TransactionCache) (order : List Hash) (address : Address) :
    Except LocalCacheError (List Transaction) :=
  c.readAwaiting c.issuerTrxs .issuerHasNoTransaction order address

/-- One round of the loop of `CleanSignedTransactions`. Only the hash of the given transaction is used: what is
    cleaned is what is kept under it. -/
def clean (c : TransactionCache) (trx : Transaction) : TransactionCache :=
  match c.trxs.lookup trx.hash with
  | none => c
  | some trx =>
    { c with
        issuerTrxs := c.issuerTrxs.withdraw trx.issuerAddress trx.hash
        receiverTrxs := c.receiverTrxs.withdraw trx.receiverAddress trx.hash
        trxs := c.trxs.erase trx.hash }

def cleanSignedTransactions (c : TransactionCache) (trxs : List Transaction) : TransactionCache :=
  trxs.foldl clean c

end TransactionCache

end Computantis
