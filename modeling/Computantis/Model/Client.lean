import Computantis.Model.Wallet
import Computantis.Schemes.CString

/-! @model client | name:The client written in C | family:data |
    source:src_c/client-node/address/address.c, base58.c, src_c/client-node/transaction/transaction.c,
    src_c/client-node/signature/signature.c

    The C client writes and reads addresses and signs transactions with code of its own. A pointer to characters is the
    memory behind it (`Bytes`), of which a string function sees what stands before the first zero byte.
    Allocations and the digest are taken to succeed; `exit(1)` ends the client. -/

namespace Computantis.Client

open Schemes Schemes.CString

/-! ### Base 58 -/

/-- Digits of the characters below 128, and -1. -/
def b58digitsMap : List ℤ :=
  [-1,-1,-1,-1,-1,-1,-1,-1, -1,-1,-1,-1,-1,-1,-1,-1,
   -1,-1,-1,-1,-1,-1,-1,-1, -1,-1,-1,-1,-1,-1,-1,-1,
   -1,-1,-1,-1,-1,-1,-1,-1, -1,-1,-1,-1,-1,-1,-1,-1,
   -1, 0, 1, 2, 3, 4, 5, 6,  7, 8,-1,-1,-1,-1,-1,-1,
   -1, 9,10,11,12,13,14,15, 16,-1,17,18,19,20,21,-1,
   22,23,24,25,26,27,28,29, 30,31,32,-1,-1,-1,-1,-1,
   -1,33,34,35,36,37,38,39, 40,41,42,43,-1,44,45,46,
   47,48,49,50,51,52,53,54, 55,56,57,-1,-1,-1,-1,-1]

/-- The digit of a character: the two checks in front of the multiplication. -/
def b58digit (c : UInt8) : Option UInt32 :=
  if c &&& 0x80 ≠ 0 then none
  else
    let d := b58digitsMap.getD c.toNat (-1)
    if d = -1 then none else some (UInt32.ofNat d.toNat)

/-- The inner loop: the words times 58 plus the digit, from the last word to the first, and the carry. -/
def mulAdd58 (c : UInt32) : List UInt32 → List UInt32 × UInt32
  | [] => ([], c)
  | w :: ws =>
    let r := mulAdd58 c ws
    let t : UInt64 := w.toUInt64 * 58 + r.2.toUInt64
    ((t &&& 0xffffffff).toUInt32 :: r.1, (t >>> 32).toUInt32)

/-- One character of the outer loop; `none` for a number that is too big. -/
def pushDigit (zeromask : UInt32) (outi : List UInt32) (d : UInt32) : Option (List UInt32) :=
  let r := mulAdd58 d outi
  if r.2 ≠ 0 then none
  else if r.1.headD 0 &&& zeromask ≠ 0 then none
  else some r.1

/-- The outer loop. -/
def readDigits (zeromask : UInt32) : Bytes → List UInt32 → Option (List UInt32)
  | [], outi => some outi
  | c :: rest, outi =>
    match b58digit c with
    | none => none
    | some d =>
      match pushDigit zeromask outi d with
      | none => none
      | some outi => readDigits zeromask rest outi

/-- The `n` low bytes of a word, the highest first. -/
def wordBytes (n : ℕ) (w : UInt32) : Bytes :=
  (List.range n).map fun i => ((w >>> UInt32.ofNat (8 * (n - 1 - i))) &&& 0xff).toUInt8

/-- `b58tobin` into a buffer of `binsz` bytes: the bytes, and the size that it reports. Leading ones are
    counted and added to that size, they are not written. -/
def b58tobin (binsz : ℕ) (b58 : Bytes) : Option (Bytes × ℕ) :=
  let outisz := (binsz + 3) / 4
  let bytesleft := binsz % 4
  let zeromask : UInt32 := if bytesleft = 0 then 0 else 0xffffffff <<< UInt32.ofNat (8 * bytesleft)
  let zerocount := UInt32.ofNat (b58.takeWhile (· = 49)).length
  match readDigits zeromask (b58.dropWhile (· = 49)) (List.replicate outisz 0) with
  | none => none
  | some outi =>
    let bin :=
      if bytesleft = 0 then outi.flatMap (wordBytes 4)
      else wordBytes bytesleft (outi.headD 0) ++ outi.tail.flatMap (wordBytes 4)
    some (bin, binsz - (bin.takeWhile (· = 0)).length + zerocount.toNat)

/-- The characters of the digits. -/
def b58digitsOrdered : Bytes :=
  ['1', '2', '3', '4', '5', '6', '7', '8', '9', 'A', 'B', 'C', 'D', 'E', 'F', 'G', 'H', 'J', 'K', 'L',
   'M', 'N', 'P', 'Q', 'R', 'S', 'T', 'U', 'V', 'W', 'X', 'Y', 'Z', 'a', 'b', 'c', 'd', 'e', 'f', 'g',
   'h', 'i', 'j', 'k', 'm', 'n', 'o', 'p', 'q', 'r', 's', 't', 'u', 'v', 'w', 'x', 'y', 'z'].map
    fun c => UInt8.ofNat c.toNat

/-- The inner loop of `b58enc`: the digits times 256 plus the carry, from position `j` towards the first. It
    leaves off below the mark `high` once nothing is carried, or behind the first position; the result is the
    buffer and the position where it left off. The carry is an `int` and stays below `2 ^ 14`. -/
def mulAdd256 (high : ℕ) : (j carry : ℕ) → (buf : Bytes) → Bytes × ℕ
  | j, carry, buf =>
    if j > high ∨ carry ≠ 0 then
      let carry := carry + 256 * (buf.getD j 0).toNat
      let buf := buf.set j (UInt8.ofNat (carry % 58))
      match j with
      | 0 => (buf, 0)
      | j + 1 => mulAdd256 high j (carry / 58) buf
    else (buf, j)

/-- The outer loop of `b58enc`: where the inner loop left off is the next mark. -/
def writeDigits (size : ℕ) : (bin : Bytes) → (high : ℕ) → (buf : Bytes) → Bytes
  | [], _, buf => buf
  | b :: bin, high, buf =>
    let r := mulAdd256 high (size - 1) b.toNat buf
    writeDigits size bin r.2 r.1

/-- `b58enc` into a buffer of `b58sz` characters: the string with its zero byte, or the size that it needs. -/
def b58enc (b58sz : ℕ) (bin : Bytes) : Except ℕ Bytes :=
  let zcount := (bin.takeWhile (· = 0)).length
  let size := (bin.length - zcount) * 138 / 100 + 1
  let buf := writeDigits size (bin.drop zcount) (size - 1) (List.replicate size 0)
  let j := (buf.takeWhile (· = 0)).length
  if b58sz ≤ zcount + size - j then .error (zcount + size - j + 1)
  else .ok (List.replicate zcount 49 ++ (buf.drop j).map (fun d => b58digitsOrdered.getD d.toNat 0) ++ [0])

/-! ### Addresses -/

def publicKeyLen : ℕ := 32
def checksumLen : ℕ := 4
def addressLen : ℕ := 56
def decodedLen : ℕ := publicKeyLen + checksumLen + 1

/-- `encode_address_from_raw` on a key of `len` bytes; `none` where the process exits. -/
def encodeAddressFromRaw (crypto : Crypto) (walletVersion : UInt8) (raw : Bytes) (len : ℕ) : Option Bytes :=
  if len ≠ publicKeyLen then none
  else
    let versioned := walletVersion :: raw.take publicKeyLen
    let actualChecksum := Wallet.checksum crypto versioned
    match b58enc addressLen (versioned ++ actualChecksum) with
    | .error _ => none
    | .ok b58 => some b58

/-- How `decode_address_to_raw` ends: the process is gone, or it returns an `int` and what `*raw` then
    points to. -/
inductive Decoding where
  | exited
  | returned (len : UInt32) (raw : Option Bytes)
  deriving DecidableEq

def decodeAddressToRaw (crypto : Crypto) (walletVersion : UInt8) (str : Bytes) : Decoding :=
  match b58tobin decodedLen (contents str) with
  | none => .exited
  | some (decoded, len) =>
    let actualChecksum := (decoded.drop (1 + publicKeyLen)).take checksumLen
    if decoded.headD 0 ≠ walletVersion then .returned 0 none
    else
      let raw := (decoded.drop 1).take publicKeyLen
      let targetChecksum := Wallet.checksum crypto (walletVersion :: raw)
      if strncmpEq checksumLen actualChecksum targetChecksum = false then .returned 0 none
      else .returned (UInt32.ofNat len) (some raw)

/-- The address is decoded to the key: the result is not zero. -/
def Decodes (crypto : Crypto) (walletVersion : UInt8) (str key : Bytes) : Prop :=
  ∃ len, len ≠ 0 ∧ decodeAddressToRaw crypto walletVersion str = .returned len (some key)

/-! ### Signatures -/

def digestLen : ℕ := 32

/-- What was signed, and the signature. -/
structure Signature where
  digestBuffer : Bytes
  signatureBuffer : Bytes

def digestCmp (a b : Bytes) : Bool := (List.range digestLen).all fun i => a.getD i 0 == b.getD i 0

/-- `Signature_verify` with a raw public key; `none` where the process exits. -/
def signatureVerify (crypto : Crypto) (sig : Signature) (pkey msg : Bytes) (msgLen : ℕ) : Option Bool :=
  if sig.signatureBuffer.length = 0 then none
  else if sig.digestBuffer.length = 0 then none
  else
    let msgLen := if msgLen ≤ 0 then strlen msg else msgLen
    if msgLen = 0 then none
    else
      let digest := crypto.sum256 (msg.take msgLen)
      if digestCmp digest.bytes sig.digestBuffer = false then some false
      else some (crypto.verify pkey sig.digestBuffer sig.signatureBuffer)

/-! ### Transactions -/

/-- `struct timeval`. -/
structure Timeval where
  tvSec : ℤ
  tvUsec : ℤ

/-- The bytes of the word from the highest to the lowest, whatever the name says. -/
def convertToCharArrayLittleEndian (a : UInt64) : Bytes :=
  (List.range 8).map fun i => ((a >>> UInt64.ofNat (56 - 8 * i)) &&& 0xff).toUInt8

/-- The time that is signed: seconds and microseconds added up. -/
def Timeval.msTime (now : Timeval) : UInt64 := UInt64.ofNat ((now.tvSec + now.tvUsec) % 2 ^ 64).toNat

/-- The instant in nanoseconds. -/
def Timeval.instant (now : Timeval) : Time := now.tvSec * 10 ^ 9 + now.tvUsec * 10 ^ 3

/-- The buffer that `Transaction_new` passes to `Signer_sign`: all of it is written by `strncpy`. -/
def signedBuffer (subject data issuerAddress receiverAddress : Bytes) (now : Timeval) : Bytes :=
  let ts := convertToCharArrayLittleEndian now.msTime
  strncpy subject (strlen subject) ++ strncpy data (strlen data) ++
    strncpy issuerAddress (strlen issuerAddress) ++ strncpy receiverAddress (strlen receiverAddress) ++
    strncpy ts 8

def signatureLen : ℕ := 64

/-- What `Transaction_new` returns. Signature and digest are copied by `strncpy` as well. -/
structure Transaction where
  createdAt : Timeval
  issuerAddress : Bytes
  receiverAddress : Bytes
  subject : Bytes
  data : Bytes
  issuerSignature : Bytes
  hash : Hash

/-- The digest as `strncpy` copies it. -/
def copiedHash (h : Hash) : Hash := ⟨strncpy h.bytes 32, strncpy_length h.bytes 32⟩

/-- `Transaction_new` at time `now`; `none` where the process exits. The address of the signer is the one
    that `encode_address_from_raw` makes of its public key. -/
def transactionNew (subject data receiverAddress : Bytes) (s : Signer) (now : Timeval) : Option Transaction :=
  if strlen receiverAddress = 0 ∨ strlen subject = 0 ∨ strlen data = 0 ∨ strlen s.address = 0 then none
  else
    let signature := s.sign (signedBuffer subject data s.address receiverAddress now)
    if signature.2.length ≠ signatureLen then none
    else some
      { createdAt := now
        issuerAddress := strncpy s.address (strlen s.address)
        receiverAddress := strncpy receiverAddress (strlen receiverAddress)
        subject := strncpy subject (strlen subject)
        data := strncpy data (strlen data)
        issuerSignature := strncpy signature.2 signatureLen
        hash := copiedHash signature.1 }

/-- The transaction as a node gets it: the same fields, the instant of its creation and no spice. -/
def Transaction.toNode (t : Transaction) : Computantis.Transaction where
  createdAt := t.createdAt.instant
  issuerAddress := t.issuerAddress
  receiverAddress := t.receiverAddress
  subject := t.subject
  data := t.data
  issuerSignature := t.issuerSignature
  receiverSignature := []
  hash := t.hash
  spice := ⟨0, 0⟩

end Computantis.Client
