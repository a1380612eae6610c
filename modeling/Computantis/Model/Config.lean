import Computantis.Model.Vertex
import Computantis.Schemes.CString
import Computantis.Schemes.Pattern
import Mathlib.Data.List.DropRight

/-! @model config | name:The configuration of the C client | family:parser |
    source:src_c/client-node/config/config.c, src_c/client-node/config/config.h

    The client reads a text file line by line; a line is a key, a colon and a value. The values go into a
    structure on the stack that nobody has cleared: an `int` and three arrays of characters, one behind the
    other. A value is copied without its zero byte, and its length is checked against the line and not
    against the array, so a write may run into the next array and out of the structure.

        file ──fgets──▶ line ──trim, strtok──▶ key, value ──trim──▶ port | three strings -/

namespace Computantis.Client

open Schemes Schemes.CString Schemes.Pattern

def ascii (s : List Char) : Bytes := s.map fun c => UInt8.ofNat c.toNat

/-! ### Characters and strings -/

/-- `isspace` of the C locale. -/
def isspace (c : UInt8) : Bool := decide (c = 32 ∨ (9 ≤ c ∧ c ≤ 13))

def isdigit (c : UInt8) : Bool := decide (48 ≤ c ∧ c ≤ 57)

def trimWhiteSpace (str : Bytes) : Bytes := ((contents str).dropWhile isspace).rdropWhile isspace

/-- `strtok`: a token, and where the next call goes on; `delim` says which characters separate. -/
def strtok (delim : UInt8 → Bool) (str : Bytes) : Option (Bytes × Bytes) :=
  let str := str.dropWhile delim
  if str = [] then none
  else some (str.takeWhile fun c => !delim c, (str.dropWhile fun c => !delim c).drop 1)

/-- `atoi`, as the C library has it: `strtol`, which stops at the bounds of a `long`, cast to an `int`. -/
def atoi (str : Bytes) : ℤ :=
  let str := (contents str).dropWhile isspace
  let negative := decide (str.head? = some 45)
  let digits := (if str.head? = some 45 ∨ str.head? = some 43 then str.drop 1 else str).takeWhile isdigit
  let n := digits.foldl (fun (n : ℤ) c => n * 10 + (c.toNat - 48 : ℕ)) 0
  let long := if negative then max (-n) (-2 ^ 63) else min n (2 ^ 63 - 1)
  long.bmod (2 ^ 32)

/-! ### URLs -/

def allBytes : Bytes := (List.range 256).map UInt8.ofNat

/-- A bracket with a range of characters. -/
def range (lo hi : Char) : RegularExpression UInt8 :=
  oneOf (allBytes.filter fun c => decide (lo.toNat ≤ c.toNat ∧ c.toNat ≤ hi.toNat))

/-- The class of what is not white space. -/
def nonSpace : RegularExpression UInt8 := oneOf (allBytes.filter fun c => !isspace c)

/-- The numbers from 1 to 65535, as the pattern spells them. -/
def portRe : RegularExpression UInt8 :=
  range '1' '9' * atMost (range '0' '9') 3 +
  range '1' '5' * (range '0' '9' * (range '0' '9' * (range '0' '9' * range '0' '9'))) +
  word (ascii ['6']) * (range '0' '4' * (range '0' '9' * (range '0' '9' * range '0' '9'))) +
  word (ascii ['6', '5']) * (range '0' '4' * (range '0' '9' * range '0' '9')) +
  word (ascii ['6', '5', '5']) * (range '0' '2' * range '0' '9') +
  word (ascii ['6', '5', '5', '3']) * range '0' '5'

/-- The pattern, anchored at both ends. -/
def urlRe : RegularExpression UInt8 :=
  word (ascii ['h', 't', 't', 'p']) * (atMost (word (ascii ['s'])) 1 * (word (ascii [':', '/', '/']) *
    (nonSpace * nonSpace.star * (word (ascii [':']) * portRe))))

def isValidUrl (url : Bytes) : Bool := urlRe.rmatch (contents url)

/-! ### The structure -/

def maxString : ℕ := 8192
def maxLineLength : ℕ := 32768
def maxTokenNameLength : ℕ := 8192
def maxTokenValueLength : ℕ := 24576

inductive Field where
  | nodePublicUrl
  | validatorUrl
  | pemFile
  deriving DecidableEq

/-- Where the array begins, counted from the first of the three. -/
def Field.offset : Field → ℕ
  | .nodePublicUrl => 0
  | .validatorUrl => maxString
  | .pemFile => 2 * maxString

/-- The structure in memory. -/
structure Config where
  port : ℤ
  strings : Bytes
  len : strings.length = 3 * maxString

/-- How a call ends: the process exits, it has written behind what is its own, or there is a structure. -/
inductive Loading where
  | exited
  | smashed
  | loaded (cfg : Config)

namespace Config

/-- The string of an array, as the library reads it. -/
def string (cfg : Config) (f : Field) : Bytes := contents (cfg.strings.drop f.offset)

/-- `strncpy(cfg->field, token, len)` with the length of the token. -/
def copy (cfg : Config) (f : Field) (token : Bytes) : Loading :=
  if h : f.offset + token.length ≤ 3 * maxString then
    .loaded
      { port := cfg.port
        strings := cfg.strings.take f.offset ++ token ++ cfg.strings.drop (f.offset + token.length)
        len := by
          have hlen := cfg.len
          simp only [List.length_append, List.length_take, List.length_drop]
          omega }
  else .smashed

end Config

/-! ### Reading -/

/-- `assign_to_config`; where it returns false the caller exits. -/
def assignToConfig (cfg : Config) (name token : Bytes) : Loading :=
  let nameTrimed := trimWhiteSpace name
  let tokenTrimed := trimWhiteSpace token
  if tokenTrimed.length > maxTokenValueLength then .exited
  else if nameTrimed = ascii ['p', 'o', 'r', 't'] then
    let port := atoi tokenTrimed
    if port < 1 ∨ port > 65535 then .exited else .loaded { cfg with port }
  else if nameTrimed = ascii ['n', 'o', 'd', 'e', '_', 'p', 'u', 'b', 'l', 'i', 'c', '_', 'u', 'r', 'l'] then
    if isValidUrl tokenTrimed then cfg.copy .nodePublicUrl tokenTrimed else .exited
  else if nameTrimed = ascii ['v', 'a', 'l', 'i', 'd', 'a', 't', 'o', 'r', '_', 'u', 'r', 'l'] then
    if isValidUrl tokenTrimed then cfg.copy .validatorUrl tokenTrimed else .exited
  else if nameTrimed = ascii ['p', 'e', 'm', '_', 'f', 'i', 'l', 'e'] then cfg.copy .pemFile tokenTrimed
  else .exited

/-- One line. The name goes into a buffer of its own with a zero byte behind it, for which the longest name
    that passes leaves no room. The rest of the line, if there is any, is the value. -/
def readLine (cfg : Config) (line : Bytes) : Loading :=
  match strtok (· = 58) (trimWhiteSpace line) with
  | none => .loaded cfg
  | some (name, saved) =>
    if name.length > maxTokenNameLength then .exited
    else if name.length = maxTokenNameLength then .smashed
    else match strtok (fun _ => false) saved with
      | none => .loaded cfg
      | some (token, _) => assignToConfig cfg name token

/-- What `fgets` takes: a line with its end, or as much of it as the buffer holds. -/
def fgets (file : Bytes) : Bytes :=
  (file.take ((file.takeWhile (· ≠ 10)).length + 1)).take (maxLineLength - 1)

/-- The lines of a file, with as many calls of `fgets` as it may take. -/
def fileLines : (calls : ℕ) → (file : Bytes) → List Bytes
  | 0, _ => []
  | n + 1, file => if file = [] then [] else fgets file :: fileLines n (file.drop (fgets file).length)

/-- The loop over the lines. -/
def readLines (cfg : Config) : List Bytes → Loading
  | [] => .loaded cfg
  | line :: rest =>
    match readLine cfg line with
    | .loaded cfg => readLines cfg rest
    | e => e

/-- `Config_new_from_file`; `cfg` is what stands in the memory of the structure, `none` a file that cannot be
    opened. -/
def configNewFromFile (cfg : Config) : Option Bytes → Loading
  | none => .exited
  | some file => readLines cfg (fileLines file.length file)

end Computantis.Client
