import Computantis.Model.Vertex

/-! @model urls | name:What is taken for a URL | family:parser | source:src/webhooksserver/webhooks.server.go

    The webhooks server asks `url.Parse` of the standard library whether the data of a request is a URL, and
    uses nothing else of the answer. Every function here says whether its namesake returns without an error;
    the parts of the URL are computed as far as a later check looks at them.

        [scheme:] [//[userinfo@]host[:port]] path [?query] [#fragment]

    A string without a scheme is a relative path, so most short words are URLs. -/

namespace Computantis.Url

/-! ### Characters and strings -/

def byte (c : Char) : UInt8 := UInt8.ofNat c.toNat

def bytes (cs : List Char) : Bytes := cs.map byte

def isLetter (c : UInt8) : Bool := decide (97 ≤ c ∧ c ≤ 122 ∨ 65 ≤ c ∧ c ≤ 90)

def isDigit (c : UInt8) : Bool := decide (48 ≤ c ∧ c ≤ 57)

def isHex (c : UInt8) : Bool := isDigit c || decide (97 ≤ c ∧ c ≤ 102 ∨ 65 ≤ c ∧ c ≤ 70)

def unhex (c : UInt8) : ℕ :=
  if isDigit c then c.toNat - 48
  else if 97 ≤ c then c.toNat - 97 + 10
  else c.toNat - 65 + 10

/-- A control character. -/
def isCTL (c : UInt8) : Bool := decide (c < 32 ∨ c = 127)

/-- `strings.Cut` at a character: what is before the first one, and what is behind it. -/
def cut (sep : UInt8) (s : Bytes) : Bytes × Bytes :=
  (s.takeWhile (· ≠ sep), (s.dropWhile (· ≠ sep)).drop 1)

/-- The same at the last one, if there is one. -/
def cutLast (sep : UInt8) (s : Bytes) : Option (Bytes × Bytes) :=
  if sep ∈ s then
    let behind := s.reverse.takeWhile (· ≠ sep)
    some (s.take (s.length - behind.length - 1), behind.reverse)
  else none

/-! ### Escapes -/

inductive Encoding where
  | path | host | zone | userPassword | fragment
  deriving DecidableEq

/-- The marks that may stand in a host as they are: sub-delimiters, what belongs to ports and literals, and
    the unreserved ones. The first two are quotation marks. -/
def hostMarks : Bytes :=
  34 :: 39 :: bytes ['!', '$', '&', '(', ')', '*', '+', ',', ';', '=', ':', '[', ']', '<', '>', '-', '_', '.', '~']

/-- `shouldEscape` for hosts and zones. -/
def shouldEscape (c : UInt8) : Bool := !(isLetter c || isDigit c || decide (c ∈ hostMarks))

/-- The escaped byte may be escaped there. -/
def escapable (mode : Encoding) (hi lo : UInt8) : Bool :=
  let percent := decide (hi = byte '2' ∧ lo = byte '5')
  match mode with
  | .host => decide (8 ≤ unhex hi) || percent
  | .zone =>
    let v := UInt8.ofNat (unhex hi * 16 + unhex lo)
    percent || decide (v = 32) || !shouldEscape v
  | _ => true

/-- The byte may stand there as it is. -/
def plain (mode : Encoding) (c : UInt8) : Bool :=
  match mode with
  | .host | .zone => decide (128 ≤ c) || !shouldEscape c
  | _ => true

def unescape (mode : Encoding) : Bytes → Bool
  | [] => true
  | c :: s =>
    if c = byte '%' then
      match s with
      | hi :: lo :: s => isHex hi && isHex lo && escapable mode hi lo && unescape mode s
      | _ => false
    else plain mode c && unescape mode s

/-! ### The authority -/

def validOptionalPort : Bytes → Bool
  | [] => true
  | c :: port => decide (c = byte ':') && port.all isDigit

/-- What is before the zone of a literal, and the zone with the escaped percent sign that it starts with. -/
def cutZone : Bytes → Option (Bytes × Bytes)
  | [] => none
  | c :: s =>
    if (bytes ['%', '2', '5']).isPrefixOf (c :: s) then some ([], c :: s)
    else (cutZone s).map fun p => (c :: p.1, p.2)

def parseHost (host : Bytes) : Bool :=
  if host.head? = some (byte '[') then
    match cutLast (byte ']') host with
    | none => false
    | some (literal, colonPort) =>
      validOptionalPort colonPort &&
        match cutZone literal with
        | some (address, zone) =>
          unescape .host address && unescape .zone zone && unescape .host (byte ']' :: colonPort)
        | none => unescape .host host
  else
    (match cutLast (byte ':') host with
      | some (_, port) => validOptionalPort (byte ':' :: port)
      | none => true) && unescape .host host

def validUserinfo (s : Bytes) : Bool :=
  s.all fun c => isLetter c || isDigit c ||
    decide (c ∈ 39 :: bytes ['-', '.', '_', ':', '~', '!', '$', '&', '(', ')', '*', '+', ',', ';', '=', '%', '@'])

def parseAuthority (authority : Bytes) : Bool :=
  match cutLast (byte '@') authority with
  | none => parseHost authority
  | some (userinfo, host) =>
    parseHost host && validUserinfo userinfo &&
      if byte ':' ∈ userinfo then
        unescape .userPassword (cut (byte ':') userinfo).1 && unescape .userPassword (cut (byte ':') userinfo).2
      else unescape .userPassword userinfo

/-! ### The URL -/

/-- The loop of `getScheme`, which has seen a part of the string; no scheme is the empty one. -/
def getSchemeFrom (rawURL : Bytes) : Bytes → Bytes → Option (Bytes × Bytes)
  | _, [] => some ([], rawURL)
  | seen, c :: s =>
    if isLetter c then getSchemeFrom rawURL (seen ++ [c]) s
    else if isDigit c ∨ c ∈ bytes ['+', '-', '.'] then
      if seen = [] then some ([], rawURL) else getSchemeFrom rawURL (seen ++ [c]) s
    else if c = byte ':' then
      if seen = [] then none else some (seen, s)
    else some ([], rawURL)

/-- The scheme and what is behind its colon. -/
def getScheme (rawURL : Bytes) : Option (Bytes × Bytes) := getSchemeFrom rawURL [] rawURL

/-- `parse`, without the fragment. -/
def parseRef (rawURL : Bytes) : Bool :=
  if rawURL.any isCTL then false
  else if rawURL = [byte '*'] then true
  else match getScheme rawURL with
    | none => false
    | some (scheme, rest) =>
      -- a question mark at the very end is cut off like any other
      let rest := (cut (byte '?') rest).1
      let rooted := rest.head? = some (byte '/')
      if ¬ rooted ∧ scheme ≠ [] then true
      else if ¬ rooted ∧ byte ':' ∈ (cut (byte '/') rest).1 then false
      else if (scheme ≠ [] ∨ !(bytes ['/', '/', '/']).isPrefixOf rest) ∧ (bytes ['/', '/']).isPrefixOf rest then
        parseAuthority ((rest.drop 2).takeWhile (· ≠ byte '/')) &&
          unescape .path ((rest.drop 2).dropWhile (· ≠ byte '/'))
      else unescape .path rest

/-- `url.Parse`: the string is a URL. -/
def parse (rawURL : Bytes) : Bool :=
  let (u, frag) := cut (byte '#') rawURL
  parseRef u && unescape .fragment frag

end Computantis.Url
