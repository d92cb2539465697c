import PosixThreads.Collections.String.Spec
import PosixThreads.HttpAio.Error

/-!
# The URL parser

This is `parse_url`. A pointer into the URL is the rest of the text from there on, without the
terminator. The parser finds the delimiters one after the other, each of them the first one of its
kind, copies what is between them and looks at the characters of the copies in the end.

Each string that is created has an allocator of its own. Freeing strings is left out.
-/

namespace PosixThreads

/-- `string_get`. The pointer it reads from is `NULL` outside of the vector. -/
def StringT.get (self : StringT) (pos : ℕ) : Option UInt8 := do
  assertThat (pos < self.storage.len)
  (← self.storage.storage[pos]?)

namespace HttpAio

/-- A function that returns `err_t` and fails no assertion has a result or an error. -/
abbrev Parse (α : Type) := ExceptT Err Option α

namespace Parse

/-- `ERR` of a condition. -/
def check (result : Bool) (context : String) : Parse Unit :=
  match errFromBool result context with
  | none => pure ()
  | some error => throw error

/-- `ERR` of a function that creates a string. -/
def create (result : Option (Except CommonErrorCode StringT)) : Parse StringT := do
  match ← ExceptT.lift result with
  | .ok str => pure str
  | .error code => throw (.common "failed to allocate a string" code)

end Parse

structure UrlT where
  scheme : StringT
  host : StringT
  port : StringT
  path : StringT
  query : StringT
  deriving DecidableEq

/-- `strchr`, or nothing for `NULL`. -/
def strchr (p : List UInt8) (c : Char) : List UInt8 := p.dropWhile fun b => b ≠ c.toUInt8

/-- What is in front of the character, or everything. -/
def upTo (p : List UInt8) (c : Char) : List UInt8 := p.takeWhile fun b => b ≠ c.toUInt8

def isDigit (c : UInt8) : Bool := '0'.toUInt8 ≤ c && c ≤ '9'.toUInt8

/-- The characters of the call of `strchr` in `is_valid_url_string`: the blank, `"`, `<`, `>`, the
backtick, `#`, `?` and braces. -/
def notInUrls : List UInt8 := [0x20, 0x22, 0x3c, 0x3e, 0x60, 0x23, 0x3f, 0x7b, 0x7d]

/-- The test of the loop of `is_valid_url_string`. -/
def isUrlChar (c : UInt8) : Bool := !(c ≤ 0x1f || c > 0x7f || notInUrls.contains c)

def isValidUrlString (str : StringT) : Option Bool :=
  (List.range str.len).allM fun i => do return isUrlChar (← str.get i)

/-- The part of `parse_url` for the port, from the colon on. -/
def parsePort (allocs : ℕ → Alloc) (colonChr : List UInt8) : Parse StringT :=
  match colonChr with
  | [] => Parse.create (StringT.new (allocs 2 0))
  | _ :: digits => do
      Parse.check (digits.all isDigit) "invalid URL: the port is not valid"
      Parse.create (StringT.fromSlice (allocs 2) digits)

/-- The part of `parse_url` for the authority. -/
def parseAuthority (allocs : ℕ → Alloc) (p : List UInt8) :
    Parse (StringT × StringT × List UInt8) := do
  let authority := upTo p '/'
  Parse.check (authority ≠ []) "unsupported URL: an empty authority"
  Parse.check (!authority.contains '@'.toUInt8)
    "URLs with a userinfo component are not supported"
  let host ← Parse.create (StringT.fromSlice (allocs 1) (upTo authority ':'))
  let port ← parsePort allocs (strchr authority ':')
  return (host, port, strchr p '/')

/-- The part of `parse_url` for a URL without an authority. -/
def parseNoAuthority (allocs : ℕ → Alloc) (p : List UInt8) :
    Parse (StringT × StringT × List UInt8) := do
  let host ← Parse.create (StringT.new (allocs 1 0))
  let port ← Parse.create (StringT.new (allocs 2 0))
  return (host, port, p)

/-- The part of `parse_url` behind the scheme: the host and the port, and where the path starts. -/
def parseHostAndPort (allocs : ℕ → Alloc) (p : List UInt8) :
    Parse (StringT × StringT × List UInt8) :=
  if p.take 2 = ['/'.toUInt8, '/'.toUInt8] then parseAuthority allocs (p.drop 2)
  else parseNoAuthority allocs p

/-- The part of `parse_url` for the query. -/
def parseQuery (allocs : ℕ → Alloc) (p : List UInt8) : Parse StringT :=
  match p with
  | [] => Parse.create (StringT.new (allocs 4 0))
  | _ :: _ => Parse.create (StringT.fromSlice (allocs 4) p)

/-- The part of `parse_url` for the path and the query. -/
def parsePath (allocs : ℕ → Alloc) (p : List UInt8) : Parse (StringT × StringT) :=
  match p with
  | [] => do
      let path ← Parse.create (StringT.fromSlice (allocs 3) ['/'.toUInt8])
      let query ← Parse.create (StringT.new (allocs 4 0))
      return (path, query)
  | c :: _ => do
      Parse.check (c = '/'.toUInt8) "invalid URL: expected a path component"
      let path ← Parse.create (StringT.fromSlice (allocs 3) (upTo p '?'))
      let query ← parseQuery allocs (strchr p '?')
      return (path, query)

/-- One of the tests at the end of `parse_url`. -/
def validate (str : StringT) (context : String) : Parse Unit := do
  Parse.check (← ExceptT.lift (isValidUrlString str)) context

/-- The tests at the end of `parse_url`. The port is checked before. -/
def validateAll (result : UrlT) : Parse UrlT := do
  validate result.scheme "invalid URL: unexpected characters in the scheme"
  validate result.host "invalid URL: unexpected characters in the host"
  validate result.path "invalid URL: unexpected characters in the host"
  validate result.query "invalid URL: unexpected characters in the host"
  return result

def parseUrl (allocs : ℕ → Alloc) (url : List UInt8) : Parse UrlT := do
  Parse.check (strchr url ':' ≠ [] && upTo url ':' ≠ []) "invalid URL: scheme is absent"
  let scheme ← Parse.create (StringT.fromSlice (allocs 0) (upTo url ':'))
  let (host, port, p) ← parseHostAndPort allocs (strchr url ':').tail
  let (path, query) ← parsePath allocs p
  validateAll ⟨scheme, host, port, path, query⟩

end HttpAio

end PosixThreads
