import PosixThreads.Common.Memory
import PosixThreads.Library.Iterate
import PosixThreads.Waxy.Url.Basic

/-!
# The URL parser

`url_parse` copies its input, removes white space from it and then runs a state
machine over it. A turn of its loop advances `pos`, which is a `size_t` that
starts at `-1`, and calls the function of the current state on the byte at `pos`,
or on `EOF` past the end. The states push bytes to one shared buffer and record
the components as regions of it; `slice_start` is where the component being read
begins. A state that wants its successor to see the same byte moves `pos` back.

The functions below are the states, under the names of the source. They return
the error of the turn and the new parser, and `none` where an assertion fails.
-/

namespace PosixThreads

inductive UrlParserState
  | schemeStart
  | scheme
  | noScheme
  | pathOrAuth
  | specAuthSlash
  | specAuthIgnoreSlash
  | auth
  | host
  | port
  | file
  | fileSlash
  | fileHost
  | pathStart
  | path
  | opaquePath
  | query
  | fragment
  | fail
  deriving DecidableEq, Repr

/-- `url_parser_t`. The field `allocs` counts the answers of the allocator that
are used up. -/
structure UrlParser where
  result : UrlRegion
  input : List UInt8
  buf : List UInt8
  sliceStart : ℕ
  pos : UInt64
  state : UrlParserState
  atSignSeen : Bool
  insideBrackets : Bool
  passwordTokenSeen : Bool
  special : Bool
  allocs : ℕ
  deriving DecidableEq, Repr

/-! ## Input normalisation -/

/-- `url_remove_trailing`. The two loops find the ends of the text. `memmove` then
copies the first `len` bytes to `start_pos`, not the other way round. -/
def urlRemoveTrailing (input : List UInt8) : Option Error × List UInt8 :=
  let startPos := (input.takeWhile isC0Space).length
  let endPos := input.length - ((input.drop startPos).reverse.takeWhile isC0Space).length
  let err := errorCombine
    (if 0 < startPos then
      some (.fromCstr "The input contains leading C0 control or space") else none)
    (if endPos ≠ input.length then
      some (.fromCstr "The input contains trailing C0 control or space") else none)
  let len := endPos - startPos
  (err, (input.take startPos ++ input.take len).take len)

/-- The loop of `url_remove_tab_nl`, from the last index down. -/
def removeTabNl : ℕ → List UInt8 → Bool → List UInt8 × Bool
  | 0, input, containsTabNl => (input, containsTabNl)
  | i + 1, input, containsTabNl =>
      match input[i]? with
      | some c =>
          if c = '\r'.toUInt8 || c = '\n'.toUInt8 || c = '\t'.toUInt8 then
            removeTabNl i (input.eraseIdx i) true
          else removeTabNl i input containsTabNl
      | none => removeTabNl i input containsTabNl

def urlRemoveTabNl (input : List UInt8) : Option Error × List UInt8 :=
  let (input, containsTabNl) := removeTabNl input.length input false
  (if containsTabNl then some (.fromCstr "The input contains ASCII tab or newline") else none,
    input)

/-! ## Helpers of the states -/

namespace UrlParser

/-- `++parser.pos`, with which every turn of the loop begins. -/
def advance (p : UrlParser) : UrlParser := { p with pos := p.pos + 1 }

def isEof (p : UrlParser) : Bool := p.input.length ≤ p.pos.toNat

/-- `url_parser_c`, with `none` for `EOF`. -/
def c (p : UrlParser) : Option UInt8 := if p.isEof then none else p.input[p.pos.toNat]?

/-- `string_push` and `string_appendf` on the buffer. -/
def append (alloc : Alloc) (p : UrlParser) (bytes : List UInt8) : Option Error × UrlParser :=
  if alloc p.allocs && p.buf.length + bytes.length + 1 ≤ ptrdiffMax then
    (none, { p with buf := p.buf ++ bytes, allocs := p.allocs + 1 })
  else (some (.fromCommon .memoryAllocationFailure), { p with allocs := p.allocs + 1 })

/-- `url_parser_buf`, as a region, with its assertion. -/
def bufRegion (p : UrlParser) : Option Region :=
  if p.sliceStart ≤ p.buf.length then some ⟨p.sliceStart, p.buf.length - p.sliceStart⟩ else none

def slice (p : UrlParser) : Option (Region × UrlParser) :=
  p.bufRegion.map fun r => (r, { p with sliceStart := p.buf.length })

def bufLen (p : UrlParser) : ℕ := p.buf.length - p.sliceStart

/-- `url_parser_remaining`. The length counts the byte at `pos`, so that the slice
ends with the NUL terminator of the input. -/
def remaining (p : UrlParser) : List UInt8 :=
  if p.isEof then [] else p.input.drop (p.pos.toNat + 1) ++ [0]

def remStartsWith (p : UrlParser) (str : String) : Bool :=
  (str.toList.map Char.toUInt8).isPrefixOf p.remaining

end UrlParser

/-- `region_to_slice` with its assertion. -/
def regionToSlice (buf : List UInt8) (r : Region) : Option (List UInt8) :=
  if r.len ≤ ptrdiffMax then some (r.text buf) else none

/-- `slice_to_region` with its assertion; the slice lies in the buffer, so its
offset is not negative. -/
def sliceToRegion (r : Region) : Option Region :=
  if r.len ≤ ptrdiffMax then some r else none

def cstr (str : String) : List UInt8 := str.toList.map Char.toUInt8

/-- `url_parser_is_special`: the port of a special scheme as a `uint32_t`, `-1` for
`file` and `-2` for a scheme that is not special. -/
def urlParserIsSpecial (scheme : List UInt8) : UInt32 :=
  if scheme = cstr "ftp" then 21
  else if scheme = cstr "file" then -1
  else if scheme = cstr "http" then 80
  else if scheme = cstr "https" then 443
  else if scheme = cstr "ws" then 80
  else if scheme = cstr "wss" then 443
  else -2

/-- The test shared by the authority, host, port and path states:
`c == EOF || c == '/' || c == '?' || c == '#' || (special && c == '\\')`. -/
def isDelimiter (special : Bool) : Option UInt8 → Bool
  | none => true
  | some c =>
      c = '/'.toUInt8 || c = '?'.toUInt8 || c = '#'.toUInt8 || (special && c = '\\'.toUInt8)

/-- The outcome of a state function. -/
abbrev UrlTurn := Option (Option Error × UrlParser)

/-- A failed push: the state becomes `STATE_FAIL` and the error of the allocation
comes before the one found in this turn. -/
def failWith (pushErr : Error) (err : Option Error) (p : UrlParser) : UrlTurn :=
  some (errorCombine (some pushErr) err, { p with state := .fail })

/-- Append to the buffer and go on with `next`, or fail. -/
def appendOrFail (alloc : Alloc) (p : UrlParser) (bytes : List UInt8) (err : Option Error)
    (next : UrlParser → UrlTurn) : UrlTurn :=
  match p.append alloc bytes with
  | (some pushErr, p) => failWith pushErr err p
  | (none, p) => next p

/-! ## The states -/

def urlParserSchemeStart (alloc : Alloc) (p : UrlParser) : UrlTurn :=
  match p.c with
  | some c =>
      if isAsciiAlpha c then
        appendOrFail alloc p [toLower c] none fun p => some (none, { p with state := .scheme })
      else some (none, { p with state := .noScheme, pos := p.pos - 1 })
  | none => some (none, { p with state := .noScheme, pos := p.pos - 1 })

def isSchemeChar (c : UInt8) : Bool :=
  isAsciiAlphanum c || c = '+'.toUInt8 || c = '-'.toUInt8 || c = '.'.toUInt8

/-- The branch of `url_parser_scheme` taken at the colon. The `uint32_t` of
`url_parser_is_special` is stored in a `bool`. -/
def urlParserSchemeEnd (p : UrlParser) : UrlTurn := do
  let (slice, p) ← p.slice
  let region ← sliceToRegion slice
  let scheme ← regionToSlice p.buf region
  let p := { p with
    result := { p.result with scheme := region }
    special := urlParserIsSpecial scheme ≠ 0 }
  if scheme = cstr "file" then
    some (errorWrap "`//` is required after the file scheme"
        (okIf (p.remStartsWith "//") "url_parser_rem_starts_with(self, \"//\")"),
      { p with state := .file })
  else if p.special then some (none, { p with state := .specAuthSlash })
  else if p.remStartsWith "/" then
    some (none, { p with state := .pathOrAuth, pos := p.pos + 1 })
  else some (none, { p with state := .opaquePath })

def urlParserScheme (alloc : Alloc) (p : UrlParser) : UrlTurn :=
  match p.c with
  | some c =>
      if isSchemeChar c then
        appendOrFail alloc p [toLower c] none fun p => some (none, p)
      else if c = ':'.toUInt8 then urlParserSchemeEnd p
      else some (none, { p with buf := [], state := .noScheme, pos := 0 })
  | none => some (none, { p with buf := [], state := .noScheme, pos := 0 })

def urlParserNoScheme (p : UrlParser) : UrlTurn :=
  some (some (.fromCstr "No scheme was provided"), { p with state := .fail })

def urlParserPathOrAuth (p : UrlParser) : UrlTurn :=
  if p.c = some '/'.toUInt8 then some (none, { p with state := .auth })
  else some (none, { p with state := .path, pos := p.pos - 1 })

def urlParserSpecAuthSlash (p : UrlParser) : UrlTurn :=
  if p.c = some '/'.toUInt8 ∧ p.remStartsWith "/" then
    some (none, { p with state := .specAuthIgnoreSlash, pos := p.pos + 1 })
  else
    some (some (.fromCstr "`//` is required for a special scheme"),
      { p with state := .specAuthIgnoreSlash, pos := p.pos - 1 })

def urlParserSpecAuthIgnoreSlash (p : UrlParser) : UrlTurn :=
  if p.c ≠ some '/'.toUInt8 ∧ p.c ≠ some '\\'.toUInt8 then
    some (none, { p with state := .auth, pos := p.pos - 1 })
  else some (some (.fromCstr "encountered an extraneous `/`"), p)

/-- One more byte of the username or, after the first colon, of the password. -/
def UrlParser.countUserinfo (p : UrlParser) : UrlParser :=
  if p.passwordTokenSeen then
    { p with result := { p.result with
        password := { p.result.password with len := p.result.password.len + 1 } } }
  else
    { p with result := { p.result with
        username := { p.result.username with len := p.result.username.len + 1 } } }

/-- The loop of `url_parser_auth` that encodes the user info once more. It reads
the old text while it appends the new one behind it. -/
def encodeUserinfo (alloc : Alloc) : List UInt8 → UrlParser → Option Error × UrlParser
  | [], p => (none, p)
  | c :: rest, p =>
      if c = ':'.toUInt8 && !p.passwordTokenSeen then
        encodeUserinfo alloc rest { p with
          passwordTokenSeen := true
          result := { p.result with
            password := { p.result.password with start := p.buf.length } } }
      else
        match p.append alloc (percentEncode .userinfo c) with
        | (some err, p) => (some err, p)
        | (none, p) => encodeUserinfo alloc rest p.countUserinfo

/-- The branch of `url_parser_auth` for an at sign, after the text in front of it
has been completed. -/
def urlParserAuthAt (alloc : Alloc) (err : Option Error) (p : UrlParser) : UrlTurn := do
  let (slice, p) ← { p with atSignSeen := true }.slice
  let buf ← sliceToRegion slice
  let p := { p with result := { p.result with
    username := { p.result.username with start := buf.len } } }
  match encodeUserinfo alloc (buf.text p.buf) p with
  | (some encodeErr, p) => failWith encodeErr err p
  | (none, p) => some (err, p)

/-- The branch of `url_parser_auth` at the end of the authority. The buffered text
is dropped, and `pos` goes back by its length to read it again as a host. -/
def urlParserAuthEnd (p : UrlParser) : UrlTurn :=
  if p.atSignSeen && p.bufLen = 0 then
    some (some (.fromCstr "Expected a hostname after the user info"), { p with state := .fail })
  else do
    let (buf, p) ← p.slice
    let popped := p.buf.take (p.buf.length - buf.len)
    some (none, { p with
      buf := popped
      sliceStart := popped.length
      pos := p.pos - UInt64.ofNat (buf.len + 1)
      state := .host })

def urlParserAuth (alloc : Alloc) (p : UrlParser) : UrlTurn :=
  if p.c = some '@'.toUInt8 then
    let err := some (Error.fromCstr
      "encountered an illegal `@` (a valid URL cannot contain a username)")
    if p.atSignSeen then
      appendOrFail alloc p (cstr "%40") err (urlParserAuthAt alloc err)
    else urlParserAuthAt alloc err p
  else if isDelimiter p.special p.c then urlParserAuthEnd p
  else
    match p.c with
    | some c => appendOrFail alloc p [c] none fun p => some (none, p)
    | none => none

def takeHost (p : UrlParser) : Option UrlParser := do
  let (slice, p) ← p.slice
  let region ← sliceToRegion slice
  some { p with result := { p.result with host := region, hostNull := false } }

def urlParserHost (alloc : Alloc) (p : UrlParser) : UrlTurn :=
  if p.c = some ':'.toUInt8 && !p.insideBrackets then
    if p.bufLen = 0 then
      some (some (.fromCstr "The hostname is empty"), { p with state := .fail })
    else do
      let p ← takeHost p
      some (none, { p with state := .port })
  else if isDelimiter p.special p.c then
    let p := { p with pos := p.pos - 1 }
    if p.special && p.bufLen = 0 then
      some (some (.fromCstr "The hostname is empty"), { p with state := .fail })
    else do
      let p ← takeHost p
      some (none, { p with state := .path })
  else
    match p.c with
    | some c =>
        let brackets :=
          if c = '['.toUInt8 then true
          else if c = ']'.toUInt8 then false
          else p.insideBrackets
        appendOrFail alloc { p with insideBrackets := brackets } [c] none
          fun p => some (none, p)
    | none => none

/-- `parse_integer` on the text of the port. The variable `port` is `-1` before the
conversion. -/
def portNumber (text : List UInt8) : Option Error × ℤ :=
  match parseInteger text with
  | .ok port => (none, port)
  | .error code => (some (.wrap "Could not parse the port number" (.fromCommon code)), -1)

/-- The part of `url_parser_port` that converts a non-empty port. -/
def urlParserPortValue (p : UrlParser) : UrlTurn := do
  let (slice, p) ← p.slice
  let (err, port) := portNumber (slice.text p.buf)
  if port > 65535 then
    some (some (.fromCstr "The port nubmer is too high"), { p with state := .fail })
  else
    some (err, { p with
      result := { p.result with port := UInt16.ofInt port, portNull := false }
      pos := p.pos - 1
      state := .pathStart })

/-- The branch of `url_parser_port` taken at a delimiter. -/
def urlParserPortEnd (p : UrlParser) : UrlTurn :=
  if p.bufLen ≠ 0 then urlParserPortValue p
  else some (none, { p with pos := p.pos - 1, state := .pathStart })

def urlParserPort (alloc : Alloc) (p : UrlParser) : UrlTurn :=
  match p.c with
  | some c =>
      if isAsciiDigit c then appendOrFail alloc p [c] none fun p => some (none, p)
      else if isDelimiter p.special (some c) then urlParserPortEnd p
      else
        some (some (.fromCstr "The port contains illegal characters"), { p with state := .fail })
  | none => urlParserPortEnd p

/-- The states of a `file:` URL report a backslash and stop there. -/
def failBackslash (p : UrlParser) : UrlTurn :=
  some (some (.fromCstr "A backslash may not be used in a file: URL"), { p with state := .fail })

/-- The part of `url_parser_file` after the scheme has been settled. -/
def urlParserFileNext (p : UrlParser) : UrlTurn :=
  let p := { p with result := { p.result with host := .empty, hostNull := false } }
  if p.c = some '\\'.toUInt8 then failBackslash p
  else if p.c = some '/'.toUInt8 then some (none, { p with state := .fileSlash })
  else some (none, { p with state := .path, pos := p.pos - 1 })

/-- `url_parser_file`. The first branch stores the scheme if it is another one. -/
def urlParserFile (alloc : Alloc) (p : UrlParser) : UrlTurn := do
  let scheme ← regionToSlice p.buf p.result.scheme
  if scheme ≠ cstr "file" then
    appendOrFail alloc p (cstr "file") none fun p => do
      let (slice, p) ← p.slice
      let region ← sliceToRegion slice
      urlParserFileNext { p with result := { p.result with scheme := region } }
  else urlParserFileNext p

def urlParserFileSlash (p : UrlParser) : UrlTurn :=
  if p.c = some '\\'.toUInt8 then failBackslash p
  else if p.c = some '/'.toUInt8 then some (none, { p with state := .fileHost })
  else some (none, { p with state := .path, pos := p.pos - 1 })

def urlParserFileHost (alloc : Alloc) (p : UrlParser) : UrlTurn :=
  if isDelimiter true p.c then do
    let p := { p with pos := p.pos - 1 }
    let region ← p.bufRegion
    if isWindowsDriveLetter (region.text p.buf) then
      some (some (.fromCstr "A Windows drive letter cannot be used in a URL"),
        { p with state := .path })
    else if p.bufLen = 0 then
      some (none, { p with
        result := { p.result with host := .empty, hostNull := false }
        state := .pathStart })
    else do
      let p ← takeHost p
      some (none, { p with state := .pathStart })
  else
    match p.c with
    | some c => appendOrFail alloc p [c] none fun p => some (none, p)
    | none => none

/-- The start of a query, in every state that can meet a question mark. -/
def startQuery (p : UrlParser) : UrlParser :=
  { p with result := { p.result with query := .empty, queryNull := false }, state := .query }

/-- The start of a fragment, in every state that can meet a hash sign. -/
def startFragment (p : UrlParser) : UrlParser :=
  { p with
    result := { p.result with fragment := .empty, fragmentNull := false }
    state := .fragment }

def urlParserPathStart (p : UrlParser) : UrlTurn :=
  if p.special then
    let err := if p.c = some '\\'.toUInt8 then
      some (Error.fromCstr "Backslashes are not allowed in a URL") else none
    if p.c ≠ some '/'.toUInt8 ∧ p.c ≠ some '\\'.toUInt8 then
      some (err, { p with state := .path, pos := p.pos - 1 })
    else some (err, { p with state := .path })
  else if p.c = some '?'.toUInt8 then some (none, startQuery p)
  else if p.c = some '#'.toUInt8 then some (none, startFragment p)
  else if p.c ≠ none then
    if p.c ≠ some '/'.toUInt8 then some (none, { p with state := .path, pos := p.pos - 1 })
    else some (none, { p with state := .path })
  else some (none, p)

/-- The end of a path segment: the text read since `slice_start` extends the path. -/
def extendPath (p : UrlParser) : Option UrlParser := do
  let (buf, p) ← p.slice
  if p.result.path.len = 0 then
    let region ← sliceToRegion buf
    some { p with result := { p.result with path := region } }
  else
    some { p with result := { p.result with
      path := { p.result.path with len := p.result.path.len + buf.len } } }

/-- The correction of a Windows drive letter in a `file:` path. -/
def fixDriveLetter (p : UrlParser) : Option UrlParser := do
  let scheme ← regionToSlice p.buf p.result.scheme
  if scheme = cstr "file" ∧ p.result.path.len = 0 then
    let region ← p.bufRegion
    if isWindowsDriveLetter (region.text p.buf) then
      some { p with buf := p.buf.set (p.buf.length - 1) ':'.toUInt8 }
    else some p
  else some p

/-- The part of `url_parser_path` that closes a segment at a delimiter. -/
def urlParserPathNext (err : Option Error) (p : UrlParser) : UrlTurn := do
  let p ← extendPath p
  if p.c = some '?'.toUInt8 then some (err, startQuery p)
  else if p.c = some '#'.toUInt8 then some (err, startFragment p)
  else some (err, p)

/-- The branch of `url_parser_path` taken at a delimiter. A slash is part of the
segment it ends. -/
def urlParserPathEnd (alloc : Alloc) (p : UrlParser) : UrlTurn := do
  let err := if p.special ∧ p.c = some '\\'.toUInt8 then
    some (Error.fromCstr "Backslashes are not allowed in a URL") else none
  let p ← fixDriveLetter p
  match p.c with
  | some c =>
      if c = '/'.toUInt8 ∨ (p.special ∧ c = '\\'.toUInt8) then
        appendOrFail alloc p [c] err (urlParserPathNext err)
      else urlParserPathNext err p
  | none => urlParserPathNext err p

/-- The error for a percent sign without two hex digits after it. -/
def percentErr (p : UrlParser) (c : UInt8) : Option Error :=
  if c = '%'.toUInt8 ∧ isInvalidPercentEscape p.remaining then
    some (.fromCstr "A percent escape is not followed by two hex digits") else none

/-- The error of a turn that may meet an illegal character and a bad escape: the
second assignment wins. -/
def charErr (illegal : Bool) (str : String) (p : UrlParser) (c : UInt8) : Option Error :=
  (percentErr p c).or (if illegal then some (.fromCstr str) else none)

def urlParserPath (alloc : Alloc) (p : UrlParser) : UrlTurn :=
  if isDelimiter p.special p.c then urlParserPathEnd alloc p
  else
    match p.c with
    | some c =>
        let err := charErr (!isUrlAscii c && c < 0x80)
          "An illegal character was detected in the path" p c
        appendOrFail alloc p (percentEncode .path c) err fun p => some (err, p)
    | none => none

def takePath (p : UrlParser) : Option UrlParser := do
  let (slice, p) ← p.slice
  let region ← sliceToRegion slice
  some { p with result := { p.result with path := region } }

def urlParserOpaquePath (alloc : Alloc) (p : UrlParser) : UrlTurn :=
  match p.c with
  | none => some (none, p)
  | some c =>
      if c = '?'.toUInt8 then do
        let p ← takePath p
        some (none, startQuery p)
      else if c = '#'.toUInt8 then do
        let p ← takePath p
        some (none, startFragment p)
      else
        let err := charErr (!isUrlAscii c && c < 0x80 && c ≠ '%'.toUInt8)
          "An illegal character was detected in the path" p c
        appendOrFail alloc p (percentEncode .c0 c) err fun p => some (err, p)

def takeQuery (p : UrlParser) : Option UrlParser := do
  let (slice, p) ← p.slice
  let region ← sliceToRegion slice
  some { p with result := { p.result with query := region, queryNull := false } }

def urlParserQuery (alloc : Alloc) (p : UrlParser) : UrlTurn :=
  match p.c with
  | none => do
      let p ← takeQuery p
      some (none, p)
  | some c =>
      if c = '#'.toUInt8 then do
        let p ← takeQuery p
        some (none, startFragment p)
      else
        let err := charErr (!isUrlAscii c && c ≠ '%'.toUInt8)
          "An illegal character was detected in the query" p c
        let set := if p.special then PercencSet.specQuery else .query
        appendOrFail alloc p (percentEncode set c) err fun p => some (err, p)

def takeFragment (p : UrlParser) : Option UrlParser := do
  let (slice, p) ← p.slice
  let region ← sliceToRegion slice
  some { p with result := { p.result with fragment := region, fragmentNull := false } }

def urlParserFragment (alloc : Alloc) (p : UrlParser) : UrlTurn :=
  match p.c with
  | none => do
      let p ← takeFragment p
      some (none, p)
  | some c =>
      let err := charErr (!isUrlAscii c && c ≠ '%'.toUInt8)
        "An illegal character was detected in the fragment" p c
      appendOrFail alloc p (percentEncode .fragment c) err fun p => some (err, p)

/-! ## The loop -/

/-- The `switch` of `url_parse`. `STATE_FAIL` is handled by the loop itself. -/
def urlParserStep (alloc : Alloc) (p : UrlParser) : UrlTurn :=
  match p.state with
  | .schemeStart => urlParserSchemeStart alloc p
  | .scheme => urlParserScheme alloc p
  | .noScheme => urlParserNoScheme p
  | .pathOrAuth => urlParserPathOrAuth p
  | .specAuthSlash => urlParserSpecAuthSlash p
  | .specAuthIgnoreSlash => urlParserSpecAuthIgnoreSlash p
  | .auth => urlParserAuth alloc p
  | .host => urlParserHost alloc p
  | .port => urlParserPort alloc p
  | .file => urlParserFile alloc p
  | .fileSlash => urlParserFileSlash p
  | .fileHost => urlParserFileHost alloc p
  | .pathStart => urlParserPathStart p
  | .path => urlParserPath alloc p
  | .opaquePath => urlParserOpaquePath alloc p
  | .query => urlParserQuery alloc p
  | .fragment => urlParserFragment alloc p
  | .fail => none

/-- How the loop is left: by a failed assertion, by `goto parser_fail`, or at the
end of the input. -/
inductive UrlLoopEnd
  | aborted
  | parserFail (err : Option Error)
  | finished (p : UrlParser) (err : Option Error)
  deriving DecidableEq

/-- One turn of the loop of `url_parse`, on the parser and the errors so far. -/
def urlLoopBody (alloc : Alloc) (s : UrlParser × Option Error) :
    (UrlParser × Option Error) ⊕ UrlLoopEnd :=
  let p := s.1.advance
  if p.state = .fail then .inr (.parserFail s.2)
  else
    match urlParserStep alloc p with
    | none => .inr .aborted
    | some (err, p) =>
        let err := errorCombine s.2 err
        if p.isEof then .inr (.finished p err) else .inl (p, err)

/-- The parser `url_parse` starts with. Two allocations come before it. -/
def UrlParser.initial (input : List UInt8) : UrlParser where
  result := .initial
  input := input
  buf := []
  sliceStart := 0
  pos := -1
  state := .schemeStart
  atSignSeen := false
  insideBrackets := false
  passwordTokenSeen := false
  special := false
  allocs := 2

/-- A bound on the number of turns: the state never goes back to an earlier one of
the eighteen, and within a state every turn moves on by a byte. -/
def urlLoopFuel (input : List UInt8) : ℕ := 18 * (input.length + 2)

/-- What `url_parse` returns; the URL is only written when `*fatal` is false. -/
structure UrlParseResult where
  err : Option Error
  fatal : Bool
  url : Option Url
  deriving DecidableEq

/-- The input as the loop sees it, with the errors found while cleaning it. -/
def urlNormalize (slice : List UInt8) : Option Error × List UInt8 :=
  let (trailingErr, input) := urlRemoveTrailing slice
  let (tabErr, input) := urlRemoveTabNl input
  (errorCombine trailingErr tabErr, input)

def urlLoopStart (slice : List UInt8) : UrlParser × Option Error :=
  (.initial (urlNormalize slice).2, (urlNormalize slice).1)

/-- `url_parse`. The result is `none` if an assertion fails, or if the loop were
still running after `urlLoopFuel` turns. -/
def urlParse (alloc : Alloc) (slice : List UInt8) : Option UrlParseResult :=
  let noMemory : Option UrlParseResult :=
    some ⟨some (.fromCommon .memoryAllocationFailure), true, none⟩
  if !(alloc 0 && slice.length + 1 ≤ ptrdiffMax) then noMemory
  else if !alloc 1 then noMemory
  else
    match Iterate.iterate (urlLoopBody alloc) (urlLoopFuel (urlNormalize slice).2)
      (urlLoopStart slice) with
    | none => none
    | some .aborted => none
    | some (.parserFail err) => some ⟨err, true, none⟩
    | some (.finished p err) =>
        if p.result.regions.all (fun r => r.len ≤ ptrdiffMax) then
          some ⟨err, false, some ⟨p.result, p.buf⟩⟩
        else none

end PosixThreads
