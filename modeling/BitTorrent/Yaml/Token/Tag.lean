import BitTorrent.Yaml.Token.Scanner
import BitTorrent.Text.Utf8

/-!
# Scanning directives, anchors, aliases and tags

A directive is `%YAML major.minor` or `%TAG handle prefix` at the start of a line, followed by
nothing but blanks and a comment. An anchor `&name` or alias `*name` is a run of letters,
digits, underscores and dashes, followed by a blank, a line break or one of `?:,]}%@` and the
backquote. A tag is verbatim `!<uri>`, or a handle `!`, `!!` or `!word!` followed by a suffix,
or `!suffix` with the primary handle, or `!` alone; it must be followed by a blank or a line
break, or a comma in a flow collection.

The characters of a tag are those of a URI; `%` starts an escaped UTF-8 sequence, one `%hh`
per byte. Such a sequence need not encode a valid character; in the text of the tag each of its
bytes that is no part of a valid character becomes U+FFFD.
-/

namespace BitTorrent.Yaml

namespace Scanner

/-- Skips characters while `p` holds, asking for each next one. -/
def skipWhile (p : Char → Bool) : Nat → Scanner → Except Fault Scanner
  | 0, s => .ok s
  | fuel + 1, s =>
    if p s.cur then do
      let s := s.skip
      s.need 1
      skipWhile p fuel s
    else .ok s

/-- Reads characters while `p` holds onto `acc`, asking for each next one. -/
def readWhile (p : Char → Bool) : Nat → Scanner → String → Except Fault (String × Scanner)
  | 0, s, acc => .ok (acc, s)
  | fuel + 1, s, acc =>
    if p s.cur then do
      let (acc, s) := s.read acc
      s.need 1
      readWhile p fuel s acc
    else .ok (acc, s)

/-- Skips blanks, asking for the first character. -/
def skipBlanks (s : Scanner) : Except Fault Scanner := do
  s.need 1
  skipWhile isBlank s.fuel s

/-- The name of a directive after its `%`: word characters followed by a blank or a line
break. -/
def directiveName (s : Scanner) (start : Mark) : Except Fault (String × Scanner) := do
  s.need 1
  let (name, s) ← readWhile isWordChar s.fuel s ""
  if name.isEmpty then s.fail start "could not find expected directive name"
  else if !isBlankEnd s.cur then s.fail start "found unexpected non-alphabetical character"
  else return (name, s)

/-- A number of a version: one or two digits. -/
def versionNumber (s : Scanner) (start : Mark) : Except Fault (Nat × Scanner) := do
  s.need 1
  go 3 0 0 s
where
  /-- Reads the digits, counting them. -/
  go : Nat → Nat → Nat → Scanner → Except Fault (Nat × Scanner)
    | 0, _, value, s => .ok (value, s)
    | fuel + 1, length, value, s =>
      if isDigitChar s.cur then
        if length + 1 > 2 then s.fail start "found extremely long version number"
        else do
          let v := value * 10 + (s.cur.toNat - 48)
          let s := s.skip
          s.need 1
          go fuel (length + 1) v s
      else if length == 0 then s.fail start "did not find expected version number"
      else .ok (value, s)

/-- The value of a `%YAML` directive: two numbers with a dot between. -/
def versionValue (s : Scanner) (start : Mark) : Except Fault (Nat × Nat × Scanner) := do
  let s ← s.skipBlanks
  let (major, s) ← s.versionNumber start
  if s.cur != '.' then s.fail start "did not find expected digit or '.' character"
  else
    let (minor, s) ← s.skip.versionNumber start
    return (major, minor, s)

/-- A tag handle: `!`, then word characters, then `!`. Outside a directive the closing `!` may
be missing, and what was read is then the start of a tag. -/
def tagHandle (s : Scanner) (directive : Bool) (start : Mark) : Except Fault (String × Scanner) := do
  s.need 1
  if s.cur != '!' then s.fail start "did not find expected '!'"
  else
    let (h, s) := s.read ""
    s.need 1
    let (h, s) ← readWhile isWordChar s.fuel s h
    if s.cur == '!' then return s.read h
    else if directive && h != "!" then s.fail start "did not find expected '!'"
    else return (h, s)

/-- The text of bytes: valid characters as themselves, other bytes as U+FFFD. -/
def bytesText (bs : List UInt8) : String :=
  Utf8.lossy bs

/-- An escaped UTF-8 sequence in a URI: `%hh` per byte, as many as the first byte calls for. -/
def uriEscapes (s : Scanner) (start : Mark) : Except Fault (String × Scanner) :=
  go 5 none [] s
where
  /-- Reads the escapes, `left` of them still to come once the first is read. -/
  go : Nat → Option Nat → List UInt8 → Scanner → Except Fault (String × Scanner)
    | 0, _, acc, s => .ok (bytesText acc.reverse, s)
    | fuel + 1, left, acc, s => do
      s.need 3
      match s.cur == '%', hexValue? (s.peekAt 1), hexValue? (s.peekAt 2) with
      | true, some hi, some lo =>
        let octet := (hi * 16 + lo).toUInt8
        let width ← match left with
          | none =>
            let w := Chars.utf8Width octet
            if w == 0 then s.fail start "found an incorrect leading UTF-8 octet" else pure w
          | some w =>
            if octet &&& 0xC0 != 0x80 then s.fail start "found an incorrect trailing UTF-8 octet"
            else pure w
        let s := s.skipN 3
        if width == 1 then .ok (bytesText (octet :: acc).reverse, s)
        else go fuel (some (width - 1)) (octet :: acc) s
      | _, _, _ => s.fail start "did not find URI escaped octet"

/-- A character that may appear in a URI. -/
def isUriChar (c : Char) : Bool :=
  isWordChar c || ";/?:@&=+$,.!~*'()[]%".contains c

/-- The URI of a tag or of a tag prefix, after `head` without its `!`. It may not be empty. -/
def tagUri (s : Scanner) (head : String) (start : Mark) : Except Fault (String × Scanner) := do
  s.need 1
  go s.fuel (!head.isEmpty) (String.ofList (head.toList.drop 1)) s
where
  /-- Reads the characters of the URI. -/
  go : Nat → Bool → String → Scanner → Except Fault (String × Scanner)
    | 0, _, acc, s => .ok (acc, s)
    | fuel + 1, found, acc, s =>
      if isUriChar s.cur then do
        let (acc, s) ← if s.cur == '%' then do
            let (t, s) ← s.uriEscapes start
            pure (acc ++ t, s)
          else pure (s.read acc)
        s.need 1
        go fuel true acc s
      else if !found then s.fail start "did not find expected tag URI"
      else .ok (acc, s)

/-- The handle and prefix of a `%TAG` directive. -/
def tagDirectiveValue (s : Scanner) (start : Mark) : Except Fault (String × String × Scanner) := do
  let s ← s.skipBlanks
  let (handle, s) ← s.tagHandle true start
  s.need 1
  if !isBlank s.cur then s.fail start "did not find expected whitespace"
  else
    let s ← skipWhile isBlank s.fuel s
    let (pfx, s) ← s.tagUri "" start
    s.need 1
    if !isBlankEnd s.cur then s.fail start "did not find expected whitespace or line break"
    else return (handle, pfx, s)

/-- Skips a comment to the end of its line. -/
def skipComment (s : Scanner) : Except Fault Scanner :=
  if s.cur == '#' then skipWhile (fun c => !isBreakEnd c) s.fuel s else .ok s

/-- A directive: its token, once the rest of its line is read. -/
def scanDirective (s : Scanner) : Except Fault (Token × Scanner) := do
  let start := s.mark
  let (name, s) ← s.skip.directiveName start
  let (kind, s) ←
    if name == "YAML" then do
      let (major, minor, s) ← s.versionValue start
      pure (TokenKind.versionDirective major minor, s)
    else if name == "TAG" then do
      let (handle, pfx, s) ← s.tagDirectiveValue start
      pure (TokenKind.tagDirective handle pfx, s)
    else s.fail start "found unknown directive name"
  let stop := s.mark
  let s ← s.skipBlanks
  let s ← s.skipComment
  if !isBreakEnd s.cur then s.fail start "did not find expected comment or line break"
  else
    let s ← if isBreak s.cur then do s.need 2; pure s.skipLine else pure s
    return (⟨kind, start, stop⟩, s)

/-- A character that may follow an anchor or alias name. -/
def endsName (c : Char) : Bool :=
  isBlankEnd c || "?:,]\x7d%@".contains c || c.toNat == 96

/-- An anchor or an alias: its token. -/
def scanAnchor (s : Scanner) (isAlias : Bool) : Except Fault (Token × Scanner) := do
  let start := s.mark
  let s := s.skip
  s.need 1
  let (name, s) ← readWhile isWordChar s.fuel s ""
  if name.isEmpty || !endsName s.cur then
    s.fail start "did not find expected alphabetic or numeric character"
  else return (⟨if isAlias then .alias name else .anchor name, start, s.mark⟩, s)

/-- A tag: its token. -/
def scanTag (s : Scanner) : Except Fault (Token × Scanner) := do
  let start := s.mark
  s.need 2
  let (handle, suffix, s) ←
    if s.peekAt 1 == '<' then do
      let (suffix, s) ← (s.skipN 2).tagUri "" start
      if s.cur != '>' then s.fail start "did not find the expected '>'"
      else pure (none, suffix, s.skip)
    else do
      let (handle, s) ← s.tagHandle false start
      if handle.length > 1 && handle.startsWith "!" && handle.endsWith "!" then do
        let (suffix, s) ← s.tagUri "" start
        pure (some handle, suffix, s)
      else do
        let (suffix, s) ← s.tagUri handle start
        if suffix.isEmpty then pure (some "", "!", s) else pure (some "!", suffix, s)
  s.need 1
  if !isBlankEnd s.cur && (s.flowLevel == 0 || s.cur != ',') then
    s.fail start "did not find expected whitespace or line break"
  else return (⟨.tag handle suffix, start, s.mark⟩, s)

end Scanner

end BitTorrent.Yaml
