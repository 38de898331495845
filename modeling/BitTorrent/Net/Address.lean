/-!
# TCP addresses

An address is written `host:port`, an IPv6 host in brackets. The port is decimal with an
optional sign and lies in 0 to 65535, or is the name of a well-known service; an empty port is
0. Its digits are read in 32-bit arithmetic, so a long numeral can wrap around to a small port. The host is a literal IPv4 address, a literal IPv6 address or a name; an empty host is the
unspecified address. Resolved for IPv4, an IPv6 address counts only when it maps an IPv4
address, and a name is looked up among the names the machine knows.

A failure names the part of the address at fault, as in
`address nope: missing port in address`, or the name that could not be looked up.
-/

namespace BitTorrent.Net

/-- Why an address could not be resolved. -/
inductive ResolveError where
  /-- The address, or its host or port, is at fault. -/
  | address (addr reason : String)
  /-- A name was not found. -/
  | lookup (name reason : String)
  deriving DecidableEq, Repr

/-- The text a resolve error is reported with. -/
def ResolveError.message : ResolveError → String
  | .address a r => if a.isEmpty then r else "address " ++ a ++ ": " ++ r
  | .lookup n r => "lookup " ++ n ++ ": " ++ r

/-- The position of the first `c` in `cs`. -/
def indexOf? (c : Char) (cs : List Char) : Option Nat :=
  cs.idxOf? c

/-- Splits `host:port` at its last colon; a bracketed host must end right before it and hold
the only brackets. -/
def splitHostPort (s : String) : Except ResolveError (String × String) := do
  let cs := s.toList
  let some i := (cs.length - 1 - ·) <$> indexOf? ':' cs.reverse
    | throw (.address s "missing port in address")
  let (host, j, k) ← match cs with
    | '[' :: _ =>
      match indexOf? ']' cs with
      | none => throw (.address s "missing ']' in address")
      | some e =>
        if e + 1 == cs.length then throw (.address s "missing port in address")
        else if e + 1 == i then pure (String.ofList ((cs.take e).drop 1), 1, e + 1)
        else if cs[e + 1]? == some ':' then throw (.address s "too many colons in address")
        else throw (.address s "missing port in address")
    | _ =>
      let host := cs.take i
      if host.contains ':' then throw (.address s "too many colons in address")
      else pure (String.ofList host, 0, 0)
  if (cs.drop j).contains '[' then throw (.address s "unexpected '[' in address")
  if (cs.drop k).contains ']' then throw (.address s "unexpected ']' in address")
  return (host, String.ofList (cs.drop (i + 1)))

/-- The ports of well-known services over TCP. -/
def services : List (String × Nat) :=
  [("ftp", 21), ("ftps", 990), ("gopher", 70), ("http", 80), ("https", 443), ("imap2", 143),
   ("imap3", 220), ("imaps", 993), ("pop3", 110), ("pop3s", 995), ("smtp", 25),
   ("submissions", 465), ("ssh", 22), ("telnet", 23)]

/-- The value at which reading the digits of a port stops: 2^30. -/
def portCutoff : UInt32 := 0x40000000

/-- Reads the digits of a port in 32-bit arithmetic, where ten times the value wraps around
unnoticed and only a carry out of adding the digit counts as overflow. A character that is no
digit makes the port a service name (none). Once the value has reached `portCutoff`, or the
addition overflowed, the scan stops with the largest word and the characters after it are not
looked at. -/
def scanPort : UInt32 → List Char → Option UInt32
  | n, [] => some n
  | n, c :: cs =>
    if !c.isDigit then none
    else if n ≥ portCutoff then some 0xFFFFFFFF
    else
      let m := n * 10
      let nn := m + (c.toNat - 48).toUInt32
      if nn < m then some 0xFFFFFFFF else scanPort nn cs

/-- A decimal port with an optional sign, its magnitude clamped to below `portCutoff` when
positive and to at most `portCutoff` when negative, or none when it is a service name. -/
def portNumber (s : String) : Option Int :=
  let (neg, cs) := match s.toList with
    | '+' :: rest => (false, rest)
    | '-' :: rest => (true, rest)
    | cs => (false, cs)
  (scanPort 0 cs).map fun n =>
    let p : Nat :=
      if !neg && n ≥ portCutoff then portCutoff.toNat - 1
      else if neg && n > portCutoff then portCutoff.toNat
      else n.toNat
    if neg then -(p : Int) else p

/-- Resolves a port. -/
def port (s : String) : Except ResolveError Nat := do
  if s.isEmpty then return 0
  let p ← match portNumber s with
    | some p => pure p
    | none =>
      match services.lookup s.toLower with
      | some p => pure (p : Int)
      | none => throw (.lookup ("tcp/" ++ s) "unknown port")
  if p < 0 || p > 65535 then throw (.address s "invalid port")
  return p.toNat

/-- The value of a decimal field of an IPv4 address: digits without a leading zero, at most
255. -/
def octet (cs : List Char) : Option Nat :=
  if cs.isEmpty || !cs.all Char.isDigit || (cs.length > 1 && cs.head? == some '0') then none
  else
    let n := cs.foldl (fun n c => n * 10 + (c.toNat - 48)) 0
    if n > 255 then none else some n

/-- Reads a literal IPv4 address: four decimal fields between dots. -/
def ipv4 (s : String) : Option (List Nat) :=
  let fields := s.toList.splitOn '.'
  if fields.length != 4 then none else fields.mapM octet

/-- The value of a group of an IPv6 address: one to four hexadecimal digits. -/
def hexGroup (cs : List Char) : Option Nat :=
  if cs.isEmpty || cs.length > 4 then none
  else cs.foldlM (fun n c =>
    if c.isDigit then some (n * 16 + (c.toNat - 48))
    else if 'a' ≤ c && c ≤ 'f' then some (n * 16 + (c.toNat - 87))
    else if 'A' ≤ c && c ≤ 'F' then some (n * 16 + (c.toNat - 55))
    else none) 0

/-- The bytes of the colon-separated groups of an IPv6 address; the last group may be an IPv4
address when `last` is set. -/
def groups (last : Bool) : List (List Char) → Option (List Nat)
  | [] => some []
  | [g] =>
    if last && g.contains '.' then ipv4 (String.ofList g)
    else (hexGroup g).map fun n => [n / 256, n % 256]
  | g :: gs => do
    let n ← hexGroup g
    let rest ← groups last gs
    return [n / 256, n % 256] ++ rest

/-- The colon-separated groups of text; none for empty text. -/
def splitGroups (cs : List Char) : List (List Char) :=
  if cs.isEmpty then [] else cs.splitOn ':'

/-- Reads a literal IPv6 address, with an optional zone after `%`: its sixteen bytes. A `::`
stands for one or more groups of zeros. -/
def ipv6 (s : String) : Option (List Nat) := do
  let cs := s.toList
  let cs ← match indexOf? '%' cs with
    | none => some cs
    | some z => if z + 1 == cs.length then none else some (cs.take z)
  let pairs := (List.range cs.length).filter fun i => cs[i]? == some ':' && cs[i + 1]? == some ':'
  match pairs with
  | [] =>
    let bs ← groups true (splitGroups cs)
    if bs.length == 16 then some bs else none
  | [e] =>
    let left ← groups false (splitGroups (cs.take e))
    let right ← groups true (splitGroups (cs.drop (e + 2)))
    if left.length + right.length < 16 then
      some (left ++ List.replicate (16 - left.length - right.length) 0 ++ right)
    else none
  | _ => none

/-- Reads a literal IP address: IPv4 when a dot comes before any colon, IPv6 when a colon
comes first, none otherwise. The answer is the four bytes of an IPv4 address, or the IPv4
address an IPv6 address maps, or none for another IPv6 address. -/
def literal (s : String) : Option (Option (List Nat)) :=
  match s.toList.find? fun c => c == '.' || c == ':' || c == '%' with
  | some '.' => (ipv4 s).map some
  | some ':' =>
    (ipv6 s).map fun bs =>
      if bs.take 10 == List.replicate 10 0 && bs[10]? == some 255 && bs[11]? == some 255 then
        some (bs.drop 12)
      else none
  | _ => none

/-- The names the machine knows, with their IPv4 addresses. -/
def knownNames : List (String × List Nat) :=
  [("localhost", [127, 0, 0, 1])]

/-- The dotted text of an IPv4 address. -/
def dotted (ip : List Nat) : String :=
  ".".intercalate (ip.map toString)

/-- Resolves an address for TCP over IPv4: its text as `a.b.c.d:port`, or `:port` for the
unspecified address. -/
def resolveTcp4 (s : String) : Except ResolveError String := do
  if s.isEmpty then return ":0"
  let (host, portText) ← splitHostPort s
  let p ← port portText
  if host.isEmpty then return ":" ++ toString p
  let ip ← match literal host with
    | some (some ip) => pure ip
    | some none => throw (.address host "no suitable address found")
    | none =>
      match knownNames.lookup host.toLower with
      | some ip => pure ip
      | none => throw (.lookup host "no such host")
  return dotted ip ++ ":" ++ toString p

end BitTorrent.Net
