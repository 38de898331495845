import BitTorrent.Meta.Info
import BitTorrent.Bencode.Encode

/-!
# Torrent files

A torrent file is a dictionary with the info dictionary under "info" and the trackers: one URL
under "announce", or tiers of URLs under "announce-list", which wins when present. The info
dictionary is kept as its exact bytes, since its hash names the torrent. Tracker entries of the
wrong shape are not an error: the tiers decoded before the fault are kept, and only http,
https and udp trackers are used, empty tiers dropped.

Writing a torrent file puts a single tracker under "announce" and anything else under
"announce-list"; empty entries are left out.
-/

namespace BitTorrent

/-- A decoded torrent file: its info dictionary and tiers of tracker URLs. -/
structure MetaInfo where
  info : Info
  trackers : List (List (List UInt8))
  deriving Repr

/-- Why a torrent file was rejected. -/
inductive MetaError where
  | decode (e : Bencode.DecodeError)
  | noInfo
  | info (e : InfoError)
  deriving DecidableEq, Repr

namespace MetaError

/-- The text a torrent file error is reported with. -/
def message : MetaError → String
  | decode e => e.message
  | noInfo => "torrent file has no info dictionary"
  | info e => e.message

/-- The class of a torrent file error. -/
def kind : MetaError → String
  | decode e => e.kind
  | noInfo => "error"
  | info e => e.kind

end MetaError

namespace MetaInfo

/-- Where the entries of a torrent file go: each kept as its exact bytes. -/
def target : Bencode.Target :=
  .record ("struct \x7b Info bencode.RawMessage \"bencode:\\\"info\\\"\"; " ++
      "Announce bencode.RawMessage \"bencode:\\\"announce\\\"\"; " ++
      "AnnounceList bencode.RawMessage \"bencode:\\\"announce-list\\\"\" \x7d")
    [("info", .raw), ("announce", .raw), ("announce-list", .raw)]

/-- Whether a tracker URL has a scheme the client speaks. -/
def supported (url : List UInt8) : Bool :=
  ["http://", "https://", "udp://"].any fun s => (Bencode.key s).isPrefixOf url

/-- The supported trackers of each tier, without the tiers left empty. -/
def supportedTiers (tiers : List (List (List UInt8))) : List (List (List UInt8)) :=
  (tiers.map (·.filter supported)).filter (!·.isEmpty)

/-- The tiers of a raw "announce-list" entry, as far as they decode. -/
def tiersOf (raw : List UInt8) : List (List (List UInt8)) :=
  (Bencode.decode (.list (.list .text)) raw).value.toList.map fun t => t.toList.map (·.toBytes)

/-- The tracker tiers of a torrent file, from the raw bytes of its "announce-list" and "announce"
entries, empty when absent: the list when there is one, else the one URL when it is a string. -/
def tiers (list announce : List UInt8) : List (List (List UInt8)) :=
  if !list.isEmpty then tiersOf list
  else if !announce.isEmpty then
    let u := Bencode.decode .text announce
    if u.error.isNone then [[u.value.toBytes]] else []
  else []

/-- Reads a torrent file. -/
def ofBytes (b : List UInt8) : Except MetaError MetaInfo := do
  let d := Bencode.decode target b
  if let some e := d.error then throw (.decode e)
  let field (k : String) : List UInt8 := ((d.value.get? k).getD .null).toBytes
  let infoBytes := field "info"
  if infoBytes.isEmpty then throw .noInfo
  let info ← match Info.ofBytes infoBytes with
    | .ok i => pure i
    | .error e => throw (.info e)
  return { info, trackers := supportedTiers (tiers (field "announce-list") (field "announce")) }

/-- A torrent file with the given info dictionary bytes and tracker tiers. -/
def encode (info : List UInt8) (trackers : List (List (List UInt8))) : List UInt8 :=
  let announce : List (List UInt8 × Bencode.Value) := match trackers with
    | [[u]] => if u.isEmpty then [] else [(Bencode.key "announce", .str u)]
    | _ => []
  let list : List (List UInt8 × Bencode.Value) := match trackers with
    | [[_]] => []
    | [] => []
    | ts => [(Bencode.key "announce-list", .list (ts.map fun t => .list (t.map .str)))]
  Bencode.encode (Bencode.sortedDict ((Bencode.key "info", .raw info) :: announce ++ list))

end MetaInfo

end BitTorrent
