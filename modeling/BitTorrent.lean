import BitTorrent.Bencode.Decode
import BitTorrent.Bencode.Encode
import BitTorrent.Bencode.Value
import BitTorrent.Bitfield
import BitTorrent.Bytes.BigEndian
import BitTorrent.Bytes.Hex
import BitTorrent.Cli.App
import BitTorrent.Cli.Client
import BitTorrent.Cli.Flags
import BitTorrent.Cli.Host
import BitTorrent.Config.Basic
import BitTorrent.Config.Load
import BitTorrent.Disk.Basic
import BitTorrent.Disk.Error
import BitTorrent.Fault
import BitTorrent.Hash.Sha1
import BitTorrent.Json.Lines
import BitTorrent.Json.Read
import BitTorrent.Json.Value
import BitTorrent.Log.Level
import BitTorrent.Main
import BitTorrent.Meta.Build
import BitTorrent.Meta.Info
import BitTorrent.Meta.Torrent
import BitTorrent.Net.Address
import BitTorrent.Picker.Basic
import BitTorrent.Picker.BlockState
import BitTorrent.Picker.Select
import BitTorrent.Picker.Update
import BitTorrent.Piece.Block
import BitTorrent.Piece.Digest
import BitTorrent.Piece.Layout
import BitTorrent.Resume.File
import BitTorrent.Resume.Store
import BitTorrent.Session.Bucket
import BitTorrent.Session.Coordinator
import BitTorrent.Session.Flags
import BitTorrent.Session.Peer
import BitTorrent.Session.Recorder
import BitTorrent.Session.Script
import BitTorrent.Session.Setup
import BitTorrent.Session.Speed
import BitTorrent.Session.State
import BitTorrent.Storage.FileStorage
import BitTorrent.Storage.FileStore
import BitTorrent.Storage.FileTree
import BitTorrent.Storage.IoError
import BitTorrent.Storage.MemFile
import BitTorrent.Storage.MemStore
import BitTorrent.Storage.PieceCache
import BitTorrent.Storage.Section
import BitTorrent.Text.Base64
import BitTorrent.Text.Binary64
import BitTorrent.Text.Blank
import BitTorrent.Text.Decimal
import BitTorrent.Text.Duration
import BitTorrent.Text.Literal
import BitTorrent.Text.Numeral
import BitTorrent.Text.Path
import BitTorrent.Text.Printable
import BitTorrent.Text.Quote
import BitTorrent.Text.Timestamp
import BitTorrent.Text.Utf8
import BitTorrent.Torrent.Connections
import BitTorrent.Torrent.Download
import BitTorrent.Torrent.Stats
import BitTorrent.Torrent.Status
import BitTorrent.Torrent.Swarm
import BitTorrent.Tracker.Announcer
import BitTorrent.Tracker.Event
import BitTorrent.Unchoke.Draws
import BitTorrent.Unchoke.Unchoker
import BitTorrent.Wire.Handshake
import BitTorrent.Wire.Message
import BitTorrent.Wire.Outbox
import BitTorrent.Wire.Reader
import BitTorrent.Yaml.Chars
import BitTorrent.Yaml.Event
import BitTorrent.Yaml.Event.Parser
import BitTorrent.Yaml.Node
import BitTorrent.Yaml.Resolve
import BitTorrent.Yaml.Timestamp
import BitTorrent.Yaml.Token
import BitTorrent.Yaml.Token.Fetch
import BitTorrent.Yaml.Token.Scalar
import BitTorrent.Yaml.Token.Scanner
import BitTorrent.Yaml.Token.Tag
import BitTorrent.Proofs.Bitfield
import BitTorrent.Proofs.Picker.Layout
import BitTorrent.Proofs.Picker.Invariant
import BitTorrent.Proofs.Picker.Selection
import BitTorrent.Proofs.Picker.Reachable
import BitTorrent.Proofs.Storage.Frame
import BitTorrent.Proofs.Piece.Layout
import BitTorrent.Proofs.Disk.Written
import BitTorrent.Proofs.Torrent.Operations
import BitTorrent.Proofs.Torrent.Pipeline
import BitTorrent.Proofs.Torrent.Start
import BitTorrent.Proofs.Torrent.Agreement
import BitTorrent.Proofs.Torrent.Availability
import BitTorrent.Proofs.Picker.Senders
import BitTorrent.Proofs.Torrent.Parole
import BitTorrent.Proofs.Storage.Confinement
import BitTorrent.Proofs.Torrent.Lifecycle
import BitTorrent.Proofs.Disk.Intact
import BitTorrent.Proofs.Picker.Bytes
import BitTorrent.Proofs.Torrent.Counters
import BitTorrent.Proofs.Torrent.Resume
import BitTorrent.Proofs.Disk.Completion
import BitTorrent.Proofs.Unchoke.Slots
import BitTorrent.Proofs.Unchoke.Run
import BitTorrent.Proofs.Session.Choking
import BitTorrent.Proofs.Wire.Queue
import BitTorrent.Proofs.Torrent.Verified
import BitTorrent.Proofs.Picker.Release
import BitTorrent.Proofs.Picker.Answer
import BitTorrent.Proofs.Picker.Grants
import BitTorrent.Proofs.Picker.Tiers
import BitTorrent.Proofs.Picker.Contract
import BitTorrent.Proofs.Meta.Lengths
import BitTorrent.Proofs.Piece.Cover
import BitTorrent.Proofs.Piece.Blocks
import BitTorrent.Proofs.Wire.Framing
import BitTorrent.Proofs.Storage.Slice
import BitTorrent.Proofs.Bitfield.Shape
import BitTorrent.Proofs.Storage.Io
import BitTorrent.Proofs.Disk.Scan
import BitTorrent.Proofs.Storage.PieceCache
import BitTorrent.Proofs.Disk.CachedReads
import BitTorrent.Proofs.Session.Uploads
import BitTorrent.Proofs.Wire.Handshake
import BitTorrent.Proofs.Text.Bytes
import BitTorrent.Proofs.Text.Decimal
import BitTorrent.Proofs.Bencode.RoundTrip
import BitTorrent.Proofs.Text.Timestamp
import BitTorrent.Proofs.Resume.Database
import BitTorrent.Proofs.Resume.ReadBack
import BitTorrent.Proofs.Meta.Pieces
import BitTorrent.Proofs.Meta.ReadBack
import BitTorrent.Proofs.Tracker.Discipline
import BitTorrent.Proofs.Bencode.Raw
import BitTorrent.Proofs.Meta.TorrentFile
import BitTorrent.Proofs.Torrent.Dialing
