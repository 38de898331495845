import BitTorrent.Hash.Sha1

/-!
# Checking a piece against its digest

A downloaded piece is accepted when it has exactly the piece's length and its SHA-1 digest is the
one the torrent lists for it.
-/

namespace BitTorrent.Piece

/-- The data has the piece's length and the piece's digest. -/
def hashMatches (length : UInt32) (hash data : List UInt8) : Bool :=
  data.length == length.toNat && Sha1.ofList data == hash

end BitTorrent.Piece
