import BitTorrent.Yaml.Event.Parser

/-!
# Composing the node graph of a document

The events of the first document of a stream are composed into nodes: scalars, sequences,
mappings, and aliases that stand for an anchored node. An anchor names its node from the
moment the node starts, so an alias inside a collection may stand for the collection itself;
the graph is therefore kept as a table of nodes, and an alias holds the index of its node. A
later anchor of the same name replaces an earlier one; an alias to a name never given fails.

Tags of collections are not kept. Each node keeps the line its first event starts on, counted
from zero. An empty stream has no document. After the root node the end of the document is
read, which may read further into the stream.
-/

namespace BitTorrent.Yaml

/-- A node of a document; children are indices into the document's table. -/
inductive Node where
  /-- A scalar with its text and tag; implicit when its tag may be found from its text. -/
  | scalar (text tag : String) (implicit : Bool) (line : Nat)
  | sequence (items : List Nat) (line : Nat)
  /-- A mapping with its keys and values in the order written. -/
  | mapping (pairs : List (Nat × Nat)) (line : Nat)
  /-- An alias of an anchor, with the index of the node it stands for. -/
  | alias (name : String) (target : Nat) (line : Nat)
  deriving Repr, Inhabited

/-- The line a node starts on, counted from zero. -/
def Node.line : Node → Nat
  | .scalar _ _ _ l | .sequence _ l | .mapping _ l | .alias _ _ l => l

/-- Whether a node is a mapping. -/
def Node.isMapping : Node → Bool
  | .mapping _ _ => true
  | _ => false

/-- A document: its node table and the index of its root. -/
structure Document where
  nodes : Array Node
  root : Nat
  deriving Repr, Inhabited

/-- A collection still open while its children are read: its index, whether it is a mapping,
and its children so far, last first. -/
structure OpenNode where
  index : Nat
  mapping : Bool
  children : List Nat := []

/-- The state of composing: the parser, the nodes so far, the anchors, last first, and the open
collections, innermost first. -/
structure Composer where
  parser : Parser
  nodes : Array Node := #[]
  anchors : List (String × Nat) := []
  pending : List OpenNode := []

namespace Composer

/-- The next event; none when the stream has ended. -/
def next (c : Composer) : Except String (Option Event × Composer) :=
  match c.parser.next with
  | .ok (e, p) => .ok (e, { c with parser := p })
  | .error f => .error f.message

/-- Adds a node, naming it by its anchor if it has one. -/
def add (c : Composer) (n : Node) (anchor : Option String) : Nat × Composer :=
  let i := c.nodes.size
  let anchors := match anchor with
    | some a => (a, i) :: c.anchors
    | none => c.anchors
  (i, { c with nodes := c.nodes.push n, anchors })

/-- Pairs up the children of a mapping, given in order. -/
def pairs : List Nat → List (Nat × Nat)
  | k :: v :: rest => (k, v) :: pairs rest
  | _ => []

/-- Gives a finished node to the innermost open collection; none when it is the root. -/
def attach (c : Composer) (i : Nat) : Option Composer :=
  match c.pending with
  | [] => none
  | o :: rest => some { c with pending := { o with children := i :: o.children } :: rest }

/-- What a finished node leads to: the next event inside its collection, or the root. -/
inductive Step where
  | more (c : Composer)
  | root (i : Nat) (c : Composer)

/-- Finishes a node: it joins its collection, or it is the root. -/
def finish (c : Composer) (i : Nat) : Step :=
  match c.attach i with
  | some c => .more c
  | none => .root i c

/-- Reads events until the root node is complete. -/
def compose : Nat → Composer → Except String (Nat × Composer)
  | 0, _ => .error "yaml: document too deep"
  | fuel + 1, c => do
    let (e, c) ← c.next
    let some e := e | .error "yaml: attempted to go past the end of stream; corrupted value?"
    let line := e.start.line
    let step ← match e.kind with
      | .scalar anchor tag text implicit _ _ =>
        let (i, c) := c.add (.scalar text tag implicit line) anchor
        pure (c.finish i)
      | .alias name =>
        match c.anchors.lookup name with
        | some target =>
          let (i, c) := c.add (.alias name target line) none
          pure (c.finish i)
        | none => .error ("yaml: unknown anchor '" ++ name ++ "' referenced")
      | .sequenceStart anchor _ =>
        let (i, c) := c.add (.sequence [] line) anchor
        pure (.more { c with pending := { index := i, mapping := false } :: c.pending })
      | .mappingStart anchor _ =>
        let (i, c) := c.add (.mapping [] line) anchor
        pure (.more { c with pending := { index := i, mapping := true } :: c.pending })
      | .sequenceEnd | .mappingEnd =>
        match c.pending with
        | o :: rest =>
          let items := o.children.reverse
          let old := c.nodes.getD o.index default
          let n := if o.mapping then Node.mapping (pairs items) old.line
            else Node.sequence items old.line
          pure ({ c with nodes := c.nodes.set! o.index n, pending := rest }.finish o.index)
        | [] => .error "yaml: unexpected end of a collection"
      | _ => .error "yaml: unexpected event"
    match step with
    | .more c => compose fuel c
    | .root i c => .ok (i, c)

/-- Reads the end of the document after its root. -/
def documentEnd (c : Composer) : Except String Composer := do
  let (_, c) ← c.next
  return c

end Composer

/-- The first document of a stream of bytes, or none for an empty stream. -/
def Document.ofBytes (input : List UInt8) : Except String (Option Document) := do
  let chars := Chars.ofBytes input
  let c : Composer := { parser := { scanner := { input := chars } } }
  let (_, c) ← c.next
  let (e, c) ← c.next
  match e with
  | some ⟨.documentStart, _⟩ =>
    let (root, c) ← Composer.compose (4 * chars.chars.size + 16) c
    let c ← c.documentEnd
    return some { nodes := c.nodes, root }
  | _ => return none

end BitTorrent.Yaml
