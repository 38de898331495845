/-!
# Slash-separated paths

Paths are byte strings whose elements are separated by `/`. The clean form of a path is its
shortest equivalent by purely lexical rules: repeated slashes become one, `.` elements go, a
`..` element removes the element before it (and is dropped right after the root), and an empty
result is `.`. Joining puts a slash between the non-empty elements and cleans the result; with
no non-empty element it is empty.
-/

namespace BitTorrent.Path

/-- The slash. -/
def slash : UInt8 := 47

/-- The element `.`. -/
def dot : List UInt8 := [46]

/-- The element `..`. -/
def dotDot : List UInt8 := [46, 46]

/-- Applies the elements of a path to the stack of kept elements, last kept first. -/
def resolve (rooted : Bool) : List (List UInt8) → List (List UInt8) → List (List UInt8)
  | acc, [] => acc
  | acc, e :: es =>
    if e.isEmpty || e == dot then resolve rooted acc es
    else if e == dotDot then
      match acc with
      | top :: rest => if top == dotDot then resolve rooted (e :: acc) es else resolve rooted rest es
      | [] => if rooted then resolve rooted [] es else resolve rooted [e] es
    else resolve rooted (e :: acc) es

/-- The clean form of a path. -/
def clean (p : List UInt8) : List UInt8 :=
  let rooted := p.head? == some slash
  let kept := (resolve rooted [] (p.splitOn slash)).reverse
  let body := List.intercalate [slash] kept
  if rooted then slash :: body
  else if body.isEmpty then dot
  else body

/-- The path of the given elements. -/
def join (es : List (List UInt8)) : List UInt8 :=
  let parts := es.filter (!·.isEmpty)
  if parts.isEmpty then [] else clean (List.intercalate [slash] parts)

end BitTorrent.Path
