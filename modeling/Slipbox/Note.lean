/-! What the index keeps of one document. -/

namespace Slipbox

/-- A note without its body. -/
structure Metadata where
  path : String
  title : String
  type : Option String
  created : Option String
  modified : Option String
  source : Option String
  confidence : Option Float
  verified : Bool

/-- A note with its body, its tags and the targets of its links, as written. -/
structure Note where
  info : Metadata
  content : String
  contentHash : Option String
  tags : List String
  links : List String

def Note.path (n : Note) : String :=
  n.info.path

end Slipbox
