import Bindery.Text.Basic

/-!
# The inclusion tree

Which documents a pass read, and which of them included which.
-/

namespace Bindery.Expansion

open Text (bytes)

/-- A document and the documents it includes, in the order of inclusion. -/
inductive Node where
  | mk (path dir : Bytes) (depth : Nat) (children : List Node)
  deriving Repr

namespace Node

def path : Node → Bytes
  | .mk path _ _ _ => path

mutual

/-- The paths of all documents, in the order in which they were read. -/
def files : Node → List Bytes
  | .mk path _ _ children => path :: filesOf children
termination_by structural n => n

/-- The paths of the documents of several trees. -/
def filesOf : List Node → List Bytes
  | [] => []
  | n :: ns => n.files ++ filesOf ns
termination_by structural ns => ns

end

mutual

/-- The lines for the inclusions of a document. `indent` stands in front of each. -/
def branches (name : Bytes → Bytes) (indent : Bytes) : List Node → Bytes
  | [] => []
  | n :: ns => n.branch name indent ns.isEmpty ++ branches name indent ns
termination_by structural ns => ns

/-- The line for one inclusion and those below it. -/
def branch (name : Bytes → Bytes) (indent : Bytes) (last : Bool) : Node → Bytes
  | .mk path _ _ children =>
    indent ++ (if last then bytes "└── " else bytes "├── ") ++ name path ++ [10]
      ++ branches name (indent ++ if last then bytes "    " else bytes "│   ") children
termination_by structural n => n

end

/-- The tree drawn with lines. -/
def picture (name : Bytes → Bytes) : Node → Bytes
  | .mk path _ _ children => name path ++ [10] ++ branches name [] children

end Node

end Bindery.Expansion
