import Bindery.Metadata.Block
import Bindery.Resolver

/-!
# The first metadata of a book

Which languages and repositories a book has is known only from its metadata, and the metadata may
stand in an included document. So the first inclusion of the root document, and nothing else, is put
in its place before the first block is decoded.
-/

namespace Bindery.Metadata

open Text (bytes)

/-- The first inclusion of a text: what stands before it, the name it includes, and what stands
after it. The name holds no braces. -/
def firstInclusion? : Bytes → Option (Bytes × Bytes × Bytes)
  | [] => none
  | c :: rest =>
    let here : Option (Bytes × Bytes × Bytes) := do
      let inside ← Text.afterStart? "\\rel.input\x7b" (c :: rest)
      let name := inside.takeWhile fun c : UInt8 => c != '{' && c != '}'
      match inside.drop name.length with
      | d :: after => if d = '}' then some ([], name, after) else none
      | [] => none
    match here with
    | some found => some found
    | none => (firstInclusion? rest).map fun (before, name, after) => (c :: before, name, after)

/-- The layer that the root document of a book declares. -/
def loadInitial (resolver : Resolver) (tree : FileTree) (root : Bytes) (lang : LanguageContext) :
    Except Fault Layer := do
  let text ← (tree.read root).mapError fun cause =>
    .raiseFrom cause .fileSystem "cannot read root document" [("file", .str root)]
  let text ←
    -- The block may stand in the first document that the root includes.
    match firstInclusion? text with
    | none => .ok text
    | some (before, name, after) => do
      let child ← (resolver.resolve tree (Path.dir root) name lang).mapError (·.toFault)
      let body ← (tree.read child).mapError fun cause =>
        .raiseFrom cause .fileSystem "cannot read metadata document" [("file", .str child)]
      .ok (before ++ body ++ after)
  match findBlock text with
  | .ok layer => .ok (layer.getD [])
  | .error cause =>
    .error (.passOn cause .metadata "cannot load initial metadata" [("file", .str root)])

end Bindery.Metadata
