import Bindery.Expansion.Pass
import Bindery.Listing.Extract

/-!
# What directives put in their place

Listings, figures, definitions, references and metadata. Inclusion is not among them, because it
expands another document.
-/

namespace Bindery.Expansion

open Text (bytes)

/-! ## Labels -/

/-- Defines a label and returns its number. -/
def define (kind key : Bytes) : Pass Nat := do
  let draft ← get
  match draft.registry.define kind key with
  | .error refusal => throw refusal.toFault
  | .ok (number, registry) =>
    set { draft with registry }
    pure number

/-! ## Listings -/

/-- The caption of a listing: a full stop is added unless it ends in punctuation, and then the link to
the source. -/
def listingCaption (caption url : Bytes) : Bytes :=
  let caption := Text.trim caption
  let ended := caption.getLast?.any fun c : UInt8 => c == '.' || c == '!' || c == '?'
  let caption := if caption.isEmpty || ended then caption else caption ++ "."
  let caption := if url.isEmpty then caption else caption ++ " ([src](" ++ url ++ "))"
  Text.trim caption

/-- A listing as a fenced block with its caption. -/
def fencedListing (label caption fence body : Bytes) : Bytes :=
  let class' : Bytes := if fence.isEmpty then [] else bytes " ." ++ fence
  bytes "Listing: " ++ caption ++ "\n\n```\x7b#lst:" ++ label ++ class' ++ " .numberLines\x7d\n"
    ++ body ++ "\n```"

/-- What a listing directive asks for, apart from the file. -/
structure ListingRequest where
  label : Bytes
  caption : Bytes
  lines : Bytes
  labels : Bytes
  options : Bytes

/-- Makes the listing of a file. -/
def listing (s : Setting) (path url : Bytes) (r : ListingRequest) : Pass Bytes := do
  let source ← Pass.require <| (s.tree.read path).mapError fun cause =>
    .raiseFrom cause .fileSystem "cannot read listing source" [("path", .str path)]
  Pass.note (.sourced path source)
  let language := Listing.Language.ofPath path
  let request : Listing.Request :=
    { lines := r.lines, labels := r.labels, options := r.options, language }
  let body ← Pass.require <| (Listing.extract source request).mapError fun refusal =>
    refusal.toFault.withDefault "path" (.str (s.display path))
  let label := Text.trim r.label
  let _ ← define "lst" label
  pure (fencedListing label (listingCaption r.caption url) language.fence body)

/-- A listing of a file next to the document. -/
def localListing (s : Setting) (dir file : Bytes) (r : ListingRequest) : Pass Bytes := do
  let path ← Pass.require <| (s.resolver.resolve s.tree dir file s.lang).mapError (·.toFault)
  let checkout ← s.projectCheckout
  listing s path ((checkout.bind (·.fileLink? path)).getD []) r

/-- A listing of a file of a repository. -/
def repositoryListing (s : Setting) (mnemonic file : Bytes) (r : ListingRequest) : Pass Bytes := do
  let mnemonic := Text.trim mnemonic
  if !s.repositories then
    throw (Fault.raise .repository "no repositories declared" [("repository", .str mnemonic)])
  let snapshot ← Pass.require (← Pass.ask (.snapshot mnemonic))
  let path ← Pass.require <|
    (Resolver.resolveInside s.tree snapshot.root file).mapError (·.toFault)
  listing s path ((snapshot.fileLink? path).getD []) r

/-! ## Figures -/

/-- The text with the long `ſ` written as `s`. -/
def foldLongS (s : Bytes) : Bytes := Text.replaceAll [0xC5, 0xBF] [115] s

/-- Whether a path names a compressed drawing, in any case of letters. -/
def isCompressed (path : Bytes) : Bool := foldLongS (Text.lower (Path.ext path)) == bytes ".svgz"

/-- The path that the document links to for a file: compressed drawings are unpacked. -/
def resourceTarget (path : Bytes) : Bytes :=
  if isCompressed path then Text.withoutEnd (Path.ext path) path ++ ".svg" else path

/-- Remembers a file that goes next to the document, once per target. -/
def addResource (r : Resource) : Pass Unit := modify fun d =>
  if d.resources.any (·.target == r.target) then d else { d with resources := d.resources ++ [r] }

/-- A figure. -/
def figure (s : Setting) (dir label caption file attributes : Bytes) : Pass Bytes := do
  let path ← Pass.require <| (s.resolver.resolve s.tree dir file s.lang).mapError (·.toFault)
  let shown ← Pass.require <| (s.resolver.relative path).mapError (·.toFault)
  let target := resourceTarget shown
  let label := Text.trim label
  let _ ← define "fig" label
  addResource { source := path, target, decompress := isCompressed shown }
  let extra := Text.trim attributes
  let attributes := bytes "#fig:" ++ label ++ if extra.isEmpty then [] else bytes " " ++ extra
  pure (bytes "![" ++ Text.trim caption ++ "](" ++ target ++ ")\x7b" ++ attributes ++ "\x7d")

/-! ## Definitions and references -/

/-- A numbered definition. -/
def definition (type label body : Bytes) : Pass Bytes := do
  let type := Text.trim type
  let label := Text.trim label
  if type.isEmpty || Label.isBuiltin type then
    throw (Fault.raise .label "invalid definition type" [("kind", .str type), ("key", .str label)])
  let title ← Pass.ask (.definitionTitle type)
  modify fun d => { d with registry := d.registry.setTitle type title }
  let number ← define type label
  let title := (← get).registry.title type
  pure (bytes "[**" ++ title ++ " " ++ Text.ofNat number ++ "**]\x7b#def:" ++ label
    ++ "\x7d: " ++ Text.trim body)

/-- The character before the number in a mark. -/
def markStart : Bytes := [0xEE, 0x80, 0x80]

/-- The character after the number in a mark. -/
def markEnd : Bytes := [0xEE, 0x80, 0x81]

/-- The mark that stands for a pending reference until all definitions are known. -/
def mark (index : Nat) : Bytes := markStart ++ Text.ofNat index ++ markEnd

/-- A reference to a definition. -/
def reference (label file : Bytes) (line : Nat) : Pass Bytes := do
  let label := Text.trim label
  if label.isEmpty then throw (Fault.raise .label "empty definition reference")
  let draft ← get
  let pending : Pending := { label, file, line }
  set { draft with pending := draft.pending ++ [pending] }
  pure (mark draft.pending.length)

/-! ## Metadata -/

/-- What is known of the checkout that holds the book; there must be one. -/
def checkoutField (s : Setting) (field : Snapshot → Bytes) : Pass Bytes := do
  match ← s.projectCheckout with
  | some snapshot => pure (field snapshot)
  | none =>
    throw (Fault.raise .metadata "project is not inside a git checkout" [("root", .str s.resolver.root)])

/-- A property of the active language; there must be one. -/
def languageField (s : Setting) (key : Bytes) (field : Descriptor → Bytes) : Pass Bytes :=
  if s.lang.id.isEmpty then throw (Fault.raise .metadata "no language is active" [("key", .str key)])
  else pure (field s.lang.active)

/-- The value of a metadata key. Some keys speak of the pass itself. -/
def metadata (s : Setting) (key : Bytes) : Pass Bytes := do
  let key := Text.trim key
  if key.isEmpty then throw (Fault.raise .metadata "empty metadata key")
  else if key == bytes "time" then pure s.now.documentText
  else if key == bytes "date" then pure s.now.dateText
  else if key == bytes "year" then pure (Moment.yearText s.now.date.year)
  else if key == bytes "lang" then languageField s key (·.id)
  else if key == bytes "locale" then languageField s key (·.locale)
  else if key == bytes "lang.name" then languageField s key (·.name)
  else if key == bytes "repo.name" then checkoutField s (·.name)
  else if key == bytes "repo.url" then checkoutField s (·.webPage)
  else if key == bytes "repo.commit" then checkoutField s (·.commit)
  else if key == bytes "repo.date" then checkoutField s (·.date.documentText)
  else Pass.require (← Pass.ask (.text key))

end Bindery.Expansion
