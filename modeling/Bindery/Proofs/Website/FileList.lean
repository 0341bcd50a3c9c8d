import Bindery.Proofs.Expansion.Mark
import Bindery.Proofs.Website.Reading
import Bindery.Website.FileList

/-!
# Reading a list of files

The list of files is read back as a tree. The links in it name the files, once each and in order, under the
name of their language if there are several (`read?_fileListWith`). Names and paths are free: what is read
has the same elements whatever they are (`Nodes.outline`), and only the kinds of the files decide which
descriptions stand in it (`kinds`).
-/

namespace Bindery.Website

open Text (bytes)

variable {sizeText : Nat → Bytes} {shelves : List Shelf}

/-! ## Looking through a page -/

namespace Nodes

mutual

/-- A node and all nodes in it, as they begin in the page. -/
def subnodes : Node → List Node
  | .text s => [.text s]
  | .single tag => [.single tag]
  | .element tag attributes content => .element tag attributes content :: subnodesOf content
termination_by structural n => n

@[inherit_doc subnodes]
def subnodesOf : List Node → List Node
  | [] => []
  | n :: ns => subnodes n ++ subnodesOf ns
termination_by structural ns => ns

end

/-- A kind of elements, told by the tag and the attributes. -/
abbrev Kind := Bytes → List (Bytes × Bytes) → Bool

/-- The elements with a tag and a class. -/
def classed (tag class' : Bytes) : Kind := fun t attributes =>
  t == tag && attributes.lookup (bytes "class") == some class'

def links : Kind := fun tag _ => tag == bytes "a"

/-- The attributes and the content of an element of a kind. -/
def element? (kind : Kind) : Node → Option (List (Bytes × Bytes) × List Node)
  | .element tag attributes content => if kind tag attributes then some (attributes, content) else none
  | _ => none

/-- All elements of a kind, with their attributes and their content. -/
def elements (kind : Kind) (ns : List Node) : List (List (Bytes × Bytes) × List Node) :=
  (subnodesOf ns).filterMap (element? kind)

/-- The text of a node, without that of the nodes in it. -/
def ownText : Node → Bytes
  | .text s => s
  | _ => []

def textOf (ns : List Node) : Bytes := (subnodesOf ns).flatMap ownText

/-- The links to files: the attributes and the text of each link in an element for a file. -/
def fileLinks (ns : List Node) : List (List (Bytes × Bytes) × Bytes) :=
  (elements (classed "span" "file") ns).flatMap fun file =>
    (elements links file.2).map fun link => (link.1, textOf link.2)

/-- The languages in lists of languages: the names of each, and the links to its files. -/
def groups (ns : List Node) : List (List Bytes × List (List (Bytes × Bytes) × Bytes)) :=
  (elements (classed "ul" "langs") ns).flatMap fun list =>
    (elements (classed "li" "lang") list.2).map fun lang =>
      ((elements (classed "span" "lang-name") lang.2).map fun name => textOf name.2, fileLinks lang.2)

/-- A sign without its text and without the targets of links. -/
def outlineSign? : Sign → Option Sign
  | .text _ => none
  | .opening tag attributes =>
    some (.opening tag (attributes.map fun a => if a.1 = bytes "href" then (a.1, []) else a))
  | .closing tag => some (.closing tag)

/-- The tags of a part of a page with their attributes. Of a link only that it has a target is told. -/
def outline (ns : List Node) : List Sign := (signsOf ns).filterMap outlineSign?

/-! ### Parts of a page -/

section

variable {kind : Kind} {ns more : List Node} {tag : Bytes} {attributes : List (Bytes × Bytes)}

theorem subnodesOf_append (ns more : List Node) :
    subnodesOf (ns ++ more) = subnodesOf ns ++ subnodesOf more := by
  induction ns with
  | nil => rfl
  | cons n ns ih => rw [List.cons_append, subnodesOf, ih, subnodesOf, List.append_assoc]

@[simp]
theorem elements_append : elements kind (ns ++ more) = elements kind ns ++ elements kind more := by
  rw [elements, subnodesOf_append, List.filterMap_append]
  rfl

theorem elements_element (kind : Kind) (tag : Bytes) (attributes : List (Bytes × Bytes)) (ns : List Node) :
    elements kind [.element tag attributes ns] =
      (if kind tag attributes then [(attributes, ns)] else []) ++ elements kind ns := by
  have hself : elements kind [.element tag attributes ns] =
      (element? kind (.element tag attributes ns)).toList ++ elements kind (ns ++ []) := by
    rw [List.append_nil, elements, subnodesOf, subnodesOf, subnodes, List.append_nil,
      List.filterMap_cons, elements]
    cases element? kind (.element tag attributes ns) <;> rfl
  rw [hself, List.append_nil, element?]
  split <;> rfl

theorem elements_of_pos (h : kind tag attributes = true) :
    elements kind [.element tag attributes ns] = (attributes, ns) :: elements kind ns := by
  rw [elements_element, if_pos h]
  rfl

theorem elements_of_neg (h : kind tag attributes = false) :
    elements kind [.element tag attributes ns] = elements kind ns := by
  rw [elements_element, h]
  rfl

@[simp]
theorem elements_single (kind : Kind) (tag : Bytes) : elements kind [.single tag] = [] := rfl

@[simp]
theorem elements_nodesOfText (kind : Kind) (raw : Bytes) : elements kind (nodesOfText raw) = [] := by
  rw [nodesOfText]
  split <;> rfl

theorem elements_map {α : Type} (kind : Kind) (f : α → Node) (xs : List α) :
    elements kind (xs.map f) = xs.flatMap fun x => elements kind [f x] := by
  induction xs with
  | nil => rfl
  | cons x xs ih =>
    rw [List.map_cons, List.flatMap_cons, ← ih]
    exact @elements_append kind [f x] (xs.map f)

theorem fileLinks_of_neg (h : classed "span" "file" tag attributes = false) :
    fileLinks [.element tag attributes ns] = fileLinks ns := by
  rw [fileLinks, elements_of_neg h]
  rfl

@[simp]
theorem fileLinks_append : fileLinks (ns ++ more) = fileLinks ns ++ fileLinks more := by
  rw [fileLinks, elements_append, List.flatMap_append]
  rfl

theorem fileLinks_map {α : Type} (f : α → Node) (xs : List α) :
    fileLinks (xs.map f) = xs.flatMap fun x => fileLinks [f x] := by
  rw [fileLinks, elements_map, List.flatMap_assoc]
  rfl

@[simp]
theorem fileLinks_nodesOfText (raw : Bytes) : fileLinks (nodesOfText raw) = [] := by
  rw [fileLinks, elements_nodesOfText]
  rfl

/-- An escaped text is shown as it was. -/
theorem textOf_nodesOfText_escape (s : Bytes) : textOf (nodesOfText (Markup.escape s)) = s := by
  rw [nodesOfText]
  split
  · next hempty =>
    have hlength := length_le_escape s
    rw [hempty] at hlength
    exact (List.eq_nil_of_length_eq_zero (Nat.le_zero.1 hlength)).symm
  · rw [unescape_escape]
    exact List.append_nil s

@[simp]
theorem outline_append : outline (ns ++ more) = outline ns ++ outline more := by
  rw [outline, signsOf_append, List.filterMap_append]
  rfl

@[simp]
theorem outline_nodesOfText (raw : Bytes) : outline (nodesOfText raw) = [] := by
  rw [nodesOfText]
  split <;> rfl

theorem outline_element (tag : Bytes) (attributes : List (Bytes × Bytes)) (ns : List Node) :
    outline [.element tag attributes ns] =
      (outlineSign? (.opening tag attributes)).toList ++ outline ns ++ [.closing tag] := by
  simp [outline, signsOf, Node.signs, outlineSign?]

theorem outline_map {α : Type} (f : α → Node) (xs : List α) :
    outline (xs.map f) = xs.flatMap fun x => outline [f x] := by
  induction xs with
  | nil => rfl
  | cons x xs ih =>
    rw [List.map_cons, List.flatMap_cons, ← ih]
    exact @outline_append [f x] (xs.map f)

end

end Nodes

open Nodes

/-! ## The nodes of the list -/

theorem areSound_map {α : Type} {f : α → Markup} {xs : List α} (h : ∀ x ∈ xs, (f x).isSound = true) :
    Markup.areSound (xs.map f) = true := by
  induction xs with
  | nil => rfl
  | cons x xs ih =>
    obtain ⟨hx, hxs⟩ := List.forall_mem_cons.1 h
    rw [List.map_cons, Markup.areSound, hx, ih hxs]
    rfl

theorem nodes_cons {m : Markup} {n : Node} (h : m.emit [] = ([n], [])) (ms : List Markup) :
    Markup.nodes (m :: ms) = n :: Markup.nodes ms := by
  rw [Markup.nodes, Markup.emitAll, h]
  rfl

theorem nodes_map {α : Type} {f : α → Markup} {g : α → Node} (h : ∀ x, (f x).emit [] = ([g x], []))
    (xs : List α) : Markup.nodes (xs.map f) = xs.map g := by
  induction xs with
  | nil => rfl
  | cons x xs ih => rw [List.map_cons, nodes_cons (h x), ih, List.map_cons]

/-- The size of a file as it stands in the page. -/
def Download.sizeRaw (sizeText : Nat → Bytes) (d : Download) : Bytes :=
  Text.replaceAll " " "&nbsp;" (sizeText d.size.toNat)

/-- A link to a file and the size of the file. -/
def Download.anchorContent (sizeText : Nat → Bytes) (d : Download) : List Node :=
  [.element "a" [("href", d.path)] (nodesOfText (Markup.escape (Path.base d.path)))] ++
    (nodesOfText (bytes "&nbsp;") ++ [.element "span" [("class", "size")]
      (nodesOfText (Markup.escape "(" ++ d.sizeRaw sizeText ++ Markup.escape ")"))])

def Download.anchorNode (sizeText : Nat → Bytes) (d : Download) : Node :=
  .element "span" [("class", "file")] (d.anchorContent sizeText)

/-- What stands in the item of a file behind the link. -/
def noteNodes : Option (List Markup) → List Node
  | some description => [.single "br", .element "span" [("class", "desc")] (Markup.nodes description)]
  | none => []

def Download.itemNode (sizeText : Nat → Bytes) (known : List (Bytes × List Markup)) (d : Download) : Node :=
  .element "li" [("class", "download")]
    ([d.anchorNode sizeText] ++ noteNodes (known.lookup d.suffix))

def Shelf.listNode (sizeText : Nat → Bytes) (s : Shelf) : Node :=
  .element "ul" [("class", "downloads")] (s.files.map (Download.itemNode sizeText (descriptions s.id)))

def Shelf.itemContent (sizeText : Nat → Bytes) (s : Shelf) : List Node :=
  [.element "span" [("class", "lang-name")] (nodesOfText (Markup.escape s.name))] ++ [s.listNode sizeText]

def Shelf.itemNode (sizeText : Nat → Bytes) (s : Shelf) : Node :=
  .element "li" [("class", "lang")] (s.itemContent sizeText)

def fileListNodes (sizeText : Nat → Bytes) (shelves : List Shelf) : List Node :=
  if shelves.length > 1 then
    [.element "ul" [("class", "langs")] (shelves.map (Shelf.itemNode sizeText))]
  else shelves.map (Shelf.listNode sizeText)

theorem Download.emit_item (known : List (Bytes × List Markup)) (d : Download) :
    (d.item sizeText known).emit [] = ([d.itemNode sizeText known], []) := by
  rw [Download.item, Download.note, Download.itemNode]
  cases known.lookup d.suffix <;> rfl

theorem Shelf.emit_list (s : Shelf) : (s.list sizeText).emit [] = ([s.listNode sizeText], []) := by
  have hitems := nodes_map (@Download.emit_item sizeText (descriptions s.id)) s.files
  rw [Shelf.listNode, ← hitems]
  rfl

theorem Shelf.emit_item (s : Shelf) : (s.item sizeText).emit [] = ([s.itemNode sizeText], []) := by
  have hcontent : Markup.nodes [.classed "span" "lang-name" [.text s.name], s.list sizeText] =
      [.element "span" [("class", "lang-name")] (nodesOfText (Markup.escape s.name)), s.listNode sizeText] := by
    rw [nodes_cons (n := .element "span" [("class", "lang-name")] (nodesOfText (Markup.escape s.name))) rfl,
      nodes_cons s.emit_list]
    rfl
  rw [Shelf.itemNode, Shelf.itemContent, List.singleton_append, ← hcontent]
  rfl

theorem nodes_fileListWith (sizeText : Nat → Bytes) (shelves : List Shelf) :
    Markup.nodes (fileListWith sizeText shelves) = fileListNodes sizeText shelves := by
  rw [fileListWith, fileListNodes]
  split
  · rw [← nodes_map Shelf.emit_item]
    rfl
  · exact nodes_map Shelf.emit_list shelves

/-! ## Descriptions -/

/-- The kinds of elements that are looked for in a list of files. -/
def sought : List Kind :=
  [classed "span" "file", classed "span" "lang-name", classed "ul" "langs", classed "li" "lang"]

/-- A description closes its elements, and nothing that is looked for stands in it. -/
theorem of_mem_description :
    ∀ e ∈ Description.english ++ Description.german, Markup.areSound e.2 = true ∧
      ∀ kind ∈ sought, (elements kind (Markup.nodes e.2)).isEmpty = true := by
  decide +kernel

theorem of_lookup_descriptions {lang suffix : Bytes} {description : List Markup}
    (h : (descriptions lang).lookup suffix = some description) :
    Markup.areSound description = true ∧ ∀ kind ∈ sought, elements kind (Markup.nodes description) = [] := by
  -- What is looked up stands in one of the two tables, of which all entries were checked.
  obtain ⟨before, after, hsplit, -⟩ := List.lookup_eq_some_iff.1 h
  have hmem : (suffix, description) ∈ descriptions lang := by simp [hsplit]
  have hall : (suffix, description) ∈ Description.english ++ Description.german := by
    rw [descriptions] at hmem
    split at hmem
    · exact List.mem_append_right _ hmem
    · exact List.mem_append_left _ hmem
  obtain ⟨hsound, hnone⟩ := of_mem_description _ hall
  exact ⟨hsound, fun kind hkind => List.isEmpty_iff.1 (hnone kind hkind)⟩

/-! ## All elements are closed -/

/-- A letter, a digit, a dot or a blank. -/
def isSizeByte (c : UInt8) : Bool := Text.isLetter c || Text.isDigit c || c == 46 || c == 32

theorem isSizeByte_unit (e : Nat) : ∀ c ∈ FileSize.units[e]?.getD [], isSizeByte c = true := by
  have hunits : FileSize.units.all (·.all isSizeByte) = true := by decide
  cases hget : FileSize.units[e]? with
  | none => exact List.forall_mem_nil _
  | some u => exact List.all_eq_true.1 (List.all_eq_true.1 hunits u (List.mem_of_getElem? hget))

theorem isSizeByte_text (n : Nat) : ∀ c ∈ FileSize.text n, isSizeByte c = true := by
  have hdigits : ∀ m, ∀ c ∈ Text.ofNat m, isSizeByte c = true := by
    intro m c hc
    simp [isSizeByte, Expansion.isDigit_of_mem_ofNat hc]
  have hmarks : ∀ s : Bytes, s.all isSizeByte = true → ∀ c ∈ s, isSizeByte c = true := fun s h =>
    List.all_eq_true.1 h
  have hblank := hmarks (bytes " ") rfl
  have hdot := hmarks (bytes ".") rfl
  have hbytes := hmarks (bytes "B") rfl
  rw [FileSize.text, FileSize.parts]
  simp only [List.forall_mem_append]
  split
  · exact ⟨⟨hdigits _, hblank⟩, hbytes⟩
  refine ⟨⟨?_, hblank⟩, isSizeByte_unit _⟩
  dsimp only
  split
  · simp only [List.forall_mem_append]
    exact ⟨⟨hdigits _, hdot⟩, hdigits _⟩
  · exact hdigits _

theorem notMem_replaceWithin {c : UInt8} {pattern new : Bytes} (hnew : c ∉ new) {bound : Nat} {s : Bytes}
    (h : c ∉ s) : c ∉ Text.replaceWithin pattern new bound s := by
  fun_induction Text.replaceWithin pattern new bound s with
  | case1 s => exact h
  | case2 => exact h
  | case3 bound d rest after hafter ih =>
    rw [← List.isPrefixOf?_eq_some_iff_append_eq.1 hafter, List.mem_append, not_or] at h
    rw [List.mem_append, not_or]
    exact ⟨hnew, ih h.2⟩
  | case4 bound d rest _ ih =>
    rw [List.mem_cons, not_or] at h ⊢
    exact ⟨h.1, ih h.2⟩

theorem notMem_sizeRaw (hsize : ∀ n, ∀ c ∈ sizeText n, isSizeByte c = true) (d : Download) :
    60 ∉ d.sizeRaw sizeText := by
  have hraw : 60 ∉ sizeText d.size.toNat := fun hmem => absurd (hsize _ _ hmem) (by decide)
  exact notMem_replaceWithin (by decide) hraw

theorem isSound_classed {tag : Bytes} (htag : (isName tag && !voidTags.contains tag) = true)
    (class' : Bytes) (content : List Markup) :
    (Markup.classed tag class' content).isSound = Markup.areSound content := by
  have hclass : [(bytes "class", class')].all (fun a => isName a.1) = true := rfl
  rw [Markup.classed, Markup.isSound, htag, hclass]
  rfl

theorem isSound_link (target content : Bytes) : (Markup.link target content).isSound = true := rfl

theorem Download.isSound_item (hsize : ∀ n, ∀ c ∈ sizeText n, isSizeByte c = true) (lang : Bytes)
    (d : Download) : (d.item sizeText (descriptions lang)).isSound = true := by
  have hsizeRaw : (Markup.verbatim (d.sizeRaw sizeText)).isSound = true := by
    simpa [Markup.isSound] using notMem_sizeRaw hsize d
  have hanchor : (d.anchor sizeText).isSound = true := by
    have hspan : (Markup.classed "span" "size"
        [.text "(", .verbatim (d.sizeRaw sizeText), .text ")"]).isSound = true := by
      rw [isSound_classed (by decide), Markup.areSound, Markup.areSound, hsizeRaw]
      rfl
    rw [Download.anchor, isSound_classed (by decide), Markup.areSound, isSound_link, Markup.areSound,
      Markup.areSound]
    exact congrArg (true && · && true) hspan
  have hnote : Markup.areSound (d.note (descriptions lang)) = true := by
    rw [Download.note]
    cases hlookup : (descriptions lang).lookup d.suffix with
    | none => rfl
    | some description =>
      have hdescription := (of_lookup_descriptions hlookup).1
      rw [Markup.areSound, Markup.areSound, isSound_classed (by decide), hdescription]
      rfl
  rw [Download.item, isSound_classed (by decide), Markup.areSound, hanchor, hnote]
  rfl

theorem areSound_fileListWith (hsize : ∀ n, ∀ c ∈ sizeText n, isSizeByte c = true) (shelves : List Shelf) :
    Markup.areSound (fileListWith sizeText shelves) = true := by
  have hlist : ∀ s : Shelf, (s.list sizeText).isSound = true := by
    intro s
    rw [Shelf.list, isSound_classed (by decide)]
    exact areSound_map fun d _ => d.isSound_item hsize s.id
  have hitem : ∀ s : Shelf, (s.item sizeText).isSound = true := by
    intro s
    have hname : (Markup.classed "span" "lang-name" [.text s.name]).isSound = true := by
      rw [isSound_classed (by decide)]
      rfl
    rw [Shelf.item, isSound_classed (by decide), Markup.areSound, hname, Markup.areSound, hlist]
    rfl
  rw [fileListWith]
  split
  · rw [Markup.areSound, isSound_classed (by decide), areSound_map fun s _ => hitem s]
    rfl
  · exact areSound_map fun s _ => hlist s

/-! ## What is looked for -/

def Download.link (d : Download) : List (Bytes × Bytes) × Bytes := ([("href", d.path)], Path.base d.path)

theorem elements_noteNodes {kind : Kind} (hkind : kind ∈ sought) (lang suffix : Bytes) :
    elements kind (noteNodes ((descriptions lang).lookup suffix)) = [] := by
  have hdesc : ∀ kind ∈ sought, kind "span" [("class", "desc")] = false := by decide +kernel
  cases hlookup : (descriptions lang).lookup suffix with
  | none => rfl
  | some description =>
    have hnone := (of_lookup_descriptions hlookup).2 kind hkind
    have hparts : noteNodes (some description) =
      [.single "br"] ++ [.element "span" [("class", "desc")] (Markup.nodes description)] := rfl
    rw [hparts, elements_append, elements_single, elements_of_neg (hdesc kind hkind), hnone]
    rfl

/-- In the item of a file only the element for the file is looked for. -/
theorem Download.elements_itemNode {kind : Kind} (hkind : kind ∈ sought) (lang : Bytes) (d : Download) :
    elements kind [d.itemNode sizeText (descriptions lang)] = elements kind [d.anchorNode sizeText] := by
  have hitem : ∀ kind ∈ sought, kind "li" [("class", "download")] = false := by decide +kernel
  rw [Download.itemNode, elements_of_neg (hitem kind hkind), elements_append,
    elements_noteNodes hkind, List.append_nil]

/-- The element for a file holds one link. -/
theorem Download.elements_anchorContent {kind : Kind} (h : kind "span" [("class", "size")] = false)
    (d : Download) : elements kind (d.anchorContent sizeText) =
      if kind "a" [("href", d.path)] then
        [([(bytes "href", d.path)], nodesOfText (Markup.escape (Path.base d.path)))]
      else [] := by
  rw [Download.anchorContent, elements_append, elements_append, elements_element, elements_of_neg h]
  simp only [elements_nodesOfText, List.append_nil]

theorem Download.fileLinks_itemNode (lang : Bytes) (d : Download) :
    fileLinks [d.itemNode sizeText (descriptions lang)] = [d.link] := by
  have hfile : elements (classed "span" "file") (d.anchorContent sizeText) = [] :=
    (d.elements_anchorContent (by rfl)).trans rfl
  have hlink : elements links (d.anchorContent sizeText) =
      [([(bytes "href", d.path)], nodesOfText (Markup.escape (Path.base d.path)))] :=
    (d.elements_anchorContent (by rfl)).trans rfl
  have hitem : elements (classed "span" "file") [d.itemNode sizeText (descriptions lang)] =
      [([(bytes "class", bytes "file")], d.anchorContent sizeText)] := by
    rw [Download.elements_itemNode List.mem_cons_self, Download.anchorNode, elements_of_pos rfl, hfile]
  rw [fileLinks, hitem, List.flatMap_singleton, hlink, List.map_singleton, textOf_nodesOfText_escape]
  rfl

theorem Shelf.fileLinks_listNode (s : Shelf) :
    fileLinks [s.listNode sizeText] = s.files.map Download.link := by
  rw [Shelf.listNode, fileLinks_of_neg rfl, fileLinks_map, List.map_eq_flatMap]
  simp only [Download.fileLinks_itemNode]

theorem Shelf.fileLinks_itemContent (s : Shelf) :
    fileLinks (s.itemContent sizeText) = s.files.map Download.link := by
  rw [Shelf.itemContent, fileLinks_append, fileLinks_of_neg rfl, fileLinks_nodesOfText,
    Shelf.fileLinks_listNode]
  rfl

/-- The links to files are those of the files, in order. -/
theorem fileLinks_fileListNodes (sizeText : Nat → Bytes) (shelves : List Shelf) :
    fileLinks (fileListNodes sizeText shelves) = shelves.flatMap fun s => s.files.map Download.link := by
  rw [fileListNodes]
  split
  · have hitem : ∀ s : Shelf, fileLinks [s.itemNode sizeText] = s.files.map Download.link :=
      fun s => (fileLinks_of_neg rfl).trans s.fileLinks_itemContent
    rw [fileLinks_of_neg rfl, fileLinks_map]
    simp only [hitem]
  · rw [fileLinks_map]
    simp only [Shelf.fileLinks_listNode]

theorem Shelf.elements_listNode {kind : Kind} (hkind : kind ∈ sought.tail) (s : Shelf) :
    elements kind [s.listNode sizeText] = [] := by
  -- The head of `sought` are the files, of which there are some here.
  have hkinds : ∀ kind ∈ sought.tail, kind "ul" [("class", "downloads")] = false ∧
      kind "span" [("class", "file")] = false ∧ kind "span" [("class", "size")] = false ∧
      ∀ target, kind "a" [("href", target)] = false := by
    intro kind hkind
    simp only [sought, List.tail_cons, List.mem_cons, List.not_mem_nil, or_false] at hkind
    rcases hkind with rfl | rfl | rfl <;> exact ⟨rfl, rfl, rfl, fun _ => rfl⟩
  obtain ⟨hlist, hfile, hsize, hlink⟩ := hkinds kind hkind
  rw [Shelf.listNode, elements_of_neg hlist, elements_map]
  have hitem : ∀ d : Download, elements kind [d.itemNode sizeText (descriptions s.id)] = [] := by
    intro d
    rw [Download.elements_itemNode (List.mem_of_mem_tail hkind), Download.anchorNode,
      elements_of_neg hfile, d.elements_anchorContent hsize, hlink]
    rfl
  exact List.flatMap_eq_nil_iff.2 fun d _ => hitem d

/-- In the item of a language only its name is looked for, files apart. -/
theorem Shelf.elements_itemContent {kind : Kind} (hkind : kind ∈ sought.tail) (s : Shelf) :
    elements kind (s.itemContent sizeText) =
      if kind "span" [("class", "lang-name")] then
        [([(bytes "class", bytes "lang-name")], nodesOfText (Markup.escape s.name))]
      else [] := by
  rw [Shelf.itemContent, elements_append, elements_element, s.elements_listNode hkind]
  simp only [elements_nodesOfText, List.append_nil]

/-- Each language is named once, with its own files. -/
theorem groups_fileListNodes (sizeText : Nat → Bytes) (shelves : List Shelf) :
    groups (fileListNodes sizeText shelves) =
      if shelves.length > 1 then shelves.map fun s => ([s.name], s.files.map Download.link) else [] := by
  have hname : classed "span" "lang-name" ∈ sought.tail := by simp [sought]
  have hlangs : classed "ul" "langs" ∈ sought.tail := by simp [sought]
  have hlang : classed "li" "lang" ∈ sought.tail := by simp [sought]
  have hgroup : ∀ s : Shelf, elements (classed "li" "lang") [s.itemNode sizeText] =
      [([(bytes "class", bytes "lang")], s.itemContent sizeText)] := by
    intro s
    rw [Shelf.itemNode, elements_of_pos rfl, s.elements_itemContent hlang]
    rfl
  have hnone : ∀ s : Shelf, elements (classed "ul" "langs") [s.itemNode sizeText] = [] := by
    intro s
    rw [Shelf.itemNode, elements_of_neg rfl, s.elements_itemContent hlangs]
    rfl
  have hnames : ∀ s : Shelf, ((elements (classed "span" "lang-name") (s.itemContent sizeText)).map
      fun name => textOf name.2) = [s.name] := by
    intro s
    rw [s.elements_itemContent hname]
    exact congrArg (fun t => [t]) (textOf_nodesOfText_escape s.name)
  rw [fileListNodes, groups]
  split
  · have hitems : elements (classed "ul" "langs") (shelves.map (Shelf.itemNode sizeText)) = [] := by
      rw [elements_map]
      exact List.flatMap_eq_nil_iff.2 fun s _ => hnone s
    rw [elements_of_pos rfl, hitems, List.flatMap_singleton, elements_map]
    simp only [hgroup]
    rw [← List.map_eq_flatMap, List.map_map]
    exact List.map_congr_left fun s _ => Prod.ext (hnames s) s.fileLinks_itemContent
  · have hlists : elements (classed "ul" "langs") (shelves.map (Shelf.listNode sizeText)) = [] := by
      rw [elements_map]
      exact List.flatMap_eq_nil_iff.2 fun s _ => s.elements_listNode hlangs
    rw [hlists]
    rfl

/-! ## Tags -/

/-- The description of each file, if its kind has one. -/
def kinds (shelves : List Shelf) : List (List (Option (List Markup))) :=
  shelves.map fun s => s.files.map fun d => (descriptions s.id).lookup d.suffix

/-- The tags of the item of a file. -/
def itemOutline (kind : Option (List Markup)) : List Sign :=
  ([.opening "li" [("class", "download")], .opening "span" [("class", "file")],
    .opening "a" [("href", [])], .closing "a",
    .opening "span" [("class", "size")], .closing "span", .closing "span"] : List Sign) ++
  outline (noteNodes kind) ++ [.closing "li"]

def listOutline (kinds : List (Option (List Markup))) : List Sign :=
  [.opening "ul" [("class", "downloads")]] ++ kinds.flatMap itemOutline ++ [.closing "ul"]

def langOutline (kinds : List (Option (List Markup))) : List Sign :=
  ([.opening "li" [("class", "lang")], .opening "span" [("class", "lang-name")], .closing "span"] : List Sign) ++
  listOutline kinds ++ [.closing "li"]

def fileListOutline (kinds : List (List (Option (List Markup)))) : List Sign :=
  if kinds.length > 1 then
    [.opening "ul" [("class", "langs")]] ++ kinds.flatMap langOutline ++ [.closing "ul"]
  else kinds.flatMap listOutline

theorem Download.outline_itemNode (known : List (Bytes × List Markup)) (d : Download) :
    outline [d.itemNode sizeText known] = itemOutline (known.lookup d.suffix) := by
  rw [Download.itemNode, outline_element, outline_append, Download.anchorNode, outline_element,
    Download.anchorContent, outline_append, outline_append, outline_element, outline_element]
  simp only [outline_nodesOfText]
  rfl

theorem Shelf.outline_listNode (s : Shelf) : outline [s.listNode sizeText] =
    listOutline (s.files.map fun d => (descriptions s.id).lookup d.suffix) := by
  rw [Shelf.listNode, outline_element, outline_map, listOutline, List.flatMap_map]
  simp only [Download.outline_itemNode]
  rfl

theorem Shelf.outline_itemNode (s : Shelf) : outline [s.itemNode sizeText] =
    langOutline (s.files.map fun d => (descriptions s.id).lookup d.suffix) := by
  rw [Shelf.itemNode, outline_element, Shelf.itemContent, outline_append, outline_element,
    outline_nodesOfText, Shelf.outline_listNode]
  rfl

/-- No name and no path makes a tag or an attribute. -/
theorem outline_fileListNodes (sizeText : Nat → Bytes) (shelves : List Shelf) :
    outline (fileListNodes sizeText shelves) = fileListOutline (kinds shelves) := by
  rw [fileListNodes, fileListOutline, kinds, List.length_map]
  split
  · rw [outline_element, outline_map, List.flatMap_map]
    simp only [Shelf.outline_itemNode]
    rfl
  · rw [outline_map, List.flatMap_map]
    simp only [Shelf.outline_listNode]

/-! ## The list as it is read -/

/-- **The list of files is read as it was meant.** Where sizes are worded without signs of markup, all elements
are closed in order. The links to files are those of the files, once each and in order, and with several
languages each language has its own under its name. The tags are those that the kinds of the files ask for,
whatever the names and the paths are. -/
theorem read?_fileListWith (hsize : ∀ n, ∀ c ∈ sizeText n, isSizeByte c = true) (shelves : List Shelf) :
    ∃ ns, read? (Markup.renderAll (fileListWith sizeText shelves)) = some ns ∧
      fileLinks ns = (shelves.flatMap fun s => s.files.map Download.link) ∧
      groups ns =
        (if shelves.length > 1 then shelves.map fun s => ([s.name], s.files.map Download.link) else []) ∧
      outline ns = fileListOutline (kinds shelves) := by
  have hread := read?_renderAll (areSound_fileListWith hsize shelves)
  rw [nodes_fileListWith] at hread
  exact ⟨fileListNodes sizeText shelves, hread, fileLinks_fileListNodes sizeText shelves,
    groups_fileListNodes sizeText shelves, outline_fileListNodes sizeText shelves⟩

/-- Two languages, with signs of markup in a name and in the paths. -/
def hostileShelves : List Shelf :=
  [{ id := "en", name := "\"><script>", files := [{ path := "en/<b>\"&'.md", size := 1536 }] },
    { id := "de", name := "Deutsch", files := [{ path := "de/&lt;.pdf", size := -1 }] }]

theorem read?_fileListWith_hostileShelves :
    (∀ n, ∀ c ∈ FileSize.text n, isSizeByte c = true) ∧
    ∃ ns, read? (Markup.renderAll (fileListWith FileSize.text hostileShelves)) = some ns ∧
      fileLinks ns = [([(bytes "href", bytes "en/<b>\"&'.md")], bytes "<b>\"&'.md"),
        ([(bytes "href", bytes "de/&lt;.pdf")], bytes "&lt;.pdf")] ∧
      groups ns = [([bytes "\"><script>"], [([(bytes "href", bytes "en/<b>\"&'.md")], bytes "<b>\"&'.md")]),
        ([bytes "Deutsch"], [([(bytes "href", bytes "de/&lt;.pdf")], bytes "&lt;.pdf")])] ∧
      outline ns = fileListOutline (kinds hostileShelves) :=
  ⟨isSizeByte_text, read?_fileListWith isSizeByte_text hostileShelves⟩

end Bindery.Website
