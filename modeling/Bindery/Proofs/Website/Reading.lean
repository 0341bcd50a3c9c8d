import Mathlib.Data.Option.Basic
import Bindery.Markdown.Entity
import Bindery.Website.Markup

/-!
# Reading a page

A page is read byte by byte as tags and the text between them (`signs?`), and these as a tree in which each
tag that closes an element closes the innermost open one (`nest?`). Other pages are not read. What is written
from markup is read as the same tree again (`read?_renderAll`): pieces of text next to each other are joined,
and nothing of a text or of the value of an attribute is taken for a tag.
-/

namespace Bindery.Website

open Text (bytes)

/-! ## Characters -/

/-- A text with its character references replaced. What a reference stands for is not read again. The bound
is spent by one at each byte. -/
def unescapeWithin : Nat → Bytes → Bytes
  | 0, s => s
  | _ + 1, [] => []
  | bound + 1, c :: rest =>
    if c = 38 then
      match Markdown.reference? rest with
      | some (t, after) => t ++ unescapeWithin bound after
      | none => c :: unescapeWithin bound rest
    else c :: unescapeWithin bound rest

def unescape (s : Bytes) : Bytes := unescapeWithin s.length s

/-- A byte is written as it is or as a reference to itself. -/
theorem escapeByte_cases (c : UInt8) :
    Markup.escapeByte c = [c] ∧ c ≠ 38 ∧ c ≠ 60 ∧ c ≠ 34 ∨
      ∃ name, Markup.escapeByte c = 38 :: name ∧ 60 ∉ name ∧ 34 ∉ name ∧
        ∀ rest, Markdown.reference? (name ++ rest) = some ([c], rest) := by
  have hnamed : ∀ (name : Bytes) (t rest : Bytes) (reference : Option (Bytes × Bytes)),
      Markdown.named? name = some t → reference = (Markdown.named? name).map (fun t => (t, rest)) →
      reference = some (t, rest) := by
    intro name t rest reference hname hreference
    rw [hreference, hname]
    rfl
  -- The three names are looked up in one go, so that the list of names is gone through only once.
  obtain ⟨hnameAmp, hnameLt, hnameGt⟩ : Markdown.named? (bytes "amp") = some [38] ∧
      Markdown.named? (bytes "lt") = some [60] ∧ Markdown.named? (bytes "gt") = some [62] := by
    decide +kernel
  rw [Markup.escapeByte]
  simp only [beq_iff_eq]
  split
  · next hc =>
    subst hc
    exact .inr ⟨bytes "amp;", rfl, by decide, by decide, fun rest => hnamed _ _ rest _ hnameAmp rfl⟩
  next hamp =>
  split
  · next hc =>
    subst hc
    exact .inr ⟨bytes "#39;", rfl, by decide, by decide, fun rest => rfl⟩
  split
  · next hc =>
    subst hc
    exact .inr ⟨bytes "lt;", rfl, by decide, by decide, fun rest => hnamed _ _ rest _ hnameLt rfl⟩
  next hlt =>
  split
  · next hc =>
    subst hc
    exact .inr ⟨bytes "gt;", rfl, by decide, by decide, fun rest => hnamed _ _ rest _ hnameGt rfl⟩
  split
  · next hc =>
    subst hc
    exact .inr ⟨bytes "#34;", rfl, by decide, by decide, fun rest => rfl⟩
  · next hquote => exact .inl ⟨rfl, hamp, hlt, hquote⟩

theorem unescapeWithin_escapeByte (c : UInt8) (bound : Nat) (rest : Bytes) :
    unescapeWithin (bound + 1) (Markup.escapeByte c ++ rest) = c :: unescapeWithin bound rest := by
  obtain ⟨hbyte, hne, -, -⟩ | ⟨name, hname, -, -, hread⟩ := escapeByte_cases c
  · rw [hbyte, List.singleton_append, unescapeWithin, if_neg hne]
  · rw [hname, List.cons_append, unescapeWithin, if_pos rfl, hread]
    rfl

theorem length_le_escape (s : Bytes) : s.length ≤ (Markup.escape s).length := by
  induction s with
  | nil => exact Nat.le_refl _
  | cons c s ih =>
    have hbyte : 0 < (Markup.escapeByte c).length := by
      obtain ⟨hbyte, -⟩ | ⟨name, hname, -⟩ := escapeByte_cases c
      · rw [hbyte]
        exact Nat.one_pos
      · rw [hname]
        exact Nat.succ_pos _
    rw [Markup.escape, List.flatMap_cons, List.length_append, List.length_cons, ← Markup.escape]
    omega

/-- A reference takes one unit of the bound, however long it is, so the length of the text itself is
enough. -/
theorem unescapeWithin_escape {s : Bytes} {bound : Nat} (h : s.length ≤ bound) :
    unescapeWithin bound (Markup.escape s) = s := by
  induction s generalizing bound with
  | nil => cases bound <;> rfl
  | cons c s ih =>
    obtain ⟨bound, rfl⟩ := Nat.exists_eq_add_one_of_ne_zero (Nat.ne_of_gt (Nat.zero_lt_of_lt h))
    rw [Markup.escape, List.flatMap_cons, unescapeWithin_escapeByte]
    exact congrArg _ (ih (Nat.le_of_succ_le_succ h))

/-- An escaped text is read as it was. -/
theorem unescape_escape (s : Bytes) : unescape (Markup.escape s) = s :=
  unescapeWithin_escape (length_le_escape s)

/-- An escaped text holds nothing that begins a tag or ends a value. -/
theorem notMem_escape (s : Bytes) : 60 ∉ Markup.escape s ∧ 34 ∉ Markup.escape s := by
  have hbyte : ∀ c, 60 ∉ Markup.escapeByte c ∧ 34 ∉ Markup.escapeByte c := by
    intro c
    obtain ⟨hbyte, -, hlt, hquote⟩ | ⟨name, hname, hlt, hquote, -⟩ := escapeByte_cases c
    · rw [hbyte]
      simp [hlt.symm, hquote.symm]
    · rw [hname]
      simp [hlt, hquote]
  constructor
  · intro hmem
    obtain ⟨c, -, hc⟩ := List.mem_flatMap.1 hmem
    exact (hbyte c).1 hc
  · intro hmem
    obtain ⟨c, -, hc⟩ := List.mem_flatMap.1 hmem
    exact (hbyte c).2 hc

/-! ## Signs -/

/-- What a page is made of. -/
inductive Sign where
  | text (s : Bytes)
  | opening (tag : Bytes) (attributes : List (Bytes × Bytes))
  | closing (tag : Bytes)
  deriving DecidableEq, Repr

/-- Where the reading of a page stands, with what was read of the present sign. -/
inductive Place where
  | content (raw : Bytes)
  /-- Right behind the sign that begins a tag. -/
  | tag
  | closing (name : Bytes)
  | opening (name : Bytes)
  /-- Behind a blank in a tag. -/
  | blank (name : Bytes) (attributes : List (Bytes × Bytes))
  | attribute (name : Bytes) (attributes : List (Bytes × Bytes)) (key : Bytes)
  /-- Behind the equals sign of an attribute. -/
  | equals (name : Bytes) (attributes : List (Bytes × Bytes)) (key : Bytes)
  | value (name : Bytes) (attributes : List (Bytes × Bytes)) (key raw : Bytes)
  /-- Behind the value of an attribute. -/
  | valued (name : Bytes) (attributes : List (Bytes × Bytes))
  deriving DecidableEq, Repr

/-- A byte of the name of a tag or an attribute: a small letter. -/
def isNameByte (c : UInt8) : Bool := 97 ≤ c && c ≤ 122

def isName (s : Bytes) : Bool := !s.isEmpty && s.all isNameByte

/-- Text that was read between two tags. -/
def signsOfText (raw : Bytes) : List Sign := if raw = [] then [] else [.text (unescape raw)]

/-- Reads one byte: the signs that end with it, and where the reading goes on. -/
def Place.step? : Place → UInt8 → Option (List Sign × Place)
  | .content raw, c =>
    if c = 60 then some (signsOfText raw, .tag) else some ([], .content (raw ++ [c]))
  | .tag, c =>
    if c = 47 then some ([], .closing [])
    else if isNameByte c then some ([], .opening [c])
    else none
  | .closing name, c =>
    if isNameByte c then some ([], .closing (name ++ [c]))
    else if c = 62 ∧ name ≠ [] then some ([.closing name], .content [])
    else none
  | .opening name, c =>
    if isNameByte c then some ([], .opening (name ++ [c]))
    else if c = 62 then some ([.opening name []], .content [])
    else if c = 32 then some ([], .blank name [])
    else none
  | .blank name attributes, c =>
    if isNameByte c then some ([], .attribute name attributes [c]) else none
  | .attribute name attributes key, c =>
    if isNameByte c then some ([], .attribute name attributes (key ++ [c]))
    else if c = 61 then some ([], .equals name attributes key)
    else none
  | .equals name attributes key, c =>
    if c = 34 then some ([], .value name attributes key []) else none
  | .value name attributes key raw, c =>
    if c = 34 then some ([], .valued name (attributes ++ [(key, unescape raw)]))
    else some ([], .value name attributes key (raw ++ [c]))
  | .valued name attributes, c =>
    if c = 62 then some ([.opening name attributes], .content [])
    else if c = 32 then some ([], .blank name attributes)
    else none

/-- Reads the rest of a page. It must not end inside a tag. -/
def Place.signs? : Place → Bytes → Option (List Sign)
  | .content raw, [] => some (signsOfText raw)
  | _, [] => none
  | p, c :: rest => do
    let (signs, q) ← p.step? c
    (q.signs? rest).map (signs ++ ·)

def signs? (s : Bytes) : Option (List Sign) := (Place.content []).signs? s

/-- Reading a text leads from one place to another, and gives signs. -/
def Reads (p : Place) (s : Bytes) (signs : List Sign) (q : Place) : Prop :=
  ∀ rest, p.signs? (s ++ rest) = (q.signs? rest).map (signs ++ ·)

section

variable {p q r : Place} {s t : Bytes} {signs more : List Sign} {c : UInt8}

theorem reads_nil (p : Place) : Reads p [] [] p := fun _ => Option.map_id'.symm

theorem Reads.append (h : Reads p s signs q) (hmore : Reads q t more r) :
    Reads p (s ++ t) (signs ++ more) r := by
  intro rest
  rw [List.append_assoc, h, hmore, Option.map_map]
  congr 1
  funext tail
  exact (List.append_assoc _ _ _).symm

theorem reads_singleton (h : p.step? c = some (signs, q)) : Reads p [c] signs q := by
  intro rest
  rw [List.singleton_append, Place.signs?, h]
  rfl

theorem Reads.cons (h : p.step? c = some ([], q)) (hrest : Reads q s signs r) :
    Reads p (c :: s) signs r := (reads_singleton h).append hrest

theorem reads_gathered {gather : Bytes → Place} {P : UInt8 → Prop}
    (hstep : ∀ raw c, P c → (gather raw).step? c = some ([], gather (raw ++ [c]))) (raw : Bytes)
    (hs : ∀ c ∈ s, P c) : Reads (gather raw) s [] (gather (raw ++ s)) := by
  induction s generalizing raw with
  | nil =>
    rw [List.append_nil]
    exact reads_nil _
  | cons c s ih =>
    obtain ⟨hc, hs⟩ := List.forall_mem_cons.1 hs
    have hrest := ih (raw ++ [c]) hs
    rw [List.append_assoc, List.singleton_append] at hrest
    exact .cons (hstep raw c hc) hrest

theorem reads_content (raw : Bytes) (h : 60 ∉ s) : Reads (.content raw) s [] (.content (raw ++ s)) := by
  have hstep : ∀ raw c, c ≠ 60 → (Place.content raw).step? c = some ([], .content (raw ++ [c])) :=
    fun _ _ hc => if_neg hc
  exact reads_gathered hstep raw fun c hc hlt => h (hlt ▸ hc)

theorem reads_value (name : Bytes) (attributes : List (Bytes × Bytes)) (key : Bytes) (h : 34 ∉ s) :
    Reads (.value name attributes key []) s [] (.value name attributes key s) := by
  have hstep : ∀ raw c, c ≠ 34 → (Place.value name attributes key raw).step? c =
      some ([], .value name attributes key (raw ++ [c])) := fun _ _ hc => if_neg hc
  exact reads_gathered hstep [] fun c hc hquote => h (hquote ▸ hc)

theorem reads_name {gather : Bytes → Place}
    (hstep : ∀ raw c, isNameByte c = true → (gather raw).step? c = some ([], gather (raw ++ [c])))
    (hfirst : ∀ c, isNameByte c = true → p.step? c = some ([], gather [c])) (h : isName s = true) :
    Reads p s [] (gather s) := by
  rw [isName, Bool.and_eq_true, List.all_eq_true] at h
  obtain ⟨hne, hs⟩ := h
  cases s with
  | nil => cases hne
  | cons c s =>
    obtain ⟨hc, hs⟩ := List.forall_mem_cons.1 hs
    exact .cons (hfirst c hc) (reads_gathered hstep [c] hs)

/-! ## Tags -/

theorem reads_attribute {name : Bytes} {attributes : List (Bytes × Bytes)} {a : Bytes × Bytes}
    (hblank : p.step? 32 = some ([], .blank name attributes)) (h : isName a.1 = true) :
    Reads p (Markup.attributeText a) [] (.valued name (attributes ++ [a])) := by
  have hkey : Reads (.blank name attributes) a.1 [] (.attribute name attributes a.1) :=
    reads_name (fun _ _ hc => if_pos hc) (fun _ hc => if_pos hc) h
  have hequals : Reads (.attribute name attributes a.1) [61, 34] [] (.value name attributes a.1 []) :=
    .cons rfl (.cons rfl (reads_nil _))
  have hvalue := reads_value name attributes a.1 (notMem_escape a.2).2
  have hquote : Reads (.value name attributes a.1 (Markup.escape a.2)) [34] []
      (.valued name (attributes ++ [a])) := by
    apply reads_singleton
    rw [Place.step?, if_pos rfl, unescape_escape]
  exact .cons hblank (((hkey.append hequals).append hvalue).append hquote)

theorem reads_attributes {name : Bytes} {attributes more : List (Bytes × Bytes)}
    (h : ∀ a ∈ more, isName a.1 = true) :
    Reads (.valued name attributes) (more.flatMap Markup.attributeText) []
      (.valued name (attributes ++ more)) := by
  induction more generalizing attributes with
  | nil =>
    rw [List.append_nil]
    exact reads_nil _
  | cons a more ih =>
    obtain ⟨ha, hmore⟩ := List.forall_mem_cons.1 h
    have hblank : (Place.valued name attributes).step? 32 = some ([], .blank name attributes) := rfl
    have hrest := (reads_attribute hblank ha).append (ih hmore)
    rwa [List.append_assoc, List.singleton_append] at hrest

theorem reads_openTag (raw : Bytes) {name : Bytes} {attributes : List (Bytes × Bytes)}
    (hname : isName name = true) (h : ∀ a ∈ attributes, isName a.1 = true) :
    Reads (.content raw) (Markup.openTag name attributes)
      (signsOfText raw ++ [.opening name attributes]) (.content []) := by
  have hlt : Reads (.content raw) (bytes "<") (signsOfText raw) .tag := reads_singleton rfl
  have hopening : Reads .tag name [] (.opening name) :=
    reads_name (fun _ _ hc => if_pos hc) (fun c hc => by
      have hslash : c ≠ 47 := by
        rintro rfl
        exact absurd hc (by decide)
      rw [Place.step?, if_neg hslash, if_pos hc]) hname
  have hend : Reads (.opening name) (attributes.flatMap Markup.attributeText ++ bytes ">")
      [.opening name attributes] (.content []) := by
    cases attributes with
    | nil => exact reads_singleton rfl
    | cons a attributes =>
      -- The blank of the first attribute ends the name of the tag.
      obtain ⟨ha, hattributes⟩ := List.forall_mem_cons.1 h
      have hblank : (Place.opening name).step? 32 = some ([], .blank name []) := rfl
      have hall := (reads_attribute hblank ha).append (reads_attributes hattributes)
      exact hall.append (reads_singleton rfl)
  rw [Markup.openTag, List.append_assoc]
  have hall := (hlt.append hopening).append hend
  rwa [List.append_nil] at hall

theorem reads_closeTag (raw : Bytes) {name : Bytes} (hname : isName name = true) :
    Reads (.content raw) (Markup.closeTag name) (signsOfText raw ++ [.closing name]) (.content []) := by
  have hlt : Reads (.content raw) (bytes "</") (signsOfText raw) (.closing []) := by
    have hslash : Reads .tag [47] [] (.closing []) := reads_singleton rfl
    have hstart := (reads_singleton (rfl : (Place.content raw).step? 60 = _)).append hslash
    rwa [List.append_nil] at hstart
  have hclosing : Reads (.closing []) name [] (.closing name) :=
    reads_name (fun _ _ hc => if_pos hc) (fun _ hc => if_pos hc) hname
  have hend : Reads (.closing name) (bytes ">") [.closing name] (.content []) := by
    apply reads_singleton
    have hne : name ≠ [] := by
      rintro rfl
      cases hname
    exact if_pos ⟨rfl, hne⟩
  have hall := (hlt.append hclosing).append hend
  rwa [List.append_nil] at hall

end

/-! ## Nodes -/

/-- A page as a tree. -/
inductive Node where
  | text (s : Bytes)
  /-- A tag without content. -/
  | single (tag : Bytes)
  | element (tag : Bytes) (attributes : List (Bytes × Bytes)) (content : List Node)
  deriving Repr

/-- The tags that open no element. -/
def voidTags : List Bytes :=
  ["area", "base", "br", "col", "embed", "hr", "img", "input", "link", "meta", "source", "track", "wbr"]

/-- An element that is open, with the nodes in front of it, the last one first. -/
structure Frame where
  tag : Bytes
  attributes : List (Bytes × Bytes)
  before : List Node

/-- Reads signs as nodes, behind nodes in the innermost of the open elements. A tag can only close that
element, and in the end none must be open. -/
def nest? (opened : List Frame) (done : List Node) : List Sign → Option (List Node)
  | [] => if opened.isEmpty then some done.reverse else none
  | .text s :: rest => nest? opened (.text s :: done) rest
  | .opening tag attributes :: rest =>
    if voidTags.contains tag then nest? opened (.single tag :: done) rest
    else nest? ({ tag, attributes, before := done } :: opened) [] rest
  | .closing tag :: rest =>
    match opened with
    | [] => none
    | frame :: opened =>
      if frame.tag = tag then
        nest? opened (.element tag frame.attributes done.reverse :: frame.before) rest
      else none

/-- Reads a page. There is a result only if all its elements are closed in order. -/
def read? (s : Bytes) : Option (List Node) := (signs? s).bind (nest? [] [])

mutual

/-- The signs of a node. -/
def Node.signs : Node → List Sign
  | .text s => [.text s]
  | .single tag => [.opening tag []]
  | .element tag attributes content =>
    .opening tag attributes :: (signsOf content ++ [.closing tag])
termination_by structural n => n

/-- The signs of several nodes. -/
def signsOf : List Node → List Sign
  | [] => []
  | n :: ns => n.signs ++ signsOf ns
termination_by structural ns => ns

end

/-- Text that was read between two tags, as a node. -/
def nodesOfText (raw : Bytes) : List Node := if raw = [] then [] else [.text (unescape raw)]

/-! ## Markup as nodes -/

namespace Markup

mutual

/-- Whether only elements are opened that are closed again, and what is written as it is begins no tag. -/
def isSound : Markup → Bool
  | .text _ => true
  | .verbatim s => !s.contains 60
  | .entity name => !name.contains 60
  | .single tag => isName tag && voidTags.contains tag
  | .element tag attributes content =>
    isName tag && !voidTags.contains tag && attributes.all (fun a => isName a.1) && areSound content
termination_by structural m => m

@[inherit_doc isSound]
def areSound : List Markup → Bool
  | [] => true
  | m :: ms => m.isSound && areSound ms
termination_by structural ms => ms

end

mutual

/-- The nodes that a piece of markup is read as behind text that no tag has ended yet, and such text behind
it. -/
def emit (raw : Bytes) : Markup → List Node × Bytes
  | .text s => ([], raw ++ escape s)
  | .verbatim s => ([], raw ++ s)
  | .entity name => ([], raw ++ (bytes "&" ++ name ++ ";"))
  | .single tag => (nodesOfText raw ++ [.single tag], [])
  | .element tag attributes content =>
    let inside := emitAll [] content
    (nodesOfText raw ++ [.element tag attributes (inside.1 ++ nodesOfText inside.2)], [])
termination_by structural m => m

@[inherit_doc emit]
def emitAll (raw : Bytes) : List Markup → List Node × Bytes
  | [] => ([], raw)
  | m :: ms =>
    let first := m.emit raw
    let rest := emitAll first.2 ms
    (first.1 ++ rest.1, rest.2)
termination_by structural ms => ms

end

/-- The nodes that markup is read as. -/
def nodes (ms : List Markup) : List Node := (emitAll [] ms).1 ++ nodesOfText (emitAll [] ms).2

end Markup

section

variable {ns more : List Node}

theorem signsOf_append (ns more : List Node) : signsOf (ns ++ more) = signsOf ns ++ signsOf more := by
  induction ns with
  | nil => rfl
  | cons n ns ih => rw [List.cons_append, signsOf, ih, signsOf, List.append_assoc]

theorem signsOf_nodesOfText (raw : Bytes) : signsOf (nodesOfText raw) = signsOfText raw := by
  rw [nodesOfText, signsOfText]
  split <;> rfl

mutual

/-- Markup is read as the signs of its nodes. -/
theorem reads_render (raw : Bytes) (m : Markup) (h : m.isSound = true) :
    Reads (.content raw) m.render (signsOf (m.emit raw).1) (.content (m.emit raw).2) := by
  match m with
  | .text s => exact reads_content raw (notMem_escape s).1
  | .verbatim s =>
    have hs : 60 ∉ s := by simpa [Markup.isSound] using h
    exact reads_content raw hs
  | .entity name =>
    have hname : 60 ∉ name := by simpa [Markup.isSound] using h
    have hends : 60 ∉ bytes "&" ∧ 60 ∉ bytes ";" := by decide
    have hall : 60 ∉ bytes "&" ++ name ++ bytes ";" := by
      simp only [List.mem_append, hends, hname, or_self, not_false_eq_true]
    exact reads_content raw hall
  | .single tag =>
    rw [Markup.isSound, Bool.and_eq_true] at h
    have htag := reads_openTag raw h.1 (List.forall_mem_nil _)
    rw [← signsOf_nodesOfText] at htag
    rw [Markup.emit, signsOf_append]
    exact htag
  | .element tag attributes content =>
    simp only [Markup.isSound, Bool.and_eq_true, List.all_eq_true] at h
    obtain ⟨⟨⟨htag, -⟩, hattributes⟩, hcontent⟩ := h
    have hopen := reads_openTag raw htag hattributes
    have hinside := reads_renderAll [] content hcontent
    have hclose := reads_closeTag (Markup.emitAll [] content).2 htag
    rw [← signsOf_nodesOfText] at hopen hclose
    have hall := (hopen.append hinside).append hclose
    rw [Markup.emit, signsOf_append]
    simpa [Markup.render, signsOf, Node.signs, signsOf_append] using hall
termination_by structural m

@[inherit_doc reads_render]
theorem reads_renderAll (raw : Bytes) (ms : List Markup) (h : Markup.areSound ms = true) :
    Reads (.content raw) (Markup.renderAll ms) (signsOf (Markup.emitAll raw ms).1)
      (.content (Markup.emitAll raw ms).2) := by
  match ms with
  | [] => exact reads_nil _
  | m :: ms =>
    rw [Markup.areSound, Bool.and_eq_true] at h
    have hall := (reads_render raw m h.1).append (reads_renderAll (m.emit raw).2 ms h.2)
    rw [← signsOf_append] at hall
    exact hall
termination_by structural ms

end

/-! ## Nesting -/

/-- The signs of nodes are read as these nodes, in whatever elements they stand. -/
def Nests (ns : List Node) : Prop :=
  ∀ opened done rest, nest? opened done (signsOf ns ++ rest) = nest? opened (ns.reverse ++ done) rest

theorem nests_nil : Nests [] := fun _ _ _ => rfl

theorem Nests.append (h : Nests ns) (hmore : Nests more) : Nests (ns ++ more) := by
  intro opened done rest
  rw [signsOf_append, List.append_assoc, h, hmore, List.reverse_append, List.append_assoc]

theorem nests_nodesOfText (raw : Bytes) : Nests (nodesOfText raw) := by
  rw [nodesOfText]
  split
  · exact nests_nil
  · exact fun _ _ _ => rfl

theorem nests_single {tag : Bytes} (h : voidTags.contains tag = true) : Nests [.single tag] := fun _ _ _ => if_pos h

theorem nests_element {tag : Bytes} (h : voidTags.contains tag = false) (attributes : List (Bytes × Bytes))
    (hns : Nests ns) : Nests [.element tag attributes ns] := by
  intro opened done rest
  have hsigns : signsOf [.element tag attributes ns] ++ rest =
      .opening tag attributes :: (signsOf ns ++ .closing tag :: rest) := by
    simp [signsOf, Node.signs]
  -- What stood in front of the element waits in the frame while its content is read.
  rw [hsigns, nest?, h, if_neg Bool.false_ne_true, hns, nest?, List.append_nil, List.reverse_reverse]
  exact if_pos rfl

mutual

theorem nests_emit (raw : Bytes) (m : Markup) (h : m.isSound = true) : Nests (m.emit raw).1 := by
  match m with
  | .text s => exact nests_nil
  | .verbatim s => exact nests_nil
  | .entity name => exact nests_nil
  | .single tag =>
    rw [Markup.isSound, Bool.and_eq_true] at h
    exact (nests_nodesOfText raw).append (nests_single h.2)
  | .element tag attributes content =>
    simp only [Markup.isSound, Bool.and_eq_true, Bool.not_eq_true'] at h
    obtain ⟨⟨⟨-, htag⟩, -⟩, hcontent⟩ := h
    have hinside := (nests_emitAll [] content hcontent).append
      (nests_nodesOfText (Markup.emitAll [] content).2)
    exact (nests_nodesOfText raw).append (nests_element htag attributes hinside)
termination_by structural m

theorem nests_emitAll (raw : Bytes) (ms : List Markup) (h : Markup.areSound ms = true) :
    Nests (Markup.emitAll raw ms).1 := by
  match ms with
  | [] => exact nests_nil
  | m :: ms =>
    rw [Markup.areSound, Bool.and_eq_true] at h
    exact (nests_emit raw m h.1).append (nests_emitAll (m.emit raw).2 ms h.2)
termination_by structural ms

end

/-- **Markup is read as it was written.** -/
theorem read?_renderAll {ms : List Markup} (h : Markup.areSound ms = true) :
    read? (Markup.renderAll ms) = some (Markup.nodes ms) := by
  have hsigns : signs? (Markup.renderAll ms) = some (signsOf (Markup.nodes ms)) := by
    have hread := reads_renderAll [] ms h []
    rw [List.append_nil, Place.signs?, Option.map_some, ← signsOf_nodesOfText, ← signsOf_append] at hread
    exact hread
  have hnests := (nests_emitAll [] ms h).append (nests_nodesOfText (Markup.emitAll [] ms).2) [] [] []
  rw [List.append_nil, List.append_nil, nest?] at hnests
  rw [read?, hsigns, Option.bind_some]
  exact hnests.trans (congrArg some (List.reverse_reverse _))

end

end Bindery.Website
