import Mathlib.Data.List.Dedup
import Mathlib.Data.List.Infix
import Mathlib.Data.List.MinMax
import Mathlib.Data.List.Perm.Subperm
import Bindery.Proofs.Directive
import Bindery.Proofs.Expansion.Equations

/-!
# Expansion ends

Documents are expanded by two functions that call each other: one expands a document and asks for the
expansion of its text; the other expands a text, asks for the expansion of the arguments of its
directives, and of the documents that the text includes. Nothing in a call says that the calls it
leads to come to an end. What says so is a pair of numbers: how many files the chain of inclusions does
not hold yet, and how long the text is.

Here the two functions are unrolled. `Calls.within s beyond n` makes the calls of the first `n` levels
and hands those below to `beyond`, which is arbitrary; it also hands over each call that the pair of
numbers does not account for. That `beyond` makes no difference from the level `span` on says that no
such call is ever made, whatever the shared services answer.
-/

namespace Bindery

/-! ## The files of a tree -/

namespace FileTree

def files (t : FileTree) : List (List Bytes) :=
  (t.entries.filterMap fun
    | (place, .file _) => some place
    | (_, .directory) => none).dedup

def longest (t : FileTree) : Nat :=
  (t.entries.map fun
    | (_, .file content) => content.length
    | (_, .directory) => 0).foldr max 0

theorem components_mem_files {t : FileTree} {path text : Bytes} (h : t.read path = .ok text) :
    t.components path ∈ t.files := by
  rw [files, List.mem_dedup, List.mem_filterMap]
  exact ⟨_, mem_of_read h, rfl⟩

theorem length_le_longest {t : FileTree} {path text : Bytes} (h : t.read path = .ok text) :
    text.length ≤ t.longest :=
  List.le_max_of_le' 0 (List.mem_map.2 ⟨_, mem_of_read h, rfl⟩) le_rfl

end FileTree

namespace Expansion

/-! ## Chains -/

/-- What holds of the chain of inclusions: its documents stand at canonical paths, can be read, and
none stands on it twice. -/
structure Sound (s : Setting) (chain : List Bytes) : Prop where
  canonical : ∀ p ∈ chain, Path.Canonical p
  readable : ∀ p ∈ chain, ∃ text, s.tree.read p = .ok text
  nodup : chain.Nodup

namespace Sound

variable {s : Setting} {chain : List Bytes} {path text : Bytes}

theorem nil : Sound s [] := ⟨by simp, by simp, List.nodup_nil⟩

theorem push (h : Sound s chain) (hpath : Path.Canonical path) (hnew : path ∉ chain)
    (hread : s.tree.read path = .ok text) : Sound s (chain ++ [path]) := by
  refine ⟨?_, ?_, ?_⟩
  · intro p hp
    rcases List.mem_append.1 hp with hp | hp
    · exact h.canonical p hp
    · rwa [List.mem_singleton.1 hp]
  · intro p hp
    rcases List.mem_append.1 hp with hp | hp
    · exact h.readable p hp
    · exact ⟨text, by rwa [List.mem_singleton.1 hp]⟩
  · rw [← List.concat_eq_append]
    exact h.nodup.concat hnew

/-- **A chain is never longer than the tree has files.** -/
theorem length_le (h : Sound s chain) : chain.length ≤ s.tree.files.length := by
  have hinj : ∀ p ∈ chain, ∀ q ∈ chain, s.tree.components p = s.tree.components q → p = q :=
    fun p hp q hq => FileTree.eq_of_components_eq (h.canonical p hp) (h.canonical q hq)
  have hnodup : (chain.map s.tree.components).Nodup := h.nodup.map_on hinj
  have hsub : chain.map s.tree.components ⊆ s.tree.files := by
    intro place hplace
    obtain ⟨p, hp, rfl⟩ := List.mem_map.1 hplace
    obtain ⟨text, htext⟩ := h.readable p hp
    exact FileTree.components_mem_files htext
  rw [← List.length_map (f := s.tree.components)]
  exact (List.subperm_of_subset hnodup hsub).length_le

end Sound

/-! ## Calls -/

/-- The two functions of expansion. The chain that a text is expanded with ends in the document that
the text belongs to, at `path`. -/
structure Calls where
  document : (chain : List Bytes) → (path : Bytes) → (depth : Nat) → Pass (Node × Bytes)
  text : (chain : List Bytes) → (path : Bytes) → (depth line : Nat) → (text : Bytes) → Pass Bytes

namespace Calls

/-- One level of calls. A document is a cycle if its path is on the chain. Calls go to `inner` if they
are such as the chain and the text allow: a directive is one that a scan of the text finds; an
argument is a shorter piece of the text; a document is included with a chain that holds no path twice
and no more paths than there are files. All other calls go to `beyond`. -/
def level (s : Setting) (beyond inner : Calls) : Calls where
  document chain path depth :=
    if chain.contains path then throw (cycleFault s chain path)
    else if s.cancelled then throw (Fault.passOn .cancelled .build "expansion cancelled")
    else
      match s.tree.read path with
      | .error cause =>
        throw (Fault.raiseFrom cause .fileSystem "cannot read document"
          [("file", .str (s.display path))])
      | .ok text =>
        documentWith s chain path depth text (inner.text (chain ++ [path]) path depth 0 text)
  text chain path depth line text :=
    let argument (line : Nat) (arg : Bytes) : Pass Bytes :=
      if arg <:+: text ∧ arg.length < text.length then inner.text chain path depth line arg
      else beyond.text chain path depth line arg
    let child (path : Bytes) : Pass (Node × Bytes) :=
      if chain.Nodup ∧ chain.length ≤ s.tree.files.length then
        inner.document chain path (depth + 1)
      else beyond.document chain path (depth + 1)
    replaceM text fun inv =>
      if inv ∈ (scan text).1 then
        Template.invoke argument (perform s path (inclusionWith s chain path child)) line inv
      else beyond.text chain path depth line text

/-- The first `n` levels of calls. -/
def within (s : Setting) (beyond : Calls) : Nat → Calls
  | 0 => beyond
  | n + 1 => level s beyond (within s beyond n)

end Calls

/-- How many levels of calls a document needs below a chain, if a text needs one for each of its
bytes. -/
def span (s : Setting) (chain : List Bytes) : Nat :=
  (s.tree.files.length - chain.length) * (s.tree.longest + 2) + 1

/-- A document that is read leaves fewer levels to those that it includes, and as many as its text is
long to its text. -/
theorem span_push {s : Setting} {chain : List Bytes} {path text : Bytes}
    (h : Sound s (chain ++ [path])) (hread : s.tree.read path = .ok text) :
    text.length + 1 + span s (chain ++ [path]) < span s chain := by
  have hlength := h.length_le
  have htext := FileTree.length_le_longest hread
  rw [List.length_append, List.length_singleton] at hlength
  obtain ⟨left, hleft⟩ := Nat.exists_eq_add_of_le hlength
  have hshort : s.tree.files.length - (chain.length + 1) = left := by omega
  have hlong : s.tree.files.length - chain.length = left + 1 := by omega
  rw [span, span, List.length_append, List.length_singleton, hshort, hlong, Nat.succ_mul]
  omega

/-! ## Levels that suffice -/

theorem mapM_congr {m : Type → Type} [Monad m] [LawfulMonad m] {α β : Type} {f g : α → m β}
    {l : List α} (h : ∀ a ∈ l, f a = g a) : l.mapM f = l.mapM g := by
  induction l with
  | nil => rfl
  | cons a l ih =>
    rw [List.mapM_cons, List.mapM_cons, h a List.mem_cons_self,
      ih fun b hb => h b (List.mem_cons_of_mem _ hb)]

/-- Documents are only included at canonical paths. -/
theorem inclusionWith_congr {s : Setting} (hid : 47 ∉ s.lang.id) {chain : List Bytes} {path : Bytes}
    (hpath : Path.Canonical path) {f g : Bytes → Pass (Node × Bytes)}
    (h : ∀ child, Path.Canonical child → f child = g child) :
    inclusionWith s chain path f = inclusionWith s chain path g := by
  funext name
  refine Pass.require_bind_congr fun child hchild => ?_
  have hresolve : s.resolver.resolve s.tree (Path.dir path) name s.lang = .ok child := by
    cases hr : s.resolver.resolve s.tree (Path.dir path) name s.lang with
    | ok found =>
      rw [hr] at hchild
      exact congrArg _ (Except.ok.inj hchild)
    | error refusal =>
      rw [hr] at hchild
      cases hchild
  have hcanonical := Resolver.canonical_of_resolve hid (Path.isAbsolute_dir hpath) hresolve
  rw [h child hcanonical]

namespace Calls

variable {s : Setting} {chain : List Bytes} {path : Bytes}

/-- One level expands a document if the levels below expand its text. -/
theorem level_document {beyond inner : Calls} (h : Sound s chain) (hpath : Path.Canonical path)
    (depth : Nat)
    (hinner : ∀ text, s.tree.read path = .ok text → Sound s (chain ++ [path]) →
      inner.text (chain ++ [path]) path depth 0 text =
        expandText s (chain ++ [path]) path depth 0 text) :
    (level s beyond inner).document chain path depth = expandFile s chain path depth := by
  rw [expandFile_eq]
  simp only [level]
  split
  · rfl
  · next hnew =>
    split
    · rfl
    · cases hread : s.tree.read path with
      | error cause => rfl
      | ok text =>
        have hnew' : path ∉ chain := by simpa using hnew
        simp only [hinner text hread (h.push hpath hnew' hread)]

/-- One level expands a text if the levels below expand its arguments and the documents it
includes. -/
theorem level_text {beyond inner : Calls} (hid : 47 ∉ s.lang.id) (h : Sound s chain)
    (hpath : Path.Canonical path) (depth line : Nat) (text : Bytes)
    (hargument : ∀ line arg, arg.length < text.length →
      inner.text chain path depth line arg = expandText s chain path depth line arg)
    (hchild : ∀ child, Path.Canonical child →
      inner.document chain child (depth + 1) = expandFile s chain child (depth + 1)) :
    (level s beyond inner).text chain path depth line text =
      expandText s chain path depth line text := by
  rw [expandText, Template.expand_ofText]
  simp only [level]
  refine replaceM_congr fun inv hinv => ?_
  have hargs := Cursor.args_of_mem_scan hinv
  rw [if_pos hinv, Template.invoke, Template.invoke]
  rw [inclusionWith_congr hid hpath fun child hcanonical => by
    rw [if_pos ⟨h.nodup, h.length_le⟩, hchild child hcanonical]]
  congr 1
  refine mapM_congr fun arg harg => ?_
  rw [if_pos (hargs arg harg)]
  exact hargument _ arg (hargs arg harg).2

/-- With enough levels, documents and texts are expanded without a call beyond them. -/
theorem within_eq (beyond : Calls) (hid : 47 ∉ s.lang.id) (n : Nat) :
    (∀ chain path depth, Sound s chain → Path.Canonical path → span s chain ≤ n →
      (within s beyond n).document chain path depth = expandFile s chain path depth) ∧
    (∀ chain path depth line text, Sound s chain → Path.Canonical path →
      text.length + 1 + span s chain ≤ n →
      (within s beyond n).text chain path depth line text =
        expandText s chain path depth line text) := by
  induction n with
  | zero =>
    refine ⟨fun chain path depth _ _ hspan => ?_, fun chain path depth line text _ _ hspan => ?_⟩
    · rw [span] at hspan
      omega
    · omega
  | succ n ih =>
    obtain ⟨ihDocument, ihText⟩ := ih
    refine ⟨fun chain path depth h hpath hspan => ?_,
      fun chain path depth line text h hpath hspan => ?_⟩
    · refine level_document h hpath depth fun text hread hpush => ?_
      have := span_push hpush hread
      exact ihText _ _ _ _ _ hpush hpath (by omega)
    · refine level_text hid h hpath depth line text (fun line arg harg => ?_) fun child hchild => ?_
      · exact ihText _ _ _ _ _ h hpath (by omega)
      · exact ihDocument _ _ _ h hchild (by omega)

end Calls

/-- **Expansion ends.** Whatever is done beyond the level `span s []`, and in the place of calls that
break the chain, expanding the root document gives the same script of requests: so it comes to its end
for every metadata store and every fetcher, and each call on the way is one that the chain and the
text allow. -/
theorem expand_eq_within (s : Setting) (root : Bytes) (hid : 47 ∉ s.lang.id)
    (hroot : Path.Canonical root) (beyond : Calls) {n : Nat} (hn : span s [] ≤ n) :
    expand s root = passOf s ((Calls.within s beyond n).document [] root 0) := by
  rw [expand_eq_passOf, (Calls.within_eq beyond hid n).1 [] root 0 .nil hroot hn]

/-- A book whose root document includes another, under a name that a directive completes. -/
def pairOfDocuments : FileTree where
  entries :=
    [([Text.bytes "b"], .directory),
      ([Text.bytes "b", Text.bytes "book.md"],
        .file (Text.bytes "\\rel.input\x7b\\meta\x7bpart\x7d.md\x7d")),
      ([Text.bytes "b", Text.bytes "one.md"], .file (Text.bytes "One"))]

def pairSetting : Setting where
  tree := pairOfDocuments
  resolver := { root := Text.bytes "/b" }
  lang := { active := { id := Text.bytes "de" }, configured := 2 }

/-- The book of two documents, with calls beyond the levels that break down. -/
theorem expand_eq_within_pair :
    47 ∉ pairSetting.lang.id ∧ Path.Canonical (Text.bytes "/b/book.md") ∧
      expand pairSetting (Text.bytes "/b/book.md") =
        passOf pairSetting
          ((Calls.within pairSetting
            { document := fun _ _ _ => throw .crashed, text := fun _ _ _ _ _ => throw .crashed }
            (span pairSetting [])).document [] (Text.bytes "/b/book.md") 0) := by
  have hid : 47 ∉ pairSetting.lang.id := by decide
  have hroot : Path.Canonical (Text.bytes "/b/book.md") := ⟨by decide, by decide⟩
  exact ⟨hid, hroot, expand_eq_within pairSetting _ hid hroot _ le_rfl⟩

end Expansion

end Bindery
