import Bindery.Build.Run
import Bindery.Proofs.Build.World
import Bindery.Proofs.Fault
import Bindery.Proofs.Listing.Extract

/-!
# Clearing the output directory

A directory with content is cleared if the file in it that is named like a manifest is decoded as one, and
only then; otherwise it is refused, and everything stays as it was. How texts are decoded is left open.
Where empty documents are decoded and unknown keys are ignored, also a directory with an empty file of that
name is cleared, and one with a mapping that has no key of a manifest.
-/

namespace Bindery.Manifest

open Text (bytes)

/-! ## Documents that are no manifests -/

/-- The keys of a manifest. -/
def keys : List Bytes :=
  ["id", "timestamp", "status", "duration_ms", "inputs", "languages", "repositories"]

/-- A text without a document, or with a mapping that has no key of a manifest. -/
def Foreign (parser : Yaml.Parser) (text : Bytes) : Prop :=
  parser text = some none ∨
    ∃ node fields, parser text = some (some node) ∧ node.fields? = some fields ∧
      ∀ key ∈ keys, fields.lookup key = none

/-- What is relied on of a decoder and the parser behind it: an empty document is decoded, without an
error, into the manifest that has nothing in it, and unknown keys are ignored. -/
structure Lenient (parser : Yaml.Parser) (decode : Decoder) : Prop where
  empty : ∀ text, parser text = some none → decode text = .ok {}
  unknown : ∀ text node fields, parser text = some (some node) → node.fields? = some fields →
    (∀ key ∈ keys, fields.lookup key = none) → decode text = .ok {}

theorem Lenient.decode_foreign {parser : Yaml.Parser} {decode : Decoder} (h : Lenient parser decode)
    {text : Bytes} (htext : Foreign parser text) : decode text = .ok {} := by
  rcases htext with hempty | ⟨node, fields, hnode, hfields, hkeys⟩
  · exact h.empty text hempty
  · exact h.unknown text node fields hnode hfields hkeys

theorem isNull_of_fields? {node : Yaml.Node} {fields : List (Bytes × Yaml.Node)}
    (h : node.fields? = some fields) : node.isNull = false := by
  cases node with
  | mapping entries => rfl
  | scalar => cases h
  | sequence => cases h

theorem Reading.get_of_missing {α : Type} {fields : List (Bytes × Yaml.Node)} {name : Bytes}
    (h : fields.lookup name = none) (standing : α) (read : Yaml.Node → Reading α) :
    get fields name standing read = pure standing := by
  rw [get, h]

/-- Where no key of a manifest is given, nothing is read. -/
theorem Reading.manifest_of_foreign {node : Yaml.Node} {fields : List (Bytes × Yaml.Node)}
    (hfields : node.fields? = some fields) (hkeys : ∀ key ∈ keys, fields.lookup key = none) :
    (manifest node).run false = some ({}, false) := by
  have hgiven : Reading.fields node = pure fields := by
    rw [Reading.fields, hfields]
    rfl
  have hnone : ∀ name, List.lookup name ([] : List (Bytes × Yaml.Node)) = none := fun _ => rfl
  simp only [keys, List.forall_mem_cons] at hkeys
  obtain ⟨hid, htime, hstatus, hduration, hinputs, hlanguages, hrepositories, -⟩ := hkeys
  simp only [manifest, hgiven, pure_bind, get_of_missing hid, get_of_missing htime,
    get_of_missing hstatus, get_of_missing hduration, get_of_missing hinputs,
    get_of_missing hlanguages, get_of_missing hrepositories, get_of_missing (hnone _)]
  rfl

/-- The decoder of the program is such. -/
theorem lenient_decode : Lenient Yaml.parse? decode where
  empty text h := by rw [decode, h]
  unknown text node fields hnode hfields hkeys := by
    rw [decode, hnode]
    dsimp only
    rw [isNull_of_fields? hfields, Reading.manifest_of_foreign hfields hkeys]
    rfl

end Bindery.Manifest

namespace Bindery.Build

open Text (bytes)

/-- A directory with a file that is decoded as a manifest. -/
def HoldsManifest (decode : Manifest.Decoder) (tree : FileTree) (out : Bytes) : Prop :=
  ∃ text m, tree.read (Path.join [out, Manifest.fileName]) = .ok text ∧ decode text = .ok m

section

variable {decode : Manifest.Decoder} {tree : FileTree} {out : Bytes}

theorem loadWith_of_decode {text : Bytes} {m : Manifest}
    (hread : tree.read (Path.join [out, Manifest.fileName]) = .ok text) (hdecode : decode text = .ok m) :
    Manifest.loadWith decode tree (Path.join [out, Manifest.fileName]) = .ok m := by
  rw [Manifest.loadWith, hread]
  dsimp only
  rw [Manifest.parseWith, hdecode]
  rfl

theorem isOk_loadWith_iff :
    (∃ m, Manifest.loadWith decode tree (Path.join [out, Manifest.fileName]) = .ok m) ↔
      HoldsManifest decode tree out := by
  constructor
  · rintro ⟨m, hload⟩
    rw [Manifest.loadWith] at hload
    split at hload
    · next text hread => exact ⟨text, m, hread, eq_ok_of_mapError hload⟩
    · cases hload
  · rintro ⟨text, m, hread, hdecode⟩
    exact ⟨m, loadWith_of_decode hread hdecode⟩

end

/-! ## Running -/

variable {decode : Manifest.Decoder} {out : Bytes} {w : World}

theorem run_clean_of_ok {previous : Option Manifest} {tree : FileTree}
    (h : clearOutput decode out w.tree = .ok (previous, tree)) :
    (clean decode out).run.run w = (.ok previous, { w with tree }) :=
  (run_bind_of_ok (x := get) rfl _).trans (run_require_of_ok h _)

theorem run_clean_of_error {fault : Fault} (h : clearOutput decode out w.tree = .error fault) :
    (clean decode out).run.run w = (.error fault, w) :=
  (run_bind_of_ok (x := get) rfl _).trans (run_require_of_error h _)

/-! ## What is cleared -/

section Content

variable (hdirectory : w.tree.stat out = .ok .directory) (hnames : w.tree.names out ≠ [])

include hdirectory hnames

theorem clearOutput_of_error {cause : Fault}
    (h : Manifest.loadWith decode w.tree (Path.join [out, Manifest.fileName]) = .error cause) :
    clearOutput decode out w.tree =
      .error (refused "output directory is not empty and holds no earlier build" out cause) := by
  have hempty : ¬ (w.tree.names out).isEmpty = true := by simpa using hnames
  simp only [clearOutput, hdirectory, if_neg hempty, h]

theorem clearOutput_of_ok {previous : Manifest} {tree : FileTree}
    (h : Manifest.loadWith decode w.tree (Path.join [out, Manifest.fileName]) = .ok previous)
    (htree : (w.tree.remove out).makeDirectory out = .ok tree) :
    clearOutput decode out w.tree = .ok (some previous, tree) := by
  have hempty : ¬ (w.tree.names out).isEmpty = true := by simpa using hnames
  simp only [clearOutput, hdirectory, if_neg hempty, h, htree]
  rfl

end Content

/-- Unless a manifest is found, the directory is at most made. -/
theorem makeDirectory_of_clearOutput (hmanifest : ¬ HoldsManifest decode w.tree out)
    {previous : Option Manifest} {tree : FileTree} (h : clearOutput decode out w.tree = .ok (previous, tree)) :
    w.tree.makeDirectory out = .ok tree := by
  have hmake : ∀ {x : Except Fault FileTree} {toFault : Fault → Fault},
      (x.mapError toFault >>= fun tree => .ok (none, tree)) = .ok (previous, tree) → x = .ok tree := by
    intro x toFault hx
    obtain ⟨tree', htree, hx⟩ := Listing.exists_of_bind_eq_ok hx
    rw [eq_ok_of_mapError htree, (Prod.mk.inj (Except.ok.inj hx)).2]
  rw [clearOutput] at h
  split at h
  · exact hmake h
  · cases h
  · cases h
  · split at h
    · exact hmake h
    · split at h
      · cases h
      · next m hm => exact absurd (isOk_loadWith_iff.1 ⟨m, hm⟩) hmanifest

/-- **The manifest decides whether a directory is cleared.** However texts are decoded: a directory with
content that holds no file which is decoded as a manifest is refused, and everything stays as it was. One
that holds such a file is cleared: afterwards nothing is in it, and all else is as it was. Whatever the
output directory is, without such a file nothing that was there is taken away.

Where empty documents are decoded and unknown keys are ignored, a directory is cleared also if the file is
empty, or holds a mapping that has no key of a manifest. -/
theorem clean_output (decode : Manifest.Decoder) (out : Bytes) (w : World) :
    (w.tree.stat out = .ok .directory → w.tree.names out ≠ [] → ¬ HoldsManifest decode w.tree out →
      ∃ fault, (clean decode out).run.run w = (.error fault, w) ∧ fault.category = .fileSystem) ∧
    (w.tree.stat out = .ok .directory → w.tree.names out ≠ [] → HoldsManifest decode w.tree out →
      ∃ previous tree, (clean decode out).run.run w = (.ok (some previous), { w with tree }) ∧
        tree.stat out = .ok .directory ∧
        ∀ p, p ≠ w.tree.components out →
          tree.find? p = if w.tree.components out <+: p then none else w.tree.find? p) ∧
    (¬ HoldsManifest decode w.tree out → ∀ p e, w.tree.find? p = some e →
      ((clean decode out).run.run w).2.tree.find? p = some e) ∧
    ∀ parser text, Manifest.Lenient parser decode →
      w.tree.read (Path.join [out, Manifest.fileName]) = .ok text → Manifest.Foreign parser text →
      w.tree.stat out = .ok .directory → w.tree.names out ≠ [] →
      ∃ tree, (clean decode out).run.run w = (.ok (some {}), { w with tree }) ∧
        ∀ p, p ≠ w.tree.components out →
          tree.find? p = if w.tree.components out <+: p then none else w.tree.find? p := by
  have hclears : ∀ m, w.tree.stat out = .ok .directory → w.tree.names out ≠ [] →
      Manifest.loadWith decode w.tree (Path.join [out, Manifest.fileName]) = .ok m →
      ∃ tree, (clean decode out).run.run w = (.ok (some m), { w with tree }) ∧
        tree.stat out = .ok .directory ∧
        ∀ p, p ≠ w.tree.components out →
          tree.find? p = if w.tree.components out <+: p then none else w.tree.find? p := by
    intro m hdirectory hnames hload
    obtain ⟨tree, hmade, hcleared⟩ := FileTree.exists_clear hdirectory
    exact ⟨tree, run_clean_of_ok (clearOutput_of_ok hdirectory hnames hload hmade), hcleared⟩
  refine ⟨fun hdirectory hnames hmanifest => ?_, fun hdirectory hnames hmanifest => ?_,
    fun hmanifest p e hp => ?_, fun parser text hlenient hread hforeign hdirectory hnames => ?_⟩
  · cases hload : Manifest.loadWith decode w.tree (Path.join [out, Manifest.fileName]) with
    | ok m => exact absurd (isOk_loadWith_iff.1 ⟨m, hload⟩) hmanifest
    | error cause =>
      exact ⟨_, run_clean_of_error (clearOutput_of_error hdirectory hnames hload),
        Fault.category_raiseFrom _ _ _ _⟩
  · obtain ⟨m, hload⟩ := isOk_loadWith_iff.2 hmanifest
    exact ⟨m, hclears m hdirectory hnames hload⟩
  · cases hclear : clearOutput decode out w.tree with
    | error fault => rwa [run_clean_of_error hclear]
    | ok result =>
      obtain ⟨previous, tree⟩ := result
      rw [run_clean_of_ok hclear]
      exact FileTree.find?_of_makeDirectory (makeDirectory_of_clearOutput hmanifest hclear) hp
  · obtain ⟨tree, hrun, -, hcleared⟩ := hclears {} hdirectory hnames
      (loadWith_of_decode hread (hlenient.decode_foreign hforeign))
    exact ⟨tree, hrun, hcleared⟩

/-- A directory with a file in it, and with an empty file that is named like a manifest. -/
def blankManifest : FileTree where
  entries :=
    [([bytes "o"], .directory), ([bytes "o", bytes "keep.txt"], .file (bytes "Text.\n")),
      ([bytes "o", bytes "manifest.yaml"], .file [])]

/-- An empty file is decoded as a manifest, so the directory is cleared, and the other file in it is
gone. -/
theorem clean_output_blankManifest :
    blankManifest.stat (bytes "/o") = .ok .directory ∧ blankManifest.names (bytes "/o") ≠ [] ∧
      HoldsManifest Manifest.decode blankManifest (bytes "/o") ∧
      Manifest.Lenient Yaml.parse? Manifest.decode ∧ Manifest.Foreign Yaml.parse? [] ∧
      ∃ tree, (clean Manifest.decode (bytes "/o")).run.run { tree := blankManifest } =
          (.ok (some {}), { tree }) ∧
        tree.find? [bytes "o", bytes "keep.txt"] = none := by
  have hdirectory : blankManifest.stat (bytes "/o") = .ok .directory := rfl
  have hnames : blankManifest.names (bytes "/o") ≠ [] := by
    refine List.ne_nil_of_mem (a := bytes "keep.txt") (List.mem_mergeSort.2 ?_)
    decide +kernel
  have hforeign : Manifest.Foreign Yaml.parse? [] := .inl rfl
  obtain ⟨tree, hrun, hcleared⟩ :=
    (clean_output Manifest.decode (bytes "/o") { tree := blankManifest }).2.2.2 Yaml.parse? []
      Manifest.lenient_decode rfl hforeign hdirectory hnames
  refine ⟨hdirectory, hnames, ⟨[], {}, rfl, rfl⟩, Manifest.lenient_decode, hforeign, tree, hrun, ?_⟩
  rw [hcleared _ (by decide +kernel), if_pos (by decide +kernel)]

end Bindery.Build
