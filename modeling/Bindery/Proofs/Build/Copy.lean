import Bindery.Proofs.Build.Discard
import Bindery.Proofs.Expansion.Figure

/-!
# Copies of figures

A pass that succeeds has copied each of its resources next to the document: what its source holds, and of
a compressed drawing what is in it (`TransfersAll.isCopied`). So the link of a figure leads to a copy of
the file that the figure shows, if that file is among the resources. It is not if an earlier figure shows
another file with the same target, as `a.svg` and `a.svgz` have: then the link leads to the copy of that
one (`pass_copies_figures`).
-/

namespace Bindery.Build

open Expansion (Resource Performance figures conversation alone)
open Manifest (Edition)
open Text (bytes)

/-! ## Editions that are written -/

/-- A resource is copied into a directory, all of it. -/
def Transfers (dir : Bytes) (r : Resource) (t t' : FileTree) : Prop :=
  ∃ t₁ source content, t.makeDirectory (Path.dir (Path.join [dir, r.target])) = .ok t₁ ∧
    t₁.read r.source = .ok source ∧
    resourceContent r source = .ok { bytes := content, intact := true } ∧
    t₁.write (Path.join [dir, r.target]) content = .ok t'

/-- Resources are copied one after the other, all of them. -/
inductive TransfersAll (dir : Bytes) : List Resource → FileTree → FileTree → Prop where
  | nil (t : FileTree) : TransfersAll dir [] t t
  | cons {r : Resource} {rs : List Resource} {t t₁ t' : FileTree}
      (first : Transfers dir r t t₁) (others : TransfersAll dir rs t₁ t') :
      TransfersAll dir (r :: rs) t t'

section Writing

variable {s : Session} {o : Surroundings} {context : LogContext} {out dir : Bytes} {d : Descriptor}
  {w w' : World} {edition : Edition}

theorem transfers_of_run {r : Resource} {u : Unit}
    (h : (copyResource dir r).run.run w = (.ok u, w')) : Transfers dir r w.tree w'.tree := by
  obtain ⟨_, _, hmake, h⟩ := exists_of_run_bind h
  obtain ⟨t₁, hmade, rfl⟩ := exists_of_run_changeFiles hmake
  obtain ⟨_, _, hget, h⟩ := exists_of_run_bind h
  obtain ⟨rfl, rfl⟩ := eq_of_run_get hget
  obtain ⟨source, _, hopen, h⟩ := exists_of_run_bind h
  obtain ⟨hsource, rfl⟩ := eq_ok_of_run_require hopen
  obtain ⟨⟨content, intact⟩, _, hunpack, h⟩ := exists_of_run_bind h
  obtain ⟨hcontent, rfl⟩ := eq_ok_of_run_require hunpack
  obtain ⟨_, _, hwrite, h⟩ := exists_of_run_bind h
  obtain ⟨t₂, hwritten, rfl⟩ := exists_of_run_changeFiles hwrite
  cases intact with
  | false => cases h
  | true =>
    obtain ⟨-, rfl⟩ := eq_of_run_pure h
    exact ⟨t₁, source, content, eq_ok_of_mapError hmade, eq_ok_of_mapError hsource, hcontent,
      eq_ok_of_mapError hwritten⟩

theorem transfersAll_of_run {rs : List Resource} {u : PUnit}
    (h : (rs.forM (copyResource dir)).run.run w = (.ok u, w')) :
    TransfersAll dir rs w.tree w'.tree := by
  induction rs generalizing w with
  | nil =>
    obtain ⟨-, rfl⟩ := eq_of_run_pure h
    exact .nil w.tree
  | cons r rs ih =>
    obtain ⟨_, w₁, hfirst, h⟩ := exists_of_run_bind h
    exact .cons (transfers_of_run hfirst) (ih h)

/-- What was done when an edition is written. -/
structure Writes (s : Session) (o : Surroundings) (out : Bytes) (d : Descriptor) (w : World)
    (root : Bytes) (result : Expansion.Expanded) (edition : Edition) (t' : FileTree) : Prop where
  found : s.rootFor w.tree d = .ok root
  expanded : ((Expansion.expand (s.setting o w.tree d) root).run (s.fetcher o) d.id w.services).1 =
    .ok result
  files : ∃ t₁ t₂ t₃ table, w.tree.makeDirectory (directory out d.id) = .ok t₁ ∧
    t₁.write (Path.join [directory out d.id, s.name ++ ".md"]) result.text = .ok t₂ ∧
    t₂.write (Path.join [directory out d.id, labelsFile]) table = .ok t₃ ∧
    TransfersAll (directory out d.id) result.resources t₃ t'
  resources : edition.resources = result.resources.map (·.target)

theorem exists_writes_of_run
    (h : (writeEdition s o context out d).run.run w = (.ok edition, w')) :
    ∃ root result, Writes s o out d w root result edition w'.tree := by
  obtain ⟨_, _, hget, h⟩ := exists_of_run_bind h
  obtain ⟨rfl, rfl⟩ := eq_of_run_get hget
  obtain ⟨root, _, hfind, h⟩ := exists_of_run_bind h
  obtain ⟨hroot, rfl⟩ := eq_ok_of_run_require hfind
  obtain ⟨result, w₁, hexpand, h⟩ := exists_of_run_bind h
  obtain ⟨hresult, rfl⟩ := Prod.mk.inj ((run_ask _ _ _ _).symm.trans hexpand)
  obtain ⟨_, _, hmake, h⟩ := exists_of_run_bind h
  obtain ⟨t₁, hmade, rfl⟩ := exists_of_run_changeFiles hmake
  obtain ⟨_, _, hwrite, h⟩ := exists_of_run_bind h
  obtain ⟨t₂, hdocument, rfl⟩ := exists_of_run_changeFiles hwrite
  obtain ⟨_, _, hwrite', h⟩ := exists_of_run_bind h
  obtain ⟨t₃, hlabels, rfl⟩ := exists_of_run_changeFiles hwrite'
  obtain ⟨_, w₅, hcopy, h⟩ := exists_of_run_bind h
  obtain ⟨_, w₆, hwarn, h⟩ := exists_of_run_bind h
  obtain ⟨rfl, rfl⟩ := eq_of_run_pure h
  have htree : w₆.tree = w₅.tree := by
    obtain rfl := (Prod.mk.inj hwarn).2
    exact tree_warnOfLinks context (directory out d.id) result.text w₅
  refine ⟨root, result, eq_ok_of_mapError hroot, hresult, ⟨t₁, t₂, t₃, _, eq_ok_of_mapError hmade,
    eq_ok_of_mapError hdocument, eq_ok_of_mapError hlabels, ?_⟩, rfl⟩
  rw [htree]
  exact transfersAll_of_run hcopy

/-- **A pass that succeeds** has written its edition, and takes nothing back. -/
theorem exists_writes (h : (pass s o context out d).run w = (.ok edition, w')) :
    ∃ root result, Writes s o out d w root result edition w'.tree := by
  cases hwrite : (writeEdition s o { context with lang := d.id } out d).run.run w with
  | mk r w₁ =>
    rw [pass, Effect.run_bind, hwrite] at h
    cases r with
    | error fault => cases h
    | ok edition' =>
      obtain ⟨hedition, rfl⟩ := Prod.mk.inj h
      obtain rfl := Except.ok.inj hedition
      exact exists_writes_of_run hwrite

end Writing

/-! ## What copies hold -/

section Holding

variable {dir : Bytes} {r : Resource} {rs : List Resource} {t t' : FileTree} {p : List Bytes}

theorem Transfers.copies (h : Transfers dir r t t') : Copies dir r t t' := by
  obtain ⟨t₁, source, content, hmade, -, -, hwritten⟩ := h
  exact ⟨t₁, content, hmade, hwritten⟩

theorem TransfersAll.copiesAll (h : TransfersAll dir rs t t') : CopiesAll dir rs t t' := by
  induction h with
  | nil t => exact .nil t
  | cons first others ih => exact .cons first.copies ih

variable (hdir : Path.isAbsolute dir = true) {content : Bytes}

include hdir

theorem Copies.find?_of_file (h : Copies dir r t t') (hp : p ≠ landing dir r)
    (hfile : t.find? p = some (.file content)) : t'.find? p = some (.file content) := by
  obtain ⟨t₁, content', hmade, hwritten⟩ := h
  rw [← components_landing hdir r t₁] at hp
  rw [find?_write hwritten hp]
  exact FileTree.find?_of_makeDirectory hmade hfile

theorem CopiesAll.find?_of_file (h : CopiesAll dir rs t t') (hp : ∀ r ∈ rs, p ≠ landing dir r)
    (hfile : t.find? p = some (.file content)) : t'.find? p = some (.file content) := by
  induction h with
  | nil t => exact hfile
  | cons first others ih =>
    obtain ⟨hr, hrs⟩ := List.forall_mem_cons.1 hp
    exact ih hrs (first.find?_of_file hdir hr hfile)

variable {source : Bytes} (habs : Path.isAbsolute r.source = true)
  (hsource : t.find? (Path.cleanComponents r.source) = some (.file source))

include habs hsource

theorem Transfers.holds (h : Transfers dir r t t') :
    ∃ content, resourceContent r source = .ok { bytes := content, intact := true } ∧
      t'.find? (landing dir r) = some (.file content) := by
  obtain ⟨t₁, source', content, hmade, hread, hcontent, hwritten⟩ := h
  have hfound := FileTree.find?_of_read hread
  rw [FileTree.components_of_isAbsolute t₁ habs, FileTree.find?_of_makeDirectory hmade hsource] at hfound
  obtain rfl := FileEntry.file.inj (Option.some.inj hfound)
  refine ⟨content, hcontent, ?_⟩
  rw [← components_landing hdir r t₁]
  exact find?_of_write hwritten

/-- **Every copy holds what was read from its source** when all are made: no other copy lies where it
does, and none lies where its source does. -/
theorem TransfersAll.holds (h : TransfersAll dir rs t t')
    (hdescends : ∀ r ∈ rs, Path.Descends r.target) (hnodup : (rs.map (·.target)).Nodup) (hr : r ∈ rs)
    (hbeside : ¬ Path.cleanComponents dir <+: Path.cleanComponents r.source) :
    ∃ content, resourceContent r source = .ok { bytes := content, intact := true } ∧
      t'.find? (landing dir r) = some (.file content) := by
  induction h with
  | nil t => cases hr
  | cons first others ih =>
    obtain ⟨hfirst, hothers⟩ := List.forall_mem_cons.1 hdescends
    obtain ⟨hnew, hnodup⟩ := List.nodup_cons.1 hnodup
    rcases List.mem_cons.1 hr with rfl | hr
    · obtain ⟨content, hcontent, hfile⟩ := first.holds hdir habs hsource
      refine ⟨content, hcontent, others.copiesAll.find?_of_file hdir (fun r' hr' heq => ?_) hfile⟩
      have htarget := hfirst.eq_of_join (hothers r' hr') hdir heq
      exact hnew (List.mem_map.2 ⟨r', hr', htarget.symm⟩)
    · refine ih (first.copies.find?_of_file hdir (fun heq => ?_) hsource) hothers hnodup hr
      exact hbeside (heq ▸ hfirst.prefix_join hdir)

end Holding

/-! ## Passes -/

/-- At a place among some files there is a copy of a resource, as its source was among other files. -/
def IsCopy (t : FileTree) (r : Resource) (t' : FileTree) (place : List Bytes) : Prop :=
  ∃ source content, t.read r.source = .ok source ∧
    (if Expansion.isCompressed r.source then
      Gzip.unpack? source = some { bytes := content, intact := true }
    else content = source) ∧
    t'.find? place = some (.file content)

/-- No file stands at a place, and none below it. -/
def IsFree (t : FileTree) (place : List Bytes) : Prop :=
  ∀ p content, place <+: p → t.find? p ≠ some (.file content)

section Pass

variable {s : Session} {o : Surroundings} {context : LogContext} {out : Bytes} {d : Descriptor}
  {w : World} {root : Bytes} {result : Expansion.Expanded} {edition : Edition} {t' : FileTree}

theorem bytes_of_resourceContent {r : Resource} {source content : Bytes}
    (h : resourceContent r source = .ok { bytes := content, intact := true }) :
    if r.decompress then Gzip.unpack? source = some { bytes := content, intact := true }
    else content = source := by
  rw [resourceContent] at h
  split at h
  · next hdecompress =>
    rw [if_pos hdecompress]
    split at h
    · next unpacked hunpacked => rw [hunpacked, Except.ok.inj h]
    · cases h
  · next hplain =>
    rw [if_neg hplain]
    exact (congrArg Gzip.Content.bytes (Except.ok.inj h)).symm

/-- A file that lies outside of the directory of an edition is there until the resources are copied. -/
theorem Writes.isCopy (h : Writes s o out d w root result edition t')
    (hroot : Path.isAbsolute s.resolver.root = true) (hname : 47 ∉ s.name)
    (hout : Path.isAbsolute out = true)
    (hfree : IsFree w.tree (Path.cleanComponents (directory out d.id)))
    (hnodup : (result.resources.map (·.target)).Nodup) {r : Resource} (hr : r ∈ result.resources)
    (hdecompress : r.decompress = Expansion.isCompressed r.source)
    (hfile : w.tree.isFile r.source = true) (habs : Path.isAbsolute r.source = true) :
    IsCopy w.tree r t' (landing (directory out d.id) r) := by
  have hdir : Path.isAbsolute (directory out d.id) = true := Path.isAbsolute_join hout
  obtain ⟨t₁, t₂, t₃, table, hmade, hdocument, hlabels, hcopied⟩ := h.files
  obtain ⟨source, hread⟩ := FileTree.read_of_isFile hfile
  have hfound := FileTree.find?_of_read hread
  rw [FileTree.components_of_isAbsolute _ habs] at hfound
  have hbeside : ¬ Path.cleanComponents (directory out d.id) <+: Path.cleanComponents r.source :=
    fun hbelow => hfree _ source hbelow hfound
  have hchild : ∀ {name content : Bytes} {t t' : FileTree}, Path.Proper name →
      t.write (Path.join [directory out d.id, name]) content = .ok t' →
        t.find? (Path.cleanComponents r.source) = some (.file source) →
          t'.find? (Path.cleanComponents r.source) = some (.file source) := by
    intro name content t t' hproper hwritten hsource
    rw [find?_write_child hdir hproper hwritten, hsource]
    exact fun hbelow => hbeside ((List.prefix_append _ _).trans hbelow)
  have hsource := hchild proper_labelsFile hlabels (hchild (proper_document hname) hdocument
    (FileTree.find?_of_makeDirectory hmade hfound))
  obtain ⟨content, hcontent, hcopy⟩ := hcopied.holds hdir habs hsource
    (descends_of_expand hroot (h.expanded ▸ Expansion.Script.runs_run (s.fetcher o) d.id _ _)) hnodup hr hbeside
  exact ⟨source, content, hread, hdecompress ▸ bytes_of_resourceContent hcontent, hcopy⟩

end Pass

/-- **The link of a figure leads to a copy** of the file that the figure shows, or of the file that an
earlier figure with the same target shows. -/
theorem pass_copies_figures {config : Config} {tree : FileTree} {s : Session} {store : Metadata.Store}
    {refs : List Repository.Reference} {o : Surroundings} {context : LogContext} {out : Bytes}
    {d : Descriptor} {w w' : World} {edition : Edition}
    (hprepare : Session.prepare config tree = .ok (s, store, refs))
    (hcwd : Path.isAbsolute tree.cwd = true)
    (hbook : w.tree.stat s.resolver.root = .ok .directory)
    (hpassed : (pass s o context out d).run w = (.ok edition, w')) :
    ∃ root result, s.rootFor w.tree d = .ok root ∧
      alone (s.fetcher o) w.services (s.setting o w.tree d, root) = .ok result ∧
      edition.resources = result.resources.map (·.target) ∧ edition.resources.Nodup ∧
      ∀ earlier q later,
        figures (conversation (s.fetcher o) w.services (s.setting o w.tree d, root)) =
          earlier ++ q :: later →
        ∃ own r, q.Draws (s.setting o w.tree d) own ∧
          Performance.Kept (s.setting o w.tree d) result.resources earlier own r ∧
          (47 ∉ config.name → Path.isAbsolute out = true →
            IsFree w.tree (Path.cleanComponents (directory out d.id)) →
            IsCopy w.tree r w'.tree (landing (directory out d.id) own)) := by
  obtain ⟨hroot, hname, -⟩ := prepare_eq_ok hprepare hcwd
  obtain ⟨root, result, hwrites⟩ := exists_writes hpassed
  have hexpanded := hwrites.expanded
  have halone : alone (s.fetcher o) w.services (s.setting o w.tree d, root) = .ok result := by
    rw [← id_context s d] at hexpanded
    exact hexpanded
  have hdirectory : w.tree.find? (Path.cleanComponents s.resolver.root) = some .directory :=
    FileTree.find?_of_descend (FileTree.descend_of_stat hroot hbook)
  have hruns := Expansion.runs_conversation (s.fetcher o) w.services (s.setting o w.tree d) root
  rw [halone] at hruns
  obtain ⟨hnodup, hkept⟩ := Expansion.kept_of_runs (s := s.setting o w.tree d) hroot hdirectory hruns
  refine ⟨root, result, hwrites.found, halone, hwrites.resources, hwrites.resources ▸ hnodup, ?_⟩
  intro earlier q later hfigures
  obtain ⟨own, r, hown, hr⟩ := hkept earlier q later hfigures
  refine ⟨own, r, hown, hr, fun hplain hout hfree => ?_⟩
  have hdraws : ∃ f : Performance, f.Draws (s.setting o w.tree d) r := by
    rcases hr.source with rfl | ⟨-, ⟨f, -, hf⟩, -⟩
    · exact ⟨q, hown⟩
    · exact ⟨f, hf⟩
  obtain ⟨f, hf⟩ := hdraws
  have hplace : landing (directory out d.id) own = landing (directory out d.id) r := by
    rw [landing, landing, hr.target]
  rw [hplace]
  exact hwrites.isCopy hroot (hname hplain) hout hfree hnodup hr.mem hr.decompress
    (Resolver.resolve_cases hf.resolved).1 (hf.absolute hroot)

/-- A book without languages that shows a drawing and a compressed drawing of the same name. -/
def twins : FileTree where
  entries :=
    [([bytes "b"], .directory),
      ([bytes "b", bytes "book.md"],
        .file (bytes "\\rel.figure\x7ba\x7d\x7bA\x7d\x7ba.svg\x7d\x7b\x7d\n\n" ++
          bytes "\\rel.figure\x7bb\x7d\x7bB\x7d\x7ba.svgz\x7d\x7b\x7d\n")),
      ([bytes "b", bytes "a.svg"], .file (bytes "<svg/>")),
      ([bytes "b", bytes "a.svgz"], .file (bytes "gzip")),
      ([bytes "o"], .directory)]

theorem isFree_twins : IsFree twins (Path.cleanComponents (directory (bytes "/o") [])) := by
  have hentries : ∀ e ∈ twins.entries, Path.cleanComponents (directory (bytes "/o") []) <+: e.1 →
      e.1 = Path.cleanComponents (directory (bytes "/o") []) := by decide +kernel
  intro p content hp hfile
  by_cases hplace : p = Path.cleanComponents (directory (bytes "/o") [])
  · rw [hplace] at hfile
    cases hfile
  · rw [find?_of_entries (by decide +kernel) hentries p hp hplace] at hfile
    cases hfile

/-- The root of a session with one language, the identifier of the language, and of its pass the resources
and the files that its figures show. -/
def shownFiles (result : Except Fault (Session × Metadata.Store × List Repository.Reference)) :
    Option (Bool × Bytes × List Bytes × List (Option Bytes)) :=
  match result with
  | .ok (s, _, _) =>
    match s.langs with
    | [d] =>
      let setting := s.setting secluded twins d
      match s.rootFor twins d, (pass s secluded {} (bytes "/o") d).run { tree := twins } with
      | .ok root, (.ok edition, _) =>
        let trace := conversation (s.fetcher secluded) {} (setting, root)
        some (twins.isDirectory s.resolver.root, d.id, edition.resources, (figures trace).map fun q =>
          (setting.resolver.resolve twins (Path.dir q.path) (q.arg 2) setting.lang).toOption)
      | _, _ => none
    | _ => none
  | .error _ => none

/-- The link of the second figure leads to a copy of the file that the first one shows. -/
theorem pass_copies_figures_twins : ∃ s store refs d edition w root result,
    Session.prepare { input := bytes "/b/book.md" } twins = .ok (s, store, refs) ∧
      (pass s secluded {} (bytes "/o") d).run { tree := twins } = (.ok edition, w) ∧
      alone (s.fetcher secluded) {} (s.setting secluded twins d, root) = .ok result ∧
      ∃ q ∈ figures (conversation (s.fetcher secluded) {} (s.setting secluded twins d, root)),
        ∃ own r, q.Draws (s.setting secluded twins d) own ∧ own.source = bytes "/b/a.svgz" ∧
          own ∉ result.resources ∧ r.source = bytes "/b/a.svg" ∧
          IsCopy twins r w.tree (landing (directory (bytes "/o") d.id) own) := by
  have hshown : shownFiles (Session.prepare { input := bytes "/b/book.md" } twins) =
      some (true, [], [bytes "a.svg"],
        [some (bytes "/b/a.svg"), some (bytes "/b/a.svgz")]) := by decide +kernel
  cases hprepare : Session.prepare { input := bytes "/b/book.md" } twins with
  | error fault =>
    rw [hprepare] at hshown
    cases hshown
  | ok prepared =>
    obtain ⟨s, store, refs⟩ := prepared
    rw [hprepare] at hshown
    unfold shownFiles at hshown
    dsimp only at hshown
    split at hshown
    · next d _ =>
      split at hshown
      · next root edition w hrootFor hpass =>
        obtain ⟨hbook, hrest⟩ := Prod.mk.inj (Option.some.inj hshown)
        obtain ⟨hid, hrest⟩ := Prod.mk.inj hrest
        obtain ⟨hresources, hfigures⟩ := Prod.mk.inj hrest
        obtain ⟨root', result, hroot, halone, htargets, -, hcopies⟩ :=
          pass_copies_figures (w := { tree := twins }) hprepare rfl
            (FileTree.stat_of_isDirectory hbook) hpass
        obtain rfl : root = root' := Except.ok.inj (hrootFor.symm.trans hroot)
        obtain ⟨q, rest, hsplit, hq, hrest⟩ := List.map_eq_cons_iff.1 hfigures
        obtain ⟨q', rest', rfl, hq', hrest'⟩ := List.map_eq_cons_iff.1 hrest
        obtain rfl := List.map_eq_nil_iff.1 hrest'
        -- The only resource is that of the first figure.
        obtain ⟨first, kept, hfirst, hkept, -⟩ := hcopies [] q [q'] hsplit
        obtain rfl : kept = first := hkept.source.resolve_right fun ⟨_, ⟨f, hf, _⟩, _⟩ => by cases hf
        obtain ⟨own, r, hown, hr, hcopy⟩ := hcopies [q] q' [] hsplit
        rw [htargets] at hresources
        obtain ⟨only, rest, honly, -, hrest⟩ := List.map_eq_cons_iff.1 hresources
        obtain rfl := List.map_eq_nil_iff.1 hrest
        have hall : ∀ r ∈ result.resources, r.source = bytes "/b/a.svg" := by
          intro r hr
          have hmem := hkept.mem
          rw [honly, List.mem_singleton] at hr hmem
          rw [hr, ← hmem]
          exact hfirst.source_eq (eq_ok_of_toOption hq)
        have hsource := hown.source_eq (eq_ok_of_toOption hq')
        refine ⟨s, store, refs, d, edition, w, root, result, rfl, hpass, halone, q', ?_, own, r, hown,
          hsource, fun hmem => ?_, hall r hr.mem, hcopy (by decide) rfl ?_⟩
        · rw [hsplit]
          simp
        · rw [hall own hmem] at hsource
          exact absurd hsource (by decide)
        · rw [hid]
          exact isFree_twins
      · cases hshown
    · cases hshown

end Bindery.Build
