import Bindery.Build.Edition
import Bindery.Proofs.Build.World
import Bindery.Proofs.Expansion.Origin
import Bindery.Proofs.Listing.Extract
import Bindery.Proofs.Metadata.Store

/-!
# What passes change

A pass writes its edition into the directory of its language, and takes it back if it fails. Whatever
it does, the files change at or below that directory only (`pass_within`), where the directory is what
the identifier of the language makes of the output directory. With identifiers that are plain names,
no two of which are the same, these directories lie next to each other in the output directory.
-/

namespace Bindery

open Text (bytes)

/-! ## Resources -/

namespace Path

theorem ext_cases (p : Bytes) : ext p = [] ∨ ∃ tail, ext p = 46 :: tail := by
  rw [ext]
  split
  · exact .inr ⟨_, rfl⟩
  · exact .inl rfl

end Path

namespace Expansion

theorem one_lt_length_ext {p : Bytes} (h : isCompressed p = true) : 1 < (Path.ext p).length := by
  rcases Path.ext_cases p with hext | ⟨tail, hext⟩
  · rw [isCompressed, hext] at h
    exact absurd h (by decide)
  · cases tail with
    | nil =>
      rw [isCompressed, hext] at h
      exact absurd h (by decide)
    | cons c tail => simp [hext]

/-- **Resources stay inside**: their targets lead down from where they are copied to. -/
theorem Setting.Shelves.descends {s : Setting} {r : Resource} (h : s.Shelves r)
    (hroot : Path.isAbsolute s.resolver.root = true) : Path.Descends r.target := by
  obtain ⟨path, shown, hshown, htarget⟩ := h
  have hdescends : Path.Descends shown := by
    rw [Resolver.relative] at hshown
    split at hshown
    · next rel hrel =>
      split at hshown
      · next hinside =>
        obtain rfl := Except.ok.inj hshown
        exact Path.descends_of_relative? hroot hrel hinside
      · cases hshown
    · cases hshown
  rw [htarget, resourceTarget]
  split
  · next hcompressed =>
    exact hdescends.withExtension (one_lt_length_ext hcompressed) (by decide) (by decide)
  · exact hdescends

end Expansion

namespace Build

open FileTree (Within Grows Beneath)
open Manifest (Edition)

/-! ## Writing an edition -/

section Edition

variable {dir : Bytes} {s : Session} {o : Surroundings} {context : LogContext} {out : Bytes}
  {d : Descriptor}

theorem cleanComponents_document (hdir : Path.isAbsolute dir = true) {name : Bytes}
    (hname : 47 ∉ name) :
    Path.cleanComponents (Path.join [dir, name ++ ".md"]) =
      Path.cleanComponents dir ++ [name ++ ".md"] :=
  Path.cleanComponents_join_name hdir (Path.proper_append hname (by decide) (by decide))

theorem cleanComponents_labels (hdir : Path.isAbsolute dir = true) :
    Path.cleanComponents (Path.join [dir, labelsFile]) = Path.cleanComponents dir ++ [labelsFile] :=
  Path.cleanComponents_join_name hdir ⟨by decide, by decide, by decide, by decide⟩

theorem keeps_copyResource (hdir : Path.isAbsolute dir = true) {r : Expansion.Resource}
    (hr : Path.Descends r.target) :
    Keeps (Path.cleanComponents dir) (copyResource dir r) fun _ => True := by
  have hbelow := hr.prefix_join hdir
  have hcanonical := Path.canonical_join hdir r.target
  have hparent : Path.cleanComponents (Path.dir (Path.join [dir, r.target])) <+:
        Path.cleanComponents dir ∨
      Path.cleanComponents dir <+: Path.cleanComponents (Path.dir (Path.join [dir, r.target])) := by
    rw [Path.cleanComponents_dir hcanonical]
    exact List.prefix_or_prefix_of_prefix (List.dropLast_prefix _) hbelow
  refine Acts.bind (keeps_makeDirectory (Path.isAbsolute_dir hcanonical) hparent) fun _ _ => ?_
  refine Acts.bind (acts_get fun _ => growing_of_eq rfl) fun _ _ => ?_
  refine Acts.bind (acts_require (Q := fun _ => True) fun _ _ => trivial) fun _ _ => ?_
  refine Acts.bind (acts_require (Q := fun _ => True) fun _ _ => trivial) fun content _ => ?_
  refine Acts.bind (keeps_write hcanonical.absolute hbelow) fun _ _ => ?_
  split
  · exact acts_throw _
  · exact acts_pure trivial

theorem tree_warnOfLinks (context : LogContext) (dir text : Bytes) (w : World) :
    ((warnOfLinks context dir text).run w).2.tree = w.tree := by
  suffices h : ∀ (paths : List Bytes) (w : World),
      (paths.foldl (fun w path => w.log (context.record .warn "Link target not found in output"
        [("path", .str path)])) w).tree = w.tree from h _ w
  intro paths
  induction paths with
  | nil => exact fun _ => rfl
  | cons path paths ih => exact fun w => ih _

theorem id_contextOf (langs : List Descriptor) (d : Descriptor) : (contextOf langs d).id = d.id := by
  rw [contextOf]
  split
  · next h => exact (List.isEmpty_iff.1 h).symm
  · rfl

theorem id_context (s : Session) (d : Descriptor) : (s.context d).id = d.id := id_contextOf s.langs d

theorem descends_of_expand (hroot : Path.isAbsolute s.resolver.root = true) {tree : FileTree}
    {root : Bytes} {trace : List Expansion.Exchange} {result : Expansion.Expanded}
    (h : (Expansion.expand (s.setting o tree d) root).Runs trace (.ok result)) :
    ∀ r ∈ result.resources, Path.Descends r.target :=
  fun r hr => (Expansion.shelves_of_runs h r hr).descends hroot

/-- **An edition stays in its directory**: writing it leaves everything else as it was, and the
directory is still one. -/
theorem keeps_writeEdition (hroot : Path.isAbsolute s.resolver.root = true) (hname : 47 ∉ s.name)
    (hout : Path.isAbsolute out = true) :
    Keeps (Path.cleanComponents (directory out d.id)) (writeEdition s o context out d)
      fun _ => True := by
  have hdir : Path.isAbsolute (directory out d.id) = true := Path.isAbsolute_join hout
  refine Acts.bind (acts_get fun _ => growing_of_eq rfl) fun w _ => ?_
  refine Acts.bind (acts_require (Q := fun _ => True) fun _ _ => trivial) fun root _ => ?_
  refine Acts.bind (acts_consult _ fun _ _ => growing_of_eq rfl) fun result ⟨trace, hresult⟩ => ?_
  refine Acts.bind (keeps_makeDirectory hdir (.inl List.prefix_rfl)) fun _ _ => ?_
  refine Acts.bind (keeps_write (Path.isAbsolute_join hdir)
    (cleanComponents_document hdir hname ▸ List.prefix_append _ _)) fun _ _ => ?_
  refine Acts.bind (keeps_write (Path.isAbsolute_join hdir)
    (cleanComponents_labels hdir ▸ List.prefix_append _ _)) fun _ _ => ?_
  refine Acts.bind (acts_forM fun r hr =>
    keeps_copyResource hdir (descends_of_expand hroot hresult r hr)) fun _ _ => ?_
  refine Acts.bind (acts_lift fun w =>
    ⟨growing_of_eq (tree_warnOfLinks _ _ _ w), trivial⟩) fun _ _ => ?_
  exact acts_pure trivial

end Edition

/-! ## Passes -/

section Pass

variable {s : Session} {o : Surroundings} {context : LogContext} {out path : Bytes} {d : Descriptor}
  {place : List Bytes}

theorem tree_discard (context : LogContext) (w : World) (path : Bytes) :
    (discard context w path).tree = w.tree ∨ (discard context w path).tree = w.tree.remove path := by
  rw [discard]
  split
  · next tree htree => exact .inr (FileTree.removeAll_eq_ok htree)
  · exact .inl rfl

theorem within_discard (habs : Path.isAbsolute path = true)
    (hplace : place <+: Path.cleanComponents path) (context : LogContext) (w : World) :
    Within place w.tree (discard context w path).tree := by
  rw [← FileTree.components_of_isAbsolute w.tree habs] at hplace
  rcases tree_discard context w path with htree | htree
  · exact htree ▸ .refl _ _
  · exact htree ▸ FileTree.within_of_remove hplace

theorem grows_discard (habs : Path.isAbsolute path = true)
    (hplace : place <+: Path.cleanComponents path) (hne : place ≠ Path.cleanComponents path)
    (context : LogContext) (w : World) : Grows place w.tree (discard context w path).tree := by
  rw [← FileTree.components_of_isAbsolute w.tree habs] at hplace hne
  rcases tree_discard context w path with htree | htree
  · exact htree ▸ .refl _ _
  · exact htree ▸ FileTree.grows_of_remove hplace hne

variable (hroot : Path.isAbsolute s.resolver.root = true) (hname : 47 ∉ s.name)
  (hout : Path.isAbsolute out = true)

include hroot hname hout

/-- An action of a pass changes the files as one of its edition does, or takes back what the edition
wrote. -/
theorem does_pass {R : World → World → Prop}
    (hgrows : ∀ w w', Growing (Path.cleanComponents (directory out d.id)) w w' → R w w')
    (hback : ∀ w : World, R w (((discarded s out d).foldl
      (discard { context with lang := d.id }) w).log
        ({ context with lang := d.id }.record .error "Language pass failed" []))) :
    (pass s o context out d).Does R fun _ => True := by
  unfold pass
  refine Effect.Does.bind ((keeps_writeEdition hroot hname hout).imp hgrows fun _ h => h) fun r _ => ?_
  cases r with
  | ok edition => exact trivial
  | error fault => exact fun w => ⟨hback w, trivial⟩

theorem does_pass_grows (hid : d.id = []) : (pass s o context out d).Does
    (Growing (Path.cleanComponents (directory out d.id))) fun _ => True := by
  have hdir : Path.isAbsolute (directory out d.id) = true := Path.isAbsolute_join hout
  have hstrict : ∀ (l : List Bytes) (c : Bytes), l ≠ l ++ [c] := fun l c h => by simp at h
  refine does_pass hroot hname hout (fun _ _ h => h) fun w => ?_
  rw [discarded, if_pos (by simp [hid])]
  refine Grows.trans (grows_discard (Path.isAbsolute_join hdir) ?_ ?_ _ w)
    (grows_discard (Path.isAbsolute_join hdir) ?_ ?_ _ _)
  · exact cleanComponents_document hdir hname ▸ List.prefix_append _ _
  · exact cleanComponents_document hdir hname ▸ hstrict _ _
  · exact cleanComponents_labels hdir ▸ List.prefix_append _ _
  · exact cleanComponents_labels hdir ▸ hstrict _ _

/-- **A pass stays in its directory** with each of its actions, also when it takes back what it wrote. -/
theorem does_pass_within : (pass s o context out d).Does
    (fun w w' => Within (Path.cleanComponents (directory out d.id)) w.tree w'.tree) fun _ => True := by
  by_cases hid : d.id = []
  · exact (does_pass_grows hroot hname hout hid).imp (fun _ _ => Grows.toWithin) fun _ h => h
  · refine does_pass hroot hname hout (fun _ _ => Grows.toWithin) fun w => ?_
    rw [discarded, if_neg (by simpa using hid)]
    exact within_discard (Path.isAbsolute_join hout) List.prefix_rfl _ w

theorem pass_grows (hid : d.id = []) (w : World) :
    Grows (Path.cleanComponents (directory out d.id)) w.tree ((pass s o context out d).run w).2.tree :=
  ((does_pass_grows hroot hname hout hid).run (fun _ => growing_of_eq rfl) (fun _ _ _ => Grows.trans)
    w).1

theorem pass_within (w : World) :
    Within (Path.cleanComponents (directory out d.id)) w.tree
      ((pass s o context out d).run w).2.tree :=
  ((does_pass_within hroot hname hout).run (fun _ => .refl _ _) (fun _ _ _ => .trans) w).1

omit hroot hname hout in
theorem mapM_pass {R : FileTree → FileTree → Prop} (hrefl : ∀ t, R t t)
    (htrans : ∀ t t' t'', R t t' → R t' t'' → R t t'') {langs : List Descriptor}
    (h : ∀ d ∈ langs, ∀ w, R w.tree ((pass s o context out d).run w).2.tree) (w : World) :
    R w.tree ((langs.mapM (pass s o context out)).run w).2.tree := by
  induction langs generalizing w with
  | nil => exact hrefl _
  | cons d langs ih =>
    obtain ⟨hd, hlangs⟩ := List.forall_mem_cons.1 h
    rw [List.mapM_cons, Effect.run_bind, Effect.run_bind]
    exact htrans _ _ _ (hd w) (ih hlangs _)

end Pass

/-- **The passes of a build** are done at once in some order, and what comes of them is settled. -/
theorem exists_interleaves (s : Session) (o : Surroundings) (out : Bytes) (concurrent : Bool)
    (context : LogContext) (w : World) :
    ∃ results w', (passes s o out concurrent context).run w = (settle results, w') ∧
      Effect.Interleaves (s.langs.map (pass s o context out)) w results w' := by
  have hmapM : s.langs.mapM (pass s o context out) = (s.langs.map (pass s o context out)).mapM id := by
    rw [List.mapM_map]
    rfl
  rw [passes, hmapM]
  split
  · exact ⟨_, _, Effect.run_bind _ _ w, Effect.interleaves_together _ _ w⟩
  · exact ⟨_, _, Effect.run_bind _ _ w, Effect.interleaves_mapM _ w⟩

/-! ## Sessions -/

theorem locate_eq_ok {config : Config} {tree : FileTree} {resolver : Resolver} {input : Bytes}
    (h : locate config tree = .ok (resolver, input)) :
    input = Path.absolute tree.cwd config.input ∧
      ∃ root, resolver.root = Path.absolute tree.cwd root := by
  rw [locate] at h
  obtain ⟨resolver', hresolver, h⟩ := Listing.exists_of_bind_eq_ok h
  split at h
  · obtain ⟨rfl, rfl⟩ := Prod.mk.inj (Except.ok.inj h)
    have hroot := eq_ok_of_mapError hresolver
    rw [Resolver.ofRoot] at hroot
    split at hroot
    · exact ⟨rfl, _, (congrArg Resolver.root (Except.ok.inj hroot)).symm⟩
    · cases hroot
    · cases hroot
  · cases h

/-- The document that metadata is read from is not the root of the file system. -/
theorem components_ne_nil_of_loadInitial {resolver : Resolver} {tree : FileTree} {root : Bytes}
    {lang : LanguageContext} {layer : Layer}
    (h : Metadata.loadInitial resolver tree root lang = .ok layer) : tree.components root ≠ [] := by
  rw [Metadata.loadInitial] at h
  obtain ⟨text, htext, -⟩ := Listing.exists_of_bind_eq_ok h
  intro hnil
  have hread := eq_ok_of_mapError htext
  rw [FileTree.read, FileTree.stat, hnil] at hread
  split at hread
  · cases hread
  · cases hread

/-- The languages of a session have identifiers, unless there is only the one without; and the names
that it gives to documents are those of the settings. -/
theorem prepare_eq_ok {config : Config} {tree : FileTree} {s : Session} {store : Metadata.Store}
    {refs : List Repository.Reference} (h : Session.prepare config tree = .ok (s, store, refs))
    (hcwd : Path.isAbsolute tree.cwd = true) :
    Path.isAbsolute s.resolver.root = true ∧ (47 ∉ config.name → 47 ∉ s.name) ∧
      (s.langs = [{}] ∨ ∀ d ∈ s.langs, d.id ≠ []) := by
  rw [Session.prepare] at h
  obtain ⟨⟨resolver, input⟩, hlocate, h⟩ := Listing.exists_of_bind_eq_ok h
  obtain ⟨base, hbase, h⟩ := Listing.exists_of_bind_eq_ok h
  obtain ⟨declared, hdeclared, h⟩ := Listing.exists_of_bind_eq_ok h
  obtain ⟨store', -, h⟩ := Listing.exists_of_bind_eq_ok h
  obtain ⟨refs', -, h⟩ := Listing.exists_of_bind_eq_ok h
  obtain rfl := (Prod.mk.inj (Except.ok.inj h)).1
  obtain ⟨rfl, root, hroot⟩ := locate_eq_ok hlocate
  refine ⟨?_, fun hname => ?_, ?_⟩
  · rw [hroot]
    exact (Path.canonical_absolute hcwd root).absolute
  · have hinput := Path.canonical_absolute hcwd config.input
    have hne := components_ne_nil_of_loadInitial hbase
    rw [FileTree.components_of_canonical hinput] at hne
    dsimp only
    split
    · exact Path.notMem_stem hinput hne
    · exact hname
  · by_cases hnone : declared.isEmpty = true
    · exact .inl (if_pos hnone)
    · right
      simp only [if_neg hnone]
      exact Metadata.Store.ne_nil_of_mem_languages hdeclared

/-! ## Languages next to each other -/

/-- Whether an identifier is the plain name of a directory. -/
def IsPlainName (id : Bytes) : Prop := 47 ∉ id ∧ id ≠ bytes "." ∧ id ≠ bytes ".."

instance (id : Bytes) : Decidable (IsPlainName id) := inferInstanceAs (Decidable (_ ∧ _))

theorem cleanComponents_directory {out id : Bytes} (hout : Path.isAbsolute out = true)
    (hid : IsPlainName id) (hne : id ≠ []) :
    Path.cleanComponents (directory out id) = Path.cleanComponents out ++ [id] :=
  Path.cleanComponents_join_name hout ⟨hne, hid.1, hid.2.1, hid.2.2⟩

theorem directory_nil {out : Bytes} (hout : Path.isAbsolute out = true) :
    Path.cleanComponents (directory out []) = Path.cleanComponents out := by
  rw [directory, Path.cleanComponents_join hout]
  exact List.reverse_reverse _

theorem not_prefix_directory {out id id' : Bytes} (hout : Path.isAbsolute out = true)
    (hid : IsPlainName id) (hid' : IsPlainName id') (hnil : id ≠ []) (hnil' : id' ≠ [])
    (hne : id ≠ id') :
    ¬ Path.cleanComponents (directory out id) <+: Path.cleanComponents (directory out id') := by
  rw [cleanComponents_directory hout hid hnil, cleanComponents_directory hout hid' hnil',
    List.prefix_append_right_inj]
  simpa using hne

/-- The directory of a language does not hold that of another, and no action of the pass of the first
changes anything in the second. -/
def Apart (s : Session) (o : Surroundings) (context : LogContext) (out : Bytes) (d e : Descriptor) :
    Prop :=
  ¬ Path.cleanComponents (directory out d.id) <+: Path.cleanComponents (directory out e.id) ∧
    (pass s o context out d).Does
      (fun w w' => ∀ p : List Bytes, Path.cleanComponents (directory out e.id) <+: p →
        w'.tree.find? p = w.tree.find? p) fun _ => True

/-- **Passes stay inside, and next to each other**, whatever comes of them and in whatever order they
take turns: if the identifiers of the languages are plain names, no two of them the same, then each
language has a directory of its own directly in the output directory, and none lies in another. The
passes change nothing but what is below the output directory, and the pass of a language changes nothing
in the directory of another.

The files are those of `World.tree`. Fetching a repository changes none of them: what it clones, and what it
removes before that, lies in the workspace, which is left out of this statement (`Surroundings.fetch`). -/
theorem passes_inside {config : Config} {tree : FileTree} {s : Session} {store : Metadata.Store}
    {refs : List Repository.Reference} {out : Bytes} (o : Surroundings) (context : LogContext)
    (hprepare : Session.prepare config tree = .ok (s, store, refs))
    (hcwd : Path.isAbsolute tree.cwd = true) (hname : 47 ∉ config.name)
    (hplain : ∀ d ∈ s.langs, IsPlainName d.id) (hnodup : (s.langs.map (·.id)).Nodup)
    (hout : Path.isAbsolute out = true) :
    (s.langs = [{}] ∨ ∀ d ∈ s.langs,
      Path.cleanComponents (directory out d.id) = Path.cleanComponents out ++ [d.id]) ∧
    (∀ (concurrent : Bool) (w : World), w.tree.stat out = .ok .directory →
      ((passes s o out concurrent context).run w).2.tree.stat out = .ok .directory ∧
      ∀ p, ¬ (Path.cleanComponents out <+: p ∧ Path.cleanComponents out ≠ p) →
        ((passes s o out concurrent context).run w).2.tree.find? p = w.tree.find? p) ∧
    s.langs.Pairwise fun d e =>
      Apart s o context out d e ∧ Apart s o context out e d := by
  obtain ⟨hroot, hname', hlangs⟩ := prepare_eq_ok hprepare hcwd
  have hwithin : ∀ d : Descriptor, (pass s o context out d).Does
      (fun w w' => Within (Path.cleanComponents (directory out d.id)) w.tree w'.tree) fun _ => True :=
    fun d => does_pass_within hroot (hname' hname) hout
  refine ⟨?_, fun concurrent w hw => ?_, ?_⟩
  · exact hlangs.imp_right fun hne d hd => cleanComponents_directory hout (hplain d hd) (hne d hd)
  · -- Each pass changes only what is below the output directory, so all of them do.
    have hpass : ∀ d ∈ s.langs, (pass s o context out d).Does
        (fun w w' => Beneath (Path.cleanComponents out) w.tree w'.tree) fun _ => True := by
      intro d hd
      rcases hlangs with hnone | hne
      · rw [hnone, List.mem_singleton] at hd
        have hid : d.id = [] := congrArg Descriptor.id hd
        rw [← directory_nil hout, ← hid]
        exact (does_pass_grows hroot (hname' hname) hout hid).imp (fun _ _ => Grows.beneath) fun _ h => h
      · have hdirectory := cleanComponents_directory hout (hplain d hd) (hne d hd)
        refine (hwithin d).imp (fun _ _ h => h.beneath ?_ ?_) fun _ h => h
        · exact hdirectory ▸ List.prefix_append _ _
        · rw [hdirectory]
          simp
    obtain ⟨results, w', hrun, hinterleaves⟩ := exists_interleaves s o out concurrent context w
    rw [hrun]
    obtain ⟨hall, -⟩ := hinterleaves.does (R := fun w w' : World => Beneath _ w.tree w'.tree)
      (Q := fun _ _ => True) (fun _ => Beneath.refl _ _) (fun _ _ _ => Beneath.trans) fun i x hx => by
        obtain ⟨d, hd, rfl⟩ := List.mem_map.1 (List.mem_of_getElem? hx)
        exact hpass d hd
    exact hall.of_stat (FileTree.components_of_isAbsolute _ hout)
      (FileTree.components_of_isAbsolute _ hout) hw
  · rcases hlangs with hnone | hne
    · rw [hnone]
      exact List.pairwise_singleton _ _
    · refine (List.pairwise_map.1 hnodup).imp_of_mem fun {d e} hd he hde => ?_
      have hdisjoint := not_prefix_directory hout (hplain d hd) (hplain e he) (hne d hd) (hne e he) hde
      have hdisjoint' :=
        not_prefix_directory hout (hplain e he) (hplain d hd) (hne e he) (hne d hd) (Ne.symm hde)
      exact ⟨⟨hdisjoint, (hwithin d).imp (fun _ _ h _ => h.find?_of_apart hdisjoint hdisjoint')
          fun _ h => h⟩,
        hdisjoint', (hwithin e).imp (fun _ _ h _ => h.find?_of_apart hdisjoint' hdisjoint) fun _ h => h⟩

/-- A book in two languages, and an output directory. -/
def bilingual : FileTree where
  entries :=
    [([bytes "b"], .directory),
      ([bytes "b", bytes "book.md"],
        .file (bytes "---\nlangs: [\x7bid: en\x7d, \x7bid: de\x7d]\n---\n" ++
          bytes "\\rel.input\x7bpart.md\x7d\n")),
      ([bytes "b", bytes "part.md"], .file (bytes "Text.\n")),
      ([bytes "b", bytes "part_de.md"], .file (bytes "\\meta\n")),
      ([bytes "o"], .directory)]

def identifiers (result : Except Fault (Session × Metadata.Store × List Repository.Reference)) :
    List Bytes :=
  match result with
  | .ok (s, _, _) => s.langs.map (·.id)
  | .error _ => []

/-- Nothing is found outside of the files. -/
def secluded : Surroundings where
  fetch _ _ _ := .error .other
  checkout _ := .absent

/-- The pass for the second language fails, and takes nothing back that the first one wrote. -/
theorem passes_inside_bilingual : ∃ s store refs,
    Session.prepare { input := bytes "/b/book.md" } bilingual = .ok (s, store, refs) ∧
      s.langs.map (·.id) = [bytes "en", bytes "de"] ∧
      (∀ d ∈ s.langs, Path.cleanComponents (directory (bytes "/o") d.id) = [bytes "o", d.id]) ∧
      ((passes s secluded (bytes "/o") true {}).run { tree := bilingual }).2.tree.find?
        [bytes "b", bytes "part.md"] = some (.file (bytes "Text.\n")) ∧
      s.langs.Pairwise fun d e =>
        Apart s secluded {} (bytes "/o") d e ∧ Apart s secluded {} (bytes "/o") e d := by
  have hids : identifiers (Session.prepare { input := bytes "/b/book.md" } bilingual) =
      [bytes "en", bytes "de"] := by decide +kernel
  cases hprepare : Session.prepare { input := bytes "/b/book.md" } bilingual with
  | error fault =>
    rw [hprepare] at hids
    cases hids
  | ok prepared =>
    obtain ⟨s, store, refs⟩ := prepared
    rw [hprepare] at hids
    change s.langs.map (·.id) = [bytes "en", bytes "de"] at hids
    have hplain : ∀ id ∈ s.langs.map (·.id), IsPlainName id := by
      rw [hids]
      decide
    have hnodup : (s.langs.map (·.id)).Nodup := by
      rw [hids]
      decide
    obtain ⟨hdirectories, hinside, hapart⟩ := passes_inside secluded {} hprepare rfl (by decide)
      (fun d hd => hplain d.id (List.mem_map_of_mem hd)) hnodup
      (show Path.isAbsolute (bytes "/o") = true from rfl)
    refine ⟨s, store, refs, rfl, hids, ?_, ?_, hapart⟩
    · refine hdirectories.resolve_left fun hnone => ?_
      rw [hnone] at hids
      exact absurd hids (by decide)
    · exact ((hinside true { tree := bilingual } rfl).2 _ (by decide +kernel)).trans
        (by decide +kernel)

end Build

end Bindery
