import Bindery.Proofs.Expansion.Spot
import Bindery.Proofs.Resolver

/-!
# The files that figures show

A figure shows a file, and the file is remembered under the path that the text links to. A path is
remembered once: the resources of a pass are those of its figures, the first for each path
(`resources_of_runs`). Two files have the same path only if one of them is a compressed drawing; then the
file of the later figure is not among the resources.
-/

namespace Bindery.Expansion

open Text

/-! ## Gathering -/

/-- The resources so far and another one, unless its target is among theirs. -/
def gather (kept : List Resource) (r : Resource) : List Resource :=
  if kept.any (·.target == r.target) then kept else kept ++ [r]

section Gather

variable {kept drawn : List Resource} {r : Resource}

theorem any_target_iff : (kept.any (·.target == r.target) = true) ↔ r.target ∈ kept.map (·.target) := by
  simp

theorem subset_gather (kept : List Resource) (r : Resource) : kept ⊆ gather kept r := by
  rw [gather]
  split
  · exact List.Subset.refl _
  · exact List.subset_append_left _ _

theorem subset_foldl_gather (kept drawn : List Resource) : kept ⊆ drawn.foldl gather kept := by
  induction drawn generalizing kept with
  | nil => exact List.Subset.refl _
  | cons r drawn ih => exact List.Subset.trans (subset_gather kept r) (ih _)

theorem foldl_gather_subset (kept drawn : List Resource) : drawn.foldl gather kept ⊆ kept ++ drawn := by
  induction drawn generalizing kept with
  | nil => simp
  | cons r drawn ih =>
    refine List.Subset.trans (ih (gather kept r)) ?_
    rw [gather]
    split
    · exact ((List.sublist_cons_self r drawn).append_left kept).subset
    · exact List.append_assoc kept [r] drawn ▸ List.Subset.refl _

theorem nodup_targets_gather (h : (kept.map (·.target)).Nodup) (drawn : List Resource) :
    ((drawn.foldl gather kept).map (·.target)).Nodup := by
  induction drawn generalizing kept with
  | nil => exact h
  | cons r drawn ih =>
    apply ih
    rw [gather]
    split
    · exact h
    · next hnew =>
      rw [any_target_iff] at hnew
      simpa using h.concat hnew

/-- What was drawn is kept, or something drawn before it has its target. -/
theorem exists_mem_gather (earlier : List Resource) (own : Resource) (later : List Resource) :
    ∃ r ∈ (earlier ++ own :: later).foldl gather [], r.target = own.target ∧
      (r = own ∨ r ∈ earlier) := by
  rw [List.foldl_append, List.foldl_cons]
  by_cases hkept : own.target ∈ (earlier.foldl gather []).map (·.target)
  · obtain ⟨r, hr, htarget⟩ := List.mem_map.1 hkept
    refine ⟨r, subset_foldl_gather _ _ (subset_gather _ _ hr), htarget, .inr ?_⟩
    simpa using foldl_gather_subset [] earlier hr
  · have hnew : own ∈ gather (earlier.foldl gather []) own := by
      rw [gather, if_neg (mt any_target_iff.1 hkept)]
      exact List.mem_append_right _ (List.mem_singleton_self own)
    exact ⟨own, subset_foldl_gather _ _ hnew, rfl, .inl rfl⟩

end Gather

/-! ## What figures draw -/

def figures (trace : List Exchange) : List Performance :=
  (performances trace).filter (·.directive == .figure)

theorem figures_append (trace trace' : List Exchange) :
    figures (trace ++ trace') = figures trace ++ figures trace' := by
  rw [figures, performances_append, List.filter_append]
  rfl

/-- A figure shows a file: it was resolved to it, and prints a link to where the file goes. -/
structure Performance.Draws (s : Setting) (p : Performance) (r : Resource) : Prop where
  resolved : s.resolver.resolve s.tree (Path.dir p.path) (p.arg 2) s.lang = .ok r.source
  shown : ∃ shown, s.resolver.relative r.source = .ok shown ∧ r.target = resourceTarget shown ∧
    r.decompress = isCompressed shown
  output : p.output = bytes "![" ++ trim (p.arg 1) ++ "](" ++ r.target ++ ")\x7b" ++
    (bytes "#fig:" ++ trim (p.arg 0) ++
      if (trim (p.arg 3)).isEmpty then [] else bytes " " ++ trim (p.arg 3)) ++ "\x7d"

/-- What a conversation adds to the resources: those of the figures it tells of. -/
def Drawn (s : Setting) (d : Draft) (trace : List Exchange) (d' : Draft) : Prop :=
  ∃ drawn, List.Forall₂ (Performance.Draws s) (figures trace) drawn ∧
    d'.resources = drawn.foldl gather d.resources

/-- The conduct of steps that remember what their figures show. -/
def drawing (s : Setting) : Conduct where
  given _ := True
  ok := Drawn s
  fail _ _ _ := True
  refl _ := ⟨[], .nil, rfl⟩
  trans := by
    rintro d d' d'' first rest ⟨drawn, hdraws, hresources⟩ ⟨drawn', hdraws', hresources'⟩
    refine ⟨drawn ++ drawn', ?_, ?_⟩
    · rw [figures_append]
      exact List.rel_append hdraws hdraws'
    · rw [hresources', hresources, List.foldl_append]
  fail_trans _ _ := trivial

section Steps

variable {α β : Type} {s : Setting} {d d' : Draft}

/-! ### Steps without figures -/

theorem drawn_of_figures_eq_nil {trace : List Exchange} (h : figures trace = [])
    (hresources : d'.resources = d.resources) : Drawn s d trace d' :=
  ⟨[], by rw [h]; exact .nil, hresources⟩

theorem drawing_throw (fault : Fault) : (drawing s).Always (throw fault : Pass α) :=
  Conduct.always_throw fun _ => trivial

theorem drawing_throw_bind (fault : Fault) (f : α → Pass β) :
    (drawing s).Always (throw fault >>= f) := drawing_throw (α := β) fault

theorem drawing_require (result : Except Fault α) : (drawing s).Always (Pass.require result) :=
  Conduct.always_require fun _ _ _ => trivial

theorem drawing_modify {f : Draft → Draft} (h : ∀ d, (f d).resources = d.resources) :
    (drawing s).Always (modify f : Pass PUnit) :=
  Conduct.always_modify fun d => drawn_of_figures_eq_nil rfl (h d)

theorem drawing_ask {request : Request} (h : ∀ answer, figures [⟨request, answer⟩] = []) :
    (drawing s).Always (Pass.ask request) :=
  Conduct.always_ask fun _ answer _ => drawn_of_figures_eq_nil (h answer) rfl

theorem drawing_define (kind key : Bytes) : (drawing s).Always (define kind key) := by
  refine Conduct.always_get_bind fun d => ?_
  split
  · exact drawing_throw _ d
  · next number registry _ =>
    refine Conduct.Holds.bind (Q := fun _ _ => True) ?_ fun _ d' _ _ _ => Conduct.always_pure number d'
    exact Conduct.holds_set (drawn_of_figures_eq_nil rfl rfl) trivial

theorem drawing_projectCheckout : (drawing s).Always s.projectCheckout :=
  Conduct.always_projectCheckout s (fun _ => drawn_of_figures_eq_nil rfl rfl)
    fun _ _ => drawn_of_figures_eq_nil rfl rfl

theorem drawing_listing (path url : Bytes) (r : ListingRequest) :
    (drawing s).Always (listing s path url r) := by
  refine Conduct.Always.bind (drawing_require _) fun source => ?_
  refine Conduct.Always.bind (drawing_ask fun _ => rfl) fun _ => ?_
  refine Conduct.Always.bind (drawing_require _) fun body => ?_
  exact Conduct.Always.bind (drawing_define _ _) fun _ => Conduct.always_pure _

theorem drawing_localListing (dir file : Bytes) (r : ListingRequest) :
    (drawing s).Always (localListing s dir file r) := by
  refine Conduct.Always.bind (drawing_require _) fun path => ?_
  exact Conduct.Always.bind drawing_projectCheckout fun checkout => drawing_listing path _ r

theorem drawing_repositoryListing (mnemonic file : Bytes) (r : ListingRequest) :
    (drawing s).Always (repositoryListing s mnemonic file r) := by
  rw [repositoryListing]
  split
  · exact drawing_throw_bind _ _
  · refine Conduct.Always.bind (drawing_ask fun _ => rfl) fun answer => ?_
    refine Conduct.Always.bind (drawing_require answer) fun snapshot => ?_
    refine Conduct.Always.bind (drawing_require _) fun path => ?_
    exact drawing_listing path _ r

theorem drawing_definition (type label body : Bytes) :
    (drawing s).Always (definition type label body) := by
  rw [definition]
  split
  · exact drawing_throw_bind _ _
  · refine Conduct.Always.bind (drawing_ask fun _ => rfl) fun title => ?_
    refine Conduct.Always.bind (drawing_modify fun d => rfl) fun _ => ?_
    refine Conduct.Always.bind (drawing_define _ _) fun number => ?_
    exact Conduct.Always.bind Conduct.always_get fun d => Conduct.always_pure _

theorem drawing_reference (label file : Bytes) (line : Nat) :
    (drawing s).Always (reference label file line) := by
  rw [reference]
  split
  · exact drawing_throw_bind _ _
  · refine Conduct.always_get_bind fun d => ?_
    refine Conduct.Holds.bind (Q := fun _ _ => True) ?_ fun _ d' _ _ _ => Conduct.always_pure _ d'
    exact Conduct.holds_set (drawn_of_figures_eq_nil rfl rfl) trivial

theorem drawing_metadata (key : Bytes) : (drawing s).Always (metadata s key) := by
  refine Conduct.always_metadata s key (fun _ _ _ _ => trivial) drawing_projectCheckout fun key => ?_
  exact Conduct.Always.bind (drawing_ask fun _ => rfl) fun answer => drawing_require answer

theorem drawing_declareMetadata (path text : Bytes) :
    (drawing s).Always (declareMetadata s path text) := by
  rw [declareMetadata]
  split
  · exact drawing_throw _
  · exact Conduct.always_pure _
  · exact drawing_ask fun _ => rfl

/-! ### Figures -/

variable {trace : List Exchange} {output : Bytes}

theorem resources_of_figure {dir label caption file attributes : Bytes}
    (h : (figure s dir label caption file attributes).Runs d trace (.ok (output, d'))) :
    figures trace = [] ∧ ∃ source shown, s.resolver.resolve s.tree dir file s.lang = .ok source ∧
      s.resolver.relative source = .ok shown ∧
      d'.resources = gather d.resources
        { source, target := resourceTarget shown, decompress := isCompressed shown } ∧
      output = bytes "![" ++ trim caption ++ "](" ++ resourceTarget shown ++ ")\x7b" ++
        (bytes "#fig:" ++ trim label ++
          if (trim attributes).isEmpty then [] else bytes " " ++ trim attributes) ++ "\x7d" := by
  rw [figure] at h
  obtain ⟨source, hsource, h⟩ := Pass.runs_require_bind_ok.1 h
  obtain ⟨shown, hshown, h⟩ := Pass.runs_require_bind_ok.1 h
  obtain ⟨number, d₁, first, rest, rfl, hdefine, h⟩ := Pass.runs_bind_ok.1 h
  have hnone : figures first = [] := by
    rw [figures, (runs_define hdefine).idle.1]
    rfl
  obtain ⟨⟨drawn, hdraws, hkept⟩, -⟩ :=
    drawing_define (s := s) _ _ d first _ hdefine fun _ _ => trivial
  rw [hnone] at hdraws
  cases hdraws
  have h := Pass.runs_modify_bind.1 h
  obtain ⟨rfl, hout⟩ := Pass.runs_pure.1 h
  cases hout
  refine ⟨by rwa [List.append_nil], source, shown, eq_ok_of_mapError hsource,
    eq_ok_of_mapError hshown, ?_, rfl⟩
  rw [gather, ← show d₁.resources = d.resources from hkept]
  split <;> rfl

variable {path : Bytes} {input : Bytes → Pass Bytes}

theorem drawing_perform (hinput : ∀ name, (drawing s).Always (input name)) (directive : Directive)
    (args : List Bytes) (line : Nat) :
    (drawing s).Always (perform s path input directive args line) := by
  intro d trace r hrun _
  rcases r with fault | ⟨output, d'⟩
  · trivial
  · obtain ⟨first, rfl, heffect⟩ := runs_perform hrun
    have hopening : Drawn s d [opening { path, line, directive, args, output }] d :=
      drawn_of_figures_eq_nil rfl rfl
    suffices h : Drawn s d (first ++ closing { path, line, directive, args, output }) d' by
      have hall := (drawing s).trans hopening h
      exact ⟨hall, trivial⟩
    have hother : directive ≠ .figure → (drawing s).Always (effect s path input directive args line) →
        Drawn s d (first ++ closing { path, line, directive, args, output }) d' := by
      intro hdirective halways
      obtain ⟨hdrawn, -⟩ := halways d first _ heffect fun _ _ => trivial
      refine (drawing s).trans hdrawn (drawn_of_figures_eq_nil ?_ rfl)
      simp [figures, performances_closing, hdirective]
    cases directive with
    | figure =>
      obtain ⟨hnone, source, shown, hsource, hshown, hresources, houtput⟩ := resources_of_figure heffect
      refine ⟨[{ source, target := resourceTarget shown, decompress := isCompressed shown }], ?_,
        hresources⟩
      rw [figures_append, hnone, List.nil_append]
      refine .cons ?_ .nil
      constructor
      case resolved => exact hsource
      case shown =>
        dsimp only
        exact ⟨shown, hshown, rfl, rfl⟩
      case output =>
        dsimp only
        exact houtput
    | input => exact hother nofun (hinput _)
    | code => exact hother nofun (drawing_localListing _ _ _)
    | relativeCode => exact hother nofun (drawing_localListing _ _ _)
    | gitCode => exact hother nofun (drawing_repositoryListing _ _ _)
    | definition => exact hother nofun (drawing_definition _ _ _)
    | reference => exact hother nofun (drawing_reference _ _ _)
    | metadata => exact hother nofun (drawing_metadata _)

end Steps

/-! ## Documents -/

section Documents

variable {s : Setting}

theorem drawing_expandText {chain : List Bytes} {path : Bytes} {depth : Nat}
    (hchild : ∀ child, s.Includes path child →
      (drawing s).Always (expandFile s chain child (depth + 1))) (text : Bytes) :
    (drawing s).Always (expandText s chain path depth 0 text) := by
  have hinput : ∀ name, (drawing s).Always
      (inclusionWith s chain path (expandFile s chain · (depth + 1)) name) := by
    intro name d
    refine Conduct.holds_require_mapError_bind (fun _ => trivial) fun child hresolved => ?_
    refine Conduct.Always.bind (drawing_ask fun _ => rfl) (fun _ => ?_) d
    refine Conduct.Always.bind (hchild child ⟨name, hresolved⟩) fun result => ?_
    exact Conduct.Always.bind (drawing_modify fun _ => rfl) fun _ => Conduct.always_pure _
  have htexts : (drawing s).Texts (fun _ _ _ => True) (fun _ => True)
      (perform s path (inclusionWith s chain path (expandFile s chain · (depth + 1)))) := by
    refine ⟨fun _ => trivial, fun _ _ => trivial, fun _ _ => trivial, ?_, fun _ _ => trivial⟩
    exact fun _ d directive args line _ => drawing_perform hinput directive args line d
  exact fun d => htexts.expand _ (Template.all_of_forall (fun _ => trivial) _) 0 [] d d trivial

/-- **Documents** remember what their figures show, and what those of the documents show that they
include. -/
theorem drawing_expandFile (chain : List Bytes) (path : Bytes) (depth : Nat) :
    (drawing s).Always (expandFile s chain path depth) := by
  refine expandFile_induction (motive := fun _ _ _ => (drawing s).Always) ?_ ?_ ?_ ?_ chain path depth
  · exact fun _ _ _ _ => drawing_throw _
  · exact fun _ _ _ _ => drawing_throw _
  · exact fun _ _ _ _ _ => drawing_throw _
  · intro chain path depth text _ hchild
    refine Conduct.Always.bind (drawing_ask fun _ => rfl) fun _ => ?_
    refine Conduct.Always.bind (drawing_declareMetadata _ _) fun _ => ?_
    refine Conduct.Always.bind Conduct.always_get fun outer => ?_
    refine Conduct.Always.bind (drawing_modify fun _ => rfl) fun _ => ?_
    refine Conduct.Always.bind (drawing_expandText hchild text) fun out => ?_
    refine Conduct.Always.bind Conduct.always_get fun inner => ?_
    refine Conduct.Always.bind (drawing_modify fun _ => rfl) fun _ => ?_
    exact Conduct.Always.bind (drawing_ask fun _ => rfl) fun _ => Conduct.always_pure _

end Documents

/-! ## Passes -/

section Passes

variable {s : Setting} {root : Bytes} {trace : List Exchange} {expanded : Expanded}

/-- **The resources of a pass** are those of its figures, the first for each target. -/
theorem resources_of_runs (h : (expand s root).Runs trace (.ok expanded)) :
    ∃ drawn, List.Forall₂ (Performance.Draws s) (figures trace) drawn ∧
      expanded.resources = drawn.foldl gather [] := by
  obtain ⟨first, r, event, hruns, rfl, hresult⟩ := runs_expand h
  have hmet := drawing_expandFile [] root 0 _ first r hruns fun _ _ => trivial
  rcases r with fault | ⟨⟨node, raw⟩, draft⟩
  · cases hresult
  · obtain ⟨⟨drawn, hdraws, hresources⟩, -⟩ := hmet
    refine ⟨drawn, ?_, ?_⟩
    · rw [figures_append]
      exact (List.append_nil (figures first)).symm ▸ hdraws
    · rw [resources_of_finish (eq_ok_of_mapError hresult.symm), hresources]

/-! ### Two figures with one target -/

theorem Performance.Draws.relative? {p : Performance} {r : Resource} (h : p.Draws s r) :
    ∃ shown, Path.relative? s.resolver.root r.source = some shown ∧
      Path.contains s.resolver.root r.source = true ∧ r.target = resourceTarget shown ∧
      r.decompress = isCompressed shown := by
  obtain ⟨shown, hshown, htarget, hdecompress⟩ := h.shown
  rw [Resolver.relative] at hshown
  split at hshown
  · next rel hrel =>
    split at hshown
    · next hinside =>
      obtain rfl := Except.ok.inj hshown
      exact ⟨rel, hrel, hinside, htarget, hdecompress⟩
    · cases hshown
  · cases hshown

theorem Performance.Draws.source_eq {p : Performance} {r : Resource} {source : Bytes} (h : p.Draws s r)
    (hresolved : s.resolver.resolve s.tree (Path.dir p.path) (p.arg 2) s.lang = .ok source) :
    r.source = source :=
  Except.ok.inj (h.resolved.symm.trans hresolved)

/-- What a figure remembers is told by the file that it shows. -/
theorem Performance.Draws.eq_of_source {p p' : Performance} {r r' : Resource} (h : p.Draws s r)
    (h' : p'.Draws s r') (hsource : r.source = r'.source) : r = r' := by
  obtain ⟨shown, hshown, htarget, hdecompress⟩ := h.shown
  obtain ⟨shown', hshown', htarget', hdecompress'⟩ := h'.shown
  rw [hsource] at hshown
  obtain rfl := Except.ok.inj (hshown.symm.trans hshown')
  cases r
  cases r'
  simp_all

variable (hroot : Path.isAbsolute s.resolver.root = true)

include hroot

theorem Performance.Draws.absolute {p : Performance} {r : Resource} (h : p.Draws s r) :
    Path.isAbsolute r.source = true := by
  obtain ⟨-, -, hinside, -⟩ := h.relative?
  exact Path.isAbsolute_of_contains hroot hinside

/-- Figures with one target show one file, unless one of them shows a compressed drawing. -/
theorem Performance.Draws.clean_eq_or {p p' : Performance} {r r' : Resource} (h : p.Draws s r)
    (h' : p'.Draws s r') (htarget : r.target = r'.target) :
    Path.clean r.source = Path.clean r'.source ∨ r.decompress = true ∨ r'.decompress = true := by
  obtain ⟨shown, hshown, hinside, hr, hdecompress⟩ := h.relative?
  obtain ⟨shown', hshown', hinside', hr', hdecompress'⟩ := h'.relative?
  rw [or_iff_not_imp_right, not_or, hdecompress, hdecompress']
  rintro ⟨hplain, hplain'⟩
  rw [hr, hr', resourceTarget, resourceTarget, if_neg hplain, if_neg hplain'] at htarget
  subst htarget
  rw [Path.clean_of_isAbsolute (h.absolute hroot), Path.clean_of_isAbsolute (h'.absolute hroot),
    Path.cleanComponents_eq_of_relative? hroot hshown hshown' hinside hinside']

theorem Performance.Draws.decompress_eq {p : Performance} {r : Resource} (h : p.Draws s r)
    (hbook : s.tree.find? (Path.cleanComponents s.resolver.root) = some .directory) :
    r.decompress = isCompressed r.source := by
  obtain ⟨shown, hshown, hinside, -, hdecompress⟩ := h.relative?
  have habs := h.absolute hroot
  have hisFile := (Resolver.resolve_cases h.resolved).1
  obtain ⟨-, ⟨⟨content, hfile⟩, -⟩, -⟩ := (FileTree.isFile_of_isAbsolute habs).1 hisFile
  have hbelow : Path.cleanComponents r.source ≠ Path.cleanComponents s.resolver.root := by
    intro heq
    rw [heq, hbook] at hfile
    cases hfile
  rw [hdecompress, isCompressed, isCompressed, ← Path.ext_of_relative? hroot hshown hinside hbelow,
    FileTree.ext_clean_of_isFile habs hisFile]

/-- A figure among those of a pass has a resource: its own, or the one of an earlier figure with the same
target, which shows the same file by another path, or another file of which there is one copy only. -/
structure Performance.Kept (s : Setting) (resources : List Resource) (earlier : List Performance)
    (own r : Resource) : Prop where
  mem : r ∈ resources
  target : r.target = own.target
  decompress : r.decompress = isCompressed r.source
  source : r = own ∨ r.source ≠ own.source ∧ (∃ f ∈ earlier, f.Draws s r) ∧
    (Path.clean r.source = Path.clean own.source ∨ isCompressed r.source ∨ isCompressed own.source)

/-- **Every figure has a resource**, with a target that no other resource has. -/
theorem kept_of_runs (hbook : s.tree.find? (Path.cleanComponents s.resolver.root) = some .directory)
    (h : (expand s root).Runs trace (.ok expanded)) :
    (expanded.resources.map (·.target)).Nodup ∧
      ∀ earlier q later, figures trace = earlier ++ q :: later →
        ∃ own r, q.Draws s own ∧ Performance.Kept s expanded.resources earlier own r := by
  obtain ⟨drawn, hdraws, hresources⟩ := resources_of_runs h
  rw [hresources]
  refine ⟨nodup_targets_gather (by simp) drawn, fun earlier q later hfigures => ?_⟩
  rw [hfigures] at hdraws
  obtain ⟨front, back, rfl, hfront, hback⟩ := Spotted.exists_rel_append hdraws
  obtain ⟨own, rest, hown, -, rfl⟩ := List.forall₂_cons_left_iff.1 hback
  obtain ⟨r, hr, htarget, hsame⟩ := exists_mem_gather front own rest
  refine ⟨own, r, hown, ?_⟩
  by_cases heq : r = own
  · exact ⟨hr, htarget, heq ▸ hown.decompress_eq hroot hbook, .inl heq⟩
  · obtain ⟨f, hf, hdraws⟩ := exists_of_mem_right hfront (hsame.resolve_left heq)
    have hsource : r.source ≠ own.source := fun hsource => heq (hdraws.eq_of_source hown hsource)
    have hclean := hdraws.clean_eq_or hroot hown htarget
    rw [hdraws.decompress_eq hroot hbook, hown.decompress_eq hroot hbook] at hclean
    exact ⟨hr, htarget, hdraws.decompress_eq hroot hbook, .inr ⟨hsource, ⟨f, hf, hdraws⟩, hclean⟩⟩

end Passes

end Bindery.Expansion
