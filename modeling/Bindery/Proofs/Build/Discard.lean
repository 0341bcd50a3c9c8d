import Bindery.Proofs.Build.Edition

/-!
# What a failed pass leaves behind

Writing an edition can break off before its directory is made, before its document or its label table is
written, and at each of its resources: `BreaksOff` has a constructor for each, and says which files there
are then. A pass for a language takes its directory back, so that the files are as they were before. The
pass without a language takes back the document and the label table only: what it copied of the resources
remains (`Remains`).
-/

namespace Bindery.Build

open FileTree (Within Grows)
open Text (bytes)

/-! ## Steps that break off -/

/-- Where a step leads from files such that `P`: if it succeeds, to a result and files such that `Q`,
and if it fails, to files such that `E`. -/
def Leads {α : Type} (P : FileTree → Prop) (x : Step α) (Q : α → FileTree → Prop)
    (E : FileTree → Prop) : Prop :=
  ∀ w, P w.tree →
    match x.run.run w with
    | (.ok a, w') => Q a w'.tree
    | (.error _, w') => E w'.tree

section Leads

variable {α β : Type} {P : FileTree → Prop} {Q : α → FileTree → Prop} {R : β → FileTree → Prop}
  {E : FileTree → Prop}

theorem leads_pure {a : α} (h : ∀ t, P t → Q a t) : Leads P (pure a) Q E := by
  intro w hw
  exact h w.tree hw

theorem leads_throw {fault : Fault} (h : ∀ t, P t → E t) : Leads P (throw fault : Step α) Q E := by
  intro w hw
  exact h w.tree hw

theorem Leads.bind {x : Step α} {f : α → Step β} (hx : Leads P x Q E)
    (hf : ∀ a, Leads (Q a) (f a) R E) : Leads P (x >>= f) R E := by
  intro w hw
  have hfirst := hx w hw
  cases hrun : x.run.run w with
  | mk r w' =>
    rw [hrun] at hfirst
    cases r with
    | error fault =>
      rw [run_bind_of_error hrun]
      exact hfirst
    | ok a =>
      rw [run_bind_of_ok hrun]
      exact hf a w' hfirst

theorem Leads.imp {Q' : α → FileTree → Prop} {E' : FileTree → Prop} {x : Step α}
    (h : Leads P x Q E) (hQ : ∀ a t, Q a t → Q' a t) (hE : ∀ t, E t → E' t) : Leads P x Q' E' := by
  intro w hw
  have hrun := h w hw
  cases hx : x.run.run w with
  | mk r w' =>
    rw [hx] at hrun
    cases r with
    | error fault => exact hE w'.tree hrun
    | ok a => exact hQ a w'.tree hrun

theorem leads_of_forall {x : Step α} (h : ∀ t, P t → Leads (· = t) x Q E) : Leads P x Q E :=
  fun w hw => h w.tree hw w rfl

theorem leads_get : Leads P get (fun w t => P t ∧ w.tree = t) E := by
  intro w hw
  exact ⟨hw, rfl⟩

theorem leads_require {result : Except Fault α} (hok : ∀ a t, result = .ok a → P t → Q a t)
    (herror : ∀ t, P t → E t) : Leads P (require result) Q E := by
  intro w hw
  cases hresult : result with
  | ok a => exact hok a w.tree hresult hw
  | error fault => exact herror w.tree hw

theorem leads_changeFiles {change : FileTree → Except Fault FileTree}
    {Q : FileTree → Prop} (hok : ∀ t t', change t = .ok t' → P t → Q t')
    (herror : ∀ t, P t → E t) : Leads P (changeFiles change) (fun _ => Q) E := by
  intro w hw
  cases hchange : change w.tree with
  | ok tree =>
    rw [run_changeFiles_of_ok hchange]
    exact hok w.tree tree hchange hw
  | error fault =>
    rw [run_changeFiles_of_error hchange]
    exact herror w.tree hw

theorem leads_consult {fetch : Repository.Fetcher} {lang : Bytes}
    {script : Expansion.Script (Except Fault α)} (herror : ∀ t, P t → E t) :
    Leads P (consult fetch lang script)
      (fun a t => P t ∧ ∃ services, (script.run fetch lang services).1 = .ok a) E := by
  intro w hw
  have hrun : (consult fetch lang script).run.run w = _ := run_ask fetch lang script w
  rw [hrun]
  cases hscript : (script.run fetch lang w.services).1 with
  | error fault => exact herror w.tree hw
  | ok a => exact ⟨hw, w.services, hscript⟩

theorem leads_lift {x : Effect α} (h : ∀ w, (x.run w).2.tree = w.tree) :
    Leads P (liftM x : Step α) (fun _ => P) E := by
  intro w hw
  have hrun : (liftM x : Step α).run.run w = (.ok (x.run w).1, (x.run w).2) :=
    Effect.run_bind x _ w
  rw [hrun]
  change P (x.run w).2.tree
  rwa [h w]

end Leads

/-! ## Where an edition breaks off -/

/-- A resource is copied into a directory. -/
def Copies (dir : Bytes) (r : Expansion.Resource) (t t' : FileTree) : Prop :=
  ∃ t₁ content, t.makeDirectory (Path.dir (Path.join [dir, r.target])) = .ok t₁ ∧
    t₁.write (Path.join [dir, r.target]) content = .ok t'

/-- The copy of a resource is begun: at most its directory is made, and a part of it is written. -/
def BeginsCopy (dir : Bytes) (r : Expansion.Resource) (t t' : FileTree) : Prop :=
  t' = t ∨ t.makeDirectory (Path.dir (Path.join [dir, r.target])) = .ok t' ∨ Copies dir r t t'

/-- Resources are copied one after the other. -/
inductive CopiesAll (dir : Bytes) : List Expansion.Resource → FileTree → FileTree → Prop where
  | nil (t : FileTree) : CopiesAll dir [] t t
  | cons {r : Expansion.Resource} {rs : List Expansion.Resource} {t t₁ t' : FileTree}
      (first : Copies dir r t t₁) (others : CopiesAll dir rs t₁ t') : CopiesAll dir (r :: rs) t t'

/-- The files when the edition of a language breaks off, by where it does. -/
inductive BreaksOff (s : Session) (o : Surroundings) (dir : Bytes) (d : Descriptor) (t : FileTree) :
    FileTree → Prop where
  | unmade : BreaksOff s o dir d t t
  | document {t₁ : FileTree} (made : t.makeDirectory dir = .ok t₁) : BreaksOff s o dir d t t₁
  | labels {t₁ t₂ : FileTree} {text : Bytes} (made : t.makeDirectory dir = .ok t₁)
      (document : t₁.write (Path.join [dir, s.name ++ ".md"]) text = .ok t₂) :
      BreaksOff s o dir d t t₂
  | resource {t₁ t₂ t₃ t₄ t₅ : FileTree} {table root : Bytes} {services : Expansion.Services}
      {result : Expansion.Expanded} {whole after : List Expansion.Resource} {r : Expansion.Resource}
      (made : t.makeDirectory dir = .ok t₁)
      (expanded : ((Expansion.expand (s.setting o t d) root).run (s.fetcher o) d.id services).1 =
        .ok result)
      (document : t₁.write (Path.join [dir, s.name ++ ".md"]) result.text = .ok t₂)
      (labels : t₂.write (Path.join [dir, labelsFile]) table = .ok t₃)
      (resources : result.resources = whole ++ r :: after)
      (copied : CopiesAll dir whole t₃ t₄) (begun : BeginsCopy dir r t₄ t₅) :
      BreaksOff s o dir d t t₅

section BreaksOff

variable {s : Session} {o : Surroundings} {context : LogContext} {out dir : Bytes} {d : Descriptor}
  {t : FileTree}

theorem leads_copyResource (dir : Bytes) (r : Expansion.Resource) (t : FileTree) :
    Leads (· = t) (copyResource dir r) (fun _ => Copies dir r t) (BeginsCopy dir r t) := by
  let Made (t₁ : FileTree) : Prop :=
    t.makeDirectory (Path.dir (Path.join [dir, r.target])) = .ok t₁
  unfold copyResource
  refine Leads.bind (Q := fun _ => Made) (leads_changeFiles ?_ ?_) fun _ => ?_
  · intro t' t₁ hmade ht
    obtain rfl : t' = t := ht
    exact eq_ok_of_mapError hmade
  · intro t' ht
    exact .inl ht
  have hbegun : ∀ t₁, Made t₁ → BeginsCopy dir r t t₁ := fun t₁ hmade => .inr (.inl hmade)
  refine Leads.bind leads_get fun w => ?_
  refine Leads.bind (Q := fun _ => Made) (leads_require ?_ ?_) fun source => ?_
  · exact fun _ _ _ h => h.1
  · exact fun t₁ h => hbegun t₁ h.1
  refine Leads.bind (Q := fun _ => Made) (leads_require ?_ hbegun) fun content => ?_
  · exact fun _ _ _ h => h
  refine Leads.bind (Q := fun _ => Copies dir r t) (leads_changeFiles ?_ hbegun) fun _ => ?_
  · intro t₁ t₂ hwritten hmade
    exact ⟨t₁, content.bytes, hmade, eq_ok_of_mapError hwritten⟩
  split
  · exact leads_throw fun t₂ h => .inr (.inr h)
  · exact leads_pure fun t₂ h => h

theorem leads_copyAll (dir : Bytes) (rs : List Expansion.Resource) (t : FileTree) :
    Leads (· = t) (rs.forM (copyResource dir)) (fun _ => CopiesAll dir rs t)
      fun t' => ∃ whole r after t₁, rs = whole ++ r :: after ∧ CopiesAll dir whole t t₁ ∧
        BeginsCopy dir r t₁ t' := by
  induction rs generalizing t with
  | nil =>
    refine leads_pure fun t' ht => ?_
    subst ht
    exact .nil t'
  | cons r rs ih =>
    refine Leads.bind ((leads_copyResource dir r t).imp (fun _ _ h => h) ?_) fun _ => ?_
    · intro t' hbegun
      exact ⟨[], r, rs, t, rfl, .nil t, hbegun⟩
    · refine leads_of_forall fun t₁ hfirst => (ih t₁).imp ?_ ?_
      · intro _ t' hothers
        exact .cons hfirst hothers
      · rintro t' ⟨whole, r', after, t₂, rfl, hwhole, hbegun⟩
        exact ⟨r :: whole, r', after, t₂, rfl, .cons hfirst hwhole, hbegun⟩

theorem leads_writeEdition (s : Session) (o : Surroundings) (context : LogContext) (out : Bytes)
    (d : Descriptor) (t : FileTree) :
    Leads (· = t) (writeEdition s o context out d) (fun _ _ => True)
      (BreaksOff s o (directory out d.id) d t) := by
  let dir := directory out d.id
  unfold writeEdition
  refine Leads.bind leads_get fun w => ?_
  refine Leads.bind (Q := fun _ t' => t' = t ∧ w.tree = t) (leads_require ?_ ?_) fun root => ?_
  · exact fun _ _ _ h => ⟨h.1, h.2.trans h.1⟩
  · rintro t' ⟨rfl, -⟩
    exact .unmade
  refine Leads.bind (leads_consult ?_) fun result => ?_
  · rintro t' ⟨rfl, -⟩
    exact .unmade
  -- From here on, the files that the expansion was given are those that the pass found.
  refine leads_of_forall ?_
  rintro t' ⟨⟨rfl, htree⟩, services, hexpanded⟩
  rw [htree] at hexpanded
  refine Leads.bind (Q := fun _ t₁ => t'.makeDirectory dir = .ok t₁)
    (leads_changeFiles ?_ ?_) fun _ => ?_
  · rintro _ t₁ hmade rfl
    exact eq_ok_of_mapError hmade
  · rintro _ rfl
    exact .unmade
  refine leads_of_forall fun t₁ hmade => ?_
  refine Leads.bind (Q := fun _ t₂ => t₁.write (Path.join [dir, s.name ++ ".md"]) result.text = .ok t₂)
    (leads_changeFiles ?_ ?_) fun _ => ?_
  · rintro _ t₂ hdocument rfl
    exact eq_ok_of_mapError hdocument
  · rintro _ rfl
    exact .document hmade
  refine leads_of_forall fun t₂ hdocument => ?_
  refine Leads.bind
    (Q := fun _ t₃ => t₂.write (Path.join [dir, labelsFile]) (labelsText result.labels) = .ok t₃)
    (leads_changeFiles ?_ ?_) fun _ => ?_
  · rintro _ t₃ hlabels rfl
    exact eq_ok_of_mapError hlabels
  · rintro _ rfl
    exact .labels hmade hdocument
  refine leads_of_forall fun t₃ hlabels => ?_
  refine Leads.bind ((leads_copyAll dir result.resources t₃).imp (fun _ _ h => h) ?_) fun _ => ?_
  · rintro t₅ ⟨whole, r, after, t₄, hresources, hcopied, hbegun⟩
    exact .resource hmade hexpanded hdocument hlabels hresources hcopied hbegun
  refine Leads.bind (leads_lift (tree_warnOfLinks _ _ _)) fun _ => ?_
  exact leads_pure fun _ _ => trivial

/-- **A failed pass** took back what there was where its edition broke off. -/
theorem exists_breaksOff {w w' : World} {fault : Fault}
    (h : (pass s o context out d).run w = (.error fault, w')) :
    ∃ w₁, BreaksOff s o (directory out d.id) d w.tree w₁.tree ∧
      w'.tree =
        ((discarded s out d).foldl (discard { context with lang := d.id }) w₁).tree := by
  have hleads := leads_writeEdition s o { context with lang := d.id } out d w.tree w rfl
  cases hwrite : (writeEdition s o { context with lang := d.id } out d).run.run w with
  | mk r w₁ =>
    rw [hwrite] at hleads
    rw [pass, Effect.run_bind, hwrite] at h
    cases r with
    | ok edition => cases h
    | error _ => exact ⟨w₁, hleads, (congrArg (fun x => x.2.tree) h).symm⟩

end BreaksOff

/-! ## What copying changes -/

section Copying

variable {dir : Bytes} {r : Expansion.Resource} {rs : List Expansion.Resource} {t t' : FileTree}
  {p : List Bytes}

/-- Where the copy of a resource lies. -/
def landing (dir : Bytes) (r : Expansion.Resource) : List Bytes :=
  Path.cleanComponents (Path.join [dir, r.target])

/-- Files change at one place; on the way to it, directories are made where nothing was. -/
structure Lands (place : List Bytes) (t t' : FileTree) : Prop where
  elsewhere : ∀ p, ¬ p <+: place → t'.find? p = t.find? p
  files : ∀ p content, t.find? p = some (.file content) → ∃ content', t'.find? p = some (.file content')

theorem Lands.refl (place : List Bytes) (t : FileTree) : Lands place t t :=
  ⟨fun _ _ => rfl, fun _ content h => ⟨content, h⟩⟩

theorem Lands.trans {place : List Bytes} {t'' : FileTree} (h : Lands place t t')
    (h' : Lands place t' t'') : Lands place t t'' := by
  refine ⟨fun p hp => (h'.elsewhere p hp).trans (h.elsewhere p hp), fun p content hp => ?_⟩
  obtain ⟨content', hp'⟩ := h.files p content hp
  exact h'.files p content' hp'

theorem lands_of_makeDirectory {path : Bytes} {place : List Bytes} (h : t.makeDirectory path = .ok t')
    (hplace : t.components path <+: place) : Lands place t t' := by
  refine ⟨fun p hp => ?_, fun p content hp => ⟨content, FileTree.find?_of_makeDirectory h hp⟩⟩
  rcases FileTree.find?_makeDirectory h p with heq | ⟨hway, -⟩
  · exact heq
  · exact absurd (hway.trans hplace) hp

theorem find?_write {path content : Bytes} (h : t.write path content = .ok t')
    (hp : p ≠ t.components path) : t'.find? p = t.find? p := by
  obtain ⟨rfl, -⟩ := FileTree.write_eq_ok h
  by_cases hnil : p = []
  · rw [hnil]
    rfl
  · rw [FileTree.find?_put _ _ _ hnil, if_neg hp]

theorem find?_of_write {path content : Bytes} (h : t.write path content = .ok t') :
    t'.find? (t.components path) = some (.file content) := by
  obtain ⟨rfl, hfile⟩ := FileTree.write_eq_ok h
  have hnil : t.components path ≠ [] := by
    intro hnil
    rw [hnil] at hfile
    exact hfile rfl
  rw [FileTree.find?_put _ _ _ hnil, if_pos rfl]

theorem lands_of_write {path content : Bytes} (h : t.write path content = .ok t') :
    Lands (t.components path) t t' := by
  refine ⟨fun p hp => find?_write h fun heq => hp (heq ▸ List.prefix_rfl), fun p content' hp => ?_⟩
  by_cases heq : p = t.components path
  · exact ⟨content, heq ▸ find?_of_write h⟩
  · exact ⟨content', (find?_write h heq).trans hp⟩

variable (hdir : Path.isAbsolute dir = true)

include hdir

theorem prefix_landing (r : Expansion.Resource) (t : FileTree) :
    t.components (Path.dir (Path.join [dir, r.target])) <+: landing dir r := by
  have hcanonical := Path.canonical_join hdir r.target
  rw [FileTree.components_of_isAbsolute t (Path.isAbsolute_dir hcanonical),
    Path.cleanComponents_dir hcanonical]
  exact List.dropLast_prefix _

theorem components_landing (r : Expansion.Resource) (t : FileTree) :
    t.components (Path.join [dir, r.target]) = landing dir r :=
  FileTree.components_of_isAbsolute t (Path.isAbsolute_join hdir)

theorem Copies.lands (h : Copies dir r t t') : Lands (landing dir r) t t' := by
  obtain ⟨t₁, content, hmade, hwritten⟩ := h
  have hwrite := lands_of_write hwritten
  rw [components_landing hdir] at hwrite
  exact (lands_of_makeDirectory hmade (prefix_landing hdir r t)).trans hwrite

theorem Copies.file (h : Copies dir r t t') :
    ∃ content, t'.find? (landing dir r) = some (.file content) := by
  obtain ⟨t₁, content, -, hwritten⟩ := h
  have hfile := find?_of_write hwritten
  rw [components_landing hdir] at hfile
  exact ⟨content, hfile⟩

theorem BeginsCopy.lands (h : BeginsCopy dir r t t') : Lands (landing dir r) t t' := by
  rcases h with rfl | hmade | hcopied
  · exact .refl _ _
  · exact lands_of_makeDirectory hmade (prefix_landing hdir r t)
  · exact hcopied.lands hdir

theorem CopiesAll.elsewhere (h : CopiesAll dir rs t t') (hp : ∀ r ∈ rs, ¬ p <+: landing dir r) :
    t'.find? p = t.find? p := by
  induction h with
  | nil t => rfl
  | cons first others ih =>
    obtain ⟨hr, hrs⟩ := List.forall_mem_cons.1 hp
    exact (ih hrs).trans ((first.lands hdir).elsewhere p hr)

theorem CopiesAll.files (h : CopiesAll dir rs t t') {content : Bytes}
    (hp : t.find? p = some (.file content)) : ∃ content', t'.find? p = some (.file content') := by
  induction h generalizing content with
  | nil t => exact ⟨content, hp⟩
  | cons first others ih =>
    obtain ⟨content', hp'⟩ := (first.lands hdir).files p content hp
    exact ih hp'

theorem CopiesAll.file (h : CopiesAll dir rs t t') (hr : r ∈ rs) :
    ∃ content, t'.find? (landing dir r) = some (.file content) := by
  induction h with
  | nil t => cases hr
  | cons first others ih =>
    rcases List.mem_cons.1 hr with rfl | hr
    · obtain ⟨content, hfile⟩ := first.file hdir
      exact others.files hdir hfile
    · exact ih hr

/-! Copies lead down from the directory, so the files grow there. -/

theorem grows_of_parent {t₁ : FileTree} (hr : Path.Descends r.target)
    (h : t.makeDirectory (Path.dir (Path.join [dir, r.target])) = .ok t₁) :
    Grows (Path.cleanComponents dir) t t₁ :=
  FileTree.grows_of_makeDirectory h
    (List.prefix_or_prefix_of_prefix (prefix_landing hdir r t) (hr.prefix_join hdir))

theorem Copies.grows (h : Copies dir r t t') (hr : Path.Descends r.target) :
    Grows (Path.cleanComponents dir) t t' := by
  obtain ⟨t₁, content, hmade, hwritten⟩ := h
  refine (grows_of_parent hdir hr hmade).trans (FileTree.grows_of_write hwritten ?_)
  rw [components_landing hdir]
  exact hr.prefix_join hdir

theorem BeginsCopy.grows (h : BeginsCopy dir r t t') (hr : Path.Descends r.target) :
    Grows (Path.cleanComponents dir) t t' := by
  rcases h with rfl | hmade | hcopied
  · exact .refl _ _
  · exact grows_of_parent hdir hr hmade
  · exact hcopied.grows hdir hr

theorem CopiesAll.grows (h : CopiesAll dir rs t t') (hrs : ∀ r ∈ rs, Path.Descends r.target) :
    Grows (Path.cleanComponents dir) t t' := by
  induction h with
  | nil t => exact .refl _ _
  | cons first others ih =>
    obtain ⟨hr, hrs⟩ := List.forall_mem_cons.1 hrs
    exact (first.grows hdir hr).trans (ih hrs)

end Copying

/-! ## Taking back -/

section Taking

variable {context : LogContext} {path : Bytes} {w : World} {parent : List Bytes} {p : List Bytes}

theorem find?_discard_of_none (context : LogContext) (hnone : ∀ p, w.tree.components path <+: p →
    p ≠ [] → w.tree.find? p = none) (p : List Bytes) :
    (discard context w path).tree.find? p = w.tree.find? p := by
  rcases tree_discard context w path with htree | htree
  · rw [htree]
  · rw [htree]
    by_cases hnil : p = []
    · rw [hnil]
      rfl
    · rw [FileTree.find?_remove _ _ hnil]
      split
      · next hway => exact (hnone p hway hnil).symm
      · rfl

/-- What can be reached is taken back. -/
theorem find?_discard (context : LogContext) (hnul : path.contains 0 = false)
    (hparent : w.tree.descend [] parent = .ok .directory) {name : List Bytes}
    (hpath : w.tree.components path = parent ++ name) (hname : name.length ≤ 1) (hp : p ≠ []) :
    (discard context w path).tree.find? p =
      if w.tree.components path <+: p then none else w.tree.find? p := by
  have hstat : (∃ e, w.tree.stat path = .ok e) ∨ w.tree.stat path = .error .missingFile := by
    rw [FileTree.stat, if_neg (by simpa using hnul), hpath, FileTree.descend_append hparent,
      List.nil_append]
    have hdirectory : w.tree.find? parent = some .directory := FileTree.find?_of_descend hparent
    cases name with
    | nil =>
      rw [FileTree.descend, hdirectory]
      exact .inl ⟨_, rfl⟩
    | cons c more =>
      obtain rfl : more = [] := List.eq_nil_of_length_eq_zero (by simpa using hname)
      simp only [FileTree.descend, hdirectory]
      cases w.tree.find? (parent ++ [c]) with
      | none => exact .inr rfl
      | some e => exact .inl ⟨e, rfl⟩
  have hremoved : w.tree.removeAll path = .ok (w.tree.remove path) := by
    rw [FileTree.removeAll]
    rcases hstat with ⟨e, he⟩ | hmissing
    · rw [he]
    · rw [hmissing]
  rw [discard, hremoved]
  exact FileTree.find?_remove _ _ hp

end Taking

/-! ## Failed passes -/

section Failed

variable {s : Session} {o : Surroundings} {context : LogContext} {out : Bytes} {d : Descriptor}
  {t t' : FileTree} {w w' : World} {fault : Fault} {p : List Bytes}

theorem descend_of_makeDirectory {path : Bytes} (h : t.makeDirectory path = .ok t') :
    path.contains 0 = false ∧ t'.descend [] (t.components path) = .ok .directory := by
  unfold FileTree.makeDirectory at h
  split at h
  · cases h
  · next hnul => exact ⟨by simpa using hnul, FileTree.descend_of_makeFrom h rfl⟩

theorem proper_document (hname : 47 ∉ s.name) : Path.Proper (s.name ++ ".md") :=
  Path.proper_append hname (by decide) (by decide)

theorem proper_labelsFile : Path.Proper labelsFile := ⟨by decide, by decide, by decide, by decide⟩

theorem components_child {dir name : Bytes} (hdir : Path.isAbsolute dir = true)
    (hname : Path.Proper name) (t : FileTree) :
    t.components (Path.join [dir, name]) = Path.cleanComponents dir ++ [name] := by
  rw [FileTree.components_of_isAbsolute t (Path.isAbsolute_join hdir),
    Path.cleanComponents_join_name hdir hname]

theorem grows_child {dir name content : Bytes} (hdir : Path.isAbsolute dir = true)
    (hname : Path.Proper name) (h : t.write (Path.join [dir, name]) content = .ok t') :
    Grows (Path.cleanComponents dir) t t' := by
  refine FileTree.grows_of_write h ?_
  rw [components_child hdir hname]
  exact List.prefix_append _ _

theorem find?_of_way {place : List Bytes} (h : t.descend [] place = .ok .directory)
    (hp : p <+: place) : t.find? p = some .directory := by
  by_cases heq : p = place
  · rw [heq]
    exact FileTree.find?_of_descend h
  · exact FileTree.find?_of_isPrefix h hp heq

/-- Once the directory of a language is made, it stays, and files change in it only. -/
theorem BreaksOff.grows {dir : Bytes} (h : BreaksOff s o dir d t t') (hdir : Path.isAbsolute dir = true)
    (hroot : Path.isAbsolute s.resolver.root = true) (hname : 47 ∉ s.name) :
    t' = t ∨ dir.contains 0 = false ∧ Grows (Path.cleanComponents dir) t t' ∧
      t'.descend [] (Path.cleanComponents dir) = .ok .directory := by
  have hmade : ∀ {t₁}, t.makeDirectory dir = .ok t₁ → Grows (Path.cleanComponents dir) t₁ t' →
      dir.contains 0 = false ∧ Grows (Path.cleanComponents dir) t t' ∧
        t'.descend [] (Path.cleanComponents dir) = .ok .directory := by
    intro t₁ hmake hgrows
    obtain ⟨hnul, hdirectory⟩ := descend_of_makeDirectory hmake
    rw [FileTree.components_of_isAbsolute t hdir] at hdirectory
    have hplace : t.components dir <+: Path.cleanComponents dir :=
      FileTree.components_of_isAbsolute t hdir ▸ List.prefix_rfl
    exact ⟨hnul, (FileTree.grows_of_makeDirectory hmake (.inl hplace)).trans hgrows,
      (hgrows.beneath hdirectory).1⟩
  cases h with
  | unmade => exact .inl rfl
  | document made => exact .inr (hmade made (.refl _ _))
  | labels made document => exact .inr (hmade made (grows_child hdir (proper_document hname) document))
  | resource made expanded document labels resources copied begun =>
    have hdescends := descends_of_expand hroot
      (expanded ▸ Expansion.Script.runs_run (s.fetcher o) d.id _ _)
    rw [resources, List.forall_mem_append, List.forall_mem_cons] at hdescends
    obtain ⟨hwhole, hr, -⟩ := hdescends
    have hdocument := grows_child hdir (proper_document hname) document
    have hlabels := grows_child hdir proper_labelsFile labels
    have hcopied := (copied.grows hdir hwhole).trans (begun.grows hdir hr)
    exact .inr (hmade made (hdocument.trans (hlabels.trans hcopied)))

/-- **The pass for a language takes everything back**, if there was nothing in the directory of the
language before. -/
theorem find?_failed_language (hroot : Path.isAbsolute s.resolver.root = true) (hname : 47 ∉ s.name)
    (hout : Path.isAbsolute out = true) (hplain : IsPlainName d.id) (hid : d.id ≠ [])
    (hdirectory : w.tree.descend [] (Path.cleanComponents out) = .ok .directory)
    (hfree : ∀ p, Path.cleanComponents out ++ [d.id] <+: p → w.tree.find? p = none)
    (h : (pass s o context out d).run w = (.error fault, w')) (p : List Bytes) :
    w'.tree.find? p = w.tree.find? p := by
  have hdir : Path.isAbsolute (directory out d.id) = true := Path.isAbsolute_join hout
  have hplace := cleanComponents_directory hout hplain hid
  obtain ⟨w₁, hbreaks, htree⟩ := exists_breaksOff h
  rw [htree, discarded, if_neg (by simpa using hid), List.foldl_cons, List.foldl_nil]
  have hcomponents : w₁.tree.components (directory out d.id) = Path.cleanComponents out ++ [d.id] :=
    hplace ▸ FileTree.components_of_isAbsolute w₁.tree hdir
  rcases hbreaks.grows hdir hroot hname with hsame | ⟨hnul, hgrows, hreached⟩
  · rw [find?_discard_of_none, hsame]
    intro q hq _
    rw [hcomponents] at hq
    exact hsame ▸ hfree q hq
  · rw [hplace] at hgrows hreached
    by_cases hnil : p = []
    · rw [hnil]
      rfl
    · rw [find?_discard _ hnul hreached (hcomponents.trans (List.append_nil _).symm) (by simp) hnil,
        hcomponents]
      split
      · next hbelow => exact (hfree p hbelow).symm
      · next hbeside =>
        rcases hgrows.outside p hbeside with heq | ⟨hway, hnone, -⟩
        · exact heq
        · -- The way to the directory of the language is the output directory, which was there.
          have hproper : p ≠ Path.cleanComponents out ++ [d.id] := by
            rintro rfl
            exact hbeside List.prefix_rfl
          have hupper : p <+: Path.cleanComponents out :=
            (List.prefix_concat_iff.1 hway).resolve_left hproper
          rw [find?_of_way hdirectory hupper] at hnone
          cases hnone

/-- What the pass without a language leaves behind in its directory when the copying of a resource fails
after others were copied: nothing of the document and the label table, but the copies, unless they lie
where these did. -/
structure Remains (s : Session) (dir : Bytes) (whole : List Expansion.Resource)
    (r : Expansion.Resource) (t t' : FileTree) : Prop where
  back : ∀ p, Path.cleanComponents dir ++ [s.name ++ ".md"] <+: p ∨
    Path.cleanComponents dir ++ [labelsFile] <+: p → t'.find? p = t.find? p
  only : ∀ p, t'.find? p ≠ t.find? p → Path.cleanComponents dir <+: p ∧
    ∃ r' ∈ whole ++ [r], p <+: landing dir r'
  kept : ∀ r' ∈ whole, ¬ Path.cleanComponents dir ++ [s.name ++ ".md"] <+: landing dir r' →
    ¬ Path.cleanComponents dir ++ [labelsFile] <+: landing dir r' →
      ∃ content, t'.find? (landing dir r') = some (.file content)

section Child

variable {dir : Bytes} (hdir : Path.isAbsolute dir = true)
  (hdirectory : w.tree.descend [] (Path.cleanComponents dir) = .ok .directory)

include hdir hdirectory

/-- What there is once a path of a directory was taken back. -/
theorem find?_discard_child {name : Bytes} (hname : Path.Proper name)
    (hnul : (Path.join [dir, name]).contains 0 = false) (p : List Bytes) :
    (discard context w (Path.join [dir, name])).tree.find? p =
      if Path.cleanComponents dir ++ [name] <+: p then none else w.tree.find? p := by
  have hcomponents := components_child hdir hname w.tree
  by_cases hnil : p = []
  · rw [hnil, if_neg (by simp)]
    rfl
  · rw [find?_discard context hnul hdirectory hcomponents (by simp) hnil, hcomponents]

theorem descend_discard_child {name : Bytes} (hname : Path.Proper name) :
    (discard context w (Path.join [dir, name])).tree.descend [] (Path.cleanComponents dir) =
      .ok .directory := by
  have hchild := Path.cleanComponents_join_name hdir hname
  have hgrows : Grows (Path.cleanComponents dir) w.tree
      (discard context w (Path.join [dir, name])).tree := by
    refine grows_discard (Path.isAbsolute_join hdir) ?_ ?_ context w
    · rw [hchild]
      exact List.prefix_append _ _
    · rw [hchild]
      simp
  exact (hgrows.beneath hdirectory).1

end Child

/-! ### The pass without a language -/

section Unnamed

variable {dir : Bytes} {c : LogContext} (hdir : Path.isAbsolute dir = true) (hname : 47 ∉ s.name)
  (hempty : ∀ p, Path.cleanComponents dir <+: p → p ≠ Path.cleanComponents dir → t.find? p = none)

include hempty in
theorem find?_child (name : Bytes) (hp : Path.cleanComponents dir ++ [name] <+: p) :
    t.find? p = none := by
  refine hempty p ((List.prefix_append _ _).trans hp) ?_
  rintro rfl
  have hlength := hp.length_le
  rw [List.length_append, List.length_singleton] at hlength
  omega

include hdir

include hempty in
/-- What was not there is not taken back. -/
theorem find?_discard_absent {name : Bytes} (hproper : Path.Proper name)
    (hsame : ∀ p, w.tree.find? p = t.find? p) (p : List Bytes) :
    (discard c w (Path.join [dir, name])).tree.find? p = t.find? p := by
  rw [find?_discard_of_none, hsame]
  intro q hq _
  rw [components_child hdir hproper] at hq
  rw [hsame, find?_child hempty name hq]

theorem find?_of_made {t₁ : FileTree}
    (hdirectory : t.descend [] (Path.cleanComponents dir) = .ok .directory)
    (hmade : t.makeDirectory dir = .ok t₁) (p : List Bytes) : t₁.find? p = t.find? p := by
  rcases FileTree.find?_makeDirectory hmade p with heq | ⟨hway, hnone, -⟩
  · exact heq
  · rw [FileTree.components_of_isAbsolute _ hdir] at hway
    rw [find?_of_way hdirectory hway] at hnone
    cases hnone

theorem find?_write_child {name content : Bytes} {t₁ : FileTree} (hproper : Path.Proper name)
    (h : t₁.write (Path.join [dir, name]) content = .ok t')
    (hp : ¬ Path.cleanComponents dir ++ [name] <+: p) : t'.find? p = t₁.find? p := by
  refine find?_write h ?_
  rw [components_child hdir hproper]
  rintro rfl
  exact hp List.prefix_rfl

include hname hempty

/-- What remains if the copying of a resource fails. -/
theorem remains_of_resource {t₁ t₂ t₃ t₄ : FileTree} {text table : Bytes}
    {whole : List Expansion.Resource} {r : Expansion.Resource}
    (hdirectory : t.descend [] (Path.cleanComponents dir) = .ok .directory)
    (hreached : w.tree.descend [] (Path.cleanComponents dir) = .ok .directory)
    (hmade : t.makeDirectory dir = .ok t₁)
    (hdocument : t₁.write (Path.join [dir, s.name ++ ".md"]) text = .ok t₂)
    (hlabels : t₂.write (Path.join [dir, labelsFile]) table = .ok t₃)
    (hcopied : CopiesAll dir whole t₃ t₄) (hbegun : BeginsCopy dir r t₄ w.tree)
    (hinside : ∀ p, ¬ Path.cleanComponents dir <+: p →
      (discard c (discard c w (Path.join [dir, s.name ++ ".md"]))
        (Path.join [dir, labelsFile])).tree.find? p = t.find? p) :
    Remains s dir whole r t (discard c (discard c w (Path.join [dir, s.name ++ ".md"]))
      (Path.join [dir, labelsFile])).tree := by
  have hproper := proper_document hname
  have htaken : ∀ p, (discard c (discard c w (Path.join [dir, s.name ++ ".md"]))
      (Path.join [dir, labelsFile])).tree.find? p =
        if Path.cleanComponents dir ++ [labelsFile] <+: p then none
        else if Path.cleanComponents dir ++ [s.name ++ ".md"] <+: p then none
        else w.tree.find? p := by
    intro p
    rw [find?_discard_child hdir (descend_discard_child hdir hreached hproper) proper_labelsFile
      (FileTree.parent_of_write hlabels).1,
      find?_discard_child hdir hreached hproper (FileTree.parent_of_write hdocument).1]
  generalize (discard c (discard c w (Path.join [dir, s.name ++ ".md"]))
    (Path.join [dir, labelsFile])).tree = t' at *
  have hback : ∀ p, Path.cleanComponents dir ++ [s.name ++ ".md"] <+: p ∨
      Path.cleanComponents dir ++ [labelsFile] <+: p → t'.find? p = t.find? p := by
    intro p hp
    rw [htaken]
    rcases hp with hp | hp
    · rw [if_pos hp, ite_self, find?_child hempty _ hp]
    · rw [if_pos hp, find?_child hempty _ hp]
  refine ⟨hback, fun p hchanged => ⟨?_, ?_⟩, fun r' hr' hbeside hbeside' => ?_⟩
  · by_contra houtside
    exact hchanged (hinside p houtside)
  · -- What is on the way to no copy is as the document and the label table left it.
    by_contra hno
    have hno' : ∀ r' ∈ whole ++ [r], ¬ p <+: landing dir r' := fun r' hr' hp => hno ⟨r', hr', hp⟩
    rw [List.forall_mem_append] at hno'
    have hbeside : ¬ Path.cleanComponents dir ++ [s.name ++ ".md"] <+: p :=
      fun hp => hchanged (hback p (.inl hp))
    have hbeside' : ¬ Path.cleanComponents dir ++ [labelsFile] <+: p :=
      fun hp => hchanged (hback p (.inr hp))
    apply hchanged
    calc t'.find? p
      _ = w.tree.find? p := by rw [htaken, if_neg hbeside', if_neg hbeside]
      _ = t₄.find? p := (hbegun.lands hdir).elsewhere p (hno'.2 r (List.mem_singleton_self r))
      _ = t₃.find? p := hcopied.elsewhere hdir hno'.1
      _ = t₂.find? p := find?_write_child hdir proper_labelsFile hlabels hbeside'
      _ = t₁.find? p := find?_write_child hdir hproper hdocument hbeside
      _ = t.find? p := find?_of_made hdir hdirectory hmade p
  · obtain ⟨content, hfile⟩ := hcopied.file hdir hr'
    rw [htaken, if_neg hbeside', if_neg hbeside]
    exact (hbegun.lands hdir).files _ content hfile

end Unnamed

/-- **The pass without a language takes everything back**, if its directory was empty before and it fails
before resources are copied. Otherwise copies remain. -/
theorem find?_failed_unnamed (hroot : Path.isAbsolute s.resolver.root = true) (hname : 47 ∉ s.name)
    (hout : Path.isAbsolute out = true) (hid : d.id = [])
    (hdirectory : w.tree.descend [] (Path.cleanComponents (directory out d.id)) = .ok .directory)
    (hempty : ∀ p, Path.cleanComponents (directory out d.id) <+: p →
      p ≠ Path.cleanComponents (directory out d.id) → w.tree.find? p = none)
    (h : (pass s o context out d).run w = (.error fault, w')) :
    (∀ p, w'.tree.find? p = w.tree.find? p) ∨
      ∃ root services result whole r after,
        ((Expansion.expand (s.setting o w.tree d) root).run (s.fetcher o) d.id services).1 =
          .ok result ∧
        result.resources = whole ++ r :: after ∧
        Remains s (directory out d.id) whole r w.tree w'.tree := by
  have hdir : Path.isAbsolute (directory out d.id) = true := Path.isAbsolute_join hout
  have hdocument := proper_document hname
  have hgrows : Grows (Path.cleanComponents (directory out d.id)) w.tree
      ((pass s o context out d).run w).2.tree := pass_grows hroot hname hout hid w
  rw [h] at hgrows
  obtain ⟨w₁, hbreaks, htree⟩ := exists_breaksOff h
  rw [discarded, if_pos (by simp [hid]), List.foldl_cons, List.foldl_cons, List.foldl_nil] at htree
  generalize directory out d.id = dir at *
  have hsame : (∀ p, w₁.tree.find? p = w.tree.find? p) → ∀ p, w'.tree.find? p = w.tree.find? p := by
    intro hsame p
    rw [htree]
    exact find?_discard_absent hdir hempty proper_labelsFile
      (find?_discard_absent hdir hempty hdocument hsame) p
  rcases hbreaks.grows hdir hroot hname with hunmade | ⟨-, -, hreached⟩
  · exact .inl (hsame fun p => by rw [hunmade])
  generalize hbroken : w₁.tree = broken at hbreaks
  cases hbreaks with
  | unmade => exact .inl (hsame fun p => by rw [hbroken])
  | document made =>
    exact .inl (hsame fun p => by rw [hbroken, find?_of_made hdir hdirectory made])
  | labels made document =>
    refine .inl fun p => ?_
    rw [htree]
    refine find?_discard_absent hdir hempty proper_labelsFile (fun q => ?_) p
    rw [find?_discard_child hdir hreached hdocument (FileTree.parent_of_write document).1, hbroken]
    split
    · next hbelow => exact (find?_child hempty _ hbelow).symm
    · next hbeside =>
      rw [find?_write_child hdir hdocument document hbeside, find?_of_made hdir hdirectory made]
  | resource made expanded document labels resources copied begun =>
    refine .inr ⟨_, _, _, _, _, _, expanded, resources, ?_⟩
    rw [htree]
    refine remains_of_resource hdir hname hempty hdirectory hreached made document labels copied
      (hbroken ▸ begun) fun p houtside => ?_
    rw [← htree]
    exact (hgrows.beneath hdirectory).2 p fun hp => houtside hp.1

end Failed

/-! ## Passes one after the other -/

section Passes

variable {s : Session} {o : Surroundings} {context : LogContext} {out : Bytes} {d : Descriptor}
  {before : List Descriptor}

variable (hroot : Path.isAbsolute s.resolver.root = true) (hname : 47 ∉ s.name)
  (hout : Path.isAbsolute out = true) (hplain : ∀ e ∈ before, IsPlainName e.id ∧ e.id ≠ [])

include hroot hname hout hplain

/-- The output directory stays during the passes for languages. -/
theorem descend_mapM_pass {w : World}
    (h : w.tree.descend [] (Path.cleanComponents out) = .ok .directory) :
    ((before.mapM (pass s o context out)).run w).2.tree.descend [] (Path.cleanComponents out) =
      .ok .directory := by
  have hpass : ∀ e ∈ before, ∀ w : World, FileTree.Beneath (Path.cleanComponents out) w.tree
      ((pass s o context out e).run w).2.tree := by
    intro e he w
    obtain ⟨hid, hne⟩ := hplain e he
    have hplace := cleanComponents_directory hout hid hne
    refine (pass_within hroot hname hout w).beneath ?_ ?_
    · rw [hplace]
      exact List.prefix_append _ _
    · rw [hplace]
      simp
  exact (mapM_pass (FileTree.Beneath.refl _) (fun _ _ _ => FileTree.Beneath.trans) hpass w h).1

/-- The passes for other languages leave the directory of a language alone. -/
theorem find?_mapM_pass (hid : IsPlainName d.id) (hne : d.id ≠ [])
    (hother : ∀ e ∈ before, e.id ≠ d.id) (w : World) (p : List Bytes)
    (hp : Path.cleanComponents out ++ [d.id] <+: p) :
    ((before.mapM (pass s o context out)).run w).2.tree.find? p = w.tree.find? p := by
  have hplace := cleanComponents_directory hout hid hne
  have hpass : ∀ e ∈ before, ∀ w : World, ∀ p, Path.cleanComponents out ++ [d.id] <+: p →
      ((pass s o context out e).run w).2.tree.find? p = w.tree.find? p := by
    intro e he w p hp
    obtain ⟨hid', hne'⟩ := hplain e he
    rw [← hplace] at hp
    exact (pass_within hroot hname hout w).find?_of_apart
      (not_prefix_directory hout hid' hid hne' hne (hother e he))
      (not_prefix_directory hout hid hid' hne hne' (hother e he).symm) hp
  exact mapM_pass (R := fun t t' => ∀ p, Path.cleanComponents out ++ [d.id] <+: p →
    t'.find? p = t.find? p) (fun _ _ _ => rfl)
    (fun _ _ _ h h' p hp => (h' p hp).trans (h p hp)) hpass w p hp

end Passes

/-- **A failed pass takes back what it wrote**, wherever it fails: after it, the files are those that were
there before it. Only the pass without a language may leave something, if it fails while it copies its
resources: what it had copied by then.

Clones that a pass fetches stay. They lie in the workspace, which is not among the files of `World.tree`
(`Surroundings.fetch`). -/
theorem failed_pass_takes_back {config : Config} {tree : FileTree} {s : Session}
    {store : Metadata.Store} {refs : List Repository.Reference} {out : Bytes} (o : Surroundings)
    (context : LogContext) (hprepare : Session.prepare config tree = .ok (s, store, refs))
    (hcwd : Path.isAbsolute tree.cwd = true) (hname : 47 ∉ config.name)
    (hplain : ∀ d ∈ s.langs, IsPlainName d.id) (hnodup : (s.langs.map (·.id)).Nodup)
    (hout : Path.isAbsolute out = true) {w w₁ w₂ : World}
    (hdirectory : w.tree.stat out = .ok .directory)
    (hempty : ∀ p, Path.cleanComponents out <+: p → p ≠ Path.cleanComponents out →
      w.tree.find? p = none)
    {before after : List Descriptor} {d : Descriptor} (hlangs : s.langs = before ++ d :: after)
    (hbefore : ((before.mapM (pass s o context out)).run w).2 = w₁) {fault : Fault}
    (hfailed : (pass s o context out d).run w₁ = (.error fault, w₂)) :
    (∀ p, w₂.tree.find? p = w₁.tree.find? p) ∨
      d.id = [] ∧ ∃ root services result whole r after,
        ((Expansion.expand (s.setting o w₁.tree d) root).run (s.fetcher o) d.id services).1 =
          .ok result ∧
        result.resources = whole ++ r :: after ∧
        Remains s (directory out d.id) whole r w₁.tree w₂.tree := by
  obtain ⟨hroot, hname', hids⟩ := prepare_eq_ok hprepare hcwd
  have hreached := FileTree.descend_of_stat hout hdirectory
  rw [hlangs] at hplain hnodup hids
  rcases hids with hnone | hne
  · have hid : d.id = [] := by
      have hd : d ∈ [({} : Descriptor)] := hnone ▸ List.mem_append_right _ List.mem_cons_self
      rw [List.mem_singleton.1 hd]
    have hfirst : before = [] := by
      have hlength := congrArg List.length hnone
      rw [List.length_append, List.length_cons, List.length_singleton] at hlength
      exact List.eq_nil_of_length_eq_zero (by omega)
    subst hfirst
    obtain rfl : w = w₁ := hbefore
    have hplace : Path.cleanComponents (directory out d.id) = Path.cleanComponents out := by
      rw [hid, directory_nil hout]
    rw [← hplace] at hreached hempty
    refine (find?_failed_unnamed hroot (hname' hname) hout hid hreached hempty hfailed).imp_right ?_
    exact fun h => ⟨hid, h⟩
  · left
    have hd : d ∈ before ++ d :: after := List.mem_append_right _ List.mem_cons_self
    have hothers : ∀ e ∈ before, IsPlainName e.id ∧ e.id ≠ [] := fun e he =>
      ⟨hplain e (List.mem_append_left _ he), hne e (List.mem_append_left _ he)⟩
    have hother : ∀ e ∈ before, e.id ≠ d.id := by
      intro e he
      rw [List.map_append, List.nodup_append] at hnodup
      exact hnodup.2.2 _ (List.mem_map_of_mem he) _ (List.mem_map_of_mem List.mem_cons_self)
    subst hbefore
    refine find?_failed_language hroot (hname' hname) hout (hplain d hd) (hne d hd)
      (descend_mapM_pass hroot (hname' hname) hout hothers hreached) (fun p hp => ?_) hfailed
    rw [find?_mapM_pass hroot (hname' hname) hout hothers (hplain d hd) (hne d hd) hother w p hp]
    exact find?_child hempty d.id hp

theorem find?_of_entries {t : FileTree} {place : List Bytes} (hplace : place ≠ [])
    (h : ∀ e ∈ t.entries, place <+: e.1 → e.1 = place) (p : List Bytes) (hp : place <+: p)
    (hne : p ≠ place) : t.find? p = none := by
  have hnil : p ≠ [] := by
    rintro rfl
    exact hplace (List.prefix_nil.1 hp)
  rw [FileTree.find?_of_ne_nil t hnil, List.lookup_eq_none_iff]
  intro e he
  rw [bne_iff_ne]
  rintro rfl
  exact hne (h e he hp)

/-- A book without languages that shows two drawings, the second of which cannot be decompressed. -/
def torn : FileTree where
  entries :=
    [([bytes "b"], .directory),
      ([bytes "b", bytes "book.md"],
        .file (bytes "\\rel.figure\x7ba\x7d\x7bA\x7d\x7ba.png\x7d\x7b\x7d\n\n" ++
          bytes "\\rel.figure\x7bb\x7d\x7bB\x7d\x7bb.svgz\x7d\x7b\x7d\n")),
      ([bytes "b", bytes "a.png"], .file (bytes "png")),
      ([bytes "b", bytes "b.svgz"], .file (bytes "no gzip")),
      ([bytes "o"], .directory)]

/-- Whether the pass for the only language of a session succeeds, and what it leaves at a place. -/
def passLeaves (result : Except Fault (Session × Metadata.Store × List Repository.Reference))
    (place : List Bytes) : Option (Bool × Option FileEntry) :=
  match result with
  | .ok (s, _, _) =>
    match s.langs with
    | [d] =>
      let (r, w) := (pass s secluded {} (bytes "/o") d).run { tree := torn }
      some (r.isOk, w.tree.find? place)
    | _ => none
  | .error _ => none

/-- The copy of the first drawing remains after the pass has failed. -/
theorem failed_pass_takes_back_torn : ∃ s store refs d fault w,
    Session.prepare { input := bytes "/b/book.md" } torn = .ok (s, store, refs) ∧
      (pass s secluded {} (bytes "/o") d).run { tree := torn } = (.error fault, w) ∧
      torn.find? [bytes "o", bytes "a.png"] = none ∧
      w.tree.find? [bytes "o", bytes "a.png"] = some (.file (bytes "png")) ∧
      d.id = [] ∧ ∃ whole r, Remains s (directory (bytes "/o") d.id) whole r torn w.tree := by
  have hleaves : passLeaves (Session.prepare { input := bytes "/b/book.md" } torn)
      [bytes "o", bytes "a.png"] = some (false, some (.file (bytes "png"))) := by decide +kernel
  have hids : identifiers (Session.prepare { input := bytes "/b/book.md" } torn) = [[]] := by
    decide +kernel
  have habsent : torn.find? [bytes "o", bytes "a.png"] = none := by decide +kernel
  cases hprepare : Session.prepare { input := bytes "/b/book.md" } torn with
  | error fault =>
    rw [hprepare] at hleaves
    cases hleaves
  | ok prepared =>
    obtain ⟨s, store, refs⟩ := prepared
    rw [hprepare] at hleaves hids
    change s.langs.map (·.id) = [[]] at hids
    unfold passLeaves at hleaves
    dsimp only at hleaves
    split at hleaves
    · next d hlangs =>
      cases hpass : (pass s secluded {} (bytes "/o") d).run { tree := torn } with
      | mk r w =>
        rw [hpass] at hleaves
        obtain ⟨hok, hfind⟩ := Prod.mk.inj (Option.some.inj hleaves)
        cases r with
        | ok edition => cases hok
        | error fault =>
          have hplain : ∀ e ∈ s.langs, IsPlainName e.id := by
            intro e he
            have hid : e.id ∈ s.langs.map (·.id) := List.mem_map_of_mem he
            rw [hids, List.mem_singleton] at hid
            rw [hid]
            decide
          have hentries : ∀ e ∈ torn.entries, Path.cleanComponents (bytes "/o") <+: e.1 →
              e.1 = Path.cleanComponents (bytes "/o") := by decide +kernel
          have hbefore : ((([] : List Descriptor).mapM (pass s secluded {} (bytes "/o"))).run
              { tree := torn }).2 = { tree := torn } := rfl
          rcases failed_pass_takes_back secluded {} hprepare rfl (by decide) hplain
            (by rw [hids]; decide) (show Path.isAbsolute (bytes "/o") = true from rfl)
            (show FileTree.stat torn (bytes "/o") = .ok .directory from rfl)
            (find?_of_entries (by decide +kernel) hentries) (show s.langs = [] ++ d :: [] from hlangs)
            hbefore hpass with
            hrestored | ⟨hid, root, services, result, whole, r, after, -, -, hremains⟩
          · have heq := hrestored [bytes "o", bytes "a.png"]
            rw [hfind, habsent] at heq
            cases heq
          · exact ⟨s, store, refs, d, fault, w, rfl, hpass, habsent, hfind, hid, whole, r, hremains⟩
    · cases hleaves

end Bindery.Build
