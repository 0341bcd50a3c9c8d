import Bindery.Proofs.Expansion.Handling
import Bindery.Proofs.Repository.Cache

/-!
# Where a failed pass points

A fault that leaves a pass names a file and a line, but the two need not belong together: each layer
that the fault passes through adds what is missing. `Fails` tells that a directive failed and with what,
`Brings` what of a place the directive's own fault brings along, and `PlacedAt` what becomes of it there.
`Arises` tells what a document fails with: from the directive where it gets a place on, a fault keeps it
through all documents that are included one by the other.
-/

namespace Bindery.Expansion

open Text (bytes)
open Repository (Fetcher)

variable {s : Setting} {whole : List Exchange} {chain : List Bytes} {path : Bytes}

/-! ## Places -/

/-- Why a document that the last document of a chain includes is not expanded. -/
inductive Refused (s : Setting) (whole : List Exchange) (chain : List Bytes) (child : Bytes) : Prop
  | cycle (h : chain.contains child = true)
  | unreadable {cause : Fault} (h : s.tree.read child = .error cause)
  | metadata {text : Bytes} {cause : Fault} (hopened : Notes whole (.opened chain child text))
    (h : Metadata.parseBlock text = .error cause)

/-- What a document that is included at `path` is expanded with. -/
def includer (s : Setting) (chain : List Bytes) (path : Bytes) (depth : Nat) : Bytes → Pass Bytes :=
  inclusionWith s (chain ++ [path]) path (expandFile s (chain ++ [path]) · (depth + 1))

/-- The directive at a line of a document fails in the conversation of a pass, with a fault that it has
not placed yet. -/
inductive Fails (s : Setting) (whole : List Exchange) : Bytes → Directive → Nat → Fault → Prop
  /-- Its effect fails, which is that of the included document for an inclusion. -/
  | effect {chain : List Bytes} {path : Bytes} {depth line : Nat} {d : Directive} {args : List Bytes}
    {draft : Draft} {trace : List Exchange} {own : Fault} (hgiven : ∀ e ∈ trace, e ∈ whole)
    (hrun : (effect s path (includer s chain path depth) d args line).Runs draft trace (.error own)) :
    Fails s whole path d line own
  /-- It refers to a definition that the expanded book lacks. -/
  | unresolved {root : Bytes} {first draft : Draft} {trace : List Exchange} {result : Node × Bytes}
    {p : Pending} {refusal : Label.Refusal} (hgiven : ∀ e ∈ trace, e ∈ whole)
    (hrun : (expandFile s [] root 0).Runs first trace (.ok (result, draft)))
    (hp : p ∈ draft.pending) (h : draft.registry.lookup p.label = .error refusal) :
    Fails s whole p.file .reference p.line refusal.toFault

/-- What of its place the fault of a directive in the document at `path` brings along. -/
inductive Brings (s : Setting) (whole : List Exchange) (path : Bytes) (d : Directive) (own : Fault) :
    Prop
  | nothing (h : own.Unplaced)
  /-- A line of the source of a listing. -/
  | marker {source text label : Bytes} {request : Listing.Request} {problem : Listing.MarkerProblem}
    {n : Nat} (hsource : Notes whole (.sourced source text))
    (h : Listing.extract text request = .error (.marker problem label n))
    (hfile : own.note? (bytes "file") = none) (hline : own.note? (bytes "line") = some (.int n))
  /-- The path of an included document that is not expanded. -/
  | refused {chain : List Bytes} {child : Bytes} (hd : d = .input)
    (hincluded : Notes whole (.included (chain ++ [path]) child))
    (h : Refused s whole (chain ++ [path]) child)
    (hfile : own.note? (bytes "file") = some (.str (s.display child)))
    (hline : own.note? (bytes "line") = none)
  /-- A line of a text of an included document. -/
  | malformed {chain : List Bytes} {child text : Bytes} {m : Malformed} (hd : d = .input)
    (hopened : Notes whole (.opened (chain ++ [path]) child text)) (h : MalformedIn text m)
    (hfile : own.note? (bytes "file") = none) (hline : own.note? (bytes "line") = some (.int m.line))

/-- A fault gets its place at a directive: what the directive's own fault does not bring along is the
document and the line of the directive. -/
structure PlacedAt (s : Setting) (whole : List Exchange) (path : Bytes) (d : Directive) (line : Nat)
    (own fault : Fault) : Prop where
  fails : Fails s whole path d line own
  brings : Brings s whole path d own
  file : fault.note? (bytes "file") = some ((own.note? (bytes "file")).getD (.str (s.display path)))
  line : fault.note? (bytes "line") = some ((own.note? (bytes "line")).getD (.int line))

/-- A service has answered with a fault that notes a file or a line. -/
def Blemished (whole : List Exchange) : Prop :=
  ∃ e ∈ whole, ∃ fault, e.Refuses fault ∧ ¬ fault.Unplaced

/-- What a document that a chain leads to fails with. -/
inductive Arises (s : Setting) (whole : List Exchange) (chain : List Bytes) (path : Bytes)
    (fault : Fault) : Prop
  | placed {site : Bytes} {d : Directive} {line : Nat} {own : Fault}
    (hsite : Sited s whole site d line) (h : PlacedAt s whole site d line own fault)
  | malformed {text : Bytes} {m : Malformed} (hopened : Notes whole (.opened chain path text))
    (h : MalformedIn text m) (hfile : fault.note? (bytes "file") = none)
    (hline : fault.note? (bytes "line") = some (.int m.line))
  | refused (h : Refused s whole chain path)
    (hfile : fault.note? (bytes "file") = some (.str (s.display path)))
    (hline : fault.note? (bytes "line") = none)
  | unplaced (h : fault.Unplaced)
  | service (h : Blemished whole)

/-! ## Directives -/

/-- The fault of a directive gets its place. -/
theorem arises_of_brings {own : Fault} {d : Directive} {line : Nat}
    (hsite : Sited s whole path d line) (hfails : Fails s whole path d line own)
    (hbrings : Brings s whole path d own) :
    Arises s whole chain path (s.annotate own path d.name line) := by
  obtain ⟨hfile, hline⟩ := s.note?_annotate own path d.name line
  exact .placed hsite ⟨hfails, hbrings, hfile, hline⟩

theorem Own.arises {own : Fault} (h : Own whole own) {d : Directive} {line : Nat}
    (hsite : Sited s whole path d line) (hfails : Fails s whole path d line own) :
    Arises s whole chain path (s.annotate own path d.name line) := by
  cases h with
  | unplaced h => exact arises_of_brings hsite hfails (.nothing h)
  | @answered e he h =>
    by_cases hunplaced : own.Unplaced
    · exact arises_of_brings hsite hfails (.nothing hunplaced)
    · exact .service ⟨e, he, own, h, hunplaced⟩
  | marker hsource h hfile hline =>
    exact arises_of_brings hsite hfails (.marker hsource h hfile hline)

/-- What an inclusion fails with: no document was found, or the one that was found failed. -/
def IncludedArises (s : Setting) (whole : List Exchange) (chain : List Bytes) (fault : Fault) : Prop :=
  fault.Unplaced ∨ ∃ child, Notes whole (.included chain child) ∧ Arises s whole chain child fault

/-- The place of the fault of an inclusion. A fault that was placed in the included document keeps its
place. -/
theorem IncludedArises.arises {own : Fault} (h : IncludedArises s whole (chain ++ [path]) own)
    {line : Nat} (hsite : Sited s whole path .input line)
    (hfails : Fails s whole path .input line own) :
    Arises s whole chain path (s.annotate own path Directive.input.name line) := by
  rcases h with h | ⟨child, hincluded, h⟩
  · exact arises_of_brings hsite hfails (.nothing h)
  · cases h with
    | placed hsite' h =>
      obtain ⟨hfile, hline⟩ := s.note?_annotate own path Directive.input.name line
      rw [h.file] at hfile
      rw [h.line] at hline
      exact .placed hsite' ⟨h.fails, h.brings, hfile, hline⟩
    | malformed hopened h hfile hline =>
      exact arises_of_brings hsite hfails (.malformed rfl hopened h hfile hline)
    | refused h hfile hline =>
      exact arises_of_brings hsite hfails (.refused rfl hincluded h hfile hline)
    | unplaced h => exact arises_of_brings hsite hfails (.nothing h)
    | service h => exact .service h

/-- **Directives** that are counted in an opened document leave faults with a place. -/
theorem traced_perform {depth : Nat}
    (hinput : ∀ name, Traced s whole (IncludedArises s whole (chain ++ [path]))
      (includer s chain path depth name))
    {directive : Directive} {line : Nat} (hsite : Sited s whole path directive line)
    (args : List Bytes) :
    Traced s whole (Arises s whole chain path)
      (perform s path (includer s chain path depth) directive args line) := by
  have hown :
      Traced s whole (Own whole) (effect s path (includer s chain path depth) directive args line) →
      Traced s whole (Arises s whole chain path)
        (Pass.mapFault (s.annotate · path directive.name line)
          (effect s path (includer s chain path depth) directive args line)) :=
    fun hx => hx.mapFault fun _ _ _ hgiven hrun h => h.arises hsite (.effect hgiven hrun)
  rw [perform_eq]
  refine Traced.bind (traced_ask _) fun _ => ?_
  refine Traced.bind ?_ fun output => ?_
  · cases directive with
    | input =>
      exact (hinput _).mapFault fun _ _ _ hgiven hrun h => h.arises hsite (.effect hgiven hrun)
    | code => exact hown (traced_localListing _ _ _)
    | relativeCode => exact hown (traced_localListing _ _ _)
    | gitCode => exact hown (traced_repositoryListing _ _ _)
    | figure => exact hown (traced_figure _ _ _ _ _)
    | definition => exact hown (traced_definition _ _ _)
    | reference => exact hown (traced_reference hsite)
    | metadata => exact hown (traced_metadata _)
  · exact Traced.bind (traced_ask _) fun _ => Traced.bind (traced_ask _) fun _ => traced_pure output

/-! ## Documents -/

theorem traced_inclusion {expandChild : Bytes → Pass (Node × Bytes)}
    (hchild : ∀ child, s.Includes path child →
      Traced s whole (Arises s whole chain child) (expandChild child))
    (name : Bytes) :
    Traced s whole (IncludedArises s whole chain) (inclusionWith s chain path expandChild name) := by
  refine traced_require_mapError_bind (fun refusal => .inl refusal.unplaced_toFault)
    fun child hresolved => ?_
  refine traced_ask_bind fun _ hincluded => ?_
  refine Traced.bind (fun d => ?_) fun result => ?_
  · exact (hchild child ⟨name, hresolved⟩ d).mono (fun _ he => he) (fun h => h) fun h => .inr ⟨child, hincluded, h⟩
  · exact Traced.bind (traced_modify (fun _ => rfl) fun _ => rfl) fun _ => traced_pure _

theorem traced_declareMetadata {text : Bytes} (hopened : Notes whole (.opened chain path text)) :
    Traced s whole (Arises s whole chain path) (declareMetadata s path text) := by
  rw [declareMetadata]
  split
  · next cause hcause =>
    exact traced_throw (.refused (.metadata hopened hcause) (Fault.note?_classified _ _ _)
      (Fault.note?_classified _ _ _))
  · exact traced_pure _
  · exact traced_ask _

/-- A document that was read leaves behind what its directives and the documents it includes do. -/
theorem traced_document {text : Bytes} {depth : Nat} (hread : s.tree.read path = .ok text)
    (hchild : ∀ child, s.Includes path child →
      Traced s whole (Arises s whole (chain ++ [path]) child)
        (expandFile s (chain ++ [path]) child (depth + 1))) :
    Traced s whole (Arises s whole chain path)
      (documentWith s chain path depth text (expandText s (chain ++ [path]) path depth 0 text)) := by
  refine traced_ask_bind fun _ hopened => ?_
  refine Traced.bind (traced_declareMetadata hopened) fun _ => ?_
  refine Traced.bind traced_get fun outer => ?_
  refine Traced.bind (traced_modify (fun _ => rfl) fun _ => rfl) fun _ => ?_
  refine Traced.bind (fun d => ?_) fun out => ?_
  · refine Conduct.holds_expand_each ?_ ?_ _ 0 (Template.each_ofText text 0) [] d
    · rintro directive line ⟨i, n, missed, hcounted, rfl⟩ args
      rw [Nat.zero_add]
      exact traced_perform (traced_inclusion hchild)
        ⟨chain, text, i, missed, hopened, hread, hcounted⟩ args
    · intro bad hbad _
      obtain ⟨hfile, hline⟩ := bad.note?_toFault
      exact .malformed hopened hbad hfile hline
  · refine Traced.bind traced_get fun inner => ?_
    refine Traced.bind (traced_modify (fun _ => rfl) fun _ => rfl) fun _ => ?_
    exact Traced.bind (traced_ask _) fun _ => traced_pure _

/-- **Documents** leave behind what can be traced. -/
theorem traced_expandFile (chain : List Bytes) (path : Bytes) (depth : Nat) :
    Traced s whole (Arises s whole chain path) (expandFile s chain path depth) := by
  refine expandFile_induction
    (motive := fun chain path _ => Traced s whole (Arises s whole chain path)) ?_ ?_ ?_ ?_ chain path depth
  · intro chain path _ hcycle
    exact traced_throw (.refused (.cycle hcycle) (Fault.note?_classified _ _ _)
      (Fault.note?_classified _ _ _))
  · intro _ chain path _
    exact traced_throw (.unplaced (Fault.unplaced_classified rfl rfl))
  · intro chain path _ cause hread
    exact traced_throw (.refused (.unreadable hread) (Fault.note?_classified _ _ _)
      (Fault.note?_classified _ _ _))
  · intro chain path depth text hread hchild
    exact traced_document hread hchild

/-! ## Services -/

theorem unplaced_of_string {store : Metadata.Store} {lang key : Bytes} {fault : Fault}
    (h : store.string lang key = .error fault) : fault.Unplaced := by
  unfold Metadata.Store.string at h
  simp only at h
  split at h
  · obtain rfl := Except.error.inj h
    exact Fault.unplaced_classified rfl rfl
  · split at h
    · obtain rfl := Except.error.inj h
      exact Fault.unplaced_classified rfl rfl
    · cases h

/-- Services with an honest cache answer with faults without a place. -/
theorem unplaced_of_answer (fetch : Fetcher) (lang : Bytes) {services : Services}
    (h : services.cache.Honest) (request : Request) {fault : Fault}
    (hrefuses : Exchange.Refuses ⟨request, (services.answer fetch lang request).1⟩ fault) :
    fault.Unplaced := by
  cases request with
  | text key => exact unplaced_of_string hrefuses
  | snapshot mnemonic =>
    rcases Repository.Cache.fault_of_get fetch h hrefuses with rfl | ⟨name, url, cause, rfl⟩
    · exact Fault.unplaced_classified rfl rfl
    · exact Fault.unplaced_classified rfl rfl
  | _ => exact hrefuses.elim

theorem honest_cache_answer (fetch : Fetcher) (lang : Bytes) {services : Services}
    (h : services.cache.Honest) (request : Request) :
    (services.answer fetch lang request).2.cache.Honest := by
  cases request with
  | snapshot mnemonic => exact Repository.Cache.honest_get fetch h mnemonic lang
  | _ => exact h

theorem not_blemished_exchanges {α : Type} (fetch : Fetcher) (lang : Bytes) (script : Script α)
    {services : Services} (h : services.cache.Honest) :
    ¬ Blemished (script.exchanges fetch lang services) := by
  induction script generalizing services with
  | done a => simp [Blemished, Script.exchanges]
  | ask request next ih =>
    rintro ⟨e, he, fault, hrefuses, hplaced⟩
    rcases List.mem_cons.1 he with rfl | he
    · exact hplaced (unplaced_of_answer fetch lang h request hrefuses)
    · exact ih _ (honest_cache_answer fetch lang h request) ⟨e, he, fault, hrefuses, hplaced⟩

/-! ## Passes -/

/-- What the last steps of a pass fail with. -/
theorem arises_of_finish {root : Bytes} {first : Draft} {trace : List Exchange} {node : Node}
    {text : Bytes} {draft : Draft} {fault : Fault} (hgiven : ∀ e ∈ trace, e ∈ whole)
    (hrun : (expandFile s [] root 0).Runs first trace (.ok ((node, text), draft)))
    (hpending : ∀ p ∈ draft.pending, Sited s whole p.file .reference p.line)
    (h : finish s node text draft = .error fault) : Arises s whole chain path fault := by
  cases hresolve : resolveReferences s draft text with
  | error f =>
    rw [finish_of_unresolved hresolve] at h
    obtain rfl : f = fault := Except.error.inj h
    rcases fault_of_resolveReferences hresolve with ⟨rfl, -⟩ | ⟨p, hp, refusal, hlookup, rfl⟩
    · exact .unplaced ⟨rfl, rfl⟩
    · obtain ⟨hfile, hline⟩ := s.note?_annotate refusal.toFault p.file Directive.reference.name p.line
      exact .placed (hpending p hp)
        ⟨.unresolved hgiven hrun hp hlookup, .nothing refusal.unplaced_toFault, hfile, hline⟩
  | ok resolved =>
    rw [finish_of_resolved hresolve] at h
    split at h
    · next refusal _ _ =>
      obtain rfl := Except.error.inj h
      exact .unplaced refusal.unplaced_toFault
    · cases h

theorem resources_of_finish {node : Node} {text : Bytes} {draft : Draft} {expanded : Expanded}
    (h : finish s node text draft = .ok expanded) : expanded.resources = draft.resources := by
  cases hresolve : resolveReferences s draft text with
  | error f =>
    rw [finish_of_unresolved hresolve] at h
    cases h
  | ok resolved =>
    rw [finish_of_resolved hresolve] at h
    split at h
    · cases h
    · obtain rfl := Except.ok.inj h
      rfl

/-- Resources of an expanded book are files of figures, whatever the services answer. -/
theorem shelves_of_runs {root : Bytes} {trace : List Exchange} {expanded : Expanded}
    (h : (expand s root).Runs trace (.ok expanded)) : ∀ r ∈ expanded.resources, s.Shelves r := by
  obtain ⟨first, r, event, hruns, -, hresult⟩ := runs_expand h
  have htraced : Traced s first (Arises s first [] root) (expandFile s [] root 0) :=
    traced_expandFile [] root 0
  have hmet := htraced _ first r hruns fun e he => he
  cases r with
  | error fault => cases hresult
  | ok result =>
    obtain ⟨⟨node, text⟩, draft⟩ := result
    change _ = (finish s node text draft).mapError s.withLanguage at hresult
    cases hfinish : finish s node text draft with
    | error fault =>
      rw [hfinish] at hresult
      cases hresult
    | ok expanded' =>
      rw [hfinish] at hresult
      obtain rfl : expanded = expanded' := Except.ok.inj hresult
      rw [resources_of_finish hfinish]
      exact fun r hr => (hmet.1.1 r hr).resolve_left (by simp)

section Alone

variable (fetch : Fetcher) (services : Services) (s : Setting) (root : Bytes)

/-- What the root document leaves behind can be traced in the conversation of the pass. -/
theorem traced_manuscript :
    ∃ trace r, manuscript fetch services (s, root) = r ∧
      (expandFile s [] root 0).Runs { registry := { lang := s.lang.id } } trace r ∧
      (∀ e ∈ trace, e ∈ conversation fetch services (s, root)) ∧
      alone fetch services (s, root) =
        (r.bind fun ((node, text), draft) => finish s node text draft).mapError s.withLanguage ∧
      (tracing s (conversation fetch services (s, root))
        (Arises s (conversation fetch services (s, root)) [] root)).Met (fun _ _ => True)
          { registry := { lang := s.lang.id } } trace r := by
  obtain ⟨trace, r, hr, hruns, ⟨event, hconversation⟩, halone⟩ := runs_alone fetch services s root
  have hgiven : ∀ e ∈ trace, e ∈ conversation fetch services (s, root) := fun e he =>
    hconversation ▸ List.mem_append_left _ he
  have htraced : Traced s (conversation fetch services (s, root))
      (Arises s (conversation fetch services (s, root)) [] root) (expandFile s [] root 0) :=
    traced_expandFile [] root 0
  exact ⟨trace, r, hr, hruns, hgiven, halone, htraced _ trace r hruns hgiven⟩

theorem traced_root :
    (∃ fault, alone fetch services (s, root) = .error (s.withLanguage fault) ∧
      Arises s (conversation fetch services (s, root)) [] root fault) ∨
    ∃ node text first trace draft,
      (∀ e ∈ trace, e ∈ conversation fetch services (s, root)) ∧
      (expandFile s [] root 0).Runs first trace (.ok ((node, text), draft)) ∧
      alone fetch services (s, root) = (finish s node text draft).mapError s.withLanguage ∧
      ∀ p ∈ draft.pending,
        Sited s (conversation fetch services (s, root)) p.file .reference p.line := by
  obtain ⟨trace, r, -, hruns, hgiven, halone, hmet⟩ := traced_manuscript fetch services s root
  cases r with
  | error fault => exact .inl ⟨fault, halone, hmet⟩
  | ok result =>
    obtain ⟨⟨node, text⟩, draft⟩ := result
    refine .inr ⟨node, text, _, trace, draft, hgiven, hruns, halone, fun p hp => ?_⟩
    exact (hmet.1.2 p hp).resolve_left (by simp)

theorem arises_of_alone {fault : Fault} (h : alone fetch services (s, root) = .error fault) :
    ∃ inner, fault = s.withLanguage inner ∧
      Arises s (conversation fetch services (s, root)) [] root inner := by
  rcases traced_root fetch services s root with
    ⟨inner, hinner, harises⟩ | ⟨node, text, first, trace, draft, hgiven, hrun, halone, hpending⟩
  · rw [hinner] at h
    exact ⟨inner, (Except.error.inj h).symm, harises⟩
  · rw [halone] at h
    cases hfinish : finish s node text draft with
    | error inner =>
      rw [hfinish] at h
      exact ⟨inner, (Except.error.inj h).symm, arises_of_finish hgiven hrun hpending hfinish⟩
    | ok expanded =>
      rw [hfinish] at h
      cases h

end Alone

/-- **Where a failed pass points.** If a pass fails with a fault that names a file and a line, then a
directive has failed in a document that the pass has opened, and it is counted at a line of that
document: that of its backslash, less the lines that are missed between directives and the arguments it
stands in.

The place of the fault is that document and that line, as far as the directive's own fault does not bring
along one of them. A marker in the source of a listing brings along a line of the source. A cycle, a
document that cannot be read and one with an invalid metadata block bring along the path of the included
document, and get the line that includes it. A malformed directive in a document that is included brings
along a line of its own text, and gets the path of the document that includes it. -/
theorem place_of_fault (fetch : Fetcher) (services : Services) (hcache : services.cache.Honest)
    (s : Setting) (root : Bytes) (fault : Fault) (hfail : alone fetch services (s, root) = .error fault)
    (hfile : (fault.note? (bytes "file")).isSome) (hline : (fault.note? (bytes "line")).isSome) :
    ∃ chain path text i d l missed own,
      Notes (conversation fetch services (s, root)) (.opened chain path text) ∧
      s.tree.read path = .ok text ∧ Counted text i d l missed ∧ NamesAt text i d ∧
      l + missed = 1 + Text.newlines (text.take i) ∧
      PlacedAt s (conversation fetch services (s, root)) path d l own fault := by
  obtain ⟨inner, rfl, harises⟩ := arises_of_alone fetch services s root hfail
  have hfile' := s.note?_withLanguage inner (show bytes "file" ≠ bytes "lang" by decide)
  have hline' := s.note?_withLanguage inner (show bytes "line" ≠ bytes "lang" by decide)
  rw [hfile'] at hfile
  rw [hline'] at hline
  cases harises with
  | @placed path d l own hsite h =>
    obtain ⟨chain, text, i, missed, hopened, hread, hcounted⟩ := hsite
    obtain ⟨hnames, -, hlines⟩ := hcounted.stands
    exact ⟨chain, path, text, i, d, l, missed, own, hopened, hread, hcounted, hnames, hlines,
      h.fails, h.brings, hfile'.trans h.file, hline'.trans h.line⟩
  | malformed _ _ hnone _ => simp [hnone] at hfile
  | refused _ _ hnone => simp [hnone] at hline
  | unplaced h => simp [h.file] at hfile
  | service h => exact absurd h (not_blemished_exchanges fetch s.lang.id _ hcache)

/-- A book whose second document is malformed on its second line. -/
def strayedSetting : Setting where
  tree :=
    { entries :=
        [([bytes "b"], .directory),
          ([bytes "b", bytes "book.md"], .file (bytes "\\rel.input\x7bpart.md\x7d\n")),
          ([bytes "b", bytes "part.md"], .file (bytes "One.\n\\meta\n"))] }
  resolver := { root := bytes "/b" }

def strayed : Except Fault Expanded :=
  alone (fun _ _ => .error .other) {} (strayedSetting, bytes "/b/book.md")

/-- What the fault of a failed pass notes under a key, as text. -/
def noteText? (key : Bytes) : Except Fault Expanded → Option Bytes
  | .ok _ => none
  | .error fault => (fault.note? key).map Value.plain

/-- A line of the second document is reported with the path of the first, which has only one line. -/
theorem place_of_fault_strayed :
    ({} : Services).cache.Honest ∧ noteText? (bytes "file") strayed = some (bytes "book.md") ∧
      noteText? (bytes "line") strayed = some (bytes "2") ∧
      ∃ path d l own fault, strayed = .error fault ∧
        PlacedAt strayedSetting
          (conversation (fun _ _ => .error .other) {} (strayedSetting, bytes "/b/book.md")) path d l own
          fault := by
  have hcache : ({} : Services).cache.Honest := Repository.Cache.honest_of_fresh rfl
  have hfile : noteText? (bytes "file") strayed = some (bytes "book.md") := by decide +kernel
  have hline : noteText? (bytes "line") strayed = some (bytes "2") := by decide +kernel
  refine ⟨hcache, hfile, hline, ?_⟩
  cases hfail : strayed with
  | ok expanded =>
    rw [hfail] at hfile
    cases hfile
  | error fault =>
    rw [hfail] at hfile hline
    obtain ⟨_, hfile', -⟩ := Option.map_eq_some_iff.1 hfile
    obtain ⟨_, hline', -⟩ := Option.map_eq_some_iff.1 hline
    obtain ⟨-, path, -, -, d, l, -, own, -, -, -, -, -, hplaced⟩ :=
      place_of_fault _ {} hcache strayedSetting _ fault hfail (Option.isSome_of_eq_some hfile')
        (Option.isSome_of_eq_some hline')
    exact ⟨path, d, l, own, fault, rfl, hplaced⟩

end Bindery.Expansion
