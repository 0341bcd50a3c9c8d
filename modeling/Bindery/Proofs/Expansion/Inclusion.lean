import Bindery.Proofs.Expansion.Visit
import Bindery.Proofs.Fault
import Bindery.Proofs.Repository.Cache

/-!
# Inclusions

What a pass includes, and what its inclusion tree says of it. A pass that succeeds tells of its tree: for
each directive that it reached and that includes a document there is a node, in order. A pass that includes
a document which is being expanded fails right there, and only such a pass fails with an inclusion
cycle.
-/

namespace Bindery.Expansion

open Repository (Fetcher)

/-! ## Honest services -/

/-- An exchange that does not fail with a fault of inclusion. -/
def Exchange.Honest : Exchange → Prop
  | ⟨.text _, answer⟩ =>
    ∀ fault, (answer : Except Fault Bytes) = Except.error fault → fault.category ≠ .inclusion
  | ⟨.snapshot _, answer⟩ =>
    ∀ fault, (answer : Except Fault Snapshot) = Except.error fault → fault.category ≠ .inclusion
  | _ => True

theorem category_of_string {store : Metadata.Store} {lang key : Bytes} {fault : Fault}
    (h : store.string lang key = .error fault) : fault.category = .metadata := by
  unfold Metadata.Store.string at h
  simp only at h
  split at h
  · obtain rfl := Except.error.inj h
    exact Fault.category_raise _ _ _
  · split at h
    · obtain rfl := Except.error.inj h
      exact Fault.category_raise _ _ _
    · cases h

/-- Services with an honest cache answer honestly, and stay so. -/
theorem honest_answer (fetch : Fetcher) (lang : Bytes) {s : Services} (h : s.cache.Honest)
    (request : Request) :
    Exchange.Honest ⟨request, (s.answer fetch lang request).1⟩ ∧
      (s.answer fetch lang request).2.cache.Honest := by
  cases request with
  | text key =>
    refine ⟨fun fault hfault => ?_, h⟩
    rw [category_of_string hfault]
    decide
  | snapshot mnemonic =>
    refine ⟨fun fault hfault => ?_, Repository.Cache.honest_get fetch h mnemonic lang⟩
    rw [Repository.Cache.category_of_get fetch h hfault]
    decide
  | _ => exact ⟨trivial, h⟩

theorem honest_exchanges {α : Type} (fetch : Fetcher) (lang : Bytes) (script : Script α)
    {s : Services} (h : s.cache.Honest) : ∀ e ∈ script.exchanges fetch lang s, e.Honest := by
  induction script generalizing s with
  | done a => simp [Script.exchanges]
  | ask request next ih =>
    obtain ⟨hfirst, hnext⟩ := honest_answer fetch lang h request
    intro e he
    rcases List.mem_cons.1 he with rfl | he
    · exact hfirst
    · exact ih _ hnext e he

/-! ## Directives that include nothing -/

/-- The conduct of steps that are no part of an inclusion. -/
def quiet : Conduct where
  given := Exchange.Honest
  ok d trace d' := (∀ e ∈ trace, e.request.Aside) ∧ d'.children = d.children
  fail _ trace fault := (∀ e ∈ trace, e.request.Aside) ∧ fault.category ≠ .inclusion
  refl _ := ⟨by simp, rfl⟩
  trans h h' := ⟨List.forall_mem_append.2 ⟨h.1, h'.1⟩, h'.2.trans h.2⟩
  fail_trans h h' := ⟨List.forall_mem_append.2 ⟨h.1, h'.1⟩, h'.2⟩

/-- A step that is no part of an inclusion, whatever the draft. -/
def Quiet {α : Type} (x : Pass α) : Prop := ∀ d, quiet.Holds d x fun _ _ => True

section Quiet

variable {α β : Type}

theorem quiet_pure (a : α) : Quiet (pure a : Pass α) := Conduct.always_pure a

theorem quiet_throw {fault : Fault} (h : fault.category ≠ .inclusion) :
    Quiet (throw fault : Pass α) := Conduct.always_throw fun _ => ⟨by simp, h⟩

theorem quiet_throw_bind {fault : Fault} (h : fault.category ≠ .inclusion) (f : α → Pass β) :
    Quiet (throw fault >>= f) := quiet_throw (α := β) h

theorem Quiet.bind {x : Pass α} {f : α → Pass β} (hx : Quiet x) (hf : ∀ a, Quiet (f a)) :
    Quiet (x >>= f) := Conduct.Always.bind hx hf

theorem quiet_require {result : Except Fault α}
    (h : ∀ fault, result = .error fault → fault.category ≠ .inclusion) :
    Quiet (Pass.require result) := Conduct.always_require fun _ fault hfault => ⟨by simp, h fault hfault⟩

theorem quiet_require_mapError {ε : Type} {result : Except ε α} {toFault : ε → Fault}
    (h : ∀ refusal, (toFault refusal).category ≠ .inclusion) :
    Quiet (Pass.require (result.mapError toFault)) :=
  Conduct.always_require_mapError fun _ refusal _ => ⟨by simp, h refusal⟩

theorem quiet_get : Quiet (get : Pass Draft) := Conduct.always_get

theorem quiet_modify {f : Draft → Draft} (h : ∀ d, (f d).children = d.children) :
    Quiet (modify f : Pass PUnit) := Conduct.always_modify fun d => ⟨by simp, h d⟩

theorem quiet_ask {request : Request} (h : request.Aside) : Quiet (Pass.ask request) :=
  Conduct.always_ask fun _ _ _ => ⟨by simpa using h, rfl⟩

theorem quiet_get_bind {f : Draft → Pass β} (hf : ∀ d, quiet.Holds d (f d) fun _ _ => True) :
    Quiet (get >>= f) := Conduct.always_get_bind hf

theorem quiet_define (kind key : Bytes) : Quiet (define kind key) := by
  refine quiet_get_bind fun d => ?_
  split
  · exact quiet_throw (by simp) d
  · next number registry _ =>
    refine Conduct.Holds.bind (Q := fun _ _ => True) ?_ fun _ d' _ _ _ => quiet_pure number d'
    exact Conduct.holds_set ⟨by simp, rfl⟩ trivial

theorem quiet_projectCheckout (s : Setting) : Quiet s.projectCheckout :=
  Conduct.always_projectCheckout s (fun _ => ⟨by simp, rfl⟩) fun _ _ =>
    ⟨by simp [Request.Aside], rfl⟩

theorem quiet_listing (s : Setting) (path url : Bytes) (r : ListingRequest) :
    Quiet (listing s path url r) := by
  refine Quiet.bind (quiet_require_mapError fun _ => by simp) fun source => ?_
  refine Quiet.bind (quiet_ask trivial) fun _ => ?_
  refine Quiet.bind (quiet_require_mapError fun _ => by simp) fun body => ?_
  exact Quiet.bind (quiet_define _ _) fun _ => quiet_pure _

theorem quiet_localListing (s : Setting) (dir file : Bytes) (r : ListingRequest) :
    Quiet (localListing s dir file r) := by
  refine Quiet.bind (quiet_require_mapError fun _ => by simp) fun path => ?_
  exact Quiet.bind (quiet_projectCheckout s) fun checkout => quiet_listing s path _ r

theorem quiet_snapshot {mnemonic : Bytes} {f : Snapshot → Pass β} (hf : ∀ a, Quiet (f a)) :
    Quiet (Pass.ask (.snapshot mnemonic) >>= fun answer => Pass.require answer >>= f) := by
  intro d
  refine Conduct.Holds.bind (Q := fun answer _ => Exchange.Honest ⟨.snapshot mnemonic, answer⟩) ?_
    fun answer d' _ _ hhonest => Quiet.bind (quiet_require hhonest) hf d'
  exact Conduct.holds_ask fun answer hgiven => ⟨⟨by simp [Request.Aside], rfl⟩, hgiven⟩

theorem quiet_repositoryListing (s : Setting) (mnemonic file : Bytes) (r : ListingRequest) :
    Quiet (repositoryListing s mnemonic file r) := by
  rw [repositoryListing]
  split
  · exact quiet_throw_bind (by simp) _
  · refine quiet_snapshot fun snapshot => ?_
    refine Quiet.bind (quiet_require_mapError fun _ => by simp) fun path => ?_
    exact quiet_listing s path _ r

theorem quiet_figure (s : Setting) (dir label caption file attributes : Bytes) :
    Quiet (figure s dir label caption file attributes) := by
  refine Quiet.bind (quiet_require_mapError fun _ => by simp) fun path => ?_
  refine Quiet.bind (quiet_require_mapError fun _ => by simp) fun shown => ?_
  refine Quiet.bind (quiet_define _ _) fun _ => ?_
  refine Quiet.bind (quiet_modify fun d => ?_) fun _ => quiet_pure _
  split <;> rfl

theorem quiet_definition (type label body : Bytes) : Quiet (definition type label body) := by
  rw [definition]
  split
  · exact quiet_throw_bind (by simp) _
  · refine Quiet.bind (quiet_ask trivial) fun title => ?_
    refine Quiet.bind (quiet_modify fun d => ?_) fun _ => ?_
    · rfl
    · refine Quiet.bind (quiet_define _ _) fun number => ?_
      exact Quiet.bind quiet_get fun d => quiet_pure _

theorem quiet_reference (label file : Bytes) (line : Nat) : Quiet (reference label file line) := by
  rw [reference]
  split
  · exact quiet_throw_bind (by simp) _
  · refine quiet_get_bind fun d => ?_
    refine Conduct.Holds.bind (Q := fun _ _ => True) ?_ fun _ d' _ _ _ => quiet_pure _ d'
    exact Conduct.holds_set ⟨by simp, rfl⟩ trivial

theorem quiet_text (key : Bytes) :
    Quiet (Pass.ask (.text key) >>= fun answer => Pass.require answer) := by
  intro d
  refine Conduct.Holds.bind (Q := fun answer _ => Exchange.Honest ⟨.text key, answer⟩) ?_
    fun answer d' _ _ hhonest => quiet_require hhonest d'
  exact Conduct.holds_ask fun answer hgiven => ⟨⟨by simp [Request.Aside], rfl⟩, hgiven⟩

theorem quiet_metadata (s : Setting) (key : Bytes) : Quiet (metadata s key) :=
  Conduct.always_metadata s key (fun _ _ hcategory _ => ⟨by simp, by simp [hcategory]⟩)
    (quiet_projectCheckout s) quiet_text

theorem quiet_declareMetadata (s : Setting) (path text : Bytes) :
    Quiet (declareMetadata s path text) := by
  rw [declareMetadata]
  split
  · exact quiet_throw (by simp)
  · exact quiet_pure _
  · exact quiet_ask trivial

end Quiet

/-- A directive of another kind is no part of an inclusion. -/
theorem quiet_perform {s : Setting} {path : Bytes} {input : Bytes → Pass Bytes} {directive : Directive}
    (h : directive ≠ .input) (args : List Bytes) (line : Nat) :
    Quiet (perform s path input directive args line) := by
  have heffect : Quiet (effect s path input directive args line) := by
    cases directive with
    | input => exact absurd rfl h
    | code => exact quiet_localListing s _ _ _
    | relativeCode => exact quiet_localListing s _ _ _
    | gitCode => exact quiet_repositoryListing s _ _ _
    | figure => exact quiet_figure s _ _ _ _ _
    | definition => exact quiet_definition _ _ _
    | reference => exact quiet_reference _ _ _
    | metadata => exact quiet_metadata s _
  rw [perform_eq]
  refine Quiet.bind (quiet_ask h) fun _ => Quiet.bind (fun d => ?_) fun output => ?_
  · exact Conduct.holds_mapFault (heffect d) fun _ _ hfail => ⟨hfail.1, by simpa using hfail.2⟩
  · exact Quiet.bind (quiet_ask trivial) fun _ => Quiet.bind (quiet_ask h) fun _ => quiet_pure output

/-! ## Inclusions of a document -/

/-- How visits and a fault go together: the fault of an inclusion cycle arises exactly where a document
is entered that is open already, and has the place of the directive that was reached there. -/
def Ends (s : Setting) : Stage → Fault → Prop
  | .inside _, fault => fault.category ≠ .inclusion
  | .stuck _, fault => fault.category ≠ .inclusion
  | .called _ _ _, _ => False
  | .before _ _, _ => False
  | .cycle chain path line, fault => ∃ front last, chain = front ++ [last] ∧
      fault = s.annotate (cycleFault s chain path) last Directive.input.name line

theorem Ends.annotate {s : Setting} {stage : Stage} {fault : Fault} (h : Ends s stage fault)
    (file name : Bytes) (line : Nat) : Ends s stage (s.annotate fault file name line) := by
  cases stage with
  | inside chain => simpa [Ends] using h
  | stuck chain => simpa [Ends] using h
  | called chain path line => exact h
  | before chain path => exact h
  | cycle chain path line' =>
    obtain ⟨front, last, hchain, rfl⟩ := h
    exact ⟨front, last, hchain, s.annotate_annotate _ _ _ _ _ _ _⟩

/-- The conduct of steps that expand texts of the last document of a chain, which stands at a path. The
documents that it includes are at a depth. -/
def inclusions (s : Setting) (front : List Bytes) (path : Bytes) (depth : Nat) : Conduct where
  given := Exchange.Honest
  ok d trace d' := ∃ nodes, d'.children = d.children ++ nodes ∧
    Told s (front ++ [path]) path depth nodes trace
  fail _ trace fault := ∃ stage,
    Stage.follow s (.inside (front ++ [path])) (visits trace) = some stage ∧ Ends s stage fault
  refl d := ⟨[], by simp, .done⟩
  trans := by
    rintro d d' d'' first rest ⟨ns, hns, hfirst⟩ ⟨ms, hms, hrest⟩
    exact ⟨ns ++ ms, by rw [hms, hns, List.append_assoc], hfirst.append hrest⟩
  fail_trans := by
    rintro d d' first rest fault ⟨ns, -, hfirst⟩ ⟨stage, hstage, hends⟩
    refine ⟨stage, ?_, hends⟩
    rw [visits_append, Stage.follow_append, Stage.follow_told hfirst ⟨front, rfl⟩]
    exact hstage

/-- What expanding a document does that was read: it tells of its tree, or it fails where its visits
end. -/
def DocumentExpands (s : Setting) (chain : List Bytes) (path : Bytes) (depth : Nat) (text : Bytes)
    (x : Pass (Node × Bytes)) : Prop :=
  ∀ d trace r, x.Runs d trace r → (∀ e ∈ trace, e.Honest) →
    match r with
    | .ok ((node, _), d') => ∃ children inner, d'.children = d.children ∧
        node = .mk path (Path.dir path) depth children ∧
        trace = ⟨.note (.opened chain path text), ()⟩ :: (inner ++ [⟨.note (.closed path), ()⟩]) ∧
        Told s (chain ++ [path]) path (depth + 1) children inner
    | .error fault => ∃ stage,
        Stage.follow s (.before chain path) (visits trace) = some stage ∧ Ends s stage fault

section

variable {s : Setting} {front : List Bytes} {path : Bytes} {depth : Nat}

theorem Quiet.inclusions {α : Type} {x : Pass α} (h : Quiet x) (d : Draft) :
    (inclusions s front path depth).Holds d x fun _ _ => True := by
  refine (h d).mono (fun _ he => he) ?_ ?_
  · rintro d trace d' ⟨haside, hchildren⟩
    exact ⟨[], by simpa using hchildren, .of_aside haside⟩
  · rintro d trace fault ⟨haside, hfault⟩
    exact ⟨.inside (front ++ [path]), by rw [visits_of_aside haside]; rfl, hfault⟩

/-! What directives do, if the documents that are included expand. -/

section Inclusion

variable (hdocument : ∀ child text, s.Includes path child → child ∉ front ++ [path] →
  s.tree.read child = .ok text → DocumentExpands s (front ++ [path]) child depth text
    (expandFile s (front ++ [path]) child depth))

include hdocument

/-- What including a document does: its argument means a document that is not open, which is expanded,
or it fails where the visits end that began with the directive. -/
theorem runs_inclusion {args : List Bytes} (line : Nat) {d : Draft} {trace : List Exchange}
    {r : Except Fault (Bytes × Draft)}
    (hrun : Pass.Runs (inclusionWith s (front ++ [path]) path (expandFile s (front ++ [path]) · depth)
      (args[0]?.getD [])) d trace r) (hgiven : ∀ e ∈ trace, e.Honest) :
    match r with
    | .ok (_, d') => ∃ child text children inner, s.meant path args = .ok child ∧
        child ∉ front ++ [path] ∧ s.tree.read child = .ok text ∧
        trace = ⟨.note (.included (front ++ [path]) child), ()⟩ ::
          ⟨.note (.opened (front ++ [path]) child text), ()⟩ ::
          (inner ++ [⟨.note (.closed child), ()⟩]) ∧
        Told s (front ++ [path] ++ [child]) child (depth + 1) children inner ∧
        d'.children = d.children ++ [.mk child (Path.dir child) depth children]
    | .error fault => ∃ stage, Stage.follow s (.inside (front ++ [path]))
        (.calls path line args :: visits trace) = some stage ∧
        Ends s stage (s.annotate fault path Directive.input.name line) := by
  rcases Pass.runs_require_mapError_bind.1 hrun with
    ⟨refusal, hmeant, rfl, rfl⟩ | ⟨child, hmeant, hnote⟩
  · refine ⟨.stuck (front ++ [path]), ?_, by simp [Ends]⟩
    rw [Stage.follow_cons, Stage.next_calls_refused hmeant]
    rfl
  · obtain ⟨rest, rfl, hexpand⟩ := Pass.runs_note_bind.1 hnote
    have hgiven' : ∀ e ∈ rest, e.Honest := fun e he => hgiven e (List.mem_cons_of_mem _ he)
    have hfollow : Stage.follow s (.inside (front ++ [path])) (.calls path line args ::
        visits (⟨.note (.included (front ++ [path]) child), ()⟩ :: rest)) =
        Stage.follow s (if (front ++ [path]).contains child then .cycle (front ++ [path]) child line
          else .before (front ++ [path]) child) (visits rest) := Stage.follow_entered hmeant line _
    by_cases hopen : child ∈ front ++ [path]
    · -- The document is open already: the expansion fails at once.
      dsimp only at hexpand
      rw [expandFile_eq, if_pos (List.contains_iff_mem.2 hopen)] at hexpand
      obtain ⟨rfl, rfl⟩ := Pass.runs_throw.1 hexpand
      refine ⟨.cycle (front ++ [path]) child line, ?_, ⟨front, path, rfl, rfl⟩⟩
      rw [hfollow, if_pos (List.contains_iff_mem.2 hopen)]
      rfl
    · obtain ⟨text, hread⟩ := FileTree.read_of_isFile (Resolver.resolve_cases hmeant).1
      have hspec := hdocument child text ⟨_, hmeant⟩ hopen hread d
      rcases Pass.runs_bind.1 hexpand with ⟨fault, hfail, rfl⟩ |
        ⟨⟨node, out⟩, d', first, more, rfl, hok, hadd⟩
      · obtain ⟨stage, hstage, hends⟩ := hspec rest _ hfail hgiven'
        refine ⟨stage, ?_, hends.annotate path _ line⟩
        rw [hfollow, if_neg (mt List.contains_iff_mem.1 hopen)]
        exact hstage
      · obtain ⟨rfl, rfl⟩ := Script.runs_done.1 hadd
        obtain ⟨children, inner, hchildren, rfl, rfl, htold⟩ :=
          hspec first _ hok fun e he => hgiven' e (List.mem_append_left _ he)
        refine ⟨child, text, children, inner, hmeant, hopen, hread, ?_, htold, ?_⟩
        · rw [List.append_nil]
        · exact congrArg (· ++ [_]) hchildren

/-- **An inclusion** tells of the tree of the document that its argument means, or fails where that one
does; including a document that is open fails with an inclusion cycle. -/
theorem holds_inclusion (args : List Bytes) (line : Nat) (d : Draft) :
    (inclusions s front path depth).Holds d
      (perform s path (inclusionWith s (front ++ [path]) path (expandFile s (front ++ [path]) · depth))
        .input args line) fun _ _ => True := by
  intro trace r hrun hgiven
  rw [perform_eq] at hrun
  obtain ⟨rest, rfl, hreached⟩ := Pass.runs_note_bind.1 hrun
  have hgiven' : ∀ e ∈ rest, e.Honest := fun e he => hgiven e (List.mem_cons_of_mem _ he)
  rcases Pass.runs_bind.1 hreached with ⟨fault, hmapped, rfl⟩ |
    ⟨output, d', first, more, rfl, hmapped, hmore⟩
  · obtain ⟨own | _, hrun', hr⟩ := Pass.runs_mapFault.1 hmapped
    · cases hr
      exact runs_inclusion hdocument line hrun' hgiven'
    · cases hr
  · obtain ⟨own | _, hrun', hr⟩ := Pass.runs_mapFault.1 hmapped
    · cases hr
    · cases hr
      obtain ⟨child, text, children, inner, hmeant, hfresh, hread, rfl, htold, hchildren⟩ :=
        runs_inclusion hdocument line hrun' fun e he => hgiven' e (List.mem_append_left _ he)
      obtain ⟨⟨⟩, more, rfl, hnote⟩ := Pass.runs_ask_bind.1 hmore
      obtain ⟨more, rfl, hpure⟩ := Pass.runs_note_bind.1 hnote
      obtain ⟨rfl, rfl⟩ := Pass.runs_pure.1 hpure
      refine ⟨⟨_, hchildren, ?_⟩, trivial⟩
      have hall : Told s (front ++ [path]) path depth [.mk child (Path.dir child) depth children]
          (inclusionOf (front ++ [path]) path line args child text output inner ++ []) :=
        .inclusion hmeant hfresh hread htold .done
      simpa [inclusionOf] using hall

/-- Directives behave if the documents do that they include. -/
theorem holds_perform (directive : Directive) (args : List Bytes) (line : Nat) (d : Draft) :
    (inclusions s front path depth).Holds d
      (perform s path (inclusionWith s (front ++ [path]) path (expandFile s (front ++ [path]) · depth))
        directive args line) fun _ _ => True := by
  by_cases hinput : directive = .input
  · subst hinput
    exact holds_inclusion hdocument args line d
  · exact (quiet_perform hinput args line).inclusions d

end Inclusion

/-- A document that was read expands if the documents do that it includes. -/
theorem documentExpands_of_read {chain : List Bytes} {text : Bytes}
    (hdocument : ∀ child text, s.Includes path child → child ∉ chain ++ [path] →
      s.tree.read child = .ok text → DocumentExpands s (chain ++ [path]) child (depth + 1) text
        (expandFile s (chain ++ [path]) child (depth + 1))) :
    DocumentExpands s chain path depth text
      (documentWith s chain path depth text (expandText s (chain ++ [path]) path depth 0 text)) := by
  have htexts : (inclusions s chain path (depth + 1)).Texts (fun _ _ _ => True) (fun _ => True)
      (perform s path
        (inclusionWith s (chain ++ [path]) path (expandFile s (chain ++ [path]) · (depth + 1)))) := by
    refine ⟨fun _ => trivial, fun _ _ => trivial, fun _ _ => trivial, ?_, ?_⟩
    · exact fun _ d directive args line _ => holds_perform hdocument directive args line d
    · exact fun d bad => ⟨.inside _, rfl, by simp [Ends]⟩
  intro d trace r hrun hgiven
  rw [documentWith] at hrun
  obtain ⟨rest, rfl, hmeta⟩ := Pass.runs_note_bind.1 hrun
  have hgiven' : ∀ e ∈ rest, e.Honest := fun e he => hgiven e (List.mem_cons_of_mem _ he)
  have hstart : ∀ rest, Stage.follow s (.before chain path)
      (visits (⟨.note (.opened chain path text), ()⟩ :: rest)) =
      Stage.follow s (.inside (chain ++ [path])) (visits rest) := by
    intro rest
    change Stage.follow s (.before chain path) (.opens chain path :: visits rest) = _
    rw [Stage.follow_cons, Stage.next_opens]
    rfl
  rcases Pass.runs_bind.1 hmeta with ⟨fault, hfail, rfl⟩ | ⟨_, d₁, first, more, rfl, hdeclare, hmore⟩
  · obtain ⟨haside, hfault⟩ := quiet_declareMetadata s path text d rest _ hfail hgiven'
    refine ⟨.inside (chain ++ [path]), ?_, hfault⟩
    rw [hstart, visits_of_aside haside]
    rfl
  · have hfirst : ∀ e ∈ first, e.Honest := fun e he => hgiven' e (List.mem_append_left _ he)
    have hmore' : ∀ e ∈ more, e.Honest := fun e he => hgiven' e (List.mem_append_right _ he)
    obtain ⟨⟨haside, hchildren₁⟩, -⟩ := quiet_declareMetadata s path text d first _ hdeclare hfirst
    have hexpand := htexts.expand (.ofText text) (Template.all_of_forall (fun _ => trivial) _) 0 []
      { d₁ with children := [] } { d₁ with children := [] } trivial
    rcases Pass.runs_bind.1 (Pass.runs_modify_bind.1 (Pass.runs_get_bind.1 hmore)) with
      ⟨fault, hfail, rfl⟩ | ⟨out, d₂, second, last, rfl, hok, hlast⟩
    · obtain ⟨stage, hstage, hends⟩ := hexpand more _ hfail hmore'
      refine ⟨stage, ?_, hends⟩
      rw [hstart, visits_append, visits_of_aside haside]
      exact hstage
    · obtain ⟨⟨nodes, hnodes, htold⟩, -⟩ :=
        hexpand second _ hok fun e he => hmore' e (List.mem_append_left _ he)
      obtain ⟨tail, rfl, htail⟩ :=
        Pass.runs_note_bind.1 (Pass.runs_modify_bind.1 (Pass.runs_get_bind.1 hlast))
      obtain ⟨rfl, rfl⟩ := Pass.runs_pure.1 htail
      refine ⟨nodes, first ++ second, hchildren₁, ?_, ?_, ?_⟩
      · exact congrArg (Node.mk path (Path.dir path) depth) hnodes
      · rw [List.append_assoc]
      · simpa using (Told.of_aside haside).append htold

end

/-- **Documents** tell of their trees. -/
theorem documentExpands {s : Setting} (hcancelled : s.cancelled = false) (chain : List Bytes)
    (path : Bytes) (depth : Nat) {text : Bytes} (hnew : path ∉ chain)
    (hread : s.tree.read path = .ok text) :
    DocumentExpands s chain path depth text (expandFile s chain path depth) := by
  refine expandFile_induction (motive := fun chain path depth x => ∀ text, path ∉ chain →
    s.tree.read path = .ok text → DocumentExpands s chain path depth text x) ?_ ?_ ?_ ?_
    chain path depth text hnew hread
  · exact fun chain path _ hopen _ hnew _ => absurd (List.contains_iff_mem.1 hopen) hnew
  · intro hcancel
    rw [hcancelled] at hcancel
    cases hcancel
  · intro chain path depth cause hfail text _ hread
    rw [hread] at hfail
    cases hfail
  · intro chain path depth text hread hchild text' _ hread'
    obtain rfl : text = text' := Except.ok.inj (hread.symm.trans hread')
    exact documentExpands_of_read fun child text hincludes hnew hread =>
      hchild child hincludes text hnew hread

/-! ## The end of a pass -/

theorem category_of_finish {s : Setting} {root : Node} {text : Bytes} {draft : Draft} {fault : Fault}
    (h : finish s root text draft = .error fault) : fault.category ≠ .inclusion := by
  cases hrefs : resolveReferences s draft text with
  | error f =>
    rw [finish_of_unresolved hrefs] at h
    obtain rfl : f = fault := Except.error.inj h
    rcases fault_of_resolveReferences hrefs with ⟨rfl, -⟩ | ⟨p, -, refusal, -, rfl⟩
    · decide
    · simp
  | ok out =>
    rw [finish_of_resolved hrefs] at h
    split at h
    · obtain rfl := Except.error.inj h
      simp
    · cases h

/-- What a pass that runs alone visits. -/
def journey (fetch : Fetcher) (services : Services) (pass : Setting × Bytes) : List Visit :=
  visits (conversation fetch services pass)

theorem finish_root {s : Setting} {root : Node} {text : Bytes} {draft : Draft} {expanded : Expanded}
    (h : finish s root text draft = .ok expanded) : expanded.root = root := by
  cases hrefs : resolveReferences s draft text with
  | error f =>
    rw [finish_of_unresolved hrefs] at h
    cases h
  | ok out =>
    rw [finish_of_resolved hrefs] at h
    split at h
    · cases h
    · rw [← Except.ok.inj h]

/-- How a pass can go. It is refused before it reads anything, it fails where its visits end, or it
succeeds and has told of its tree. -/
inductive Goes (s : Setting) (root : Bytes) : List Exchange → Except Fault Expanded → Prop
  | refused {event : Metric} {fault : Fault} (category : fault.category ≠ .inclusion) :
      Goes s root [⟨.count event, ()⟩] (.error fault)
  | fails {trace : List Exchange} {stage : Stage} {fault : Fault}
      (legal : Stage.follow s (.before [] root) (visits trace) = some stage) (ends : Ends s stage fault) :
      Goes s root trace (.error (s.withLanguage fault))
  | succeeds {event : Metric} {text : Bytes} {children : List Node} {inner : List Exchange}
      {expanded : Expanded} (read : s.tree.read root = .ok text)
      (tree : expanded.root = .mk root (Path.dir root) 0 children)
      (told : Told s [root] root 1 children inner) :
      Goes s root (⟨.note (.opened [] root text), ()⟩ ::
        (inner ++ [⟨.note (.closed root), ()⟩, ⟨.count event, ()⟩])) (.ok expanded)

/-- The visits of a document that is told of are legal. -/
theorem follow_document {s : Setting} {root text : Bytes} {children : List Node}
    {inner rest : List Exchange} (h : Told s [root] root 1 children inner) (hrest : visits rest = []) :
    Stage.follow s (.before [] root) (visits (⟨.note (.opened [] root text), ()⟩ ::
      (inner ++ ⟨.note (.closed root), ()⟩ :: rest))) = some (.inside []) := by
  have hvisits : visits (⟨.note (.opened [] root text), ()⟩ ::
      (inner ++ ⟨.note (.closed root), ()⟩ :: rest)) =
      .opens [] root :: (visits inner ++ [.closes root]) := by
    change _ :: visits (inner ++ _) = _
    rw [visits_append]
    change _ :: (_ ++ _ :: visits rest) = _
    rw [hrest]
  rw [hvisits, Stage.follow_cons, Stage.next_opens, Option.bind_some, Stage.follow_append]
  rw [List.nil_append, Stage.follow_told h ⟨[], rfl⟩, Option.bind_some, Stage.follow_cons]
  exact congrArg (Option.bind · _) (Stage.next_closes s [] root)

theorem goes_alone (fetch : Fetcher) (services : Services) (hcache : services.cache.Honest)
    (s : Setting) (root : Bytes) :
    Goes s root (conversation fetch services (s, root)) (alone fetch services (s, root)) := by
  obtain ⟨trace, r, -, hrun, ⟨event, hconversation⟩, halone⟩ := runs_alone fetch services s root
  have hhonest : ∀ e ∈ trace, e.Honest := by
    intro e he
    refine honest_exchanges fetch s.lang.id (expand s root) hcache e ?_
    change e ∈ conversation fetch services (s, root)
    rw [hconversation]
    exact List.mem_append_left _ he
  have hrefused : ∀ fault : Fault, fault.category ≠ .inclusion → trace = [] ∧ r = .error fault →
      Goes s root (conversation fetch services (s, root)) (alone fetch services (s, root)) := by
    rintro fault hfault ⟨rfl, rfl⟩
    rw [halone, hconversation]
    exact .refused (by simpa using hfault)
  cases hcancelled : s.cancelled with
  | true =>
    rw [expandFile_eq, hcancelled] at hrun
    exact hrefused _ (by simp) (Pass.runs_throw.1 hrun)
  | false =>
    cases hread : s.tree.read root with
    | error cause =>
      rw [expandFile_eq, hcancelled, hread] at hrun
      exact hrefused _ (by simp) (Pass.runs_throw.1 hrun)
    | ok text =>
      have hspec := documentExpands hcancelled [] root 0 List.not_mem_nil hread _ trace r hrun hhonest
      rw [hconversation]
      rcases r with fault | ⟨⟨node, out⟩, draft⟩
      · obtain ⟨stage, hstage, hends⟩ := hspec
        rw [halone]
        refine .fails ?_ hends
        rw [visits_append]
        exact (congrArg (Stage.follow s _) (List.append_nil _)).trans hstage
      · obtain ⟨children, inner, -, rfl, rfl, htold⟩ := hspec
        rw [halone, List.cons_append, List.append_assoc]
        cases hfinish : finish s (.mk root (Path.dir root) 0 children) out draft with
        | error fault =>
          change Goes s root _ ((finish s _ out draft).mapError s.withLanguage)
          rw [hfinish]
          exact .fails (follow_document htold rfl) (category_of_finish hfinish : Ends s (.inside []) fault)
        | ok expanded =>
          change Goes s root _ ((finish s _ out draft).mapError s.withLanguage)
          rw [hfinish]
          exact .succeeds hread (finish_root hfinish) htold

/-- A failure by the inclusion of a document at a path, which the documents of a chain lead to. The
fault tells the chain and the path, and the line of the directive in the last document. -/
def FailsByCycle (s : Setting) (chain : List Bytes) (path : Bytes) (line : Nat)
    (result : Except Fault Expanded) : Prop :=
  ∃ front last, chain = front ++ [last] ∧
    result = .error (s.withLanguage
      (s.annotate (cycleFault s chain path) last Directive.input.name line))

namespace Goes

variable {s : Setting} {root : Bytes} {trace : List Exchange} {result : Except Fault Expanded}

/-- The visits of a pass that reads something are legal, and do not end before a document. -/
theorem legal (h : Goes s root trace result) (hne : visits trace ≠ []) :
    ∃ stage, Stage.follow s (.before [] root) (visits trace) = some stage ∧
      (∀ chain path line, stage ≠ .called chain path line) ∧
      (∀ chain path, stage ≠ .before chain path) ∧
      ∀ chain path line, stage = .cycle chain path line → FailsByCycle s chain path line result := by
  cases h with
  | refused => exact absurd rfl hne
  | @fails _ stage fault hlegal hends =>
    refine ⟨stage, hlegal, ?_, ?_, ?_⟩
    · rintro chain path line rfl
      exact hends
    · rintro chain path rfl
      exact hends
    · rintro chain path line rfl
      obtain ⟨front, last, hchain, rfl⟩ := hends
      exact ⟨front, last, hchain, rfl⟩
  | succeeds _ _ htold => exact ⟨.inside [], follow_document htold rfl, nofun, nofun, nofun⟩

/-- Whenever a directive is reached that means a document, the document is entered from the open ones. If
it is one of them, that ends the pass; another is opened. -/
theorem called (h : Goes s root trace result) {before after : List Visit} {path child : Bytes}
    {line : Nat} {args : List Bytes} (hvisits : visits trace = before ++ .calls path line args :: after)
    (hmeant : s.meant path args = .ok child) :
    ∃ front rest, openAfter [] before = front ++ [path] ∧
      after = .enters (front ++ [path]) child :: rest ∧
      (child ∈ front ++ [path] → rest = [] ∧ FailsByCycle s (front ++ [path]) child line result) ∧
      (child ∉ front ++ [path] → ∃ more, rest = .opens (front ++ [path]) child :: more) := by
  obtain ⟨stage, hlegal, hcalled, hbefore, hcycle⟩ := h.legal (by simp [hvisits])
  rw [hvisits] at hlegal
  obtain ⟨front, hinside, ⟨-, hstage⟩ | ⟨rest, hafter, hopen, hfresh⟩⟩ :=
    Stage.follow_calls hmeant hlegal
  · exact absurd hstage (hcalled _ _ _)
  · refine ⟨front, rest, (Stage.chain_follow hinside).symm, hafter, fun hmem => ?_, fun hnew => ?_⟩
    · obtain ⟨hrest, hstage⟩ := hopen hmem
      exact ⟨hrest, hcycle _ _ _ hstage⟩
    · rcases hfresh hnew with ⟨-, hstage⟩ | hmore
      · exact absurd hstage (hbefore _ _)
      · exact hmore

/-- A pass fails with a fault of inclusion only by entering a document that is open. -/
theorem cycle (h : Goes s root trace result) {fault : Fault} (hresult : result = .error fault)
    (hfault : fault.category = .inclusion) :
    ∃ before front last line args path,
      visits trace = before ++ [.calls last line args, .enters (front ++ [last]) path] ∧
      path ∈ front ++ [last] ∧ FailsByCycle s (front ++ [last]) path line result ∧
      (front ++ [last]).head? = some root ∧
      Stage.Performed s (visits trace) (front ++ [last] ++ [path]) := by
  cases h with
  | refused hrefused =>
    obtain rfl := Except.error.inj hresult
    exact absurd hfault hrefused
  | @fails _ stage cause hlegal hends =>
    obtain rfl := Except.error.inj hresult
    rw [Setting.category_withLanguage] at hfault
    cases stage with
    | inside chain => exact absurd hfault hends
    | stuck chain => exact absurd hfault hends
    | called chain path line => exact hends.elim
    | before chain path => exact hends.elim
    | cycle chain path line =>
      obtain ⟨hopen, before, front, last, args, hvisits, rfl, -⟩ := Stage.follow_cycle hlegal
      obtain ⟨front', last', hchain, rfl⟩ := hends
      refine ⟨before, front, last, line, args, path, hvisits, hopen, ⟨front', last', hchain, rfl⟩, ?_,
        Stage.performed_trail hlegal⟩
      rcases Stage.head?_trail hlegal with htrail | hhead
      · simp [Stage.trail] at htrail
      · cases front <;> simpa [Stage.trail] using hhead
  | succeeds => cases hresult

end Goes

/-- **The inclusions of a pass.** Let a pass run alone, with a cache that holds no failures but those of
fetches.

If it succeeds, its conversation tells of its inclusion tree: for each directive that it reached and that
includes a document, also in an argument, there is a node, in order, under the node of the document that
the directive stands in. It is the node of the document that the argument means, which was opened and
closed right there. The files of the tree are what was read, in order. On no way down a path occurs twice,
and depths are distances from the root.

If it fails with a fault of inclusion, the last it did was to reach a directive that means a document of
the chain that led there from the root. Each document of that chain was entered from the one before, by a
directive in it that means it.

Whenever it reaches a directive that means a document, the open documents lead to the one it stands in. If
the meant one is among them, the pass fails with the fault of that cycle. If not, it is opened next. -/
theorem expand_inclusions (fetch : Fetcher) (services : Services) (hcache : services.cache.Honest)
    (s : Setting) (root : Bytes) :
    (∀ expanded, alone fetch services (s, root) = .ok expanded →
      (∃ text children inner event, s.tree.read root = .ok text ∧
        expanded.root = .mk root (Path.dir root) 0 children ∧
        conversation fetch services (s, root) = ⟨.note (.opened [] root text), ()⟩ ::
          (inner ++ [⟨.note (.closed root), ()⟩, ⟨.count event, ()⟩]) ∧
        Told s [root] root 1 children inner) ∧
      documents (journey fetch services (s, root)) = expanded.root.files ∧
      ∀ way, expanded.root.Descent way → (way.map Node.path).Nodup ∧
        ∀ (i : Nat) (n : Node), way[i]? = some n → n.depth = i) ∧
    (∀ fault, alone fetch services (s, root) = .error fault → fault.category = .inclusion →
      ∃ before front last line args path,
        journey fetch services (s, root) =
          before ++ [.calls last line args, .enters (front ++ [last]) path] ∧
        path ∈ front ++ [last] ∧
        FailsByCycle s (front ++ [last]) path line (alone fetch services (s, root)) ∧
        (front ++ [last]).head? = some root ∧
        Stage.Performed s (journey fetch services (s, root)) (front ++ [last] ++ [path])) ∧
    ∀ before path line args after child,
      journey fetch services (s, root) = before ++ .calls path line args :: after →
      s.meant path args = .ok child →
      ∃ front rest, openAfter [] before = front ++ [path] ∧
        after = .enters (front ++ [path]) child :: rest ∧
        (child ∈ front ++ [path] → rest = [] ∧
          FailsByCycle s (front ++ [path]) child line (alone fetch services (s, root))) ∧
        (child ∉ front ++ [path] → ∃ more, rest = .opens (front ++ [path]) child :: more) := by
  have hgoes := goes_alone fetch services hcache s root
  refine ⟨fun expanded hok => ?_, fun fault hfail hfault => hgoes.cycle hfail hfault,
    fun before path line args after child hjourney hmeant => hgoes.called hjourney hmeant⟩
  rw [hok] at hgoes
  rw [journey]
  generalize conversation fetch services (s, root) = trace at hgoes ⊢
  cases hgoes with
  | @succeeds event text children inner _ hread htree htold =>
    have hsound : expanded.root.Sound [] 0 := by
      rw [htree]
      exact Node.sound_mk List.not_mem_nil htold.sound
    refine ⟨⟨text, children, inner, event, hread, htree, rfl, htold⟩, ?_, fun way hway => ?_⟩
    · rw [htree, Node.files, ← htold.documents_visits]
      simp [visits, documents, Exchange.visit?]
    · obtain ⟨-, hnodup, hdepth⟩ := hsound way hway
      exact ⟨hnodup, fun i n hn => by simpa using hdepth i n hn⟩

/-- A book whose root document includes itself. -/
def loopSetting : Setting where
  tree :=
    { entries :=
        [([Text.bytes "b"], .directory),
          ([Text.bytes "b", Text.bytes "book.md"],
            .file (Text.bytes "\\rel.input\x7bbook.md\x7d"))] }
  resolver := { root := Text.bytes "/b" }

/-- The category of the fault of a failed pass. -/
def faultCategory? : Except Fault Expanded → Option Category
  | .ok _ => none
  | .error fault => some fault.category

/-- A document that includes itself fails at its own inclusion. -/
theorem expand_inclusions_loop :
    ({} : Services).cache.Honest ∧
      faultCategory? (alone (fun _ _ => .error .other) {} (loopSetting, Text.bytes "/b/book.md")) =
        some .inclusion ∧
      ∃ before front last line args path,
        journey (fun _ _ => .error .other) {} (loopSetting, Text.bytes "/b/book.md") =
          before ++ [.calls last line args, .enters (front ++ [last]) path] ∧
        path ∈ front ++ [last] ∧
        (front ++ [last]).head? = some (Text.bytes "/b/book.md") := by
  have hcache : ({} : Services).cache.Honest := Repository.Cache.honest_of_fresh rfl
  have hcategory : faultCategory?
      (alone (fun _ _ => .error .other) {} (loopSetting, Text.bytes "/b/book.md")) =
        some .inclusion := by decide +kernel
  refine ⟨hcache, hcategory, ?_⟩
  cases hresult : alone (fun _ _ => .error .other) {} (loopSetting, Text.bytes "/b/book.md") with
  | ok expanded =>
    rw [hresult] at hcategory
    cases hcategory
  | error fault =>
    rw [hresult] at hcategory
    obtain ⟨before, front, last, line, args, path, hjourney, hmem, -, hhead, -⟩ :=
      (expand_inclusions _ {} hcache loopSetting _).2.1 fault hresult (Option.some.inj hcategory)
    exact ⟨before, front, last, line, args, path, hjourney, hmem, hhead⟩

end Bindery.Expansion
