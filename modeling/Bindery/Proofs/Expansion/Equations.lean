import Mathlib.Data.List.Basic
import Bindery.Expansion.Document
import Bindery.Proofs.Path

/-!
# The equation of expansion

Scripts obey the laws of monads, so the steps of a pass can be regrouped freely. The expansion of a
document is then one equation over two steps that are named here: what is done around the expansion
of the text of a document, and what is done around the expansion of a document that is included. The
equation gives an induction on inclusions, by which a fact about all documents is a fact about one
step. A directive is performed around its effect, which is named here, too. When the root document is
expanded, references are resolved, which fails at a mark in the text.
-/

namespace Bindery.Expansion

/-! ## Laws -/

namespace Script

theorem bind_done {α : Type} (x : Script α) : x.bind .done = x := by
  induction x with
  | done a => rfl
  | ask r next ih =>
    rw [bind]
    congr 1
    funext answer
    exact ih answer

theorem bind_bind {α β γ : Type} (x : Script α) (f : α → Script β) (g : β → Script γ) :
    (x.bind f).bind g = x.bind fun a => (f a).bind g := by
  induction x with
  | done a => rfl
  | ask r next ih =>
    simp only [bind]
    congr 1
    funext answer
    exact ih answer

instance : LawfulMonad Script := LawfulMonad.mk' Script bind_done (fun _ _ => rfl) bind_bind

end Script

namespace Pass

/-- What follows a requirement only matters for what was required. -/
theorem require_bind_congr {α β : Type} {result : Except Fault α} {f g : α → Pass β}
    (h : ∀ a, result = .ok a → f a = g a) : require result >>= f = require result >>= g := by
  cases result with
  | ok a =>
    have hf : ∀ k : α → Pass β, require (.ok a) >>= k = k a := fun k => pure_bind a k
    rw [hf, hf, h a rfl]
  | error fault => rfl

end Pass

/-! ## Directives -/

/-- What a directive does between the notes that it was reached and done. -/
def effect (s : Setting) (path : Bytes) (input : Bytes → Pass Bytes) (directive : Directive)
    (args : List Bytes) (line : Nat) : Pass Bytes :=
  let dir := Path.dir path
  let arg (i : Nat) : Bytes := args[i]?.getD []
  match directive with
  | .input => input (arg 0)
  | .code | .relativeCode =>
    localListing s dir (arg 2)
      { label := arg 0, caption := arg 1, lines := arg 3, labels := arg 4, options := arg 5 }
  | .gitCode =>
    repositoryListing s (arg 0) (arg 3)
      { label := arg 1, caption := arg 2, lines := arg 4, labels := arg 5, options := arg 6 }
  | .figure => figure s dir (arg 0) (arg 1) (arg 2) (arg 3)
  | .definition => definition (arg 0) (arg 1) (arg 2)
  | .reference => reference (arg 0) path line
  | .metadata => metadata s (arg 0)

/-- A directive has its effect, the faults of which get its place, and is counted. -/
theorem perform_eq (s : Setting) (path : Bytes) (input : Bytes → Pass Bytes) (directive : Directive)
    (args : List Bytes) (line : Nat) :
    perform s path input directive args line = (do
      Pass.note (.reached path line directive args)
      let output ← Pass.mapFault (s.annotate · path directive.name line)
        (effect s path input directive args line)
      Pass.ask (.count (.directive directive.name))
      Pass.note (.performed path line directive args output)
      pure output) := by
  cases directive <;> rfl

/-! ## Documents -/

/-- Whether a document can include another: some name in it means the other one. -/
def Setting.Includes (s : Setting) (path child : Bytes) : Prop :=
  ∃ name, s.resolver.resolve s.tree (Path.dir path) name s.lang = .ok child

/-- Includes the document that a name means in the last document of a chain, which stands at
`path`. -/
def inclusionWith (s : Setting) (chain : List Bytes) (path : Bytes)
    (expandChild : Bytes → Pass (Node × Bytes)) (name : Bytes) : Pass Bytes := do
  let child ← Pass.require <|
    (s.resolver.resolve s.tree (Path.dir path) name s.lang).mapError (·.toFault)
  Pass.note (.included chain child)
  let (node, text) ← expandChild child
  modify fun d => { d with children := d.children ++ [node] }
  pure text

/-- Expands a document whose text was read, given the expansion of the text. The inclusions of the
document are gathered apart from those of the document that includes it. -/
def documentWith (s : Setting) (chain : List Bytes) (path : Bytes) (depth : Nat) (text : Bytes)
    (expandText : Pass Bytes) : Pass (Node × Bytes) := do
  Pass.note (.opened chain path text)
  declareMetadata s path text
  let outer := (← get).children
  modify fun d => { d with children := [] }
  let out ← expandText
  let children := (← get).children
  modify fun d => { d with children := outer }
  Pass.note (.closed path)
  pure (.mk path (Path.dir path) depth children, out)

/-- Expands a text of the last document of a chain, which stands at `path`. -/
def expandText (s : Setting) (chain : List Bytes) (path : Bytes) (depth line : Nat) (text : Bytes) :
    Pass Bytes :=
  (Template.ofText text).expand
    (perform s path (inclusionWith s chain path (expandFile s chain · (depth + 1)))) line []

theorem inclusionWith_eq (s : Setting) (chain : List Bytes) (path : Bytes)
    (expandChild : Bytes → Pass (Node × Bytes)) (name : Bytes) :
    inclusionWith s chain path expandChild name =
      match s.resolver.resolve s.tree (Path.dir path) name s.lang with
      | .error refusal => throw refusal.toFault
      | .ok child => (do
        Pass.note (.included chain child)
        let (node, text) ← expandChild child
        modify fun d => { d with children := d.children ++ [node] }
        pure text) := by
  rw [inclusionWith]
  cases s.resolver.resolve s.tree (Path.dir path) name s.lang with
  | error refusal => rfl
  | ok child => rfl

/-- **The equation of expansion.** -/
theorem expandFile_eq (s : Setting) (chain : List Bytes) (path : Bytes) (depth : Nat) :
    expandFile s chain path depth =
      if chain.contains path then throw (cycleFault s chain path)
      else if s.cancelled then throw (Fault.passOn .cancelled .build "expansion cancelled")
      else
        match s.tree.read path with
        | .error cause =>
          throw (Fault.raiseFrom cause .fileSystem "cannot read document"
            [("file", .str (s.display path))])
        | .ok text =>
          documentWith s chain path depth text (expandText s (chain ++ [path]) path depth 0 text) := by
  rw [expandFile]
  split
  · next h => simp only [h, if_true]
  · next h =>
    simp only [h, Bool.false_eq_true, if_false]
    split
    · rfl
    · cases s.tree.read path with
      | error cause => rfl
      | ok text =>
        refine congrArg (fun input => documentWith s chain path depth text
          ((Template.ofText text).expand (perform s path input) 0 [])) (funext fun name => ?_)
        rw [inclusionWith_eq]
        split
        · next hrefused => rw [hrefused]
        · next hfound =>
          rw [hfound]

/-- **Induction on the inclusions of documents.** What is so of a document that is refused, and of one
that is read whenever it is so of the documents that it includes, is so of every document. -/
theorem expandFile_induction {s : Setting}
    {motive : List Bytes → Bytes → Nat → Pass (Node × Bytes) → Prop}
    (hcycle : ∀ chain path depth, chain.contains path = true →
      motive chain path depth (throw (cycleFault s chain path)))
    (hcancelled : s.cancelled = true → ∀ chain path depth,
      motive chain path depth (throw (Fault.passOn .cancelled .build "expansion cancelled")))
    (hunreadable : ∀ chain path depth cause, s.tree.read path = .error cause →
      motive chain path depth (throw (Fault.raiseFrom cause .fileSystem "cannot read document"
        [("file", .str (s.display path))])))
    (hdocument : ∀ chain path depth text, s.tree.read path = .ok text →
      (∀ child, s.Includes path child → motive (chain ++ [path]) child (depth + 1)
        (expandFile s (chain ++ [path]) child (depth + 1))) →
      motive chain path depth
        (documentWith s chain path depth text (expandText s (chain ++ [path]) path depth 0 text)))
    (chain : List Bytes) (path : Bytes) (depth : Nat) :
    motive chain path depth (expandFile s chain path depth) := by
  -- Each inclusion leaves fewer steps ahead.
  induction hn : ahead s chain path using Nat.strongRecOn generalizing chain path depth with
  | ind n ih =>
    rw [expandFile_eq]
    split
    · next hopen => exact hcycle chain path depth hopen
    · next hnew =>
      have hnew : chain.contains path = false := by simpa using hnew
      split
      · next hcancel => exact hcancelled hcancel chain path depth
      · split
        · next cause hread => exact hunreadable chain path depth cause hread
        · next text hread =>
          refine hdocument chain path depth text hread fun child hincludes => ?_
          obtain ⟨name, hchild⟩ := hincludes
          exact ih _ (hn ▸ ahead_lt hnew hchild) _ child _ rfl

/-! ## References -/

theorem mem_of_mapM_id_error {α : Type} {results : List (Except Fault α)} {fault : Fault}
    (h : results.mapM id = .error fault) : .error fault ∈ results := by
  induction results with
  | nil => cases h
  | cons r results ih =>
    rw [List.mapM_cons] at h
    cases r with
    | error f =>
      obtain rfl : f = fault := Except.error.inj h
      exact List.mem_cons_self
    | ok a =>
      cases hrest : results.mapM id with
      | error f =>
        rw [hrest] at h
        obtain rfl : f = fault := Except.error.inj h
        exact List.mem_cons_of_mem _ (ih hrest)
      | ok as =>
        rw [hrest] at h
        cases h

/-- A mark fails if its number is beyond the references, or where its reference stands. -/
theorem fault_of_resolveSegment {s : Setting} {draft : Draft} {segment : Segment} {fault : Fault}
    (h : resolveSegment s draft segment = .error fault) :
    (fault = .crashed ∧ ∃ digits, segment = .mark digits ∧
      draft.pending.length ≤ Double.digitsValue digits) ∨
    ∃ p ∈ draft.pending, ∃ refusal, draft.registry.lookup p.label = .error refusal ∧
      fault = s.annotate refusal.toFault p.file Directive.reference.name p.line := by
  cases segment with
  | literal c => cases h
  | mark digits =>
    rw [resolveSegment] at h
    split at h
    · next hnone =>
      exact .inl ⟨(Except.error.inj h).symm, digits, rfl, List.getElem?_eq_none_iff.1 hnone⟩
    · next p hp =>
      split at h
      · cases h
      · next refusal hlookup =>
        exact .inr ⟨p, List.mem_of_getElem? hp, refusal, hlookup, (Except.error.inj h).symm⟩

/-- References fail to be resolved because of one of the marks in the text. -/
theorem fault_of_resolveReferences {s : Setting} {draft : Draft} {text : Bytes} {fault : Fault}
    (h : resolveReferences s draft text = .error fault) :
    (fault = .crashed ∧ ∃ digits, .mark digits ∈ segments text ∧
      draft.pending.length ≤ Double.digitsValue digits) ∨
    ∃ p ∈ draft.pending, ∃ refusal, draft.registry.lookup p.label = .error refusal ∧
      fault = s.annotate refusal.toFault p.file Directive.reference.name p.line := by
  have hmem : .error fault ∈ (segments text).map (resolveSegment s draft) := by
    simp only [resolveReferences] at h
    split at h
    · next hcrash =>
      obtain rfl := Except.error.inj h
      obtain ⟨result, hresult, hiscrash⟩ := List.any_eq_true.1 hcrash
      unfold isCrash at hiscrash
      split at hiscrash
      · exact hresult
      · cases hiscrash
    · cases hresults : ((segments text).map (resolveSegment s draft)).mapM id with
      | ok pieces =>
        rw [hresults] at h
        cases h
      | error f =>
        rw [hresults] at h
        obtain rfl : f = fault := Except.error.inj h
        exact mem_of_mapM_id_error hresults
  obtain ⟨segment, hsegment, hfails⟩ := List.mem_map.1 hmem
  refine (fault_of_resolveSegment hfails).imp_left ?_
  rintro ⟨hcrashed, digits, rfl, hbeyond⟩
  exact ⟨hcrashed, digits, hsegment, hbeyond⟩

theorem finish_of_resolved {s : Setting} {root : Node} {text resolved : Bytes} {draft : Draft}
    (h : resolveReferences s draft text = .ok resolved) :
    finish s root text draft =
      match draft.registry.scanNative resolved with
      | (some refusal, _) => .error refusal.toFault
      | (none, labels) =>
        .ok { lang := s.lang.id, text := resolved, root, labels, resources := draft.resources } := by
  rw [finish, h]
  rfl

theorem finish_of_unresolved {s : Setting} {root : Node} {text : Bytes} {draft : Draft} {fault : Fault}
    (h : resolveReferences s draft text = .error fault) :
    finish s root text draft = .error fault := by
  rw [finish, h]
  rfl

/-! ## Passes -/

/-- The script of a pass whose root document is expanded by a step. -/
def passOf (s : Setting) (root : Pass (Node × Bytes)) : Script (Except Fault Expanded) :=
  (root { registry := { lang := s.lang.id } }).run.bind fun result =>
    let result := result.bind fun ((node, text), draft) => finish s node text draft
    .ask (.count (.pass s.lang.id result.toBool)) fun _ =>
      .done (result.mapError s.withLanguage)

theorem expand_eq_passOf (s : Setting) (root : Bytes) :
    expand s root = passOf s (expandFile s [] root 0) := rfl

/-- What a pass gives that runs alone, for a setting and a root document. -/
def alone (fetch : Repository.Fetcher) (services : Services) (pass : Setting × Bytes) :
    Except Fault Expanded :=
  ((expand pass.1 pass.2).run fetch pass.1.lang.id services).1

end Bindery.Expansion
