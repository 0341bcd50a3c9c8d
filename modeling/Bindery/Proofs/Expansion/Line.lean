import Bindery.Proofs.Directive.Once
import Bindery.Proofs.Expansion.Ledger
import Bindery.Proofs.Expansion.Stray

/-!
# The lines of directives

Which lines a pass gives to the directives that it does. The expansion of a text does the directives that
are counted in it, each at the line it is counted at, and a document that is expanded to its end has done
all of them. The line of a reference is kept with it, and is the one that is shown when its definition is
missing. A directive stands at the line it is counted at when no line is missed on the way to it: when
every directive that it stands inside begins on the line on which the argument around it begins.
-/

namespace Bindery

open Text

namespace Template

/-! ## Calls -/

mutual

/-- The directives of a template with the lines that they are done at, in the order in which they are
done. -/
def calls (line : Nat) : Template → List (Directive × Nat)
  | .text _ => []
  | .malformed _ => []
  | .directive _ inv args _ rest =>
    callsOf (line + inv.line - 1) args ++ (inv.directive, line + inv.line) :: rest.calls line
termination_by structural t => t

def callsOf (line : Nat) : List Template → List (Directive × Nat)
  | [] => []
  | t :: ts => t.calls line ++ callsOf line ts
termination_by structural ts => ts

end

section

variable {P : Directive → Nat → Prop} {M : Malformed → Prop}

mutual

theorem of_mem_calls : (t : Template) → (line : Nat) → t.Each P M line →
    ∀ c ∈ t.calls line, P c.1 c.2
  | .text _, _, _ => by simp [calls]
  | .malformed _, _, _ => by simp [calls]
  | .directive _ inv args _ rest, line, ⟨hhere, hargs, hrest⟩ => by
    rw [calls, List.forall_mem_append, List.forall_mem_cons]
    exact ⟨of_mem_callsOf args _ hargs, hhere, of_mem_calls rest line hrest⟩
termination_by structural t => t

theorem of_mem_callsOf : (ts : List Template) → (line : Nat) → EachOf P M line ts →
    ∀ c ∈ callsOf line ts, P c.1 c.2
  | [], _, _ => by simp [callsOf]
  | t :: ts, line, ⟨ht, hts⟩ => by
    rw [callsOf, List.forall_mem_append]
    exact ⟨of_mem_calls t line ht, of_mem_callsOf ts line hts⟩
termination_by structural ts => ts

end

end

theorem mem_callsOf_map {args : List Bytes} {line : Nat} {c : Directive × Nat} :
    c ∈ callsOf line (args.map ofText) ↔ ∃ arg ∈ args, c ∈ (ofText arg).calls line := by
  induction args with
  | nil => simp [callsOf]
  | cons arg args ih => rw [List.map_cons, callsOf, List.mem_append, ih, List.exists_mem_cons_iff]

/-- A call is that of a directive that a scan finds, or of one in its arguments. -/
theorem mem_calls_ofCursor {c : Cursor} {line : Nat} {call : Directive × Nat} :
    call ∈ (ofCursor c).calls line ↔ ∃ inv ∈ c.scan.1, call = (inv.directive, line + inv.line) ∨
      ∃ arg ∈ inv.args, call ∈ (ofText arg).calls (line + inv.line - 1) := by
  induction hn : c.rest.length using Nat.strongRecOn generalizing c with
  | ind n ih =>
    cases hnext : c.next with
    | done => simp [ofCursor_of_done hnext, calls, Cursor.scan_of_done hnext]
    | malformed bad => simp [ofCursor_of_malformed hnext, calls, Cursor.scan_of_malformed hnext]
    | found before inv after =>
      rw [ofCursor_of_found hnext, calls, List.mem_append, List.mem_cons, mem_callsOf_map,
        ih after.rest.length (hn ▸ (Cursor.next_found hnext).2) rfl, Cursor.scan_of_found hnext,
        List.exists_mem_cons_iff, ← or_assoc, or_comm (a := ∃ arg ∈ inv.args, _)]

/-- **The calls of a text are the directives that are counted in it.** -/
theorem mem_calls_ofText {text : Bytes} {line : Nat} {call : Directive × Nat} :
    call ∈ (ofText text).calls line ↔
      ∃ i n missed, Counted text i call.1 n missed ∧ call.2 = line + n := by
  constructor
  · exact of_mem_calls _ _ (each_ofText text line) call
  · rintro ⟨i, n, missed, hcounted, hline⟩
    obtain ⟨d, l⟩ := call
    dsimp only at hcounted hline
    subst hline
    induction hcounted generalizing line with
    | here h => exact mem_calls_ofCursor.2 ⟨_, h, .inl rfl⟩
    | @inside text arg inv offset i n missed d h harg hinner ih =>
      obtain ⟨front, others, _, _, _, hargs, -⟩ := harg
      have hmem : arg ∈ inv.args := hargs ▸ List.mem_append_right _ List.mem_cons_self
      have hpos := (standsIn_of_mem_scan h).line_pos
      have hline : line + (inv.line + n - 1) = line + inv.line - 1 + n := by omega
      exact mem_calls_ofCursor.2 ⟨inv, h, .inr ⟨arg, hmem, hline ▸ ih⟩⟩

/-! ## Expansions that agree -/

section

variable {m : Type → Type} [Monad m] [MonadExceptOf Fault m]
  {perform perform' : Directive → List Bytes → Nat → m Bytes}

mutual

theorem expand_congr : (t : Template) → (line : Nat) →
    (∀ c ∈ t.calls line, ∀ args, perform c.1 args c.2 = perform' c.1 args c.2) →
    ∀ out, t.expand perform line out = t.expand perform' line out
  | .text _, _, _, _ => rfl
  | .malformed _, _, _, _ => rfl
  | .directive _ inv args _ rest, line, h, out => by
    rw [calls, List.forall_mem_append, List.forall_mem_cons] at h
    obtain ⟨hargs, hhere, hrest⟩ := h
    rw [expand, expand, expandAll_congr args _ hargs]
    congr
    funext args
    rw [hhere]
    congr
    funext output
    exact expand_congr rest line hrest _
termination_by structural t => t

theorem expandAll_congr : (ts : List Template) → (line : Nat) →
    (∀ c ∈ callsOf line ts, ∀ args, perform c.1 args c.2 = perform' c.1 args c.2) →
    expandAll perform line ts = expandAll perform' line ts
  | [], _, _ => rfl
  | t :: ts, line, h => by
    rw [callsOf, List.forall_mem_append] at h
    rw [expandAll, expandAll, expand_congr t line h.1, expandAll_congr ts line h.2]
termination_by structural ts => ts

end

end

end Template

namespace Expansion

open Repository (Fetcher)

/-! ## Steps that do no directive -/

/-- A request that tells neither of a document that is opened nor of a directive that is done. -/
def Request.Plain : Request → Prop
  | .note (.opened ..) => False
  | .note (.performed ..) => False
  | _ => True

/-- A conduct that heeds only which documents are opened and which directives are done. -/
structure Conduct.HeedsNotes (C : Conduct) : Prop where
  draft : ∀ d d', C.ok d [] d'
  fault : ∀ d fault, C.fail d [] fault
  refault : ∀ d trace fault fault', C.fail d trace fault → C.fail d trace fault'
  plain : ∀ d request answer, Request.Plain request → C.ok d [⟨request, answer⟩] d

namespace Conduct.HeedsNotes

variable {C : Conduct} {s : Setting}

section

variable (h : C.HeedsNotes)

include h

theorem always_throw {α : Type} (fault : Fault) : C.Always (throw fault : Pass α) :=
  Conduct.always_throw fun d => h.fault d fault

theorem always_require {α : Type} (result : Except Fault α) : C.Always (Pass.require result) :=
  Conduct.always_require fun d fault _ => h.fault d fault

theorem always_ask {request : Request} (hplain : request.Plain) : C.Always (Pass.ask request) :=
  Conduct.always_ask fun d answer _ => h.plain d request answer hplain

theorem always_modify (f : Draft → Draft) : C.Always (modify f : Pass PUnit) :=
  Conduct.always_modify fun d => h.draft d (f d)

theorem always_define (kind key : Bytes) : C.Always (define kind key) := by
  refine always_get_bind fun d => ?_
  split
  · exact h.always_throw _ d
  · exact Holds.bind (Q := fun _ _ => True) (holds_set (h.draft _ _) trivial) fun _ _ _ _ _ => holds_pure trivial

theorem always_projectCheckout : C.Always s.projectCheckout :=
  Conduct.always_projectCheckout s (fun d => h.draft d _) fun d _ => h.plain d _ _ trivial

theorem always_listing (path url : Bytes) (r : ListingRequest) : C.Always (listing s path url r) :=
  (h.always_require _).bind fun _ => (h.always_ask (by trivial)).bind fun _ =>
    (h.always_require _).bind fun _ => (h.always_define _ _).bind fun _ => always_pure _

theorem always_localListing (dir file : Bytes) (r : ListingRequest) :
    C.Always (localListing s dir file r) :=
  (h.always_require _).bind fun path => h.always_projectCheckout.bind fun _ =>
    h.always_listing path _ r

theorem always_repositoryListing (mnemonic file : Bytes) (r : ListingRequest) :
    C.Always (repositoryListing s mnemonic file r) := by
  have hlisted : C.Always (Pass.ask (.snapshot (trim mnemonic)) >>= fun answer =>
      Pass.require answer >>= fun snapshot =>
      Pass.require ((Resolver.resolveInside s.tree snapshot.root file).mapError (·.toFault)) >>=
        fun path => listing s path ((snapshot.fileLink? path).getD []) r) :=
    (h.always_ask (by trivial)).bind fun answer => (h.always_require answer).bind fun _ =>
      (h.always_require _).bind fun path => h.always_listing path _ r
  rw [repositoryListing]
  split
  · exact h.always_throw _
  · exact hlisted

theorem always_figure (dir label caption file attributes : Bytes) :
    C.Always (figure s dir label caption file attributes) :=
  (h.always_require _).bind fun _ => (h.always_require _).bind fun _ =>
    (h.always_define _ _).bind fun _ => (h.always_modify _).bind fun _ => always_pure _

theorem always_definition (type label body : Bytes) : C.Always (definition type label body) := by
  rw [definition]
  split
  · exact h.always_throw _
  · exact (h.always_ask (by trivial)).bind fun _ => (h.always_modify _).bind fun _ =>
      (h.always_define _ _).bind fun _ => always_get.bind fun _ => always_pure _

theorem always_reference (label file : Bytes) (line : Nat) :
    C.Always (reference label file line) := by
  rw [reference]
  split
  · exact h.always_throw _
  · exact always_get_bind fun d =>
      Holds.bind (Q := fun _ _ => True) (holds_set (h.draft d _) trivial) fun _ _ _ _ _ => holds_pure trivial

theorem always_metadata (key : Bytes) : C.Always (metadata s key) :=
  Conduct.always_metadata s key (fun d fault _ _ => h.fault d fault) h.always_projectCheckout
    fun _ => (h.always_ask (by trivial)).bind fun answer => h.always_require answer

/-- What a directive does that includes nothing is heeded by no such conduct. -/
theorem always_effect {path : Bytes} {input : Bytes → Pass Bytes} (hinput : ∀ name, C.Always (input name))
    (directive : Directive) (args : List Bytes) (line : Nat) :
    C.Always (effect s path input directive args line) := by
  cases directive with
  | input => exact hinput _
  | code => exact h.always_localListing _ _ _
  | relativeCode => exact h.always_localListing _ _ _
  | gitCode => exact h.always_repositoryListing _ _ _
  | figure => exact h.always_figure _ _ _ _ _
  | definition => exact h.always_definition _ _ _
  | reference => exact h.always_reference _ _ _
  | metadata => exact h.always_metadata _

theorem always_perform {path : Bytes} {input : Bytes → Pass Bytes} (hinput : ∀ name, C.Always (input name))
    {directive : Directive} {args : List Bytes} {line : Nat}
    (hnote : ∀ d output, C.ok d [⟨.note (.performed path line directive args output), ()⟩] d) :
    C.Always (perform s path input directive args line) := by
  rw [perform_eq]
  have heffect : C.Always (Pass.mapFault (s.annotate · path directive.name line)
      (effect s path input directive args line)) := fun d =>
    holds_mapFault (h.always_effect hinput directive args line d) fun trace fault =>
      h.refault d trace fault _
  exact (h.always_ask (by trivial)).bind fun _ => heffect.bind fun output =>
    (h.always_ask (by trivial)).bind fun _ => (Conduct.always_ask fun d _ _ => hnote d output).bind fun _ => always_pure _

theorem always_inclusion {chain : List Bytes} {path : Bytes} {expandChild : Bytes → Pass (Node × Bytes)}
    (hchild : ∀ child, s.Includes path child → C.Always (expandChild child)) (name : Bytes) :
    C.Always (inclusionWith s chain path expandChild name) := fun d =>
  holds_require_mapError_bind (fun _ => h.fault d _) fun child hresolved =>
    ((h.always_ask (by trivial)).bind fun _ => (hchild child ⟨name, hresolved⟩).bind fun _ =>
      (h.always_modify _).bind fun _ => always_pure _) d

theorem always_declareMetadata (path text : Bytes) : C.Always (declareMetadata s path text) := by
  rw [declareMetadata]
  split
  · exact h.always_throw _
  · exact always_pure _
  · exact h.always_ask (by trivial)

end

end Conduct.HeedsNotes

/-! ## Directives that are done are counted -/

section Sited

variable {s : Setting} {whole : List Exchange}

/-- The conduct of steps that do only directives which are counted in a document that was opened. -/
def siting (s : Setting) (whole : List Exchange) : Conduct where
  given e := e ∈ whole
  ok _ trace _ := ∀ p ∈ performances trace, Sited s whole p.path p.directive p.line
  fail _ trace _ := ∀ p ∈ performances trace, Sited s whole p.path p.directive p.line
  refl _ := by simp
  trans h h' := by
    rw [performances_append]
    exact List.forall_mem_append.2 ⟨h, h'⟩
  fail_trans h h' := by
    rw [performances_append]
    exact List.forall_mem_append.2 ⟨h, h'⟩

theorem performances_of_plain {request : Request} (answer : request.Answer) (h : request.Plain) :
    performances [⟨request, answer⟩] = [] := by
  cases request with
  | note event =>
    cases event with
    | performed path line directive args output => exact h.elim
    | _ => rfl
  | _ => rfl

theorem heedsNotes_siting : (siting s whole).HeedsNotes where
  draft _ _ := by simp [siting]
  fault _ _ := by simp [siting]
  refault _ _ _ _ h := h
  plain _ request answer h := by simp [siting, performances_of_plain answer h]

/-- A document that was read does directives that are counted in it, or in a document it includes. -/
theorem sited_document {chain : List Bytes} {path text : Bytes} {depth : Nat}
    (hread : s.tree.read path = .ok text)
    (hchild : ∀ child, s.Includes path child →
      (siting s whole).Always (expandFile s (chain ++ [path]) child (depth + 1))) :
    (siting s whole).Always
      (documentWith s chain path depth text (expandText s (chain ++ [path]) path depth 0 text)) := by
  have h : (siting s whole).HeedsNotes := heedsNotes_siting
  intro d
  refine Conduct.Holds.bind (Q := fun _ _ => Notes whole (.opened chain path text)) ?_
    fun _ d' _ _ hopened => ?_
  · exact Conduct.holds_ask fun _ hgiven => ⟨List.forall_mem_nil _, hgiven⟩
  · have htext : (siting s whole).Always (expandText s (chain ++ [path]) path depth 0 text) := by
      intro d
      refine Conduct.holds_expand_each ?_ (fun bad _ d => h.fault d bad.toFault) _ 0
        (Template.each_ofText text 0) [] d
      rintro directive line ⟨i, n, missed, hcounted, rfl⟩ args
      refine h.always_perform (h.always_inclusion hchild) fun d output p hp => ?_
      rw [Nat.zero_add] at hp
      obtain rfl := List.mem_singleton.1 hp
      exact ⟨chain, text, i, missed, hopened, hread, hcounted⟩
    refine ((h.always_declareMetadata path text).bind fun _ => Conduct.always_get.bind fun _ =>
      (h.always_modify _).bind fun _ => htext.bind fun _ => Conduct.always_get.bind fun _ =>
        (h.always_modify _).bind fun _ => (h.always_ask ?_).bind fun _ => Conduct.always_pure _) d'
    trivial

/-- **Documents** do only directives that are counted where they stand. -/
theorem sited_expandFile (chain : List Bytes) (path : Bytes) (depth : Nat) :
    (siting s whole).Always (expandFile s chain path depth) := by
  refine expandFile_induction (motive := fun _ _ _ x => (siting s whole).Always x) ?_ ?_ ?_ ?_
    chain path depth
  · exact fun _ _ _ _ => heedsNotes_siting.always_throw _
  · exact fun _ _ _ _ => heedsNotes_siting.always_throw _
  · exact fun _ _ _ _ _ => heedsNotes_siting.always_throw _
  · exact fun _ _ _ _ hread hchild => sited_document hread hchild

end Sited

/-! ## Directives that are counted are done -/

section Done

variable {s : Setting} {path : Bytes} {input : Bytes → Pass Bytes}

/-- A directive of a document was done at a line. -/
def DoneAt (trace : List Exchange) (path : Bytes) (d : Directive) (line : Nat) : Prop :=
  ∃ p ∈ performances trace, p.path = path ∧ p.directive = d ∧ p.line = line

theorem DoneAt.append_left {first : List Exchange} {d : Directive} {line : Nat}
    (h : DoneAt first path d line) (rest : List Exchange) : DoneAt (first ++ rest) path d line := by
  obtain ⟨p, hp, hat⟩ := h
  exact ⟨p, by rw [performances_append]; exact List.mem_append_left _ hp, hat⟩

theorem DoneAt.append_right {rest : List Exchange} {d : Directive} {line : Nat}
    (h : DoneAt rest path d line) (first : List Exchange) : DoneAt (first ++ rest) path d line := by
  obtain ⟨p, hp, hat⟩ := h
  exact ⟨p, by rw [performances_append]; exact List.mem_append_right _ hp, hat⟩

mutual

/-- A template that was expanded to its end has done all its calls. -/
theorem doneAt_of_expand : (t : Template) → (line : Nat) → ∀ {out out' : Bytes} {d d' : Draft}
    {trace : List Exchange}, (t.expand (perform s path input) line out).Runs d trace (.ok (out', d')) →
    ∀ c ∈ t.calls line, DoneAt trace path c.1 c.2
  | .text _, _ => by simp [Template.calls]
  | .malformed _, _ => by simp [Template.calls]
  | .directive _ inv args _ rest, line => by
    intro h
    rw [Template.expand] at h
    obtain ⟨args', d₁, first, more, rfl, hargs, h⟩ := Pass.runs_bind_ok.1 h
    obtain ⟨output, d₂, second, last, rfl, hperform, hrest⟩ := Pass.runs_bind_ok.1 h
    obtain ⟨before, rfl, -⟩ := runs_perform hperform
    rw [Template.calls, List.forall_mem_append, List.forall_mem_cons]
    refine ⟨fun c hc => (doneAt_of_expandAll args _ hargs c hc).append_left _, ?_, fun c hc => ?_⟩
    · have hdone : DoneAt (closing ⟨path, line + inv.line, inv.directive, args', output⟩) path
          inv.directive (line + inv.line) :=
        ⟨_, List.mem_singleton_self _, rfl, rfl, rfl⟩
      exact (((hdone.append_right before).append_right [_]).append_left last).append_right first
    · exact ((doneAt_of_expand rest line hrest c hc).append_right _).append_right first
termination_by structural t => t

theorem doneAt_of_expandAll : (ts : List Template) → (line : Nat) → ∀ {out : List Bytes} {d d' : Draft}
    {trace : List Exchange},
    (Template.expandAll (perform s path input) line ts).Runs d trace (.ok (out, d')) →
    ∀ c ∈ Template.callsOf line ts, DoneAt trace path c.1 c.2
  | [], _ => by simp [Template.callsOf]
  | t :: ts, line => by
    intro h
    rw [Template.expandAll] at h
    obtain ⟨text, d₁, first, more, rfl, ht, h⟩ := Pass.runs_bind_ok.1 h
    obtain ⟨texts, d₂, second, last, rfl, hts, -⟩ := Pass.runs_bind_ok.1 h
    rw [Template.callsOf, List.forall_mem_append]
    exact ⟨fun c hc => (doneAt_of_expand t line ht c hc).append_left _,
      fun c hc => ((doneAt_of_expandAll ts line hts c hc).append_left last).append_right first⟩
termination_by structural ts => ts

end

/-- All directives of the documents that were opened were done, where they are counted. -/
def AllDone (trace : List Exchange) : Prop :=
  ∀ chain path text, Notes trace (.opened chain path text) →
    ∀ c ∈ (Template.ofText text).calls 0, DoneAt trace path c.1 c.2

theorem AllDone.append {first rest : List Exchange} (h : AllDone first) (h' : AllDone rest) :
    AllDone (first ++ rest) := by
  intro chain path text hopened c hc
  rcases List.mem_append.1 hopened with hopened | hopened
  · exact (h chain path text hopened c hc).append_left rest
  · exact (h' chain path text hopened c hc).append_right first

theorem allDone_of_not_opened {e : Exchange} (h : ∀ chain path text, e ≠ ⟨.note (.opened chain path text), ()⟩) :
    AllDone [e] :=
  fun chain path text hopened => absurd (List.mem_singleton.1 hopened).symm (h chain path text)

/-- The conduct of steps that do all directives of the documents they open, unless they fail. -/
def finishing : Conduct where
  given _ := True
  ok _ trace _ := AllDone trace
  fail _ _ _ := True
  refl _ := fun _ _ _ hopened => absurd hopened (by simp [Notes])
  trans := AllDone.append
  fail_trans _ _ := trivial

theorem heedsNotes_finishing : finishing.HeedsNotes where
  draft d _ := finishing.refl d
  fault _ _ := trivial
  refault _ _ _ _ _ := trivial
  plain _ request answer hplain := allDone_of_not_opened fun chain path text heq => by
    cases heq
    exact hplain

/-- A document that was read and is expanded to its end has done all its directives. -/
theorem finishing_document {chain : List Bytes} {text : Bytes} {depth : Nat}
    (hchild : ∀ child, s.Includes path child →
      finishing.Always (expandFile s (chain ++ [path]) child (depth + 1))) :
    finishing.Always
      (documentWith s chain path depth text (expandText s (chain ++ [path]) path depth 0 text)) := by
  have h := heedsNotes_finishing
  have htext : finishing.Always (expandText s (chain ++ [path]) path depth 0 text) := by
    intro d
    refine Conduct.holds_expand_each (P := fun _ _ => True) (M := fun _ => True) ?_
      (fun bad _ d => h.fault d bad.toFault) _ 0
      ((Template.each_ofText text 0).imp (fun _ _ _ => trivial) (fun _ _ => trivial) _ _) [] d
    intro directive line _ args
    exact h.always_perform (h.always_inclusion hchild) fun d output =>
      allDone_of_not_opened fun _ _ _ heq => by cases heq
  intro d trace r hrun _
  rcases r with fault | ⟨result, d'⟩
  · trivial
  rw [documentWith] at hrun
  obtain ⟨rest, rfl, hmeta⟩ := Pass.runs_note_bind.1 hrun
  obtain ⟨_, d₁, first, more, rfl, hdeclare, hmore⟩ := Pass.runs_bind_ok.1 hmeta
  obtain ⟨out, d₂, second, last, rfl, hexpand, hlast⟩ :=
    Pass.runs_bind_ok.1 (Pass.runs_modify_bind.1 (Pass.runs_get_bind.1 hmore))
  obtain ⟨tail, rfl, hend⟩ :=
    Pass.runs_note_bind.1 (Pass.runs_modify_bind.1 (Pass.runs_get_bind.1 hlast))
  obtain ⟨rfl, -⟩ := Pass.runs_pure.1 hend
  have hfirst : AllDone first := (h.always_declareMetadata path text d first _ hdeclare
    fun _ _ => trivial).1
  have hsecond : AllDone second := (htext _ second _ hexpand fun _ _ => trivial).1
  have hclosed : AllDone [⟨.note (.closed path), ()⟩] :=
    allDone_of_not_opened fun _ _ _ heq => by cases heq
  have hrest := hfirst.append (hsecond.append hclosed)
  refine ⟨?_, trivial⟩
  intro chain' path' text' hopened c hc
  rcases List.mem_cons.1 hopened with heq | hopened
  · cases heq
    have hdone := doneAt_of_expand _ 0 hexpand c hc
    exact ((hdone.append_left _).append_right first).append_right [_]
  · exact (hrest chain' path' text' hopened c hc).append_right [_]

/-- **Documents** that are expanded to their end have done all directives that are counted in them. -/
theorem finishing_expandFile (chain : List Bytes) (path : Bytes) (depth : Nat) :
    finishing.Always (expandFile s chain path depth) := by
  refine expandFile_induction (motive := fun _ _ _ x => finishing.Always x) ?_ ?_ ?_ ?_ chain path depth
  · exact fun _ _ _ _ => heedsNotes_finishing.always_throw _
  · exact fun _ _ _ _ => heedsNotes_finishing.always_throw _
  · exact fun _ _ _ _ _ => heedsNotes_finishing.always_throw _
  · exact fun _ _ _ _ _ hchild => finishing_document hchild

end Done

/-! ## Passes -/

section Passes

variable {fetch : Fetcher} {services : Services} {s : Setting} {root : Bytes}

theorem sited_performances :
    ∀ p ∈ performances (conversation fetch services (s, root)),
      Sited s (conversation fetch services (s, root)) p.path p.directive p.line := by
  obtain ⟨trace, r, -, hruns, ⟨event, hconversation⟩, -⟩ := runs_alone fetch services s root
  have hgiven : ∀ e ∈ trace, e ∈ conversation fetch services (s, root) := fun e he =>
    hconversation ▸ List.mem_append_left _ he
  have hmet := sited_expandFile [] root 0 _ trace r hruns hgiven
  have hsame : performances (conversation fetch services (s, root)) = performances trace := by
    rw [hconversation, performances_append]
    exact List.append_nil _
  rw [hsame]
  rcases r with fault | ⟨result, draft⟩
  · exact hmet
  · exact hmet.1

theorem allDone_of_manuscript {result : (Node × Bytes) × Draft}
    (h : manuscript fetch services (s, root) = .ok result) :
    AllDone (conversation fetch services (s, root)) := by
  obtain ⟨trace, r, hr, hruns, ⟨event, hconversation⟩, -⟩ := runs_alone fetch services s root
  obtain rfl := hr.symm.trans h
  have hmet := finishing_expandFile [] root 0 _ trace _ hruns fun _ _ => trivial
  rw [hconversation]
  exact hmet.1.append (allDone_of_not_opened nofun)

/-- What a reference that is not resolved is reported with, unless the pass breaks down. -/
theorem line_of_unresolved {draft : Draft} {text : Bytes} {fault : Fault}
    (h : resolveReferences s draft text = .error fault) (hcrash : fault ≠ .crashed) :
    ∃ p ∈ draft.pending, fault.note? (bytes "file") = some (.str (s.display p.file)) ∧
      fault.note? (bytes "line") = some (.int p.line) := by
  rcases fault_of_resolveReferences h with ⟨rfl, -⟩ | ⟨p, hp, refusal, -, rfl⟩
  · exact absurd rfl hcrash
  · obtain ⟨hfile, hline⟩ := s.note?_annotate refusal.toFault p.file Directive.reference.name p.line
    have hunplaced := refusal.unplaced_toFault
    rw [hunplaced.file] at hfile
    rw [hunplaced.line] at hline
    exact ⟨p, hp, hfile, hline⟩

end Passes

/-- **The lines of directives.** The expansion of a text depends only on what is done for the directives
that are counted in it, at the lines they are counted at. What stands at an offset is counted once, and at
the line of its backslash less the lines that are missed, so at that line exactly if none is missed.

All directives that a pass does are counted at their lines in a document that it has opened. If its
documents are expanded to their end, it has done whatever is counted in them. A reference that is pending
keeps the line it is counted at, and it is with this line that the pass fails if its label cannot be looked
up. -/
theorem lines_of_directives (fetch : Fetcher) (services : Services) (s : Setting) (root : Bytes) :
    (∀ (text : Bytes) (perform perform' : Directive → List Bytes → Nat → Pass Bytes),
      (∀ i d l missed, Counted text i d l missed → ∀ args, perform d args l = perform' d args l) →
      ∀ out, (Template.ofText text).expand perform 0 out =
        (Template.ofText text).expand perform' 0 out) ∧
    (∀ text i d l missed, Counted text i d l missed →
      NamesAt text i d ∧ l + missed = 1 + newlines (text.take i) ∧
      (l = 1 + newlines (text.take i) ↔ missed = 0) ∧
      ∀ d' l' missed', Counted text i d' l' missed' → d = d' ∧ l = l' ∧ missed = missed') ∧
    (∀ p ∈ performances (conversation fetch services (s, root)),
      Sited s (conversation fetch services (s, root)) p.path p.directive p.line) ∧
    ∀ node raw draft, manuscript fetch services (s, root) = .ok ((node, raw), draft) →
      (∀ chain path text i d l missed,
        Notes (conversation fetch services (s, root)) (.opened chain path text) →
        Counted text i d l missed → DoneAt (conversation fetch services (s, root)) path d l) ∧
      (∀ p ∈ draft.pending,
        Sited s (conversation fetch services (s, root)) p.file .reference p.line) ∧
      ∀ fault, resolveReferences s draft raw = .error fault → fault ≠ .crashed →
        ∃ p ∈ draft.pending, fault.note? (bytes "file") = some (.str (s.display p.file)) ∧
          fault.note? (bytes "line") = some (.int p.line) := by
  refine ⟨fun text perform perform' h out => ?_, fun text i d l missed h => ?_, sited_performances,
    fun node raw draft h => ⟨fun chain path text i d l missed hopened hcounted => ?_, sited_pending h,
      fun fault => line_of_unresolved⟩⟩
  · refine Template.expand_congr _ 0 (fun c hc args => ?_) out
    obtain ⟨i, n, missed, hcounted, hline⟩ := Template.mem_calls_ofText.1 hc
    rw [hline, Nat.zero_add]
    exact h i c.1 n missed hcounted args
  · obtain ⟨hnames, -, hline⟩ := h.stands
    exact ⟨hnames, hline, by omega, fun _ _ _ => h.unique⟩
  · exact allDone_of_manuscript h chain path text hopened (d, l)
      (Template.mem_calls_ofText.2 ⟨i, l, missed, hcounted, (Nat.zero_add l).symm⟩)

/-- A text whose reference stands on its third line, in an argument that begins there. -/
def lateText : Bytes := bytes "\\definition\x7btheorem\x7d\n\x7ba\x7d\n\x7bSee \\def.ref\x7bzz\x7d.\x7d\n"

def lateSetting : Setting where
  tree := { entries := [([bytes "b"], .directory), ([bytes "b", bytes "book.md"], .file lateText)] }
  resolver := { root := bytes "/b" }

def late : Except Fault Expanded :=
  alone (fun _ _ => .error .other) {} (lateSetting, bytes "/b/book.md")

def lateConversation : List Exchange :=
  conversation (fun _ _ => .error .other) {} (lateSetting, bytes "/b/book.md")

/-- The lines of the references that are pending when that book is expanded. -/
def lateLines : Option (List Nat) :=
  (manuscript (fun _ _ => .error .other) {} (lateSetting, bytes "/b/book.md")).toOption.map
    fun r => r.2.pending.map (·.line)

/-- The reference is done, kept and reported at line 1. -/
theorem lines_of_directives_late :
    Counted lateText 30 .reference 1 2 ∧ 1 + newlines (lateText.take 30) = 3 ∧
      (performances lateConversation).map (fun p => (p.directive, p.line)) =
        [(.reference, 1), (.definition, 1)] ∧
      lateLines = some [1] ∧ noteText? (bytes "file") late = some (bytes "book.md") ∧
      noteText? (bytes "line") late = some (bytes "1") := by
  have hdone : (performances lateConversation).map (fun p => (p.directive, p.line)) =
      [(.reference, 1), (.definition, 1)] := by decide +kernel
  have hpath : ∀ p ∈ performances lateConversation, p.path = bytes "/b/book.md" := by decide +kernel
  have hnamed : ∀ i < lateText.length, NamesAt lateText i .reference → i = 30 := by decide +kernel
  have hread : (lateSetting.tree.read (bytes "/b/book.md")).toOption = some lateText := by decide +kernel
  have hline : 1 + newlines (lateText.take 30) = 3 := by decide
  refine ⟨?_, hline, hdone, by decide +kernel, by decide +kernel, by decide +kernel⟩
  obtain ⟨-, hstands, hsited, -⟩ :=
    lines_of_directives (fun _ _ => .error .other) {} lateSetting (bytes "/b/book.md")
  have hmem : (.reference, 1) ∈ (performances lateConversation).map fun p => (p.directive, p.line) := by
    rw [hdone]
    exact List.mem_cons_self
  obtain ⟨p, hp, hat⟩ := List.mem_map.1 hmem
  obtain ⟨hdirective, hone⟩ := Prod.mk.inj hat
  obtain ⟨_, text, i, missed, -, hread', hcounted⟩ := hsited p hp
  rw [hpath p hp] at hread'
  rw [hread'] at hread
  obtain rfl := Option.some.inj hread
  rw [hdirective, hone] at hcounted
  obtain ⟨hnames, hmissed, -⟩ := hstands _ _ _ _ _ hcounted
  obtain rfl := hnamed i hnames.lt_length hnames
  obtain rfl : missed = 2 := by omega
  exact hcounted

end Expansion

end Bindery
