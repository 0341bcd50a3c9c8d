import Bindery.Proofs.Directive.Depth
import Bindery.Proofs.Fault.Place

/-!
# What directives leave behind

A directive that includes nothing leaves behind resources, references that are pending, or a fault.
The conduct `tracing` tells where they come from, in terms of the `whole` conversation of a pass: a
resource is the file of a figure, a pending reference is sited where its directive is counted, and a
fault is the directive's `Own`: it was not placed by anything further in, but for the marker of a
listing, which has a line of the listing's source.
-/

namespace Bindery.Expansion

open Text (bytes)

/-! ## Where things come from -/

def Exchange.Refuses (e : Exchange) (fault : Fault) : Prop :=
  match e with
  | ⟨.text _, answer⟩ => (answer : Except Fault Bytes) = .error fault
  | ⟨.snapshot _, answer⟩ => (answer : Except Fault Snapshot) = .error fault
  | _ => False

def Notes (whole : List Exchange) (event : Event) : Prop := ⟨.note event, ()⟩ ∈ whole

/-- The faults of a directive that includes nothing. -/
inductive Own (whole : List Exchange) (fault : Fault) : Prop
  | unplaced (h : fault.Unplaced)
  | answered {e : Exchange} (he : e ∈ whole) (h : e.Refuses fault)
  | marker {path source label : Bytes} {request : Listing.Request} {problem : Listing.MarkerProblem}
    {line : Nat} (hsource : Notes whole (.sourced path source))
    (h : Listing.extract source request = .error (.marker problem label line))
    (hfile : fault.note? (bytes "file") = none) (hline : fault.note? (bytes "line") = some (.int line))

/-- A directive is counted at a line of a document that the pass has opened. -/
def Sited (s : Setting) (whole : List Exchange) (path : Bytes) (d : Directive) (line : Nat) : Prop :=
  ∃ chain text i missed, Notes whole (.opened chain path text) ∧ s.tree.read path = .ok text ∧
    Counted text i d line missed

/-- A resource goes where a figure inside the root of the book lies. -/
def Setting.Shelves (s : Setting) (r : Resource) : Prop :=
  ∃ path shown, s.resolver.relative path = .ok shown ∧ r.target = resourceTarget shown

/-- The conduct of steps that leave behind nothing else, with faults such that `F`. -/
def tracing (s : Setting) (whole : List Exchange) (F : Fault → Prop) : Conduct where
  given e := e ∈ whole
  ok d _ d' := (∀ r ∈ d'.resources, r ∈ d.resources ∨ s.Shelves r) ∧
    ∀ p ∈ d'.pending, p ∈ d.pending ∨ Sited s whole p.file .reference p.line
  fail _ _ fault := F fault
  refl _ := ⟨fun _ h => .inl h, fun _ h => .inl h⟩
  trans h h' := ⟨fun r hr => (h'.1 r hr).elim (h.1 r) .inr, fun p hp => (h'.2 p hp).elim (h.2 p) .inr⟩
  fail_trans _ h := h

/-- A step whose traces are known, whatever the draft. -/
def Traced {α : Type} (s : Setting) (whole : List Exchange) (F : Fault → Prop) (x : Pass α) : Prop :=
  ∀ d, (tracing s whole F).Holds d x fun _ _ => True

section Traced

variable {α β : Type} {s : Setting} {whole : List Exchange} {F : Fault → Prop}

theorem tracing_ok {d d' : Draft} (hresources : d'.resources = d.resources)
    (hpending : d'.pending = d.pending) (trace : List Exchange) : (tracing s whole F).ok d trace d' :=
  ⟨fun _ hr => .inl (hresources ▸ hr), fun _ hp => .inl (hpending ▸ hp)⟩

theorem traced_pure (a : α) : Traced s whole F (pure a : Pass α) := Conduct.always_pure a

theorem traced_throw {fault : Fault} (h : F fault) : Traced s whole F (throw fault : Pass α) :=
  Conduct.always_throw fun _ => h

theorem traced_throw_bind {fault : Fault} (h : F fault) (f : α → Pass β) :
    Traced s whole F (throw fault >>= f) := traced_throw (α := β) h

theorem Traced.bind {x : Pass α} {f : α → Pass β} (hx : Traced s whole F x)
    (hf : ∀ a, Traced s whole F (f a)) : Traced s whole F (x >>= f) := Conduct.Always.bind hx hf

theorem traced_require {result : Except Fault α} (h : ∀ fault, result = .error fault → F fault) :
    Traced s whole F (Pass.require result) := Conduct.always_require fun _ => h

theorem traced_require_mapError {ε : Type} {result : Except ε α} {toFault : ε → Fault}
    (h : ∀ refusal, result = .error refusal → F (toFault refusal)) :
    Traced s whole F (Pass.require (result.mapError toFault)) :=
  Conduct.always_require_mapError fun _ => h

/-- What follows a requirement knows what was required. -/
theorem traced_require_mapError_bind {ε : Type} {result : Except ε α} {toFault : ε → Fault}
    {f : α → Pass β} (h : ∀ refusal, F (toFault refusal))
    (hf : ∀ a, result = .ok a → Traced s whole F (f a)) :
    Traced s whole F (Pass.require (result.mapError toFault) >>= f) := fun d =>
  Conduct.holds_require_mapError_bind h fun a ha => hf a ha d

theorem traced_ask_bind {request : Request} {f : request.Answer → Pass β}
    (hf : ∀ answer, ⟨request, answer⟩ ∈ whole → Traced s whole F (f answer)) :
    Traced s whole F (Pass.ask request >>= f) := fun _ =>
  Conduct.Holds.bind (Q := fun answer _ => ⟨request, answer⟩ ∈ whole)
    (Conduct.holds_ask fun _ he => ⟨tracing_ok rfl rfl _, he⟩) fun answer d' _ _ he => hf answer he d'

theorem traced_ask (request : Request) : Traced s whole F (Pass.ask request) :=
  Conduct.always_ask fun _ _ _ => tracing_ok rfl rfl _

theorem traced_get : Traced s whole F (get : Pass Draft) := Conduct.always_get

theorem traced_get_bind {f : Draft → Pass β}
    (hf : ∀ d, (tracing s whole F).Holds d (f d) fun _ _ => True) : Traced s whole F (get >>= f) :=
  Conduct.always_get_bind hf

theorem traced_modify {f : Draft → Draft} (hresources : ∀ d, (f d).resources = d.resources)
    (hpending : ∀ d, (f d).pending = d.pending) : Traced s whole F (modify f : Pass PUnit) :=
  Conduct.always_modify fun d => tracing_ok (hresources d) (hpending d) _

/-- What is done to the faults of a step, given the run that failed. -/
theorem Traced.mapFault {G : Fault → Prop} {x : Pass α} (hx : Traced s whole F x) {f : Fault → Fault}
    (h : ∀ d trace fault, (∀ e ∈ trace, e ∈ whole) → x.Runs d trace (.error fault) → F fault →
      G (f fault)) : Traced s whole G (Pass.mapFault f x) := by
  intro d trace r hrun hgiven
  obtain ⟨r', hrun', rfl⟩ := Pass.runs_mapFault.1 hrun
  have hmet := hx d trace r' hrun' hgiven
  rcases r' with fault | ⟨a, d'⟩
  · exact h d trace fault hgiven hrun' hmet
  · exact hmet

end Traced

/-! ## Directives -/

section Directives

variable {s : Setting} {whole : List Exchange}

theorem traced_define (kind key : Bytes) : Traced s whole (Own whole) (define kind key) := by
  refine traced_get_bind fun d => ?_
  split
  · next refusal _ => exact traced_throw (.unplaced refusal.unplaced_toFault) d
  · next number registry _ =>
    refine Conduct.Holds.bind (Q := fun _ _ => True) ?_ fun _ d' _ _ _ => traced_pure number d'
    exact Conduct.holds_set ⟨fun _ hr => .inl hr, fun _ hp => .inl hp⟩ trivial

theorem traced_projectCheckout : Traced s whole (Own whole) s.projectCheckout :=
  Conduct.always_projectCheckout s (fun _ => tracing_ok (F := Own whole) rfl rfl [])
    fun _ record => tracing_ok (F := Own whole) rfl rfl [⟨.log record, ()⟩]

/-- A listing whose source was read fails by itself, or at a marker of the source. -/
theorem own_of_extract {path source : Bytes} (hsource : Notes whole (.sourced path source))
    {request : Listing.Request} {refusal : Listing.Refusal}
    (h : Listing.extract source request = .error refusal) (shown : Value) :
    Own whole (refusal.toFault.withDefault (bytes "path") shown) := by
  have hkeys : bytes "file" ≠ bytes "path" ∧ bytes "line" ≠ bytes "path" := by decide
  rcases refusal.place_toFault with hunplaced | ⟨problem, label, line, rfl⟩
  · exact .unplaced (hunplaced.withDefault shown hkeys)
  · obtain ⟨hfile, hline⟩ := Listing.Refusal.note?_marker problem label line
    exact .marker hsource h ((Fault.note?_withDefault _ _ _ hkeys.1).trans hfile)
      ((Fault.note?_withDefault _ _ _ hkeys.2).trans hline)

theorem traced_listing (path url : Bytes) (r : ListingRequest) :
    Traced s whole (Own whole) (listing s path url r) := by
  refine Traced.bind (traced_require_mapError fun _ _ => ?_) fun source => ?_
  · exact .unplaced (Fault.unplaced_classified rfl rfl)
  · refine traced_ask_bind fun _ hsource => ?_
    refine Traced.bind (traced_require_mapError fun refusal h => ?_) fun body => ?_
    · exact own_of_extract hsource h _
    · exact Traced.bind (traced_define _ _) fun _ => traced_pure _

theorem traced_localListing (dir file : Bytes) (r : ListingRequest) :
    Traced s whole (Own whole) (localListing s dir file r) := by
  refine Traced.bind (traced_require_mapError fun refusal _ => ?_) fun path => ?_
  · exact .unplaced refusal.unplaced_toFault
  · exact Traced.bind traced_projectCheckout fun checkout => traced_listing path _ r

theorem traced_repositoryListing (mnemonic file : Bytes) (r : ListingRequest) :
    Traced s whole (Own whole) (repositoryListing s mnemonic file r) := by
  rw [repositoryListing]
  split
  · exact traced_throw_bind (.unplaced (Fault.unplaced_classified rfl rfl)) _
  · refine traced_ask_bind fun answer he => ?_
    refine Traced.bind (traced_require fun fault h => .answered he h) fun snapshot => ?_
    refine Traced.bind (traced_require_mapError fun refusal _ => ?_) fun path => ?_
    · exact .unplaced refusal.unplaced_toFault
    · exact traced_listing path _ r

theorem traced_figure (dir label caption file attributes : Bytes) :
    Traced s whole (Own whole) (figure s dir label caption file attributes) := by
  refine Traced.bind (traced_require_mapError fun refusal _ => ?_) fun path => ?_
  · exact .unplaced refusal.unplaced_toFault
  · refine traced_require_mapError_bind (fun refusal => .unplaced refusal.unplaced_toFault)
      fun shown hshown => ?_
    refine Traced.bind (traced_define _ _) fun _ => ?_
    refine Traced.bind (fun d => ?_) fun _ => traced_pure _
    refine Conduct.holds_modify ⟨fun r hr => ?_, fun p hp => ?_⟩ trivial
    · split at hr
      · exact .inl hr
      · rcases List.mem_append.1 hr with hr | hr
        · exact .inl hr
        · rw [List.mem_singleton.1 hr]
          exact .inr ⟨path, shown, hshown, rfl⟩
    · split at hp
      · exact .inl hp
      · exact .inl hp

theorem traced_definition (type label body : Bytes) :
    Traced s whole (Own whole) (definition type label body) := by
  rw [definition]
  split
  · exact traced_throw_bind (.unplaced (Fault.unplaced_classified rfl rfl)) _
  · refine traced_ask_bind fun title _ => ?_
    refine Traced.bind (traced_modify (fun _ => ?_) fun _ => ?_) fun _ => ?_
    · rfl
    · rfl
    · refine Traced.bind (traced_define _ _) fun number => ?_
      exact Traced.bind traced_get fun d => traced_pure _

theorem traced_reference {label file : Bytes} {line : Nat}
    (hsite : Sited s whole file .reference line) :
    Traced s whole (Own whole) (reference label file line) := by
  rw [reference]
  split
  · exact traced_throw_bind (.unplaced (Fault.unplaced_classified rfl rfl)) _
  · refine traced_get_bind fun d => ?_
    refine Conduct.Holds.bind (Q := fun _ _ => True) ?_ fun _ d' _ _ _ => traced_pure _ d'
    refine Conduct.holds_set ⟨fun _ hr => .inl hr, fun p hp => ?_⟩ trivial
    rcases List.mem_append.1 hp with hp | hp
    · exact .inl hp
    · rw [List.mem_singleton.1 hp]
      exact .inr hsite

theorem traced_metadata (key : Bytes) : Traced s whole (Own whole) (metadata s key) :=
  Conduct.always_metadata s key (fun _ _ _ hunplaced => .unplaced hunplaced) traced_projectCheckout
    fun _ => traced_ask_bind fun _ he => traced_require fun _ h => .answered he h

end Directives

end Bindery.Expansion
