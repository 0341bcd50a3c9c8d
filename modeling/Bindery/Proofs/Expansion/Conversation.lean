import Mathlib.Data.List.Basic
import Bindery.Proofs.Expansion.Equations
import Bindery.Proofs.Fault.Place

/-!
# Conversations

What a pass does is seen in its conversation with the shared services: the requests it makes and the
answers it gets. `Script.Runs` tells which conversations lead a script to which result, whatever the
services are like; the run of a pass alone is one of them (`Script.runs_run`).

Most of what is shown of a pass holds of each of its steps and of steps put together. A `Conduct` is
such a property, and `Conduct.Holds` has a rule for each way of making a step. The rule for templates
carries a conduct from the directives of a text to its expansion.
-/

namespace Bindery.Expansion

open Repository (Fetcher)

/-! ## Scripts -/

/-- A request with its answer. -/
structure Exchange where
  request : Request
  answer : request.Answer

namespace Script

variable {α β : Type}

/-- A conversation that leads a script to a result. -/
inductive Runs : Script α → List Exchange → α → Prop
  | done (a : α) : Runs (.done a) [] a
  | ask {request : Request} {next : request.Answer → Script α} {answer : request.Answer}
      {trace : List Exchange} {a : α} (h : Runs (next answer) trace a) :
      Runs (.ask request next) (⟨request, answer⟩ :: trace) a

theorem runs_done {a b : α} {trace : List Exchange} :
    Runs (.done a) trace b ↔ trace = [] ∧ b = a := by
  constructor
  · intro h
    cases h
    exact ⟨rfl, rfl⟩
  · rintro ⟨rfl, rfl⟩
    exact .done _

theorem runs_ask {request : Request} {next : request.Answer → Script α} {trace : List Exchange}
    {a : α} :
    Runs (.ask request next) trace a ↔
      ∃ answer rest, trace = ⟨request, answer⟩ :: rest ∧ Runs (next answer) rest a := by
  constructor
  · intro h
    cases h with
    | ask h => exact ⟨_, _, rfl, h⟩
  · rintro ⟨answer, rest, rfl, h⟩
    exact .ask h

theorem runs_bind {x : Script α} {f : α → Script β} {trace : List Exchange} {b : β} :
    Runs (x.bind f) trace b ↔
      ∃ a first rest, trace = first ++ rest ∧ Runs x first a ∧ Runs (f a) rest b := by
  induction x generalizing trace with
  | done a =>
    constructor
    · intro h
      exact ⟨a, [], trace, rfl, .done a, h⟩
    · rintro ⟨a', first, rest, rfl, hfirst, hrest⟩
      obtain ⟨rfl, rfl⟩ := runs_done.1 hfirst
      exact hrest
  | ask request next ih =>
    rw [bind, runs_ask]
    constructor
    · rintro ⟨answer, rest, rfl, h⟩
      obtain ⟨a, first, rest, rfl, hfirst, hrest⟩ := (ih answer).1 h
      exact ⟨a, _, rest, rfl, .ask hfirst, hrest⟩
    · rintro ⟨a, first, rest, rfl, hfirst, hrest⟩
      obtain ⟨answer, first, rfl, hnext⟩ := runs_ask.1 hfirst
      exact ⟨answer, first ++ rest, rfl, (ih answer).2 ⟨a, first, rest, rfl, hnext, hrest⟩⟩

/-- The conversation of a script that runs alone. -/
def exchanges (fetch : Fetcher) (lang : Bytes) : Script α → Services → List Exchange
  | .done _, _ => []
  | .ask request next, s =>
    ⟨request, (s.answer fetch lang request).1⟩ ::
      (next (s.answer fetch lang request).1).exchanges fetch lang (s.answer fetch lang request).2

theorem runs_run (fetch : Fetcher) (lang : Bytes) (x : Script α) (s : Services) :
    Runs x (x.exchanges fetch lang s) (x.run fetch lang s).1 := by
  induction x generalizing s with
  | done a => exact .done a
  | ask request next ih => exact .ask (ih _ _)

theorem run_bind (fetch : Fetcher) (lang : Bytes) (x : Script α) (f : α → Script β) (s : Services) :
    (x.bind f).run fetch lang s =
      (f (x.run fetch lang s).1).run fetch lang (x.run fetch lang s).2 := by
  induction x generalizing s with
  | done a => rfl
  | ask request next ih => exact ih _ _

theorem exchanges_bind (fetch : Fetcher) (lang : Bytes) (x : Script α) (f : α → Script β)
    (s : Services) :
    (x.bind f).exchanges fetch lang s = x.exchanges fetch lang s ++
      (f (x.run fetch lang s).1).exchanges fetch lang (x.run fetch lang s).2 := by
  induction x generalizing s with
  | done a => rfl
  | ask request next ih => exact congrArg _ (ih _ _)

end Script

/-! ## Steps of a pass -/

namespace Pass

variable {α β : Type} {d : Draft} {trace : List Exchange}

/-- A conversation that leads a step from a draft to a result. -/
def Runs (x : Pass α) (d : Draft) (trace : List Exchange) (r : Except Fault (α × Draft)) : Prop :=
  Script.Runs (x d).run trace r

theorem runs_pure {a : α} {r : Except Fault (α × Draft)} :
    Runs (pure a) d trace r ↔ trace = [] ∧ r = .ok (a, d) := Script.runs_done

theorem runs_throw {fault : Fault} {r : Except Fault (α × Draft)} :
    Runs (throw fault) d trace r ↔ trace = [] ∧ r = .error fault := Script.runs_done

theorem runs_bind {x : Pass α} {f : α → Pass β} {r : Except Fault (β × Draft)} :
    Runs (x >>= f) d trace r ↔
      (∃ fault, Runs x d trace (.error fault) ∧ r = .error fault) ∨
      ∃ a d' first rest, trace = first ++ rest ∧ Runs x d first (.ok (a, d')) ∧
        Runs (f a) d' rest r := by
  have hbind : ((x >>= f) d).run = (x d).run.bind fun
      | .ok (a, d') => ((f a) d').run
      | .error fault => .done (.error fault) := by
    change (x d).run.bind _ = _
    congr 1
    funext r
    rcases r with fault | ⟨a, d'⟩ <;> rfl
  rw [Runs, hbind, Script.runs_bind]
  constructor
  · rintro ⟨r', first, rest, rfl, hfirst, hrest⟩
    rcases r' with fault | ⟨a, d'⟩
    · obtain ⟨rfl, rfl⟩ := Script.runs_done.1 hrest
      exact .inl ⟨fault, by rwa [List.append_nil], rfl⟩
    · exact .inr ⟨a, d', first, rest, rfl, hfirst, hrest⟩
  · rintro (⟨fault, h, rfl⟩ | ⟨a, d', first, rest, rfl, hfirst, hrest⟩)
    · exact ⟨.error fault, trace, [], by rw [List.append_nil], h, .done _⟩
    · exact ⟨.ok (a, d'), first, rest, rfl, hfirst, hrest⟩

theorem runs_ask {request : Request} {r : Except Fault (request.Answer × Draft)} :
    Runs (ask request) d trace r ↔ ∃ answer, trace = [⟨request, answer⟩] ∧ r = .ok (answer, d) := by
  rw [Runs]
  constructor
  · intro h
    obtain ⟨answer, rest, rfl, hdone⟩ := Script.runs_ask.1 h
    obtain ⟨rfl, rfl⟩ := Script.runs_done.1 hdone
    exact ⟨answer, rfl, rfl⟩
  · rintro ⟨answer, rfl, rfl⟩
    exact .ask (.done _)

theorem runs_get_bind {f : Draft → Pass β} {r : Except Fault (β × Draft)} :
    Runs (get >>= f) d trace r ↔ Runs (f d) d trace r := Iff.rfl

theorem runs_modify_bind {g : Draft → Draft} {f : PUnit → Pass β} {r : Except Fault (β × Draft)} :
    Runs (modify g >>= f) d trace r ↔ Runs (f ⟨⟩) (g d) trace r := Iff.rfl

theorem runs_ask_bind {request : Request} {f : request.Answer → Pass β}
    {r : Except Fault (β × Draft)} :
    Runs (ask request >>= f) d trace r ↔
      ∃ answer rest, trace = ⟨request, answer⟩ :: rest ∧ Runs (f answer) d rest r := Script.runs_ask

theorem runs_note_bind {event : Event} {f : Unit → Pass β} {r : Except Fault (β × Draft)} :
    Runs (note event >>= f) d trace r ↔
      ∃ rest, trace = ⟨.note event, ()⟩ :: rest ∧ Runs (f ()) d rest r := by
  refine Script.runs_ask.trans ⟨?_, ?_⟩
  · rintro ⟨answer, rest, htrace, h⟩
    exact ⟨rest, htrace, h⟩
  · rintro ⟨rest, htrace, h⟩
    exact ⟨(), rest, htrace, h⟩

theorem runs_require_bind {result : Except Fault α} {f : α → Pass β} {r : Except Fault (β × Draft)} :
    Runs (require result >>= f) d trace r ↔
      (∃ fault, result = .error fault ∧ trace = [] ∧ r = .error fault) ∨
      ∃ a, result = .ok a ∧ Runs (f a) d trace r := by
  cases result with
  | ok a =>
    constructor
    · intro h
      exact .inr ⟨a, rfl, h⟩
    · rintro (⟨fault, hfault, -⟩ | ⟨a', ha, h⟩)
      · cases hfault
      · cases ha
        exact h
  | error fault =>
    constructor
    · intro h
      obtain ⟨htrace, hr⟩ := Script.runs_done.1 h
      exact .inl ⟨fault, rfl, htrace, hr⟩
    · rintro (⟨fault', hfault, rfl, rfl⟩ | ⟨a, ha, -⟩)
      · cases hfault
        exact .done _
      · cases ha

theorem runs_require_mapError_bind {ε : Type} {result : Except ε α} {toFault : ε → Fault} {f : α → Pass β}
    {r : Except Fault (β × Draft)} :
    Runs (require (result.mapError toFault) >>= f) d trace r ↔
      (∃ refusal, result = .error refusal ∧ trace = [] ∧ r = .error (toFault refusal)) ∨
      ∃ a, result = .ok a ∧ Runs (f a) d trace r := by
  rw [runs_require_bind]
  cases result with
  | ok a => simp [Except.mapError]
  | error refusal => simp [Except.mapError]

theorem runs_bind_ok {x : Pass α} {f : α → Pass β} {b : β} {d' : Draft} :
    Runs (x >>= f) d trace (.ok (b, d')) ↔
      ∃ a d₁ first rest, trace = first ++ rest ∧ Runs x d first (.ok (a, d₁)) ∧
        Runs (f a) d₁ rest (.ok (b, d')) := by
  rw [runs_bind]
  constructor
  · rintro (⟨fault, -, hfault⟩ | h)
    · cases hfault
    · exact h
  · exact .inr

theorem runs_require_bind_ok {result : Except Fault α} {f : α → Pass β} {b : β} {d' : Draft} :
    Runs (require result >>= f) d trace (.ok (b, d')) ↔
      ∃ a, result = .ok a ∧ Runs (f a) d trace (.ok (b, d')) := by
  rw [runs_require_bind]
  constructor
  · rintro (⟨fault, -, -, hfault⟩ | h)
    · cases hfault
    · exact h
  · exact .inr

theorem runs_mapFault {f : Fault → Fault} {x : Pass α} {r : Except Fault (α × Draft)} :
    Runs (mapFault f x) d trace r ↔ ∃ r', Runs x d trace r' ∧ r = r'.mapError f := by
  rw [Runs]
  change Script.Runs ((x d).run.bind _) trace r ↔ _
  rw [Script.runs_bind]
  constructor
  · rintro ⟨r', first, rest, rfl, hfirst, hrest⟩
    obtain ⟨rfl, rfl⟩ := Script.runs_done.1 hrest
    exact ⟨r', by rwa [List.append_nil], rfl⟩
  · rintro ⟨r', h, rfl⟩
    exact ⟨r', trace, [], by rw [List.append_nil], h, .done _⟩

end Pass

/-! ## Passes -/

/-- The conversation of a pass that runs alone, for a setting and a root document. -/
def conversation (fetch : Fetcher) (services : Services) (pass : Setting × Bytes) : List Exchange :=
  (expand pass.1 pass.2).exchanges fetch pass.1.lang.id services

/-- What the expansion of the root document gives in a pass that runs alone, before references are
resolved and labels numbered. -/
def manuscript (fetch : Fetcher) (services : Services) (pass : Setting × Bytes) :
    Except Fault ((Node × Bytes) × Draft) :=
  (((expandFile pass.1 [] pass.2 0) { registry := { lang := pass.1.lang.id } }).run.run fetch
    pass.1.lang.id services).1

theorem runs_conversation (fetch : Fetcher) (services : Services) (s : Setting) (root : Bytes) :
    (expand s root).Runs (conversation fetch services (s, root)) (alone fetch services (s, root)) :=
  Script.runs_run fetch s.lang.id (expand s root) services

/-- Whatever the services answer, a pass expands its root document, and then resolves references and
numbers labels. -/
theorem runs_expand {s : Setting} {root : Bytes} {trace : List Exchange} {result : Except Fault Expanded}
    (h : (expand s root).Runs trace result) :
    ∃ first r event, (expandFile s [] root 0).Runs { registry := { lang := s.lang.id } } first r ∧
      trace = first ++ [⟨.count event, ()⟩] ∧
      result = (r.bind fun ((node, text), draft) => finish s node text draft).mapError
        s.withLanguage := by
  obtain ⟨r, first, rest, rfl, hfirst, hrest⟩ := Script.runs_bind.1 h
  obtain ⟨answer, rest, rfl, hdone⟩ := Script.runs_ask.1 hrest
  obtain ⟨rfl, rfl⟩ := Script.runs_done.1 hdone
  exact ⟨first, r, _, hfirst, rfl, rfl⟩

theorem runs_alone (fetch : Fetcher) (services : Services) (s : Setting) (root : Bytes) :
    ∃ trace r, manuscript fetch services (s, root) = r ∧
      (expandFile s [] root 0).Runs { registry := { lang := s.lang.id } } trace r ∧
      (∃ event, conversation fetch services (s, root) = trace ++ [⟨.count event, ()⟩]) ∧
      alone fetch services (s, root) =
        (r.bind fun ((node, text), draft) => finish s node text draft).mapError s.withLanguage := by
  refine ⟨_, _, rfl, Script.runs_run fetch s.lang.id _ services,
    ⟨_, Script.exchanges_bind fetch s.lang.id _ _ services⟩, ?_⟩
  exact congrArg Prod.fst (Script.run_bind fetch s.lang.id _ _ services)

/-! ## Conduct -/

/-- A way for steps to behave. Of conversations whose exchanges are as `given`, `ok` says what may
happen on the way from one draft to another, and `fail` what may happen before a fault. -/
structure Conduct where
  given : Exchange → Prop
  ok : Draft → List Exchange → Draft → Prop
  fail : Draft → List Exchange → Fault → Prop
  refl : ∀ d, ok d [] d
  trans : ∀ {d d' d'' first rest}, ok d first d' → ok d' rest d'' → ok d (first ++ rest) d''
  fail_trans : ∀ {d d' first rest fault}, ok d first d' → fail d' rest fault →
    fail d (first ++ rest) fault

namespace Conduct

variable {α β : Type} {C : Conduct} {d : Draft}

/-- What a step must do to behave: in whatever way it ends. `Q` is what is asked of its result and of
the draft it leaves. -/
def Met (C : Conduct) (Q : α → Draft → Prop) (d : Draft) (trace : List Exchange) :
    Except Fault (α × Draft) → Prop
  | .ok (a, d') => C.ok d trace d' ∧ Q a d'
  | .error fault => C.fail d trace fault

/-- A step that behaves from a draft on, with a result such that `Q`. -/
def Holds (C : Conduct) (d : Draft) (x : Pass α) (Q : α → Draft → Prop) : Prop :=
  ∀ trace r, x.Runs d trace r → (∀ e ∈ trace, C.given e) → C.Met Q d trace r

theorem Holds.imp {x : Pass α} {Q R : α → Draft → Prop} (h : C.Holds d x Q)
    (himp : ∀ a d', Q a d' → R a d') : C.Holds d x R := by
  intro trace r hrun hgiven
  have hmet := h trace r hrun hgiven
  rcases r with fault | ⟨a, d'⟩
  · exact hmet
  · exact ⟨hmet.1, himp a d' hmet.2⟩

theorem Holds.mono {D : Conduct} {x : Pass α} {Q : α → Draft → Prop} (h : C.Holds d x Q)
    (hgiven : ∀ e, D.given e → C.given e) (hok : ∀ {d trace d'}, C.ok d trace d' → D.ok d trace d')
    (hfail : ∀ {d trace fault}, C.fail d trace fault → D.fail d trace fault) : D.Holds d x Q := by
  intro trace r hrun hg
  have hmet := h trace r hrun fun e he => hgiven e (hg e he)
  rcases r with fault | ⟨a, d'⟩
  · exact hfail hmet
  · exact ⟨hok hmet.1, hmet.2⟩

theorem holds_pure {a : α} {Q : α → Draft → Prop} (h : Q a d) : C.Holds d (pure a) Q := by
  intro trace r hrun _
  obtain ⟨rfl, rfl⟩ := Pass.runs_pure.1 hrun
  exact ⟨C.refl d, h⟩

theorem holds_throw {fault : Fault} {Q : α → Draft → Prop} (h : C.fail d [] fault) :
    C.Holds d (throw fault) Q := by
  intro trace r hrun _
  obtain ⟨rfl, rfl⟩ := Pass.runs_throw.1 hrun
  exact h

theorem Holds.bind {x : Pass α} {f : α → Pass β} {Q : α → Draft → Prop} {R : β → Draft → Prop}
    (hx : C.Holds d x Q)
    (hf : ∀ a d' trace, C.ok d trace d' → Q a d' → C.Holds d' (f a) R) :
    C.Holds d (x >>= f) R := by
  intro trace r hrun hgiven
  rcases Pass.runs_bind.1 hrun with ⟨fault, hfirst, rfl⟩ | ⟨a, d', first, rest, rfl, hfirst, hrest⟩
  · exact hx trace _ hfirst hgiven
  · obtain ⟨hok, hQ⟩ := hx first _ hfirst fun e he => hgiven e (List.mem_append_left _ he)
    have hmet := hf a d' first hok hQ rest r hrest fun e he => hgiven e (List.mem_append_right _ he)
    rcases r with fault | ⟨b, d''⟩
    · exact C.fail_trans hok hmet
    · exact ⟨C.trans hok hmet.1, hmet.2⟩

theorem holds_get {Q : Draft → Draft → Prop} (h : Q d d) : C.Holds d (get : Pass Draft) Q :=
  fun _ _ hrun _ => by
    obtain ⟨rfl, rfl⟩ := Script.runs_done.1 hrun
    exact ⟨C.refl d, h⟩

theorem holds_set {d' : Draft} {Q : PUnit → Draft → Prop} (hok : C.ok d [] d') (h : Q ⟨⟩ d') :
    C.Holds d (set d' : Pass PUnit) Q :=
  fun _ _ hrun _ => by
    obtain ⟨rfl, rfl⟩ := Script.runs_done.1 hrun
    exact ⟨hok, h⟩

theorem holds_modify {f : Draft → Draft} {Q : PUnit → Draft → Prop} (hok : C.ok d [] (f d))
    (h : Q ⟨⟩ (f d)) : C.Holds d (modify f : Pass PUnit) Q :=
  fun _ _ hrun _ => by
    obtain ⟨rfl, rfl⟩ := Script.runs_done.1 hrun
    exact ⟨hok, h⟩

theorem holds_ask {request : Request} {Q : request.Answer → Draft → Prop}
    (h : ∀ answer, C.given ⟨request, answer⟩ → C.ok d [⟨request, answer⟩] d ∧ Q answer d) :
    C.Holds d (Pass.ask request) Q := by
  intro trace r hrun hgiven
  obtain ⟨answer, rfl, rfl⟩ := Pass.runs_ask.1 hrun
  exact h answer (hgiven _ List.mem_cons_self)

theorem holds_require {result : Except Fault α} {Q : α → Draft → Prop}
    (hok : ∀ a, result = .ok a → Q a d) (herror : ∀ fault, result = .error fault → C.fail d [] fault) :
    C.Holds d (Pass.require result) Q := by
  cases result with
  | ok a => exact holds_pure (hok a rfl)
  | error fault => exact holds_throw (herror fault rfl)

theorem holds_mapFault {f : Fault → Fault} {x : Pass α} {Q : α → Draft → Prop} (h : C.Holds d x Q)
    (hfault : ∀ trace fault, C.fail d trace fault → C.fail d trace (f fault)) :
    C.Holds d (Pass.mapFault f x) Q := by
  intro trace r hrun hgiven
  obtain ⟨r', hrun', rfl⟩ := Pass.runs_mapFault.1 hrun
  have hmet := h trace r' hrun' hgiven
  rcases r' with fault | ⟨a, d'⟩
  · exact hfault trace fault hmet
  · exact hmet

/-! ### Whatever the draft -/

/-- A step that behaves whatever the draft and whatever it gives. -/
def Always (C : Conduct) (x : Pass α) : Prop := ∀ d, C.Holds d x fun _ _ => True

theorem always_pure (a : α) : C.Always (pure a : Pass α) := fun _ => holds_pure trivial

theorem always_throw {fault : Fault} (h : ∀ d, C.fail d [] fault) :
    C.Always (throw fault : Pass α) := fun d => holds_throw (h d)

theorem Always.bind {x : Pass α} {f : α → Pass β} (hx : C.Always x) (hf : ∀ a, C.Always (f a)) :
    C.Always (x >>= f) := fun d => (hx d).bind fun a d' _ _ _ => hf a d'

theorem always_ite {c : Prop} [Decidable c] {x y : Pass α} (hx : C.Always x) (hy : C.Always y) :
    C.Always (if c then x else y) := by
  split
  · exact hx
  · exact hy

theorem always_get : C.Always (get : Pass Draft) := fun _ => holds_get trivial

theorem always_get_bind {f : Draft → Pass β} (hf : ∀ d, C.Holds d (f d) fun _ _ => True) :
    C.Always (get >>= f) := fun _ =>
  (holds_get (Q := fun draft d' => draft = d') rfl).bind fun draft _ _ _ heq => heq ▸ hf draft

theorem always_modify {f : Draft → Draft} (h : ∀ d, C.ok d [] (f d)) :
    C.Always (modify f : Pass PUnit) := fun d => holds_modify (h d) trivial

theorem always_ask {request : Request}
    (h : ∀ d answer, C.given ⟨request, answer⟩ → C.ok d [⟨request, answer⟩] d) :
    C.Always (Pass.ask request) := fun d => holds_ask fun answer hgiven => ⟨h d answer hgiven, trivial⟩

theorem always_require {result : Except Fault α}
    (h : ∀ d fault, result = .error fault → C.fail d [] fault) : C.Always (Pass.require result) :=
  fun d => holds_require (fun _ _ => trivial) (h d)

/-- What follows a requirement knows what was required. -/
theorem holds_require_mapError_bind {ε : Type} {result : Except ε α} {toFault : ε → Fault}
    {f : α → Pass β} {R : β → Draft → Prop} (herror : ∀ refusal, C.fail d [] (toFault refusal))
    (hok : ∀ a, result = .ok a → C.Holds d (f a) R) :
    C.Holds d (Pass.require (result.mapError toFault) >>= f) R := by
  cases result with
  | ok a => exact hok a rfl
  | error refusal =>
    have hthrow : C.Holds d (throw (toFault refusal) : Pass α) fun _ _ => False :=
      holds_throw (herror refusal)
    exact hthrow.bind fun _ _ _ _ h => h.elim

/-- What was resolved, read or looked up is required with the fault of its refusal. -/
theorem always_require_mapError {ε : Type} {result : Except ε α} {toFault : ε → Fault}
    (h : ∀ d refusal, result = .error refusal → C.fail d [] (toFault refusal)) :
    C.Always (Pass.require (result.mapError toFault)) := by
  refine always_require fun d fault hfault => ?_
  cases result with
  | ok a => cases hfault
  | error refusal =>
    obtain rfl := Except.error.inj hfault
    exact h d refusal rfl

/-! ### Steps that look things up -/

/-- The first look at an unreadable checkout is remembered and logged; nothing else comes of a look. -/
theorem always_projectCheckout (s : Setting) (hinspect : ∀ d, C.ok d [] { d with inspected := true })
    (hlog : ∀ d record, C.ok d [⟨.log record, ()⟩] d) : C.Always s.projectCheckout := by
  unfold Setting.projectCheckout
  split
  · exact always_pure _
  · exact always_pure _
  · refine always_get_bind fun d => ?_
    split
    · refine Always.bind (always_modify hinspect) (fun _ => ?_) d
      exact Always.bind (always_ask fun d _ _ => hlog d _) fun _ => always_pure _
    · exact always_pure _ d

/-- The value of a metadata key is a property of the pass, of its language or of the checkout, or a text
of the store. -/
theorem always_metadata (s : Setting) (key : Bytes)
    (hraise : ∀ d fault, Fault.category fault = .metadata → fault.Unplaced → C.fail d [] fault)
    (hcheckout : C.Always s.projectCheckout)
    (htext : ∀ key, C.Always (Pass.ask (.text key) >>= fun answer => Pass.require answer)) :
    C.Always (metadata s key) := by
  have hthrow : ∀ (message : Bytes) (context : Context), context.lookup (Text.bytes "file") = none →
      context.lookup (Text.bytes "line") = none →
      C.Always (throw (.raise .metadata message context) : Pass Bytes) :=
    fun message context hfile hline =>
      always_throw fun d => hraise d _ (by simp) (Fault.unplaced_classified hfile hline)
  have hlanguage : ∀ key field, C.Always (languageField s key field) := fun key field =>
    always_ite (hthrow _ _ rfl rfl) (always_pure _)
  have hfield : ∀ field, C.Always (checkoutField s field) := by
    intro field
    refine Always.bind hcheckout fun checkout => ?_
    cases checkout with
    | some snapshot => exact always_pure _
    | none => exact hthrow _ _ rfl rfl
  unfold metadata
  refine always_ite (hthrow _ _ rfl rfl) ?_
  refine always_ite (always_pure _) (always_ite (always_pure _) (always_ite (always_pure _) ?_))
  refine always_ite (hlanguage _ _) (always_ite (hlanguage _ _) (always_ite (hlanguage _ _) ?_))
  refine always_ite (hfield _) (always_ite (hfield _) (always_ite (hfield _) ?_))
  exact always_ite (hfield _) (htext _)

end Conduct

end Bindery.Expansion

/-! ## Templates -/

namespace Bindery.Template

mutual

/-- All literal text of a template, also that in arguments, is such that `L`. -/
def All (L : Bytes → Prop) : Template → Prop
  | .text rest => L rest
  | .malformed _ => True
  | .directive before _ args _ rest => L before ∧ AllOf L args ∧ rest.All L
termination_by structural t => t

def AllOf (L : Bytes → Prop) : List Template → Prop
  | [] => True
  | t :: ts => t.All L ∧ AllOf L ts
termination_by structural ts => ts

end

mutual

theorem all_of_forall {L : Bytes → Prop} (h : ∀ s, L s) : (t : Template) → t.All L
  | .text rest => h rest
  | .malformed _ => trivial
  | .directive before _ args _ rest => ⟨h before, allOf_of_forall h args, all_of_forall h rest⟩
termination_by structural t => t

theorem allOf_of_forall {L : Bytes → Prop} (h : ∀ s, L s) : (ts : List Template) → AllOf L ts
  | [] => trivial
  | t :: ts => ⟨all_of_forall h t, allOf_of_forall h ts⟩
termination_by structural ts => ts

end

end Bindery.Template

namespace Bindery.Expansion.Conduct

/-- Texts that were written one after the other, each such that `V` of the drafts before and after
it. -/
inductive Rows (V : Draft → Draft → Bytes → Prop) : Draft → Draft → List Bytes → Prop
  | nil {d : Draft} (hnil : V d d []) : Rows V d d []
  | cons {d d' d'' : Draft} {first : Bytes} {others : List Bytes} (hfirst : V d d' first)
      (hothers : Rows V d' d'' others) : Rows V d d'' (first :: others)

/-- What makes the expansion of texts behave: `V` is kept of the drafts before and after a text is
written and of the text, `L` is given of the literal text, and directives behave. -/
structure Texts (C : Conduct) (V : Draft → Draft → Bytes → Prop) (L : Bytes → Prop)
    (perform : Directive → List Bytes → Nat → Pass Bytes) : Prop where
  nil : ∀ {d d' out}, V d d' out → V d' d' []
  append : ∀ {d d' out s}, V d d' out → L s → V d d' (out ++ s)
  place : ∀ {d d' d'' out isBlock output after}, V d d' out → V d' d'' output →
    V d d'' (place out isBlock output after)
  perform : ∀ d d' directive args line, Rows V d d' args →
    C.Holds d' (perform directive args line) fun output d'' => V d d'' output
  malformed : ∀ d (bad : Malformed), C.fail d [] bad.toFault

variable {C : Conduct} {V : Draft → Draft → Bytes → Prop} {L : Bytes → Prop}
  {perform : Directive → List Bytes → Nat → Pass Bytes}

mutual

/-- **Expanding a template behaves** if performing directives does. -/
theorem Texts.expand (h : C.Texts V L perform) : (t : Template) → t.All L →
    ∀ (line : Nat) (out : Bytes) (d d' : Draft), V d d' out →
      C.Holds d' (t.expand perform line out) fun output d'' => V d d'' output
  | .text rest, ht, line, out, d, d', hout => holds_pure (h.append hout ht)
  | .malformed bad, _, line, out, d, d', _ => holds_throw (h.malformed d' bad)
  | .directive before invocation args after rest, ⟨hbefore, hargs, hrest⟩, line, out, d, d', hout => by
    rw [Template.expand]
    refine (Texts.expandAll h args hargs _ d' (h.nil hout)).bind fun args d₁ _ _ hargs => ?_
    refine (h.perform d' d₁ _ args _ hargs).bind fun output d₂ _ _ houtput => ?_
    exact Texts.expand h rest hrest line _ d d₂ (h.place (h.append hout hbefore) houtput)
termination_by structural t => t

theorem Texts.expandAll (h : C.Texts V L perform) : (ts : List Template) → Template.AllOf L ts →
    ∀ (line : Nat) (d : Draft), V d d [] →
      C.Holds d (Template.expandAll perform line ts) fun args d' => Rows V d d' args
  | [], _, line, d, hnil => holds_pure (.nil hnil)
  | t :: ts, ⟨ht, hts⟩, line, d, hnil => by
    rw [Template.expandAll]
    refine (Texts.expand h t ht line [] d d hnil).bind fun first d₁ _ _ hfirst => ?_
    refine (Texts.expandAll h ts hts line d₁ (h.nil hfirst)).bind fun others d₂ _ _ hothers => ?_
    exact holds_pure (.cons hfirst hothers)
termination_by structural ts => ts

end

end Bindery.Expansion.Conduct
