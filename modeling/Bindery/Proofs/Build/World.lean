import Bindery.Proofs.Build.Effect
import Bindery.Proofs.Expansion.Conversation
import Bindery.Proofs.Fault
import Bindery.Proofs.FileTree
import Bindery.Proofs.Path.Descent

/-!
# Steps of a build

How steps run one after the other, and what their actions do. `Acts` says how each action of a step
changes the world, whether the step fails or not, and what holds of its result; there is a rule for each
way of making a step. Of most steps it is shown that they let the files grow at one place (`Keeps`).
-/

namespace Bindery.Build

open FileTree (Grows)

/-! ## Running steps -/

section Run

variable {α β : Type} {x : Step α} {w w' : World}

theorem run_bind_of_ok {a : α} (h : x.run.run w = (.ok a, w')) (f : α → Step β) :
    (x >>= f).run.run w = (f a).run.run w' := by
  rw [ExceptT.run_bind, Effect.run_bind, h]

theorem run_bind_of_error {fault : Fault} (h : x.run.run w = (.error fault, w')) (f : α → Step β) :
    (x >>= f).run.run w = (.error fault, w') := by
  rw [ExceptT.run_bind, Effect.run_bind, h]
  rfl

theorem run_require_of_ok {result : Except Fault α} {a : α} (h : result = .ok a) (f : α → Step β) :
    (require result >>= f).run.run w = (f a).run.run w := by
  rw [h]
  rfl

theorem run_require_of_error {result : Except Fault α} {fault : Fault} (h : result = .error fault)
    (f : α → Step β) : (require result >>= f).run.run w = (.error fault, w) := by
  rw [h]
  rfl

theorem run_changeFiles (change : FileTree → Except Fault FileTree) (w : World) :
    (changeFiles change).run.run w =
      match change w.tree with
      | .ok tree => (.ok (), { w with tree })
      | .error fault => (.error fault, w) := rfl

theorem run_changeFiles_of_ok {change : FileTree → Except Fault FileTree} {tree : FileTree}
    (h : change w.tree = .ok tree) :
    (changeFiles change).run.run w = (.ok (), { w with tree }) := by
  rw [run_changeFiles, h]

theorem run_changeFiles_of_error {change : FileTree → Except Fault FileTree} {fault : Fault}
    (h : change w.tree = .error fault) : (changeFiles change).run.run w = (.error fault, w) := by
  rw [run_changeFiles, h]

theorem run_ask (fetch : Repository.Fetcher) (lang : Bytes) (script : Expansion.Script α) (w : World) :
    (ask fetch lang script).run w = ((script.run fetch lang w.services).1,
      { w with services := (script.run fetch lang w.services).2 }) := by
  induction script generalizing w with
  | done a => rfl
  | ask request next ih => exact ih _ _

/-! What was run if a step has succeeded. -/

theorem exists_of_run_bind {f : α → Step β} {b : β} (h : (x >>= f).run.run w = (.ok b, w')) :
    ∃ a w₁, x.run.run w = (.ok a, w₁) ∧ (f a).run.run w₁ = (.ok b, w') := by
  cases hx : x.run.run w with
  | mk r w₁ =>
    cases r with
    | ok a => exact ⟨a, w₁, rfl, (run_bind_of_ok hx f).symm.trans h⟩
    | error fault =>
      have hfault := (run_bind_of_error hx f).symm.trans h
      cases hfault

theorem eq_of_run_pure {a b : α} (h : (pure a : Step α).run.run w = (.ok b, w')) :
    a = b ∧ w = w' := by
  obtain ⟨ha, rfl⟩ := Prod.mk.inj h
  exact ⟨Except.ok.inj ha, rfl⟩

theorem eq_of_run_get {w₁ : World} (h : (get : Step World).run.run w = (.ok w₁, w')) :
    w = w₁ ∧ w = w' := by
  obtain ⟨hw, rfl⟩ := Prod.mk.inj h
  exact ⟨Except.ok.inj hw, rfl⟩

theorem eq_ok_of_run_require {result : Except Fault α} {a : α}
    (h : (require result).run.run w = (.ok a, w')) : result = .ok a ∧ w' = w := by
  obtain ⟨rfl, rfl⟩ := Prod.mk.inj h
  exact ⟨rfl, rfl⟩

theorem exists_of_run_changeFiles {change : FileTree → Except Fault FileTree} {u : Unit}
    (h : (changeFiles change).run.run w = (.ok u, w')) :
    ∃ tree, change w.tree = .ok tree ∧ w' = { w with tree } := by
  cases hchange : change w.tree with
  | ok tree =>
    rw [run_changeFiles_of_ok hchange] at h
    exact ⟨tree, rfl, (Prod.mk.inj h).2.symm⟩
  | error fault =>
    rw [run_changeFiles_of_error hchange] at h
    cases h

end Run

/-! ## Actions of steps -/

/-- A step whose actions change the world such that `R`, with a result such that `Q`. -/
def Acts {α : Type} (R : World → World → Prop) (x : Step α) (Q : α → Prop) : Prop :=
  x.run.Does R fun r => ∀ a, r = .ok a → Q a

section Acts

variable {α β : Type} {R : World → World → Prop} {Q : α → Prop} {P : β → Prop}

theorem acts_pure {a : α} (h : Q a) : Acts R (pure a) Q := fun _ ha => Except.ok.inj ha ▸ h

theorem Acts.bind {x : Step α} {f : α → Step β} (hx : Acts R x Q)
    (hf : ∀ a, Q a → Acts R (f a) P) : Acts R (x >>= f) P := by
  rw [Acts, ExceptT.run_bind]
  refine Effect.Does.bind hx fun r hr => ?_
  cases r with
  | ok a => exact hf a (hr a rfl)
  | error fault => exact fun _ h => by cases h

theorem acts_require {result : Except Fault α} (h : ∀ a, result = .ok a → Q a) :
    Acts R (require result) Q := h

theorem acts_throw (fault : Fault) : Acts R (throw fault : Step α) Q := fun _ h => by cases h

theorem acts_forM {items : List β} {f : β → Step PUnit}
    (h : ∀ b ∈ items, Acts R (f b) fun _ => True) : Acts R (items.forM f) fun _ => True := by
  induction items with
  | nil => exact acts_pure trivial
  | cons b items ih =>
    obtain ⟨hb, hitems⟩ := List.forall_mem_cons.1 h
    exact Acts.bind hb fun _ _ => ih hitems

theorem acts_lift {x : Effect α} (h : x.Does R fun _ => True) :
    Acts R (liftM x : Step α) fun _ => True :=
  Effect.Does.bind h fun _ _ _ _ => trivial

/-- The result of a script is one that some conversation leads to. -/
theorem does_ask {fetch : Repository.Fetcher} {lang : Bytes} (script : Expansion.Script α)
    (h : ∀ (w : World) (request : Expansion.Request),
      R w { w with services := (w.services.answer fetch lang request).2 }) :
    (ask fetch lang script).Does R fun a => ∃ trace, script.Runs trace a := by
  induction script with
  | done a => exact ⟨[], .done a⟩
  | ask request next ih =>
    refine fun w => ⟨h w request, (ih _).imp (fun _ _ h => h) ?_⟩
    rintro a ⟨trace, hruns⟩
    exact ⟨_, .ask hruns⟩

theorem acts_consult {fetch : Repository.Fetcher} {lang : Bytes}
    (script : Expansion.Script (Except Fault α))
    (h : ∀ (w : World) (request : Expansion.Request),
      R w { w with services := (w.services.answer fetch lang request).2 }) :
    Acts R (consult fetch lang script) fun a => ∃ trace, script.Runs trace (.ok a) := by
  refine (does_ask script h).imp (fun _ _ h => h) ?_
  rintro r ⟨trace, hruns⟩ a rfl
  exact ⟨trace, hruns⟩

variable (hrefl : ∀ w, R w w)

include hrefl

theorem acts_get : Acts R (get : Step World) fun _ => True :=
  fun w => ⟨hrefl w, fun _ _ => trivial⟩

theorem acts_changeFiles {change : FileTree → Except Fault FileTree}
    (h : ∀ (w : World) tree, change w.tree = .ok tree → R w { w with tree }) :
    Acts R (changeFiles change) fun _ => True := by
  intro w
  refine ⟨?_, fun _ _ => trivial⟩
  dsimp only
  cases hchange : change w.tree with
  | error fault => exact hrefl w
  | ok tree => exact h w tree hchange

end Acts

/-! ## Files that grow at a place -/

/-- How the world changes if the files grow at a place. -/
def Growing (place : List Bytes) (w w' : World) : Prop := Grows place w.tree w'.tree

/-- A step whose actions let the files grow at a place, with a result such that `Q`. -/
abbrev Keeps {α : Type} (place : List Bytes) (x : Step α) (Q : α → Prop) : Prop :=
  Acts (Growing place) x Q

section Keeps

variable {place : List Bytes}

theorem growing_of_eq {w w' : World} (h : w'.tree = w.tree) : Growing place w w' := by
  rw [Growing, h]
  exact .refl _ _

theorem keeps_makeDirectory {path : Bytes} {toFault : Fault → Fault}
    (habs : Path.isAbsolute path = true)
    (hplace : Path.cleanComponents path <+: place ∨ place <+: Path.cleanComponents path) :
    Keeps place (changeFiles fun tree => (tree.makeDirectory path).mapError toFault)
      fun _ => True := by
  refine acts_changeFiles (fun w => growing_of_eq rfl) fun w tree h => ?_
  rw [← FileTree.components_of_isAbsolute w.tree habs] at hplace
  exact FileTree.grows_of_makeDirectory (eq_ok_of_mapError h) hplace

theorem keeps_write {path content : Bytes} {toFault : Fault → Fault}
    (habs : Path.isAbsolute path = true) (hplace : place <+: Path.cleanComponents path) :
    Keeps place (changeFiles fun tree => (tree.write path content).mapError toFault)
      fun _ => True := by
  refine acts_changeFiles (fun w => growing_of_eq rfl) fun w tree h => ?_
  rw [← FileTree.components_of_isAbsolute w.tree habs] at hplace
  exact FileTree.grows_of_write (eq_ok_of_mapError h) hplace

end Keeps

end Bindery.Build
