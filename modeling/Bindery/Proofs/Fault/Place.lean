import Mathlib.Data.List.Basic
import Bindery.Proofs.Fault

/-!
# Where faults are placed

The place of a fault is what it notes under `file` and `line`. A directive that a fault passes through
notes its own file and line, each only if nothing is noted under that key: the two can come from
different layers.
-/

namespace Bindery

open Text (bytes)

namespace Context

theorem lookup_setDefault (c : Context) (key : Bytes) (value : Value) :
    (setDefault c key value).lookup key = some ((c.lookup key).getD value) := by
  rw [setDefault]
  cases h : c.lookup key with
  | none => simp [List.lookup_append, h]
  | some v => simp [h]

theorem lookup_setDefault_of_ne (c : Context) {key other : Bytes} (h : other ≠ key) (value : Value) :
    (setDefault c key value).lookup other = c.lookup other := by
  have hne : (other == key) = false := beq_eq_false_iff_ne.2 h
  rw [setDefault]
  split
  · rfl
  · simp [List.lookup_append, List.lookup_cons, hne]

end Context

namespace Fault

/-- What the outermost report of a fault notes under a key. -/
def note? (f : Fault) (key : Bytes) : Option Value :=
  f.report?.bind fun r => Context.get? r.context key

/-- A fault that notes neither a file nor a line. -/
structure Unplaced (f : Fault) : Prop where
  file : f.note? (bytes "file") = none
  line : f.note? (bytes "line") = none

theorem note?_classified (r : Report) (cause : Option Fault) (key : Bytes) :
    (classified r cause).note? key = r.context.lookup key := by
  rw [note?, report?, chain, List.findSome?_cons, ownReport?]
  rfl

theorem note?_withDefault (f : Fault) (key : Bytes) (value : Value) {other : Bytes}
    (h : other ≠ key) : (f.withDefault key value).note? other = f.note? other := by
  cases f with
  | classified r cause =>
    rw [withDefault, note?_classified, note?_classified]
    exact Context.lookup_setDefault_of_ne _ h _
  | _ => rfl

theorem Unplaced.withDefault {f : Fault} (h : f.Unplaced) {key : Bytes} (value : Value)
    (hkey : bytes "file" ≠ key ∧ bytes "line" ≠ key) : (f.withDefault key value).Unplaced :=
  ⟨by rw [note?_withDefault f key value hkey.1, h.file],
    by rw [note?_withDefault f key value hkey.2, h.line]⟩

/-- A report whose context has other keys only does not place its fault. -/
theorem unplaced_classified {r : Report} {cause : Option Fault}
    (hfile : r.context.lookup (bytes "file") = none) (hline : r.context.lookup (bytes "line") = none) :
    (classified r cause).Unplaced :=
  ⟨by rw [note?_classified, hfile], by rw [note?_classified, hline]⟩

/-- The classified part of a fault has its notes. -/
theorem note?_of_classifiedPart? {f g : Fault} (h : f.classifiedPart? = some g) (key : Bytes) :
    g.note? key = f.note? key := by
  obtain ⟨r, cause, rfl, hreport⟩ := report?_of_classifiedPart? h
  rw [note?_classified, note?, hreport]
  rfl

theorem note?_of_classifiedPart?_none {f : Fault} (h : f.classifiedPart? = none) (key : Bytes) :
    f.note? key = none := by
  rw [note?, report?_of_classifiedPart?_none h]
  rfl

end Fault

/-! ## Refusals -/

theorem Label.Refusal.unplaced_toFault (r : Label.Refusal) : r.toFault.Unplaced := by
  cases r <;> exact Fault.unplaced_classified rfl rfl

theorem Resolver.Refusal.unplaced_toFault (r : Resolver.Refusal) : r.toFault.Unplaced := by
  cases r <;> exact Fault.unplaced_classified rfl rfl

/-- Only a marker that is out of place has a line, which is one of the source of the listing. -/
theorem Listing.Refusal.place_toFault (r : Listing.Refusal) :
    r.toFault.Unplaced ∨ ∃ problem label line, r = .marker problem label line := by
  cases r with
  | marker problem label line => exact .inr ⟨problem, label, line, rfl⟩
  | _ => exact .inl (Fault.unplaced_classified rfl rfl)

theorem Listing.Refusal.note?_marker (problem : MarkerProblem) (label : Bytes) (line : Nat) :
    (Refusal.marker problem label line).toFault.note? (bytes "file") = none ∧
      (Refusal.marker problem label line).toFault.note? (bytes "line") = some (.int line) :=
  ⟨Fault.note?_classified _ _ _, Fault.note?_classified _ _ _⟩

theorem Malformed.note?_toFault (m : Malformed) :
    m.toFault.note? (bytes "file") = none ∧ m.toFault.note? (bytes "line") = some (.int m.line) :=
  ⟨Fault.note?_classified _ _ _, Fault.note?_classified _ _ _⟩

/-! ## Directives -/

namespace Expansion.Setting

variable (s : Setting)

/-- **A directive places a fault**: it notes its file and its line, each if there is none. -/
theorem note?_annotate (f : Fault) (path name : Bytes) (line : Nat) :
    (s.annotate f path name line).note? (bytes "file") =
        some ((f.note? (bytes "file")).getD (.str (s.display path))) ∧
      (s.annotate f path name line).note? (bytes "line") =
        some ((f.note? (bytes "line")).getD (.int line)) := by
  obtain ⟨r, cause, hpart, hnotes⟩ : ∃ r cause,
      f.classifiedPart?.getD (.passOn f .internal "directive failed") = .classified r cause ∧
        ∀ key, r.context.lookup key = f.note? key := by
    cases hf : f.classifiedPart? with
    | none =>
      refine ⟨_, _, rfl, fun key => ?_⟩
      rw [Fault.note?_of_classifiedPart?_none hf]
      rfl
    | some g =>
      obtain ⟨⟨r, cause, rfl⟩, -⟩ := Fault.classifiedPart?_eq_some hf
      refine ⟨r, cause, rfl, fun key => ?_⟩
      rw [← Fault.note?_classified r cause, Fault.note?_of_classifiedPart? hf]
  have hline : bytes "file" ≠ bytes "line" := by decide
  have hfile : bytes "line" ≠ bytes "file" := by decide
  have hdirective : bytes "file" ≠ bytes "directive" ∧ bytes "line" ≠ bytes "directive" := by decide
  rw [annotate, hpart]
  simp only [Fault.withDefault, Fault.note?_classified]
  rw [Context.lookup_setDefault_of_ne _ hdirective.1, Context.lookup_setDefault_of_ne _ hline,
    Context.lookup_setDefault, Context.lookup_setDefault_of_ne _ hdirective.2,
    Context.lookup_setDefault, Context.lookup_setDefault_of_ne _ hfile, hnotes, hnotes]
  exact ⟨rfl, rfl⟩

/-- Noting the language leaves the place of a fault as it is. -/
theorem note?_withLanguage (f : Fault) {key : Bytes} (hkey : key ≠ bytes "lang") :
    (s.withLanguage f).note? key = f.note? key := by
  unfold withLanguage
  split
  · rfl
  · split
    · next g hg => rw [Fault.note?_withDefault _ _ _ hkey, Fault.note?_of_classifiedPart? hg]
    · next hg =>
      rw [Fault.note?_of_classifiedPart?_none hg]
      have hne : (key == bytes "lang") = false := beq_eq_false_iff_ne.2 hkey
      exact (Fault.note?_classified _ _ _).trans (by simp [Report.passing, List.lookup_cons, hne])

end Expansion.Setting

end Bindery
