import Mathlib.Data.List.Basic
import Bindery.Expansion.Document

/-!
# What faults are about

The category of a fault says which concern failed. Notes on where a fault arose are added on its way
out; they change neither its category nor what was noted closer to it.
-/

namespace Bindery

open Text (bytes)

theorem eq_ok_of_mapError {α ε ε' : Type} {result : Except ε α} {f : ε → ε'} {a : α}
    (h : result.mapError f = .ok a) : result = .ok a := by
  cases result with
  | error _ => cases h
  | ok b => rw [Except.ok.inj h]

theorem eq_ok_of_toOption {α ε : Type} {result : Except ε α} {a : α} (h : result.toOption = some a) :
    result = .ok a := by
  cases result with
  | error _ => cases h
  | ok b => rw [Option.some.inj h]

namespace Context

theorem isSome_lookup_setDefault (c : Context) (key : Bytes) (value : Value) :
    ((setDefault c key value).lookup key).isSome := by
  rw [setDefault]
  split
  · assumption
  · simp [List.lookup_append]

theorem setDefault_of_isSome {c : Context} {key : Bytes} (h : (c.lookup key).isSome) (value : Value) :
    setDefault c key value = c := if_pos h

theorem isSome_lookup_setDefault_of_isSome {c : Context} {key : Bytes} (h : (c.lookup key).isSome)
    (other : Bytes) (value : Value) : ((setDefault c other value).lookup key).isSome := by
  rw [setDefault]
  split
  · exact h
  · simp [List.lookup_append, h]

end Context

namespace Fault

theorem category_classified (r : Report) (cause : Option Fault) :
    (classified r cause).category = r.category := by
  have hreport : (classified r cause).report? = some r := by
    rw [report?, chain, List.findSome?_cons, ownReport?]
  rw [category, hreport]
  rfl

@[simp] theorem category_raise (category : Category) (message : Bytes) (context : Context) :
    (raise category message context).category = category :=
  category_classified _ _

@[simp] theorem category_raiseFrom (cause : Fault) (category : Category) (message : Bytes)
    (context : Context) : (raiseFrom cause category message context).category = category :=
  category_classified _ _

@[simp] theorem category_passOn (cause : Fault) (category : Category) (message : Bytes)
    (context : Context) : (passOn cause category message context).category = category :=
  category_classified _ _

@[simp] theorem category_withDefault (f : Fault) (key : Bytes) (value : Value) :
    (f.withDefault key value).category = f.category := by
  cases f with
  | classified r cause => rw [withDefault, category_classified, category_classified]
  | _ => rfl

theorem classifiedPart?_classified (r : Report) (cause : Option Fault) :
    (classified r cause).classifiedPart? = some (classified r cause) := by
  simp [classifiedPart?, chain, ownReport?]

/-- The classified part of a fault is where its report stands. -/
theorem report?_of_classifiedPart? {f g : Fault} (h : f.classifiedPart? = some g) :
    ∃ r cause, g = classified r cause ∧ f.report? = some r := by
  have hown := List.find?_some h
  rw [classifiedPart?, List.find?_eq_some_iff_append] at h
  obtain ⟨-, before, after, hchain, hbefore⟩ := h
  cases g with
  | classified r cause =>
    have hnone : before.findSome? ownReport? = none := by
      rw [List.findSome?_eq_none_iff]
      intro x hx
      simpa using hbefore x hx
    refine ⟨r, cause, rfl, ?_⟩
    rw [report?, hchain, List.findSome?_append, hnone, List.findSome?_cons, ownReport?]
    rfl
  | _ => simp [ownReport?] at hown

theorem report?_of_classifiedPart?_none {f : Fault} (h : f.classifiedPart? = none) :
    f.report? = none := by
  rw [report?, List.findSome?_eq_none_iff]
  intro x hx
  have := List.find?_eq_none.1 h x hx
  simpa using this

/-- The classified part of a fault is what its category is read off. -/
theorem classifiedPart?_eq_some {f g : Fault} (h : f.classifiedPart? = some g) :
    (∃ r cause, g = classified r cause) ∧ g.category = f.category := by
  obtain ⟨r, cause, rfl, hreport⟩ := report?_of_classifiedPart? h
  refine ⟨⟨r, cause, rfl⟩, ?_⟩
  rw [category_classified, category, hreport]
  rfl

theorem category_of_classifiedPart?_none {f : Fault} (h : f.classifiedPart? = none) :
    f.category = .internal := by
  rw [category, report?_of_classifiedPart?_none h]
  rfl

end Fault

namespace Label

@[simp] theorem Refusal.category_toFault (r : Refusal) : r.toFault.category = .label := by
  cases r <;> exact Fault.category_classified _ _

end Label

namespace Resolver

@[simp] theorem Refusal.category_toFault (r : Refusal) : r.toFault.category = .path := by
  cases r <;> exact Fault.category_classified _ _

end Resolver

namespace Listing

@[simp] theorem Refusal.category_toFault (r : Refusal) : r.toFault.category = .code := by
  cases r <;> exact Fault.category_classified _ _

end Listing

@[simp] theorem Malformed.category_toFault (m : Malformed) : m.toFault.category = .directive :=
  Fault.category_classified _ _

namespace Expansion.Setting

variable (s : Setting)

theorem annotate_eq (f : Fault) (file name : Bytes) (line : Nat) :
    ∃ r cause, s.annotate f file name line = .classified r cause ∧ r.category = f.category ∧
      (r.context.lookup (bytes "file")).isSome ∧ (r.context.lookup (bytes "line")).isSome ∧
      (r.context.lookup (bytes "directive")).isSome := by
  obtain ⟨r, cause, hpart, hcategory⟩ : ∃ r cause,
      f.classifiedPart?.getD (.passOn f .internal "directive failed") = .classified r cause ∧
        r.category = f.category := by
    cases hf : f.classifiedPart? with
    | none =>
      exact ⟨_, _, rfl, (Fault.category_of_classifiedPart?_none hf).symm⟩
    | some g =>
      obtain ⟨⟨r, cause, rfl⟩, hcategory⟩ := Fault.classifiedPart?_eq_some hf
      exact ⟨r, cause, rfl, (Fault.category_classified r cause).symm.trans hcategory⟩
  rw [annotate, hpart]
  refine ⟨_, _, rfl, hcategory, ?_, ?_, Context.isSome_lookup_setDefault _ _ _⟩
  · exact Context.isSome_lookup_setDefault_of_isSome
      (Context.isSome_lookup_setDefault_of_isSome (Context.isSome_lookup_setDefault _ _ _) _ _) _ _
  · exact Context.isSome_lookup_setDefault_of_isSome (Context.isSome_lookup_setDefault _ _ _) _ _

@[simp] theorem category_annotate (f : Fault) (file name : Bytes) (line : Nat) :
    (s.annotate f file name line).category = f.category := by
  obtain ⟨r, cause, heq, hcategory, -⟩ := s.annotate_eq f file name line
  rw [heq, Fault.category_classified, hcategory]

/-- **Where a fault arose is noted once**: places further out add nothing. -/
theorem annotate_annotate (f : Fault) (file name file' name' : Bytes) (line line' : Nat) :
    s.annotate (s.annotate f file name line) file' name' line' = s.annotate f file name line := by
  obtain ⟨r, cause, heq, -, hfile, hline, hdirective⟩ := s.annotate_eq f file name line
  rw [heq, annotate, Fault.classifiedPart?_classified]
  simp only [Option.getD_some, Fault.withDefault, Context.setDefault_of_isSome hfile,
    Context.setDefault_of_isSome hline, Context.setDefault_of_isSome hdirective]

@[simp] theorem category_withLanguage (f : Fault) : (s.withLanguage f).category = f.category := by
  unfold withLanguage
  split
  · rfl
  · split
    · next g hg => rw [Fault.category_withDefault, (Fault.classifiedPart?_eq_some hg).2]
    · next hg => rw [Fault.category_passOn, Fault.category_of_classifiedPart?_none hg]

end Expansion.Setting

end Bindery
