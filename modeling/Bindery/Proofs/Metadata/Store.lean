import Mathlib.Data.List.Basic
import Bindery.Metadata.Store
import Bindery.Proofs.Text.Tidy

/-!
# Layers of a store

A block is added to the layer of one language, where it changes no key but those it tells. What the store
answers for a language depends on the layer of that language and on the default layer only. The languages
that are declared there have identifiers.
-/

namespace Bindery

/-! ## Merging layers -/

theorem Value.lookup_mergeEntries (own other : List (Bytes × Value)) (key : Bytes) :
    (mergeEntries own other).lookup key = (own.lookup key).map fun v =>
      match other.lookup key with
      | some w => v.merge w
      | none => v := by
  induction own with
  | nil => rfl
  | cons entry own ih =>
    obtain ⟨k, v⟩ := entry
    rw [mergeEntries, List.lookup_cons, List.lookup_cons]
    by_cases hk : key = k
    · subst hk
      rw [beq_self_eq_true]
      rfl
    · rw [beq_false_of_ne hk]
      exact ih

/-- Entries that are set already are left out, so the others are found where they were. -/
theorem Layer.lookup_filter_fresh {own other : Layer} {key : Bytes} (h : own.lookup key = none) :
    (other.filter fun e => !own.any (·.1 == e.1)).lookup key = other.lookup key := by
  induction other with
  | nil => rfl
  | cons entry other ih =>
    obtain ⟨k, v⟩ := entry
    rw [List.filter_cons, List.lookup_cons]
    by_cases hk : key = k
    · subst hk
      have hfresh : (own.any fun e => e.1 == key) = false := by
        rw [List.any_eq_false]
        intro e he heq
        have hne := List.lookup_eq_none_iff.1 h e he
        simp [eq_of_beq heq] at hne
      simp [hfresh]
    · rw [beq_false_of_ne hk]
      split
      · rw [List.lookup_cons, beq_false_of_ne hk]
        exact ih
      · exact ih

theorem Layer.lookup_merge (own other : Layer) (key : Bytes) :
    (own.merge other).lookup key =
      match own.lookup key with
      | some v =>
        match other.lookup key with
        | some w => some (v.merge w)
        | none => some v
      | none => other.lookup key := by
  rw [Layer.merge, List.lookup_append, Value.lookup_mergeEntries]
  cases hown : own.lookup key with
  | some v => cases other.lookup key <;> rfl
  | none => exact Layer.lookup_filter_fresh hown

/-- A path that leads to nothing in a value leads, when that is merged, where it led before. -/
theorem Value.at?_merge_of_none {own other : Value} {path : List Bytes}
    (h : other.at? path = none) : (own.merge other).at? path = own.at? path := by
  induction path generalizing own other with
  | nil =>
    rw [Value.at?] at h
    cases h
  | cons key path ih =>
    cases own with
    | map own =>
      cases other with
      | map other =>
        rw [Value.at?] at h
        change (Value.map (Layer.merge own other)).at? (key :: path) = _
        rw [Value.at?, Value.at?, Layer.lookup_merge]
        cases hown : own.lookup key with
        | some v =>
          cases hother : other.lookup key with
          | some w =>
            rw [hother] at h
            exact ih h
          | none => rfl
        | none =>
          cases hother : other.lookup key with
          | some w =>
            rw [hother] at h
            exact h
          | none => rfl
      | _ => rfl
    | _ => rfl

/-- A block that does not tell a key does not change what the key names. -/
theorem Layer.get?_merge_of_none {own block : Layer} {key : Bytes} (h : block.get? key = none) :
    (own.merge block).get? key = own.get? key := by
  have hlookup : block.lookup key = none := by
    cases hfound : block.lookup key with
    | none => rfl
    | some v =>
      rw [Layer.get?, hfound] at h
      cases h
  have hpath : (Value.map block).at? (Text.splitOn 46 key) = none := by
    rw [Layer.get?, hlookup] at h
    exact h
  have hmerged : (Value.map (own.merge block)).at? (Text.splitOn 46 key) =
      (Value.map own).at? (Text.splitOn 46 key) := by
    change ((Value.map own).merge (.map block)).at? _ = _
    exact Value.at?_merge_of_none hpath
  rw [Layer.get?, Layer.get?, hmerged, Layer.lookup_merge, hlookup]
  cases own.lookup key <;> rfl

namespace Metadata.Store

theorem lookup_filter_ne {α : Type} (l : List (Bytes × α)) {id other : Bytes} (h : other ≠ id) :
    (l.filter (·.1 != id)).lookup other = l.lookup other := by
  induction l with
  | nil => rfl
  | cons entry l ih =>
    obtain ⟨k, v⟩ := entry
    by_cases hk : k = id
    · have hother : (other == k) = false := beq_false_of_ne (hk ▸ h)
      simp [hk, List.lookup_cons, hk ▸ hother, ih]
    · simp [hk, List.lookup_cons, ih]

variable (s : Store) (block : Layer)

theorem layer_merge_self (id : Bytes) : (s.merge id block).layer id = (s.layer id).merge block := by
  cases id with
  | nil => rfl
  | cons c id => simp [merge, layer]

theorem layer_merge_of_ne {id other : Bytes} (h : other ≠ id) :
    (s.merge id block).layer other = s.layer other := by
  cases id with
  | nil =>
    cases other with
    | nil => exact absurd rfl h
    | cons c other => rfl
  | cons c id =>
    cases other with
    | nil => rfl
    | cons c' other =>
      have hbeq : (c' :: other == c :: id) = false := beq_false_of_ne h
      simp only [merge, layer, List.isEmpty_cons, Bool.false_eq_true, if_false, List.lookup_cons,
        hbeq, lookup_filter_ne _ h]

variable {s} {t : Store} {id : Bytes}

/-- Two stores with the same default layer and the same layer of a language give the same values for
it. -/
theorem get?_congr (hbase : s.base = t.base) (hlayer : s.layer id = t.layer id) (key : Bytes) :
    s.get? id key = t.get? id key := by
  simp only [get?, hbase, hlayer]

theorem string_congr (hbase : s.base = t.base) (hlayer : s.layer id = t.layer id) (key : Bytes) :
    s.string id key = t.string id key := by
  simp only [string, get?_congr hbase hlayer key]

theorem definitionTitle_congr (hbase : s.base = t.base) (hlayer : s.layer id = t.layer id)
    (type : Bytes) : s.definitionTitle id type = t.definitionTitle id type := by
  simp only [definitionTitle, get?_congr hbase hlayer]

/-- A block that does not tell the title of a type leaves it as it is. -/
theorem definitionTitle_merge {type : Bytes} (h : block.get? (type ++ "Title") = none) :
    (s.merge id block).definitionTitle id type = s.definitionTitle id type := by
  have hget : (s.merge id block).get? id (type ++ "Title") = s.get? id (type ++ "Title") := by
    cases id with
    | nil => exact Layer.get?_merge_of_none h
    | cons c id =>
      have hlayer : ((s.merge (c :: id) block).layer (c :: id)).get? (type ++ "Title") =
          (s.layer (c :: id)).get? (type ++ "Title") := by
        rw [layer_merge_self]
        exact Layer.get?_merge_of_none h
      have hbase : (s.merge (c :: id) block).base = s.base := rfl
      simp only [get?, List.isEmpty_cons, Bool.false_eq_true, if_false, hlayer, hbase]
  rw [definitionTitle, definitionTitle, hget]

/-! ## Declared languages -/

theorem ne_nil_of_mem_describe {seen : List Bytes} {declarations : List (Bytes × Bytes)}
    {langs : List Descriptor} (h : describe seen declarations = .ok langs) :
    ∀ d ∈ langs, d.id ≠ [] := by
  induction declarations generalizing seen langs with
  | nil =>
    obtain rfl := Except.ok.inj h
    exact fun d hd => by cases hd
  | cons declaration rest ih =>
    obtain ⟨id, name⟩ := declaration
    rw [describe] at h
    split at h
    · cases h
    · next hwhite =>
      split at h
      · cases h
      · cases hrest : describe (id :: seen) rest with
        | error fault =>
          rw [hrest] at h
          cases h
        | ok more =>
          rw [hrest] at h
          obtain rfl := Except.ok.inj h
          exact List.forall_mem_cons.2 ⟨Text.trim_ne_nil (by simpa using hwhite), ih hrest⟩

/-- A declared language has an identifier, also without the white space around it. -/
theorem ne_nil_of_mem_languages {langs : List Descriptor} (h : s.languages = .ok langs) :
    ∀ d ∈ langs, d.id ≠ [] := by
  rw [languages] at h
  split at h
  · obtain rfl := Except.ok.inj h
    exact fun d hd => by cases hd
  · split at h
    · cases h
    · exact ne_nil_of_mem_describe h

end Metadata.Store

end Bindery
