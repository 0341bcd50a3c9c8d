import Bindery.Proofs.Metadata.Store
import Bindery.Proofs.Text.Split

/-!
# What a key names after further blocks

Merging keeps what stands at a path of nested maps. A key with dots is looked for as an entry of its own
before it is taken for a path, though, and a later block may bring that entry: it hides the value at the
end of the path. `layer_mergeAll_keeps` says when a value stays and what takes its place when it does not.
-/

namespace Bindery

namespace Value

theorem eq_map_of_entries? {v : Value} {entries : List (Bytes × Value)}
    (h : v.entries? = some entries) : v = map entries := by
  cases v with
  | map _ => exact congrArg map (Option.some.inj h)
  | _ => cases h

theorem merge_of_leaf {own : Value} (h : own.entries? = none) (other : Value) :
    own.merge other = own := by
  cases own with
  | map entries => cases h
  | _ => rfl

theorem entries?_merge_eq_none {own other : Value} :
    (own.merge other).entries? = none ↔ own.entries? = none := by
  cases own with
  | map own => cases other <;> exact iff_of_false nofun nofun
  | _ => rfl

theorem foldl_merge_of_leaf {values : List Value} {first : Value}
    (h : (values.foldl merge first).entries? = none) : values.foldl merge first = first := by
  induction values generalizing first with
  | nil => rfl
  | cons next values ih =>
    rw [List.foldl_cons] at h ⊢
    have hmerged := ih h
    rw [hmerged] at h ⊢
    exact merge_of_leaf (entries?_merge_eq_none.1 h) next

theorem foldl_merge_leaf {leaf : Value} (h : leaf.entries? = none) (values : List Value) :
    values.foldl merge leaf = leaf := by
  induction values with
  | nil => rfl
  | cons next values ih => rw [List.foldl_cons, merge_of_leaf h, ih]

/-- A path descends through maps only. -/
theorem at?_cons_of_leaf {v : Value} (h : v.entries? = none) (key : Bytes) (path : List Bytes) :
    v.at? (key :: path) = none := by
  cases v with
  | map entries => cases h
  | _ =>
    rw [at?]
    intro entries hmap
    cases hmap

theorem map_merge_of_leaf {other : Value} (h : other.entries? = none)
    (own : List (Bytes × Value)) : (map own).merge other = map own := by
  cases other with
  | map other => cases h
  | _ => rfl

/-- What a path leads to is merged with what it leads to in the other value. -/
theorem at?_merge_of_some {own other v : Value} {path : List Bytes} (h : own.at? path = some v) :
    (own.merge other).at? path =
      some (match other.at? path with
        | some w => v.merge w
        | none => v) := by
  induction path generalizing own other with
  | nil =>
    rw [at?, Option.some.injEq] at h
    rw [at?, at?, h]
  | cons key path ih =>
    cases hown : own.entries? with
    | none =>
      rw [at?_cons_of_leaf hown] at h
      cases h
    | some entries =>
      obtain rfl := eq_map_of_entries? hown
      cases hother : other.entries? with
      | none => rw [map_merge_of_leaf hother, at?_cons_of_leaf hother, h]
      | some others =>
        obtain rfl := eq_map_of_entries? hother
        rw [at?] at h
        change (Value.map (Layer.merge entries others)).at? (key :: path) = _
        rw [at?, at?, Layer.lookup_merge]
        cases hentry : entries.lookup key with
        | none =>
          rw [hentry] at h
          cases h
        | some o =>
          rw [hentry] at h
          cases others.lookup key with
          | some w => exact ih h
          | none => exact h

end Value

namespace Layer

variable {own : Layer} {key : Bytes} {v : Value}

/-! ## One block -/

theorem get?_of_entry (h : own.lookup key = some v) : own.get? key = some v := by
  rw [get?, h]

theorem get?_of_path (h : own.lookup key = none) :
    own.get? key = (Value.map own).at? (Text.splitOn 46 key) := by
  rw [get?, h]

/-- A key without dots is looked for as an entry only. -/
theorem isSome_lookup_of_plain (hplain : 46 ∉ key) (h : own.get? key = some v) :
    (own.lookup key).isSome := by
  cases hlookup : own.lookup key with
  | some w => rfl
  | none =>
    rw [get?_of_path hlookup, Text.splitOn_of_notMem hplain, Value.at?, hlookup] at h
    cases h

/-- A value that is no map stays at the end of its path. -/
theorem at?_merge_of_leaf (h : (Value.map own).at? (Text.splitOn 46 key) = some v)
    (hleaf : v.entries? = none) (block : Layer) :
    (Value.map (own.merge block)).at? (Text.splitOn 46 key) = some v := by
  change ((Value.map own).merge (.map block)).at? _ = some v
  rw [Value.at?_merge_of_some h]
  split
  · rw [Value.merge_of_leaf hleaf]
  · rfl

/-! ## Several blocks -/

/-- A layer with blocks added one after the other. -/
def mergeAll (own : Layer) (blocks : List Layer) : Layer := blocks.foldl merge own

/-- The entries that blocks have under a key, in order. -/
def told (key : Bytes) (blocks : List Layer) : List Value := blocks.filterMap (·.lookup key)

theorem lookup_mergeAll_of_some (h : own.lookup key = some v) (blocks : List Layer) :
    (own.mergeAll blocks).lookup key = some ((told key blocks).foldl Value.merge v) := by
  induction blocks generalizing own v with
  | nil => exact h
  | cons block blocks ih =>
    have hmerged := lookup_merge own block key
    rw [h] at hmerged
    rw [mergeAll, List.foldl_cons, ← mergeAll, told, List.filterMap_cons]
    cases hblock : block.lookup key with
    | some w =>
      rw [hblock] at hmerged
      exact ih hmerged
    | none =>
      rw [hblock] at hmerged
      exact ih hmerged

/-- A value at the end of a path stays until a block has an entry under the very key. From then on, that
entry is found. -/
theorem get?_mergeAll_of_path (hlookup : own.lookup key = none) (h : own.get? key = some v)
    (hleaf : v.entries? = none) (blocks : List Layer) :
    (own.mergeAll blocks).get? key =
      some (match told key blocks with
        | [] => v
        | first :: later => later.foldl Value.merge first) := by
  induction blocks generalizing own with
  | nil => exact h
  | cons block blocks ih =>
    have hmerged := lookup_merge own block key
    rw [hlookup] at hmerged
    rw [mergeAll, List.foldl_cons, ← mergeAll, told, List.filterMap_cons]
    cases hblock : block.lookup key with
    | some w =>
      rw [hblock] at hmerged
      exact get?_of_entry (lookup_mergeAll_of_some hmerged blocks)
    | none =>
      rw [hblock] at hmerged
      refine ih hmerged ?_
      rw [get?_of_path hmerged]
      rw [get?_of_path hlookup] at h
      exact at?_merge_of_leaf h hleaf block

theorem get?_mergeAll_of_entry (hlookup : (own.lookup key).isSome) (h : own.get? key = some v)
    (hleaf : v.entries? = none) (blocks : List Layer) : (own.mergeAll blocks).get? key = some v := by
  obtain ⟨w, hw⟩ := Option.isSome_iff_exists.1 hlookup
  obtain rfl : w = v := Option.some.inj ((get?_of_entry hw).symm.trans h)
  rw [get?_of_entry (lookup_mergeAll_of_some hw blocks), Value.foldl_merge_leaf hleaf]

/-- **A value that is no map stays** unless its key is none of the entries of the layer, and the first
block that has such an entry has another value there. -/
theorem get?_mergeAll_iff (h : own.get? key = some v) (hleaf : v.entries? = none)
    (blocks : List Layer) :
    (own.mergeAll blocks).get? key = some v ↔
      (own.lookup key).isSome ∨ ∀ first ∈ (told key blocks).head?, first = v := by
  by_cases hlookup : (own.lookup key).isSome
  · exact iff_of_true (get?_mergeAll_of_entry hlookup h hleaf blocks) (.inl hlookup)
  · have hnone : own.lookup key = none := Option.not_isSome_iff_eq_none.1 hlookup
    rw [get?_mergeAll_of_path hnone h hleaf, Option.some.injEq, or_iff_right hlookup]
    cases told key blocks with
    | nil => exact iff_of_true rfl nofun
    | cons first later =>
      simp only [List.head?_cons, Option.mem_some_iff, forall_eq']
      constructor
      · intro heq
        have hmerged : later.foldl Value.merge first = first :=
          Value.foldl_merge_of_leaf (by rw [heq]; exact hleaf)
        exact hmerged.symm.trans heq
      · rintro rfl
        exact Value.foldl_merge_leaf hleaf later

end Layer

/-! ## Stores -/

namespace Metadata.Store

/-- A store after blocks were added to the layers of languages. -/
def mergeAll (s : Store) (blocks : List (Bytes × Layer)) : Store :=
  blocks.foldl (fun s block => s.merge block.1 block.2) s

/-- The blocks that are added to the layer of a language, in order. -/
def addedTo (id : Bytes) (blocks : List (Bytes × Layer)) : List Layer :=
  (blocks.filter (·.1 == id)).map Prod.snd

theorem layer_mergeAll (s : Store) (blocks : List (Bytes × Layer)) (id : Bytes) :
    (s.mergeAll blocks).layer id = (s.layer id).mergeAll (addedTo id blocks) := by
  induction blocks generalizing s with
  | nil => rfl
  | cons block blocks ih =>
    obtain ⟨lang, block⟩ := block
    rw [mergeAll, List.foldl_cons, ← mergeAll, ih]
    by_cases hlang : lang = id
    · subst hlang
      have hadded : addedTo lang ((lang, block) :: blocks) = block :: addedTo lang blocks := by
        simp [addedTo]
      rw [layer_merge_self, hadded]
      rfl
    · have hadded : addedTo id ((lang, block) :: blocks) = addedTo id blocks := by
        simp [addedTo, hlang]
      rw [layer_merge_of_ne _ _ (Ne.symm hlang), hadded]

/-- **What a key keeps naming.** Let a key lead to a value in a layer that is no map, and let blocks be
added to any layers. The value stays exactly if the layer has an entry under the very key, or the first
entry that a block brings under it to the layer, if there is one, is the same value. If the layer has no
such entry, then the value was at the end of a path, and the entries that blocks bring are found instead.
A key without dots always keeps its value. -/
theorem layer_mergeAll_keeps (s : Store) (id key : Bytes) (v : Value)
    (h : (s.layer id).get? key = some v) (hleaf : v.entries? = none)
    (blocks : List (Bytes × Layer)) :
    (((s.mergeAll blocks).layer id).get? key = some v ↔
      ((s.layer id).lookup key).isSome ∨
        ∀ first ∈ (Layer.told key (addedTo id blocks)).head?, first = v) ∧
    (∀ first later, (s.layer id).lookup key = none →
      Layer.told key (addedTo id blocks) = first :: later →
      ((s.mergeAll blocks).layer id).get? key = some (later.foldl Value.merge first)) ∧
    (46 ∉ key → ((s.mergeAll blocks).layer id).get? key = some v) := by
  rw [layer_mergeAll]
  refine ⟨Layer.get?_mergeAll_iff h hleaf _, fun first later hlookup htold => ?_, fun hplain => ?_⟩
  · rw [Layer.get?_mergeAll_of_path hlookup h hleaf, htold]
  · exact Layer.get?_mergeAll_of_entry (Layer.isSome_lookup_of_plain hplain h) h hleaf _

open Text (bytes)

/-- A store in which a key with a dot leads through a nested map. -/
def nested : Store where
  langs := [(bytes "de", [(bytes "a", .map [(bytes "b", .int 1)])])]

/-- A later block hides the value at the end of a path, and blocks after it do not bring it back. -/
theorem layer_mergeAll_keeps_hidden :
    (nested.layer (bytes "de")).get? (bytes "a.b") = some (.int 1) ∧
      Value.entries? (.int 1) = none ∧
      ((nested.mergeAll [(bytes "en", [(bytes "a.b", .int 3)]), (bytes "de", [(bytes "a.b", .int 2)]),
        (bytes "de", [(bytes "a.b", .int 1)])]).layer (bytes "de")).get? (bytes "a.b") =
          some (.int 2) := by
  have h : (nested.layer (bytes "de")).get? (bytes "a.b") = some (.int 1) := by
    have hsplit : Text.splitOn 46 (bytes "a.b") = [bytes "a", bytes "b"] := by decide +kernel
    have houter : (nested.layer (bytes "de")).lookup (bytes "a") =
        some (.map [(bytes "b", .int 1)]) := by rfl
    have hinner : [(bytes "b", Value.int 1)].lookup (bytes "b") = some (.int 1) := by rfl
    rw [Layer.get?_of_path (by rfl), hsplit, Value.at?, houter]
    change Value.at? (.map [(bytes "b", .int 1)]) [bytes "b"] = _
    rw [Value.at?, hinner]
    exact Value.at?.eq_1 _
  obtain ⟨-, hhidden, -⟩ := layer_mergeAll_keeps nested (bytes "de") (bytes "a.b") (.int 1) h rfl
    [(bytes "en", [(bytes "a.b", .int 3)]), (bytes "de", [(bytes "a.b", .int 2)]),
      (bytes "de", [(bytes "a.b", .int 1)])]
  exact ⟨h, rfl, hhidden (.int 2) [.int 1] (by rfl) (by rfl)⟩

end Metadata.Store

end Bindery
