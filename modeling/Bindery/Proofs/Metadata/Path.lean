import Mathlib.Data.List.Dedup
import Mathlib.Data.Option.Basic
import Mathlib.Order.Basic
import Bindery.Proofs.Metadata.FirstWriter

/-!
# Merged layers, path by path

Maps are merged by going through the keys of the second one, in whichever order they come, and putting
into the first what is not set there. `Layer.MergesTo` is this run, with the order of the keys as an
argument, also in the maps inside. What a path leads to afterwards is told by what it led to before
(`merge_paths`), and so the order leaves no trace.
-/

namespace Bindery

namespace Value

/-! ## Where a path leads -/

/-- What a path of keys leads to: to nothing, to a map, or to a value that is no map. -/
inductive Lead where
  | nothing
  | map
  | leaf (v : Value)

/-- What a path leads to in a value. Of a map it only tells that there is one, for further keys lead into
it. -/
def lead (v : Value) (path : List Bytes) : Lead :=
  match v.at? path with
  | none => .nothing
  | some w => if w.entries?.isSome then .map else .leaf w

/-- Values that no path tells apart. -/
def Same (v w : Value) : Prop := ∀ path, v.lead path = w.lead path

/-- The longest beginning of a path that leads to something, and what it leads to. -/
structure Reach (v : Value) (path front : List Bytes) (w : Value) : Prop where
  within : front <+: path
  leads : v.at? front = some w
  longest : ∀ more, more <+: path → (v.at? more).isSome → more.length ≤ front.length

section

variable {v w own other : Value} {entries others : Layer} {key : Bytes} {path front : List Bytes}

theorem at?_append (v : Value) (front path : List Bytes) :
    v.at? (front ++ path) = (v.at? front).bind (·.at? path) := by
  induction front generalizing v with
  | nil => rw [List.nil_append, at?, Option.bind_some]
  | cons key front ih =>
    cases hentries : v.entries? with
    | none => rw [List.cons_append, at?_cons_of_leaf hentries, at?_cons_of_leaf hentries, Option.bind_none]
    | some entries =>
      obtain rfl := eq_map_of_entries? hentries
      rw [List.cons_append, at?, at?]
      cases entries.lookup key with
      | none => rfl
      | some v => exact ih v

/-- Nothing is behind a value that is no map. -/
theorem at?_of_leaf_prefix (hbegins : front <+: path) (hne : front ≠ path) (hfront : v.at? front = some w)
    (hleaf : w.entries? = none) : v.at? path = none := by
  obtain ⟨more, rfl⟩ := hbegins
  cases more with
  | nil => exact absurd (List.append_nil front).symm hne
  | cons key more => rw [at?_append, hfront, Option.bind_some, at?_cons_of_leaf hleaf]

theorem exists_reach (v : Value) (path : List Bytes) : ∃ front w, v.Reach path front w := by
  induction path generalizing v with
  | nil => exact ⟨[], v, List.prefix_rfl, by rw [at?], fun more hmore _ => hmore.length_le⟩
  | cons key path ih =>
    have hstop : (∀ more, v.at? (key :: more) = none) → v.Reach (key :: path) [] v := by
      intro hnone
      refine ⟨List.nil_prefix, by rw [at?], fun more hmore hsome => ?_⟩
      cases more with
      | nil => exact Nat.le_refl _
      | cons key' more =>
        obtain ⟨rfl, -⟩ := List.cons_prefix_cons.1 hmore
        rw [hnone] at hsome
        cases hsome
    cases hentries : v.entries? with
    | none => exact ⟨[], v, hstop fun more => at?_cons_of_leaf hentries key more⟩
    | some entries =>
      obtain rfl := eq_map_of_entries? hentries
      cases hlookup : entries.lookup key with
      | none => exact ⟨[], _, hstop fun more => by rw [at?, hlookup]⟩
      | some u =>
        obtain ⟨front, w, hreach⟩ := ih u
        refine ⟨key :: front, w, List.cons_prefix_cons.2 ⟨rfl, hreach.within⟩, ?_, fun more hmore hsome => ?_⟩
        · rw [at?, hlookup]
          exact hreach.leads
        · cases more with
          | nil => exact Nat.zero_le _
          | cons key' more =>
            obtain ⟨rfl, hless⟩ := List.cons_prefix_cons.1 hmore
            rw [at?, hlookup] at hsome
            exact Nat.succ_le_succ (hreach.longest more hless hsome)

/-- Where the longest beginning leads to a map, no shorter one leads to anything else. -/
theorem Reach.isSome_entries? (h : v.Reach path front w) (hmap : w.entries?.isSome) {less : List Bytes}
    {u : Value} (hless : less <+: path) (hleads : v.at? less = some u) : u.entries?.isSome := by
  by_contra hleaf
  rw [Option.not_isSome_iff_eq_none] at hleaf
  have hbegins : less <+: front :=
    List.prefix_of_prefix_length_le hless h.within (h.longest less hless (by rw [hleads]; rfl))
  by_cases heq : less = front
  · have hwu : w = u := Option.some.inj (h.leads.symm.trans (heq ▸ hleads))
    rw [hwu, hleaf] at hmap
    cases hmap
  · have hnone := at?_of_leaf_prefix hbegins heq hleads hleaf
    rw [h.leads] at hnone
    cases hnone

/-! ## Merging along a path -/

/-- A path that leads to nothing, with maps only on its way, leads where it leads in the other value. -/
theorem at?_merge_of_open (h : own.at? path = none)
    (hopen : ∀ front v, front <+: path → own.at? front = some v → v.entries?.isSome) :
    (own.merge other).at? path = other.at? path := by
  induction path generalizing own other with
  | nil =>
    rw [at?] at h
    cases h
  | cons key path ih =>
    obtain ⟨entries, hentries⟩ := Option.isSome_iff_exists.1 (hopen [] own List.nil_prefix (by rw [at?]))
    obtain rfl := eq_map_of_entries? hentries
    cases hother : other.entries? with
    | none => rw [map_merge_of_leaf hother, at?_cons_of_leaf hother, h]
    | some others =>
      obtain rfl := eq_map_of_entries? hother
      change (Value.map (Layer.merge entries others)).at? (key :: path) = _
      rw [at?] at h
      rw [at?, at?, Layer.lookup_merge]
      cases hentry : entries.lookup key with
      | none => rfl
      | some o =>
        rw [hentry] at h
        cases others.lookup key with
        | none => exact h
        | some w =>
          refine ih h fun front v hfront hleads => hopen (key :: front) v ?_ ?_
          · exact List.cons_prefix_cons.2 ⟨rfl, hfront⟩
          · rw [at?, hentry]
            exact hleads

theorem at?_merge_of_leaf (h : own.at? path = some v) (hleaf : v.entries? = none) (other : Value) :
    (own.merge other).at? path = some v := by
  rw [at?_merge_of_some h]
  split
  · rw [merge_of_leaf hleaf]
  · rfl

/-- Behind what is no map there is nothing, also when it is merged. -/
theorem at?_merge_of_closed (hfront : front <+: path) (hleads : own.at? front = some v)
    (hleaf : v.entries? = none) (h : own.at? path = none) (other : Value) :
    (own.merge other).at? path = none := by
  refine at?_of_leaf_prefix hfront ?_ (at?_merge_of_leaf hleads hleaf other) hleaf
  rintro rfl
  rw [h] at hleads
  cases hleads

theorem at?_merge_of_reach (hreach : own.Reach path front v) (h : own.at? path = none) (other : Value) :
    (own.merge other).at? path = if v.entries?.isSome then other.at? path else none := by
  split
  · next hmap => exact at?_merge_of_open h fun less u hless hleads => hreach.isSome_entries? hmap hless hleads
  · next hmap =>
    exact at?_merge_of_closed hreach.within hreach.leads (Option.not_isSome_iff_eq_none.1 hmap) h other

/-! ## Values that no path tells apart -/

theorem lead_eq_nothing : v.lead path = .nothing ↔ v.at? path = none := by
  rw [lead]
  cases v.at? path with
  | none => exact iff_of_true rfl rfl
  | some w =>
    refine iff_of_false ?_ nofun
    dsimp only
    split <;> exact nofun

theorem lead_eq_leaf : v.lead path = .leaf w ↔ v.at? path = some w ∧ w.entries? = none := by
  rw [lead]
  cases v.at? path with
  | none => exact iff_of_false nofun fun h => nomatch h.1
  | some u =>
    dsimp only
    split
    · next hmap =>
      refine iff_of_false nofun ?_
      rintro ⟨heq, hleaf⟩
      rw [Option.some.inj heq, hleaf] at hmap
      cases hmap
    · next hmap =>
      rw [Lead.leaf.injEq, Option.some.injEq]
      refine ⟨fun heq => ⟨heq, ?_⟩, And.left⟩
      rw [← heq]
      exact Option.not_isSome_iff_eq_none.1 hmap

theorem lead_cons (entries : Layer) (key : Bytes) (path : List Bytes) :
    (map entries).lead (key :: path) =
      match entries.lookup key with
      | some v => v.lead path
      | none => .nothing := by
  rw [lead, at?]
  cases entries.lookup key <;> rfl

theorem lead_nil (entries : Layer) : (map entries).lead [] = .map := by
  rw [lead, at?]
  rfl

theorem Same.rfl : v.Same v := fun _ => Eq.refl _

/-- Maps with the same values under every key are the same. -/
theorem same_map (h : ∀ key, Option.Rel Same (entries.lookup key) (others.lookup key)) :
    (map entries).Same (map others) := by
  intro path
  cases path with
  | nil => rw [lead_nil, lead_nil]
  | cons key path =>
    rw [lead_cons, lead_cons]
    have hkey := h key
    generalize entries.lookup key = v at hkey
    generalize others.lookup key = w at hkey
    cases hkey with
    | none => exact Eq.refl _
    | some hsame => exact hsame path

/-- What a path led to is kept by a merge. -/
theorem lead_merge (h : own.lead path ≠ .nothing) (other : Value) :
    (own.merge other).lead path = own.lead path := by
  have hsome : (own.at? path).isSome := by
    rw [Option.isSome_iff_ne_none]
    exact fun hnone => h (lead_eq_nothing.2 hnone)
  obtain ⟨v, hv⟩ := Option.isSome_iff_exists.1 hsome
  rw [lead, lead, hv, at?_merge_of_some hv]
  dsimp only
  split
  · next w _ =>
    cases hentries : v.entries? with
    | none => rw [merge_of_leaf hentries, hentries]
    | some entries =>
      have hmerged : (v.merge w).entries?.isSome := by
        rw [Option.isSome_iff_ne_none, Ne, entries?_merge_eq_none, hentries]
        exact Option.some_ne_none entries
      rw [if_pos hmerged]
      exact (if_pos (Eq.refl true)).symm
  · exact Eq.refl _

/-- What has taken in a value is not changed by it any more. -/
theorem same_merge_of_same (hsame : v.Same (own.merge other)) : (v.merge other).Same v := by
  intro path
  by_cases hlead : v.lead path = .nothing
  · rw [hlead, lead_eq_nothing]
    have hmerged : (own.merge other).at? path = none := by
      rw [← lead_eq_nothing, ← hsame path]
      exact hlead
    have hnone := lead_eq_nothing.1 hlead
    obtain ⟨front, w, hreach⟩ := exists_reach v path
    rw [at?_merge_of_reach hreach hnone]
    split
    · next hmap =>
      -- No value that is no map is on the way, so the path would lead to what it leads to in `other`.
      have hown : own.at? path = none := by
        by_contra hsome
        have hkept := lead_merge (fun h => hsome (lead_eq_nothing.1 h)) other
        rw [lead_eq_nothing.2 hmerged] at hkept
        exact hsome (lead_eq_nothing.1 hkept.symm)
      rw [← at?_merge_of_open hown ?_, hmerged]
      intro less u hless hleads
      by_contra hleaf
      rw [Option.not_isSome_iff_eq_none] at hleaf
      have hvless : v.lead less = .leaf u := by
        rw [hsame less, lead_eq_leaf]
        exact ⟨at?_merge_of_leaf hleads hleaf other, hleaf⟩
      have hmaps := hreach.isSome_entries? hmap hless (lead_eq_leaf.1 hvless).1
      rw [hleaf] at hmaps
      cases hmaps
    · rfl
  · exact lead_merge hlead other

end

end Value

namespace Layer

/-! ## Going through the keys -/

/-- Layers that no path tells apart. -/
def Same (own other : Layer) : Prop := (Value.map own).Same (.map other)

def put (own : Layer) (key : Bytes) (v : Value) : Layer := (key, v) :: own.filter (·.1 != key)

/-- An order of the keys of a layer. -/
def Enumerates (other : Layer) (keys : List Bytes) : Prop :=
  keys.Nodup ∧ ∀ key, key ∈ keys ↔ (other.lookup key).isSome

/-- Going through keys of `other` one by one makes `result` of `own`. What is not set is set; two maps under
a key are merged in the same way, their keys in any order; of anything else the first is kept. -/
inductive MergesTo : Layer → Layer → List Bytes → Layer → Prop
  | done (other own : Layer) : MergesTo other own [] own
  | add {other own result : Layer} {key : Bytes} {keys : List Bytes} {v : Value}
      (hown : own.lookup key = none) (hother : other.lookup key = some v)
      (h : MergesTo other (own.put key v) keys result) : MergesTo other own (key :: keys) result
  | join {other own result entries others joined : Layer} {key : Bytes} {keys inner : List Bytes}
      (hown : own.lookup key = some (.map entries)) (hother : other.lookup key = some (.map others))
      (hinner : others.Enumerates inner) (hjoined : MergesTo others entries inner joined)
      (h : MergesTo other (own.put key (.map joined)) keys result) : MergesTo other own (key :: keys) result
  | keep {other own result : Layer} {key : Bytes} {keys : List Bytes} {v w : Value}
      (hown : own.lookup key = some v) (hother : other.lookup key = some w)
      (hleaf : v.entries? = none ∨ w.entries? = none) (h : MergesTo other own keys result) :
      MergesTo other own (key :: keys) result

section

variable {own other result : Layer} {key : Bytes} {keys : List Bytes} {v : Value}

theorem lookup_put_self (own : Layer) (key : Bytes) (v : Value) : (own.put key v).lookup key = some v := by
  rw [put, List.lookup_cons, beq_self_eq_true]

theorem lookup_put_of_ne {other : Bytes} (h : other ≠ key) (own : Layer) (v : Value) :
    (own.put key v).lookup other = own.lookup other := by
  rw [put, List.lookup_cons, beq_false_of_ne h]
  exact Metadata.Store.lookup_filter_ne own h

/-- What is under a key after a merge depends on what is under it in the two layers only. -/
theorem lookup_merge_put_of_ne {k : Bytes} (h : k ≠ key) (own other : Layer) (v : Value) :
    ((own.put key v).merge other).lookup k = (own.merge other).lookup k := by
  rw [lookup_merge, lookup_merge, lookup_put_of_ne h]

/-- If going through all keys gives what the merge has under them, it gives the merge. -/
theorem same_merge_of_lookup (hkeys : other.Enumerates keys)
    (hout : ∀ key ∉ keys, result.lookup key = own.lookup key)
    (hin : ∀ key ∈ keys, Option.Rel Value.Same (result.lookup key) ((own.merge other).lookup key)) :
    result.Same (own.merge other) := by
  apply Value.same_map
  intro key
  by_cases hmem : key ∈ keys
  · exact hin key hmem
  · have hnone : other.lookup key = none := by
      rw [← Option.not_isSome_iff_eq_none, ← hkeys.2 key]
      exact hmem
    rw [hout key hmem, lookup_merge, hnone]
    cases own.lookup key with
    | none => exact .none
    | some v => exact .some Value.Same.rfl

/-- Every key is visited once, and what is done there shows in the result. -/
theorem MergesTo.lookup (h : MergesTo other own keys result) (hnodup : keys.Nodup) :
    (∀ key ∉ keys, result.lookup key = own.lookup key) ∧
      ∀ key ∈ keys, Option.Rel Value.Same (result.lookup key) ((own.merge other).lookup key) := by
  induction h with
  | done => exact ⟨fun _ _ => rfl, nofun⟩
  | @add other own result key keys v hown hother _ ih =>
    obtain ⟨hkey, hnodup⟩ := List.nodup_cons.1 hnodup
    obtain ⟨hout, hin⟩ := ih hnodup
    refine ⟨fun k hk => ?_, fun k hk => ?_⟩
    · obtain ⟨hne, hk⟩ := not_or.1 (List.mem_cons.not.1 hk)
      rw [hout k hk, lookup_put_of_ne hne]
    · rcases List.mem_cons.1 hk with rfl | hk
      · rw [hout k hkey, lookup_put_self, lookup_merge, hown, hother]
        exact .some Value.Same.rfl
      · rw [← lookup_merge_put_of_ne (ne_of_mem_of_not_mem hk hkey) own other v]
        exact hin k hk
  | @join other own result entries others joined key keys inner hown hother hinner _ _ ihinner ih =>
    obtain ⟨hkey, hnodup⟩ := List.nodup_cons.1 hnodup
    obtain ⟨hout, hin⟩ := ih hnodup
    refine ⟨fun k hk => ?_, fun k hk => ?_⟩
    · obtain ⟨hne, hk⟩ := not_or.1 (List.mem_cons.not.1 hk)
      rw [hout k hk, lookup_put_of_ne hne]
    · rcases List.mem_cons.1 hk with rfl | hk
      · obtain ⟨houtInner, hinInner⟩ := ihinner hinner.1
        rw [hout k hkey, lookup_put_self, lookup_merge, hown, hother]
        exact .some (same_merge_of_lookup hinner houtInner hinInner)
      · rw [← lookup_merge_put_of_ne (ne_of_mem_of_not_mem hk hkey) own other (.map joined)]
        exact hin k hk
  | @keep other own result key keys v w hown hother hleaf _ ih =>
    obtain ⟨hkey, hnodup⟩ := List.nodup_cons.1 hnodup
    obtain ⟨hout, hin⟩ := ih hnodup
    refine ⟨fun k hk => hout k fun hmem => hk (List.mem_cons_of_mem _ hmem), fun k hk => ?_⟩
    rcases List.mem_cons.1 hk with rfl | hk
    · have hmerge : v.merge w = v := by
        cases hentries : v.entries? with
        | none => exact Value.merge_of_leaf hentries w
        | some entries =>
          obtain rfl := Value.eq_map_of_entries? hentries
          exact Value.map_merge_of_leaf (hleaf.resolve_left nofun) entries
      rw [hout k hkey, lookup_merge, hown, hother]
      dsimp only
      rw [hmerge]
      exact .some Value.Same.rfl
    · exact hin k hk

/-- Whatever the order of the keys, the result is the merge. -/
theorem MergesTo.same (h : MergesTo other own keys result) (hkeys : other.Enumerates keys) :
    result.Same (own.merge other) :=
  same_merge_of_lookup hkeys (h.lookup hkeys.1).1 (h.lookup hkeys.1).2

theorem isSome_lookup : (other.lookup key).isSome ↔ key ∈ other.map Prod.fst := by
  rw [Option.isSome_iff_ne_none, Ne, List.lookup_eq_none_iff]
  simp

theorem exists_enumerates (other : Layer) : ∃ keys, other.Enumerates keys :=
  ⟨(other.map Prod.fst).dedup, List.nodup_dedup _, fun _ => List.mem_dedup.trans isSome_lookup.symm⟩

theorem sizeOf_lt_of_lookup {others : Layer} (h : other.lookup key = some (.map others)) :
    sizeOf others < sizeOf other := by
  obtain ⟨front, back, rfl, -⟩ := List.lookup_eq_some_iff.1 h
  have hmem : (key, Value.map others) ∈ front ++ (key, Value.map others) :: back := by simp
  have hlt := List.sizeOf_lt_of_mem hmem
  simp only [Prod.mk.sizeOf_spec, Value.map.sizeOf_spec] at hlt
  omega

/-- The keys can be gone through in every order. -/
theorem exists_mergesTo (own : Layer) (hkeys : ∀ key ∈ keys, (other.lookup key).isSome) :
    ∃ result, MergesTo other own keys result := by
  induction hsize : sizeOf other using Nat.strongRecOn generalizing own other keys with
  | ind size ihsize =>
    subst hsize
    induction keys generalizing own with
    | nil => exact ⟨own, .done other own⟩
    | cons key keys ih =>
      obtain ⟨hkey, hkeys⟩ := List.forall_mem_cons.1 hkeys
      obtain ⟨w, hother⟩ := Option.isSome_iff_exists.1 hkey
      cases hown : own.lookup key with
      | none =>
        obtain ⟨result, h⟩ := ih (own.put key w) hkeys
        exact ⟨result, .add hown hother h⟩
      | some v =>
        by_cases hleaf : v.entries? = none ∨ w.entries? = none
        · obtain ⟨result, h⟩ := ih own hkeys
          exact ⟨result, .keep hown hother hleaf h⟩
        · obtain ⟨hv, hw⟩ := not_or.1 hleaf
          obtain ⟨entries, hv⟩ := Option.ne_none_iff_exists'.1 hv
          obtain ⟨others, hw⟩ := Option.ne_none_iff_exists'.1 hw
          obtain rfl := Value.eq_map_of_entries? hv
          obtain rfl := Value.eq_map_of_entries? hw
          obtain ⟨inner, hinner⟩ := exists_enumerates others
          obtain ⟨joined, hjoined⟩ := ihsize (sizeOf others) (sizeOf_lt_of_lookup hother) entries
            (fun key hkey => (hinner.2 key).1 hkey) rfl
          obtain ⟨result, h⟩ := ih (own.put key (.map joined)) hkeys
          exact ⟨result, .join hown hother hinner hjoined h⟩

end

/-- **Merging, path by path.** A path that led to a value that is no map leads to the same value, and one
that led to a map leads to a map. A path that led to nothing leads to what it leads to in the other layer if
its longest beginning that led to something led to a map, and to nothing otherwise. The keys of the other
layer can be gone through in every order, in the maps inside as well, and no path tells the results apart;
doing so again, in any order, changes nothing. -/
theorem merge_paths (own other : Layer) :
    (∀ path v, (Value.map own).at? path = some v → v.entries? = none →
      (Value.map (own.merge other)).at? path = some v) ∧
    (∀ path entries, (Value.map own).at? path = some (.map entries) →
      ∃ merged, (Value.map (own.merge other)).at? path = some (.map merged)) ∧
    (∀ path, (Value.map own).at? path = none → ∃ front v, (Value.map own).Reach path front v ∧
      (Value.map (own.merge other)).at? path =
        if v.entries?.isSome then (Value.map other).at? path else none) ∧
    (∀ keys, other.Enumerates keys → (∃ result, MergesTo other own keys result) ∧
      ∀ result, MergesTo other own keys result → result.Same (own.merge other)) ∧
    (∀ result, result.Same (own.merge other) → (result.merge other).Same result ∧
      ∀ keys again, other.Enumerates keys → MergesTo other result keys again → again.Same result) := by
  refine ⟨fun path v h hleaf => ?_, fun path entries h => ?_, fun path h => ?_, fun keys hkeys => ?_,
    fun result hresult => ?_⟩
  · exact Value.at?_merge_of_leaf h hleaf (.map other)
  · change ∃ merged, ((Value.map own).merge (.map other)).at? path = some (.map merged)
    rw [Value.at?_merge_of_some h]
    cases (Value.map other).at? path with
    | none => exact ⟨entries, rfl⟩
    | some w =>
      cases hw : w.entries? with
      | none => exact ⟨entries, congrArg some (Value.map_merge_of_leaf hw entries)⟩
      | some others =>
        obtain rfl := Value.eq_map_of_entries? hw
        exact ⟨Layer.merge entries others, rfl⟩
  · obtain ⟨front, v, hreach⟩ := Value.exists_reach (.map own) path
    exact ⟨front, v, hreach, Value.at?_merge_of_reach hreach h (.map other)⟩
  · exact ⟨exists_mergesTo own fun key hkey => (hkeys.2 key).1 hkey, fun result h => h.same hkeys⟩
  · have hmerged : (result.merge other).Same result :=
      @Value.same_merge_of_same (.map result) (.map own) (.map other) hresult
    refine ⟨hmerged, fun keys again hkeys h path => ?_⟩
    rw [h.same hkeys path]
    exact hmerged path

open Text (bytes)

/-- The second key is taken first, and under it a map meets a number, which stays; under the first key two
maps meet. -/
theorem merge_paths_nested :
    let own : Layer := [(bytes "a", .map [(bytes "b", .int 1)]), (bytes "x", .int 5)]
    let other : Layer := [(bytes "a", .map [(bytes "c", .int 2)]), (bytes "x", .map [(bytes "y", .int 3)])]
    (Value.map own).at? [bytes "x"] = some (.int 5) ∧ Value.entries? (.int 5) = none ∧
      (Value.map (own.merge other)).at? [bytes "x"] = some (.int 5) ∧
      other.Enumerates [bytes "x", bytes "a"] ∧
      ∃ result, MergesTo other own [bytes "x", bytes "a"] result ∧ result.Same (own.merge other) := by
  intro own other
  have hown : (Value.map own).at? [bytes "x"] = some (.int 5) := by
    have hlookup : own.lookup (bytes "x") = some (.int 5) := by rfl
    rw [Value.at?, hlookup]
    exact Value.at?.eq_1 _
  have hkeys : other.Enumerates [bytes "x", bytes "a"] := by
    refine ⟨by decide, fun key => ?_⟩
    rw [isSome_lookup, List.map_cons, List.map_cons, List.map_nil, List.mem_pair, List.mem_pair, or_comm]
  obtain ⟨hleaf, -, -, hruns, -⟩ := merge_paths own other
  obtain ⟨⟨result, hresult⟩, hsame⟩ := hruns _ hkeys
  exact ⟨hown, rfl, hleaf _ _ hown rfl, hkeys, result, hresult, hsame result hresult⟩

end Layer

end Bindery
