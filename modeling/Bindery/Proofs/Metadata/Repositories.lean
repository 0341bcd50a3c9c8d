import Mathlib.Data.List.Nodup
import Bindery.Metadata.Store
import Bindery.Proofs.Listing.Extract

/-!
# Repository lists

The repositories of a language are a table: one address for each mnemonic, and no address is empty. A
mnemonic that the book declares is in the table of every language.
-/

namespace Bindery.Metadata

/-- What a list of repositories can be looked up in: it has each mnemonic once, and no address is
empty. -/
structure Tabulated (list : List Repository) : Prop where
  nodup : (list.map (·.id)).Nodup
  url_ne_nil : ∀ r ∈ list, r.url ≠ []

/-- The address that a list of repositories gives for a mnemonic. -/
def address? (list : List Repository) (mnemonic : Bytes) : Option Bytes :=
  (list.find? (·.id == mnemonic)).map (·.url)

variable {list done rest : List Repository} {mnemonic url : Bytes}

theorem mem_of_address? (h : address? list mnemonic = some url) : { id := mnemonic, url } ∈ list := by
  obtain ⟨r, hfind, rfl⟩ := Option.map_eq_some_iff.1 h
  obtain rfl : r.id = mnemonic := by simpa using List.find?_some hfind
  exact List.mem_of_find?_eq_some hfind

theorem address?_eq_none_iff : address? list mnemonic = none ↔ mnemonic ∉ list.map (·.id) := by
  simp [address?]

theorem address?_cons (r : Repository) (list : List Repository) (mnemonic : Bytes) :
    address? (r :: list) mnemonic = if r.id = mnemonic then some r.url else address? list mnemonic := by
  by_cases h : r.id = mnemonic <;> simp [address?, h]

theorem Tabulated.address?_of_mem (h : Tabulated list) (hmem : { id := mnemonic, url } ∈ list) :
    address? list mnemonic = some url := by
  have hsome : address? list mnemonic ≠ none := by
    rw [Ne, address?_eq_none_iff, not_not]
    exact List.mem_map.2 ⟨_, hmem, rfl⟩
  obtain ⟨url', hfound⟩ := Option.ne_none_iff_exists'.1 hsome
  have heq := List.inj_on_of_nodup_map h.nodup (mem_of_address? hfound) hmem rfl
  rw [hfound, (Repository.mk.inj heq).2]

/-! ## Collecting -/

theorem map_id_putRepository (list : List Repository) (r : Repository) :
    (Store.putRepository list r).map (·.id) =
      if r.id ∈ list.map (·.id) then list.map (·.id) else list.map (·.id) ++ [r.id] := by
  have hany : (list.any (·.id == r.id) = true) ↔ r.id ∈ list.map (·.id) := by simp
  rw [Store.putRepository]
  by_cases h : r.id ∈ list.map (·.id)
  · rw [if_pos (hany.2 h), if_pos h, List.map_map]
    refine List.map_congr_left fun o _ => ?_
    by_cases ho : o.id = r.id <;> simp [ho]
  · rw [if_neg (mt hany.1 h), if_neg h, List.map_append]
    rfl

theorem tabulated_putRepository (h : Tabulated list) {r : Repository} (hr : r.url ≠ []) :
    Tabulated (Store.putRepository list r) where
  nodup := by
    rw [map_id_putRepository]
    split
    · exact h.nodup
    · next hnew => simpa using h.nodup.concat hnew
  url_ne_nil := by
    intro o ho
    rw [Store.putRepository] at ho
    split at ho
    · obtain ⟨o', ho', heq⟩ := List.mem_map.1 ho
      split at heq
      · exact heq ▸ hr
      · exact heq ▸ h.url_ne_nil o' ho'
    · rcases List.mem_append.1 ho with ho | ho
      · exact h.url_ne_nil o ho
      · exact List.mem_singleton.1 ho ▸ hr

theorem tabulated_collect (h : Tabulated done) (hcollect : Store.collect done rest = .ok list) :
    Tabulated list ∧ ∀ id, id ∈ list.map (·.id) ↔ id ∈ done.map (·.id) ∨ id ∈ rest.map (·.id) := by
  induction rest generalizing done with
  | nil =>
    obtain rfl := Except.ok.inj hcollect
    exact ⟨h, fun id => by simp⟩
  | cons r rest ih =>
    rw [Store.collect] at hcollect
    split at hcollect
    · cases hcollect
    · next hfilled =>
      have hr : r.url ≠ [] := by
        intro hempty
        simp [hempty] at hfilled
      obtain ⟨htable, hids⟩ := ih (tabulated_putRepository h hr) hcollect
      refine ⟨htable, fun id => ?_⟩
      rw [hids, map_id_putRepository, List.map_cons, List.mem_cons]
      split
      · next hknown => grind
      · rw [List.mem_append, List.mem_singleton, or_assoc]

/-- Collected declarations form a table of all their mnemonics. -/
theorem tabulated_of_collect (h : Store.collect [] rest = .ok list) :
    Tabulated list ∧ ∀ id, id ∈ list.map (·.id) ↔ id ∈ rest.map (·.id) := by
  have hempty : Tabulated [] := ⟨List.nodup_nil, fun r hr => nomatch hr⟩
  simpa using tabulated_collect hempty h

/-! ## The repositories of a language -/

variable {store : Store} {lang : Bytes}

theorem exists_collect (h : store.repositories lang = .ok list) :
    ∃ base own, Store.declared store.base [] = .ok base ∧ Store.collect [] (base ++ own) = .ok list ∧
      (lang = [] → own = []) := by
  rw [Store.repositories] at h
  obtain ⟨base, hbase, h⟩ := Listing.exists_of_bind_eq_ok h
  dsimp only at h
  split at h
  · exact ⟨base, [], hbase, h, fun _ => rfl⟩
  · next hlang =>
    obtain ⟨own, -, h⟩ := Listing.exists_of_bind_eq_ok h
    exact ⟨base, own, hbase, h, fun hnil => absurd (congrArg List.isEmpty hnil) hlang⟩

theorem tabulated_repositories (h : store.repositories lang = .ok list) : Tabulated list := by
  obtain ⟨base, own, -, hcollect, -⟩ := exists_collect h
  exact (tabulated_of_collect hcollect).1

/-- What a language does not have, the book does not declare. -/
theorem address?_base_of_none {base : List Repository} (hbase : store.repositories [] = .ok base)
    (h : store.repositories lang = .ok list) (hnone : address? list mnemonic = none) :
    address? base mnemonic = none := by
  obtain ⟨declared, own, hdeclared, hcollect, hown⟩ := exists_collect hbase
  obtain ⟨declared', own', hdeclared', hcollect', -⟩ := exists_collect h
  obtain rfl : declared = declared' := Except.ok.inj (hdeclared.symm.trans hdeclared')
  obtain rfl := hown rfl
  rw [address?_eq_none_iff, (tabulated_of_collect hcollect').2, List.map_append] at hnone
  rw [address?_eq_none_iff, (tabulated_of_collect hcollect).2, List.append_nil]
  exact mt (List.mem_append_left _) hnone

end Bindery.Metadata
