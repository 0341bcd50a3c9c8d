import Bindery.Build.Session
import Bindery.Proofs.Metadata.Repositories
import Bindery.Proofs.Repository.Requests

/-!
# The references of a book

The repository lists of the book and of its languages are folded into one reference for each mnemonic,
with an address and overrides. A language is served from what its own list says, however the other lists
differ. What the fold does not keep is that a language does *not* have a repository: a mnemonic that
only other languages have is a reference with an empty address for all the rest.
-/

namespace Bindery.Build

open Metadata (Store address?)
open Repository (Reference Fetcher Cache pairOf)
open Text (bytes)

/-! ## Adding a repository -/

/-- The reference of a mnemonic, `known` so far, once a language gives it an address. -/
def overridden (lang mnemonic url : Bytes) (known : Option Reference) : Reference :=
  match known with
  | none => { mnemonic, url := [], overrides := [(lang, url)] }
  | some ref => if ref.url = url then ref else { ref with overrides := (lang, url) :: ref.overrides }

section Adding

variable {lang mnemonic : Bytes} {refs : List Reference}

theorem mnemonic_of_reference? {ref : Reference} (h : Cache.reference? { refs } mnemonic = some ref) :
    ref.mnemonic = mnemonic := by
  simpa using List.find?_some h

/-- Changing references, but not their mnemonics, changes what is found. -/
theorem reference?_map (f : Reference → Reference) (hf : ∀ ref, (f ref).mnemonic = ref.mnemonic)
    (refs : List Reference) (mnemonic : Bytes) :
    Cache.reference? { refs := refs.map f } mnemonic = (Cache.reference? { refs } mnemonic).map f := by
  simp only [Cache.reference?, ← List.map_reverse, List.find?_map]
  congr 2
  funext ref
  simp only [Function.comp, hf]

theorem reference?_append_singleton (refs : List Reference) (ref : Reference) (mnemonic : Bytes) :
    Cache.reference? { refs := refs ++ [ref] } mnemonic =
      if ref.mnemonic = mnemonic then some ref else Cache.reference? { refs } mnemonic := by
  by_cases h : ref.mnemonic = mnemonic <;> simp [Cache.reference?, h]

theorem reference?_addReference (lang : Bytes) (refs : List Reference) (r : Metadata.Repository)
    (mnemonic : Bytes) :
    Cache.reference? { refs := addReference lang refs r } mnemonic =
      if r.id = mnemonic then some (overridden lang r.id r.url (Cache.reference? { refs } mnemonic))
      else Cache.reference? { refs } mnemonic := by
  have hknown : (refs.any (·.mnemonic == r.id) = true) ↔ Cache.reference? { refs } r.id ≠ none := by
    simp [Cache.reference?]
  rw [addReference]
  split
  · next hany =>
    rw [reference?_map _ (by intro ref; split <;> rfl)]
    cases href : Cache.reference? { refs } mnemonic with
    | none =>
      rw [if_neg]
      · rfl
      · rintro rfl
        exact hknown.1 hany href
    | some ref =>
      have hsame := mnemonic_of_reference? href
      by_cases hid : r.id = mnemonic
      · by_cases hurl : ref.url = r.url <;> simp [overridden, hsame, hid, hurl]
      · simp [hsame, hid, Ne.symm hid]
  · next hany =>
    have hnone : Cache.reference? { refs } r.id = none := by
      by_contra hsome
      exact hany (hknown.2 hsome)
    rw [reference?_append_singleton]
    split
    · next hid => rw [← hid, hnone, overridden]
    · rfl

theorem reference?_foldl {list : List Metadata.Repository} (hlist : (list.map (·.id)).Nodup)
    (lang : Bytes) (refs : List Reference) (mnemonic : Bytes) :
    Cache.reference? { refs := list.foldl (addReference lang) refs } mnemonic =
      match address? list mnemonic with
      | none => Cache.reference? { refs } mnemonic
      | some url => some (overridden lang mnemonic url (Cache.reference? { refs } mnemonic)) := by
  induction list generalizing refs with
  | nil => rfl
  | cons r list ih =>
    obtain ⟨hfresh, hlist⟩ := List.nodup_cons.1 hlist
    rw [List.foldl_cons, ih hlist, reference?_addReference, Metadata.address?_cons]
    by_cases hid : r.id = mnemonic
    · subst hid
      rw [Metadata.address?_eq_none_iff.2 hfresh, if_pos rfl, if_pos rfl]
    · rw [if_neg hid, if_neg hid]

theorem reference?_base {list : List Metadata.Repository} (hlist : (list.map (·.id)).Nodup)
    (mnemonic : Bytes) :
    Cache.reference? { refs := list.map fun r => { mnemonic := r.id, url := r.url } } mnemonic =
      (address? list mnemonic).map fun url => { mnemonic, url } := by
  induction list with
  | nil => rfl
  | cons r list ih =>
    obtain ⟨hfresh, hlist⟩ := List.nodup_cons.1 hlist
    have hfind := ih hlist
    simp only [Cache.reference?] at hfind ⊢
    rw [List.map_cons, List.reverse_cons, List.find?_append, hfind, Metadata.address?_cons]
    by_cases hid : r.id = mnemonic
    · subst hid
      rw [Metadata.address?_eq_none_iff.2 hfresh]
      simp
    · cases address? list mnemonic <;> simp [hid]

end Adding

/-! ## The fold -/

/-- The address that the list of a language gives for a mnemonic. -/
def addressFor (store : Store) (lang mnemonic : Bytes) : Option Bytes :=
  (store.repositories lang).toOption.bind (address? · mnemonic)

/-- The reference of a mnemonic once the lists of some languages were added to those of the book. An
override is there exactly for a language that gives another address than the reference has. -/
inductive Declares (store : Store) (done : List Bytes) (mnemonic : Bytes) : Option Reference → Prop
  | absent (hbase : addressFor store [] mnemonic = none)
      (hdone : ∀ lang ∈ done, addressFor store lang mnemonic = none) :
      Declares store done mnemonic none
  | present {ref : Reference} (hurl : ref.url = (addressFor store [] mnemonic).getD [])
      (hoverrides : ∀ lang, ref.overrides.lookup lang =
        if lang ∈ done then (addressFor store lang mnemonic).filter (· ≠ ref.url) else none)
      (hknown : addressFor store [] mnemonic ≠ none ∨
        ∃ lang ∈ done, addressFor store lang mnemonic ≠ none) :
      Declares store done mnemonic (some ref)

section Fold

variable {store : Store} {lang mnemonic : Bytes} {done : List Bytes} {refs : List Reference}

theorem addressFor_of_ok {list : List Metadata.Repository} (h : store.repositories lang = .ok list)
    (mnemonic : Bytes) : addressFor store lang mnemonic = address? list mnemonic := by
  rw [addressFor, h]
  rfl

theorem declares_base {list : List Metadata.Repository} (h : store.repositories [] = .ok list)
    (mnemonic : Bytes) :
    Declares store [] mnemonic
      (Cache.reference? { refs := list.map fun r => { mnemonic := r.id, url := r.url } } mnemonic) := by
  rw [reference?_base (Metadata.tabulated_repositories h).nodup, ← addressFor_of_ok h]
  cases hbase : addressFor store [] mnemonic with
  | none => exact .absent hbase nofun
  | some url =>
    refine .present ?_ (fun _ => rfl) (.inl ?_)
    · rw [hbase, Option.getD_some]
    · rw [hbase]
      exact Option.some_ne_none url

theorem Declares.skip {known : Option Reference} (h : Declares store done mnemonic known)
    (hnew : lang ∉ done)
    (hlang : ∀ ref, known = some ref → (addressFor store lang mnemonic).filter (· ≠ ref.url) = none)
    (hnone : known = none → addressFor store lang mnemonic = none) :
    Declares store (done ++ [lang]) mnemonic known := by
  cases h with
  | absent hbase hdone =>
    refine .absent hbase fun other hother => ?_
    rcases List.mem_append.1 hother with hother | hother
    · exact hdone other hother
    · exact List.mem_singleton.1 hother ▸ hnone rfl
  | @present ref hurl hoverrides hknown =>
    refine .present hurl (fun other => ?_) ?_
    · rw [hoverrides other]
      by_cases hother : other = lang
      · subst hother
        rw [if_neg hnew, if_pos (List.mem_append_right _ (List.mem_singleton_self _)), hlang ref rfl]
      · simp [hother]
    · exact hknown.imp id fun ⟨other, hmem, h⟩ => ⟨other, List.mem_append_left _ hmem, h⟩

theorem Declares.override {known : Option Reference} (h : Declares store done mnemonic known)
    (hnew : lang ∉ done) {url : Bytes} (hurl : url ≠ [])
    (hlang : addressFor store lang mnemonic = some url) :
    Declares store (done ++ [lang]) mnemonic (some (overridden lang mnemonic url known)) := by
  have hadded : ∃ other ∈ done ++ [lang], addressFor store other mnemonic ≠ none :=
    ⟨lang, List.mem_append_right _ (List.mem_singleton_self _), by rw [hlang]; exact nofun⟩
  cases h with
  | absent hbase hdone =>
    refine .present ?_ (fun other => ?_) (.inr hadded)
    · rw [hbase]
      rfl
    · by_cases hother : other = lang
      · subst hother
        simp [overridden, hlang, hurl, Option.filter_some]
      · have hbeq : (other == lang) = false := beq_false_of_ne hother
        by_cases hmem : other ∈ done
        · simp [overridden, hbeq, hmem, hdone other hmem]
        · simp [overridden, hbeq, hmem, hother]
  | @present ref hbase hoverrides hknown =>
    by_cases hsame : ref.url = url
    · have hkept : overridden lang mnemonic url (some ref) = ref := by
        rw [overridden, if_pos hsame]
      rw [hkept]
      refine Declares.skip (.present hbase hoverrides hknown) hnew ?_ nofun
      intro _ heq
      simp [hlang, ← Option.some.inj heq, hsame, Option.filter_some]
    · rw [overridden, if_neg hsame]
      refine .present hbase (fun other => ?_) (.inr hadded)
      by_cases hother : other = lang
      · subst hother
        simp [hlang, Ne.symm hsame, Option.filter_some]
      · have hbeq : (other == lang) = false := beq_false_of_ne hother
        simp [List.lookup_cons, hbeq, hoverrides, hother]

/-- The list of one more language is added. The unnamed language has the list of the book, which gives
nothing new. -/
theorem declares_addReferences {d : Descriptor} {more : List Reference}
    (h : Declares store done mnemonic (Cache.reference? { refs } mnemonic)) (hnew : d.id ∉ done)
    (hadd : addReferences store refs d = .ok more) :
    Declares store (done ++ [d.id]) mnemonic (Cache.reference? { refs := more } mnemonic) := by
  rw [addReferences] at hadd
  split at hadd
  · next hunnamed =>
    obtain rfl := Except.ok.inj hadd
    have hid : d.id = [] := List.isEmpty_iff.1 hunnamed
    rw [hid] at hnew ⊢
    cases hknown : Cache.reference? { refs } mnemonic with
    | none =>
      rw [hknown] at h
      cases h with
      | absent hbase hdone => exact Declares.skip (.absent hbase hdone) hnew nofun fun _ => hbase
    | some ref =>
      rw [hknown] at h
      cases h with
      | present hurl hoverrides hpresent =>
        refine Declares.skip (.present hurl hoverrides hpresent) hnew ?_ nofun
        intro _ heq
        rw [← Option.some.inj heq]
        cases hbase : addressFor store [] mnemonic with
        | none => rfl
        | some url => simp [hurl, hbase, Option.filter_some]
  · obtain ⟨list, hlist, hmore⟩ := Listing.exists_of_bind_eq_ok hadd
    obtain rfl := Except.ok.inj hmore
    have htable := Metadata.tabulated_repositories hlist
    have haddress := addressFor_of_ok hlist mnemonic
    rw [reference?_foldl htable.nodup]
    cases hfound : address? list mnemonic with
    | none =>
      rw [hfound] at haddress
      exact h.skip hnew (fun ref _ => by rw [haddress]; rfl) fun _ => haddress
    | some url =>
      rw [hfound] at haddress
      exact h.override hnew (htable.url_ne_nil _ (Metadata.mem_of_address? hfound)) haddress

/-- The address of a reference for a language is what the list of the language says. -/
theorem Declares.urlFor {known : Option Reference} (h : Declares store done mnemonic known)
    (hlang : lang = [] ∨ lang ∈ done) {url : Bytes} (hurl : url ≠ [])
    (haddress : addressFor store lang mnemonic = some url) :
    known.map (·.urlFor lang) = some url := by
  cases h with
  | absent hbase hdone =>
    rcases hlang with rfl | hmem
    · rw [hbase] at haddress
      cases haddress
    · rw [hdone lang hmem] at haddress
      cases haddress
  | @present ref hbase hoverrides _ =>
    have hlookup := hoverrides lang
    rw [Option.map_some, Reference.urlFor]
    by_cases hsame : url = ref.url
    · have hnone : ref.overrides.lookup lang = none := by
        rw [hlookup, haddress]
        simp [hsame, Option.filter_some]
      rw [hnone, hsame]
    · have hmem : lang ∈ done := by
        refine hlang.resolve_left ?_
        rintro rfl
        rw [haddress, Option.getD_some] at hbase
        exact hsame hbase.symm
      rw [if_pos hmem, haddress, Option.filter_some_pos (by simpa using hsame)] at hlookup
      obtain ⟨c, rest, rfl⟩ := List.exists_cons_of_ne_nil hurl
      rw [hlookup]

/-- A mnemonic that only other languages have leads to an empty address, one that none has nowhere. -/
theorem Declares.urlFor_of_none {known : Option Reference} (h : Declares store done mnemonic known)
    (hbase : addressFor store [] mnemonic = none) (hlang : addressFor store lang mnemonic = none) :
    ((∀ other ∈ done, addressFor store other mnemonic = none) → known.map (·.urlFor lang) = none) ∧
      ((∃ other ∈ done, addressFor store other mnemonic ≠ none) →
        known.map (·.urlFor lang) = some []) := by
  cases h with
  | absent _ hdone => exact ⟨fun _ => rfl, fun ⟨other, hmem, h⟩ => absurd (hdone other hmem) h⟩
  | @present ref hurl hoverrides hknown =>
    refine ⟨fun hnone => ?_, fun _ => ?_⟩
    · rcases hknown with h | ⟨other, hmem, h⟩
      · exact absurd hbase h
      · exact absurd (hnone other hmem) h
    · have hlookup : ref.overrides.lookup lang = none := by
        rw [hoverrides, hlang]
        split <;> rfl
      rw [hbase] at hurl
      rw [Option.map_some, Reference.urlFor, hlookup, hurl]
      rfl

theorem declares_foldlM {langs : List Descriptor} {more : List Reference}
    (hnodup : (done ++ langs.map (·.id)).Nodup)
    (h : ∀ mnemonic, Declares store done mnemonic (Cache.reference? { refs } mnemonic))
    (hadd : langs.foldlM (addReferences store) refs = .ok more) (mnemonic : Bytes) :
    Declares store (done ++ langs.map (·.id)) mnemonic (Cache.reference? { refs := more } mnemonic) := by
  induction langs generalizing done refs with
  | nil =>
    obtain rfl := Except.ok.inj hadd
    simpa using h mnemonic
  | cons d langs ih =>
    rw [List.map_cons, List.append_cons] at hnodup ⊢
    have hnew : d.id ∉ done := fun hmem =>
      (List.nodup_append.1 (List.nodup_append.1 hnodup).1).2.2 _ hmem _ (List.mem_singleton_self _) rfl
    rw [List.foldlM_cons] at hadd
    obtain ⟨refs', hfirst, hrest⟩ := Listing.exists_of_bind_eq_ok hadd
    exact ih hnodup (fun mnemonic => declares_addReferences (h mnemonic) hnew hfirst) hrest

theorem repositories_of_foldlM {langs : List Descriptor} {more : List Reference}
    (hadd : langs.foldlM (addReferences store) refs = .ok more) :
    ∀ d ∈ langs, d.id ≠ [] → ∃ list, store.repositories d.id = .ok list := by
  induction langs generalizing refs with
  | nil => exact nofun
  | cons d langs ih =>
    rw [List.foldlM_cons] at hadd
    obtain ⟨refs', hfirst, hrest⟩ := Listing.exists_of_bind_eq_ok hadd
    refine List.forall_mem_cons.2 ⟨fun hid => ?_, ih hrest⟩
    rw [addReferences, if_neg (mt List.isEmpty_iff.1 hid)] at hfirst
    obtain ⟨list, hlist, -⟩ := Listing.exists_of_bind_eq_ok hfirst
    exact ⟨list, hlist⟩

theorem exists_of_bind_eq_error {ε α β : Type} {x : Except ε α} {f : α → Except ε β} {e : ε}
    (h : x >>= f = .error e) : x = .error e ∨ ∃ a, x = .ok a ∧ f a = .error e := by
  cases x with
  | error _ => exact .inl (congrArg Except.error (Except.error.inj h))
  | ok a => exact .inr ⟨a, rfl, h⟩

theorem fault_of_foldlM {langs : List Descriptor} {fault : Fault}
    (hadd : langs.foldlM (addReferences store) refs = .error fault) :
    ∃ d ∈ langs, store.repositories d.id = .error fault := by
  induction langs generalizing refs with
  | nil => cases hadd
  | cons d langs ih =>
    rw [List.foldlM_cons] at hadd
    rcases exists_of_bind_eq_error hadd with hfirst | ⟨refs', -, hrest⟩
    · rw [addReferences] at hfirst
      split at hfirst
      · cases hfirst
      · rcases exists_of_bind_eq_error hfirst with hlist | ⟨list, -, hdone⟩
        · exact ⟨d, List.mem_cons_self, hlist⟩
        · cases hdone
    · obtain ⟨other, hmem, hlist⟩ := ih hrest
      exact ⟨other, List.mem_cons_of_mem _ hmem, hlist⟩

end Fold

/-! ## The references of a book -/

section References

variable {store : Store} {langs : List Descriptor} {refs : List Reference} {lang mnemonic : Bytes}

/-- The references cannot be had only if one of the lists cannot be had. -/
theorem fault_of_references {fault : Fault} (h : references store langs = .error fault) :
    ∃ lang, (lang = [] ∨ lang ∈ langs.map (·.id)) ∧ store.repositories lang = .error fault := by
  rcases exists_of_bind_eq_error h with hbase | ⟨base, -, hadd⟩
  · exact ⟨[], .inl rfl, hbase⟩
  · obtain ⟨d, hd, hlist⟩ := fault_of_foldlM hadd
    exact ⟨d.id, .inr (List.mem_map_of_mem hd), hlist⟩

theorem declares_references (h : references store langs = .ok refs)
    (hnodup : (langs.map (·.id)).Nodup) (mnemonic : Bytes) :
    Declares store (langs.map (·.id)) mnemonic (Cache.reference? { refs } mnemonic) := by
  obtain ⟨base, hbase, hadd⟩ := Listing.exists_of_bind_eq_ok h
  have hall := declares_foldlM (by simpa using hnodup) (declares_base hbase) hadd mnemonic
  rwa [List.nil_append] at hall

theorem repositories_of_references (h : references store langs = .ok refs)
    (hlang : lang = [] ∨ lang ∈ langs.map (·.id)) : ∃ list, store.repositories lang = .ok list := by
  obtain ⟨base, hbase, hadd⟩ := Listing.exists_of_bind_eq_ok h
  by_cases hempty : lang = []
  · exact ⟨base, hempty ▸ hbase⟩
  · obtain ⟨d, hd, rfl⟩ := List.mem_map.1 (hlang.resolve_left hempty)
    exact repositories_of_foldlM hadd d hd hempty

/-- Whether the list of a language has a mnemonic. -/
def Lists (store : Store) (lang mnemonic : Bytes) : Prop :=
  ∃ list, store.repositories lang = .ok list ∧ mnemonic ∈ list.map (·.id)

theorem addressFor_eq_none_iff : addressFor store lang mnemonic = none ↔ ¬Lists store lang mnemonic := by
  rw [addressFor, Lists]
  cases h : store.repositories lang with
  | error fault => simp [Except.toOption]
  | ok list => simp [Except.toOption, Metadata.address?_eq_none_iff]

theorem pairOf_eq_map (refs : List Reference) (mnemonic lang : Bytes) :
    pairOf refs mnemonic lang =
      ((Cache.reference? { refs } mnemonic).map (·.urlFor lang)).map (mnemonic, ·) := by
  rw [pairOf, Option.map_map]
  rfl

section Lists

variable (h : references store langs = .ok refs) (hnodup : (langs.map (·.id)).Nodup)
  {list : List Metadata.Repository} (hlist : store.repositories lang = .ok list)
include h hnodup hlist

/-- A request of a language whose list has the mnemonic leads to the address of the list. -/
theorem pairOf_of_mem (hlang : lang = [] ∨ lang ∈ langs.map (·.id)) {url : Bytes}
    (hmem : { id := mnemonic, url } ∈ list) :
    pairOf refs mnemonic lang = some (mnemonic, url) := by
  have htable := Metadata.tabulated_repositories hlist
  have haddress : addressFor store lang mnemonic = some url := by
    rw [addressFor_of_ok hlist, htable.address?_of_mem hmem]
  rw [pairOf_eq_map,
    (declares_references h hnodup mnemonic).urlFor hlang (htable.url_ne_nil _ hmem) haddress,
    Option.map_some]

/-- Another request leads nowhere, unless the list of a further language has the mnemonic: then the
address is empty. -/
theorem pairOf_of_notMem (hnot : mnemonic ∉ list.map (·.id)) :
    ((∀ d ∈ langs, ¬Lists store d.id mnemonic) → pairOf refs mnemonic lang = none) ∧
      ((∃ d ∈ langs, Lists store d.id mnemonic) →
        pairOf refs mnemonic lang = some (mnemonic, [])) := by
  obtain ⟨base, hbase⟩ := repositories_of_references h (.inl rfl)
  have hnone := Metadata.address?_eq_none_iff.2 hnot
  have hbare : addressFor store [] mnemonic = none := by
    rw [addressFor_of_ok hbase, Metadata.address?_base_of_none hbase hlist hnone]
  have hlang : addressFor store lang mnemonic = none := by rw [addressFor_of_ok hlist, hnone]
  have hurls := (declares_references h hnodup mnemonic).urlFor_of_none hbare hlang
  rw [pairOf_eq_map]
  refine ⟨fun hnowhere => ?_, fun ⟨d, hd, hlists⟩ => ?_⟩
  · rw [hurls.1, Option.map_none]
    intro other hother
    obtain ⟨d, hd, rfl⟩ := List.mem_map.1 hother
    exact addressFor_eq_none_iff.2 (hnowhere d hd)
  · rw [hurls.2 ⟨d.id, List.mem_map_of_mem hd, ?_⟩, Option.map_some]
    rwa [Ne, addressFor_eq_none_iff, not_not]

end Lists

/-- **Requests follow the lists.** The references of languages with different identifiers are had unless
one of the lists cannot be had. A cache for them that has answered any requests serves a language from the
address that its own list gives for the mnemonic, which is not empty; it refuses a mnemonic that no list
has, and does not fetch. A mnemonic that is missing from the list of the language but is in that of
another one is not refused, but fetched from the empty address; no other fetch is from there. -/
theorem get_references (store : Store) {langs : List Descriptor} (hnodup : (langs.map (·.id)).Nodup)
    (fetch : Fetcher) {requests : List (Bytes × Bytes)}
    (hrequests : ∀ r ∈ requests, r.2 = [] ∨ r.2 ∈ langs.map (·.id)) :
    match references store langs with
    | .error fault => ∃ lang, (lang = [] ∨ lang ∈ langs.map (·.id)) ∧
        store.repositories lang = .error fault
    | .ok refs =>
      (∀ lang, (lang = [] ∨ lang ∈ langs.map (·.id)) → ∃ list, store.repositories lang = .ok list ∧
        ∀ mnemonic,
          (∀ url, { id := mnemonic, url } ∈ list →
            url ≠ [] ∧ (Cache.ask fetch { refs } requests).Serves fetch mnemonic lang url) ∧
          (mnemonic ∉ list.map (·.id) → (∀ d ∈ langs, ¬Lists store d.id mnemonic) →
            (Cache.ask fetch { refs } requests).get fetch mnemonic lang =
              (.error (.raise .repository "undeclared repository" [("repository", .str mnemonic)]),
                Cache.ask fetch { refs } requests)) ∧
          (mnemonic ∉ list.map (·.id) → (∃ d ∈ langs, Lists store d.id mnemonic) →
            (Cache.ask fetch { refs } requests).Serves fetch mnemonic lang [])) ∧
      ∀ p ∈ (Cache.ask fetch { refs } requests).fetches,
        ∃ lang list, (p.1, lang) ∈ requests ∧ store.repositories lang = .ok list ∧
          ({ id := p.1, url := p.2 } ∈ list ∧ p.2 ≠ [] ∨
            p.1 ∉ list.map (·.id) ∧ (∃ d ∈ langs, Lists store d.id p.1) ∧ p.2 = []) := by
  cases h : references store langs with
  | error fault => exact fault_of_references h
  | ok refs =>
    have hsettled := Cache.settled_ask fetch refs requests
    refine ⟨fun lang hlang => ?_, fun p hp => ?_⟩
    · obtain ⟨list, hlist⟩ := repositories_of_references h hlang
      refine ⟨list, hlist, fun mnemonic => ⟨fun url hmem => ⟨?_, ?_⟩, fun hnot hnone => ?_,
        fun hnot hother => ?_⟩⟩
      · exact (Metadata.tabulated_repositories hlist).url_ne_nil _ hmem
      · exact hsettled.serves (pairOf_of_mem h hnodup hlist hlang hmem)
      · exact hsettled.get_of_no_pair ((pairOf_of_notMem h hnodup hlist hnot).1 hnone)
      · exact hsettled.serves ((pairOf_of_notMem h hnodup hlist hnot).2 hother)
    · obtain ⟨mnemonic, url⟩ := p
      obtain ⟨⟨⟨asked, lang⟩, hr, hpair⟩, -⟩ := hsettled.fetches _ hp
      obtain rfl : asked = mnemonic := by
        obtain ⟨ref, -, heq⟩ := Option.map_eq_some_iff.1 hpair
        exact (Prod.mk.inj heq).1
      obtain ⟨list, hlist⟩ := repositories_of_references h (hrequests _ hr)
      refine ⟨lang, list, hr, hlist, ?_⟩
      by_cases hmem : asked ∈ list.map (·.id)
      · obtain ⟨r, hrepository, rfl⟩ := List.mem_map.1 hmem
        have hfound := pairOf_of_mem h hnodup hlist (hrequests _ hr) hrepository
        obtain rfl : r.url = url := congrArg Prod.snd (Option.some.inj (hfound.symm.trans hpair))
        exact .inl ⟨hrepository, (Metadata.tabulated_repositories hlist).url_ne_nil r hrepository⟩
      · obtain ⟨hnone, hempty⟩ := pairOf_of_notMem h hnodup hlist hmem
        by_cases hother : ∃ d ∈ langs, Lists store d.id asked
        · have hfound := (hempty hother).symm.trans hpair
          exact .inr ⟨hmem, hother, (congrArg Prod.snd (Option.some.inj hfound)).symm⟩
        · have hnowhere := hnone fun d hd hlists => hother ⟨d, hd, hlists⟩
          rw [hnowhere] at hpair
          cases hpair

/-- A book with a repository, and with another one in its English part only. -/
def partlyDeclared : Store where
  base := [(bytes "repos", .list [.map [(bytes "id", .str "core"), (bytes "url", .str "c")]])]
  langs := [(bytes "en",
    [(bytes "repos", .list [.map [(bytes "id", .str "lib"), (bytes "url", .str "l")]])])]

/-- Nothing can be fetched. -/
def offline : Fetcher := fun _ _ => .error .other

/-- After a request for what all parts have, each part is served from its own list, but the German part is
served from the empty address where only the English part has the repository. -/
theorem get_references_partlyDeclared : ∃ refs c,
    references partlyDeclared [{ id := bytes "en" }, { id := bytes "de" }] = .ok refs ∧
      c = Cache.ask offline { refs } [(bytes "core", bytes "de")] ∧
      c.Serves offline "core" "en" "c" ∧ c.Serves offline "lib" "en" "l" ∧ c.Serves offline "lib" "de" [] ∧
      (c.get offline "none" "de").2 = c ∧ ∀ p ∈ c.fetches, p = (bytes "core", bytes "c") := by
  have hnodup : ([{ id := bytes "en" }, { id := bytes "de" }].map Descriptor.id).Nodup := by
    decide +kernel
  have hrequests : ∀ r ∈ [(bytes "core", bytes "de")],
      r.2 = [] ∨ r.2 ∈ [{ id := bytes "en" }, { id := bytes "de" }].map Descriptor.id := by
    decide +kernel
  have hall := get_references partlyDeclared hnodup offline hrequests
  have hrefs : references partlyDeclared [{ id := bytes "en" }, { id := bytes "de" }] =
      .ok [{ mnemonic := "core", url := "c" },
        { mnemonic := "lib", url := [], overrides := [(bytes "en", bytes "l")] }] :=
    eq_ok_of_toOption (by decide +kernel)
  have henglish : partlyDeclared.repositories "en" =
      .ok [{ id := "core", url := "c" }, { id := "lib", url := "l" }] :=
    eq_ok_of_toOption (by decide +kernel)
  have hgerman : partlyDeclared.repositories "de" = .ok [{ id := "core", url := "c" }] :=
    eq_ok_of_toOption (by decide +kernel)
  rw [hrefs] at hall
  obtain ⟨hserves, hfetches⟩ := hall
  obtain ⟨list, hlist, hen⟩ := hserves "en" (.inr (by decide +kernel))
  obtain rfl := Except.ok.inj (henglish.symm.trans hlist)
  obtain ⟨list, hlist, hde⟩ := hserves "de" (.inr (by decide +kernel))
  obtain rfl := Except.ok.inj (hgerman.symm.trans hlist)
  have hlisted : Lists partlyDeclared "en" "lib" := ⟨_, henglish, by decide +kernel⟩
  have hnowhere : ∀ d ∈ [({ id := bytes "en" } : Descriptor), { id := bytes "de" }],
      ¬Lists partlyDeclared d.id "none" := by
    have hnone : ∀ lang ∈ [bytes "en", bytes "de"], addressFor partlyDeclared lang "none" = none := by
      decide +kernel
    exact fun d hd => addressFor_eq_none_iff.1 (hnone d.id (List.mem_map_of_mem hd))
  refine ⟨_, _, hrefs, rfl, ((hen "core").1 "c" (by decide +kernel)).2,
    ((hen "lib").1 "l" (by decide +kernel)).2,
    (hde "lib").2.2 (by decide +kernel) ⟨_, List.mem_cons_self, hlisted⟩, ?_, fun p hp => ?_⟩
  · rw [(hde "none").2.1 (by decide +kernel) hnowhere]
  · obtain ⟨lang, list, hasked, hlist, hfrom⟩ := hfetches p hp
    obtain ⟨hcore, rfl⟩ := Prod.mk.inj (List.mem_singleton.1 hasked)
    obtain rfl := Except.ok.inj (hgerman.symm.trans hlist)
    rcases hfrom with ⟨hmem, -⟩ | ⟨hnot, -⟩
    · obtain ⟨hid, hurl⟩ := Metadata.Repository.mk.inj (List.mem_singleton.1 hmem)
      exact Prod.ext hid hurl
    · rw [hcore] at hnot
      exact absurd hnot (by decide +kernel)

end References

end Bindery.Build
