import Mathlib.Data.List.Nodup
import Bindery.Proofs.Build.Edition

/-!
# The languages of a book

Languages are declared with identifiers. White space around an identifier is dropped, but only after a
second declaration of the same identifier was looked for. `languages_apart` says which declarations are
accepted, and that the passes for languages with different identifiers share neither a layer of metadata
nor a language of labels nor, if the identifiers are plain names, a directory.
-/

namespace Bindery

/-! ## White space around a text -/

namespace Text

/-- A text that neither begins nor ends with white space. -/
def Bare (s : Bytes) : Prop := ∀ w, IsSpace w → ∀ more, s ≠ w ++ more ∧ s ≠ more ++ w

theorem trimStartReversed_ne_append {w : Bytes} (h : IsSpace w) (s more : Bytes) :
    trimStartReversed s ≠ w.reverse ++ more := by
  intro heq
  fun_induction trimStartReversed s with
  | case1 => rcases h with ⟨_, rfl, -⟩ | ⟨_, _, rfl, -⟩ | ⟨_, _, _, rfl, -⟩ <;> cases heq
  | case2 _ _ _ ih => exact ih heq
  | case4 _ _ _ _ _ ih => exact ih heq
  | case6 _ _ _ _ _ _ _ ih => exact ih heq
  -- What is left is not white space of one byte, of two or of three.
  | case3 => rcases h with ⟨_, rfl, _⟩ | ⟨_, _, rfl, _⟩ | ⟨_, _, _, rfl, _⟩ <;> grind
  | case5 => rcases h with ⟨_, rfl, _⟩ | ⟨_, _, rfl, _⟩ | ⟨_, _, _, rfl, _⟩ <;> grind
  | case7 => rcases h with ⟨_, rfl, _⟩ | ⟨_, _, rfl, _⟩ | ⟨_, _, _, rfl, _⟩ <;> grind

theorem bare_trim (s : Bytes) : Bare (trim s) := by
  refine fun w hw more => ⟨fun hfront => ?_, fun hback => ?_⟩
  · obtain ⟨v, hcut, -⟩ := exists_white_trimStartReversed (trimStart s).reverse
    rw [List.reverse_reverse, ← trim, hfront, List.append_assoc] at hcut
    exact trimStart_ne_append hw s _ hcut
  · rw [trim, List.reverse_eq_iff, List.reverse_append] at hback
    exact trimStartReversed_ne_append hw _ _ hback

end Text

/-! ## Declarations -/

namespace Metadata.Store

open Text (bytes Bare)

/-- The identifiers and names that the default layer declares languages with, as they are written. -/
def declarations? (s : Store) : Option (List (Bytes × Bytes)) :=
  match s.base.lookup (bytes "langs") with
  | none => some []
  | some v => (v.records? ["id", "name", "locale"]).map fun records =>
    records.map fun r => (r.head?.getD [], (r.drop 1).head?.getD [])

def malformedLanguages : Fault :=
  .raiseFrom .yaml .metadata "invalid language list" [("key", .str "langs")]

def blankLanguage : Fault := .raise .metadata "language without id" [("key", .str "langs")]

def duplicateLanguage (id : Bytes) : Fault :=
  .raise .metadata "duplicate language" [("lang", .str id)]

theorem languages_eq (s : Store) :
    s.languages =
      match s.declarations? with
      | none => .error malformedLanguages
      | some declarations => describe [] declarations := by
  rw [languages, declarations?]
  cases s.base.lookup (bytes "langs") with
  | none => rfl
  | some v => cases hrecords : v.records? ["id", "name", "locale"] <;> simp only [hrecords] <;> rfl

section Describe

variable {seen : List Bytes} {declarations : List (Bytes × Bytes)}

theorem describe_cons (seen : List Bytes) (id name : Bytes) (rest : List (Bytes × Bytes)) :
    describe seen ((id, name) :: rest) =
      if Text.isWhite id then .error blankLanguage
      else if id ∈ seen then .error (duplicateLanguage id)
      else (describe (id :: seen) rest).map (Descriptor.ofId id name :: ·) := by
  rw [describe]
  simp only [List.contains_iff_mem, blankLanguage, duplicateLanguage]

theorem duplicateLanguage_inj {id id' : Bytes} (h : duplicateLanguage id = duplicateLanguage id') :
    id = id' := by
  injection h with hreport
  injection hreport with _ _ _ _ hcontext
  simpa using hcontext

theorem blankLanguage_ne (id : Bytes) : blankLanguage ≠ duplicateLanguage id := by
  have hmessage : bytes "language without id" ≠ bytes "duplicate language" := by decide
  intro h
  injection h with hreport
  injection hreport with _ _ _ hsame
  exact hmessage hsame

theorem map_cons_eq_ok {α ε : Type} {result : Except ε (List α)} {a : α} {out : List α} :
    result.map (a :: ·) = .ok out ↔ ∃ rest, result = .ok rest ∧ out = a :: rest := by
  cases result with
  | error e => exact ⟨nofun, fun ⟨_, h, _⟩ => nomatch h⟩
  | ok rest =>
    constructor
    · intro h
      exact ⟨rest, rfl, (Except.ok.inj h).symm⟩
    · rintro ⟨rest, h, rfl⟩
      rw [Except.ok.inj h]
      rfl

theorem map_cons_eq_error {α ε : Type} {result : Except ε (List α)} {a : α} {e : ε} :
    result.map (a :: ·) = .error e ↔ result = .error e := by
  cases result with
  | error _ => exact ⟨fun h => congrArg _ (Except.error.inj h), fun h => congrArg _ (Except.error.inj h)⟩
  | ok _ => exact ⟨nofun, nofun⟩

/-- Declarations are accepted if no identifier is blank and none is declared again. -/
theorem describe_eq_ok_iff {langs : List Descriptor} :
    describe seen declarations = .ok langs ↔
      (∀ d ∈ declarations, Text.isWhite d.1 = false ∧ d.1 ∉ seen) ∧
        (declarations.map (·.1)).Nodup ∧
          langs = declarations.map fun d => Descriptor.ofId d.1 d.2 := by
  induction declarations generalizing seen langs with
  | nil =>
    constructor
    · intro h
      exact ⟨by simp, .nil, (Except.ok.inj h).symm⟩
    · rintro ⟨-, -, rfl⟩
      rfl
  | cons declaration rest ih =>
    obtain ⟨id, name⟩ := declaration
    rw [describe_cons, List.forall_mem_cons, List.map_cons, List.nodup_cons, List.map_cons]
    split
    · next hwhite => exact ⟨nofun, fun h => by simp [hwhite] at h⟩
    · next hwhite =>
      split
      · next hseen => exact ⟨nofun, fun h => absurd hseen h.1.1.2⟩
      · next hseen =>
        rw [map_cons_eq_ok]
        constructor
        · rintro ⟨more, hmore, rfl⟩
          obtain ⟨hall, hnodup, rfl⟩ := ih.1 hmore
          refine ⟨⟨⟨by simpa using hwhite, hseen⟩, fun d hd => ?_⟩, ⟨fun hmem => ?_, hnodup⟩, rfl⟩
          · exact (hall d hd).imp_right fun hfresh hmem => hfresh (List.mem_cons_of_mem _ hmem)
          · obtain ⟨d, hd, hid⟩ := List.mem_map.1 hmem
            exact (hall d hd).2 (hid ▸ List.mem_cons_self)
        · rintro ⟨⟨-, hall⟩, ⟨hnew, hnodup⟩, rfl⟩
          refine ⟨_, ih.2 ⟨fun d hd => (hall d hd).imp_right fun hfresh hmem => ?_, hnodup, rfl⟩, rfl⟩
          rcases List.mem_cons.1 hmem with hid | hmem
          · exact hnew (List.mem_map.2 ⟨d, hd, hid⟩)
          · exact hfresh hmem

/-- Declarations behind accepted ones know the identifiers of these. -/
theorem describe_append {before : List (Bytes × Bytes)} {langs : List Descriptor}
    (h : describe seen before = .ok langs) (rest : List (Bytes × Bytes)) :
    describe seen (before ++ rest) =
      (describe ((before.map (·.1)).reverse ++ seen) rest).map (langs ++ ·) := by
  induction before generalizing seen langs with
  | nil =>
    obtain rfl := Except.ok.inj h
    change describe seen rest = (describe seen rest).map id
    cases describe seen rest <;> rfl
  | cons declaration before ih =>
    obtain ⟨id, name⟩ := declaration
    rw [describe_cons] at h
    rw [List.cons_append, describe_cons]
    split at h
    · cases h
    · next hwhite =>
      split at h
      · cases h
      · next hseen =>
        obtain ⟨more, hmore, rfl⟩ := map_cons_eq_ok.1 h
        rw [if_neg hwhite, if_neg hseen, ih hmore]
        simp only [List.map_cons, List.reverse_cons, List.append_assoc, List.singleton_append]
        cases describe ((before.map (·.1)).reverse ++ id :: seen) rest <;> rfl

/-- Declarations are refused at the first one whose identifier is blank or was declared before. -/
theorem exists_of_describe_error {fault : Fault} (h : describe seen declarations = .error fault) :
    ∃ before id name after langs, declarations = before ++ (id, name) :: after ∧
      describe seen before = .ok langs ∧
        (fault = blankLanguage ∧ Text.isWhite id = true ∨
          fault = duplicateLanguage id ∧ Text.isWhite id = false ∧
            (id ∈ seen ∨ id ∈ before.map (·.1))) := by
  induction declarations generalizing seen with
  | nil => cases h
  | cons declaration rest ih =>
    obtain ⟨id, name⟩ := declaration
    rw [describe_cons] at h
    split at h
    · next hwhite =>
      exact ⟨[], id, name, rest, [], rfl, rfl, .inl ⟨(Except.error.inj h).symm, hwhite⟩⟩
    · next hwhite =>
      have hwhite' : Text.isWhite id = false := by simpa using hwhite
      split at h
      · next hseen =>
        exact ⟨[], id, name, rest, [], rfl, rfl,
          .inr ⟨(Except.error.inj h).symm, hwhite', .inl hseen⟩⟩
      · next hseen =>
        obtain ⟨before, id', name', after, langs, rfl, haccepted, hcause⟩ := ih (map_cons_eq_error.1 h)
        refine ⟨(id, name) :: before, id', name', after, Descriptor.ofId id name :: langs, rfl, ?_,
          hcause.imp_right fun hagain => ⟨hagain.1, hagain.2.1, ?_⟩⟩
        · rw [describe_cons, if_neg hwhite, if_neg hseen, haccepted]
          rfl
        · rw [List.map_cons, List.mem_cons]
          rcases hagain.2.2 with hseen' | hbefore
          · exact (List.mem_cons.1 hseen').elim (fun hid => .inr (.inl hid)) .inl
          · exact .inr (.inr hbefore)

/-- An identifier is refused as a duplicate if it was declared before in the very same letters, and
nothing before it is refused. -/
theorem describe_eq_duplicate_iff {id : Bytes} :
    describe [] declarations = .error (duplicateLanguage id) ↔
      ∃ before name after langs, declarations = before ++ (id, name) :: after ∧
        describe [] before = .ok langs ∧ Text.isWhite id = false ∧ id ∈ before.map (·.1) := by
  constructor
  · intro h
    obtain ⟨before, id', name, after, langs, hdeclared, haccepted, hcause⟩ := exists_of_describe_error h
    rcases hcause with ⟨hblank, -⟩ | ⟨hsame, hwhite, hbefore⟩
    · exact absurd hblank.symm (blankLanguage_ne id)
    · obtain rfl := duplicateLanguage_inj hsame
      exact ⟨before, name, after, langs, hdeclared, haccepted, hwhite, hbefore.resolve_left (by simp)⟩
  · rintro ⟨before, name, after, langs, rfl, haccepted, hwhite, hbefore⟩
    have hseen : id ∈ (before.map (·.1)).reverse ++ [] := by simpa using hbefore
    rw [describe_append haccepted, describe_cons, if_neg (by simp [hwhite]), if_pos hseen]
    rfl

end Describe

theorem languages_eq_ok_iff (s : Store) (langs : List Descriptor) :
    s.languages = .ok langs ↔
      ∃ declared, s.declarations? = some declared ∧ (∀ d ∈ declared, Text.isWhite d.1 = false) ∧
        (declared.map (·.1)).Nodup ∧ langs = declared.map fun d => Descriptor.ofId d.1 d.2 := by
  rw [languages_eq]
  cases s.declarations? with
  | none => exact ⟨nofun, fun ⟨_, h, _⟩ => nomatch h⟩
  | some declared =>
    have hfresh : ∀ d : Bytes × Bytes, d.1 ∉ ([] : List Bytes) := fun _ => List.not_mem_nil
    simp only [describe_eq_ok_iff, Option.some.injEq, exists_eq_left', hfresh, not_false_eq_true,
      and_true]

theorem languages_eq_duplicate_iff (s : Store) (id : Bytes) :
    s.languages = .error (duplicateLanguage id) ↔
      ∃ before name after, s.declarations? = some (before ++ (id, name) :: after) ∧
        (∀ d ∈ before, Text.isWhite d.1 = false) ∧ (before.map (·.1)).Nodup ∧
          Text.isWhite id = false ∧ id ∈ before.map (·.1) := by
  rw [languages_eq]
  cases s.declarations? with
  | none =>
    have hne : malformedLanguages ≠ duplicateLanguage id := by
      intro h
      injection h with _ hcause
      cases hcause
    exact ⟨fun h => absurd (Except.error.inj h) hne, fun ⟨_, _, _, h, _⟩ => nomatch h⟩
  | some declared =>
    simp only [describe_eq_duplicate_iff, Option.some.injEq]
    constructor
    · rintro ⟨before, name, after, langs, rfl, haccepted, hwhite, hbefore⟩
      obtain ⟨hall, hnodup, -⟩ := describe_eq_ok_iff.1 haccepted
      exact ⟨before, name, after, rfl, fun d hd => (hall d hd).1, hnodup, hwhite, hbefore⟩
    · rintro ⟨before, name, after, rfl, hall, hnodup, hwhite, hbefore⟩
      refine ⟨before, name, after, _, rfl, describe_eq_ok_iff.2 ⟨fun d hd => ?_, hnodup, rfl⟩, hwhite,
        hbefore⟩
      exact ⟨hall d hd, List.not_mem_nil⟩

/-- The identifiers of languages are different unless two declarations differ in white space only. -/
theorem nodup_ids_iff {declared : List (Bytes × Bytes)} (h : (declared.map (·.1)).Nodup) :
    ((declared.map fun d => Descriptor.ofId d.1 d.2).map (·.id)).Nodup ↔
      ∀ a ∈ declared, ∀ b ∈ declared, Text.trim a.1 = Text.trim b.1 → a.1 = b.1 := by
  have hids : (declared.map fun d => Descriptor.ofId d.1 d.2).map (·.id) =
      (declared.map (·.1)).map Text.trim := by
    rw [List.map_map, List.map_map]
    rfl
  rw [hids, List.nodup_map_iff_inj_on h]
  simp only [List.forall_mem_map]

end Metadata.Store

/-! ## Passes for different languages -/

namespace Build

open Metadata (Store)
open Text (bytes Bare)

/-- Two passes that share neither a layer of metadata nor a language of labels. If the identifiers of
their languages are plain names, the directory of the one does not hold that of the other. -/
structure Separate (langs : List Descriptor) (d e : Descriptor) : Prop where
  language : (contextOf langs d).id ≠ (contextOf langs e).id
  layer : ∀ (t : Store) (block : Layer),
    (t.merge (contextOf langs d).id block).layer (contextOf langs e).id =
      t.layer (contextOf langs e).id
  directory : IsPlainName d.id → IsPlainName e.id → ∀ out, Path.isAbsolute out = true →
    ¬ Path.cleanComponents (directory out d.id) <+: Path.cleanComponents (directory out e.id)

theorem separate_of_ne (langs : List Descriptor) {d e : Descriptor} (hd : d.id ≠ []) (he : e.id ≠ [])
    (hne : d.id ≠ e.id) : Separate langs d e := by
  refine ⟨?_, fun t block => ?_, fun hplain hplain' out hout => ?_⟩
  · rwa [id_contextOf, id_contextOf]
  · rw [id_contextOf, id_contextOf]
    exact Metadata.Store.layer_merge_of_ne t block hne.symm
  · exact not_prefix_directory hout hplain hplain' hd he hne

/-- **The languages of a book.** Declarations are accepted exactly if no identifier is blank and none is
declared again in the very same letters, which is refused as a duplicate. The languages then have the
identifiers without the white space around them, none of which is empty. They are different unless two
declarations differ in such white space only, and the passes for languages with different identifiers
are separate. -/
theorem languages_apart (s : Store) :
    (∀ langs, s.languages = .ok langs ↔
      ∃ declared, s.declarations? = some declared ∧ (∀ d ∈ declared, Text.isWhite d.1 = false) ∧
        (declared.map (·.1)).Nodup ∧ langs = declared.map fun d => Descriptor.ofId d.1 d.2) ∧
    (∀ id, s.languages = .error (Store.duplicateLanguage id) ↔
      ∃ before name after, s.declarations? = some (before ++ (id, name) :: after) ∧
        (∀ d ∈ before, Text.isWhite d.1 = false) ∧ (before.map (·.1)).Nodup ∧
          Text.isWhite id = false ∧ id ∈ before.map (·.1)) ∧
    ∀ langs declared, s.languages = .ok langs → s.declarations? = some declared →
      (∀ d ∈ langs, d.id ≠ [] ∧ Bare d.id) ∧
      ((langs.map (·.id)).Nodup ↔
        ∀ a ∈ declared, ∀ b ∈ declared, Text.trim a.1 = Text.trim b.1 → a.1 = b.1) ∧
      ∀ d ∈ langs, ∀ e ∈ langs, d.id ≠ e.id → Separate langs d e := by
  refine ⟨s.languages_eq_ok_iff, s.languages_eq_duplicate_iff, fun langs declared h hdeclared => ?_⟩
  have hids := Store.ne_nil_of_mem_languages h
  obtain ⟨declared', hdeclared', -, hnodup, rfl⟩ := (s.languages_eq_ok_iff langs).1 h
  obtain rfl := Option.some.inj (hdeclared.symm.trans hdeclared')
  refine ⟨fun d hd => ⟨hids d hd, ?_⟩, Store.nodup_ids_iff hnodup, fun d hd e he hne => ?_⟩
  · obtain ⟨declaration, -, rfl⟩ := List.mem_map.1 hd
    exact Text.bare_trim _
  · exact separate_of_ne _ (hids d hd) (hids e he) hne

/-- A book that declares a language twice, once with a blank in front. -/
def indented : Store where
  base := [(bytes "langs", .list [.map [(bytes "id", .str "en")], .map [(bytes "id", .str " de")],
    .map [(bytes "id", .str "de")]])]

/-- The declarations are accepted, and two of the languages have the same identifier. -/
theorem languages_apart_indented : ∃ langs,
    indented.languages = .ok langs ∧ langs.map (·.id) = [bytes "en", bytes "de", bytes "de"] ∧
      (∀ d ∈ langs, d.id ≠ [] ∧ Bare d.id) ∧ ¬ (langs.map (·.id)).Nodup ∧
      ∃ d e, d ∈ langs ∧ e ∈ langs ∧ Separate langs d e := by
  obtain ⟨haccepted, -, hapart⟩ := languages_apart indented
  have hdeclared : indented.declarations? =
      some [(bytes "en", []), (bytes " de", []), (bytes "de", [])] := by decide +kernel
  have h := (haccepted _).2 ⟨_, hdeclared, by decide +kernel, by decide +kernel, rfl⟩
  obtain ⟨hbare, hnodup, hseparate⟩ := hapart _ _ h hdeclared
  refine ⟨_, h, by decide +kernel, hbare, fun hdistinct => ?_, ?_⟩
  · have hsame := hnodup.1 hdistinct (bytes " de", []) (by simp) (bytes "de", []) (by simp)
      (by decide +kernel)
    exact absurd hsame (by decide +kernel)
  · refine ⟨Descriptor.ofId "en" [], Descriptor.ofId "de" [], ?_⟩
    refine ⟨by simp, by simp, hseparate _ (by simp) _ (by simp) (by decide +kernel)⟩

end Build

end Bindery
