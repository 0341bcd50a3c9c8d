import Mathlib.Data.List.Basic
import Mathlib.Data.List.Nodup
import Mathlib.Data.Option.Basic
import Bindery.Label
import Bindery.Proofs.Text.Split

/-!
# The books of a registry

A registry keeps the same labels four times: as entries, in a counter for each kind, and in two indexes.
`Keyed` says that an index has a row for the name of each entry and no other; since an index leads to one
place, no two entries share such a name. A registry is `Sound` if both indexes are keyed, if the counters
number the entries, and if all kinds and keys are valid, so that names and anchors can be read back.
Every call keeps a registry sound (`Sound.run`). What calls lead to is therefore sound, and answers what
its entries say (`books_agree`).
-/

namespace Bindery.Label

open Text (bytes)

/-! ## Names -/

theorem notMem_of_isKey {s : Bytes} (h : isKey s = true) : 0 ∉ s := by
  intro hmem
  rw [isKey, Bool.and_eq_true, List.all_eq_true] at h
  exact absurd (h.2 0 hmem) (by decide)

/-- A valid name of the index tells kind and key, whatever it is compared with. -/
theorem indexKey_inj {kind key kind' key' : Bytes} (hkind : isKey kind = true)
    (hkey : isKey key = true) :
    indexKey kind key = indexKey kind' key' ↔ kind = kind' ∧ key = key' := by
  rw [indexKey, indexKey,
    List.append_cons_inj_of_notMem (notMem_of_isKey hkind) (notMem_of_isKey hkey)]
  simp

/-- Built-in kinds can be told from what follows them in an anchor. -/
theorem notMem_of_isBuiltin {kind : Bytes} (h : isBuiltin kind = true) : 58 ∉ kind := by
  rw [isBuiltin, Option.isSome_iff_exists] at h
  obtain ⟨title, htitle⟩ := h
  obtain ⟨before, after, htitles, -⟩ := List.lookup_eq_some_iff.1 htitle
  have hmem : (kind, title) ∈ builtinTitles := by simp [htitles]
  have hall : ∀ row ∈ builtinTitles, 58 ∉ row.1 := by decide
  exact hall _ hmem

/-- An anchor tells the key, and which name space it is in. -/
theorem anchor_inj {e e' : Entry} (h : e.anchor = e'.anchor) :
    e.key = e'.key ∧ isBuiltin e.kind = isBuiltin e'.kind ∧
      (isBuiltin e.kind = true → e.kind = e'.kind) := by
  have hdef : isBuiltin (bytes "def") = false := by decide
  have hspace : ∀ e : Entry, 58 ∉ (if isBuiltin e.kind then e.kind else bytes "def") := by
    intro e
    split
    · next hbuiltin => exact notMem_of_isBuiltin hbuiltin
    · decide
  have hcolon : ∀ s key : Bytes, s ++ bytes ":" ++ key = s ++ 58 :: key := by
    intro s key
    rw [List.append_assoc]
    rfl
  rw [Entry.anchor, Entry.anchor, hcolon, hcolon] at h
  have hsame : (if isBuiltin e.kind then e.kind else bytes "def") =
      (if isBuiltin e'.kind then e'.kind else bytes "def") ∧ e.key = e'.key :=
    (Text.append_cons_inj (hspace e) (hspace e')).1 h
  obtain ⟨hkinds, hkeys⟩ := hsame
  refine ⟨hkeys, ?_⟩
  by_cases hbuiltin : isBuiltin e.kind = true
  · by_cases hbuiltin' : isBuiltin e'.kind = true
    · rw [if_pos hbuiltin, if_pos hbuiltin'] at hkinds
      exact ⟨by rw [hbuiltin, hbuiltin'], fun _ => hkinds⟩
    · rw [if_pos hbuiltin, if_neg hbuiltin'] at hkinds
      rw [hkinds, hdef] at hbuiltin
      cases hbuiltin
  · by_cases hbuiltin' : isBuiltin e'.kind = true
    · rw [if_neg hbuiltin, if_pos hbuiltin'] at hkinds
      rw [← hkinds, hdef] at hbuiltin'
      cases hbuiltin'
    · exact ⟨by rw [Bool.not_eq_true] at hbuiltin hbuiltin'; rw [hbuiltin, hbuiltin'],
        fun h => absurd h hbuiltin⟩

namespace Registry

/-! ## Indexes -/

theorem lookup_cons_of_ne {k k' : Bytes} (h : k' ≠ k) (value : Nat) (table : List (Bytes × Nat)) :
    List.lookup k' ((k, value) :: table) = table.lookup k' := by
  rw [List.lookup_cons, beq_eq_false_iff_ne.2 h]

/-- An index leads to the entries that have a name, each by its name. -/
def Keyed (entries : List Entry) (index : List (Bytes × Nat)) (name : Entry → Option Bytes) : Prop :=
  ∀ k place, index.lookup k = some place ↔ (entries[place]?).bind name = some k

namespace Keyed

variable {entries : List Entry} {index : List (Bytes × Nat)} {name : Entry → Option Bytes}
  {e e' : Entry} {k : Bytes}

theorem skip (h : Keyed entries index name) (hname : name e = none) :
    Keyed (entries ++ [e]) index name := by
  intro k place
  rw [h k place, List.getElem?_append]
  split
  · rfl
  · next hlast =>
    rw [List.getElem?_eq_none (Nat.not_lt.1 hlast)]
    cases place - entries.length with
    | zero => simp [hname]
    | succ n => simp

theorem push (h : Keyed entries index name) (hname : name e = some k)
    (hfree : index.lookup k = none) :
    Keyed (entries ++ [e]) ((k, entries.length) :: index) name := by
  intro k' place
  by_cases hk : k' = k
  · subst hk
    rw [List.lookup_cons_self]
    constructor
    · intro hplace
      obtain rfl := Option.some.inj hplace
      simpa using hname
    · intro hplace
      by_cases hlt : place < entries.length
      · rw [List.getElem?_append_left hlt, ← h, hfree] at hplace
        cases hplace
      · rw [List.getElem?_append_right (Nat.not_lt.1 hlt)] at hplace
        by_cases hlast : place - entries.length = 0
        · congr 1
          omega
        · rw [List.getElem?_eq_none (by simp; omega)] at hplace
          cases hplace
  · rw [lookup_cons_of_ne hk, h k' place, List.getElem?_append]
    split
    · rfl
    · next hlast =>
      rw [List.getElem?_eq_none (Nat.not_lt.1 hlast)]
      cases place - entries.length with
      | zero => simp [hname, Ne.symm hk]
      | succ n => simp

/-- An index finds the entries by their names. -/
theorem find_iff (h : Keyed entries index name) :
    ((index.lookup k).bind fun place => entries[place]?) = some e ↔ e ∈ entries ∧ name e = some k := by
  constructor
  · intro hfind
    obtain ⟨place, hplace, he⟩ := Option.bind_eq_some_iff.1 hfind
    have hname := (h k place).1 hplace
    rw [he] at hname
    exact ⟨List.mem_iff_getElem?.2 ⟨place, he⟩, hname⟩
  · rintro ⟨hmem, hname⟩
    obtain ⟨place, he⟩ := List.mem_iff_getElem?.1 hmem
    have hplace : index.lookup k = some place := by
      rw [h k place, he]
      exact hname
    rw [hplace]
    exact he

theorem eq_of_name (h : Keyed entries index name) (he : e ∈ entries) (he' : e' ∈ entries)
    (hname : name e = some k) (hname' : name e' = some k) : e = e' := by
  have hfind := h.find_iff.2 ⟨he, hname⟩
  rw [h.find_iff.2 ⟨he', hname'⟩] at hfind
  exact (Option.some.inj hfind).symm

theorem nodup (h : Keyed entries index name) : (entries.filterMap name).Nodup := by
  rw [List.Nodup, List.pairwise_filterMap, List.pairwise_iff_getElem]
  intro i j hi hj hlt k hk k' hk' heq
  subst heq
  have hplace := (h k i).2 (by rw [List.getElem?_eq_getElem hi]; exact hk)
  rw [(h k j).2 (by rw [List.getElem?_eq_getElem hj]; exact hk')] at hplace
  have := Option.some.inj hplace
  omega

end Keyed

/-! ## Soundness -/

/-- The name of an entry in the index of kinds and keys. -/
def indexName (e : Entry) : Option Bytes := some (indexKey e.kind e.key)

/-- The name of an entry in the index of definitions. -/
def definitionName (e : Entry) : Option Bytes := if isBuiltin e.kind then none else some e.key

/-- The books of a registry agree. -/
structure Sound (r : Registry) : Prop where
  valid : ∀ e ∈ r.entries, isKey e.kind = true ∧ isKey e.key = true
  numbered : ∀ kind,
    (r.entries.filter (·.kind == kind)).map (·.number) = List.range' 1 (r.count kind)
  indexed : Keyed r.entries r.index indexName
  definitionIndexed : Keyed r.entries r.definitionIndex definitionName

/-- The entries of definitions, in the order in which they were made. -/
def definitions (r : Registry) : List Entry := r.entries.filter fun e => !isBuiltin e.kind

variable {r next : Registry} {kind key : Bytes} {number : Nat}

theorem definitionName_eq_some {e : Entry} :
    definitionName e = some key ↔ isBuiltin e.kind = false ∧ e.key = key := by
  unfold definitionName
  split <;> simp_all

theorem sound_empty (lang : Bytes) : ({ lang } : Registry).Sound := by
  refine ⟨by simp, fun kind => rfl, fun k place => ?_, fun k place => ?_⟩ <;> simp

/-- A place in an index is in range, so what is in the index is found. -/
theorem bind_lookup_eq_none_iff {entries : List Entry} {index : List (Bytes × Nat)}
    (hlt : ∀ row ∈ index, row.2 < entries.length) (k : Bytes) :
    ((index.lookup k).bind fun place => entries[place]?) = none ↔ index.lookup k = none := by
  constructor
  · intro hnone
    by_contra hsome
    obtain ⟨place, hplace⟩ := Option.ne_none_iff_exists'.1 hsome
    obtain ⟨before, after, hindex, -⟩ := List.lookup_eq_some_iff.1 hplace
    have hrange : place < entries.length := hlt (k, place) (by simp [hindex])
    rw [hplace, Option.bind_some, List.getElem?_eq_getElem hrange] at hnone
    cases hnone
  · intro hnone
    rw [hnone, Option.bind_none]

theorem count_add (r : Registry) (kind key kind' : Bytes) :
    (r.add kind key).count kind' = if kind' = kind then r.count kind + 1 else r.count kind' := by
  change (List.lookup kind' ((kind, r.count kind + 1) :: r.counters)).getD 0 = _
  by_cases h : kind' = kind
  · subst h
    rw [List.lookup_cons_self, if_pos rfl, Option.getD_some]
  · rw [lookup_cons_of_ne h, if_neg h, count]

/-- A label can be added whose names are new. -/
theorem Sound.add (h : r.Sound) (hkind : isKey kind = true) (hkey : isKey key = true)
    (hfree : r.find? kind key = none)
    (hdefinition : isBuiltin kind = false → r.definition? key = none) : (r.add kind key).Sound := by
  have hentries : (r.add kind key).entries =
      r.entries ++ [{ kind, key, number := r.count kind + 1, lang := r.lang }] := rfl
  refine ⟨?_, ?_, ?_, ?_⟩
  · rw [hentries]
    exact List.forall_mem_append.2 ⟨h.valid, List.forall_mem_singleton.2 ⟨hkind, hkey⟩⟩
  · intro kind'
    rw [hentries, List.filter_append, List.map_append, h.numbered, count_add]
    by_cases hsame : kind' = kind
    · subst hsame
      rw [if_pos rfl, List.range'_1_concat, Nat.add_comm 1]
      simp
    · simp [hsame, Ne.symm hsame]
  · exact h.indexed.push rfl ((bind_lookup_eq_none_iff r.index_lt _).1 hfree)
  · have hindex : (r.add kind key).definitionIndex =
        if isBuiltin kind then r.definitionIndex else (key, r.entries.length) :: r.definitionIndex := rfl
    rw [hentries, hindex]
    by_cases hbuiltin : isBuiltin kind = true
    · rw [if_pos hbuiltin]
      exact h.definitionIndexed.skip (by simp [definitionName, hbuiltin])
    · rw [if_neg hbuiltin]
      rw [Bool.not_eq_true] at hbuiltin
      exact h.definitionIndexed.push (by simp [definitionName, hbuiltin])
        ((bind_lookup_eq_none_iff r.definitionIndex_lt _).1 (hdefinition hbuiltin))

/-! ## Defining -/

/-- A label that is defined becomes the last entry. -/
theorem define_eq_ok (h : r.define kind key = .ok (number, next)) :
    isKey kind = true ∧ isKey key = true ∧ r.find? kind key = none ∧
      (isBuiltin kind = false → r.definition? key = none) ∧
      number = r.count kind + 1 ∧ next = r.add kind key := by
  unfold define at h
  split at h
  · cases h
  · next hkind =>
    split at h
    · cases h
    · next hkey =>
      split at h
      · cases h
      · next hfree =>
        split at h
        · cases h
        · next hdefinition =>
          cases h
          refine ⟨by simpa using hkind, by simpa using hkey, by simpa using hfree, ?_, rfl, rfl⟩
          intro hbuiltin
          simpa [hbuiltin] using hdefinition

theorem Sound.define (hr : r.Sound) (h : r.define kind key = .ok (number, next)) : next.Sound := by
  obtain ⟨hkind, hkey, hfree, hdefinition, -, rfl⟩ := define_eq_ok h
  exact hr.add hkind hkey hfree hdefinition

theorem entries_define (h : r.define kind key = .ok (number, next)) :
    next.entries = r.entries ++ [{ kind, key, number, lang := r.lang }] := by
  obtain ⟨-, -, -, -, rfl, rfl⟩ := define_eq_ok h
  rfl

theorem titles_define (h : r.define kind key = .ok (number, next)) : next.titles = r.titles := by
  obtain ⟨-, -, -, -, -, rfl⟩ := define_eq_ok h
  rfl

theorem definitions_define_builtin (h : r.define kind key = .ok (number, next))
    (hkind : isBuiltin kind = true) : next.definitions = r.definitions := by
  obtain ⟨-, -, -, -, -, rfl⟩ := define_eq_ok h
  simp [definitions, add, List.filter_append, hkind]

theorem definitions_define (h : r.define kind key = .ok (number, next))
    (hkind : isBuiltin kind = false) :
    next.definitions = r.definitions ++ [{ kind, key, number, lang := r.lang }] := by
  rw [definitions, entries_define h, List.filter_append]
  simp [definitions, hkind]

/-! ## Looking up -/

theorem Sound.find?_eq_some (h : r.Sound) {e : Entry} :
    r.find? kind key = some e ↔ e ∈ r.entries ∧ e.kind = kind ∧ e.key = key := by
  rw [find?, h.indexed.find_iff, indexName, Option.some.injEq]
  refine and_congr_right fun he => ?_
  obtain ⟨hkind, hkey⟩ := h.valid e he
  exact indexKey_inj hkind hkey

theorem Sound.definition?_eq_some (h : r.Sound) {e : Entry} :
    r.definition? key = some e ↔ e ∈ r.entries ∧ isBuiltin e.kind = false ∧ e.key = key := by
  rw [definition?, h.definitionIndexed.find_iff, definitionName_eq_some]

theorem Sound.nodup_keys (h : r.Sound) : (r.definitions.map (·.key)).Nodup := by
  have hnames : r.definitions.map (·.key) = r.entries.filterMap definitionName := by
    rw [definitions, ← List.filterMap_eq_filter, List.map_filterMap]
    congr 1
    funext e
    cases hbuiltin : isBuiltin e.kind <;> simp [definitionName, hbuiltin, Option.guard]
  rw [hnames]
  exact h.definitionIndexed.nodup

theorem Sound.nodup_names (h : r.Sound) : (r.entries.map fun e => (e.kind, e.key)).Nodup := by
  have hnames : r.entries.filterMap indexName =
      (r.entries.map fun e => (e.kind, e.key)).map fun name => indexKey name.1 name.2 := by
    rw [List.map_map, ← List.filterMap_eq_map]
    rfl
  have hnodup := h.indexed.nodup
  rw [hnames] at hnodup
  exact hnodup.of_map

theorem Sound.nodup_anchors (h : r.Sound) : (r.entries.map (·.anchor)).Nodup := by
  refine h.nodup_names.of_map.map_on fun e he e' he' hanchor => ?_
  obtain ⟨hkey, hspace, hkind⟩ := anchor_inj hanchor
  cases hbuiltin : isBuiltin e.kind with
  | true =>
    refine h.indexed.eq_of_name he he' (k := indexKey e.kind e.key) rfl ?_
    rw [indexName, hkind hbuiltin, hkey]
  | false =>
    rw [hbuiltin] at hspace
    exact h.definitionIndexed.eq_of_name he he' (definitionName_eq_some.2 ⟨hbuiltin, rfl⟩)
      (definitionName_eq_some.2 ⟨hspace.symm, hkey.symm⟩)

theorem Sound.reference_eq_ok (h : r.Sound) {found : Reference} :
    r.reference kind key = .ok found ↔
      ∃ e ∈ r.entries, e.kind = kind ∧ e.key = key ∧ found = { entry := e, title := r.title kind } := by
  constructor
  · intro hok
    unfold reference at hok
    split at hok
    · cases hok
    · next e hfound =>
      obtain ⟨he, hkind, hkey⟩ := h.find?_eq_some.1 hfound
      cases hok
      exact ⟨e, he, hkind, hkey, by rw [hkind]⟩
  · rintro ⟨e, he, rfl, rfl, rfl⟩
    rw [reference, h.find?_eq_some.2 ⟨he, rfl, rfl⟩]

theorem Sound.lookup_eq_ok (h : r.Sound) {found : Reference} :
    r.lookup key = .ok found ↔
      ∃ e ∈ r.entries, isBuiltin e.kind = false ∧ e.key = key ∧
        found = { entry := e, title := r.title e.kind } := by
  constructor
  · intro hok
    unfold lookup at hok
    split at hok
    · cases hok
    · next e hfound =>
      obtain ⟨he, hbuiltin, hkey⟩ := h.definition?_eq_some.1 hfound
      cases hok
      exact ⟨e, he, hbuiltin, hkey, rfl⟩
  · rintro ⟨e, he, hbuiltin, rfl, rfl⟩
    rw [lookup, h.definition?_eq_some.2 ⟨he, hbuiltin, rfl⟩]

theorem Sound.lookup_of_mem (h : r.Sound) {e : Entry} (he : e ∈ r.definitions) :
    r.lookup e.key = .ok { entry := e, title := r.title e.kind } := by
  obtain ⟨hmem, hbuiltin⟩ := List.mem_filter.1 he
  exact h.lookup_eq_ok.2 ⟨e, hmem, by simpa using hbuiltin, rfl, rfl⟩

theorem Sound.lookup_of_forall_ne (h : r.Sound) (hne : ∀ e ∈ r.definitions, e.key ≠ key) :
    r.lookup key = .error (.undefinedDefinition key) := by
  cases hfound : r.definition? key with
  | none => rw [lookup, hfound]
  | some e =>
    obtain ⟨hmem, hbuiltin, hkey⟩ := h.definition?_eq_some.1 hfound
    exact absurd hkey (hne e (List.mem_filter.2 ⟨hmem, by simpa using hbuiltin⟩))

/-! ## Labels in the text -/

theorem define_ne_undefined {refusal : Refusal} (h : r.define kind key = .error refusal) (k : Bytes) :
    refusal ≠ .undefinedDefinition k := by
  rintro rfl
  unfold define at h
  split at h
  · cases h
  · split at h
    · cases h
    · split at h
      · cases h
      · split at h <;> cases h

/-- Defining labels leaves titles as they are, and is never refused for a definition that is missing. -/
theorem defineAll_spec (r : Registry) (labels : List (Bytes × Bytes)) :
    (r.defineAll labels).2.titles = r.titles ∧
      ∀ refusal, (r.defineAll labels).1 = some refusal → ∀ k, refusal ≠ .undefinedDefinition k := by
  induction labels generalizing r with
  | nil => exact ⟨rfl, nofun⟩
  | cons label labels ih =>
    obtain ⟨kind, key⟩ := label
    cases hdefine : r.define kind key with
    | error refusal =>
      rw [defineAll, hdefine]
      refine ⟨rfl, fun refusal' hrefusal k => ?_⟩
      cases hrefusal
      exact define_ne_undefined hdefine k
    | ok result =>
      obtain ⟨number, next⟩ := result
      rw [defineAll, hdefine]
      obtain ⟨htitles, hrefusals⟩ := ih next
      exact ⟨htitles.trans (titles_define hdefine), hrefusals⟩

theorem Sound.defineAll (hr : r.Sound) (labels : List (Bytes × Bytes)) : (r.defineAll labels).2.Sound := by
  induction labels generalizing r with
  | nil => exact hr
  | cons label labels ih =>
    obtain ⟨kind, key⟩ := label
    cases hdefine : r.define kind key with
    | error refusal =>
      rw [Registry.defineAll, hdefine]
      exact hr
    | ok result =>
      obtain ⟨number, next⟩ := result
      rw [Registry.defineAll, hdefine]
      exact ih (hr.define hdefine)

theorem mem_nativeKinds_of_attribute? {s : Bytes} {kind key : Bytes} {n : Nat}
    (h : attribute? s = some (kind, key, n)) : kind ∈ nativeKinds := by
  simp only [attribute?, Option.bind_eq_bind, Option.bind_eq_some_iff] at h
  obtain ⟨_, -, ⟨found, _⟩, hfound, _, -, _, -, hresult⟩ := h
  obtain ⟨kind', hkind', hstart⟩ := List.exists_of_findSome?_eq_some hfound
  obtain ⟨_, -, hpair⟩ := Option.map_eq_some_iff.1 hstart
  cases hpair
  cases hresult
  exact hkind'

theorem mem_nativeKinds_of_mem_attributes {s : Bytes} {label : Bytes × Bytes}
    (h : label ∈ attributes s) : label.1 ∈ nativeKinds := by
  fun_induction attributes s with
  | case1 => cases h
  | case2 rest kind key n hattribute ih =>
    rcases List.mem_cons.1 h with rfl | h
    · exact mem_nativeKinds_of_attribute? hattribute
    · exact ih h
  | case3 rest _ ih => exact ih h
  | case4 c rest _ ih => exact ih h

/-- Labels that are defined from a list come behind the others, and have kinds of the list. -/
theorem entries_defineAll (r : Registry) (labels : List (Bytes × Bytes)) :
    ∃ added, (r.defineAll labels).2.entries = r.entries ++ added ∧
      ∀ e ∈ added, ∃ label ∈ labels, e.kind = label.1 := by
  induction labels generalizing r with
  | nil => exact ⟨[], (List.append_nil _).symm, nofun⟩
  | cons label labels ih =>
    obtain ⟨kind, key⟩ := label
    cases hdefine : r.define kind key with
    | error refusal =>
      rw [defineAll, hdefine]
      exact ⟨[], (List.append_nil _).symm, nofun⟩
    | ok result =>
      obtain ⟨number, next⟩ := result
      rw [defineAll, hdefine]
      obtain ⟨added, hadded, hkinds⟩ := ih next
      refine ⟨{ kind, key, number, lang := r.lang } :: added, ?_, ?_⟩
      · rw [hadded, entries_define hdefine, List.append_assoc]
        rfl
      · refine List.forall_mem_cons.2 ⟨⟨_, List.mem_cons_self, rfl⟩, fun e he => ?_⟩
        obtain ⟨label, hlabel, hkind⟩ := hkinds e he
        exact ⟨label, List.mem_cons_of_mem _ hlabel, hkind⟩

/-- Labels in the text come behind the others, and have kinds of their own. -/
theorem entries_scanNative (r : Registry) (text : Bytes) :
    ∃ added, (r.scanNative text).2.entries = r.entries ++ added ∧
      ∀ e ∈ added, e.kind ∈ nativeKinds := by
  obtain ⟨added, hadded, hkinds⟩ := r.entries_defineAll (attributes text)
  refine ⟨added, hadded, fun e he => ?_⟩
  obtain ⟨label, hlabel, hkind⟩ := hkinds e he
  rw [hkind]
  exact mem_nativeKinds_of_mem_attributes hlabel

/-- Among labels of one kind, those that were defined later have larger numbers. -/
theorem Sound.pairwise_numbers (h : r.Sound) :
    r.entries.Pairwise fun e e' => e.kind = e'.kind → e.number < e'.number := by
  rw [List.pairwise_iff_getElem]
  intro i j hi hj hlt hkind
  have hnumbers : ((r.entries.filter (·.kind == r.entries[i].kind)).map (·.number)).Pairwise
      (· < ·) := by
    rw [h.numbered]
    exact List.pairwise_lt_range'
  rw [List.pairwise_map, List.pairwise_filter, List.pairwise_iff_getElem] at hnumbers
  exact hnumbers i j hi hj hlt (beq_self_eq_true _) (beq_iff_eq.2 hkind.symm)

/-! ## Tables -/

theorem lookup_map_pair {β : Type} (f : Bytes → β) (keys : List Bytes) (k : Bytes) :
    (keys.map fun key => (key, f key)).lookup k = if k ∈ keys then some (f k) else none := by
  induction keys with
  | nil => rfl
  | cons key keys ih =>
    rw [List.map_cons, List.lookup_cons]
    by_cases h : k = key
    · simp [h]
    · rw [beq_eq_false_iff_ne.2 h]
      simp [h, ih]

/-- In a table without two rows of one key, each row can be looked up. -/
theorem lookup_eq_some_iff_of_nodup {table : List (Bytes × Nat)} (h : (table.map (·.1)).Nodup)
    {k : Bytes} {n : Nat} : table.lookup k = some n ↔ (k, n) ∈ table := by
  induction table with
  | nil => simp
  | cons row table ih =>
    obtain ⟨key, value⟩ := row
    obtain ⟨hnew, hnodup⟩ := List.nodup_cons.1 h
    by_cases hk : k = key
    · subst hk
      rw [List.lookup_cons_self]
      constructor
      · intro hvalue
        rw [Option.some.inj hvalue]
        exact List.mem_cons_self
      · intro hmem
        rcases List.mem_cons.1 hmem with heq | hmem
        · rw [(Prod.mk.inj heq).2]
        · exact absurd (List.mem_map_of_mem hmem) hnew
    · rw [lookup_cons_of_ne hk, ih hnodup]
      simp [hk]

theorem Sound.table_eq_some (h : r.Sound) :
    (r.table.lookup kind).bind (·.lookup key) = some number ↔
      ∃ e ∈ r.entries, e.kind = kind ∧ e.key = key ∧ e.number = number := by
  have hnodup : (((r.entries.filter (·.kind == kind)).map fun e => (e.key, e.number)).map
      (·.1)).Nodup := by
    rw [List.map_map]
    refine List.Nodup.map_on (fun e he e' he' hkey => ?_) (h.nodup_names.of_map.filter _)
    obtain ⟨hmem, hkind⟩ := List.mem_filter.1 he
    obtain ⟨hmem', hkind'⟩ := List.mem_filter.1 he'
    have hsame : e.kind = e'.kind := (eq_of_beq hkind).trans (eq_of_beq hkind').symm
    exact List.inj_on_of_nodup_map h.nodup_names hmem hmem' (Prod.ext hsame hkey)
  rw [table, lookup_map_pair]
  by_cases hsome : ∃ e ∈ r.entries, e.kind = kind
  · rw [if_pos (by simpa using hsome), Option.bind_some, lookup_eq_some_iff_of_nodup hnodup]
    simp [and_assoc]
  · rw [if_neg (by simpa using hsome)]
    constructor
    · intro hnone
      cases hnone
    · rintro ⟨e, he, hkind, -⟩
      exact absurd ⟨e, he, hkind⟩ hsome

/-! ## Calls -/

/-- A call that can change a registry. -/
inductive Call where
  | define (kind key : Bytes)
  | setTitle (kind title : Bytes)
  | scanNative (text : Bytes)

/-- The registry after a call, which may have been refused. -/
def Call.run (r : Registry) : Call → Registry
  | .define kind key =>
    match r.define kind key with
    | .ok (_, next) => next
    | .error _ => r
  | .setTitle kind title => r.setTitle kind title
  | .scanNative text => (r.scanNative text).2

/-- The registry of a language after some calls. -/
def after (lang : Bytes) (calls : List Call) : Registry := calls.foldl Call.run { lang }

theorem Sound.setTitle (hr : r.Sound) (kind title : Bytes) : (r.setTitle kind title).Sound := by
  unfold Registry.setTitle
  split
  · exact hr
  · exact ⟨hr.valid, hr.numbered, hr.indexed, hr.definitionIndexed⟩

theorem Sound.run (hr : r.Sound) (call : Call) : (call.run r).Sound := by
  cases call with
  | define kind key =>
    cases hdefine : r.define kind key with
    | ok result =>
      rw [Call.run, hdefine]
      exact hr.define hdefine
    | error refusal =>
      rw [Call.run, hdefine]
      exact hr
  | setTitle kind title => exact hr.setTitle kind title
  | scanNative text => exact hr.defineAll _

theorem sound_after (lang : Bytes) (calls : List Call) : (after lang calls).Sound := by
  unfold after
  generalize hempty : ({ lang } : Registry) = r
  have hr : r.Sound := hempty ▸ sound_empty lang
  clear hempty
  induction calls generalizing r with
  | nil => exact hr
  | cons call calls ih => exact ih _ (hr.run call)

/-- **The books agree.** Whatever calls were made, refused ones included: the labels of a kind are numbered
from one on in order, as many as its counter says; kinds with keys, keys of definitions and anchors are
given once; references, definitions and the table are answered from the entries and for nothing else; a
definition that succeeds adds its entry behind the others, with the number it gives, which is the next of
its kind; and a refused definition changes nothing. -/
theorem books_agree (lang : Bytes) (calls : List Call) :
    let r := after lang calls
    (∀ kind, (r.entries.filter (·.kind == kind)).map (·.number) = List.range' 1 (r.count kind)) ∧
    (r.entries.map fun e => (e.kind, e.key)).Nodup ∧
    ((r.entries.filter fun e => !isBuiltin e.kind).map (·.key)).Nodup ∧
    (r.entries.map (·.anchor)).Nodup ∧
    (∀ kind key found, r.reference kind key = .ok found ↔
      ∃ e ∈ r.entries, e.kind = kind ∧ e.key = key ∧ found = { entry := e, title := r.title kind }) ∧
    (∀ key found, r.lookup key = .ok found ↔
      ∃ e ∈ r.entries, isBuiltin e.kind = false ∧ e.key = key ∧
        found = { entry := e, title := r.title e.kind }) ∧
    (∀ kind key number, (r.table.lookup kind).bind (·.lookup key) = some number ↔
      ∃ e ∈ r.entries, e.kind = kind ∧ e.key = key ∧ e.number = number) ∧
    (∀ kind key number next, r.define kind key = .ok (number, next) →
      number = r.count kind + 1 ∧ (Call.define kind key).run r = next ∧
        next.entries = r.entries ++ [{ kind, key, number, lang := r.lang }]) ∧
    (∀ kind key refusal, r.define kind key = .error refusal →
      (Call.define kind key).run r = r) := by
  have hr := sound_after lang calls
  refine ⟨hr.numbered, hr.nodup_names, hr.nodup_keys, hr.nodup_anchors,
    fun _ _ _ => hr.reference_eq_ok, fun _ _ => hr.lookup_eq_ok, fun _ _ _ => hr.table_eq_some,
    fun kind key number next hdefined => ?_, fun kind key refusal hrefused => ?_⟩
  · obtain ⟨-, -, -, -, hnumber, -⟩ := define_eq_ok hdefined
    exact ⟨hnumber, by rw [Call.run, hdefined], entries_define hdefined⟩
  · rw [Call.run, hrefused]

end Bindery.Label.Registry
