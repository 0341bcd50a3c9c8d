import Mathlib.Data.List.Basic
import Bindery.Proofs.FileTree
import Bindery.Proofs.Fault
import Bindery.Proofs.Path.Descent

/-!
# Resolved files lie inside

What a resolver returns. A name is seen from a directory (`named`) and `Means` the file there, or its
variant for the language of the pass where there is one; both have to lie inside the root, by components
(`Path.Inside`). Nothing else is returned, and whatever is refused is refused for its path
(`resolve_eq_ok_iff`, `resolveInside_eq_ok_iff`).

`FileTree.isFile` goes along a path as it is written. `FileAt` says what it finds at the place: a file,
below directories only. For a clean path the two say the same (`isFile_iff`). The variant of a language
is not clean when its identifier holds a slash; then the text can lead through places that are not there,
and the variant is no file although one stands where it leads.
-/

namespace Bindery

open Text

/-! ## Files -/

namespace FileTree

variable {t : FileTree}

/-- A file stands at a place, and there are directories on the way to it. -/
structure FileAt (t : FileTree) (place : List Bytes) : Prop where
  file : ∃ content, t.find? place = some (.file content)
  way : ∀ q, q <+: place → q ≠ place → t.find? q = some .directory

theorem descend_of_way {here rest : List Bytes} {e : FileEntry}
    (hway : ∀ q, q <+: rest → q ≠ rest → t.find? (here ++ q) = some .directory)
    (hend : t.find? (here ++ rest) = some e) : t.descend here rest = .ok e := by
  induction rest generalizing here with
  | nil =>
    rw [List.append_nil] at hend
    rw [descend, hend]
  | cons c rest ih =>
    have hhere := hway [] List.nil_prefix (by simp)
    rw [List.append_nil] at hhere
    rw [descend, hhere]
    apply ih
    · intro q hq hne
      simpa using hway (c :: q) (List.cons_prefix_cons.2 ⟨rfl, hq⟩) (by simpa using hne)
    · simpa using hend

theorem fileAt_iff {place : List Bytes} :
    FileAt t place ↔ ∃ content, t.descend [] place = .ok (.file content) := by
  constructor
  · rintro ⟨⟨content, hfile⟩, hway⟩
    exact ⟨content, descend_of_way hway hfile⟩
  · rintro ⟨content, h⟩
    exact ⟨⟨content, find?_of_descend h⟩, fun q hq hne => find?_of_isPrefix h hq hne⟩

theorem passes_of_way {done parts : List Bytes} (hparts : ∀ c ∈ parts, Path.Proper c)
    (hway : ∀ q, q <+: parts → q ≠ parts → t.find? (done.reverse ++ q) = some .directory)
    (hend : (t.find? (done.reverse ++ parts)).isSome = true) : t.passes done parts = true := by
  induction parts generalizing done with
  | nil => simpa [passes] using hend
  | cons c parts ih =>
    obtain ⟨hc, hparts⟩ := List.forall_mem_cons.1 hparts
    have hhere := hway [] List.nil_prefix (by simp)
    rw [List.append_nil] at hhere
    rw [passes, hhere, Path.pushComponent_proper hc, beq_self_eq_true, Bool.true_and]
    refine ih hparts (fun q hq hne => ?_) (by simpa using hend)
    simpa using hway (c :: q) (List.cons_prefix_cons.2 ⟨rfl, hq⟩) (by simpa using hne)

theorem isFile_of_isAbsolute {p : Bytes} (habs : Path.isAbsolute p = true) :
    t.isFile p = true ↔
      0 ∉ p ∧ FileAt t (Path.cleanComponents p) ∧ t.passes [] (splitOn 47 p) = true := by
  unfold isFile stat
  rw [components_of_isAbsolute t habs, fileAt_iff]
  by_cases hnul : 0 ∈ p
  · rw [if_pos (List.contains_iff_mem.2 hnul)]
    simp [hnul]
  · rw [if_neg (mt List.contains_iff_mem.1 hnul)]
    cases t.descend [] (Path.cleanComponents p) with
    | error f => simp
    | ok e =>
      cases e with
      | directory => simp
      | file content => simp [hnul, habs]

/-- **A clean path names a file** exactly when one stands at its components. -/
theorem isFile_iff {p : Bytes} (h : Path.Canonical p) :
    t.isFile p = true ↔ 0 ∉ p ∧ FileAt t (Path.cleanComponents p) := by
  rw [isFile_of_isAbsolute h.absolute]
  constructor
  · rintro ⟨hnul, hfile, -⟩
    exact ⟨hnul, hfile⟩
  · rintro ⟨hnul, hfile⟩
    refine ⟨hnul, hfile, ?_⟩
    obtain ⟨parts, hparts, rfl⟩ := Path.canonical_iff.1 h
    rw [Path.cleanComponents_rooted hparts] at hfile
    have hskip : ∀ rest, t.passes [] ([] :: rest) = t.passes [] rest := fun _ => rfl
    rw [Path.rooted, splitOn_cons_self, hskip]
    by_cases hnil : parts = []
    · subst hnil
      rfl
    · rw [splitOn_joinWith hnil fun c hc => (hparts c hc).no_slash]
      obtain ⟨content, hcontent⟩ := hfile.file
      exact passes_of_way hparts hfile.way (by rw [List.reverse_nil, List.nil_append, hcontent]; rfl)

/-- Trees that agree up to a place agree on whether a file stands there. -/
theorem Agree.isFile {seen : List Bytes → Prop} {t' : FileTree} (h : Agree seen t t')
    (hseen : ∀ p q, q <+: p → seen p → seen q) {p : Bytes} (hp : Path.Canonical p)
    (hplace : seen (Path.cleanComponents p)) : t'.isFile p = t.isFile p := by
  rw [Bool.eq_iff_iff, isFile_iff hp, isFile_iff hp, fileAt_iff, fileAt_iff,
    descend_congr fun q hq => h.places q (hseen _ q hq hplace)]

/-! ### The last component -/

/-- Where a way starts, something is there. -/
theorem isSome_of_passes {done parts : List Bytes} (h : t.passes done parts = true) :
    (t.find? done.reverse).isSome = true := by
  cases parts with
  | nil => exact h
  | cons c parts =>
    rw [passes, Bool.and_eq_true, beq_iff_eq] at h
    rw [h.1]
    rfl

theorem passes_append (t : FileTree) (done parts parts' : List Bytes) :
    t.passes done (parts ++ parts') =
      (t.passes done parts && t.passes (parts.foldl (Path.pushComponent true) done) parts') := by
  induction parts generalizing done with
  | nil =>
    rw [List.nil_append, List.foldl_nil, eq_comm, Bool.and_eq_right_iff_imp, passes]
    exact isSome_of_passes
  | cons c parts ih => rw [List.cons_append, passes, ih, passes, List.foldl_cons, Bool.and_assoc]

/-- Above where a path leads to there are directories, as there are above where it starts. -/
theorem way_of_passes {done parts : List Bytes} (hparts : ∀ c ∈ parts, 47 ∉ c)
    (hdone : ∀ c ∈ done, Path.Proper c)
    (hway : ∀ q, q <:+ done → q ≠ done → t.find? q.reverse = some .directory)
    (h : t.passes done parts = true) {q : List Bytes}
    (hq : q <:+ parts.foldl (Path.pushComponent true) done)
    (hne : q ≠ parts.foldl (Path.pushComponent true) done) : t.find? q.reverse = some .directory := by
  induction parts generalizing done with
  | nil => exact hway q hq hne
  | cons c parts ih =>
    rw [passes, Bool.and_eq_true, beq_iff_eq] at h
    obtain ⟨hhere, hrest⟩ := h
    obtain ⟨hc, hparts⟩ := List.forall_mem_cons.1 hparts
    have hall : ∀ q, q <:+ done → t.find? q.reverse = some .directory := by
      intro q hq
      by_cases heq : q = done
      · exact heq ▸ hhere
      · exact hway q hq heq
    refine ih hparts (Path.pushComponent_keeps hdone hc) (fun q hq hne => ?_) hrest hq hne
    rcases Path.pushComponent_cases c hc with hskip | rfl | hproper
    · exact hall q (hskip true done ▸ hq)
    · cases done with
      | nil => exact hall q hq
      | cons last before =>
        rw [Path.pushComponent_dots_cons true (hdone last List.mem_cons_self).ne_dots] at hq
        exact hall q (hq.trans (List.suffix_cons _ _))
    · rw [Path.pushComponent_proper hproper] at hq hne
      exact hall q ((List.suffix_cons_iff.1 hq).resolve_left hne)

/-- The last component of a file is written at the end of its path, however the path leads there. -/
theorem exists_last_of_isFile {p : Bytes} (habs : Path.isAbsolute p = true) (h : t.isFile p = true) :
    ∃ front last before, p = front ++ 47 :: last ∧ Path.cleanComponents p = before ++ [last] := by
  obtain ⟨-, ⟨⟨content, hfile⟩, -⟩, hpasses⟩ := (isFile_of_isAbsolute habs).1 h
  obtain ⟨front, last, rfl, hlast⟩ : ∃ front last, p = front ++ 47 :: last ∧ 47 ∉ last := by
    have hslash : 47 ∈ p.reverse :=
      List.mem_reverse.2 (List.mem_of_mem_head? (Option.mem_def.2 (eq_of_beq habs)))
    obtain ⟨last, front, hreverse, hlast⟩ := List.eq_append_cons_of_mem hslash
    refine ⟨front.reverse, last.reverse, ?_, by simpa using hlast⟩
    simpa using congrArg List.reverse hreverse
  refine ⟨front, last, ?_⟩
  rw [splitOn_append_cons, splitOn_of_notMem hlast, passes_append, Bool.and_eq_true] at hpasses
  obtain ⟨hfront, hend⟩ := hpasses
  rw [Path.cleanComponents, habs, splitOn_append_cons, splitOn_of_notMem hlast, List.foldl_append,
    List.foldl_cons, List.foldl_nil] at hfile ⊢
  have hslashes : ∀ c ∈ splitOn 47 front, 47 ∉ c := fun _ hc => notMem_of_mem_splitOn hc
  have hnone : ∀ c ∈ ([] : List Bytes), Path.Proper c := by simp
  have hstart : ∀ q, q <:+ ([] : List Bytes) → q ≠ [] → t.find? q.reverse = some .directory :=
    fun q hq hne => absurd (List.suffix_nil.1 hq) hne
  have hproper := Path.foldl_pushComponent_keeps hslashes hnone
  have hway := fun q => @way_of_passes t [] _ hslashes hnone hstart hfront q
  generalize (splitOn 47 front).foldl (Path.pushComponent true) [] = done at *
  have hhere : t.find? done.reverse = some .directory := by
    rw [passes, Bool.and_eq_true, beq_iff_eq] at hend
    exact hend.1
  rcases Path.pushComponent_cases last hlast with hskip | rfl | hlast
  · rw [hskip, hhere] at hfile
    cases hfile
  · cases done with
    | nil =>
      cases hfile
    | cons c done =>
      have hupper := hway done (List.suffix_cons _ _) (by simp)
      rw [Path.pushComponent_dots_cons true (hproper c List.mem_cons_self).ne_dots, hupper] at hfile
      cases hfile
  · rw [Path.pushComponent_proper hlast]
    exact ⟨done.reverse, rfl, List.reverse_cons⟩

/-- Cleaning the path of a file does not change how it ends. -/
theorem ext_clean_of_isFile {p : Bytes} (habs : Path.isAbsolute p = true) (h : t.isFile p = true) :
    Path.ext (Path.clean p) = Path.ext p := by
  obtain ⟨front, last, before, hp, hcomponents⟩ := exists_last_of_isFile habs h
  obtain ⟨start, hstart⟩ := Path.exists_rooted_append before (List.cons_ne_nil last [])
  rw [Path.clean_of_isAbsolute habs, hcomponents, hstart, hp, Path.ext_append_slash,
    Path.ext_append_slash]
  rfl

end FileTree

/-! ## Names -/

namespace Path

theorem isAbsolute_insertSuffix {p : Bytes} (h : Canonical p) (id : Bytes) :
    isAbsolute (insertSuffix p id) = true := by
  obtain ⟨parts, hparts, rfl⟩ := canonical_iff.1 h
  obtain ⟨front, file, hfile, hrooted⟩ : ∃ front file, 47 ∉ file ∧
      rooted parts = rooted (front ++ [file]) := by
    rcases List.eq_nil_or_concat parts with rfl | ⟨front, file, rfl⟩
    · exact ⟨[], [], List.not_mem_nil, rfl⟩
    · rw [List.concat_eq_append] at hparts ⊢
      exact ⟨front, file, (hparts file (by simp)).no_slash, rfl⟩
  obtain ⟨directory, hsplit, habs, -⟩ := split_rooted front hfile
  simp only [insertSuffix, hrooted, hsplit, List.append_assoc]
  exact isAbsolute_append habs _

end Path

namespace Resolver

open Bindery.Path (isAbsolute Inside)

variable {tree : FileTree} {root current raw p : Bytes} {lang : LanguageContext}

/-- The path that a name in a directory stands for, without the white space around it. -/
def named (current raw : Bytes) : Bytes :=
  Path.clean (if isAbsolute (trim raw) then trim raw else current ++ 47 :: trim raw)

/-- The files that a path in a book can mean in a pass. -/
inductive Means (tree : FileTree) (root plain : Bytes) (lang : LanguageContext) : Bytes → Prop
  | variant (hlang : lang.isMultilingual = true)
      (hinside : Inside root (insertSuffix plain lang.id))
      (hfile : tree.isFile (insertSuffix plain lang.id) = true) :
      Means tree root plain lang (insertSuffix plain lang.id)
  | plain (hlang : lang.isMultilingual = true →
        Inside root (insertSuffix plain lang.id) ∧ tree.isFile (insertSuffix plain lang.id) = false)
      (hfile : tree.isFile plain = true) : Means tree root plain lang plain

theorem joined_eq_named (h : isAbsolute current = true) (hraw : trim raw ≠ []) :
    joined current (trim raw) = named current raw := by
  rw [joined, named]
  by_cases habs : isAbsolute (trim raw) = true
  · rw [if_pos habs, if_pos habs]
  · have hcurrent : (!current.isEmpty) = true := by
      cases current with
      | nil => cases h
      | cons c current => rfl
    have hraw' : (!(trim raw).isEmpty) = true := by simpa using hraw
    have hparts : [current, trim raw].filter (!·.isEmpty) = [current, trim raw] := by
      simp [hcurrent, hraw']
    have hjoin : Path.join [current, trim raw] = Path.clean (current ++ 47 :: trim raw) := by
      rw [Path.join, hparts]
      simp [joinWith]
    rw [if_neg habs, if_neg habs, hjoin]
    exact (Path.canonical_clean (Path.isAbsolute_append h _)).clean

theorem canonical_named (h : isAbsolute current = true) (raw : Bytes) :
    Path.Canonical (named current raw) := by
  rw [named]
  split
  · next habs => exact Path.canonical_clean habs
  · exact Path.canonical_clean (Path.isAbsolute_append h _)

theorem means_of_resolve (hroot : isAbsolute root = true) (hcurrent : isAbsolute current = true)
    (h : ({ root } : Resolver).resolve tree current raw lang = .ok p) :
    trim raw ≠ [] ∧ Inside root (named current raw) ∧ Means tree root (named current raw) lang p := by
  have hplain := canonical_named hcurrent raw
  have hinside := Path.contains_iff hroot hplain.absolute
  have hvariant := Path.contains_iff hroot (Path.isAbsolute_insertSuffix hplain lang.id)
  simp only [resolve, LanguageContext.localize?] at h
  by_cases hraw : trim raw = []
  · rw [if_pos (by simpa using hraw)] at h
    cases h
  rw [if_neg (by simpa using hraw), joined_eq_named hcurrent hraw] at h
  by_cases hin : Path.contains root (named current raw) = true
  · rw [if_neg (by simp [hin])] at h
    refine ⟨hraw, hinside.1 hin, ?_⟩
    by_cases hmulti : lang.isMultilingual = true
    · rw [if_pos hmulti] at h
      dsimp only at h
      by_cases hvar : Path.contains root (insertSuffix (named current raw) lang.id) = true
      · rw [if_neg (by simp [hvar])] at h
        split at h
        · next hfile =>
          cases h
          exact .variant hmulti (hvariant.1 hvar) hfile
        · next hno =>
          split at h
          · next hfile =>
            cases h
            exact .plain (fun _ => ⟨hvariant.1 hvar, by simpa using hno⟩) hfile
          · cases h
      · rw [if_pos (by simpa using hvar)] at h
        cases h
    · rw [if_neg hmulti] at h
      dsimp only at h
      split at h
      · next hfile =>
        cases h
        exact .plain (fun h => absurd h hmulti) hfile
      · cases h
  · rw [if_pos (by simpa using hin)] at h
    cases h

theorem resolve_of_means (hroot : isAbsolute root = true) (hcurrent : isAbsolute current = true)
    (hraw : trim raw ≠ []) (hin : Inside root (named current raw))
    (hmeans : Means tree root (named current raw) lang p) :
    ({ root } : Resolver).resolve tree current raw lang = .ok p := by
  have hplain := canonical_named hcurrent raw
  have hinside := Path.contains_iff hroot hplain.absolute
  have hvariant := Path.contains_iff hroot (Path.isAbsolute_insertSuffix hplain lang.id)
  simp only [resolve, LanguageContext.localize?]
  rw [if_neg (by simpa using hraw), joined_eq_named hcurrent hraw,
    if_neg (by simpa using hinside.2 hin)]
  cases hmeans with
  | variant hlang hvar hfile =>
    rw [if_pos hlang]
    simp [hvariant.2 hvar, hfile]
  | plain hlang hfile =>
    by_cases hmulti : lang.isMultilingual = true
    · obtain ⟨hvar, hno⟩ := hlang hmulti
      rw [if_pos hmulti]
      simp [hvariant.2 hvar, hno, hfile]
    · rw [if_neg hmulti]
      simp [hfile]

theorem resolve_eq_ok_iff (hroot : isAbsolute root = true) (hcurrent : isAbsolute current = true) :
    ({ root } : Resolver).resolve tree current raw lang = .ok p ↔
      trim raw ≠ [] ∧ Inside root (named current raw) ∧
        Means tree root (named current raw) lang p :=
  ⟨means_of_resolve hroot hcurrent, fun h => resolve_of_means hroot hcurrent h.1 h.2.1 h.2.2⟩

/-- What a path in a book means is a file inside the root. -/
theorem Means.inside {plain : Bytes} (hplain : Path.Canonical plain) (hin : Inside root plain)
    (h : Means tree root plain lang p) :
    isAbsolute p = true ∧ Inside root p ∧ tree.isFile p = true := by
  cases h with
  | variant hlang hinside hfile => exact ⟨Path.isAbsolute_insertSuffix hplain _, hinside, hfile⟩
  | plain hlang hfile => exact ⟨hplain.absolute, hin, hfile⟩

theorem resolveInside_eq_ok_iff (hroot : isAbsolute root = true) :
    resolveInside tree root raw = .ok p ↔
      trim raw ≠ [] ∧ p = named root raw ∧ Inside root p ∧ tree.isFile p = true := by
  have hinside := Path.contains_iff hroot (canonical_named hroot raw).absolute
  constructor
  · intro h
    simp only [resolveInside] at h
    by_cases hraw : trim raw = []
    · rw [if_pos (by simpa using hraw)] at h
      cases h
    rw [if_neg (by simpa using hraw), joined_eq_named hroot hraw] at h
    split at h
    · cases h
    · next hin =>
      split at h
      · next hfile =>
        cases h
        exact ⟨hraw, rfl, hinside.1 (by simpa using hin), hfile⟩
      · cases h
  · rintro ⟨hraw, rfl, hin, hfile⟩
    simp only [resolveInside]
    rw [if_neg (by simpa using hraw), joined_eq_named hroot hraw,
      if_neg (by simpa using hinside.2 hin), if_pos hfile]

/-- **Resolved files lie inside.** Containment is by components. A name is resolved exactly to what it
means, a file inside the root, and is refused for its path otherwise; so it is without languages. -/
theorem resolves_inside (tree : FileTree) (hroot : isAbsolute root = true)
    (hcurrent : isAbsolute current = true) (raw : Bytes) (lang : LanguageContext) :
    (∀ directory p, isAbsolute directory = true → isAbsolute p = true →
      (Path.contains directory p = true ↔ Inside directory p)) ∧
    (∀ p, ({ root } : Resolver).resolve tree current raw lang = .ok p ↔
      trim raw ≠ [] ∧ Inside root (named current raw) ∧
        Means tree root (named current raw) lang p) ∧
    (∀ p, ({ root } : Resolver).resolve tree current raw lang = .ok p →
      Inside root p ∧ tree.FileAt (Path.names (Path.clean p))) ∧
    (∀ refusal, ({ root } : Resolver).resolve tree current raw lang = .error refusal →
      refusal.toFault.category = .path) ∧
    (∀ p, resolveInside tree root raw = .ok p ↔
      trim raw ≠ [] ∧ p = named root raw ∧ Inside root p ∧ tree.isFile p = true) ∧
    (∀ p, resolveInside tree root raw = .ok p → tree.FileAt (Path.names (Path.clean p))) ∧
    ∀ refusal, resolveInside tree root raw = .error refusal → refusal.toFault.category = .path := by
  have hfile : ∀ p, isAbsolute p = true → tree.isFile p = true →
      tree.FileAt (Path.names (Path.clean p)) := by
    intro p habs hfile
    rw [Path.names_clean habs]
    exact ((FileTree.isFile_of_isAbsolute habs).1 hfile).2.1
  refine ⟨fun directory p hdirectory hp => Path.contains_iff hdirectory hp,
    fun p => resolve_eq_ok_iff hroot hcurrent, ?_, fun refusal _ => refusal.category_toFault,
    fun p => resolveInside_eq_ok_iff hroot, ?_, fun refusal _ => refusal.category_toFault⟩
  · intro p h
    obtain ⟨-, hin, hmeans⟩ := (resolve_eq_ok_iff hroot hcurrent).1 h
    obtain ⟨habs, hinside, hp⟩ := hmeans.inside (canonical_named hcurrent raw) hin
    exact ⟨hinside, hfile p habs hp⟩
  · intro p h
    obtain ⟨-, rfl, -, hp⟩ := (resolveInside_eq_ok_iff hroot).1 h
    exact hfile _ (canonical_named hroot raw).absolute hp

/-- A book with a page in two languages. -/
def pages : FileTree where
  entries :=
    [([bytes "book"], .directory), ([bytes "book", bytes "ch"], .directory),
      ([bytes "book", bytes "ch", bytes "x.md"], .file (bytes "plain")),
      ([bytes "book", bytes "ch", bytes "x_de.md"], .file (bytes "deutsch"))]

theorem resolves_inside_pages :
    isAbsolute (bytes "/book") = true ∧ isAbsolute (bytes "/book/ch") = true ∧
      ({ root := bytes "/book" } : Resolver).resolve pages (bytes "/book/ch")
        (bytes "  ../ch//./x.md ") { active := { id := bytes "de" }, configured := 2 } =
          .ok (bytes "/book/ch/x_de.md") ∧
      (∀ p, resolveInside pages (bytes "/book") (bytes "  ../ch//./x.md ") ≠ .ok p) ∧
      Path.contains (bytes "/book") (bytes "/book/..ch") = true ∧
      Path.contains (bytes "/book") (bytes "/bookcase") = false := by
  have hroot : isAbsolute (bytes "/book") = true := rfl
  have hcurrent : isAbsolute (bytes "/book/ch") = true := rfl
  obtain ⟨hcontains, hresolve, -, -, hinside, -⟩ := resolves_inside pages hroot hcurrent
    (bytes "  ../ch//./x.md ") { active := { id := bytes "de" }, configured := 2 }
  refine ⟨hroot, hcurrent, (hresolve _).2 ⟨by decide, by decide, ?_⟩, fun p hp => ?_,
    (hcontains _ _ hroot rfl).2 (by decide), ?_⟩
  · exact .variant rfl (by decide) (by decide)
  · obtain ⟨-, rfl, hin, -⟩ := (hinside p).1 hp
    exact absurd hin (by decide)
  · exact Bool.eq_false_iff.2 fun h => absurd ((hcontains _ _ hroot rfl).1 h) (by decide)

end Resolver

end Bindery
