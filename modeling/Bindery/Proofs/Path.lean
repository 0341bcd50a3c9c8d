import Bindery.Proofs.Text.Split
import Bindery.Resolver

/-!
# Canonical paths

A path is canonical when it is absolute and cleaning does not change it. Canonical paths are the texts
of lists of proper components (`canonical_iff`), so that two of them are equal as soon as they have the
same components (`Canonical.eq_of_components`). Whatever the resolver returns is canonical
(`canonical_of_resolve`), provided that the identifier of the language holds no slash: a variant puts
the identifier into the last component, and a slash in it would make several components of one.
-/

namespace Bindery

open Text

namespace Path

/-! ## Components -/

/-- A component that stands in a cleaned absolute path. -/
structure Proper (c : Bytes) : Prop where
  ne_nil : c ≠ []
  no_slash : 47 ∉ c
  ne_dot : c ≠ bytes "."
  ne_dots : c ≠ bytes ".."

/-- The absolute path of a list of components. -/
def rooted (parts : List Bytes) : Bytes := 47 :: joinWith [47] parts

theorem isAbsolute_cons (s : Bytes) : isAbsolute (47 :: s) = true := rfl

theorem pushComponent_proper {done : List Bytes} {c : Bytes} (h : Proper c) (rooted : Bool) :
    pushComponent rooted done c = c :: done := by
  rw [pushComponent.eq_def, if_neg, if_neg]
  · simpa using h.ne_dots
  · simpa using And.intro h.ne_nil h.ne_dot

theorem foldl_pushComponent_proper {parts : List Bytes} (h : ∀ c ∈ parts, Proper c) (rooted : Bool)
    (done : List Bytes) : parts.foldl (pushComponent rooted) done = parts.reverse ++ done := by
  induction parts generalizing done with
  | nil => rfl
  | cons c parts ih =>
    rw [List.foldl_cons, pushComponent_proper (h c List.mem_cons_self),
      ih fun x hx => h x (List.mem_cons_of_mem _ hx)]
    simp

theorem pushComponent_dots_cons (rooted : Bool) {c : Bytes} (hc : c ≠ bytes "..")
    (done : List Bytes) : pushComponent rooted (c :: done) (bytes "..") = done := by
  have hskip : ((bytes "..").isEmpty || bytes ".." == bytes ".") = false := by decide
  have hc' : (c == bytes "..") = false := by simpa using hc
  rw [pushComponent.eq_def, hskip]
  simp only [beq_self_eq_true, hc', Bool.false_eq_true, if_false, if_true]

/-- A component is skipped, leads up, or is proper. -/
theorem pushComponent_cases (c : Bytes) (hc : 47 ∉ c) :
    (∀ rooted done, pushComponent rooted done c = done) ∨ c = bytes ".." ∨ Proper c := by
  by_cases hskip : (c.isEmpty || c == bytes ".") = true
  · left
    intro rooted done
    rw [pushComponent.eq_def, if_pos hskip]
  · simp only [Bool.or_eq_true, List.isEmpty_iff, beq_iff_eq, not_or] at hskip
    by_cases hup : c = bytes ".."
    · exact .inr (.inl hup)
    · exact .inr (.inr ⟨hskip.1, hc, hskip.2, hup⟩)

theorem pushComponent_keeps {done : List Bytes} {c : Bytes} (hdone : ∀ x ∈ done, Proper x)
    (hc : 47 ∉ c) : ∀ x ∈ pushComponent true done c, Proper x := by
  rcases pushComponent_cases c hc with hskip | rfl | hproper
  · rw [hskip]
    exact hdone
  · cases done with
    | nil => exact hdone
    | cons last before =>
      obtain ⟨hlast, hbefore⟩ := List.forall_mem_cons.1 hdone
      rw [pushComponent_dots_cons true hlast.ne_dots]
      exact hbefore
  · rw [pushComponent_proper hproper]
    exact List.forall_mem_cons.2 ⟨hproper, hdone⟩

theorem foldl_pushComponent_keeps {parts done : List Bytes} (hparts : ∀ c ∈ parts, 47 ∉ c)
    (hdone : ∀ x ∈ done, Proper x) : ∀ x ∈ parts.foldl (pushComponent true) done, Proper x := by
  induction parts generalizing done with
  | nil => exact hdone
  | cons c parts ih =>
    rw [List.foldl_cons]
    exact ih (fun x hx => hparts x (List.mem_cons_of_mem _ hx))
      (pushComponent_keeps hdone (hparts c List.mem_cons_self))

theorem proper_of_mem_cleanComponents {p c : Bytes} (habs : isAbsolute p = true)
    (hc : c ∈ cleanComponents p) : Proper c := by
  rw [cleanComponents, habs, List.mem_reverse] at hc
  exact foldl_pushComponent_keeps (fun _ h => notMem_of_mem_splitOn h) (by simp) c hc

theorem cleanComponents_rooted {parts : List Bytes} (h : ∀ c ∈ parts, Proper c) :
    cleanComponents (rooted parts) = parts := by
  rw [cleanComponents, rooted, isAbsolute_cons, splitOn_cons_self, List.foldl_cons]
  have hskip : pushComponent true [] [] = [] := rfl
  rw [hskip]
  cases hp : parts with
  | nil => rfl
  | cons c rest =>
    rw [← hp, splitOn_joinWith (by simp [hp]) fun x hx => (h x hx).no_slash,
      foldl_pushComponent_proper h]
    simp

theorem clean_of_isAbsolute {p : Bytes} (h : isAbsolute p = true) :
    clean p = rooted (cleanComponents p) := by
  rw [clean, h]
  rfl

/-! ## Canonical paths -/

/-- An absolute path that is clean. -/
structure Canonical (p : Bytes) : Prop where
  absolute : isAbsolute p = true
  clean : clean p = p

theorem canonical_rooted {parts : List Bytes} (h : ∀ c ∈ parts, Proper c) :
    Canonical (rooted parts) := by
  have habs : isAbsolute (rooted parts) = true := isAbsolute_cons _
  exact ⟨habs, by rw [clean_of_isAbsolute habs, cleanComponents_rooted h]⟩

theorem canonical_clean {p : Bytes} (h : isAbsolute p = true) : Canonical (clean p) := by
  rw [clean_of_isAbsolute h]
  exact canonical_rooted fun c hc => proper_of_mem_cleanComponents h hc

/-- **Canonical paths** are the texts of lists of proper components. -/
theorem canonical_iff {p : Bytes} :
    Canonical p ↔ ∃ parts, (∀ c ∈ parts, Proper c) ∧ p = rooted parts := by
  constructor
  · intro h
    refine ⟨cleanComponents p, fun c hc => proper_of_mem_cleanComponents h.absolute hc, ?_⟩
    rw [← clean_of_isAbsolute h.absolute, h.clean]
  · rintro ⟨parts, hparts, rfl⟩
    exact canonical_rooted hparts

theorem Canonical.eq_rooted {p : Bytes} (h : Canonical p) : p = rooted (cleanComponents p) := by
  rw [← clean_of_isAbsolute h.absolute, h.clean]

theorem Canonical.eq_of_components {p q : Bytes} (hp : Canonical p) (hq : Canonical q)
    (h : cleanComponents p = cleanComponents q) : p = q := by
  rw [hp.eq_rooted, hq.eq_rooted, h]

/-! ## Relative paths -/

/-- Components of a cleaned path, kept backwards: those that lead up come first. -/
def Stack (done : List Bytes) : Prop :=
  ∃ names n, done = names ++ List.replicate n (bytes "..") ∧ ∀ c ∈ names, Proper c

theorem pushComponent_dots (n : Nat) :
    pushComponent false (List.replicate n (bytes "..")) (bytes "..") =
      List.replicate (n + 1) (bytes "..") := by
  cases n <;> rfl

theorem Stack.push {done : List Bytes} (h : Stack done) {c : Bytes} (hc : 47 ∉ c) :
    Stack (pushComponent false done c) := by
  obtain ⟨names, n, rfl, hnames⟩ := h
  rcases pushComponent_cases c hc with hskip | rfl | hproper
  · rw [hskip]
    exact ⟨names, n, rfl, hnames⟩
  · cases names with
    | nil => exact ⟨[], n + 1, pushComponent_dots n, by simp⟩
    | cons x names =>
      obtain ⟨hx, hnames⟩ := List.forall_mem_cons.1 hnames
      exact ⟨names, n, pushComponent_dots_cons false hx.ne_dots _, hnames⟩
  · rw [pushComponent_proper hproper]
    exact ⟨c :: names, n, rfl, List.forall_mem_cons.2 ⟨hproper, hnames⟩⟩

theorem stack_foldl {parts done : List Bytes} (hparts : ∀ c ∈ parts, 47 ∉ c) (h : Stack done) :
    Stack (parts.foldl (pushComponent false) done) := by
  induction parts generalizing done with
  | nil => exact h
  | cons c parts ih =>
    obtain ⟨hc, hparts⟩ := List.forall_mem_cons.1 hparts
    exact ih hparts (h.push hc)

theorem foldl_pushComponent_dots (m n : Nat) :
    (List.replicate n (bytes "..")).foldl (pushComponent false) (List.replicate m (bytes "..")) =
      List.replicate (m + n) (bytes "..") := by
  induction n generalizing m with
  | zero => rfl
  | succ n ih =>
    rw [List.replicate_succ, List.foldl_cons, pushComponent_dots, ih]
    congr 1
    omega

theorem foldl_pushComponent_stack {parts : List Bytes} (h : Stack parts.reverse) :
    parts.foldl (pushComponent false) [] = parts.reverse := by
  obtain ⟨names, n, hparts, hnames⟩ := h
  rw [List.reverse_eq_iff, List.reverse_append, List.reverse_replicate] at hparts
  have hup : (List.replicate n (bytes "..")).foldl (pushComponent false) [] =
      List.replicate n (bytes "..") := by
    simpa using foldl_pushComponent_dots 0 n
  have hproper : ∀ c ∈ names.reverse, Proper c := fun c hc => hnames c (List.mem_reverse.1 hc)
  rw [hparts, List.foldl_append, hup, foldl_pushComponent_proper hproper]
  simp

theorem stack_cleanComponents {p : Bytes} (hrel : isAbsolute p = false) :
    Stack (cleanComponents p).reverse := by
  rw [cleanComponents, hrel, List.reverse_reverse]
  exact stack_foldl (fun _ h => notMem_of_mem_splitOn h) ⟨[], 0, rfl, by simp⟩

theorem Stack.part {done : List Bytes} (h : Stack done) : ∀ c ∈ done, c ≠ [] ∧ 47 ∉ c := by
  obtain ⟨names, n, rfl, hnames⟩ := h
  intro c hc
  rcases List.mem_append.1 hc with hc | hc
  · exact ⟨(hnames c hc).ne_nil, (hnames c hc).no_slash⟩
  · rw [List.eq_of_mem_replicate hc]
    decide

/-- A relative path that is cleaned stays relative. -/
theorem clean_of_relative {p : Bytes} (hrel : isAbsolute p = false) :
    isAbsolute (clean p) = false ∧
      (cleanComponents p = [] ∧ clean p = bytes "." ∨
        cleanComponents p ≠ [] ∧ clean p = joinWith [47] (cleanComponents p)) := by
  have hpart : ∀ c ∈ cleanComponents p, c ≠ [] ∧ 47 ∉ c := fun c hc =>
    (stack_cleanComponents hrel).part c (List.mem_reverse.2 hc)
  rw [clean, hrel]
  simp only [Bool.false_eq_true, if_false]
  cases hparts : cleanComponents p with
  | nil => exact ⟨rfl, .inl ⟨rfl, rfl⟩⟩
  | cons c rest =>
    rw [hparts] at hpart
    obtain ⟨x, c', rfl⟩ := List.exists_cons_of_ne_nil (hpart c List.mem_cons_self).1
    have hx : x ≠ 47 := fun h => (hpart _ List.mem_cons_self).2 (h ▸ List.mem_cons_self)
    obtain ⟨tail, hjoin⟩ : ∃ tail, joinWith [47] ((x :: c') :: rest) = x :: tail := by
      cases rest with
      | nil => exact ⟨c', rfl⟩
      | cons d rest => exact ⟨_, rfl⟩
    rw [hjoin]
    refine ⟨?_, .inr ⟨by simp, rfl⟩⟩
    rw [List.isEmpty_cons, if_neg (by decide), isAbsolute, beq_eq_false_iff_ne]
    exact fun h => hx (Option.some.inj h)

theorem cleanComponents_clean (p : Bytes) : cleanComponents (clean p) = cleanComponents p := by
  cases habs : isAbsolute p with
  | true =>
    rw [clean_of_isAbsolute habs]
    exact cleanComponents_rooted fun c hc => proper_of_mem_cleanComponents habs hc
  | false =>
    have hstack := stack_cleanComponents habs
    obtain ⟨hrel, ⟨hnil, hclean⟩ | ⟨hne, hclean⟩⟩ := clean_of_relative habs
    · rw [hclean, hnil]
      rfl
    · rw [hclean] at hrel ⊢
      rw [cleanComponents, hrel, splitOn_joinWith hne fun c hc =>
        (hstack.part c (List.mem_reverse.2 hc)).2, foldl_pushComponent_stack hstack,
        List.reverse_reverse]

theorem clean_clean (p : Bytes) : clean (clean p) = clean p := by
  cases habs : isAbsolute p with
  | true => exact (canonical_clean habs).clean
  | false =>
    have hrel := (clean_of_relative habs).1
    rw [clean.eq_def (clean p), hrel, cleanComponents_clean, clean, habs]

/-- Paths with the same last components, kept backwards, but for what leads up. -/
def Agree (done full : List Bytes) : Prop :=
  ∃ names n under, done = names ++ List.replicate n (bytes "..") ∧ full = names ++ under ∧
    ∀ c ∈ names, c ≠ bytes ".."

theorem Agree.push {done full : List Bytes} (h : Agree done full) (rooted : Bool) {c : Bytes}
    (hc : 47 ∉ c) : Agree (pushComponent false done c) (pushComponent rooted full c) := by
  obtain ⟨names, n, under, rfl, rfl, hnames⟩ := h
  rcases pushComponent_cases c hc with hskip | rfl | hproper
  · rw [hskip, hskip]
    exact ⟨names, n, under, rfl, rfl, hnames⟩
  · cases names with
    | nil => exact ⟨[], n + 1, _, pushComponent_dots n, rfl, by simp⟩
    | cons x names =>
      obtain ⟨hx, hnames⟩ := List.forall_mem_cons.1 hnames
      exact ⟨names, n, under, pushComponent_dots_cons false hx _, pushComponent_dots_cons rooted hx _,
        hnames⟩
  · rw [pushComponent_proper hproper, pushComponent_proper hproper]
    exact ⟨c :: names, n, under, rfl, rfl, List.forall_mem_cons.2 ⟨hproper.ne_dots, hnames⟩⟩

theorem agree_foldl (rooted : Bool) {parts done full : List Bytes} (hparts : ∀ c ∈ parts, 47 ∉ c)
    (h : Agree done full) :
    Agree (parts.foldl (pushComponent false) done) (parts.foldl (pushComponent rooted) full) := by
  induction parts generalizing done full with
  | nil => exact h
  | cons c parts ih =>
    obtain ⟨hc, hparts⟩ := List.forall_mem_cons.1 hparts
    exact ih hparts (h.push rooted hc)

/-- Seen from a directory, a relative path has the same components, but for those that lead up. -/
theorem mem_cleanComponents_append {p c : Bytes} (hrel : isAbsolute p = false) (directory : Bytes)
    (hc : c ∈ cleanComponents p) :
    c = bytes ".." ∨ c ∈ cleanComponents (directory ++ 47 :: p) := by
  rw [cleanComponents, hrel, List.mem_reverse] at hc
  rw [cleanComponents, splitOn_append_cons, List.foldl_append, List.mem_reverse]
  generalize isAbsolute (directory ++ 47 :: p) = rooted
  have hagree : Agree ((splitOn 47 p).foldl (pushComponent false) [])
      ((splitOn 47 p).foldl (pushComponent rooted)
        ((splitOn 47 directory).foldl (pushComponent rooted) [])) :=
    agree_foldl rooted (fun _ h => notMem_of_mem_splitOn h) ⟨[], 0, _, rfl, rfl, by simp⟩
  obtain ⟨names, n, under, hdone, hfull, -⟩ := hagree
  rw [hdone] at hc
  rw [hfull]
  rcases List.mem_append.1 hc with hc | hc
  · exact .inr (List.mem_append_left _ hc)
  · exact .inl (List.eq_of_mem_replicate hc)

/-! ## Directories and files -/

theorem dropShared_append (as bs : List Bytes) :
    ∃ shared, as = shared ++ (dropShared as bs).1 ∧ bs = shared ++ (dropShared as bs).2 := by
  fun_induction dropShared as bs with
  | case1 a as b bs heq ih =>
    obtain ⟨shared, has, hbs⟩ := ih
    obtain rfl := eq_of_beq heq
    exact ⟨a :: shared, congrArg (a :: ·) has, congrArg (a :: ·) hbs⟩
  | case2 => exact ⟨[], rfl, rfl⟩
  | case3 => exact ⟨[], rfl, rfl⟩

/-- The components of a path as they are written. -/
def names (p : Bytes) : List Bytes := (splitOn 47 p).filter (!·.isEmpty)

/-- Whether a relative path begins by leading up, as a text. -/
def leadsUp (rel : Bytes) : Bool := rel == bytes ".." || startsWith (bytes "../") rel

theorem leadsUp_replicate (n : Nat) (down : List Bytes) :
    leadsUp (joinWith [47] (List.replicate (n + 1) (bytes "..") ++ down)) = true := by
  rw [List.replicate_succ, List.cons_append, leadsUp]
  cases hmore : List.replicate n (bytes "..") ++ down with
  | nil => decide
  | cons c more =>
    have hstart : startsWith (bytes "../") (joinWith [47] (bytes ".." :: c :: more)) = true :=
      List.isPrefixOf_iff_prefix.2 (List.prefix_append (bytes ".." ++ [47]) _)
    rw [hstart, Bool.or_true]

theorem isAbsolute_append {p : Bytes} (h : isAbsolute p = true) (s : Bytes) :
    isAbsolute (p ++ s) = true := by
  cases p with
  | nil => exact absurd h (by decide)
  | cons c p => exact h

theorem isAbsolute_clean {p : Bytes} (h : isAbsolute p = true) : isAbsolute (clean p) = true :=
  (canonical_clean h).absolute

/-- What lies in an absolute directory has an absolute path. -/
theorem isAbsolute_of_contains {directory p : Bytes} (h : isAbsolute directory = true)
    (hp : contains directory p = true) : isAbsolute p = true := by
  refine Decidable.byContradiction fun habs => ?_
  have hrel : isAbsolute (clean p) = false := (clean_of_relative (by simpa using habs)).1
  have hdirectory : isAbsolute (clean directory) = true := isAbsolute_clean h
  have hnone : relative? directory p = none := by
    have hne : (clean directory == clean p) = false := by
      rw [beq_eq_false_iff_ne]
      intro heq
      rw [heq, hrel] at hdirectory
      cases hdirectory
    have hdot : (clean directory == [46]) = false := by
      rw [beq_eq_false_iff_ne]
      intro heq
      rw [heq] at hdirectory
      exact absurd hdirectory (by decide)
    rw [relative?]
    simp [hne, hdot, hdirectory, hrel]
  rw [contains, hnone] at hp
  cases hp

theorem isAbsolute_join {directory name : Bytes} (h : isAbsolute directory = true) :
    isAbsolute (join [directory, name]) = true := by
  have hne : directory ≠ [] := by
    rintro rfl
    exact absurd h (by decide)
  have hd : (!directory.isEmpty) = true := by simpa using hne
  rw [join]
  by_cases hn : name = []
  · have hparts : [directory, name].filter (!·.isEmpty) = [directory] := by simp [hn, hd]
    rw [hparts]
    exact isAbsolute_clean h
  · have hparts : [directory, name].filter (!·.isEmpty) = [directory, name] := by simp [hn, hd]
    rw [hparts]
    exact isAbsolute_clean (isAbsolute_append (isAbsolute_append h [47]) name)

theorem split_rooted (parts : List Bytes) {file : Bytes} (h : 47 ∉ file) :
    ∃ directory, split (rooted (parts ++ [file])) = (directory, file) ∧
      isAbsolute directory = true ∧ ∀ name, directory ++ name = rooted (parts ++ [name]) := by
  obtain ⟨directory, habs, hdir⟩ : ∃ directory, isAbsolute directory = true ∧
      ∀ name, directory ++ name = rooted (parts ++ [name]) ∧ directory.getLast? = some 47 := by
    cases hp : parts with
    | nil => exact ⟨[47], rfl, fun name => ⟨by simp [rooted, joinWith], rfl⟩⟩
    | cons c rest =>
      refine ⟨rooted parts ++ [47], isAbsolute_append (isAbsolute_cons _) _, fun name => ⟨?_, by simp⟩⟩
      rw [← hp, rooted, rooted, joinWith_append_singleton (by simp [hp])]
      simp
  refine ⟨directory, ?_, habs, fun name => (hdir name).1⟩
  obtain ⟨front, rfl⟩ := List.getLast?_eq_some_iff.1 (hdir []).2
  have htail : ((rooted (parts ++ [file])).reverse.takeWhile (· != 47)).reverse = file := by
    rw [← (hdir file).1, List.reverse_append, List.reverse_append, List.takeWhile_append_of_pos]
    · simp
    · intro c hc
      have : c ≠ 47 := fun e => h (e ▸ List.mem_reverse.1 hc)
      simpa using this
  have hlength : (front ++ [47] ++ file).length - file.length = (front ++ [47]).length := by
    simp only [List.length_append]
    omega
  rw [split, htail, ← (hdir file).1, hlength, List.take_left]

theorem isAbsolute_dir {p : Bytes} (h : Canonical p) : isAbsolute (dir p) = true := by
  rw [dir]
  obtain ⟨parts, hparts, rfl⟩ := canonical_iff.1 h
  rcases List.eq_nil_or_concat parts with rfl | ⟨parts, file, rfl⟩
  · rfl
  · rw [List.concat_eq_append] at hparts ⊢
    have hfile : 47 ∉ file := (hparts file (by simp)).no_slash
    obtain ⟨directory, hsplit, habs, -⟩ := split_rooted _ hfile
    rw [hsplit]
    exact isAbsolute_clean habs

theorem canonical_joined {directory : Bytes} (h : isAbsolute directory = true) (name : Bytes) :
    Canonical (Resolver.joined directory name) := by
  rw [Resolver.joined]
  split
  · next habs => exact canonical_clean habs
  · exact canonical_clean (isAbsolute_join h)

theorem mem_of_isPrefixOf? {start s rest : Bytes} (h : start.isPrefixOf? s = some rest) {c : UInt8}
    (hc : c ∈ rest) : c ∈ s := by
  induction start generalizing s with
  | nil =>
    obtain rfl := Option.some.inj h
    exact hc
  | cons x start ih =>
    cases s with
    | nil => cases h
    | cons y s =>
      change (if x == y then start.isPrefixOf? s else none) = some rest at h
      split at h
      · exact List.mem_cons_of_mem _ (ih h)
      · cases h

theorem mem_of_mem_withoutEnd {ending s : Bytes} {c : UInt8} (h : c ∈ withoutEnd ending s) :
    c ∈ s := by
  rw [withoutEnd, beforeEnd?] at h
  cases hp : ending.reverse.isPrefixOf? s.reverse with
  | none => simpa [hp] using h
  | some rest =>
    rw [hp, Option.map_some, Option.getD_some, List.mem_reverse] at h
    exact List.mem_reverse.1 (mem_of_isPrefixOf? hp h)

theorem mem_of_mem_ext {p : Bytes} {c : UInt8} (h : c ∈ ext p) : c ∈ p := by
  rw [ext] at h
  split at h
  · next rest hdrop =>
    rcases List.mem_cons.1 h with rfl | h
    · have : (46 : UInt8) ∈ p.reverse := List.mem_of_mem_drop (hdrop ▸ List.mem_cons_self)
      exact List.mem_reverse.1 this
    · have := (List.takeWhile_sublist _).subset (List.mem_reverse.1 h)
      exact List.mem_reverse.1 this
  · cases h

theorem insertSuffix_rooted (parts : List Bytes) {file id : Bytes} (hfile : 47 ∉ file)
    (hid : 47 ∉ id) :
    ∃ name, Proper name ∧ insertSuffix (rooted (parts ++ [file])) id = rooted (parts ++ [name]) := by
  obtain ⟨directory, hsplit, -, hdir⟩ := split_rooted parts hfile
  obtain ⟨suffix, hsuffix, hinsert⟩ : ∃ suffix : Bytes, 47 ∉ suffix ∧
      insertSuffix (rooted (parts ++ [file])) id
        = directory ++ (withoutEnd suffix file ++ bytes "_" ++ id ++ suffix) := by
    refine ⟨if ext file == file then [] else ext file, ?_, ?_⟩
    · split
      · simp
      · exact fun h => hfile (mem_of_mem_ext h)
    · simp only [insertSuffix, hsplit, List.append_assoc]
  refine ⟨_, ?_, hinsert.trans (hdir _)⟩
  have hmark : (95 : UInt8) ∈ withoutEnd suffix file ++ bytes "_" ++ id ++ suffix := by
    have : (95 : UInt8) ∈ bytes "_" := by decide
    simp [this]
  refine ⟨List.ne_nil_of_mem hmark, ?_, ?_, ?_⟩
  · have hslash : (47 : UInt8) ∉ bytes "_" := by decide
    simp only [List.mem_append, not_or]
    exact ⟨⟨⟨fun h => hfile (mem_of_mem_withoutEnd h), hslash⟩, hid⟩, hsuffix⟩
  · intro e
    exact absurd (e ▸ hmark) (by decide)
  · intro e
    exact absurd (e ▸ hmark) (by decide)

theorem canonical_insertSuffix {p id : Bytes} (h : Canonical p) (hid : 47 ∉ id) :
    Canonical (insertSuffix p id) := by
  obtain ⟨parts, hparts, rfl⟩ := canonical_iff.1 h
  rcases List.eq_nil_or_concat parts with rfl | ⟨parts, file, rfl⟩
  · -- The root of the file system has no last component; the identifier becomes one.
    obtain ⟨name, hname, hinsert⟩ := insertSuffix_rooted [] (List.not_mem_nil (a := 47)) hid
    have hroot : rooted [] = rooted ([] ++ [[]]) := rfl
    rw [hroot, hinsert]
    exact canonical_rooted fun c hc => by simpa [List.mem_singleton.1 hc] using hname
  · rw [List.concat_eq_append] at hparts ⊢
    have hfile : 47 ∉ file := (hparts file (by simp)).no_slash
    obtain ⟨name, hname, hinsert⟩ := insertSuffix_rooted parts hfile hid
    rw [hinsert]
    refine canonical_rooted fun c hc => ?_
    rcases List.mem_append.1 hc with hc | hc
    · exact hparts c (List.mem_append_left _ hc)
    · rw [List.mem_singleton.1 hc]
      exact hname

end Path

/-! ## Resolved paths -/

namespace Resolver

/-- A name is resolved to a file inside the root: the one it names in the directory, or the variant of
that one. -/
theorem resolve_cases {r : Resolver} {tree : FileTree} {directory name path : Bytes}
    {lang : LanguageContext} (h : r.resolve tree directory name lang = .ok path) :
    tree.isFile path = true ∧ Path.contains r.root path = true ∧
      (path = joined directory (trim name) ∨
        lang.localize? (joined directory (trim name)) = some path) := by
  simp only [resolve] at h
  split at h
  · cases h
  · split at h
    · cases h
    · next hplain =>
      have hplain : Path.contains r.root (joined directory (trim name)) = true := by simpa using hplain
      split at h
      · next localized hlocal =>
        split at h
        · cases h
        · next hinside =>
          split at h
          · next hfile =>
            cases h
            exact ⟨hfile, by simpa using hinside, .inr hlocal⟩
          · split at h
            · next hfile =>
              cases h
              exact ⟨hfile, hplain, .inl rfl⟩
            · cases h
      · split at h
        · next hfile =>
          cases h
          exact ⟨hfile, hplain, .inl rfl⟩
        · cases h

/-- A name is resolved inside a root to a file with a cleaned path. -/
theorem resolveInside_cases {tree : FileTree} {root name path : Bytes}
    (h : resolveInside tree root name = .ok path) :
    tree.isFile path = true ∧ ∃ p, path = Path.clean p := by
  simp only [resolveInside] at h
  split at h
  · cases h
  · split at h
    · cases h
    · split at h
      · next hfile =>
        cases h
        refine ⟨hfile, ?_⟩
        rw [joined]
        split
        · exact ⟨_, rfl⟩
        · exact ⟨_, rfl⟩
      · cases h

/-- **Resolved paths are canonical.** -/
theorem canonical_of_resolve {r : Resolver} {tree : FileTree} {directory name path : Bytes}
    {lang : LanguageContext} (hid : 47 ∉ lang.id) (hdir : Path.isAbsolute directory = true)
    (h : r.resolve tree directory name lang = .ok path) : Path.Canonical path := by
  have hplain : Path.Canonical (joined directory (trim name)) := Path.canonical_joined hdir _
  rcases (resolve_cases h).2.2 with rfl | hlocal
  · exact hplain
  · rw [LanguageContext.localize?] at hlocal
    split at hlocal
    · cases hlocal
      exact Path.canonical_insertSuffix hplain hid
    · cases hlocal

end Resolver

/-! ## Components in a file tree -/

namespace FileTree

theorem components_of_canonical {t : FileTree} {p : Bytes} (h : Path.Canonical p) :
    t.components p = Path.cleanComponents p := by
  rw [components, Path.absolute, h.absolute, if_pos rfl, h.clean]

theorem eq_of_components_eq {t : FileTree} {p q : Bytes} (hp : Path.Canonical p)
    (hq : Path.Canonical q) (h : t.components p = t.components q) : p = q := by
  rw [components_of_canonical hp, components_of_canonical hq] at h
  exact hp.eq_of_components hq h

/-- A component of a path leads up, or is one that the path has in the tree. -/
theorem mem_components {t : FileTree} {p c : Bytes} (hc : c ∈ Path.cleanComponents p) :
    c = bytes ".." ∨ c ∈ t.components p := by
  rw [components, Path.absolute]
  by_cases habs : Path.isAbsolute p = true
  · rw [if_pos habs, Path.cleanComponents_clean]
    exact .inr hc
  · have hrel : Path.isAbsolute p = false := by simpa using habs
    have hp : p ≠ [] := by
      rintro rfl
      cases hc
    have hp' : (!p.isEmpty) = true := by simpa using hp
    rw [if_neg habs, Path.join]
    by_cases hcwd : t.cwd = []
    · have hparts : [t.cwd, p].filter (!·.isEmpty) = [p] := by simp [hcwd, hp']
      rw [hparts]
      simp only [List.isEmpty_cons, Bool.false_eq_true, if_false, joinWith,
        Path.cleanComponents_clean]
      exact .inr hc
    · have hcwd' : (!t.cwd.isEmpty) = true := by simpa using hcwd
      have hparts : [t.cwd, p].filter (!·.isEmpty) = [t.cwd, p] := by simp [hcwd', hp']
      rw [hparts]
      simp only [List.isEmpty_cons, Bool.false_eq_true, if_false, joinWith,
        Path.cleanComponents_clean, List.append_assoc, List.singleton_append]
      exact Path.mem_cleanComponents_append hrel _ hc

theorem read_of_isFile {t : FileTree} {p : Bytes} (h : t.isFile p = true) :
    ∃ text, t.read p = .ok text := by
  rw [isFile] at h
  split at h
  · next content hstat => exact ⟨content, by simp [read, hstat, bind, Except.bind]⟩
  · cases h

end FileTree

end Bindery
