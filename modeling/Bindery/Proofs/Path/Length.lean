import Bindery.Proofs.Path

/-!
# How long resolved paths are

A resolved path is not longer than the files and the root allow, whatever name it was resolved from. On the
way along the path every directory has to be there, so that the components that lead down are names of the
tree (`span_of_passes`); and the components that do not lead down are few, as a resolved path is clean but
for the identifier of the language in it (`length_of_resolve`). So there are only finitely many paths that
names can be resolved to.
-/

namespace Bindery

open Text

/-! ## Components in a tree -/

/-- How much text components take, each with a slash. -/
def span : List Bytes → Nat
  | [] => 0
  | c :: parts => c.length + 1 + span parts

theorem span_append (parts more : List Bytes) : span (parts ++ more) = span parts + span more := by
  induction parts with
  | nil => exact (Nat.zero_add _).symm
  | cons c parts ih => rw [List.cons_append, span, span, ih, ← Nat.add_assoc]

theorem span_reverse (parts : List Bytes) : span parts.reverse = span parts := by
  induction parts with
  | nil => rfl
  | cons c parts ih =>
    rw [List.reverse_cons, span_append, ih, span, span, span]
    omega

/-- Whether a component does not lead down. -/
def idle (c : Bytes) : Bool := c.isEmpty || c == bytes "." || c == bytes ".."

theorem idle_of_proper {c : Bytes} (h : Path.Proper c) : idle c = false := by
  simpa [idle] using ⟨⟨h.ne_nil, h.ne_dot⟩, h.ne_dots⟩

theorem length_of_idle {c : Bytes} (h : idle c = true) : c.length ≤ 2 := by
  simp only [idle, Bool.or_eq_true, List.isEmpty_iff, beq_iff_eq] at h
  rcases h with (rfl | rfl) | rfl <;> decide

theorem pushComponent_of_not_idle {c : Bytes} (h : idle c = false) (done : List Bytes) :
    Path.pushComponent true done c = c :: done := by
  simp only [idle, Bool.or_eq_false_iff] at h
  rw [Path.pushComponent.eq_def, h.1.1, h.1.2, h.2]
  simp

namespace FileTree

/-- How much text the places of a tree take. -/
def extent (t : FileTree) : Nat := t.entries.foldr (fun e taken => span e.1 + taken) 0

variable {t : FileTree}

theorem le_foldr_of_mem {α : Type} {f : α → Nat} {l : List α} {a : α} (h : a ∈ l) :
    f a ≤ l.foldr (fun b taken => f b + taken) 0 := by
  induction l with
  | nil => cases h
  | cons b l ih =>
    rw [List.foldr_cons]
    rcases List.mem_cons.1 h with rfl | h
    · omega
    · have := ih h
      omega

theorem span_le_extent {place : List Bytes} (h : (t.find? place).isSome = true) :
    span place ≤ t.extent := by
  rw [find?] at h
  split at h
  · next hnil =>
    rw [List.isEmpty_iff.1 hnil]
    exact Nat.zero_le _
  · obtain ⟨e, he⟩ := Option.isSome_iff_exists.1 h
    obtain ⟨before, after, hentries, -⟩ := List.lookup_eq_some_iff.1 he
    have hmem : (place, e) ∈ t.entries := by simp [hentries]
    exact le_foldr_of_mem (f := fun e => span e.1) hmem

/-- Between components that do not lead down, a way that is there follows a place of the tree. -/
theorem span_of_passes {done parts : List Bytes} (h : t.passes done parts = true) :
    span parts + span done ≤ (t.extent + 3) * (parts.countP idle + 1) := by
  induction parts generalizing done with
  | nil =>
    have hdone := span_le_extent h
    rw [span_reverse] at hdone
    simp only [span, List.countP_nil] at hdone ⊢
    omega
  | cons c parts ih =>
    rw [passes, Bool.and_eq_true] at h
    obtain ⟨hthere, hrest⟩ := h
    have hih := ih hrest
    rw [span, List.countP_cons]
    cases hidle : idle c with
    | true =>
      have hdone : span done ≤ t.extent := by
        rw [← span_reverse]
        exact span_le_extent (by rw [eq_of_beq hthere]; rfl)
      have hlength := length_of_idle hidle
      rw [if_pos rfl, Nat.mul_add_one]
      omega
    | false =>
      rw [pushComponent_of_not_idle hidle] at hih
      rw [if_neg (by simp)]
      simp only [span, Nat.add_zero] at hih ⊢
      omega

theorem length_add_one (p : Bytes) : p.length + 1 = span (splitOn 47 p) := by
  induction p with
  | nil => rfl
  | cons c rest ih =>
    obtain ⟨first, more, h⟩ := exists_splitOn 47 rest
    rw [h] at ih
    rw [splitOn_cons h, List.length_cons, ih]
    split <;> simp only [span, List.length_cons, List.length_nil] <;> omega

theorem countP_splitOn_le (q : Bytes → Bool) (p : Bytes) : (splitOn 47 p).countP q ≤ p.length + 1 := by
  refine Nat.le_trans List.countP_le_length ?_
  rw [length_add_one]
  induction splitOn 47 p with
  | nil => exact Nat.le_refl _
  | cons c parts ih =>
    rw [List.length_cons, span]
    omega

theorem length_of_isFile {p : Bytes} (h : t.isFile p = true) :
    p.length ≤ (t.extent + 3) * (t.cwd.length + (splitOn 47 p).countP idle + 2) := by
  have hcwd := countP_splitOn_le idle t.cwd
  simp only [isFile] at h
  split at h
  · split at h
    · have hspan := span_of_passes h
      rw [← length_add_one] at hspan
      refine Nat.le_trans (by omega) (Nat.le_trans hspan (Nat.mul_le_mul_left _ (by omega)))
    · have hspan := span_of_passes h
      rw [← length_add_one, splitOn_append_cons, List.countP_append, List.length_append,
        List.length_cons] at hspan
      refine Nat.le_trans (by omega) (Nat.le_trans hspan (Nat.mul_le_mul_left _ (by omega)))
  · cases h

end FileTree

namespace Path

theorem countP_idle_of_proper {parts : List Bytes} (h : ∀ c ∈ parts, Proper c) :
    parts.countP idle = 0 := by
  rw [List.countP_eq_zero]
  intro c hc
  rw [idle_of_proper (h c hc)]
  exact Bool.false_ne_true

/-- The components of a cleaned relative path: what leads up, and then what leads down. -/
theorem exists_cleanComponents_eq {p : Bytes} (h : isAbsolute p = false) :
    ∃ n down, cleanComponents p = List.replicate n (bytes "..") ++ down ∧ ∀ c ∈ down, Proper c := by
  obtain ⟨names, n, hstack, hnames⟩ := stack_cleanComponents h
  refine ⟨n, names.reverse, ?_, fun c hc => hnames c (List.mem_reverse.1 hc)⟩
  rw [← List.reverse_reverse (cleanComponents p), hstack, List.reverse_append, List.reverse_replicate]

theorem countP_dots (n : Nat) {down : List Bytes} (h : ∀ c ∈ down, Proper c) :
    (List.replicate n (bytes "..") ++ down).countP (· == bytes "..") = n := by
  have hdown : down.countP (· == bytes "..") = 0 :=
    List.countP_eq_zero.2 fun c hc => by simpa using (h c hc).ne_dots
  rw [List.countP_append, List.countP_replicate, hdown]
  simp

/-- Cleaned paths lead down, but for what leads up in front. -/
theorem countP_idle_clean (p : Bytes) :
    (splitOn 47 (clean p)).countP idle ≤ (cleanComponents p).countP (· == bytes "..") + 2 := by
  cases habs : isAbsolute p with
  | true =>
    have hproper : ∀ c ∈ cleanComponents p, Proper c := fun c => proper_of_mem_cleanComponents habs
    rw [clean_of_isAbsolute habs, rooted, splitOn_cons_self, List.countP_cons]
    cases hparts : cleanComponents p with
    | nil => decide
    | cons c rest =>
      rw [hparts] at hproper
      rw [splitOn_joinWith (List.cons_ne_nil c rest) fun x hx => (hproper x hx).no_slash,
        countP_idle_of_proper hproper]
      split <;> omega
  | false =>
    have hpart := (stack_cleanComponents habs).part
    obtain ⟨-, ⟨hnil, hclean⟩ | ⟨hne, hclean⟩⟩ := clean_of_relative habs
    · rw [hclean, hnil]
      decide
    · rw [hclean, splitOn_joinWith hne fun c hc => (hpart c (List.mem_reverse.2 hc)).2]
      obtain ⟨n, down, hparts, hdown⟩ := exists_cleanComponents_eq habs
      rw [hparts, countP_dots n hdown, List.countP_append, countP_idle_of_proper hdown]
      have hup := List.countP_le_length (p := idle) (l := List.replicate n (bytes ".."))
      rw [List.length_replicate] at hup
      omega

theorem countP_dots_of_isAbsolute {p : Bytes} (h : isAbsolute p = true) :
    (cleanComponents p).countP (· == bytes "..") = 0 := by
  rw [List.countP_eq_zero]
  intro c hc
  simpa using (proper_of_mem_cleanComponents h hc).ne_dots

theorem names_clean_of_relative {p : Bytes} (h : isAbsolute p = false) :
    cleanComponents p = [] ∨ names (clean p) = cleanComponents p := by
  have hpart := (stack_cleanComponents h).part
  obtain ⟨-, ⟨hnil, -⟩ | ⟨hne, hclean⟩⟩ := clean_of_relative h
  · exact .inl hnil
  · right
    rw [names, hclean, splitOn_joinWith hne fun c hc => (hpart c (List.mem_reverse.2 hc)).2,
      List.filter_eq_self]
    intro c hc
    simpa using (hpart c (List.mem_reverse.2 hc)).1

theorem length_names_le (p : Bytes) : (names p).length ≤ p.length + 1 := by
  rw [names, ← List.countP_eq_length_filter]
  exact FileTree.countP_splitOn_le _ p

/-- The path from a directory to a path that is another one, by what they do not share. -/
theorem exists_of_relative? {directory p rel : Bytes} (h : relative? directory p = some rel) :
    clean directory = clean p ∨ ∃ shared up down,
      (shared ++ up).length ≤ (clean directory).length + 1 ∧ names (clean p) = shared ++ down ∧
        rel = joinWith [47] (List.replicate up.length (bytes "..") ++ down) := by
  rw [relative?] at h
  have hstart : (if clean directory == [46] then [] else clean directory).length ≤
      (clean directory).length := by
    split
    · exact Nat.zero_le _
    · exact Nat.le_refl _
  generalize (if clean directory == [46] then [] else clean directory) = start at h hstart
  split at h
  · next heq => exact .inl (eq_of_beq heq)
  · dsimp only at h
    split at h
    · cases h
    · split at h
      · cases h
      · obtain ⟨shared, hup, hdown⟩ := dropShared_append (names start) (names (clean p))
        have hlength := Nat.le_trans (length_names_le start) (Nat.succ_le_succ hstart)
        rw [hup] at hlength
        exact .inr ⟨shared, _, _, hlength, hdown, (Option.some.inj h).symm⟩

/-- A path in a directory leads up no farther than the directory does. -/
theorem countP_dots_of_contains {directory p : Bytes} (h : contains directory p = true) :
    (cleanComponents p).countP (· == bytes "..") ≤ (clean directory).length + 1 := by
  cases habs : isAbsolute p with
  | true =>
    rw [countP_dots_of_isAbsolute habs]
    exact Nat.zero_le _
  | false =>
    rcases names_clean_of_relative habs with hnil | hnames
    · rw [hnil]
      exact Nat.zero_le _
    rw [contains] at h
    split at h
    · cases h
    · next rel hrel =>
      have hinside : leadsUp rel = false := by simpa [leadsUp] using h
      rcases exists_of_relative? hrel with heq | ⟨shared, up, down, hlength, hdown, rfl⟩
      · rw [← hnames, heq]
        exact Nat.le_trans List.countP_le_length (length_names_le _)
      · cases up with
        | cons c up => rw [List.length_cons, leadsUp_replicate] at hinside; cases hinside
        | nil =>
          obtain ⟨n, names', hparts, hnames'⟩ := exists_cleanComponents_eq habs
          rw [hparts, countP_dots n hnames']
          -- If the path led up farther, then so would what is not shared.
          refine Decidable.byContradiction fun hfar => ?_
          have hrest : down = List.replicate (n - shared.length) (bytes "..") ++ names' := by
            have hdrop : down = (shared ++ down).drop shared.length := List.drop_left.symm
            rw [hdrop, ← hdown, hnames, hparts, List.drop_append_of_le_length, List.drop_replicate]
            rw [List.length_append] at hlength
            rw [List.length_replicate]
            omega
          obtain ⟨m, hm⟩ : ∃ m, n - shared.length = m + 1 := by
            rw [List.length_append] at hlength
            exact ⟨n - shared.length - 1, by omega⟩
          rw [hrest, hm] at hinside
          exact absurd hinside (by simpa using leadsUp_replicate m names')

/-- A path is its directory, which ends in a slash if there is one, and its file. -/
theorem exists_split (p : Bytes) : ∃ directory file, split p = (directory, file) ∧
    p = directory ++ file ∧ 47 ∉ file ∧ (directory = [] ∨ ∃ front, directory = front ++ [47]) := by
  have hp : p = (p.reverse.dropWhile (· != 47)).reverse ++ (p.reverse.takeWhile (· != 47)).reverse := by
    rw [← List.reverse_append, List.takeWhile_append_dropWhile, List.reverse_reverse]
  refine ⟨_, _, ?_, hp, fun hmem => ?_, ?_⟩
  · have hlength : p.length - (p.reverse.takeWhile (· != 47)).reverse.length =
        (p.reverse.dropWhile (· != 47)).reverse.length := by
      have := congrArg List.length hp
      rw [List.length_append] at this
      omega
    have htake := congrArg (List.take (p.reverse.dropWhile (· != 47)).reverse.length) hp
    rw [List.take_left] at htake
    rw [split, hlength, htake]
  · have hall := List.all_takeWhile (p := (· != (47 : UInt8))) (l := p.reverse)
    exact absurd (List.all_eq_true.1 hall 47 (List.mem_reverse.1 hmem)) (by decide)
  · cases hrest : p.reverse.dropWhile (· != 47) with
    | nil => exact .inl rfl
    | cons c rest =>
      have hhead := List.head?_dropWhile_not (· != (47 : UInt8)) p.reverse
      rw [hrest] at hhead
      obtain rfl : c = 47 := by simpa using hhead
      exact .inr ⟨rest.reverse, List.reverse_cons⟩

theorem length_splitOn (p : Bytes) : (splitOn 47 p).length = p.count 47 + 1 := by
  induction p with
  | nil => rfl
  | cons c rest ih =>
    obtain ⟨first, more, h⟩ := exists_splitOn 47 rest
    rw [h] at ih
    rw [splitOn_cons h, List.count_cons]
    split
    · next hc => simpa [hc] using ih
    · next hc => simpa [hc] using ih

/-- An identifier in a path adds its own components. -/
theorem countP_idle_insertSuffix (p id : Bytes) :
    (splitOn 47 (insertSuffix p id)).countP idle ≤ (splitOn 47 p).countP idle + id.length + 1 := by
  obtain ⟨directory, file, hsplit, hp, hfile, hdirectory⟩ := exists_split p
  obtain ⟨ending, hinsert, hending⟩ : ∃ ending, insertSuffix p id =
      directory ++ (withoutEnd ending file ++ "_" ++ id ++ ending) ∧ 47 ∉ ending := by
    refine ⟨if ext file == file then [] else ext file, ?_, ?_⟩
    · simp only [insertSuffix, hsplit, List.append_assoc]
    split
    · exact List.not_mem_nil
    · exact fun h => hfile (mem_of_mem_ext h)
  have hname : (splitOn 47 (withoutEnd ending file ++ "_" ++ id ++ ending)).countP idle ≤
      id.length + 1 := by
    refine Nat.le_trans List.countP_le_length ?_
    have hstem : (withoutEnd ending file).count 47 = 0 :=
      List.count_eq_zero.2 fun h => hfile (mem_of_mem_withoutEnd h)
    have hunder : (("_" : Bytes)).count 47 = 0 := by decide
    rw [length_splitOn, List.count_append, List.count_append, List.count_append, hstem, hunder,
      List.count_eq_zero.2 hending]
    have := List.count_le_length (a := (47 : UInt8)) (l := id)
    omega
  rw [hinsert]
  rcases hdirectory with rfl | ⟨front, rfl⟩
  · rw [List.nil_append]
    omega
  · rw [hp, List.append_assoc front, List.append_assoc front, List.singleton_append,
      List.singleton_append, splitOn_append_cons, splitOn_append_cons, List.countP_append,
      List.countP_append]
    omega

end Path

/-! ## Resolved paths -/

namespace Resolver

/-- How long resolved paths can be. -/
def reach (r : Resolver) (tree : FileTree) (lang : LanguageContext) : Nat :=
  (tree.extent + 3) * (tree.cwd.length + (Path.clean r.root).length + lang.id.length + 6)

theorem clean_joined (directory name : Bytes) :
    Path.clean (joined directory name) = joined directory name := by
  rw [joined]
  split
  · exact Path.clean_clean _
  · exact Path.clean_clean _

theorem contains_of_resolve {r : Resolver} {tree : FileTree} {directory name path : Bytes}
    {lang : LanguageContext} (h : r.resolve tree directory name lang = .ok path) :
    Path.contains r.root (joined directory (trim name)) = true := by
  simp only [resolve] at h
  split at h
  · cases h
  · split at h
    · cases h
    · next hplain => simpa using hplain

/-- **Resolved paths are short.** -/
theorem length_of_resolve {r : Resolver} {tree : FileTree} {directory name path : Bytes}
    {lang : LanguageContext} (h : r.resolve tree directory name lang = .ok path) :
    path.length ≤ r.reach tree lang := by
  obtain ⟨hfile, -, hpath⟩ := resolve_cases h
  have hplain : (splitOn 47 (joined directory (trim name))).countP idle ≤
      (Path.clean r.root).length + 3 := by
    have hclean := Path.countP_idle_clean (joined directory (trim name))
    have hdots := Path.countP_dots_of_contains (contains_of_resolve h)
    rw [clean_joined] at hclean
    omega
  refine Nat.le_trans (FileTree.length_of_isFile hfile) (Nat.mul_le_mul_left _ ?_)
  rcases hpath with rfl | hlocal
  · omega
  · rw [LanguageContext.localize?] at hlocal
    split at hlocal
    · obtain rfl := Option.some.inj hlocal
      have hid := Path.countP_idle_insertSuffix (joined directory (trim name)) lang.id
      omega
    · cases hlocal

end Resolver

end Bindery
