import Mathlib.Data.List.Basic
import Mathlib.Data.List.TakeWhile
import Bindery.Proofs.Path

/-!
# Paths that lead down

Where joined paths lead, in terms of components: joining follows the components of the second path from
the first one on, and a path `Descends` if it never leads up on the way. Whether a directory contains a path
is decided by looking at how the path between them begins as a text (`leadsUp`), which on absolute paths
comes to the components of the one standing before those of the other (`contains_iff`). The path from a
directory to something in it descends.
-/

namespace Bindery

open Text

namespace Path

/-! ## Joining -/

theorem cleanComponents_join {directory : Bytes} (h : isAbsolute directory = true) (name : Bytes) :
    cleanComponents (join [directory, name]) =
      ((splitOn 47 name).foldl (pushComponent true) (cleanComponents directory).reverse).reverse := by
  have hne : (!directory.isEmpty) = true := by
    cases directory with
    | nil => exact absurd h (by decide)
    | cons c directory => rfl
  rw [join]
  by_cases hname : name = []
  · have hparts : [directory, name].filter (!·.isEmpty) = [directory] := by simp [hname, hne]
    rw [hparts, hname]
    simp [joinWith, cleanComponents_clean, splitOn, pushComponent]
  · have hparts : [directory, name].filter (!·.isEmpty) = [directory, name] := by simp [hname, hne]
    have habs : isAbsolute (directory ++ 47 :: name) = true := isAbsolute_append h _
    rw [hparts]
    simp only [List.isEmpty_cons, Bool.false_eq_true, if_false, joinWith, List.append_assoc,
      List.singleton_append, cleanComponents_clean]
    rw [cleanComponents, cleanComponents, habs, h, splitOn_append_cons, List.foldl_append,
      List.reverse_reverse]

theorem cleanComponents_join_of_proper {directory name : Bytes} (h : isAbsolute directory = true)
    (hname : ∀ c ∈ splitOn 47 name, Proper c) :
    cleanComponents (join [directory, name]) = cleanComponents directory ++ splitOn 47 name := by
  rw [cleanComponents_join h, foldl_pushComponent_proper hname, List.reverse_append,
    List.reverse_reverse, List.reverse_reverse]

theorem cleanComponents_join_name {directory name : Bytes} (h : isAbsolute directory = true)
    (hname : Proper name) :
    cleanComponents (join [directory, name]) = cleanComponents directory ++ [name] := by
  have hsplit := splitOn_of_notMem hname.no_slash
  rw [cleanComponents_join_of_proper h (by simpa [hsplit] using hname), hsplit]

theorem canonical_join {directory : Bytes} (h : isAbsolute directory = true) (name : Bytes) :
    Canonical (join [directory, name]) := by
  have hjoin : isAbsolute (join [directory, name]) = true := isAbsolute_join h
  rw [join] at hjoin ⊢
  split at hjoin
  · cases hjoin
  · next hparts =>
    rw [if_neg hparts]
    refine canonical_clean ?_
    by_contra hrel
    rw [(clean_of_relative (by simpa using hrel)).1] at hjoin
    cases hjoin

theorem cleanComponents_dir {p : Bytes} (h : Canonical p) :
    cleanComponents (dir p) = (cleanComponents p).dropLast := by
  obtain ⟨parts, hparts, rfl⟩ := canonical_iff.1 h
  rw [dir, cleanComponents_clean, cleanComponents_rooted hparts]
  rcases List.eq_nil_or_concat parts with rfl | ⟨front, file, rfl⟩
  · rfl
  · rw [List.concat_eq_append] at hparts ⊢
    obtain ⟨directory, hsplit, -, hdirectory⟩ := split_rooted front (hparts file (by simp)).no_slash
    rw [hsplit, List.dropLast_concat]
    have hslash : directory = rooted (front ++ [[]]) := by simpa using hdirectory []
    obtain ⟨hfront, -⟩ := List.forall_mem_append.1 hparts
    have hnone : ∀ c ∈ front ++ [[]], 47 ∉ c := by
      intro c hc
      rcases List.mem_append.1 hc with hc | hc
      · exact (hfront c hc).no_slash
      · simp [List.mem_singleton.1 hc]
    have hskip : ∀ done, pushComponent true done [] = done := fun _ => rfl
    rw [hslash, cleanComponents, rooted, isAbsolute_cons, splitOn_cons_self,
      splitOn_joinWith (by simp) hnone, List.foldl_cons, hskip, List.foldl_append,
      foldl_pushComponent_proper hfront, List.foldl_cons, hskip]
    simp

/-! ## Leading down -/

/-- A path that never leads up: it has proper components only, or it is the empty path `.`. -/
def Descends (p : Bytes) : Prop := p = [46] ∨ ∀ c ∈ splitOn 47 p, Proper c

theorem cleanComponents_join_dot {directory : Bytes} (h : isAbsolute directory = true) :
    cleanComponents (join [directory, [46]]) = cleanComponents directory := by
  have hskip : pushComponent true (cleanComponents directory).reverse [46] =
      (cleanComponents directory).reverse := by
    rw [pushComponent.eq_def, if_pos (by decide)]
  rw [cleanComponents_join h, splitOn_of_notMem (by decide), List.foldl_cons, hskip, List.foldl_nil,
    List.reverse_reverse]

/-- A path that leads down stays at or below where it starts. -/
theorem Descends.prefix_join {p directory : Bytes} (hp : Descends p)
    (h : isAbsolute directory = true) :
    cleanComponents directory <+: cleanComponents (join [directory, p]) := by
  rcases hp with rfl | hp
  · exact (cleanComponents_join_dot h).symm ▸ List.prefix_rfl
  · rw [cleanComponents_join_of_proper h hp]
    exact List.prefix_append _ _

/-- Paths that lead down lead to different places. -/
theorem Descends.eq_of_join {p q directory : Bytes} (hp : Descends p) (hq : Descends q)
    (h : isAbsolute directory = true)
    (heq : cleanComponents (join [directory, p]) = cleanComponents (join [directory, q])) : p = q := by
  have hne : ∀ r, cleanComponents directory ≠ cleanComponents directory ++ splitOn 47 r := fun r heq =>
    splitOn_ne_nil 47 r (List.self_eq_append_right.1 heq)
  rcases hp with rfl | hp
  · rcases hq with rfl | hq
    · rfl
    · rw [cleanComponents_join_dot h, cleanComponents_join_of_proper h hq] at heq
      exact absurd heq (hne q)
  · rcases hq with rfl | hq
    · rw [cleanComponents_join_dot h, cleanComponents_join_of_proper h hp] at heq
      exact absurd heq.symm (hne p)
    · rw [cleanComponents_join_of_proper h hp, cleanComponents_join_of_proper h hq] at heq
      rw [← joinWith_splitOn 47 p, List.append_cancel_left heq, joinWith_splitOn]

/-- The pieces of a canonical path that are not empty are its components. -/
theorem filter_splitOn_rooted {parts : List Bytes} (h : ∀ c ∈ parts, Proper c) :
    (splitOn 47 (rooted parts)).filter (!·.isEmpty) = parts := by
  have hkeep : parts.filter (!·.isEmpty) = parts := by
    rw [List.filter_eq_self]
    intro c hc
    simpa using (h c hc).ne_nil
  rw [rooted, splitOn_cons_self]
  cases hparts : parts with
  | nil => rfl
  | cons c rest =>
    rw [← hparts, splitOn_joinWith (by simp [hparts]) fun c hc => (h c hc).no_slash]
    simpa using hkeep

theorem rooted_inj {as bs : List Bytes} (has : ∀ c ∈ as, Proper c) (hbs : ∀ c ∈ bs, Proper c)
    (h : rooted as = rooted bs) : as = bs := by
  rw [← cleanComponents_rooted has, ← cleanComponents_rooted hbs, h]

/-- The path from an absolute directory to an absolute path, by what they do not share. -/
theorem relative?_of_isAbsolute {directory p : Bytes} (h : isAbsolute directory = true)
    (hp : isAbsolute p = true) :
    relative? directory p =
      if cleanComponents directory = cleanComponents p then some [46]
      else some (joinWith [47] (List.replicate
        (dropShared (cleanComponents directory) (cleanComponents p)).1.length (bytes "..") ++
          (dropShared (cleanComponents directory) (cleanComponents p)).2)) := by
  have hA : ∀ c ∈ cleanComponents directory, Proper c := fun c => proper_of_mem_cleanComponents h
  have hB : ∀ c ∈ cleanComponents p, Proper c := fun c => proper_of_mem_cleanComponents hp
  rw [relative?, clean_of_isAbsolute h, clean_of_isAbsolute hp]
  generalize cleanComponents directory = as at hA ⊢
  generalize cleanComponents p = bs at hB ⊢
  by_cases heq : as = bs
  · simp [heq]
  · have hne : (rooted as == rooted bs) = false :=
      beq_eq_false_iff_ne.2 fun hsame => heq (rooted_inj hA hB hsame)
    have hdot : (rooted as == [46]) = false :=
      beq_eq_false_iff_ne.2 fun hsame => absurd (List.cons.inj hsame).1 (by decide)
    have habs : (isAbsolute (rooted as) != isAbsolute (rooted bs)) = false := rfl
    obtain ⟨shared, hshared, -⟩ := dropShared_append as bs
    have hup : ((dropShared as bs).1.head? == some (bytes "..")) = false := by
      rw [beq_eq_false_iff_ne]
      intro hhead
      have hmem := List.mem_of_mem_head? (Option.mem_def.2 hhead)
      exact (hA _ (hshared ▸ List.mem_append_right _ hmem)).ne_dots rfl
    simp only [hne, hdot, habs, Bool.false_eq_true, if_false, filter_splitOn_rooted hA,
      filter_splitOn_rooted hB, hup, Bool.false_and, if_neg heq]

/-! ## Containment -/

/-- A path lies in a directory, or is that directory: its components, once both are cleaned, begin with
those of the directory. -/
def Inside (directory p : Bytes) : Prop := names (clean directory) <+: names (clean p)

instance (directory p : Bytes) : Decidable (Inside directory p) :=
  inferInstanceAs (Decidable (_ <+: _))

theorem names_clean {p : Bytes} (h : isAbsolute p = true) : names (clean p) = cleanComponents p := by
  rw [names, clean_of_isAbsolute h]
  exact filter_splitOn_rooted fun c hc => proper_of_mem_cleanComponents h hc

theorem inside_iff {directory p : Bytes} (h : isAbsolute directory = true)
    (hp : isAbsolute p = true) :
    Inside directory p ↔ cleanComponents directory <+: cleanComponents p := by
  rw [Inside, names_clean h, names_clean hp]

theorem dropShared_of_isPrefix {as bs : List Bytes} (h : as <+: bs) : (dropShared as bs).1 = [] := by
  induction as generalizing bs with
  | nil => simp [dropShared]
  | cons a as ih =>
    obtain ⟨rest, rfl⟩ := h
    rw [List.cons_append, dropShared, if_pos (beq_self_eq_true a)]
    exact ih (List.prefix_append as rest)

/-- A proper component leads down, also one that begins with two dots. -/
theorem leadsUp_of_proper {parts : List Bytes} (h : ∀ c ∈ parts, Proper c) :
    leadsUp (joinWith [47] parts) = false := by
  have hdots : (47 : UInt8) ∉ bytes ".." := by decide
  cases parts with
  | nil => decide
  | cons c rest =>
    have hsplit : splitOn 47 (joinWith [47] (c :: rest)) = c :: rest :=
      splitOn_joinWith (by simp) fun x hx => (h x hx).no_slash
    have hc : c ≠ bytes ".." := (h c List.mem_cons_self).ne_dots
    rw [leadsUp, Bool.or_eq_false_iff]
    refine ⟨beq_eq_false_iff_ne.2 fun heq => ?_, Bool.eq_false_iff.2 fun hstart => ?_⟩
    · rw [heq, splitOn_of_notMem hdots] at hsplit
      exact hc (List.cons.inj hsplit).1.symm
    · obtain ⟨s, hs⟩ := List.isPrefixOf_iff_prefix.1 hstart
      have hslash : bytes "../" ++ s = bytes ".." ++ 47 :: s := rfl
      rw [← hs, hslash, splitOn_append_cons, splitOn_of_notMem hdots] at hsplit
      exact hc (List.cons.inj hsplit).1.symm

/-- **Containment is by components**, though it is decided on texts. -/
theorem contains_iff {directory p : Bytes} (h : isAbsolute directory = true)
    (hp : isAbsolute p = true) : contains directory p = true ↔ Inside directory p := by
  have hproper : ∀ c ∈ cleanComponents p, Proper c := fun c hc => proper_of_mem_cleanComponents hp hc
  rw [inside_iff h hp, contains, relative?_of_isAbsolute h hp]
  by_cases heq : cleanComponents directory = cleanComponents p
  · rw [if_pos heq, heq]
    simp only [List.prefix_rfl, iff_true]
    decide
  · rw [if_neg heq]
    have hleads : ∀ rel, (rel != bytes ".." && !startsWith (bytes "../") rel) = !leadsUp rel := by
      intro rel
      rw [leadsUp, Bool.not_or]
      rfl
    obtain ⟨shared, hdirectory, hp'⟩ :=
      dropShared_append (cleanComponents directory) (cleanComponents p)
    simp only [hleads, Bool.not_eq_true']
    constructor
    · intro hdown
      cases hup : (dropShared (cleanComponents directory) (cleanComponents p)).1 with
      | nil =>
        rw [hup, List.append_nil] at hdirectory
        rw [hdirectory, hp']
        exact List.prefix_append _ _
      | cons c up =>
        rw [hup, List.length_cons, leadsUp_replicate] at hdown
        cases hdown
    · intro hprefix
      rw [dropShared_of_isPrefix hprefix]
      exact leadsUp_of_proper fun c hc => hproper c (hp' ▸ List.mem_append_right _ hc)

/-- The path to something inside a directory is made of the components that the directory lacks. -/
theorem exists_down_of_relative? {directory p rel : Bytes} (h : isAbsolute directory = true)
    (hrel : relative? directory p = some rel) (hinside : contains directory p = true) :
    rel = [46] ∧ cleanComponents p = cleanComponents directory ∨
      ∃ down, rel = joinWith [47] down ∧ down ≠ [] ∧ (∀ c ∈ down, Proper c) ∧
        cleanComponents p = cleanComponents directory ++ down := by
  have hp : isAbsolute p = true := isAbsolute_of_contains h hinside
  have hB : ∀ c ∈ cleanComponents p, Proper c := fun c => proper_of_mem_cleanComponents hp
  have hprefix := (inside_iff h hp).1 ((contains_iff h hp).1 hinside)
  rw [relative?_of_isAbsolute h hp] at hrel
  split at hrel
  · next heq => exact .inl ⟨(Option.some.inj hrel).symm, heq.symm⟩
  · next hne =>
    obtain ⟨shared, has, hbs⟩ := dropShared_append (cleanComponents directory) (cleanComponents p)
    have hup := dropShared_of_isPrefix hprefix
    generalize dropShared (cleanComponents directory) (cleanComponents p) = rest at hrel has hbs hup
    obtain ⟨up, down⟩ := rest
    obtain rfl : up = [] := hup
    rw [List.append_nil] at has
    have hdown : ∀ c ∈ down, Proper c := fun c hc => hB c (hbs ▸ List.mem_append_right _ hc)
    have hne' : down ≠ [] := by
      rintro rfl
      rw [List.append_nil] at hbs
      exact hne (has.trans hbs.symm)
    exact .inr ⟨down, (Option.some.inj hrel).symm, hne', hdown, has ▸ hbs⟩

/-- **The path to something inside** a directory leads down. -/
theorem descends_of_relative? {directory p rel : Bytes} (h : isAbsolute directory = true)
    (hrel : relative? directory p = some rel) (hinside : contains directory p = true) :
    Descends rel := by
  rcases exists_down_of_relative? h hrel hinside with ⟨rfl, -⟩ | ⟨down, rfl, hne, hdown, -⟩
  · exact .inl rfl
  · right
    rwa [splitOn_joinWith hne fun c hc => (hdown c hc).no_slash]

/-- Where something lies inside a directory is told by the path to it. -/
theorem cleanComponents_eq_of_relative? {directory p q rel : Bytes} (h : isAbsolute directory = true)
    (hrel : relative? directory p = some rel) (hrel' : relative? directory q = some rel)
    (hinside : contains directory p = true) (hinside' : contains directory q = true) :
    cleanComponents p = cleanComponents q := by
  have hdot : ∀ down : List Bytes, down ≠ [] → (∀ c ∈ down, Proper c) → [46] ≠ joinWith [47] down := by
    intro down hne hdown heq
    have hsplit := splitOn_joinWith hne fun c hc => (hdown c hc).no_slash
    rw [← heq] at hsplit
    exact (hdown [46] (hsplit ▸ List.mem_singleton_self _)).ne_dot rfl
  rcases exists_down_of_relative? h hrel hinside with
    ⟨rfl, hcomponents⟩ | ⟨down, rfl, hne, hdown, hcomponents⟩
  · rcases exists_down_of_relative? h hrel' hinside' with
      ⟨-, hcomponents'⟩ | ⟨down', heq, hne', hdown', -⟩
    · rw [hcomponents, hcomponents']
    · exact absurd heq (hdot down' hne' hdown')
  · rcases exists_down_of_relative? h hrel' hinside' with
      ⟨heq, -⟩ | ⟨down', heq, hne', hdown', hcomponents'⟩
    · exact absurd heq.symm (hdot down hne hdown)
    · have hsplit := congrArg (splitOn 47) heq
      rw [splitOn_joinWith hne fun c hc => (hdown c hc).no_slash,
        splitOn_joinWith hne' fun c hc => (hdown' c hc).no_slash] at hsplit
      rw [hcomponents, hcomponents', hsplit]

end Path

/-! ## Names -/

namespace Path

theorem canonical_absolute {directory : Bytes} (h : isAbsolute directory = true) (p : Bytes) :
    Canonical (absolute directory p) := by
  rw [absolute]
  split
  · next hp => exact canonical_clean hp
  · exact canonical_join h p

theorem base_rooted (front : List Bytes) {file : Bytes} (h : Proper file) :
    base (rooted (front ++ [file])) = file := by
  obtain ⟨directory, hsplit, -, happend⟩ := split_rooted front h.no_slash
  have htrim : trimEnd (· == 47) (rooted (front ++ [file])) = rooted (front ++ [file]) := by
    obtain ⟨start, last, rfl⟩ : ∃ start last, file = start ++ [last] :=
      ⟨_, _, (List.dropLast_append_getLast h.ne_nil).symm⟩
    have hlast : last ≠ 47 := by
      rintro rfl
      exact h.no_slash (by simp)
    rw [← happend, trimEnd]
    simp [hlast]
  have hfile : file.isEmpty = false := by simpa using h.ne_nil
  have hrooted : (rooted (front ++ [file])).isEmpty = false := rfl
  simp only [base, htrim, hsplit, hfile, hrooted, Bool.false_eq_true, if_false]

theorem notMem_stem {p : Bytes} (h : Canonical p) (hne : cleanComponents p ≠ []) : 47 ∉ stem p := by
  obtain ⟨parts, hparts, rfl⟩ := canonical_iff.1 h
  rw [cleanComponents_rooted hparts] at hne
  obtain ⟨front, file, rfl⟩ := (List.eq_nil_or_concat parts).resolve_left hne
  rw [List.concat_eq_append] at hparts ⊢
  have hfile : Proper file := hparts file (by simp)
  intro hmem
  rw [stem, base_rooted front hfile] at hmem
  exact hfile.no_slash (mem_of_mem_withoutEnd hmem)

end Path

/-! ## Extensions -/

namespace Path

/-- A path ends in its extension, in which no slash stands. -/
theorem ext_eq (p : Bytes) : 47 ∉ ext p ∧ ext p <:+ p := by
  rw [ext]
  have hcut := List.takeWhile_append_dropWhile (p := fun c => c != 46 && c != 47) (l := p.reverse)
  have htail : ∀ c ∈ p.reverse.takeWhile fun c => c != 46 && c != 47, c ≠ 47 := by
    intro c hc
    have := List.mem_takeWhile_imp hc
    simp only [Bool.and_eq_true, bne_iff_ne] at this
    exact this.2
  generalize p.reverse.takeWhile (fun c => c != 46 && c != 47) = tail at hcut htail ⊢
  split
  · next rest hrest =>
    rw [List.length_reverse, ← hcut, List.drop_left] at hrest
    rw [hrest] at hcut
    refine ⟨?_, rest.reverse, ?_⟩
    · intro hmem
      rcases List.mem_cons.1 hmem with hmem | hmem
      · exact absurd hmem (by decide)
      · exact htail 47 (List.mem_reverse.1 hmem) rfl
    · have hp := congrArg List.reverse hcut
      simpa using hp
  · exact ⟨by simp, List.nil_suffix⟩

theorem ext_append_slash (front rest : Bytes) : ext (front ++ 47 :: rest) = ext rest := by
  have hreverse : (front ++ 47 :: rest).reverse = rest.reverse ++ 47 :: front.reverse := by simp
  simp only [ext, hreverse]
  have hcut := List.takeWhile_append_dropWhile (p := fun c => c != 46 && c != 47) (l := rest.reverse)
  cases hrest : rest.reverse.dropWhile fun c => c != 46 && c != 47 with
  | nil =>
    have hall := List.dropWhile_eq_nil_iff.1 hrest
    have hslash : (47 :: front.reverse).takeWhile (fun c => c != 46 && c != 47) = [] := rfl
    rw [List.takeWhile_append_of_pos hall, hslash, List.append_nil, List.length_reverse,
      List.drop_left, List.takeWhile_eq_self_iff.2 hall, List.length_reverse, List.drop_length]
    rfl
  | cons c more =>
    rw [hrest] at hcut
    have hshort : (rest.reverse.takeWhile fun c => c != 46 && c != 47).length ≠ rest.reverse.length := by
      intro hlength
      have hboth := congrArg List.length hcut
      rw [List.length_append, List.length_cons] at hboth
      omega
    rw [List.takeWhile_append, if_neg hshort]
    generalize rest.reverse.takeWhile (fun c => c != 46 && c != 47) = tail at hcut
    rw [← hcut, List.length_reverse, List.append_assoc, List.drop_left, List.drop_left, List.cons_append]
    split
    · next heq =>
      obtain ⟨rfl, -⟩ := List.cons.inj heq
      rfl
    · next hne =>
      split
      · next heq =>
        obtain ⟨rfl, -⟩ := List.cons.inj heq
        exact absurd rfl (hne _)
      · rfl

theorem exists_rooted_append (front : List Bytes) {down : List Bytes} (hdown : down ≠ []) :
    ∃ start, rooted (front ++ down) = start ++ 47 :: joinWith [47] down := by
  induction front with
  | nil => exact ⟨[], rfl⟩
  | cons c front ih =>
    obtain ⟨start, hstart⟩ := ih
    obtain ⟨next, more, hmore⟩ := List.exists_cons_of_ne_nil
      (show front ++ down ≠ [] from List.append_ne_nil_of_right_ne_nil _ hdown)
    have hjoin : joinWith [47] (c :: next :: more) = c ++ [47] ++ joinWith [47] (next :: more) := rfl
    refine ⟨47 :: c ++ start, ?_⟩
    rw [rooted, hmore] at hstart
    rw [rooted, List.cons_append, hmore, hjoin, List.append_assoc, List.append_assoc, ← hstart]
    rfl

/-- A path other than its directory ends like the path to it. -/
theorem ext_of_relative? {directory p rel : Bytes} (h : isAbsolute directory = true)
    (hrel : relative? directory p = some rel) (hinside : contains directory p = true)
    (hne : cleanComponents p ≠ cleanComponents directory) : ext (clean p) = ext rel := by
  obtain ⟨down, rfl, hdown, -, hcomponents⟩ :=
    (exists_down_of_relative? h hrel hinside).resolve_left fun heq => hne heq.2
  obtain ⟨start, hstart⟩ := exists_rooted_append (cleanComponents directory) hdown
  rw [clean_of_isAbsolute (isAbsolute_of_contains h hinside), hcomponents, hstart, ext_append_slash]

/-- A name with a long enough ending is neither `.` nor `..`. -/
theorem proper_append {name ending : Bytes} (hname : 47 ∉ name) (hending : 47 ∉ ending)
    (hlength : 2 < ending.length) : Proper (name ++ ending) := by
  have hlong : 2 < (name ++ ending).length := by
    rw [List.length_append]
    omega
  have hshort : ∀ c : Bytes, c.length ≤ 2 → name ++ ending ≠ c := by
    rintro c hc rfl
    omega
  refine ⟨hshort [] (by decide), ?_, hshort _ (by decide), hshort _ (by decide)⟩
  simp [hname, hending]

theorem withoutEnd_append (s ending : Bytes) : withoutEnd ending (s ++ ending) = s := by
  have hcut : ending.reverse.isPrefixOf? (s ++ ending).reverse = some s.reverse := by
    rw [List.isPrefixOf?_eq_some_iff_append_eq, List.reverse_append]
  rw [withoutEnd, beforeEnd?, hcut]
  simp

theorem Descends.withExtension {p ending : Bytes} (h : Descends p) (hext : 1 < (ext p).length)
    (hending : 47 ∉ ending) (hlength : 2 < ending.length) :
    Descends (withoutEnd (ext p) p ++ ending) := by
  obtain ⟨hslash, front, hp⟩ := ext_eq p
  have hfront : withoutEnd (ext p) p = front := by
    nth_rewrite 2 [← hp]
    exact withoutEnd_append front (ext p)
  rcases h with rfl | h
  · exact absurd hext (by decide)
  · obtain ⟨before, last, hsplit, happend⟩ := exists_splitOn_append 47 front
    rw [← hp, happend _ hslash] at h
    have hlast : 47 ∉ last := notMem_of_mem_splitOn (s := front) (by simp [hsplit])
    right
    rw [hfront, happend _ hending]
    intro c hc
    rcases List.mem_append.1 hc with hc | hc
    · exact h c (List.mem_append_left _ hc)
    · rw [List.mem_singleton.1 hc]
      exact proper_append hlast hending hlength

end Path

/-! ## Places in a file tree -/

/-- An absolute path means the same from every directory. -/
theorem FileTree.components_of_isAbsolute (t : FileTree) {p : Bytes} (h : Path.isAbsolute p = true) :
    t.components p = Path.cleanComponents p := by
  rw [components, Path.absolute, if_pos h, Path.cleanComponents_clean]

theorem FileTree.descend_of_stat {t : FileTree} {p : Bytes} {e : FileEntry}
    (hpath : Path.isAbsolute p = true) (h : t.stat p = .ok e) :
    t.descend [] (Path.cleanComponents p) = .ok e := by
  rw [stat] at h
  split at h
  · cases h
  · rwa [components_of_isAbsolute t hpath] at h

end Bindery
