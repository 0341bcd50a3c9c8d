import Mathlib.Data.List.Basic
import Bindery.FileTree

/-!
# What changes in a file tree

Each way of changing a file tree changes it at few places. `Within` says that all changes stay at or
below one place, apart from directories that were missing on the way to it; `Grows` says besides that
the place itself does not cease to be a directory. Both hold of changes one after the other.
-/

namespace Bindery.FileTree

variable {t t' t'' : FileTree} {path : Bytes} {place p : List Bytes}

/-! ## One change -/

theorem find?_of_ne_nil (t : FileTree) (hp : p ≠ []) : t.find? p = t.entries.lookup p := by
  rw [find?, if_neg (by simpa using hp)]

theorem lookup_filter (keep : List Bytes → Bool) (p : List Bytes)
    (entries : List (List Bytes × FileEntry)) :
    (entries.filter fun e => keep e.1).lookup p = if keep p then entries.lookup p else none := by
  induction entries with
  | nil => simp
  | cons e entries ih =>
    obtain ⟨q, e⟩ := e
    by_cases hq : p = q
    · subst hq
      cases hkeep : keep p <;> simp [hkeep, ih]
    · have hne : (p == q) = false := beq_eq_false_iff_ne.2 hq
      cases hkeep : keep q <;> simp [hkeep, List.lookup_cons, hne, ih]

/-- The place that an entry is put at holds it, and all others hold what they did. -/
theorem find?_put (t : FileTree) (place : List Bytes) (e : FileEntry) (hp : p ≠ []) :
    (t.put place e).find? p = if p = place then some e else t.find? p := by
  rw [find?_of_ne_nil _ hp, find?_of_ne_nil _ hp, put, List.lookup_cons]
  by_cases h : p = place
  · simp [h]
  · have hne : (p == place) = false := beq_eq_false_iff_ne.2 h
    rw [if_neg h, hne, lookup_filter fun q => q != place]
    simp [h]

theorem find?_remove (t : FileTree) (path : Bytes) (hp : p ≠ []) :
    (t.remove path).find? p = if t.components path <+: p then none else t.find? p := by
  rw [find?_of_ne_nil _ hp, find?_of_ne_nil _ hp, remove,
    lookup_filter fun q => !(t.components path).isPrefixOf q]
  by_cases h : t.components path <+: p
  · simp [List.isPrefixOf_iff_prefix.2 h, h]
  · have hfalse : (t.components path).isPrefixOf p = false :=
      Bool.eq_false_iff.2 fun hstart => h (List.isPrefixOf_iff_prefix.1 hstart)
    simp [hfalse, h]

theorem write_eq_ok {content : Bytes} (h : t.write path content = .ok t') :
    t' = t.put (t.components path) (.file content) ∧
      t.find? (t.components path) ≠ some .directory := by
  unfold write at h
  simp only at h
  split at h
  · cases h
  · split at h
    · cases h
    · cases h
    · split at h
      · cases h
      · next hfind =>
        obtain rfl := Except.ok.inj h
        exact ⟨rfl, hfind⟩

theorem removeAll_eq_ok (h : t.removeAll path = .ok t') : t' = t.remove path := by
  unfold removeAll at h
  split at h
  · exact (Except.ok.inj h).symm
  · exact (Except.ok.inj h).symm
  · cases h

/-! ## Changes at one place -/

/-- All changes from one tree to another stay at or below a place. On the way to it, directories are
made where nothing was. -/
structure Within (place : List Bytes) (t t' : FileTree) : Prop where
  cwd : t'.cwd = t.cwd
  outside : ∀ p, ¬ place <+: p → t'.find? p = t.find? p ∨
    p <+: place ∧ t.find? p = none ∧ t'.find? p = some .directory

/-- Changes within a place that leave a directory there one. -/
structure Grows (place : List Bytes) (t t' : FileTree) : Prop extends Within place t t' where
  directory : t.find? place = some .directory → t'.find? place = some .directory

theorem Within.refl (place : List Bytes) (t : FileTree) : Within place t t :=
  ⟨rfl, fun _ _ => .inl rfl⟩

theorem Grows.refl (place : List Bytes) (t : FileTree) : Grows place t t :=
  ⟨.refl place t, id⟩

theorem Within.trans (h : Within place t t') (h' : Within place t' t'') : Within place t t'' := by
  refine ⟨h'.cwd.trans h.cwd, fun p hp => ?_⟩
  rcases h.outside p hp with heq | ⟨hstart, hnone, hmade⟩
  · rcases h'.outside p hp with heq' | ⟨hstart, hnone, hmade⟩
    · exact .inl (heq'.trans heq)
    · exact .inr ⟨hstart, heq ▸ hnone, hmade⟩
  · rcases h'.outside p hp with heq' | ⟨-, hnone', -⟩
    · exact .inr ⟨hstart, hnone, heq'.trans hmade⟩
    · rw [hmade] at hnone'
      cases hnone'

theorem Grows.trans (h : Grows place t t') (h' : Grows place t' t'') : Grows place t t'' :=
  ⟨h.toWithin.trans h'.toWithin, fun hd => h'.directory (h.directory hd)⟩

theorem components_congr (h : t'.cwd = t.cwd) (path : Bytes) :
    t'.components path = t.components path := by
  rw [components, components, h]

theorem Within.of_eq (hcwd : t'.cwd = t.cwd)
    (h : ∀ p, p ≠ [] → ¬ place <+: p → t'.find? p = t.find? p) : Within place t t' := by
  refine ⟨hcwd, fun p hp => .inl ?_⟩
  by_cases hnil : p = []
  · rw [hnil]
    rfl
  · exact h p hnil hp

/-- Writing changes one place, and no directory. -/
theorem grows_of_write {content : Bytes} (h : t.write path content = .ok t')
    (hplace : place <+: t.components path) : Grows place t t' := by
  obtain ⟨rfl, hfile⟩ := write_eq_ok h
  refine ⟨.of_eq rfl fun p hnil hp => ?_, fun hd => ?_⟩
  · rw [find?_put t _ _ hnil, if_neg]
    rintro rfl
    exact hp hplace
  · by_cases hnil : place = []
    · rw [hnil]
      rfl
    · rw [find?_put t _ _ hnil, if_neg, hd]
      rintro rfl
      exact hfile hd

theorem within_of_remove (hplace : place <+: t.components path) : Within place t (t.remove path) := by
  refine .of_eq rfl fun p hnil hp => ?_
  rw [find?_remove t path hnil, if_neg fun h => hp (hplace.trans h)]

/-- Removing something below a directory does not remove the directory. -/
theorem grows_of_remove (hplace : place <+: t.components path) (hne : place ≠ t.components path) :
    Grows place t (t.remove path) := by
  refine ⟨within_of_remove hplace, fun hd => ?_⟩
  by_cases hnil : place = []
  · rw [hnil]
    rfl
  · rw [find?_remove t path hnil, if_neg, hd]
    exact fun h => hne (hplace.eq_of_length_le h.length_le)

/-- Making a directory changes only what was missing on the way to it. -/
theorem makeFrom_eq_ok {here rest : List Bytes} (h : t.makeFrom here rest = .ok t') :
    t'.cwd = t.cwd ∧ ∀ p, t'.find? p = t.find? p ∨
      p <+: here ++ rest ∧ t.find? p = none ∧ t'.find? p = some .directory := by
  induction rest generalizing t here with
  | nil =>
    obtain rfl := Except.ok.inj h
    exact ⟨rfl, fun _ => .inl rfl⟩
  | cons c rest ih =>
    have happend : here ++ [c] ++ rest = here ++ c :: rest := by simp
    rw [makeFrom] at h
    split at h
    · rw [← happend]
      exact ih h
    · cases h
    · next hnone =>
      obtain ⟨hcwd, hrest⟩ := ih h
      rw [happend] at hrest
      refine ⟨hcwd, fun p => ?_⟩
      -- The first directory on the way is made here, and the others after it.
      by_cases hp : p = here ++ [c]
      · subst hp
        have hput : (t.put (here ++ [c]) .directory).find? (here ++ [c]) = some .directory := by
          rw [find?_put t _ _ (by simp), if_pos rfl]
        rcases hrest (here ++ [c]) with heq | ⟨-, hnone', -⟩
        · exact .inr ⟨happend ▸ List.prefix_append _ _, hnone, heq.trans hput⟩
        · rw [hput] at hnone'
          cases hnone'
      · have hput : (t.put (here ++ [c]) .directory).find? p = t.find? p := by
          by_cases hnil : p = []
          · rw [hnil]
            rfl
          · rw [find?_put t _ _ hnil, if_neg hp]
        rw [← hput]
        exact hrest p

theorem find?_makeDirectory (h : t.makeDirectory path = .ok t') (p : List Bytes) :
    t'.find? p = t.find? p ∨
      p <+: t.components path ∧ t.find? p = none ∧ t'.find? p = some .directory := by
  unfold makeDirectory at h
  split at h
  · cases h
  · simpa using (makeFrom_eq_ok h).2 p

theorem grows_of_makeDirectory (h : t.makeDirectory path = .ok t')
    (hplace : t.components path <+: place ∨ place <+: t.components path) : Grows place t t' := by
  unfold makeDirectory at h
  split at h
  · cases h
  · obtain ⟨hcwd, hmade⟩ := makeFrom_eq_ok h
    rw [List.nil_append] at hmade
    refine ⟨⟨hcwd, fun p hp => ?_⟩, fun hd => ?_⟩
    · rcases hmade p with heq | ⟨hstart, hchange⟩
      · exact .inl heq
      · refine .inr ⟨?_, hchange⟩
        rcases hplace with hplace | hplace
        · exact hstart.trans hplace
        · exact (List.prefix_or_prefix_of_prefix hstart hplace).resolve_right hp
    · rcases hmade place with heq | ⟨-, -, hdirectory⟩
      · rw [heq, hd]
      · exact hdirectory

/-! ## Reaching a directory -/

/-- On the way to a directory there are directories. -/
theorem find?_of_isPrefix {e : FileEntry} (h : t.descend [] place = .ok e) (hp : p <+: place)
    (hne : p ≠ place) : t.find? p = some .directory := by
  suffices hway : ∀ here rest, t.descend here rest = .ok e → ∀ q, q <+: rest → q ≠ rest →
      t.find? (here ++ q) = some .directory from hway [] place h p hp hne
  intro here rest
  induction rest generalizing here with
  | nil =>
    intro _ q hq hne
    exact absurd (List.prefix_nil.1 hq) hne
  | cons c rest ih =>
    intro h q hq hne
    rw [descend] at h
    split at h
    · next hdirectory =>
      cases q with
      | nil => rwa [List.append_nil]
      | cons d q =>
        obtain ⟨rfl, hq'⟩ := List.cons_prefix_cons.1 hq
        have hway := ih (here ++ [d]) h q hq' fun heq => hne (by rw [heq])
        simpa using hway
    · cases h
    · cases h

/-- Changes below an existing directory change nothing outside of it. -/
theorem Within.find?_eq (h : Within place t t') {directory : List Bytes}
    (hdirectory : t.descend [] directory = .ok .directory) (hplace : directory <+: place)
    (hp : ¬ directory <+: p) : t'.find? p = t.find? p := by
  rcases h.outside p fun hstart => hp (hplace.trans hstart) with heq | ⟨hstart, hnone, -⟩
  · exact heq
  · -- What is missing on the way to the place is not on the way to the directory.
    have hway := (List.prefix_or_prefix_of_prefix hstart hplace).resolve_right hp
    rw [find?_of_isPrefix hdirectory hway fun heq => hp (heq ▸ List.prefix_rfl)] at hnone
    cases hnone

/-- Changes at one place change nothing at a place next to it. -/
theorem Within.find?_of_apart (h : Within place t t') {other : List Bytes} (hother : ¬ place <+: other)
    (hplace : ¬ other <+: place) (hp : other <+: p) : t'.find? p = t.find? p := by
  have houtside : ¬ place <+: p := fun hstart =>
    (List.prefix_or_prefix_of_prefix hstart hp).elim hother hplace
  rcases h.outside p houtside with heq | ⟨hstart, -⟩
  · exact heq
  · exact absurd (hp.trans hstart) hplace

theorem descend_congr {here rest : List Bytes}
    (h : ∀ q, q <+: rest → t'.find? (here ++ q) = t.find? (here ++ q)) :
    t'.descend here rest = t.descend here rest := by
  induction rest generalizing here with
  | nil =>
    have hhere := h [] List.prefix_rfl
    rw [List.append_nil] at hhere
    rw [descend, descend, hhere]
  | cons c rest ih =>
    have hhere := h [] List.nil_prefix
    have hrest : t'.descend (here ++ [c]) rest = t.descend (here ++ [c]) rest := by
      refine ih fun q hq => ?_
      simpa using h (c :: q) (List.cons_prefix_cons.2 ⟨rfl, hq⟩)
    rw [List.append_nil] at hhere
    rw [descend, descend, hhere, hrest]

/-- Changes that stay strictly below a place, if a directory is there. -/
def Beneath (top : List Bytes) (t t' : FileTree) : Prop :=
  t.descend [] top = .ok .directory → t'.descend [] top = .ok .directory ∧
    ∀ p, ¬ (top <+: p ∧ top ≠ p) → t'.find? p = t.find? p

theorem Beneath.refl (top : List Bytes) (t : FileTree) : Beneath top t t :=
  fun h => ⟨h, fun _ _ => rfl⟩

theorem Beneath.trans (h : Beneath place t t') (h' : Beneath place t' t'') : Beneath place t t'' := by
  intro hd
  obtain ⟨hd', heq⟩ := h hd
  obtain ⟨hd'', heq'⟩ := h' hd'
  exact ⟨hd'', fun p hp => (heq' p hp).trans (heq p hp)⟩

/-- A directory stays one if nothing on the way to it changes. -/
theorem beneath_of_find? {top : List Bytes} (h : t.descend [] top = .ok .directory →
    ∀ p, ¬ (top <+: p ∧ top ≠ p) → t'.find? p = t.find? p) : Beneath top t t' := by
  refine fun hd => ⟨?_, h hd⟩
  rw [← hd]
  refine descend_congr fun q hq => h hd q fun ⟨hstart, hne⟩ => ?_
  exact hne (hstart.eq_of_length_le hq.length_le)

theorem Within.beneath (h : Within place t t') {top : List Bytes} (hplace : top <+: place)
    (hne : top ≠ place) : Beneath top t t' := by
  refine beneath_of_find? fun hd p hp => ?_
  by_cases htop : top = p
  · subst htop
    have hfind : t.find? top = some .directory := find?_of_descend hd
    rcases h.outside top fun hstart => hne (hplace.eq_of_length_le hstart.length_le) with
      heq | ⟨-, hnone, -⟩
    · exact heq
    · rw [hfind] at hnone
      cases hnone
  · exact h.find?_eq hd hplace fun hstart => hp ⟨hstart, htop⟩

theorem Grows.beneath (h : Grows place t t') : Beneath place t t' := by
  refine beneath_of_find? fun hd p hp => ?_
  by_cases htop : place = p
  · subst htop
    have hfind : t.find? place = some .directory := find?_of_descend hd
    rw [hfind, h.directory hfind]
  · exact h.toWithin.find?_eq hd List.prefix_rfl fun hstart => hp ⟨hstart, htop⟩

theorem Beneath.of_stat {top : List Bytes} (h : Beneath top t t') (ht : t.components path = top)
    (ht' : t'.components path = top) (hd : t.stat path = .ok .directory) :
    t'.stat path = .ok .directory ∧ ∀ p, ¬ (top <+: p ∧ top ≠ p) → t'.find? p = t.find? p := by
  rw [stat] at hd ⊢
  split at hd
  · cases hd
  · next hnul =>
    rw [if_neg hnul, ht']
    exact h (ht ▸ hd)

/-! ## Reading back -/

theorem descend_append {here rest : List Bytes} (h : t.descend here rest = .ok .directory)
    (rest' : List Bytes) : t.descend here (rest ++ rest') = t.descend (here ++ rest) rest' := by
  induction rest generalizing here with
  | nil => simp
  | cons c rest ih =>
    rw [descend] at h
    rw [List.cons_append, descend]
    split at h
    · next hdirectory =>
      rw [ih h, List.append_assoc]
      rfl
    · cases h
    · cases h

theorem parent_of_write {content : Bytes} (h : t.write path content = .ok t') :
    path.contains 0 = false ∧ t.descend [] (t.components path).dropLast = .ok .directory := by
  unfold write at h
  simp only at h
  split at h
  · cases h
  · next hnul =>
    split at h
    · cases h
    · cases h
    · next hparent => exact ⟨by simpa using hnul, hparent⟩

theorem stat_of_isDirectory (h : t.isDirectory path = true) : t.stat path = .ok .directory := by
  rw [isDirectory] at h
  split at h
  · assumption
  · cases h

theorem find?_of_read {content : Bytes} (h : t.read path = .ok content) :
    t.find? (t.components path) = some (.file content) := by
  rw [read] at h
  cases hstat : t.stat path with
  | error fault =>
    rw [hstat] at h
    cases h
  | ok e =>
    rw [hstat] at h
    rw [stat] at hstat
    split at hstat
    · cases hstat
    · cases e with
      | directory => cases h
      | file content' =>
        obtain rfl : content' = content := Except.ok.inj h
        exact find?_of_descend hstat

theorem exists_makeFrom {here rest : List Bytes}
    (h : ∀ q, q <+: rest → ∀ content, t.find? (here ++ q) ≠ some (.file content)) :
    ∃ t', t.makeFrom here rest = .ok t' := by
  induction rest generalizing t here with
  | nil => exact ⟨t, rfl⟩
  | cons c rest ih =>
    have hrest : ∀ q, q <+: rest → ∀ content, t.find? (here ++ [c] ++ q) ≠ some (.file content) :=
      fun q hq => by simpa using h (c :: q) (List.cons_prefix_cons.2 ⟨rfl, hq⟩)
    rw [makeFrom]
    split
    · exact ih hrest
    · next content hfile => exact absurd hfile (by simpa using hrest [] List.nil_prefix content)
    · refine ih fun q hq content => ?_
      rw [find?_put _ _ _ (by simp)]
      split
      · exact fun heq => by cases heq
      · exact hrest q hq content

/-- Making a directory takes nothing away. -/
theorem find?_of_makeFrom {here rest : List Bytes} {e : FileEntry}
    (h : t.makeFrom here rest = .ok t') (hp : t.find? p = some e) : t'.find? p = some e := by
  rcases (makeFrom_eq_ok h).2 p with heq | ⟨-, hnone, -⟩
  · rw [heq, hp]
  · rw [hp] at hnone
    cases hnone

theorem find?_of_makeDirectory {e : FileEntry} (h : t.makeDirectory path = .ok t')
    (hp : t.find? p = some e) : t'.find? p = some e := by
  rw [makeDirectory] at h
  split at h
  · cases h
  · exact find?_of_makeFrom h hp

theorem descend_of_makeFrom {here rest : List Bytes} (h : t.makeFrom here rest = .ok t')
    (hhere : t.find? here = some .directory) : t'.descend here rest = .ok .directory := by
  induction rest generalizing t here with
  | nil => rw [descend, find?_of_makeFrom h hhere]
  | cons c rest ih =>
    rw [descend, find?_of_makeFrom h hhere]
    rw [makeFrom] at h
    split at h
    · next hnext => exact ih h hnext
    · cases h
    · refine ih h ?_
      rw [find?_put _ _ _ (by simp), if_pos rfl]

/-- **Clearing a directory** leaves it with nothing in it, and all else as it was. -/
theorem exists_clear (h : t.stat path = .ok .directory) :
    ∃ t', (t.remove path).makeDirectory path = .ok t' ∧ t'.stat path = .ok .directory ∧
      ∀ p, p ≠ t.components path →
        t'.find? p = if t.components path <+: p then none else t.find? p := by
  have hparts : (t.remove path).components path = t.components path := rfl
  rw [stat] at h
  split at h
  · cases h
  · next hnul =>
    have hremoved : ∀ q, q ≠ t.components path →
        (t.remove path).find? q = if t.components path <+: q then none else t.find? q := by
      intro q hne
      by_cases hnil : q = []
      · subst hnil
        rw [if_neg fun hstart => hne (List.prefix_nil.1 hstart).symm]
        rfl
      · exact find?_remove t path hnil
    -- On the way there are only directories, and the place itself was emptied.
    have hway : ∀ q, q <+: t.components path → q ≠ t.components path →
        (t.remove path).find? q = some .directory := by
      intro q hq hne
      rw [hremoved q hne, if_neg fun hstart => hne (hq.eq_of_length_le hstart.length_le)]
      exact find?_of_isPrefix h hq hne
    have hfree : ∀ q, q <+: t.components path → ∀ content,
        (t.remove path).find? ([] ++ q) ≠ some (.file content) := by
      intro q hq content
      rw [List.nil_append]
      by_cases hne : q = t.components path
      · by_cases hnil : q = []
        · rw [hnil]
          exact fun heq => by cases heq
        · rw [find?_remove t path hnil, if_pos (hne ▸ List.prefix_rfl)]
          exact fun heq => by cases heq
      · rw [hway q hq hne]
        exact fun heq => by cases heq
    obtain ⟨t', ht'⟩ := exists_makeFrom hfree
    obtain ⟨hcwd, hmade⟩ := makeFrom_eq_ok ht'
    refine ⟨t', ?_, ?_, fun p hne => ?_⟩
    · rw [makeDirectory, if_neg hnul, hparts, ht']
    · rw [stat, if_neg hnul, components_congr hcwd, hparts]
      exact descend_of_makeFrom ht' rfl
    · rcases hmade p with heq | ⟨hstart, hnone, -⟩
      · rw [heq, hremoved p hne]
      · rw [List.nil_append] at hstart
        rw [hway p hstart hne] at hnone
        cases hnone

/-! ## Trees that agree -/

/-- Trees that agree on what stands at some places. -/
structure Agree (seen : List Bytes → Prop) (t t' : FileTree) : Prop where
  cwd : t'.cwd = t.cwd
  places : ∀ p, seen p → t'.find? p = t.find? p

/-- Changes of trees that agree: both fail alike, or both lead to trees that agree. -/
inductive Alike (seen : List Bytes → Prop) : Except Fault FileTree → Except Fault FileTree → Prop
  | error (fault : Fault) : Alike seen (.error fault) (.error fault)
  | ok {t t' : FileTree} (h : Agree seen t t') : Alike seen (.ok t) (.ok t')

theorem Alike.mapError {seen : List Bytes → Prop} {r r' : Except Fault FileTree} (h : Alike seen r r')
    (f : Fault → Fault) : Alike seen (r.mapError f) (r'.mapError f) := by
  cases h with
  | error fault => exact .error (f fault)
  | ok h => exact .ok h

section Agree

variable {seen : List Bytes → Prop}

theorem Agree.put (h : Agree seen t t') (place : List Bytes) (e : FileEntry) :
    Agree seen (t.put place e) (t'.put place e) := by
  refine ⟨h.cwd, fun p hp => ?_⟩
  by_cases hnil : p = []
  · rw [hnil]
    rfl
  · rw [find?_put _ _ _ hnil, find?_put _ _ _ hnil, h.places p hp]

variable (hseen : ∀ p q, q <+: p → seen p → seen q)

include hseen

theorem Agree.stat (h : Agree seen t t') (hpath : seen (t.components path)) :
    t'.stat path = t.stat path := by
  rw [FileTree.stat, FileTree.stat, components_congr h.cwd]
  split
  · rfl
  · exact descend_congr fun q hq => h.places q (hseen _ q hq hpath)

theorem Agree.write (h : Agree seen t t') {content : Bytes} (hpath : seen (t.components path)) :
    Alike seen (t.write path content) (t'.write path content) := by
  have hparent : t'.descend [] (t.components path).dropLast =
      t.descend [] (t.components path).dropLast :=
    descend_congr fun q hq => h.places q (hseen _ q (hq.trans (List.dropLast_prefix _)) hpath)
  rw [FileTree.write, FileTree.write]
  simp only [components_congr h.cwd, hparent, h.places _ hpath]
  split
  · exact .error _
  · split
    · exact .error _
    · exact .error _
    · split
      · exact .error _
      · exact .ok (h.put _ _)

theorem Agree.makeFrom (h : Agree seen t t') {here rest : List Bytes} (hplace : seen (here ++ rest)) :
    Alike seen (t.makeFrom here rest) (t'.makeFrom here rest) := by
  induction rest generalizing t t' here with
  | nil => exact .ok h
  | cons c rest ih =>
    have hplace' : seen (here ++ [c] ++ rest) := by simpa using hplace
    rw [FileTree.makeFrom, FileTree.makeFrom,
      h.places _ (hseen _ (here ++ [c]) (List.prefix_append _ _) hplace')]
    split
    · exact ih h hplace'
    · exact .error _
    · exact ih (h.put _ _) hplace'

theorem Agree.makeDirectory (h : Agree seen t t') (hpath : seen (t.components path)) :
    Alike seen (t.makeDirectory path) (t'.makeDirectory path) := by
  rw [FileTree.makeDirectory, FileTree.makeDirectory, components_congr h.cwd]
  split
  · exact .error _
  · exact h.makeFrom hseen hpath

omit hseen in
theorem Agree.remove (h : Agree seen t t') (path : Bytes) :
    Agree seen (t.remove path) (t'.remove path) := by
  refine ⟨h.cwd, fun p hp => ?_⟩
  by_cases hnil : p = []
  · rw [hnil]
    rfl
  · rw [find?_remove _ _ hnil, find?_remove _ _ hnil, components_congr h.cwd, h.places p hp]

theorem Agree.removeAll (h : Agree seen t t') (hpath : seen (t.components path)) :
    Alike seen (t.removeAll path) (t'.removeAll path) := by
  rw [FileTree.removeAll, FileTree.removeAll, h.stat hseen hpath]
  split
  · exact .ok (h.remove path)
  · exact .ok (h.remove path)
  · exact .error _

end Agree

end Bindery.FileTree
