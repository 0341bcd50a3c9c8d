import Mathlib.Data.List.Forall2
import Bindery.Proofs.Listing.Selection
import Bindery.Proofs.Text.Space

/-!
# Common indentation

Removing the common indentation takes the same blanks away from every line that is not white, the longest that
all of them begin with (`dedent_moves`). They can be found line by line: the blanks of the first line are cut
back from their end until they begin the next line too (`cutBack`). What begins the rest is just what begins the
blanks of every line passed, and this alone tells the rest, so it does not matter in which order the lines are
taken.
-/

namespace Bindery.Listing

open Text

/-! ## Beginnings that lines share -/

theorem prefix_indentation_iff {q l : Bytes} :
    q <+: indentation l ↔ (∀ c ∈ q, isBlank c = true) ∧ q <+: l := by
  constructor
  · intro h
    exact ⟨fun c hc => List.mem_takeWhile_imp (h.subset hc), h.trans (List.takeWhile_prefix _)⟩
  · rintro ⟨hq, t, rfl⟩
    rw [indentation, List.takeWhile_append_of_pos hq]
    exact List.prefix_append _ _

theorem prefix_commonStart_iff {q a b : Bytes} : q <+: commonStart a b ↔ q <+: a ∧ q <+: b := by
  induction a generalizing q b with
  | nil => simp +contextual [commonStart]
  | cons x a ih =>
    cases b with
    | nil => simp +contextual [commonStart]
    | cons y b =>
      rw [commonStart]
      cases q with
      | nil => simp
      | cons c q =>
        split
        · next hxy =>
          subst hxy
          rw [List.cons_prefix_cons, List.cons_prefix_cons, List.cons_prefix_cons, ih]
          exact and_and_left
        · next hxy =>
          rw [List.cons_prefix_cons, List.cons_prefix_cons]
          grind

/-- Cuts some blanks back from their end until they begin a line. -/
def cutBack (lead l : Bytes) : Bytes :=
  if h : startsWith lead l then lead
  else
    have : lead ≠ [] := by
      rintro rfl
      exact h rfl
    cutBack lead.dropLast l
termination_by lead.length
decreasing_by
  have := List.length_pos_of_ne_nil this
  rw [List.length_dropLast]
  omega

theorem prefix_dropLast_iff {q lead : Bytes} (hne : q ≠ lead) : q <+: lead.dropLast ↔ q <+: lead := by
  constructor
  · exact fun h => h.trans (List.dropLast_prefix lead)
  · rintro ⟨t, rfl⟩
    have ht : t ≠ [] := by
      rintro rfl
      exact hne (List.append_nil q).symm
    rw [List.dropLast_append_of_ne_nil ht]
    exact List.prefix_append _ _

theorem prefix_cutBack_iff {q lead l : Bytes} : q <+: cutBack lead l ↔ q <+: lead ∧ q <+: l := by
  fun_induction cutBack lead l with
  | case1 lead h =>
    have hlead : lead <+: l := List.isPrefixOf_iff_prefix.1 h
    exact (and_iff_left_of_imp fun hq => hq.trans hlead).symm
  | case2 lead h hne ih =>
    rw [ih]
    refine and_congr_left fun hq => prefix_dropLast_iff ?_
    rintro rfl
    exact h (List.isPrefixOf_iff_prefix.2 hq)

/-- The blanks that begin all lines that are not white: those of the first of them, cut back line by line. -/
def sharedLead (ls : List Bytes) : Bytes :=
  match (ls.filter (!isWhite ·)).map indentation with
  | [] => []
  | first :: more => more.foldl cutBack first

theorem prefix_foldl_cutBack_iff {q : Bytes} (first : Bytes) (more : List Bytes) :
    q <+: more.foldl cutBack first ↔ ∀ lead ∈ first :: more, q <+: lead := by
  induction more generalizing first with
  | nil => simp
  | cons l more ih =>
    rw [List.foldl_cons, ih]
    simp only [List.forall_mem_cons, prefix_cutBack_iff, and_assoc]

section

variable {ls : List Bytes} {l lead q : Bytes}

theorem mem_indentations :
    lead ∈ (ls.filter (!isWhite ·)).map indentation ↔ ∃ l ∈ ls, ¬ White l ∧ indentation l = lead := by
  simp [List.mem_filter, ← isWhite_iff, and_assoc]

/-- What begins the shared blanks begins the blanks of every line that is not white, if there is one. -/
theorem prefix_sharedLead_iff (hvisible : ∃ l ∈ ls, ¬ White l) :
    q <+: sharedLead ls ↔ ∀ l ∈ ls, ¬ White l → q <+: indentation l := by
  have hmem : (∀ lead ∈ (ls.filter (!isWhite ·)).map indentation, q <+: lead) ↔
      ∀ l ∈ ls, ¬ White l → q <+: indentation l := by
    simp only [mem_indentations]
    grind
  rw [← hmem, sharedLead]
  split
  · next hnil =>
    obtain ⟨l, hl, hwhite⟩ := hvisible
    have hlead := mem_indentations.2 ⟨l, hl, hwhite, rfl⟩
    rw [hnil] at hlead
    cases hlead
  · next first more hlist =>
    rw [hlist]
    exact prefix_foldl_cutBack_iff first more

theorem sharedLead_eq_nil (hwhite : ∀ l ∈ ls, White l) : sharedLead ls = [] := by
  have hnil : ls.filter (!isWhite ·) = [] := by
    simpa [List.filter_eq_nil_iff, isWhite_iff] using hwhite
  rw [sharedLead, hnil]
  rfl

theorem commonIndentation_eq_none (hwhite : ∀ l ∈ ls, White l) : commonIndentation ls = none := by
  induction ls with
  | nil => rfl
  | cons l rest ih =>
    obtain ⟨hl, hrest⟩ := List.forall_mem_cons.1 hwhite
    rw [commonIndentation, if_pos (isWhite_iff.2 hl), ih hrest]

theorem exists_commonIndentation (hvisible : ∃ l ∈ ls, ¬ White l) : ∃ shared, commonIndentation ls = some shared ∧
    ∀ q, q <+: shared ↔ ∀ l ∈ ls, ¬ White l → q <+: indentation l := by
  induction ls with
  | nil => simp at hvisible
  | cons l rest ih =>
    simp only [List.forall_mem_cons]
    rw [commonIndentation]
    by_cases hl : White l
    · have hrest : ∃ l ∈ rest, ¬ White l := by simpa [hl] using hvisible
      simpa [isWhite_iff.2 hl, hl] using ih hrest
    · rw [if_neg (mt isWhite_iff.1 hl)]
      by_cases hrest : ∃ l ∈ rest, ¬ White l
      · obtain ⟨shared, heq, hshared⟩ := ih hrest
        refine ⟨commonStart (indentation l) shared, by rw [heq], fun q => ?_⟩
        rw [prefix_commonStart_iff, hshared, forall_prop_of_true hl]
      · push Not at hrest
        refine ⟨indentation l, by rw [commonIndentation_eq_none hrest], fun q => ?_⟩
        rw [forall_prop_of_true hl, and_iff_left]
        exact fun l hmem hl => absurd (hrest l hmem) hl

/-- The common indentation is what cutting back leaves: the same texts begin either. -/
theorem dedent_eq (ls : List Bytes) : dedent ls = ls.map (withoutStart (sharedLead ls)) := by
  rw [dedent]
  by_cases hvisible : ∃ l ∈ ls, ¬ White l
  · obtain ⟨shared, heq, hshared⟩ := exists_commonIndentation hvisible
    have hbegins : ∀ q, q <+: shared ↔ q <+: sharedLead ls := fun q =>
      (hshared q).trans (prefix_sharedLead_iff hvisible).symm
    have hlead : shared = sharedLead ls :=
      ((hbegins shared).1 List.prefix_rfl).eq_of_length_le
        ((hbegins _).2 List.prefix_rfl).length_le
    rw [heq, hlead]
  · push Not at hvisible
    rw [commonIndentation_eq_none hvisible, sharedLead_eq_nil hvisible]
    exact (List.map_id' ls).symm

end

/-! ## Lines without what they share -/

/-- Some blanks are the longest that begin all lines that are not white. -/
structure LongestLead (lead : Bytes) (ls : List Bytes) : Prop where
  blank : ∀ c ∈ lead, isBlank c = true
  begins : ∀ l ∈ ls, ¬ White l → lead <+: l
  longest : ∀ other, (∀ c ∈ other, isBlank c = true) → (∀ l ∈ ls, ¬ White l → other <+: l) → other <+: lead

/-- What becomes of a line when some blanks are taken from its front. A line of white space loses them if it has
them, and stays white. -/
structure Moved (lead l l' : Bytes) : Prop where
  visible : ¬ White l → l = lead ++ l' ∧ indentation l = lead ++ indentation l'
  white : White l → l = lead ++ l' ∨ ¬ lead <+: l ∧ l' = l
  white_iff : White l' ↔ White l

section

variable {ls : List Bytes} {lead l : Bytes}

theorem longestLead_sharedLead (hvisible : ∃ l ∈ ls, ¬ White l) : LongestLead (sharedLead ls) ls := by
  have hbegins := (prefix_sharedLead_iff hvisible).1 List.prefix_rfl
  refine ⟨?_, fun l hl hwhite => (prefix_indentation_iff.1 (hbegins l hl hwhite)).2, fun other hblank hother => ?_⟩
  · obtain ⟨l, hl, hwhite⟩ := hvisible
    exact (prefix_indentation_iff.1 (hbegins l hl hwhite)).1
  · exact (prefix_sharedLead_iff hvisible).2 fun l hl hwhite =>
      prefix_indentation_iff.2 ⟨hblank, hother l hl hwhite⟩

theorem isBlank_of_mem_sharedLead (ls : List Bytes) : ∀ c ∈ sharedLead ls, isBlank c = true := by
  by_cases hvisible : ∃ l ∈ ls, ¬ White l
  · exact (longestLead_sharedLead hvisible).blank
  · push Not at hvisible
    rw [sharedLead_eq_nil hvisible]
    exact List.forall_mem_nil _

theorem white_blanks_append_iff {s : Bytes} (hlead : ∀ c ∈ lead, isBlank c = true) :
    White (lead ++ s) ↔ White s := by
  rw [← isWhite_iff, ← isWhite_iff, isWhite, isWhite, trimStart_white_append (white_of_isBlank hlead)]

theorem moved_withoutStart (hlead : ∀ c ∈ lead, isBlank c = true) (hbegins : ¬ White l → lead <+: l) :
    Moved lead l (withoutStart lead l) := by
  rcases withoutStart_cases lead l with hcut | ⟨hstart, hkept⟩
  · generalize withoutStart lead l = rest at hcut
    subst hcut
    exact ⟨fun _ => ⟨rfl, List.takeWhile_append_of_pos hlead⟩, fun _ => .inl rfl,
      (white_blanks_append_iff hlead).symm⟩
  · rw [hkept]
    exact ⟨fun hwhite => absurd (hbegins hwhite) hstart, fun _ => .inr ⟨hstart, rfl⟩, Iff.rfl⟩

theorem moved_of_mem (hl : l ∈ ls) : Moved (sharedLead ls) l (withoutStart (sharedLead ls) l) :=
  moved_withoutStart (isBlank_of_mem_sharedLead ls) fun hwhite =>
    (longestLead_sharedLead ⟨l, hl, hwhite⟩).begins l hl hwhite

theorem moved_dedent (ls : List Bytes) : List.Forall₂ (Moved (sharedLead ls)) ls (dedent ls) := by
  rw [dedent_eq, List.forall₂_map_right_iff, List.forall₂_same]
  exact fun l hl => moved_of_mem hl

theorem dedent_of_white (hwhite : ∀ l ∈ ls, White l) : dedent ls = ls := by
  rw [dedent_eq, sharedLead_eq_nil hwhite]
  exact List.map_id' ls

/-- Lines without what they share share nothing more. -/
theorem sharedLead_dedent (ls : List Bytes) : sharedLead (dedent ls) = [] := by
  by_cases hvisible : ∃ l ∈ ls, ¬ White l
  · -- Shared blanks of what is left, behind those taken away, would begin all lines before.
    have hmore : sharedLead ls ++ sharedLead (dedent ls) <+: sharedLead ls := by
      refine (longestLead_sharedLead hvisible).longest _ ?_ fun l hl hwhite => ?_
      · exact List.forall_mem_append.2 ⟨isBlank_of_mem_sharedLead ls, isBlank_of_mem_sharedLead _⟩
      · have hmoved := moved_of_mem hl
        have hmem : withoutStart (sharedLead ls) l ∈ dedent ls := by
          rw [dedent_eq]
          exact List.mem_map_of_mem hl
        have hleft := mt hmoved.white_iff.1 hwhite
        have hbegins := (longestLead_sharedLead ⟨_, hmem, hleft⟩).begins _ hmem hleft
        have happend := (List.prefix_append_right_inj (sharedLead ls)).2 hbegins
        rwa [← (hmoved.visible hwhite).1] at happend
    have hlength := hmore.length_le
    rw [List.length_append] at hlength
    exact List.eq_nil_of_length_eq_zero (by omega)
  · push Not at hvisible
    rw [dedent_of_white hvisible, sharedLead_eq_nil hvisible]

theorem dedent_dedent (ls : List Bytes) : dedent (dedent ls) = dedent ls := by
  rw [dedent_eq (dedent ls), sharedLead_dedent]
  exact List.map_id' _

/-- How much further in one line is than another is as before. -/
theorem indentation_append_iff {a b : Bytes × Bytes} (ha : Moved lead a.1 a.2) (hb : Moved lead b.1 b.2)
    (hvisible : ¬ White a.1) (hvisible' : ¬ White b.1) (t : Bytes) :
    indentation b.1 = indentation a.1 ++ t ↔ indentation b.2 = indentation a.2 ++ t := by
  rw [(ha.visible hvisible).2, (hb.visible hvisible').2, List.append_assoc, List.append_cancel_left_eq]

/-- **Removing the common indentation takes the same blanks from every line that is not white, and they are the
longest that all of these begin with.** So one line is further in than another, by the same blanks, before and
after, no line is lost, and doing it again changes nothing. Lines that are all white stay as they are. -/
theorem dedent_moves (ls : List Bytes) :
    List.Forall₂ (Moved (sharedLead ls)) ls (dedent ls) ∧
    ((∃ l ∈ ls, ¬ White l) → LongestLead (sharedLead ls) ls) ∧
    ((∀ l ∈ ls, White l) → dedent ls = ls) ∧
    (∀ a ∈ ls.zip (dedent ls), ∀ b ∈ ls.zip (dedent ls), ¬ White a.1 → ¬ White b.1 →
      ∀ t, indentation b.1 = indentation a.1 ++ t ↔ indentation b.2 = indentation a.2 ++ t) ∧
    (dedent ls).length = ls.length ∧
    dedent (dedent ls) = dedent ls := by
  have hmoved := moved_dedent ls
  refine ⟨hmoved, longestLead_sharedLead, dedent_of_white, fun a ha b hb => ?_, hmoved.length_eq.symm,
    dedent_dedent ls⟩
  exact indentation_append_iff ((List.forall₂_iff_zip.1 hmoved).2 ha) ((List.forall₂_iff_zip.1 hmoved).2 hb)

/-- Lines that begin with a tab and a space, and one that begins with two tabs: only a tab is shared. A line of
white space counts for nothing, and loses the tab if it has one. -/
theorem dedent_moves_mixed :
    dedent ["\t x", "\t\ty", "", "\t", "  "] = [" x", "\ty", "", "", "  "] ∧
      LongestLead "\t" ["\t x", "\t\ty", "", "\t", "  "] := by
  have hvisible : ∃ l ∈ (["\t x", "\t\ty", "", "\t", "  "] : List Bytes), ¬ White l :=
    ⟨"\t x", List.mem_cons_self, fun h => Bool.false_ne_true (isWhite_iff.2 h)⟩
  have hshared : sharedLead ["\t x", "\t\ty", "", "\t", "  "] = "\t" := by decide +kernel
  have hlongest := (dedent_moves _).2.1 hvisible
  rw [hshared] at hlongest
  exact ⟨by decide, hlongest⟩

end

end Bindery.Listing
