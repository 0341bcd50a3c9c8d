import Mathlib.Data.List.Infix
import Bindery.Proofs.Expansion.Spot

/-!
# Numbers in reading order

Labelled directives are numbered when they are done, and the arguments of a directive are expanded before
it is done. So the numbers of one kind ascend through the book, except that an output inside of another
has the smaller number (`expand_numbers`). When links take the place of marks, outputs move, but they
keep their order (`landing_mono`).
-/

namespace Bindery.Expansion

open Text

/-! ## Places of a text whose marks are replaced -/

def Segment.width (segment : Segment) : Nat := (segment.fill markOf).length

/-- How many segments start before a place. -/
def started : List Segment → Nat → Nat
  | [], _ => 0
  | _ :: _, 0 => 0
  | segment :: rest, n + 1 => started rest (n + 1 - segment.width) + 1

theorem started_mono (cut : List Segment) {i j : Nat} (h : i ≤ j) : started cut i ≤ started cut j := by
  induction cut generalizing i j with
  | nil => exact Nat.le_refl 0
  | cons segment rest ih =>
    cases i with
    | zero => exact Nat.zero_le _
    | succ i =>
      cases j with
      | zero => exact absurd h (Nat.not_succ_le_zero i)
      | succ j => exact Nat.succ_le_succ (ih (Nat.sub_le_sub_right h _))

section Landing

variable (link : Bytes → Bytes) (raw : Bytes)

/-- What has become of the segments that start before a place of a text. -/
def front (i : Nat) : Bytes :=
  ((segments raw).take (started (segments raw) i)).flatMap (Segment.fill link)

/-- What has become of the segments that start between two places. -/
def between (i j : Nat) : Bytes :=
  (((segments raw).take (started (segments raw) j)).drop (started (segments raw) i)).flatMap
    (Segment.fill link)

/-- Where a place of a text lands when marks are replaced. -/
def landing (i : Nat) : Nat := (front link raw i).length

theorem front_append {i j : Nat} (h : i ≤ j) :
    front link raw i ++ between link raw i j = front link raw j := by
  have htake : (segments raw).take (started (segments raw) i) =
      ((segments raw).take (started (segments raw) j)).take (started (segments raw) i) := by
    rw [List.take_take, Nat.min_eq_left (started_mono _ h)]
  rw [front, between, ← List.flatMap_append, htake, List.take_append_drop, front]

theorem isPrefix_front (i : Nat) : front link raw i <+: replaceMarks link raw :=
  List.IsPrefix.flatMap (List.take_prefix _ _) _

theorem landing_mono {i j : Nat} (h : i ≤ j) : landing link raw i ≤ landing link raw j := by
  rw [landing, landing, ← front_append link raw h, List.length_append]
  exact Nat.le_add_right _ _

/-- What stands between two places stands, with links, between the places where they land. -/
theorem drop_take_landing {i j : Nat} (h : i ≤ j) :
    ((replaceMarks link raw).take (landing link raw j)).drop (landing link raw i) =
      between link raw i j := by
  have hfront := List.prefix_iff_eq_take.1 (isPrefix_front link raw j)
  unfold landing
  rw [← hfront, ← front_append link raw h, List.drop_left]

end Landing

/-! ## Passes -/

/-- The spots of a text with marks, in what the marks have been replaced by links in. The labels of the
directives come before those that are read from the text. Each of them has a spot, where its output
stands, or is lost, and of two spots of one kind the first has the smaller number, unless the second is
inside of it. -/
structure Numbered (trace : List Exchange) (raw : Bytes) (link : Bytes → Bytes)
    (labels : Label.Registry) (spots : List Spot) : Prop where
  laid : Laid trace raw spots
  pieces : ∀ a ∈ spots, (a.move (landing link raw)).piece (replaceMarks link raw) =
    between link raw a.start a.stop
  entries : ∃ made scanned, labels.entries = made ++ scanned ∧
    List.Forall₂ (fun e p => Performance.Labels p e) made (labelled trace) ∧
    (∀ e ∈ scanned, e.kind ∈ Label.nativeKinds) ∧
    (spots.map Spot.entry).Sublist made ∧ ∀ e ∈ made, e ∈ spots.map Spot.entry ∨ Lost trace e
  ascending : ∀ a ∈ spots, ∀ b ∈ spots, a.entry.kind = b.entry.kind →
    landing link raw a.start < landing link raw b.start →
      landing link raw a.stop ≤ landing link raw b.start ∧ a.entry.number < b.entry.number ∨
      landing link raw b.stop ≤ landing link raw a.stop ∧ b.entry.number < a.entry.number

/-- Spots come in the order of their numbers, each before the next ones or inside of them. -/
theorem ascending_of_pairwise {spots : List Spot} {f : Nat → Nat} (hf : ∀ {i j}, i ≤ j → f i ≤ f j)
    (hbounds : ∀ a ∈ spots, a.start ≤ a.stop) (horder : spots.Pairwise Spot.Precedes)
    (hnumbers : spots.Pairwise fun a b =>
      a.entry.kind = b.entry.kind → a.entry.number < b.entry.number) :
    ∀ a ∈ spots, ∀ b ∈ spots, a.entry.kind = b.entry.kind → f a.start < f b.start →
      f a.stop ≤ f b.start ∧ a.entry.number < b.entry.number ∨
      f b.stop ≤ f a.stop ∧ b.entry.number < a.entry.number := by
  intro a ha b hb hkind hlt
  have hstarts : a.start < b.start := by
    by_contra hle
    exact absurd (hf (Nat.not_lt.1 hle)) (Nat.not_le.2 hlt)
  obtain ⟨i, hi, rfl⟩ := List.mem_iff_getElem.1 ha
  obtain ⟨j, hj, rfl⟩ := List.mem_iff_getElem.1 hb
  rw [List.pairwise_iff_getElem] at horder hnumbers
  rcases Nat.lt_trichotomy i j with hij | rfl | hji
  · rcases horder i j hi hj hij with hbefore | ⟨hstart, -⟩
    · exact .inl ⟨hf hbefore, hnumbers i j hi hj hij hkind⟩
    · exact absurd hstart (Nat.not_le.2 hstarts)
  · exact absurd hstarts (Nat.lt_irrefl _)
  · rcases horder j i hj hi hji with hbefore | ⟨-, hstop⟩
    · exact absurd (Nat.le_trans (hbounds _ hb) hbefore) (Nat.not_le.2 hstarts)
    · exact .inr ⟨hf hstop, hnumbers j i hj hi hji hkind.symm⟩

/-- **Numbers in reading order.** Whatever a book holds and the services answer: if the pass succeeds, then
each directive that took a label has its entry, in the order in which the directives were done. Its output
stands at a spot of the text, but for white space at its ends, unless it is in an argument that some
directive does not print.

If one output starts before another of its kind, then it ends before the other starts, and has the smaller
number, or the other is inside of it, and has the smaller number. -/
theorem expand_numbers (s : Setting) (root : Bytes) (trace : List Exchange) (expanded : Expanded)
    (h : (expand s root).Runs trace (.ok expanded)) :
    ∃ raw draft link spots, Drafts s root trace raw draft ∧ expanded.text = replaceMarks link raw ∧
      Numbered trace raw link expanded.labels spots := by
  obtain ⟨raw, draft, hdrafts, ⟨link, htext, -⟩, hlabels⟩ := exists_drafts h
  obtain ⟨henrolled, es, ⟨spots, hlaid, rfl⟩, added, hadded, hsub, hlost⟩ := hdrafts.enrolled
  obtain ⟨made, hmade, hlabelled⟩ := henrolled.entries
  obtain rfl : made = added := List.append_cancel_left (hmade.symm.trans hadded)
  obtain ⟨scanned, hnative, hkinds⟩ := draft.registry.entries_scanNative expanded.text
  have hnumbers : spots.Pairwise fun a b =>
      a.entry.kind = b.entry.kind → a.entry.number < b.entry.number := by
    have hentries := hdrafts.complete.sound.pairwise_numbers
    rw [hmade] at hentries
    exact List.pairwise_map.1 (hentries.sublist hsub)
  refine ⟨raw, draft, link, spots, hdrafts, htext, hlaid, ?_, ?_, ?_⟩
  · intro a ha
    exact drop_take_landing link raw (hlaid.bounds a ha).1
  · refine ⟨made, scanned, ?_, hlabelled, hkinds, hsub, hlost⟩
    rw [hlabels, hnative, hmade]
    rfl
  · exact ascending_of_pairwise (landing_mono link raw) (fun a ha => (hlaid.bounds a ha).1)
      hlaid.order hnumbers

/-- A book with a definition in the body of another. -/
def nestedSetting : Setting where
  tree :=
    { entries :=
        [([bytes "b"], .directory),
          ([bytes "b", bytes "book.md"],
            .file (bytes "\\definition\x7btheorem\x7d\x7bouter\x7d\x7bOf which " ++
              bytes "\\definition\x7btheorem\x7d\x7binner\x7d\x7bInner.\x7d holds.\x7d\n"))] }
  resolver := { root := bytes "/b" }

/-- The text of the book: the definition in the body has the smaller number. -/
def nestedText : Bytes :=
  bytes "[**Theorem 2**]\x7b#def:outer\x7d: Of which \n\n[**Theorem 1**]\x7b#def:inner\x7d: Inner." ++
    bytes "\n\n holds.\n"

def nested : List Exchange :=
  conversation (fun _ _ => .error .other) {} (nestedSetting, bytes "/b/book.md")

theorem alone_nested :
    ∃ expanded, alone (fun _ _ => .error .other) {} (nestedSetting, bytes "/b/book.md") = .ok expanded ∧
      expanded.text = nestedText ∧
      expanded.labels.entries =
        [⟨bytes "theorem", bytes "inner", 1, []⟩, ⟨bytes "theorem", bytes "outer", 2, []⟩] := by
  have htext : text? (alone (fun _ _ => .error .other) {} (nestedSetting, bytes "/b/book.md")) =
      some nestedText := by decide +kernel
  have hentries : (alone (fun _ _ => .error .other) {}
      (nestedSetting, bytes "/b/book.md")).toOption.map (·.labels.entries) =
        some [⟨bytes "theorem", bytes "inner", 1, []⟩, ⟨bytes "theorem", bytes "outer", 2, []⟩] := by
    decide +kernel
  obtain ⟨expanded, halone, heq⟩ := text?_eq_some.1 htext
  rw [halone] at hentries
  exact ⟨expanded, halone, heq, Option.some.inj hentries⟩

/-- The definitions of the book have spots in its text, or are lost. -/
theorem expand_numbers_nested :
    ∃ expanded,
      (expand nestedSetting (bytes "/b/book.md")).Runs nested (.ok expanded) ∧
      expanded.text = nestedText ∧
      ∃ raw draft link spots, Drafts nestedSetting (bytes "/b/book.md") nested raw draft ∧
        expanded.text = replaceMarks link raw ∧ Numbered nested raw link expanded.labels spots := by
  obtain ⟨expanded, halone, htext, -⟩ := alone_nested
  have hruns : (expand nestedSetting (bytes "/b/book.md")).Runs nested (.ok expanded) :=
    halone ▸ runs_conversation _ _ _ _
  exact ⟨expanded, hruns, htext, expand_numbers nestedSetting _ _ expanded hruns⟩

/-- Of two labelled outputs of one kind that stand in the text of a book, the one that starts first has
the smaller number. -/
def NumbersAscend (trace : List Exchange) (expanded : Expanded) : Prop :=
  ∀ p ∈ labelled trace, ∀ q ∈ labelled trace,
    ∀ e ∈ expanded.labels.entries, ∀ e' ∈ expanded.labels.entries,
      p.Labels e → q.Labels e' → e.kind = e'.kind →
      ∀ before rest before' rest', expanded.text = before ++ (p.output ++ rest) →
        expanded.text = before' ++ (q.output ++ rest') → before.length < before'.length →
        e.number < e'.number

/-- A definition starts before the one in its body, and has the larger number. -/
theorem not_numbersAscend_nested :
    ∃ expanded, alone (fun _ _ => .error .other) {} (nestedSetting, bytes "/b/book.md") = .ok expanded ∧
      ¬ NumbersAscend nested expanded := by
  have hlabelled : (labelled nested).map (fun p => (p.label?, p.output)) =
      [(some (bytes "theorem", bytes "inner"), bytes "[**Theorem 1**]\x7b#def:inner\x7d: Inner."),
        (some (bytes "theorem", bytes "outer"), nestedText.dropLast)] := by decide +kernel
  obtain ⟨expanded, halone, htext, hentries⟩ := alone_nested
  obtain ⟨inner, others, hlist, hinner, hothers⟩ := List.map_eq_cons_iff.1 hlabelled
  obtain ⟨outer, more, rfl, houter, -⟩ := List.map_eq_cons_iff.1 hothers
  obtain ⟨hinner, hinnerOutput⟩ := Prod.mk.inj hinner
  obtain ⟨houter, houterOutput⟩ := Prod.mk.inj houter
  refine ⟨expanded, halone, fun hascend => ?_⟩
  have hless := hascend outer (by simp [hlist]) inner (by simp [hlist])
    ⟨bytes "theorem", bytes "outer", 2, []⟩ (by simp [hentries])
    ⟨bytes "theorem", bytes "inner", 1, []⟩ (by simp [hentries])
    houter hinner rfl [] (bytes "\n") (nestedText.take 40) (nestedText.drop 75) ?_ ?_ ?_
  · exact absurd hless (by decide)
  · rw [htext, houterOutput]
    decide +kernel
  · rw [htext, hinnerOutput]
    decide +kernel
  · decide +kernel

end Bindery.Expansion
