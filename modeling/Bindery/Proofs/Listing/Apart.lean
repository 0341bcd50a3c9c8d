import Bindery.Proofs.Listing.Label

/-!
# Requesting more labels

Markers are looked for at the end of a line and only for the labels that are requested. A label
therefore selects the same lines whatever else is requested as long as no line ends in markers of both:
where one does, a scan for some of the labels stops at the first marker of another, and the markers in
front of it are left in the line as comments.

For comment signs without letters, the label of the last marker is the last word of the line, so that
markers of different labels are never taken for one another.
-/

namespace Bindery.Listing

open Text
open Expansion (afterStart?_eq_some)

/-! ## The name at the end of a line -/

def isNameStart (c : UInt8) : Bool := isLetter c || c == '_'

/-- The name that ends a text: what follows the last white space, from the first letter or underscore
on. -/
def nameAtEnd (s : Bytes) : Bytes :=
  (((trimEnd isMarkerSpace s).reverse.takeWhile (!isMarkerSpace ·)).reverse).dropWhile (!isNameStart ·)

/-- A text in which no name begins. -/
def Signs (s : Bytes) : Prop := ∀ c ∈ s, isNameStart c = false

instance (s : Bytes) : Decidable (Signs s) := List.decidableBAll _ s

/-- A text that ends in white space, signs apart. -/
def EndsApart (s : Bytes) : Prop :=
  ∃ before c signs, s = before ++ c :: signs ∧ isMarkerSpace c = true ∧ Signs signs

theorem EndsApart.append_left {s : Bytes} (h : EndsApart s) (before : Bytes) :
    EndsApart (before ++ s) := by
  obtain ⟨front, c, signs, rfl, hc, hsigns⟩ := h
  exact ⟨before ++ front, c, signs, by simp, hc, hsigns⟩

/-- What may stand in front of a name at the end of a line. -/
def Leads (s : Bytes) : Prop := Signs s ∨ EndsApart s

/-- What may stand in front of a name in a text that begins a line, or in the midst of one. -/
def LeadsFrom : Bool → Bytes → Prop
  | true => Leads
  | false => EndsApart

theorem EndsApart.leadsFrom {s : Bytes} (h : EndsApart s) {atStart : Bool} : LeadsFrom atStart s := by
  cases atStart with
  | true => exact .inr h
  | false => exact h

theorem isNameStart_of_space {c : UInt8} (h : isMarkerSpace c = true) : isNameStart c = false := by
  simp only [isMarkerSpace, isGap, isBlank, Bool.or_eq_true, beq_iff_eq] at h
  rcases h with (((rfl | rfl) | rfl) | rfl) | rfl <;> decide

theorem signs_of_spaces {s : Bytes} (h : ∀ c ∈ s, isMarkerSpace c = true) : Signs s :=
  fun c hc => isNameStart_of_space (h c hc)

theorem Signs.append {s t : Bytes} (hs : Signs s) (ht : Signs t) : Signs (s ++ t) :=
  List.forall_mem_append.2 ⟨hs, ht⟩

theorem Leads.cons_space {c : UInt8} {s : Bytes} (hc : isMarkerSpace c = true) (h : Leads s) :
    EndsApart (c :: s) :=
  h.elim (fun hs => ⟨[], c, s, rfl, hc, hs⟩) fun hs => hs.append_left [c]

theorem Leads.signs_append {signs s : Bytes} (hsigns : Signs signs) (h : Leads s) :
    Leads (signs ++ s) :=
  h.imp hsigns.append fun hs => hs.append_left signs

/-- Behind the last white space of what leads to a name there are only signs. -/
theorem Leads.signs_takeWhile {s : Bytes} (h : Leads s) :
    Signs (s.reverse.takeWhile (!isMarkerSpace ·)) := by
  intro x hx
  rcases h with hs | ⟨before, c, signs, rfl, hc, hsigns⟩
  · exact hs x (List.mem_reverse.1 ((List.takeWhile_prefix _).subset hx))
  · rw [List.reverse_append, List.reverse_cons, List.append_assoc, List.takeWhile_append,
      List.singleton_append, List.takeWhile_cons_of_neg (by simp [hc]), List.append_nil] at hx
    refine hsigns x (List.mem_reverse.1 ?_)
    split at hx
    · exact hx
    · exact (List.takeWhile_prefix _).subset hx

theorem trimEnd_append {p : UInt8 → Bool} {s t : Bytes} (h : trimEnd p t ≠ []) :
    trimEnd p (s ++ t) = s ++ trimEnd p t := by
  rw [trimEnd, Ne, List.reverse_eq_nil_iff] at h
  rw [trimEnd, trimEnd, List.reverse_append, List.dropWhile_append,
    if_neg (by simpa using h), List.reverse_append, List.reverse_reverse]

theorem isMarkerSpace_of_isLabelByte {c : UInt8} (h : isLabelByte c = true) :
    isMarkerSpace c = false := by
  cases hc : isMarkerSpace c with
  | false => rfl
  | true =>
    simp only [isMarkerSpace, isGap, isBlank, Bool.or_eq_true, beq_iff_eq] at hc
    rcases hc with (((rfl | rfl) | rfl) | rfl) | rfl <;> revert h <;> decide

theorem isLabelByte_of_isLabelName {label : Bytes} (h : isLabelName label = true) :
    ∀ c ∈ label, isLabelByte c = true := by
  cases label with
  | nil => cases h
  | cons first rest =>
    simp only [isLabelName, Bool.and_eq_true, Bool.or_eq_true, List.all_eq_true] at h
    refine List.forall_mem_cons.2 ⟨?_, h.2⟩
    rcases h.1 with hfirst | hfirst <;> simp [isLabelByte, isWord, hfirst]

/-- Behind what leads to it, the name at the end of a text is the one that is written there. -/
theorem nameAtEnd_append {s t : Bytes} (hs : Leads s)
    (ht : isLabelName (trimEnd isMarkerSpace t) = true) :
    nameAtEnd (s ++ t) = trimEnd isMarkerSpace t := by
  have hne : trimEnd isMarkerSpace t ≠ [] := by
    intro hnil
    rw [hnil] at ht
    cases ht
  rw [nameAtEnd, trimEnd_append hne]
  generalize trimEnd isMarkerSpace t = label at ht hne
  have hword : ∀ c ∈ label.reverse, (!isMarkerSpace c) = true := by
    intro c hc
    rw [isMarkerSpace_of_isLabelByte (isLabelByte_of_isLabelName ht c (List.mem_reverse.1 hc))]
    rfl
  rw [List.reverse_append, List.takeWhile_append_of_pos hword, List.reverse_append,
    List.reverse_reverse, List.dropWhile_append_of_pos]
  · obtain ⟨first, rest, rfl⟩ := List.exists_cons_of_ne_nil hne
    simp only [isLabelName, Bool.and_eq_true] at ht
    rw [List.dropWhile_cons_of_neg (by simp [isNameStart, ht.1])]
  · intro c hc
    rw [hs.signs_takeWhile c (List.mem_reverse.1 hc)]
    rfl

/-! ## The label of a marker -/

/-- A text, up to the white space at its end, that ends in the label of a marker behind what leads to
it. -/
def EndsIn (leads : Bytes → Prop) (s : Bytes) (m : Marker) : Prop :=
  ∃ before t, s = before ++ t ∧ leads before ∧ trimEnd isMarkerSpace t = m.label

theorem EndsIn.imp {leads leads' : Bytes → Prop} {s : Bytes} {m : Marker} (front : Bytes)
    (h : EndsIn leads s m) (himp : ∀ before, leads before → leads' (front ++ before)) :
    EndsIn leads' (front ++ s) m := by
  obtain ⟨before, t, rfl, hleads, ht⟩ := h
  exact ⟨front ++ before, t, (List.append_assoc ..).symm, himp before hleads, ht⟩

theorem endsIn_of_keywordBody {keyword s : Bytes} {kind : MarkerKind} {m : Marker}
    (h : keywordBody? keyword kind s = some m) : EndsIn EndsApart s m := by
  simp only [keywordBody?, Option.bind_eq_bind, Option.bind_eq_some_iff, afterStart?_eq_some] at h
  obtain ⟨rest, rfl, c, hhead, _, hguard, hm⟩ := h
  obtain rfl := Option.some.inj hm
  have hc : isMarkerSpace c = true := by
    by_contra hno
    simp [hno] at hguard
  obtain ⟨rest, rfl⟩ : ∃ r, rest = c :: r := by
    cases rest with
    | nil => cases hhead
    | cons d r => exact ⟨r, congrArg (· :: r) (Option.some.inj hhead)⟩
  have hspaces : Signs (rest.takeWhile isMarkerSpace) :=
    signs_of_spaces fun d hd => List.mem_takeWhile_imp hd
  refine ⟨keyword ++ c :: rest.takeWhile isMarkerSpace, rest.dropWhile isMarkerSpace, ?_,
    (Leads.cons_space hc (.inl hspaces)).append_left keyword, ?_⟩
  · simp
  · rw [List.dropWhile_cons_of_pos hc]

theorem endsIn_of_signBody {sign : UInt8} {s : Bytes} {kind : MarkerKind} {m : Marker}
    (hsign : isNameStart sign = false) (h : signBody? sign kind s = some m) : EndsIn Leads s m := by
  cases s with
  | nil => cases h
  | cons c rest =>
    rw [signBody?] at h
    split at h
    · next hc =>
      subst hc
      obtain rfl := Option.some.inj h
      exact ⟨[c], rest, rfl, .inl (by simpa [Signs] using hsign), rfl⟩
    · cases h

theorem endsIn_of_body {s : Bytes} {m : Marker} (h : body? s = some m) : EndsIn Leads s m := by
  have hspaces : Signs (s.takeWhile isMarkerSpace) :=
    signs_of_spaces fun c hc => List.mem_takeWhile_imp hc
  have hrest : EndsIn Leads (s.dropWhile isMarkerSpace) m := by
    simp only [body?, Option.orElse_eq_orElse, Option.orElse_eq_or, Option.or_eq_some_iff] at h
    have hkeyword : ∀ {keyword : Bytes} {kind : MarkerKind},
        keywordBody? keyword kind (s.dropWhile isMarkerSpace) = some m →
        EndsIn Leads (s.dropWhile isMarkerSpace) m :=
      fun h => (endsIn_of_keywordBody h).imp [] fun _ => .inr
    rcases h with h | ⟨-, h | ⟨-, h | ⟨-, h⟩⟩⟩
    · exact hkeyword h
    · exact hkeyword h
    · exact endsIn_of_signBody (by decide) h
    · exact endsIn_of_signBody (by decide) h
  rw [← List.takeWhile_append_dropWhile (p := isMarkerSpace) (l := s)]
  exact hrest.imp _ fun _ => Leads.signs_append hspaces

section

variable {comments labels : List Bytes} (hcomments : ∀ sign ∈ comments, Signs sign)

include hcomments in
theorem endsIn_of_marker {s : Bytes} {m : Marker} (h : marker? comments labels s = some m) :
    EndsIn Leads s m := by
  obtain ⟨sign, hsign, h⟩ := List.exists_of_findSome?_eq_some h
  rw [markerAfter_eq, Option.filter_eq_some_iff, Option.bind_eq_some_iff] at h
  obtain ⟨⟨rest, hrest, hbody⟩, -⟩ := h
  rw [← afterStart?_eq_some.1 hrest]
  exact (endsIn_of_body hbody).imp sign fun _ => Leads.signs_append (hcomments sign hsign)

include hcomments in
theorem endsIn_of_markerHere {atStart : Bool} {s : Bytes} {m : Marker}
    (h : markerHere? comments labels atStart s = some m) : EndsIn (LeadsFrom atStart) s m := by
  cases s with
  | nil =>
    rw [markerHere?, Option.ite_none_right_eq_some] at h
    obtain ⟨rfl, h⟩ := h
    exact endsIn_of_marker hcomments h
  | cons c rest =>
    simp only [markerHere?, Option.orElse_eq_orElse, Option.orElse_eq_or, Option.or_eq_some_iff,
      Option.ite_none_right_eq_some] at h
    rcases h with ⟨rfl, h⟩ | ⟨-, hc, h⟩
    · exact endsIn_of_marker hcomments h
    · exact (endsIn_of_marker hcomments h).imp [c] fun _ hs => (hs.cons_space hc).leadsFrom

include hcomments in
theorem endsIn_of_splitMarker {s before : Bytes} {m : Marker}
    (h : splitMarker? comments labels true s = some (before, m)) : EndsIn Leads s m := by
  obtain ⟨rest, rfl, hhere⟩ := exists_of_splitMarker h
  have hends := endsIn_of_markerHere hcomments hhere
  cases before with
  | nil => exact hends
  | cons c before => exact hends.imp (c :: before) fun _ hs => .inr (EndsApart.append_left hs _)

include hcomments in
/-- **Whatever labels are requested, the marker that is found has the name at the end of the text.** -/
theorem label_eq_nameAtEnd (hlabels : ∀ label ∈ labels, isLabelName label = true) {s before : Bytes}
    {m : Marker} (h : splitMarker? comments labels true s = some (before, m)) :
    m.label = nameAtEnd s := by
  have hname : isLabelName m.label = true := hlabels _ (Marker.isOf_iff.1 (isOf_of_splitMarker h))
  obtain ⟨front, t, rfl, hleads, ht⟩ := endsIn_of_splitMarker hcomments h
  rw [← ht] at hname ⊢
  exact (nameAtEnd_append hleads hname).symm

end

theorem signs_of_mem_comments :
    (∀ entry ∈ Language.bySuffix, ∀ sign ∈ entry.2.comments, Signs sign) ∧
      ∀ sign ∈ allComments, Signs sign := by
  decide

theorem names_of_parseLabelsFrom {spec : Bytes} {parts seen labels : List Bytes}
    (hnames : ∀ label ∈ seen, isLabelName label = true) (hnodup : seen.Nodup)
    (h : parseLabelsFrom spec seen parts = .ok labels) :
    (∀ label ∈ labels, isLabelName label = true) ∧ labels.Nodup := by
  induction parts generalizing seen with
  | nil =>
    obtain rfl := Except.ok.inj h
    exact ⟨hnames, hnodup⟩
  | cons part rest ih =>
    simp only [parseLabelsFrom] at h
    split at h
    · cases h
    · split at h
      · cases h
      · next hname =>
        split at h
        · cases h
        · next hnew =>
          have hnew : ∀ label ∈ seen, label ≠ trim part := by
            rintro label hlabel rfl
            exact hnew (by simpa using hlabel)
          refine ih (List.forall_mem_append.2 ⟨hnames, by simpa using hname⟩) ?_ h
          exact List.nodup_append.2 ⟨hnodup, by simp, by simpa using hnew⟩

theorem names_of_parseLabels {spec : Bytes} {labels : List Bytes} (h : parseLabels spec = .ok labels) :
    (∀ label ∈ labels, isLabelName label = true) ∧ labels.Nodup := by
  simp only [parseLabels] at h
  split at h
  · exact Except.ok.inj h ▸ ⟨by simp, List.nodup_nil⟩
  · exact names_of_parseLabelsFrom (by simp) List.nodup_nil h

/-! ## Lines whose markers are all of one list -/

section

variable {comments few others : List Bytes}

/-- The markers that a line ends in are those of some labels: these alone take the same markers off as all
labels do, and the other ones alone take off none. -/
def OnlyOf (comments labels few others : List Bytes) (line : Bytes) : Prop :=
  stripMarkers comments labels (trimEnd isBlank line) = stripMarkers comments few (trimEnd isBlank line) ∧
    (stripMarkers comments others (trimEnd isBlank line)).2 = []

/-- The markers that a line ends in are all of one of two lists of labels. -/
def Apart (comments few others : List Bytes) (line : Bytes) : Prop :=
  OnlyOf comments (few ++ others) few others line ∨ OnlyOf comments (few ++ others) others few line

instance (comments labels few others : List Bytes) (line : Bytes) :
    Decidable (OnlyOf comments labels few others line) :=
  inferInstanceAs (Decidable (_ ∧ _))

instance (comments few others : List Bytes) (line : Bytes) :
    Decidable (Apart comments few others line) :=
  inferInstanceAs (Decidable (_ ∨ _))

theorem mem_stripMarkers {labels : List Bytes} {s before : Bytes} {m : Marker}
    (hcomments : comments ≠ []) (hs : s ≠ [])
    (h : splitMarker? comments labels true s = some (before, m)) :
    m ∈ (stripMarkers comments labels s).2 := by
  obtain ⟨c, rest, rfl⟩ := List.exists_cons_of_ne_nil hs
  rw [stripMarkers_eq_within hcomments, List.length_cons, stripMarkersWithin, h]
  exact mem_stripMarkersWithin List.mem_cons_self

theorem exists_splitMarker {labels : List Bytes} {s : Bytes}
    (h : (stripMarkers comments labels s).2 ≠ []) :
    comments ≠ [] ∧ s ≠ [] ∧ ∃ before m, splitMarker? comments labels true s = some (before, m) := by
  have hcomments : comments ≠ [] := by
    rintro rfl
    exact h rfl
  refine ⟨hcomments, ?_⟩
  rw [stripMarkers_eq_within hcomments] at h
  cases s with
  | nil => exact absurd rfl h
  | cons c rest =>
    refine ⟨List.cons_ne_nil _ _, ?_⟩
    cases hsplit : splitMarker? comments labels true (c :: rest) with
    | some found => exact ⟨found.1, found.2, rfl⟩
    | none =>
      rw [List.length_cons, stripMarkersWithin, hsplit] at h
      exact absurd rfl h

section

variable (hcomments : ∀ sign ∈ comments, Signs sign)
  (hfew : ∀ label ∈ few, isLabelName label = true)
  (hothers : ∀ label ∈ others, isLabelName label = true) (hdisjoint : few.Disjoint others)

include hcomments hfew hothers hdisjoint in
/-- Where all markers are of some labels, other labels find none. -/
theorem stripMarkers_eq_nil {labels : List Bytes} (hsub : few ⊆ labels) (hsub' : others ⊆ labels)
    {s : Bytes} (h : ∀ m ∈ (stripMarkers comments labels s).2, m.isOf few = true) :
    (stripMarkers comments others s).2 = [] := by
  by_contra hfound
  obtain ⟨hne, hs, before, m, hsplit⟩ := exists_splitMarker hfound
  cases hall : splitMarker? comments labels true s with
  | none =>
    rw [splitMarker?_eq_none hsub' hall] at hsplit
    cases hsplit
  | some first =>
    obtain ⟨before', m'⟩ := first
    -- The first marker of all is found for the labels whose markers they are.
    have hm' : m'.isOf few = true := h m' (mem_stripMarkers hne hs hall)
    have hlabel : m'.label = m.label :=
      (label_eq_nameAtEnd hcomments hfew (splitMarker?_eq_some hsub hall hm')).trans
        (label_eq_nameAtEnd hcomments hothers hsplit).symm
    exact hdisjoint (Marker.isOf_iff.1 hm')
      (hlabel ▸ Marker.isOf_iff.1 (isOf_of_splitMarker hsplit))

include hcomments hfew hothers hdisjoint in
/-- With comment signs that hold no letters and labels that are names, it is enough to look at the
markers that are found for both lists together. -/
theorem apart_iff (line : Bytes) :
    Apart comments few others line ↔
      (∀ m ∈ (stripMarkers comments (few ++ others) (trimEnd isBlank line)).2, m.label ∈ few) ∨
      (∀ m ∈ (stripMarkers comments (few ++ others) (trimEnd isBlank line)).2, m.label ∈ others) := by
  have hsub : few ⊆ few ++ others := List.subset_append_left _ _
  have hsub' : others ⊆ few ++ others := List.subset_append_right _ _
  constructor
  · rintro (⟨heq, -⟩ | ⟨heq, -⟩)
    · exact .inl fun m hm => Marker.isOf_iff.1 (isOf_of_mem_stripMarkers m (heq ▸ hm))
    · exact .inr fun m hm => Marker.isOf_iff.1 (isOf_of_mem_stripMarkers m (heq ▸ hm))
  · rintro (h | h)
    · have h := fun m hm => Marker.isOf_iff.2 (h m hm)
      exact .inl ⟨(stripMarkers_eq_of_isOf hsub h).symm,
        stripMarkers_eq_nil hcomments hfew hothers hdisjoint hsub hsub' h⟩
    · have h := fun m hm => Marker.isOf_iff.2 (h m hm)
      exact .inr ⟨(stripMarkers_eq_of_isOf hsub' h).symm,
        stripMarkers_eq_nil hcomments hothers hfew (fun _ ho hf => hdisjoint hf ho) hsub' hsub h⟩

end

end

/-! ## Selecting for two lists -/

def selectedNumbers (kept : List SourceLine) : List Nat := (kept.filter (·.selected)).map (·.number)

section

variable {comments labels few others : List Bytes}

theorem mem_markedLines {number : Nat} {ls : List Bytes} {l : MarkedLine} :
    l ∈ markedLines comments labels number ls ↔
      ∃ i line, ls[i]? = some line ∧ l = markedLine comments labels (number + i) line := by
  induction ls generalizing number with
  | nil => simp [markedLines]
  | cons first rest ih =>
    rw [markedLines, List.mem_cons, ih]
    constructor
    · rintro (rfl | ⟨i, line, hline, rfl⟩)
      · exact ⟨0, first, rfl, rfl⟩
      · exact ⟨i + 1, line, hline, by rw [Nat.add_right_comm, Nat.add_assoc]⟩
    · rintro ⟨i, line, hline, rfl⟩
      cases i with
      | zero =>
        obtain rfl := Option.some.inj hline
        exact .inl rfl
      | succ i => exact .inr ⟨i, line, hline, by rw [Nat.add_right_comm, Nat.add_assoc]⟩

/-- The lines that are kept have the numbers of lines that did not hold only markers. -/
theorem exists_mem_keptLines {numbers : Bytes → List Nat} {ls : List Bytes} {n : Nat} :
    (∃ l ∈ keptLines labels numbers (markedLines comments labels 1 ls), l.number = n) ↔
      ∃ i line, ls[i]? = some line ∧ n = 1 + i ∧ (markedLine comments labels n line).dropped = false := by
  constructor
  · rintro ⟨l, hl, rfl⟩
    obtain ⟨x, hx, rfl⟩ := List.mem_map.1 hl
    obtain ⟨hx, hkeep⟩ := List.mem_filter.1 hx
    obtain ⟨i, line, hline, rfl⟩ := mem_markedLines.1 hx
    have hkeep : (markedLine comments labels (1 + i) line).dropped = false := by simpa using hkeep
    exact ⟨i, line, hline, rfl, hkeep⟩
  · rintro ⟨i, line, hline, rfl, hkeep⟩
    have hmem : markedLine comments labels (1 + i) line ∈ markedLines comments labels 1 ls :=
      mem_markedLines.2 ⟨i, line, hline, rfl⟩
    exact ⟨_, List.mem_map_of_mem (List.mem_filter.2 ⟨hmem, by simpa using hkeep⟩), rfl⟩

/-- The selected lines are those kept that a label includes. -/
theorem mem_selectedNumbers {numbers : Bytes → List Nat} {ls : List Bytes} {n : Nat}
    (hlabels : labels ≠ []) :
    n ∈ selectedNumbers (keptLines labels numbers (markedLines comments labels 1 ls)) ↔
      (∃ l ∈ keptLines labels numbers (markedLines comments labels 1 ls), l.number = n) ∧
        ∃ label ∈ labels, n ∈ numbers label := by
  have hselected : ∀ l ∈ keptLines labels numbers (markedLines comments labels 1 ls),
      l.selected = true ↔ ∃ label ∈ labels, l.number ∈ numbers label := by
    intro l hl
    obtain ⟨x, -, rfl⟩ := List.mem_map.1 hl
    simp [hlabels]
  rw [selectedNumbers, List.mem_map]
  constructor
  · rintro ⟨l, hl, rfl⟩
    obtain ⟨hl, hsel⟩ := List.mem_filter.1 hl
    exact ⟨⟨l, hl, rfl⟩, (hselected l hl).1 hsel⟩
  · rintro ⟨⟨l, hl, rfl⟩, hlabel⟩
    exact ⟨l, List.mem_filter.2 ⟨hl, (hselected l hl).2 hlabel⟩, rfl⟩

/-- A label is followed in the same way through lines that have the same markers of that label. -/
theorem follow_markedLines {label : Bytes} {active : Bool} {number : Nat} {ls : List Bytes}
    (h : ∀ line ∈ ls, kindsOf label (stripMarkers comments labels (trimEnd isBlank line)).2 =
      kindsOf label (stripMarkers comments few (trimEnd isBlank line)).2) :
    follow label active (markedLines comments labels number ls) =
      follow label active (markedLines comments few number ls) := by
  induction ls generalizing number active with
  | nil => rfl
  | cons line rest ih =>
    obtain ⟨hline, hrest⟩ := List.forall_mem_cons.1 h
    have hkinds : kindsOf label (markedLine comments labels number line).markers =
        kindsOf label (markedLine comments few number line).markers := hline
    rw [markedLines, markedLines, follow_cons, follow_cons, hkinds]
    simp only [ih hrest]
    rfl

/-- On a line whose markers are all of one list, a label of either list has the same markers. -/
theorem kindsOf_eq {label line : Bytes} (hdisjoint : few.Disjoint others) (hlabel : label ∈ few)
    (h : OnlyOf comments labels few others line ∨ OnlyOf comments labels others few line) :
    kindsOf label (stripMarkers comments labels (trimEnd isBlank line)).2 =
      kindsOf label (stripMarkers comments few (trimEnd isBlank line)).2 := by
  rcases h with ⟨heq, -⟩ | ⟨heq, hnone⟩
  · rw [heq]
  · rw [heq, hnone, kindsOf_eq_nil (hdisjoint hlabel)]
    rfl

theorem dropped_eq_false {number : Nat} {line : Bytes}
    (h : OnlyOf comments labels few others line ∨ OnlyOf comments labels others few line)
    (hkeep : (markedLine comments labels number line).dropped = false) :
    (markedLine comments few number line).dropped = false := by
  rcases h with ⟨heq, -⟩ | ⟨-, hnone⟩
  · rw [markedLine, ← heq]
    exact hkeep
  · simp only [markedLine, MarkedLine.dropped, hnone, List.isEmpty_nil, Bool.not_true, Bool.false_and]

/-- What the scan for more labels tells of the scan for some of them: the kept lines are kept, and the
labels include the same. -/
theorem mem_selectedNumbers_of_apart {text : Bytes} {kept kept' : List SourceLine} {n : Nat}
    (hfew : few ≠ []) (hdisjoint : few.Disjoint others)
    (hapart : ∀ line ∈ physicalLines text,
      OnlyOf comments labels few others line ∨ OnlyOf comments labels others few line)
    (hscan : scanLines text few comments = .ok kept)
    (hscan' : scanLines text labels comments = .ok kept') (hn : ∃ l ∈ kept', l.number = n) :
    n ∈ selectedNumbers kept ↔ ∃ label ∈ few,
      n ∈ included label false (markedLines comments labels 1 (physicalLines text)) := by
  obtain ⟨-, rfl⟩ := selects_of_scanLines hscan
  obtain ⟨-, rfl⟩ := selects_of_scanLines hscan'
  obtain ⟨i, line, hline, rfl, hkeep⟩ := exists_mem_keptLines.1 hn
  have hkeep' := dropped_eq_false (hapart line (List.mem_of_getElem? hline)) hkeep
  rw [mem_selectedNumbers hfew, exists_mem_keptLines, and_iff_right ⟨i, line, hline, rfl, hkeep'⟩]
  refine exists_congr fun label => and_congr_right fun hlabel => ?_
  rw [included, included, follow_markedLines fun line hline => kindsOf_eq hdisjoint hlabel (hapart line hline)]

theorem mem_selectedNumbers_append {text : Bytes} {kept keptFew keptOthers : List SourceLine}
    (hfew : few ≠ []) (hothers : others ≠ []) (hdisjoint : few.Disjoint others)
    (hapart : ∀ line ∈ physicalLines text, Apart comments few others line)
    (hscanFew : scanLines text few comments = .ok keptFew)
    (hscanOthers : scanLines text others comments = .ok keptOthers)
    (hscan : scanLines text (few ++ others) comments = .ok kept) (n : Nat) :
    n ∈ selectedNumbers kept ↔
      (n ∈ selectedNumbers keptFew ∨ n ∈ selectedNumbers keptOthers) ∧ ∃ l ∈ kept, l.number = n := by
  have hdisjoint' : others.Disjoint few := fun _ ho hf => hdisjoint hf ho
  have hmem : n ∈ selectedNumbers kept ↔ (∃ l ∈ kept, l.number = n) ∧ ∃ label ∈ few ++ others,
      n ∈ included label false (markedLines comments (few ++ others) 1 (physicalLines text)) := by
    rw [(selects_of_scanLines hscan).2]
    exact mem_selectedNumbers (by simp [hfew])
  rw [hmem, and_comm]
  refine and_congr_left fun hn => ?_
  rw [mem_selectedNumbers_of_apart hfew hdisjoint hapart hscanFew hscan hn,
    mem_selectedNumbers_of_apart hothers hdisjoint' (fun line hline => (hapart line hline).symm)
      hscanOthers hscan hn]
  simp only [List.mem_append, or_and_right, exists_or]

/-- **Requesting two lists of labels selects what each of them selects**, as long as no line ends in
markers of both lists, and apart from the lines that hold only markers: these are dropped when their
labels are requested. For comment signs without letters and labels that are names, the markers of a line
are apart exactly when those that are found for both lists are all of one. -/
theorem selects_append {text : Bytes} {kept keptFew keptOthers : List SourceLine}
    (hfew : few ≠ []) (hothers : others ≠ []) (hdisjoint : few.Disjoint others)
    (hapart : ∀ line ∈ physicalLines text, Apart comments few others line)
    (hscanFew : scanLines text few comments = .ok keptFew)
    (hscanOthers : scanLines text others comments = .ok keptOthers)
    (hscan : scanLines text (few ++ others) comments = .ok kept) :
    (∀ n, n ∈ selectedNumbers kept ↔
      (n ∈ selectedNumbers keptFew ∨ n ∈ selectedNumbers keptOthers) ∧ ∃ l ∈ kept, l.number = n) ∧
    ((∀ sign ∈ comments, Signs sign) → (∀ label ∈ few ++ others, isLabelName label = true) →
      ∀ line, Apart comments few others line ↔
        (∀ m ∈ (stripMarkers comments (few ++ others) (trimEnd isBlank line)).2, m.label ∈ few) ∨
        (∀ m ∈ (stripMarkers comments (few ++ others) (trimEnd isBlank line)).2, m.label ∈ others)) := by
  refine ⟨mem_selectedNumbers_append hfew hothers hdisjoint hapart hscanFew hscanOthers hscan, ?_⟩
  intro hcomments hlabels
  rw [List.forall_mem_append] at hlabels
  exact apart_iff hcomments hlabels.1 hlabels.2 hdisjoint

end

/-- A text with markers of several labels on a line. -/
def severalText : Bytes := "# start a\nx\n# end a # start b\ny # -b\nz\n# end b\nw # +c\n"

theorem selects_append_several :
    ∃ kept keptFew keptOthers : List SourceLine,
      scanLines severalText ["a", "b"] ["#"] = .ok keptFew ∧ selectedNumbers keptFew = [2, 5] ∧
      scanLines severalText ["c"] ["#"] = .ok keptOthers ∧ selectedNumbers keptOthers = [7] ∧
      scanLines severalText ["a", "b", "c"] ["#"] = .ok kept ∧ selectedNumbers kept = [2, 5, 7] ∧
      (∀ n, n ∈ selectedNumbers kept ↔
        (n ∈ selectedNumbers keptFew ∨ n ∈ selectedNumbers keptOthers) ∧ ∃ l ∈ kept, l.number = n) ∧
      ∀ line, Apart ["#"] ["a", "b"] ["c"] line ↔
        (∀ m ∈ (stripMarkers ["#"] ["a", "b", "c"] (trimEnd isBlank line)).2,
            m.label ∈ (["a", "b"] : List Bytes)) ∨
        (∀ m ∈ (stripMarkers ["#"] ["a", "b", "c"] (trimEnd isBlank line)).2,
            m.label ∈ (["c"] : List Bytes)) := by
  have hdisjoint : (["a", "b"] : List Bytes).Disjoint ["c"] := List.disjoint_iff_ne.2 (by decide)
  have hapart : ∀ line ∈ physicalLines severalText, Apart ["#"] ["a", "b"] ["c"] line := by decide
  refine ⟨_, _, _, rfl, by decide, rfl, by decide, rfl, by decide, ?_⟩
  have h := selects_append (by decide) (by decide) hdisjoint hapart rfl rfl rfl
  exact ⟨h.1, h.2 (by decide) (by decide)⟩

/-! ## Markers of both lists -/

/-- The numbers of the lines that labels select, unless the scan fails. -/
def selection (comments labels : List Bytes) (text : Bytes) : Option (List Nat) :=
  (scanLines text labels comments).toOption.map selectedNumbers

/-- Whether two lists of labels, where all scans succeed, together select just what each of them does. -/
def SelectsUnion (comments few others : List Bytes) (text : Bytes) : Prop :=
  ∀ byFew byOthers byBoth, selection comments few text = some byFew →
    selection comments others text = some byOthers →
    selection comments (few ++ others) text = some byBoth →
    ∀ n, n ∈ byBoth ↔ n ∈ byFew ∨ n ∈ byOthers

/-- The conditions are needed: a scan for one of two labels misses its markers in front of one of the
other, keeps the lines that hold only markers of the other, and without labels selects all lines. -/
theorem not_selectsUnion :
    ¬ SelectsUnion ["#"] ["a"] ["b"] "# start b\nx # +a # -b\ny\n# end b\nz # +a\n" ∧
    ¬ SelectsUnion ["#"] ["a"] ["b"] "# start a\none\n# start b\ntwo\n# end b\n# end a\n" ∧
    ¬ SelectsUnion ["#"] [] ["b"] "one\n# start b\ntwo\n# end b\n" := by
  refine ⟨fun h => ?_, fun h => ?_, fun h => ?_⟩
  · exact absurd (h [5] [3] [2, 3, 5] (by decide) (by decide) (by decide) 2) (by decide)
  · exact absurd (h [2, 3, 4, 5] [4] [2, 4] (by decide) (by decide) (by decide) 3) (by decide)
  · exact absurd (h [1, 2, 3, 4] [3] [3] (by decide) (by decide) (by decide) 1) (by decide)

end Bindery.Listing
