import Bindery.Listing.Marker
import Bindery.Proofs.Expansion.Mark

/-!
# Recognising markers

What follows a comment sign is read in one way, whatever labels are requested; the requested labels only
decide whether the marker that was read counts. So a marker of some labels is found by a search for more
labels wherever it is found first, and a search for fewer labels finds it as well.
-/

namespace Bindery.Listing

open Text
open Expansion (afterStart?_eq_some)

/-! ## The body of a marker -/

/-- Reads a keyword, white space and all that follows as a label. -/
def keywordBody? (keyword : Bytes) (kind : MarkerKind) (s : Bytes) : Option Marker := do
  let rest ← afterStart? keyword s
  let c ← rest.head?
  guard (isMarkerSpace c)
  some { kind, label := trimEnd isMarkerSpace (rest.dropWhile isMarkerSpace) }

/-- Reads a sign and all that follows as a label. -/
def signBody? (sign : UInt8) (kind : MarkerKind) : Bytes → Option Marker
  | [] => none
  | c :: rest => if c = sign then some { kind, label := trimEnd isMarkerSpace rest } else none

/-- Reads what follows a comment sign as a marker of any label. -/
def body? (s : Bytes) : Option Marker :=
  let s := s.dropWhile isMarkerSpace
  (keywordBody? "start" .start s)
    <|> (keywordBody? "end" .stop s)
    <|> (signBody? 43 .add s)
    <|> (signBody? 45 .remove s)

theorem labelToEnd?_eq (labels : List Bytes) (s : Bytes) :
    labelToEnd? labels s =
      (some (trimEnd isMarkerSpace s)).filter fun label => decide (label ∈ labels) := by
  rw [labelToEnd?, Option.filter_some]
  split
  · next h =>
    have hself : (trimEnd isMarkerSpace s == trimEnd isMarkerSpace s) = true := beq_self_eq_true _
    cases hfind : labels.find? (· == trimEnd isMarkerSpace s) with
    | none => exact absurd hself (List.find?_eq_none.1 hfind _ (of_decide_eq_true h))
    | some label =>
      have hlabel := List.find?_some hfind
      rw [eq_of_beq hlabel]
  · next h =>
    rw [List.find?_eq_none]
    rintro label hlabel heq
    exact h (decide_eq_true (eq_of_beq heq ▸ hlabel))

def Marker.isOf (labels : List Bytes) (m : Marker) : Bool := labels.contains m.label

theorem Marker.isOf_iff {labels : List Bytes} {m : Marker} : m.isOf labels = true ↔ m.label ∈ labels :=
  List.contains_iff_mem

theorem keywordMarker?_eq (labels : List Bytes) (keyword : Bytes) (kind : MarkerKind) (s : Bytes) :
    keywordMarker? labels keyword kind s = (keywordBody? keyword kind s).filter (·.isOf labels) := by
  rw [keywordMarker?, keywordBody?]
  cases afterStart? keyword s with
  | none => rfl
  | some rest =>
    cases hhead : rest.head? with
    | none => simp [hhead]
    | some c =>
      by_cases hc : isMarkerSpace c = true
      · simp [hhead, hc, labelToEnd?_eq, Option.filter, Marker.isOf]
        split <;> simp
      · simp [hhead, hc]

theorem signMarker?_eq (labels : List Bytes) (sign : UInt8) (kind : MarkerKind) (s : Bytes) :
    signMarker? labels sign kind s = (signBody? sign kind s).filter (·.isOf labels) := by
  cases s with
  | nil => rfl
  | cons c rest =>
    rw [signMarker?, signBody?]
    split
    · simp [labelToEnd?_eq, Option.filter, Marker.isOf]
    · rfl

theorem head_of_keywordBody {keyword s : Bytes} {kind : MarkerKind} {m : Marker} (hne : keyword ≠ [])
    (h : keywordBody? keyword kind s = some m) : s.head? = keyword.head? := by
  simp only [keywordBody?, Option.bind_eq_bind, Option.bind_eq_some_iff, afterStart?_eq_some] at h
  obtain ⟨rest, rfl, -⟩ := h
  exact List.head?_append_of_ne_nil _ hne

theorem head_of_signBody {sign : UInt8} {s : Bytes} {kind : MarkerKind} {m : Marker}
    (h : signBody? sign kind s = some m) : s.head? = some sign := by
  cases s with
  | nil => cases h
  | cons c rest =>
    rw [signBody?] at h
    split at h
    · next hc => rw [hc, List.head?_cons]
    · cases h

theorem filter_or {α : Type} {p : α → Bool} {x y : Option α} (h : x = none ∨ y = none) :
    (x.or y).filter p = (x.filter p).or (y.filter p) := by
  rcases h with rfl | rfl
  · rfl
  · simp

/-- The requested labels decide only whether a marker counts. -/
theorem markerBody?_eq (labels : List Bytes) (s : Bytes) :
    markerBody? labels s = (body? s).filter (·.isOf labels) := by
  simp only [markerBody?, body?, keywordMarker?_eq, signMarker?_eq, Option.orElse_eq_orElse,
    Option.orElse_eq_or]
  generalize s.dropWhile isMarkerSpace = s
  -- The first byte tells the four forms apart.
  have hstart : keywordBody? "start" .start s = none ∨ s.head? = some 115 :=
    (Option.eq_none_or_eq_some _).imp_right fun ⟨_, h⟩ => head_of_keywordBody (by decide) h
  have hstop : keywordBody? "end" .stop s = none ∨ s.head? = some 101 :=
    (Option.eq_none_or_eq_some _).imp_right fun ⟨_, h⟩ => head_of_keywordBody (by decide) h
  have hadd : signBody? 43 .add s = none ∨ s.head? = some 43 :=
    (Option.eq_none_or_eq_some _).imp_right fun ⟨_, h⟩ => head_of_signBody h
  have hremove : signBody? 45 .remove s = none ∨ s.head? = some 45 :=
    (Option.eq_none_or_eq_some _).imp_right fun ⟨_, h⟩ => head_of_signBody h
  rw [filter_or, filter_or, filter_or]
  · rcases hadd with h | h
    · exact .inl h
    · exact .inr (hremove.resolve_right (by simp [h]))
  · rcases hstop with h | h
    · exact .inl h
    · simp [hadd.resolve_right (by simp [h]), hremove.resolve_right (by simp [h])]
  · rcases hstart with h | h
    · exact .inl h
    · simp [hstop.resolve_right (by simp [h]), hadd.resolve_right (by simp [h]),
        hremove.resolve_right (by simp [h])]

/-! ## Searching for fewer labels -/

section

variable {comments labels few : List Bytes}

theorem Marker.isOf_mono (hsub : few ⊆ labels) {m : Marker} (h : m.isOf few = true) :
    m.isOf labels = true := Marker.isOf_iff.2 (hsub (Marker.isOf_iff.1 h))

theorem filter_eq_none_of_imp {α : Type} {p q : α → Bool} {x : Option α}
    (hqp : ∀ a, q a = true → p a = true) (h : x.filter p = none) : x.filter q = none := by
  rw [Option.filter_eq_none_iff] at h ⊢
  exact fun a ha hq => h a ha (hqp a hq)

theorem markerAfter_eq (sign s : Bytes) :
    (afterStart? sign s).bind (markerBody? labels) =
      ((afterStart? sign s).bind body?).filter (·.isOf labels) := by
  cases afterStart? sign s with
  | none => rfl
  | some rest => exact markerBody?_eq labels rest

theorem isOf_of_marker {s : Bytes} {m : Marker} (h : marker? comments labels s = some m) :
    m.isOf labels = true := by
  obtain ⟨sign, -, hsign⟩ := List.exists_of_findSome?_eq_some h
  rw [markerAfter_eq] at hsign
  exact (Option.filter_eq_some_iff.1 hsign).2

theorem marker?_eq_none (hsub : few ⊆ labels) {s : Bytes} (h : marker? comments labels s = none) :
    marker? comments few s = none := by
  rw [marker?, List.findSome?_eq_none_iff] at h ⊢
  intro sign hsign
  have hnone := h sign hsign
  rw [markerAfter_eq] at hnone ⊢
  exact filter_eq_none_of_imp (fun m hm => Marker.isOf_mono hsub hm) hnone

theorem marker?_eq_some (hsub : few ⊆ labels) {s : Bytes} {m : Marker}
    (h : marker? comments labels s = some m) (hm : m.isOf few = true) :
    marker? comments few s = some m := by
  obtain ⟨before, sign, after, rfl, hsign, hbefore⟩ := List.findSome?_eq_some_iff.1 h
  rw [marker?, List.findSome?_eq_some_iff]
  refine ⟨before, sign, after, rfl, ?_, fun other hother => ?_⟩
  · rw [markerAfter_eq, Option.filter_eq_some_iff] at hsign ⊢
    exact ⟨hsign.1, hm⟩
  · have hnone := hbefore other hother
    rw [markerAfter_eq] at hnone ⊢
    exact filter_eq_none_of_imp (fun m hm => Marker.isOf_mono hsub hm) hnone

/-- A marker that begins at the first byte of a text or, after white space, at the second. -/
def markerHere? (comments labels : List Bytes) (atStart : Bool) : Bytes → Option Marker
  | [] => if atStart then marker? comments labels [] else none
  | c :: rest =>
    (if atStart then marker? comments labels (c :: rest) else none)
      <|> (if isMarkerSpace c then marker? comments labels rest else none)

theorem splitMarker?_nil (atStart : Bool) :
    splitMarker? comments labels atStart [] =
      (markerHere? comments labels atStart []).map fun m => ([], m) := by
  cases atStart <;> rfl

theorem splitMarker?_cons (atStart : Bool) (c : UInt8) (rest : Bytes) :
    splitMarker? comments labels atStart (c :: rest) =
      match markerHere? comments labels atStart (c :: rest) with
      | some m => some ([], m)
      | none => (splitMarker? comments labels false rest).map fun (before, m) => (c :: before, m) :=
  rfl

theorem markerHere?_eq_none (hsub : few ⊆ labels) {atStart : Bool} {s : Bytes}
    (h : markerHere? comments labels atStart s = none) : markerHere? comments few atStart s = none := by
  cases s with
  | nil =>
    rw [markerHere?, ite_eq_right_iff] at h ⊢
    exact fun hstart => marker?_eq_none hsub (h hstart)
  | cons c rest =>
    simp only [markerHere?, Option.orElse_eq_orElse, Option.orElse_eq_or, Option.or_eq_none_iff,
      ite_eq_right_iff] at h ⊢
    exact ⟨fun hstart => marker?_eq_none hsub (h.1 hstart), fun hc => marker?_eq_none hsub (h.2 hc)⟩

theorem markerHere?_eq_some (hsub : few ⊆ labels) {atStart : Bool} {s : Bytes} {m : Marker}
    (h : markerHere? comments labels atStart s = some m) (hm : m.isOf few = true) :
    markerHere? comments few atStart s = some m := by
  cases s with
  | nil =>
    rw [markerHere?, Option.ite_none_right_eq_some] at h ⊢
    exact ⟨h.1, marker?_eq_some hsub h.2 hm⟩
  | cons c rest =>
    simp only [markerHere?, Option.orElse_eq_orElse, Option.orElse_eq_or, Option.or_eq_some_iff,
      Option.ite_none_right_eq_some, ite_eq_right_iff] at h ⊢
    rcases h with ⟨hstart, h⟩ | ⟨hfirst, hc, h⟩
    · exact .inl ⟨hstart, marker?_eq_some hsub h hm⟩
    · exact .inr ⟨fun hstart => marker?_eq_none hsub (hfirst hstart), hc, marker?_eq_some hsub h hm⟩

theorem isOf_of_markerHere {atStart : Bool} {s : Bytes} {m : Marker}
    (h : markerHere? comments labels atStart s = some m) : m.isOf labels = true := by
  cases s with
  | nil =>
    rw [markerHere?, Option.ite_none_right_eq_some] at h
    exact isOf_of_marker h.2
  | cons c rest =>
    simp only [markerHere?, Option.orElse_eq_orElse, Option.orElse_eq_or, Option.or_eq_some_iff,
      Option.ite_none_right_eq_some] at h
    exact h.elim (fun h => isOf_of_marker h.2) fun h => isOf_of_marker h.2.2

theorem splitMarker?_eq_none (hsub : few ⊆ labels) {atStart : Bool} {s : Bytes}
    (h : splitMarker? comments labels atStart s = none) : splitMarker? comments few atStart s = none := by
  induction s generalizing atStart with
  | nil =>
    rw [splitMarker?_nil, Option.map_eq_none_iff] at h ⊢
    exact markerHere?_eq_none hsub h
  | cons c rest ih =>
    rw [splitMarker?_cons] at h ⊢
    cases hhere : markerHere? comments labels atStart (c :: rest) with
    | some m => simp [hhere] at h
    | none =>
      simp only [hhere, Option.map_eq_none_iff] at h
      simp [markerHere?_eq_none hsub hhere, ih h]

/-- **A marker that a search for more labels finds first is found by every search for its label among
fewer ones**, at the same place. -/
theorem splitMarker?_eq_some (hsub : few ⊆ labels) {atStart : Bool} {s before : Bytes} {m : Marker}
    (h : splitMarker? comments labels atStart s = some (before, m)) (hm : m.isOf few = true) :
    splitMarker? comments few atStart s = some (before, m) := by
  induction s generalizing atStart before with
  | nil =>
    rw [splitMarker?_nil] at h ⊢
    obtain ⟨found, hfound, heq⟩ := Option.map_eq_some_iff.1 h
    obtain ⟨rfl, rfl⟩ := Prod.mk.inj heq
    rw [markerHere?_eq_some hsub hfound hm, Option.map_some]
  | cons c rest ih =>
    rw [splitMarker?_cons] at h ⊢
    cases hhere : markerHere? comments labels atStart (c :: rest) with
    | some found =>
      simp only [hhere] at h
      obtain ⟨rfl, rfl⟩ := Prod.mk.inj (Option.some.inj h)
      simp [markerHere?_eq_some hsub hhere hm]
    | none =>
      simp only [hhere] at h
      obtain ⟨⟨before', m'⟩, hrest, heq⟩ := Option.map_eq_some_iff.1 h
      obtain ⟨rfl, rfl⟩ := Prod.mk.inj heq
      simp [markerHere?_eq_none hsub hhere, ih hrest]

theorem exists_of_splitMarker {atStart : Bool} {s before : Bytes} {m : Marker}
    (h : splitMarker? comments labels atStart s = some (before, m)) :
    ∃ rest, s = before ++ rest ∧
      markerHere? comments labels (atStart && before.isEmpty) rest = some m := by
  induction s generalizing atStart before with
  | nil =>
    rw [splitMarker?_nil] at h
    obtain ⟨found, hfound, heq⟩ := Option.map_eq_some_iff.1 h
    obtain ⟨rfl, rfl⟩ := Prod.mk.inj heq
    exact ⟨[], rfl, by simpa using hfound⟩
  | cons c rest ih =>
    rw [splitMarker?_cons] at h
    cases hhere : markerHere? comments labels atStart (c :: rest) with
    | some found =>
      simp only [hhere] at h
      obtain ⟨rfl, rfl⟩ := Prod.mk.inj (Option.some.inj h)
      exact ⟨c :: rest, rfl, by simpa using hhere⟩
    | none =>
      simp only [hhere] at h
      obtain ⟨⟨before', m'⟩, hrest, heq⟩ := Option.map_eq_some_iff.1 h
      obtain ⟨rfl, rfl⟩ := Prod.mk.inj heq
      obtain ⟨after, rfl, hafter⟩ := ih hrest
      exact ⟨after, rfl, by simpa using hafter⟩

theorem isOf_of_splitMarker {atStart : Bool} {s before : Bytes} {m : Marker}
    (h : splitMarker? comments labels atStart s = some (before, m)) : m.isOf labels = true := by
  obtain ⟨_, -, hhere⟩ := exists_of_splitMarker h
  exact isOf_of_markerHere hhere

/-! ## Taking all markers off -/

theorem isOf_of_mem_stripMarkersWithin {bound : Nat} {s : Bytes} {found : List Marker}
    (hfound : ∀ m ∈ found, m.isOf labels = true) :
    ∀ m ∈ (stripMarkersWithin comments labels bound s found).2, m.isOf labels = true := by
  fun_induction stripMarkersWithin comments labels bound s found with
  | case1 => exact hfound
  | case2 => exact hfound
  | case3 bound s found before m hsplit ih =>
    exact ih (List.forall_mem_cons.2 ⟨isOf_of_splitMarker hsplit, hfound⟩)

/-- Only markers of the requested labels are found. -/
theorem isOf_of_mem_stripMarkers {s : Bytes} :
    ∀ m ∈ (stripMarkers comments labels s).2, m.isOf labels = true := by
  rw [stripMarkers]
  split
  · simp
  · exact isOf_of_mem_stripMarkersWithin (by simp)

theorem mem_stripMarkersWithin {bound : Nat} {s : Bytes} {found : List Marker} {m : Marker}
    (h : m ∈ found) : m ∈ (stripMarkersWithin comments labels bound s found).2 := by
  fun_induction stripMarkersWithin comments labels bound s found with
  | case1 => exact h
  | case2 => exact h
  | case3 bound s found before m hsplit ih => exact ih (List.mem_cons_of_mem _ h)

theorem stripMarkersWithin_eq (hsub : few ⊆ labels) {bound : Nat} {s : Bytes} {found : List Marker}
    (h : ∀ m ∈ (stripMarkersWithin comments labels bound s found).2, m.isOf few = true) :
    stripMarkersWithin comments few bound s found = stripMarkersWithin comments labels bound s found := by
  fun_induction stripMarkersWithin comments labels bound s found with
  | case1 => rfl
  | case2 bound s found hnone => rw [stripMarkersWithin, splitMarker?_eq_none hsub hnone]
  | case3 bound s found before m hsplit ih =>
    have hm : m.isOf few = true := h m (mem_stripMarkersWithin List.mem_cons_self)
    rw [stripMarkersWithin, splitMarker?_eq_some hsub hsplit hm]
    exact ih h

theorem stripMarkers_eq_within (hcomments : comments ≠ []) (s : Bytes) :
    stripMarkers comments labels s = stripMarkersWithin comments labels s.length s [] := by
  cases labels with
  | nil =>
    have hnone : splitMarker? comments [] true s = none := by
      cases hsplit : splitMarker? comments [] true s with
      | none => rfl
      | some found => exact absurd (isOf_of_splitMarker hsplit) (by simp [Marker.isOf])
    rw [stripMarkers, if_pos (by simp)]
    cases s.length with
    | zero => rfl
    | succ bound => rw [stripMarkersWithin, hnone]
  | cons label more => rw [stripMarkers, if_neg (by simp [hcomments])]

/-- **Where all markers that a line ends in are of fewer labels, these labels are enough to take them
off.** -/
theorem stripMarkers_eq_of_isOf (hsub : few ⊆ labels) {s : Bytes}
    (h : ∀ m ∈ (stripMarkers comments labels s).2, m.isOf few = true) :
    stripMarkers comments few s = stripMarkers comments labels s := by
  by_cases hcomments : comments = []
  · simp [stripMarkers, hcomments]
  · rw [stripMarkers_eq_within hcomments] at h ⊢
    rw [stripMarkers_eq_within hcomments]
    exact stripMarkersWithin_eq hsub h

end

end Bindery.Listing
