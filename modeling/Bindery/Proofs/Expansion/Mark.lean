import Mathlib.Data.Option.Basic
import Bindery.Expansion.Document
import Bindery.Proofs.Fault
import Bindery.Proofs.Text.Tidy

/-!
# Marks

A reference leaves a mark in the text, and marks are replaced by links when all definitions are known.
A `Form` is a text with numbered places; filled with marks it is what a pass writes, and filled with
links what it gives. Marks are found again whatever was cut and joined on the way, because all other
text is tidy (`Marked`).
-/

namespace Bindery.Expansion

open Text

/-! ## Digits -/

theorem ofNat_of_lt {n : Nat} (h : n < 10) : ofNat n = [(Nat.digitChar n).toUInt8] := by
  rw [ofNat, Nat.toDigits_of_lt_base h]
  rfl

theorem ofNat_of_le {n : Nat} (h : 10 ≤ n) :
    ofNat n = ofNat (n / 10) ++ [(Nat.digitChar (n % 10)).toUInt8] := by
  rw [ofNat, Nat.toDigits_of_base_le (by decide) h, List.map_append]
  rfl

theorem digitChar_toUInt8 : ∀ n < 10, isDigit (Nat.digitChar n).toUInt8 = true ∧
    (Nat.digitChar n).toUInt8.toNat - 48 = n := by decide

theorem isDigit_of_mem_ofNat {n : Nat} {c : UInt8} (h : c ∈ ofNat n) : isDigit c = true := by
  induction n using Nat.strongRecOn with
  | ind n ih =>
    by_cases hn : n < 10
    · rw [ofNat_of_lt hn, List.mem_singleton] at h
      rw [h]
      exact (digitChar_toUInt8 n hn).1
    · rw [ofNat_of_le (Nat.not_lt.1 hn)] at h
      rcases List.mem_append.1 h with h | h
      · exact ih (n / 10) (by omega) h
      · rw [List.mem_singleton.1 h]
        exact (digitChar_toUInt8 (n % 10) (Nat.mod_lt _ (by decide))).1

theorem ofNat_ne_nil (n : Nat) : ofNat n ≠ [] := by
  rw [ofNat, ne_eq, List.map_eq_nil_iff]
  exact Nat.toDigits_ne_nil

theorem digitsValue_ofNat (n : Nat) : Double.digitsValue (ofNat n) = n := by
  induction n using Nat.strongRecOn with
  | ind n ih =>
    by_cases hn : n < 10
    · rw [ofNat_of_lt hn, Double.digitsValue, List.foldl_cons, List.foldl_nil,
        (digitChar_toUInt8 n hn).2]
      omega
    · have hrest := ih (n / 10) (by omega)
      rw [Double.digitsValue] at hrest
      rw [ofNat_of_le (Nat.not_lt.1 hn), Double.digitsValue, List.foldl_append, hrest,
        List.foldl_cons, List.foldl_nil,
        (digitChar_toUInt8 (n % 10) (Nat.mod_lt _ (by decide))).2]
      omega

/-! ## Texts with marks -/

/-- Tidy text with marks in it, whose numbers are listed in order. -/
inductive Marked : Bytes → List Nat → Prop
  | text {s : Bytes} (hs : Tidy s) : Marked s []
  | cons {s rest : Bytes} {ks : List Nat} (hs : Tidy s) (k : Nat) (hrest : Marked rest ks) :
      Marked (s ++ (mark k ++ rest)) (k :: ks)

theorem mark_eq_cons (k : Nat) : mark k = 0xEE :: ([0x80, 0x80] ++ ofNat k ++ markEnd) := rfl

theorem marked_nil : Marked [] [] := .text tidy_nil

theorem marked_mark (k : Nat) : Marked (mark k) [k] := by
  have h : Marked ([] ++ (mark k ++ [])) [k] := .cons tidy_nil k marked_nil
  rwa [List.append_nil, List.nil_append] at h

namespace Marked

variable {s t w : Bytes} {ks ls : List Nat}

theorem tidy_append (hs : Tidy s) (ht : Marked t ks) : Marked (s ++ t) ks := by
  cases ht with
  | text ht => exact .text (hs.append ht)
  | cons ht k hrest =>
    rw [← List.append_assoc]
    exact .cons (hs.append ht) k hrest

theorem append (hs : Marked s ks) (ht : Marked t ls) : Marked (s ++ t) (ks ++ ls) := by
  induction hs with
  | text hs => exact tidy_append hs ht
  | cons hs k _ ih =>
    rw [List.append_assoc, List.append_assoc]
    exact .cons hs k ih

theorem append_tidy (hs : Marked s ks) (ht : Tidy t) : Marked (s ++ t) ks := by
  simpa using hs.append (.text ht)

theorem of_space_append (hw : Space w) (h : Marked (w ++ t) ks) : Marked t ks := by
  generalize htext : w ++ t = text at h
  cases h with
  | text hs => exact .text (Tidy.of_ended_append (htext ▸ hs) hw.ended)
  | @cons s rest ks hs k hrest =>
    rcases List.append_eq_append_iff.1 htext with ⟨a, rfl, rfl⟩ | ⟨c, rfl, hc⟩
    · exact .cons (hs.of_ended_append hw.ended) k hrest
    · cases c with
      | nil =>
        rw [List.nil_append] at hc
        rw [← hc]
        exact .cons tidy_nil k hrest
      | cons x c =>
        rw [mark_eq_cons, List.cons_append, List.cons_append] at hc
        obtain ⟨rfl, -⟩ := List.cons.inj hc
        exact absurd (List.mem_append_right s List.mem_cons_self) hw.notMem

theorem of_append_space (hw : Space w) (h : Marked (t ++ w) ks) : Marked t ks := by
  generalize htext : t ++ w = text at h
  induction h generalizing t with
  | text hs => exact .text ((htext ▸ hs).start (List.prefix_append t w))
  | @cons s rest ks hs k hrest ih =>
    rw [← List.append_assoc] at htext
    rcases List.append_eq_append_iff.1 htext with ⟨a, hmark, rfl⟩ | ⟨c, rfl, hc⟩
    · by_cases hnil : a = []
      · subst hnil
        rw [List.append_nil] at hmark
        rw [← hmark]
        simpa using Marked.cons hs k (ih (t := []) rfl)
      · -- White space that reaches into the mark would begin inside its last character.
        exfalso
        have hsuffix : a <:+ markEnd := by
          have ha : a <:+ s ++ mark k := ⟨t, hmark.symm⟩
          have hend : markEnd <:+ s ++ mark k := by
            rw [mark]
            exact (List.suffix_append _ markEnd).trans (List.suffix_append s _)
          refine (List.suffix_or_suffix_of_suffix ha hend).resolve_right fun h => ?_
          exact hw.notMem (List.mem_append_left _ (h.subset (by decide)))
        simp only [markEnd, List.suffix_cons_iff, List.suffix_nil, hnil, or_false] at hsuffix
        rcases hsuffix with rfl | rfl | rfl
        · exact hw.notMem (by simp)
        · exact absurd (hw.fresh 0x80 _ rfl) (by decide)
        · exact absurd (hw.fresh 0x81 _ rfl) (by decide)
    · rw [List.append_assoc]
      exact .cons hs k (ih hc.symm)

theorem trim (h : Marked s ks) : Marked (trim s) ks := by
  obtain ⟨v, w, hs, hv, hw⟩ := exists_white_trim s
  rw [hs] at h
  exact of_space_append hv.space (of_append_space hw.space h)

theorem trimNewlines (h : Marked s ks) : Marked (trimBoth isNewline s) ks := by
  obtain ⟨v, w, hs, hv, hw⟩ := exists_white_trimNewlines s
  rw [hs, List.append_assoc] at h
  exact of_append_space hw.space (of_space_append hv.space h)

theorem place (hs : Marked s ks) (ht : Marked t ls) (isBlock : Bool) (after : Bytes) :
    Marked (place s isBlock t after) (ks ++ ls) := by
  have hlines : ∀ n, Tidy (List.replicate n 10) := fun n =>
    tidy_of_ascii fun c hc => by
      rw [List.eq_of_mem_replicate hc]
      decide
  unfold Bindery.place
  split
  · refine append_tidy (append (append_tidy hs ?_) ht.trimNewlines) ?_
    · unfold gapBefore
      split
      · exact tidy_nil
      · exact hlines _
    · unfold gapAfter
      split
      · split
        · exact hlines 1
        · exact tidy_nil
      · exact hlines _
  · exact hs.append ht

theorem isInfix_of_mem (h : Marked s ks) {k : Nat} (hk : k ∈ ks) : mark k <:+: s := by
  induction h with
  | text => cases hk
  | @cons s rest ks _ j _ ih =>
    rcases List.mem_cons.1 hk with rfl | hk
    · exact ⟨s, rest, by simp⟩
    · refine (ih hk).trans ⟨s ++ mark j, [], by simp⟩

end Marked

/-! ## Forms -/

/-- A text with numbered places: each follows a literal text, and a literal text ends it all. -/
structure Form where
  places : List (Bytes × Nat) := []
  last : Bytes := []
  deriving Repr

namespace Form

/-- The text with something put in each place. -/
def fill (f : Nat → Bytes) (form : Form) : Bytes :=
  form.places.flatMap (fun p => p.1 ++ f p.2) ++ form.last

def numbers (form : Form) : List Nat := form.places.map (·.2)

def AllTidy (form : Form) : Prop := (∀ p ∈ form.places, Tidy p.1) ∧ Tidy form.last

theorem tidy_fill {form : Form} (h : form.AllTidy) {f : Nat → Bytes}
    (hf : ∀ k ∈ form.numbers, Tidy (f k)) : Tidy (form.fill f) := by
  obtain ⟨places, last⟩ := form
  induction places with
  | nil => exact h.2
  | cons p places ih =>
    obtain ⟨hp, hplaces⟩ := List.forall_mem_cons.1 h.1
    obtain ⟨hk, hrest⟩ := List.forall_mem_cons.1 (hf : ∀ k ∈ p.2 :: places.map (·.2), Tidy (f k))
    have htail := ih ⟨hplaces, h.2⟩ hrest
    simp only [fill, List.flatMap_cons, List.append_assoc] at htail ⊢
    exact hp.append (hk.append htail)

end Form

theorem Marked.exists_form {s : Bytes} {ks : List Nat} (h : Marked s ks) :
    ∃ form : Form, form.AllTidy ∧ form.fill mark = s ∧ form.numbers = ks := by
  induction h with
  | @text s hs => exact ⟨{ last := s }, ⟨by simp, hs⟩, rfl, rfl⟩
  | @cons s rest ks hs k _ ih =>
    obtain ⟨form, ⟨hplaces, hlast⟩, rfl, rfl⟩ := ih
    refine ⟨⟨(s, k) :: form.places, form.last⟩, ⟨List.forall_mem_cons.2 ⟨hs, hplaces⟩, hlast⟩, ?_, rfl⟩
    simp [Form.fill]

/-! ## Finding marks -/

theorem segmentsAfter_eq (skip : Nat) (s : Bytes) :
    segmentsAfter skip s = segments (s.drop skip) := by
  induction skip generalizing s with
  | zero => rfl
  | succ skip ih =>
    cases s with
    | nil => rfl
    | cons c rest => exact ih rest

/-- Literal text is passed over up to the next mark, or to the end. -/
theorem segments_append {s t : Bytes} (hs : ¬ firstPrivate <:+: s)
    (ht : ∀ c q, t = c :: q → c = 0xEE) :
    segments (s ++ t) = s.map .literal ++ segments t := by
  induction s with
  | nil => rfl
  | cons c s ih =>
    have hnone : markDigits? (c :: (s ++ t)) = none := by
      cases hstart : afterStart? markStart (c :: (s ++ t)) with
      | none => rw [markDigits?, hstart]; rfl
      | some rest =>
        exfalso
        have hcut := List.isPrefixOf?_eq_some_iff_append_eq.1 hstart
        simp only [markStart, List.cons_append, List.nil_append] at hcut
        obtain ⟨hc, hrest⟩ := List.cons.inj hcut
        -- The start of a mark would have to reach from the literal text into what follows.
        rcases s with - | ⟨x, - | ⟨y, s⟩⟩
        · exact absurd (ht _ _ hrest.symm) (by decide)
        · exact absurd (ht _ _ (List.cons.inj hrest).2.symm) (by decide)
        · obtain ⟨hx, hrest⟩ := List.cons.inj hrest
          obtain ⟨hy, -⟩ := List.cons.inj hrest
          exact hs ⟨[], s, by rw [← hc, ← hx, ← hy]; rfl⟩
    have hsegments : segments (c :: s ++ t) = .literal c :: segments (s ++ t) := by
      rw [segments, List.cons_append, segmentsAfter, hnone]
      rfl
    rw [hsegments, ih fun h => hs (h.trans (List.suffix_cons c s).isInfix)]
    rfl

/-- What stands in a mark between its first character and its last. -/
def IsNumber (digits : Bytes) : Prop := digits ≠ [] ∧ ∀ c ∈ digits, isDigit c = true

/-- The mark with some digits, whoever wrote it. -/
def markOf (digits : Bytes) : Bytes := markStart ++ (digits ++ markEnd)

theorem isNumber_ofNat (k : Nat) : IsNumber (ofNat k) :=
  ⟨ofNat_ne_nil k, fun _ hc => isDigit_of_mem_ofNat hc⟩

theorem mark_eq_markOf (k : Nat) : mark k = markOf (ofNat k) := by
  rw [mark, markOf, List.append_assoc]

theorem takeWhile_isDigit {digits : Bytes} (h : IsNumber digits) (rest : Bytes) :
    (digits ++ (markEnd ++ rest)).takeWhile isDigit = digits := by
  rw [List.takeWhile_append_of_pos h.2]
  have hend : (markEnd ++ rest).takeWhile isDigit = [] := rfl
  rw [hend, List.append_nil]

theorem afterStart?_eq_some {start text rest : Bytes} :
    afterStart? start text = some rest ↔ start ++ rest = text :=
  List.isPrefixOf?_eq_some_iff_append_eq

/-- A mark is found where one stands. -/
theorem markDigits?_eq_some {text digits : Bytes} {n : Nat} :
    markDigits? text = some (digits, n) ↔
      IsNumber digits ∧ n = digits.length + 6 ∧ markOf digits <+: text := by
  constructor
  · intro h
    simp only [markDigits?, Option.bind_eq_bind, Option.bind_eq_some_iff, afterStart?_eq_some,
      Option.some.injEq, Prod.mk.injEq] at h
    obtain ⟨rest, rfl, _, hnonempty, tail, hend, hdigits, rfl⟩ := h
    subst hdigits
    refine ⟨⟨?_, fun c hc => List.mem_takeWhile_imp hc⟩, rfl, tail, ?_⟩
    · intro hnil
      simp [hnil, guard] at hnonempty
    · have hrest : rest.takeWhile isDigit ++ (markEnd ++ tail) = rest := by
        rw [hend]
        exact List.prefix_iff_eq_append.1 (List.takeWhile_prefix isDigit)
      rw [markOf, List.append_assoc, List.append_assoc, hrest]
  · rintro ⟨hdigits, rfl, rest, rfl⟩
    have hmark : markOf digits ++ rest = markStart ++ (digits ++ (markEnd ++ rest)) := by
      rw [markOf, List.append_assoc, List.append_assoc]
    have hdrop : (digits ++ (markEnd ++ rest)).drop digits.length = markEnd ++ rest :=
      List.drop_left
    rw [markDigits?, hmark, afterStart?_eq_some.2 rfl]
    simp only [Option.bind_eq_bind, Option.bind_some, takeWhile_isDigit hdigits, hdrop,
      afterStart?_eq_some.2 rfl]
    simp [hdigits.1, guard]

theorem segments_markOf {digits : Bytes} (h : IsNumber digits) (rest : Bytes) :
    segments (markOf digits ++ rest) = .mark digits :: segments rest := by
  have hmark := markDigits?_eq_some.2 ⟨h, rfl, List.prefix_append (markOf digits) rest⟩
  have hcons : markOf digits = 0xEE :: ([0x80, 0x80] ++ (digits ++ markEnd)) := rfl
  rw [hcons, List.cons_append] at hmark ⊢
  rw [segments, segmentsAfter, hmark]
  simp only [segmentsAfter_eq]
  have hlength : ([0x80, 0x80] ++ (digits ++ markEnd)).length = digits.length + 6 - 1 := by
    simp [markEnd]
  rw [← hlength, List.drop_left]

/-- The segments of a literal text and the mark behind it. -/
def placeSegments (p : Bytes × Nat) : List Segment := p.1.map .literal ++ [.mark (ofNat p.2)]

/-- **Marks are found again** in a form that was filled with them. -/
theorem segments_fill {form : Form} (h : form.AllTidy) :
    segments (form.fill mark) = form.places.flatMap placeSegments ++ form.last.map .literal := by
  obtain ⟨places, last⟩ := form
  induction places with
  | nil =>
    have hlast := segments_append h.2.not_isInfix (t := []) nofun
    rw [List.append_nil] at hlast
    rw [Form.fill, List.flatMap_nil, List.nil_append, hlast]
    exact List.append_nil _
  | cons p places ih =>
    obtain ⟨hp, hplaces⟩ := List.forall_mem_cons.1 h.1
    have hrest := ih ⟨hplaces, h.2⟩
    have hfill : Form.fill mark ⟨p :: places, last⟩ =
        p.1 ++ (mark p.2 ++ Form.fill mark ⟨places, last⟩) := by simp [Form.fill]
    rw [hfill, segments_append hp.not_isInfix, mark_eq_markOf, segments_markOf (isNumber_ofNat p.2), hrest]
    · simp [placeSegments]
    · intro c q hc
      rw [mark_eq_cons, List.cons_append] at hc
      exact (List.cons.inj hc).1.symm

/-! ## Replacing marks -/

theorem mapM_id_ok {pieces : List Bytes} :
    (pieces.map Except.ok).mapM id = (.ok pieces : Except Fault (List Bytes)) := by
  induction pieces with
  | nil => rfl
  | cons piece pieces ih =>
    rw [List.map_cons, List.mapM_cons, ih]
    rfl

theorem eq_map_of_mapM_id {results : List (Except Fault Bytes)} {pieces : List Bytes}
    (h : results.mapM id = .ok pieces) : results = pieces.map .ok := by
  induction results generalizing pieces with
  | nil =>
    cases h
    rfl
  | cons r results ih =>
    rw [List.mapM_cons] at h
    cases r with
    | error fault => cases h
    | ok piece =>
      cases hrest : results.mapM id with
      | error fault =>
        rw [hrest] at h
        cases h
      | ok others =>
        rw [hrest] at h
        obtain rfl := Except.ok.inj h
        rw [ih hrest]
        rfl

theorem mapM_id_error {results rest : List (Except Fault Bytes)} {fault : Fault}
    (h : ∀ r ∈ results, ∃ piece, r = .ok piece) :
    (results ++ .error fault :: rest).mapM id = .error fault := by
  induction results with
  | nil => rfl
  | cons r results ih =>
    obtain ⟨⟨piece, rfl⟩, hresults⟩ := List.forall_mem_cons.1 h
    rw [List.cons_append, List.mapM_cons, ih hresults]
    rfl

section

variable {s : Setting} {draft : Draft} {form : Form}

theorem mem_segments {places : List (Bytes × Nat)} {t : Bytes} {segment : Segment}
    (h : segment ∈ places.flatMap placeSegments ++ t.map Segment.literal) :
    (∃ c, segment = .literal c) ∨ ∃ k ∈ places.map (·.2), segment = .mark (ofNat k) := by
  rcases List.mem_append.1 h with h | h
  · obtain ⟨p, hp, h⟩ := List.mem_flatMap.1 h
    rcases List.mem_append.1 h with h | h
    · obtain ⟨c, -, rfl⟩ := List.mem_map.1 h
      exact .inl ⟨c, rfl⟩
    · exact .inr ⟨p.2, List.mem_map_of_mem hp, List.mem_singleton.1 h⟩
  · obtain ⟨c, -, rfl⟩ := List.mem_map.1 h
    exact .inl ⟨c, rfl⟩

/-- A form filled with marks becomes the form filled with links. -/
theorem resolveReferences_of_ok (h : form.AllTidy) {f : Nat → Bytes}
    (hf : ∀ k ∈ form.numbers, resolveSegment s draft (.mark (ofNat k)) = .ok (f k)) :
    resolveReferences s draft (form.fill mark) = .ok (form.fill f) := by
  have hliteral : ∀ t : Bytes, (t.map Segment.literal).map (resolveSegment s draft) =
      (t.map fun c => [c]).map Except.ok := by
    intro t
    rw [List.map_map, List.map_map]
    rfl
  have hplaces : (form.places.flatMap placeSegments).map (resolveSegment s draft) =
      (form.places.flatMap fun p => (p.1.map fun c => [c]) ++ [f p.2]).map Except.ok := by
    rw [List.map_flatMap, List.map_flatMap]
    refine List.flatMap_congr fun p hp => ?_
    rw [placeSegments, List.map_append, List.map_append, hliteral]
    have hk := hf p.2 (List.mem_map_of_mem hp)
    simp [hk]
  have hresults : (segments (form.fill mark)).map (resolveSegment s draft) =
      ((form.places.flatMap fun p => (p.1.map fun c => [c]) ++ [f p.2]) ++
        form.last.map fun c => [c]).map Except.ok := by
    rw [segments_fill h, List.map_append, hplaces, hliteral, List.map_append]
  have hflatten : ∀ t : Bytes, (t.map fun c => [c]).flatten = t := by
    intro t
    rw [← List.flatMap_def, List.flatMap_singleton']
  have hfill : ((form.places.flatMap fun p => (p.1.map fun c => [c]) ++ [f p.2]) ++
      form.last.map fun c => [c]).flatten = form.fill f := by
    rw [List.flatten_append, hflatten, Form.fill, List.flatMap_def, List.flatten_flatten,
      List.map_map, List.flatMap_def]
    congr 2
    refine List.map_congr_left fun p _ => ?_
    simp [hflatten]
  rw [resolveReferences, hresults, mapM_id_ok]
  simp only [Except.map, hfill]
  rw [if_neg]
  simp [isCrash]

/-- If marks cannot be replaced, the first of them counts. -/
theorem resolveReferences_of_error (h : form.AllTidy) {before after : List Nat} {k : Nat}
    {fault : Fault} (hnumbers : form.numbers = before ++ k :: after)
    (hbefore : ∀ j ∈ before, ∃ t, resolveSegment s draft (.mark (ofNat j)) = .ok t)
    (hk : resolveSegment s draft (.mark (ofNat k)) = .error fault)
    (hcrash : ∀ j ∈ form.numbers, resolveSegment s draft (.mark (ofNat j)) ≠ .error .crashed) :
    resolveReferences s draft (form.fill mark) = .error fault := by
  obtain ⟨front, back, hplaces, hfront, hback⟩ := List.map_eq_append_iff.1 hnumbers
  obtain ⟨p, back, rfl, rfl, -⟩ := List.map_eq_cons_iff.1 hback
  have hresults : (segments (form.fill mark)).map (resolveSegment s draft) =
      (front.flatMap placeSegments ++ p.1.map Segment.literal).map (resolveSegment s draft) ++
        .error fault ::
          (back.flatMap placeSegments ++ form.last.map Segment.literal).map
            (resolveSegment s draft) := by
    rw [segments_fill h, hplaces, ← hk]
    simp [placeSegments]
  have hok : ∀ r ∈ (front.flatMap placeSegments ++ p.1.map Segment.literal).map
      (resolveSegment s draft), ∃ piece, r = .ok piece := by
    intro r hr
    obtain ⟨segment, hsegment, rfl⟩ := List.mem_map.1 hr
    rcases mem_segments hsegment with ⟨c, rfl⟩ | ⟨j, hj, rfl⟩
    · exact ⟨[c], rfl⟩
    · exact hbefore j (hfront ▸ hj)
  have hno : ((segments (form.fill mark)).map (resolveSegment s draft)).any isCrash = false := by
    rw [List.any_eq_false]
    intro r hr hiscrash
    obtain ⟨segment, hsegment, rfl⟩ := List.mem_map.1 hr
    rw [segments_fill h] at hsegment
    rcases mem_segments hsegment with ⟨c, rfl⟩ | ⟨j, hj, rfl⟩
    · cases hiscrash
    · refine hcrash j hj ?_
      unfold isCrash at hiscrash
      split at hiscrash
      · next heq => exact heq
      · cases hiscrash
  rw [resolveReferences, hno]
  simp only [Bool.false_eq_true, if_false]
  rw [hresults, mapM_id_error hok]
  rfl

end

end Bindery.Expansion
