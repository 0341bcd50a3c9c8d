import Bindery.Proofs.Listing.Label

/-!
# Choosing lines

A listing of a language that is kept as it is consists of the lines that the request names, in normal
form. Without labels, or joined with them, line numbers are those of the file; otherwise they count the
lines that the labels select. Numbers are compared with the lines there are before any of them is listed
one by one, so that a range of any size costs nothing.
-/

namespace Bindery.Listing

open Text

/-! ## Ranges of lines -/

namespace LineSpec

variable {s : LineSpec}

theorem contains_eq_true {n : Nat} :
    s.contains n = true ↔ ∃ r ∈ s, r.first ≤ n ∧ n ≤ r.last := by
  simp [contains, List.any_eq_true]

theorem foldl_max_le_iff {m n : Nat} :
    s.foldl (fun m r => Nat.max m r.last) m ≤ n ↔ m ≤ n ∧ ∀ r ∈ s, r.last ≤ n := by
  induction s generalizing m with
  | nil => simp
  | cons r rest ih =>
    rw [List.foldl_cons, ih, List.forall_mem_cons, ← and_assoc]
    exact and_congr_left fun _ => Nat.max_le

theorem max_le_iff {n : Nat} : s.max ≤ n ↔ ∀ r ∈ s, r.last ≤ n := by
  rw [max, foldl_max_le_iff, and_iff_right (Nat.zero_le n)]

theorem le_max_of_contains {n : Nat} (h : s.contains n = true) : n ≤ s.max := by
  obtain ⟨r, hr, -, hlast⟩ := contains_eq_true.1 h
  exact hlast.trans (max_le_iff.1 (Nat.le_refl _) r hr)

theorem mem_indices {n : Nat} : n ∈ s.indices ↔ 1 ≤ n ∧ s.contains n = true := by
  rw [indices, List.mem_filter, List.mem_range'_1]
  constructor
  · exact fun h => ⟨h.1.1, h.2⟩
  · intro h
    have hmax := le_max_of_contains h.2
    exact ⟨⟨h.1, by omega⟩, h.2⟩

/-- What a walk over all ranges lists, number by number. -/
def walk (s : LineSpec) : List Nat := s.flatMap fun r => List.range' r.first (r.last + 1 - r.first)

theorem mem_walk {n : Nat} : n ∈ s.walk ↔ s.contains n = true := by
  rw [walk, List.mem_flatMap, contains_eq_true]
  refine exists_congr fun r => and_congr_right fun _ => ?_
  rw [List.mem_range'_1]
  omega

theorem length_walk_le {n : Nat} (hfirst : ∀ r ∈ s, 1 ≤ r.first) (h : s.max ≤ n) :
    s.walk.length ≤ s.length * n := by
  induction s with
  | nil => simp [walk]
  | cons r rest ih =>
    rw [max_le_iff, List.forall_mem_cons] at h
    obtain ⟨hr, hrest⟩ := List.forall_mem_cons.1 hfirst
    have hwalk := ih hrest (max_le_iff.2 h.2)
    rw [walk, List.flatMap_cons, List.length_append, List.length_range', List.length_cons,
      Nat.add_mul, Nat.one_mul]
    rw [walk] at hwalk
    omega

end LineSpec

/-! ## Selections that are read -/

/-- What the ranges of a selection that was read are like: they are not reversed, begin at line 1 or
later, and end at a number of 63 bits. -/
def Ranged (s : LineSpec) : Prop := ∀ r ∈ s, 1 ≤ r.first ∧ r.first ≤ r.last ∧ r.last ≤ maxInt

theorem readInt_le {s : Bytes} {n : Int} (h : readInt s = .ok n) : n ≤ maxInt := by
  simp only [readInt] at h
  split at h
  · cases h
  · split at h
    · split at h
      · obtain rfl := Except.ok.inj h
        omega
      · cases h
    · split at h
      · obtain rfl := Except.ok.inj h
        omega
      · cases h

theorem bounds_of_parseLineNumber {spec s : Bytes} {n : Nat} (h : parseLineNumber spec s = .ok n) :
    1 ≤ n ∧ n ≤ maxInt := by
  simp only [parseLineNumber] at h
  split at h
  · cases h
  · next n' hread =>
    split at h
    · cases h
    · have hle := readInt_le hread
      obtain rfl := Except.ok.inj h
      omega

theorem bounds_of_parseLineRange {spec part : Bytes} {r : LineRange}
    (h : parseLineRange spec part = .ok r) : 1 ≤ r.first ∧ r.first ≤ r.last ∧ r.last ≤ maxInt := by
  simp only [parseLineRange] at h
  split at h
  · cases h
  · split at h
    · obtain ⟨n, hn, h⟩ := exists_of_bind_eq_ok h
      obtain rfl := Except.ok.inj h
      obtain ⟨hpos, hle⟩ := bounds_of_parseLineNumber hn
      exact ⟨hpos, Nat.le_refl _, hle⟩
    · obtain ⟨first, hfirst, h⟩ := exists_of_bind_eq_ok h
      obtain ⟨last, hlast, h⟩ := exists_of_bind_eq_ok h
      split at h
      · cases h
      · next hordered =>
        obtain rfl := Except.ok.inj h
        exact ⟨(bounds_of_parseLineNumber hfirst).1, Nat.not_lt.1 hordered,
          (bounds_of_parseLineNumber hlast).2⟩

theorem exists_of_mem_mapM {ε α β : Type} {f : α → Except ε β} {xs : List α} {ys : List β}
    (h : xs.mapM f = .ok ys) : ∀ y ∈ ys, ∃ x ∈ xs, f x = .ok y := by
  induction xs generalizing ys with
  | nil =>
    obtain rfl := Except.ok.inj h
    simp
  | cons x rest ih =>
    rw [List.mapM_cons] at h
    obtain ⟨y, hy, h⟩ := exists_of_bind_eq_ok h
    obtain ⟨more, hmore, h⟩ := exists_of_bind_eq_ok h
    obtain rfl := Except.ok.inj h
    refine List.forall_mem_cons.2 ⟨⟨x, List.mem_cons_self, hy⟩, fun z hz => ?_⟩
    obtain ⟨x', hx', hz⟩ := ih hmore z hz
    exact ⟨x', List.mem_cons_of_mem _ hx', hz⟩

theorem ranged_of_parseLines {spec : Bytes} {s : LineSpec} (h : parseLines spec = .ok (some s)) :
    Ranged s := by
  simp only [parseLines] at h
  split at h
  · cases h
  · obtain ⟨ranges, hranges, h⟩ := exists_of_bind_eq_ok h
    obtain rfl := Option.some.inj (Except.ok.inj h)
    intro r hr
    obtain ⟨part, -, hpart⟩ := exists_of_mem_mapM hranges r hr
    exact bounds_of_parseLineRange hpart

/-! ## Lines that are asked for -/

/-- Whether a selection admits a number; without a selection all are admitted. -/
def admits (spec : Option LineSpec) (n : Nat) : Bool := spec.all fun s => s.contains n

/-- Whether a selection lists a number that is larger than another. -/
def Exceeds (spec : Option LineSpec) (n : Nat) : Prop :=
  ∃ k : Nat, n < k ∧ ∃ s, spec = some s ∧ s.contains k = true

/-- How many lines the numbers of a selection can name: the lines of the file, or those that the labels
select. -/
def available (text : Bytes) (labels : List Bytes) (union : Bool) (scanned : List SourceLine) : Nat :=
  if labels.isEmpty || union then (physicalLines text).length else (scanned.filter (·.selected)).length

/-- The lines that are asked for. Without labels these are the lines of the file that the selection
admits; with `union` those that a label selects or the selection lists; otherwise, of the lines that the
labels select, those that the selection admits by their position. -/
def asked (text : Bytes) (spec : Option LineSpec) (labels : List Bytes) (union : Bool)
    (scanned : List SourceLine) : List Bytes :=
  if labels.isEmpty then
    (((physicalLines text).zipIdx 1).filter fun p => admits spec p.2).map fun p => trimEnd isBlank p.1
  else if union then
    (scanned.filter fun l => l.selected || spec.any fun s => s.contains l.number).map (·.text)
  else
    (((scanned.filter (·.selected)).zipIdx 1).filter fun p => admits spec p.2).map (·.1.text)

theorem exceeds_iff {s : LineSpec} (hs : Ranged s) {n : Nat} : Exceeds (some s) n ↔ n < s.max := by
  rw [← Nat.not_le, LineSpec.max_le_iff]
  constructor
  · rintro ⟨k, hk, s', hs', hcontains⟩ hle
    obtain rfl := Option.some.inj hs'
    obtain ⟨r, hr, -, hlast⟩ := LineSpec.contains_eq_true.1 hcontains
    have hbound := hle r hr
    omega
  · intro h
    simp only [not_forall, Nat.not_le] at h
    obtain ⟨r, hr, hlast⟩ := h
    exact ⟨r.last, hlast, s, rfl, LineSpec.contains_eq_true.2 ⟨r, hr, (hs r hr).2.1, Nat.le_refl _⟩⟩

theorem not_exceeds_none (n : Nat) : ¬ Exceeds none n := by
  rintro ⟨-, -, s, hs, -⟩
  cases hs

/-- Positions picked by their numbers are those that the selection lists, in order. -/
theorem map_indices {s : LineSpec} {ls : List Bytes} (filler : Bytes) (h : s.max ≤ ls.length) :
    s.indices.map (fun i => ls.getD (i - 1) filler) =
      ((ls.zipIdx 1).filter fun p => s.contains p.2).map (·.1) := by
  have hzip : ls.zipIdx 1 = (List.range' 1 ls.length).map fun i => (ls.getD (i - 1) filler, i) := by
    refine List.ext_getElem (by simp) fun i hi hi' => ?_
    simp only [List.length_zipIdx] at hi
    simp [List.getElem?_eq_getElem hi, Nat.add_comm]
  have hindices : s.indices = (List.range' 1 ls.length).filter fun n : Nat => s.contains n := by
    have hsplit : List.range' 1 ls.length =
        List.range' 1 s.max ++ List.range' (1 + s.max) (ls.length - s.max) := by
      rw [List.range'_append_1, Nat.add_sub_cancel' h]
    have hbeyond : (List.range' (1 + s.max) (ls.length - s.max)).filter
        (fun n : Nat => s.contains n) = [] := by
      rw [List.filter_eq_nil_iff]
      intro n hn hcontains
      have hlower := (List.mem_range'_1.1 hn).1
      have hupper := LineSpec.le_max_of_contains hcontains
      omega
    rw [hsplit, List.filter_append, hbeyond, List.append_nil, LineSpec.indices]
  rw [hzip, hindices, List.filter_map, List.map_map]
  rfl

theorem markedLines_nil (comments : List Bytes) (number : Nat) (ls : List Bytes) :
    markedLines comments [] number ls =
      (ls.zipIdx number).map fun p => { number := p.2, text := trimEnd isBlank p.1, markers := [] } := by
  induction ls generalizing number with
  | nil => rfl
  | cons line rest ih =>
    have hline : markedLine comments [] number line =
        { number, text := trimEnd isBlank line, markers := [] } := by
      rw [markedLine, stripMarkers, if_pos (by simp)]
    rw [markedLines, List.zipIdx_cons, List.map_cons, hline, ih]

theorem scanLines_nil (text : Bytes) (comments : List Bytes) :
    scanLines text [] comments = .ok (((physicalLines text).zipIdx 1).map fun p =>
      { number := p.2, text := trimEnd isBlank p.1, selected := true }) := by
  rw [scanLines_of_selects (by simp), markedLines_nil, keptLines, List.filter_eq_self.2, List.map_map]
  · rfl
  · intro l hl
    obtain ⟨p, -, rfl⟩ := List.mem_map.1 hl
    rfl

section

variable (scanned : List SourceLine) (total : Nat)

theorem combine_none {haveLabels union : Bool} (h : (union && haveLabels) = false) :
    combine scanned none haveLabels union total =
      .ok ((scanned.filter (·.selected)).map (·.text)) := by
  rw [combine, if_neg (by simp [h])]
  rfl

theorem combine_file (s : LineSpec) (union : Bool) :
    combine scanned (some s) false union total =
      if s.max > total then .error (.beyondFile s.max total)
      else .ok ((scanned.filter fun l => s.contains l.number).map (·.text)) := by
  rw [combine, if_neg (by simp)]
  rfl

theorem combine_labels (s : LineSpec) :
    combine scanned (some s) true false total =
      if s.max > ((scanned.filter (·.selected)).map (·.text)).length then
        .error (.beyondLabels s.max ((scanned.filter (·.selected)).map (·.text)).length)
      else .ok (s.indices.map fun i => ((scanned.filter (·.selected)).map (·.text)).getD (i - 1) []) :=
  rfl

theorem combine_union (spec : Option LineSpec) :
    combine scanned spec true true total =
      if (spec.getD []).max > total then .error (.beyondFile (spec.getD []).max total)
      else .ok ((scanned.filter fun l => l.selected || (spec.getD []).contains l.number).map (·.text)) :=
  rfl

end

theorem filter_admits_none {α : Type} (ls : List (α × Nat)) :
    (ls.filter fun p => admits none p.2) = ls := List.filter_eq_self.2 fun _ _ => rfl

theorem ite_error_eq_ok {c : Prop} [Decidable c] {refusal : Refusal} {x y : List Bytes} :
    (if c then Except.error refusal else .ok x) = .ok y ↔ ¬ c ∧ y = x := by
  split <;> simp_all [eq_comm]

/-- Choosing succeeds when the selection lists no number beyond the lines there are, and the result are
the lines that are asked for. -/
theorem combine_eq_ok_iff {text : Bytes} {spec : Option LineSpec} {labels comments : List Bytes}
    {union : Bool} {scanned : List SourceLine} {selected : List Bytes}
    (hspec : ∀ s, spec = some s → Ranged s) (hscan : scanLines text labels comments = .ok scanned) :
    combine scanned spec (!labels.isEmpty) union (physicalLines text).length = .ok selected ↔
      ¬ Exceeds spec (available text labels union scanned) ∧
      selected = asked text spec labels union scanned := by
  cases labels with
  | nil =>
    obtain rfl := Except.ok.inj ((scanLines_nil text comments).symm.trans hscan)
    cases spec with
    | none =>
      have hasked : ∀ scanned : List SourceLine, asked text none [] union scanned =
          ((physicalLines text).zipIdx 1).map fun p => trimEnd isBlank p.1 := fun _ =>
        congrArg (List.map _) (filter_admits_none _)
      have hselected : ∀ ls : List (Bytes × Nat), (ls.map fun p =>
          { number := p.2, text := trimEnd isBlank p.1, selected := true : SourceLine }).filter
            (·.selected) = ls.map fun p => { number := p.2, text := trimEnd isBlank p.1, selected := true } :=
        fun ls => List.filter_eq_self.2 (List.forall_mem_map.2 fun _ _ => rfl)
      rw [List.isEmpty_nil, combine_none _ _ (by simp), hasked, hselected, List.map_map,
        Except.ok.injEq, eq_comm, and_iff_right (not_exceeds_none _)]
      rfl
    | some s =>
      rw [List.isEmpty_nil, Bool.not_true, combine_file, ite_error_eq_ok, exceeds_iff (hspec s rfl),
        List.filter_map, List.map_map]
      rfl
  | cons label more =>
    rw [List.isEmpty_cons, Bool.not_false]
    cases union with
    | true =>
      cases spec with
      | none =>
        rw [combine_union, ite_error_eq_ok]
        exact and_congr_left fun _ =>
          iff_of_true (Nat.not_lt.2 (Nat.zero_le _)) (not_exceeds_none _)
      | some s =>
        rw [combine_union, ite_error_eq_ok, Option.getD_some, exceeds_iff (hspec s rfl)]
        rfl
    | false =>
      cases spec with
      | none =>
        have hasked : asked text none (label :: more) false scanned =
            (((scanned.filter (·.selected)).zipIdx 1).map (·.1)).map (·.text) := by
          rw [List.map_map]
          exact congrArg (List.map _) (filter_admits_none _)
        rw [combine_none _ _ (by simp), hasked, List.zipIdx_map_fst, Except.ok.injEq, eq_comm,
          and_iff_right (not_exceeds_none _)]
      | some s =>
        rw [combine_labels, ite_error_eq_ok, exceeds_iff (hspec s rfl), List.length_map]
        refine and_congr_right fun hle => ?_
        rw [map_indices [] (by simpa using hle), List.zipIdx_map, List.filter_map, List.map_map]
        rfl

/-! ## Numbers that are listed one by one -/

section

variable (enumerate : LineSpec → List Nat) (filler : Bytes)

/-- Choosing with any way to list the numbers of a selection, and any line to be taken where a position
has none. -/
def combineBy (scanned : List SourceLine) (spec : Option LineSpec) (haveLabels union : Bool)
    (total : Nat) : Except Refusal (List Bytes) :=
  let ranges := spec.getD []
  let candidates := (scanned.filter (·.selected)).map (·.text)
  if union && haveLabels then
    if ranges.max > total then .error (.beyondFile ranges.max total)
    else .ok ((scanned.filter fun l => l.selected || ranges.contains l.number).map (·.text))
  else if spec.isNone then .ok candidates
  else if !haveLabels then
    if ranges.max > total then .error (.beyondFile ranges.max total)
    else .ok ((scanned.filter fun l => ranges.contains l.number).map (·.text))
  else if ranges.max > candidates.length then
    .error (.beyondLabels ranges.max candidates.length)
  else .ok ((enumerate ranges).map fun i => candidates.getD (i - 1) filler)

theorem combine_eq_combineBy : combine = combineBy LineSpec.indices [] := rfl

variable {enumerate}

/-- Only selections that end within the selected lines are listed number by number, and no position is
beyond them. -/
theorem combineBy_eq {scanned : List SourceLine}
    (h : ∀ s : LineSpec, s.max ≤ (scanned.filter (·.selected)).length → enumerate s = s.indices)
    (spec : Option LineSpec) (haveLabels union : Bool) (total : Nat) :
    combineBy enumerate filler scanned spec haveLabels union total =
      combine scanned spec haveLabels union total := by
  rw [combine_eq_combineBy, combineBy, combineBy]
  by_cases hmax : (spec.getD []).max > ((scanned.filter (·.selected)).map (·.text)).length
  · simp only [hmax, if_true]
  · have hle := Nat.not_lt.1 hmax
    rw [h _ (by simpa using hle), map_indices filler hle, map_indices [] hle]

end

/-! ## Listings of plain languages -/

/-- The comment signs that scanning looks for. -/
def signs (l : Language) : List Bytes := if l.comments.isEmpty then allComments else l.comments

/-- Whether lines in normal form make no listing: there are none, or a single one of white space. -/
def Hollow (ls : List Bytes) : Prop := ls = [] ∨ ∃ l, ls = [l] ∧ isWhite l = true

section

variable {format : Bytes → Option Bytes} {text : Bytes} {request : Request} {spec : Option LineSpec}
  {labels : List Bytes} {options : Options}

/-- The listing of a plain language, once what is asked for has been read. -/
theorem extractWith_eq (htext : isWhite text = false) (hlines : parseLines request.lines = .ok spec)
    (hlabels : parseLabels request.labels = .ok labels)
    (hoptions : parseOptions request.options = .ok options)
    (hplain : request.language.family = .plain) :
    extractWith format text request =
      (scanLines text labels (signs request.language)).bind fun scanned =>
      (combine scanned spec (!labels.isEmpty) options.union (physicalLines text).length).bind
        fun selected =>
      if (squeeze selected).isEmpty then .error (.emptySelection request.lines request.labels)
      else if (squeeze selected).all isWhite && (squeeze selected).length ≤ 1 then
        .error (.emptyListing request.lines request.labels)
      else .ok (unlines (squeeze selected)) := by
  simp only [extractWith, htext, hlines, hlabels, hoptions, clean, hplain, Bool.false_eq_true, if_false]
  rfl

theorem hollow_iff (ls : List Bytes) :
    Hollow ls ↔ ls.isEmpty = true ∨ (ls.all isWhite && decide (ls.length ≤ 1)) = true := by
  rcases ls with _ | ⟨l, _ | ⟨l', more⟩⟩ <;> simp [Hollow]

/-- A listing is made when the scan succeeds, no number is beyond the lines there are, and something is
left in normal form. -/
theorem extractWith_eq_ok_iff (htext : isWhite text = false)
    (hlines : parseLines request.lines = .ok spec) (hlabels : parseLabels request.labels = .ok labels)
    (hoptions : parseOptions request.options = .ok options)
    (hplain : request.language.family = .plain) (out : Bytes) :
    extractWith format text request = .ok out ↔
      ∃ scanned, scanLines text labels (signs request.language) = .ok scanned ∧
        ¬ Exceeds spec (available text labels options.union scanned) ∧
        ¬ Hollow (squeeze (asked text spec labels options.union scanned)) ∧
        out = unlines (squeeze (asked text spec labels options.union scanned)) := by
  have hspec : ∀ s, spec = some s → Ranged s := by
    rintro s rfl
    exact ranged_of_parseLines hlines
  rw [extractWith_eq htext hlines hlabels hoptions hplain]
  constructor
  · intro h
    obtain ⟨scanned, hscan, h⟩ := exists_of_bind_eq_ok h
    obtain ⟨selected, hcombine, h⟩ := exists_of_bind_eq_ok h
    obtain ⟨hwithin, rfl⟩ := (combine_eq_ok_iff hspec hscan).1 hcombine
    refine ⟨scanned, hscan, hwithin, ?_⟩
    split at h
    · cases h
    · next hne =>
      split at h
      · cases h
      · next hfull =>
        exact ⟨fun hhollow => ((hollow_iff _).1 hhollow).elim hne hfull, (Except.ok.inj h).symm⟩
  · rintro ⟨scanned, hscan, hwithin, hfull, rfl⟩
    rw [hollow_iff, not_or] at hfull
    have hcombine := (combine_eq_ok_iff hspec hscan).2 ⟨hwithin, rfl⟩
    rw [hscan]
    simp only [Except.bind, hcombine]
    rw [if_neg hfull.1, if_neg hfull.2]

theorem exists_eq_error_iff {α : Type} {x : Except Refusal α} :
    (∃ refusal, x = .error refusal) ↔ ∀ a, x ≠ .ok a := by
  cases x <;> simp

/-- **The listing of a plain language is the normal form of the lines that are asked for.** It fails
exactly when the scan does, a listed number is beyond the lines that the numbers can name, or nothing but
a white line is left. A selection is listed number by number only when it ends within the selected lines,
and then names each of its lines once, in ascending order: the listing does not depend on how larger
selections would be listed, nor on what stands at a position without a line. -/
theorem extractWith_plain (htext : isWhite text = false)
    (hlines : parseLines request.lines = .ok spec) (hlabels : parseLabels request.labels = .ok labels)
    (hoptions : parseOptions request.options = .ok options)
    (hplain : request.language.family = .plain) :
    (∀ out, extractWith format text request = .ok out ↔
      ∃ scanned, scanLines text labels (signs request.language) = .ok scanned ∧
        ¬ Exceeds spec (available text labels options.union scanned) ∧
        ¬ Hollow (squeeze (asked text spec labels options.union scanned)) ∧
        out = unlines (squeeze (asked text spec labels options.union scanned))) ∧
    ((∃ refusal, extractWith format text request = .error refusal) ↔
      (∃ refusal, scanLines text labels (signs request.language) = .error refusal) ∨
      ∃ scanned, scanLines text labels (signs request.language) = .ok scanned ∧
        (Exceeds spec (available text labels options.union scanned) ∨
          Hollow (squeeze (asked text spec labels options.union scanned)))) ∧
    (∀ scanned enumerate filler,
      (∀ s : LineSpec, s.max ≤ (scanned.filter (·.selected)).length → enumerate s = s.indices) →
      combineBy enumerate filler scanned spec (!labels.isEmpty) options.union
          (physicalLines text).length =
        combine scanned spec (!labels.isEmpty) options.union (physicalLines text).length) ∧
    (∀ s n, spec = some s → s.max ≤ n →
      (∀ i, i ∈ s.indices ↔ s.contains i = true) ∧ s.indices.Pairwise (· < ·) ∧
      (∀ i ∈ s.indices, 1 ≤ i ∧ i ≤ n) ∧
      (∀ i, i ∈ s.walk ↔ i ∈ s.indices) ∧ s.walk.length ≤ s.length * n) := by
  have hok : ∀ out, extractWith format text request = .ok out ↔ _ :=
    extractWith_eq_ok_iff htext hlines hlabels hoptions hplain
  refine ⟨hok, ?_, fun scanned enumerate filler h => combineBy_eq filler h _ _ _ _, ?_⟩
  · rw [exists_eq_error_iff]
    simp only [Ne, hok]
    cases hscan : scanLines text labels (signs request.language) with
    | error refusal => simp
    | ok scanned =>
      simp only [Except.ok.injEq, exists_eq_left', reduceCtorEq, exists_false, false_or]
      constructor
      · intro h
        by_contra hno
        rw [not_or] at hno
        exact h _ ⟨hno.1, hno.2, rfl⟩
      · rintro h out ⟨hwithin, hfull, -⟩
        exact h.elim hwithin hfull
  · rintro s n rfl hmax
    have hranged := ranged_of_parseLines hlines
    have hmem : ∀ i : Nat, i ∈ s.indices ↔ s.contains i = true := by
      intro i
      rw [LineSpec.mem_indices, and_iff_right_of_imp]
      intro hcontains
      obtain ⟨r, hr, hfirst, -⟩ := LineSpec.contains_eq_true.1 hcontains
      exact (hranged r hr).1.trans hfirst
    refine ⟨hmem, ?_, fun i hi => ?_, fun i => LineSpec.mem_walk.trans (hmem i).symm,
      LineSpec.length_walk_le (fun r hr => (hranged r hr).1) hmax⟩
    · exact (List.pairwise_lt_range' 1).filter _
    · obtain ⟨hpos, hcontains⟩ := LineSpec.mem_indices.1 hi
      exact ⟨hpos, (LineSpec.le_max_of_contains hcontains).trans hmax⟩

end

/-- A file with lines of one label. -/
def markedText : Bytes := "zero\n# start a\none\ntwo\n# end a\nthree # +a\n"

/-- Positions among the lines of a label, out of order; and a range up to the largest number there is,
which is refused before it is listed. -/
theorem extractWith_plain_positions :
    extractWith (fun _ => none) markedText { lines := "3,1", labels := "a" } = .ok "one\nthree" ∧
    ∃ refusal, extractWith (fun _ => none) markedText
      { lines := "1-9223372036854775807", labels := "a" } = .error refusal := by
  have hlines : parseLines "3,1" = .ok (some [⟨3, 3⟩, ⟨1, 1⟩]) := by decide
  have hrange : parseLines "1-9223372036854775807" = .ok (some [⟨1, 9223372036854775807⟩]) := by decide
  have hlabels : parseLabels "a" = .ok ["a"] := by decide
  have hoptions : parseOptions [] = .ok {} := by decide
  constructor
  · refine ((extractWith_plain (by decide) hlines hlabels hoptions rfl).1 _).2
      ⟨_, rfl, ?_, ?_, by decide⟩
    · exact (exceeds_iff (ranged_of_parseLines hlines)).not.2 (by decide)
    · exact (hollow_iff _).not.2 (by decide)
  · refine (extractWith_plain (by decide) hrange hlabels hoptions rfl).2.1.2 (.inr ⟨_, rfl, .inl ?_⟩)
    exact (exceeds_iff (ranged_of_parseLines hrange)).2 (by decide)

end Bindery.Listing
