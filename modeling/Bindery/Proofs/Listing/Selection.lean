import Bindery.Listing.Comment
import Bindery.Proofs.Text.Tidy

/-!
# Lines of a listing

Selecting the lines of a source, taking markers and comments off them and bringing them into normal form
only drops bytes, and puts ASCII between what is left. What is dropped ends where a character ends, so
the lines of a tidy source are tidy.
-/

namespace Bindery.Listing

open Text

def TidyLines (ls : List Bytes) : Prop := ∀ l ∈ ls, Tidy l

/-! ## Physical lines -/

theorem tidy_replaceWithin {pattern new : Bytes} (hne : pattern ≠ [])
    (hpattern : ∀ c ∈ pattern, c < 0x80) (hnew : ∀ c ∈ new, c < 0x80) (bound : Nat) (s : Bytes) :
    ∀ a, Tidy (a ++ s) → Tidy (a ++ replaceWithin pattern new bound s) := by
  fun_induction replaceWithin pattern new bound s with
  | case1 => exact fun a h => h
  | case2 => exact fun a h => h
  | case3 bound c rest after hafter ih =>
    intro a h
    rw [← List.append_assoc]
    refine ih (a ++ new) ?_
    rw [← List.isPrefixOf?_eq_some_iff_append_eq.1 hafter, ← List.append_assoc] at h
    have hended : Ended (a ++ pattern) := ended_append (ended_of_ascii hpattern) hne a
    have ha : Tidy a := (h.start (List.prefix_append _ _)).start (List.prefix_append _ _)
    exact (ha.append (tidy_of_ascii hnew)).append (h.of_ended_append hended)
  | case4 bound c rest _ ih =>
    intro a h
    have := ih (a ++ [c]) (by simpa using h)
    simpa using this

theorem tidy_physicalLines {text : Bytes} (h : Tidy text) : TidyLines (physicalLines text) := by
  have hlines : TidyLines (lines (replaceAll [13, 10] [10] text)) :=
    Tidy.splitOn (by decide) (tidy_replaceWithin (by simp) (lt_of_isAscii (by decide))
      (lt_of_isAscii (by decide)) _ text [] h)
  intro l hl
  rw [physicalLines] at hl
  split at hl
  · exact hlines l ((List.dropLast_sublist _).subset hl)
  · exact hlines l hl

/-! ## Markers -/

theorem isPrefix_splitMarker {comments labels : List Bytes} {atStart : Bool} {s before : Bytes}
    {m : Marker} (h : splitMarker? comments labels atStart s = some (before, m)) : before <+: s := by
  induction s generalizing atStart before with
  | nil =>
    rw [splitMarker?] at h
    split at h
    · obtain ⟨_, -, heq⟩ := Option.map_eq_some_iff.1 h
      obtain ⟨rfl, -⟩ := Prod.mk.inj heq
      exact List.prefix_rfl
    · cases h
  | cons c rest ih =>
    rw [splitMarker?] at h
    simp only at h
    split at h
    · obtain ⟨rfl, -⟩ := Prod.mk.inj (Option.some.inj h)
      exact List.nil_prefix
    · obtain ⟨⟨before', m'⟩, hrest, heq⟩ := Option.map_eq_some_iff.1 h
      obtain ⟨rfl, rfl⟩ := Prod.mk.inj heq
      exact List.cons_prefix_cons.2 ⟨rfl, ih hrest⟩

theorem isPrefix_stripMarkersWithin (comments labels : List Bytes) (bound : Nat) (s : Bytes)
    (found : List Marker) : (stripMarkersWithin comments labels bound s found).1 <+: s := by
  fun_induction stripMarkersWithin comments labels bound s found with
  | case1 => exact List.prefix_rfl
  | case2 => exact List.prefix_rfl
  | case3 bound s found before m hsplit ih =>
    exact (ih.trans (isPrefix_trimEnd _ _)).trans (isPrefix_splitMarker hsplit)

theorem isPrefix_stripMarkers (comments labels : List Bytes) (s : Bytes) :
    (stripMarkers comments labels s).1 <+: s := by
  rw [stripMarkers]
  split
  · exact List.prefix_rfl
  · exact isPrefix_stripMarkersWithin _ _ _ _ _

theorem isPrefix_of_scanLinesFrom {comments labels ls : List Bytes} {number : Nat}
    {active contributed active' contributed' : List Bytes} {kept : List SourceLine}
    (hscan : scanLinesFrom comments labels number active contributed ls =
      .ok (kept, active', contributed')) : ∀ l ∈ kept, ∃ line ∈ ls, l.text <+: line := by
  induction ls generalizing number active contributed kept active' contributed' with
  | nil =>
    obtain ⟨rfl, -⟩ := Prod.mk.inj (Except.ok.inj hscan)
    simp
  | cons line rest ih =>
    have hrest : ∀ {l : SourceLine}, (∃ line ∈ rest, l.text <+: line) →
        ∃ source ∈ line :: rest, l.text <+: source := by
      rintro l ⟨source, hsource, hl⟩
      exact ⟨source, List.mem_cons_of_mem _ hsource, hl⟩
    have htext : (stripMarkers comments labels (trimEnd isBlank line)).1 <+: line :=
      (isPrefix_stripMarkers _ _ _).trans (isPrefix_trimEnd _ _)
    rw [scanLinesFrom] at hscan
    generalize stripMarkers comments labels (trimEnd isBlank line) = stripped at hscan htext
    obtain ⟨text, markers⟩ := stripped
    simp only at hscan
    cases hstate : LabelState.applyAll number { active, current := active } markers with
    | error refusal =>
      rw [hstate] at hscan
      cases hscan
    | ok state =>
      rw [hstate] at hscan
      change (if _ then _ else _) = _ at hscan
      split at hscan
      · exact fun l hl => hrest (ih hscan l hl)
      · cases hmore : scanLinesFrom comments labels (number + 1) state.active
            (contributed ++ state.current) rest with
        | error refusal =>
          rw [hmore] at hscan
          cases hscan
        | ok found =>
          rw [hmore] at hscan
          obtain ⟨rfl, -⟩ := Prod.mk.inj (Except.ok.inj hscan)
          exact List.forall_mem_cons.2
            ⟨⟨line, List.mem_cons_self, htext⟩, fun l hl => hrest (ih hmore l hl)⟩

theorem isPrefix_of_scanLines {text : Bytes} {labels comments : List Bytes} {kept : List SourceLine}
    (hscan : scanLines text labels comments = .ok kept) :
    ∀ l ∈ kept, ∃ line ∈ physicalLines text, l.text <+: line := by
  rw [scanLines] at hscan
  cases hfrom : scanLinesFrom comments labels 1 [] [] (physicalLines text) with
  | error refusal =>
    rw [hfrom] at hscan
    cases hscan
  | ok found =>
    rw [hfrom] at hscan
    change ((checkLabels found.2.1 found.2.2 labels).bind fun _ => .ok found.1) = _ at hscan
    cases hcheck : checkLabels found.2.1 found.2.2 labels with
    | error refusal =>
      rw [hcheck] at hscan
      cases hscan
    | ok u =>
      rw [hcheck] at hscan
      obtain rfl : found.1 = kept := Except.ok.inj hscan
      exact isPrefix_of_scanLinesFrom hfrom

theorem exists_of_mem_combine {scanned : List SourceLine} {spec : Option LineSpec}
    {haveLabels union : Bool} {total : Nat} {selected : List Bytes}
    (hcombine : combine scanned spec haveLabels union total = .ok selected) :
    ∀ l ∈ selected, l = [] ∨ ∃ line ∈ scanned, line.text = l := by
  have hfilter : ∀ p : SourceLine → Bool, ∀ l ∈ (scanned.filter p).map (·.text),
      ∃ line ∈ scanned, line.text = l := by
    intro p l hl
    obtain ⟨line, hline, rfl⟩ := List.mem_map.1 hl
    exact ⟨line, List.mem_of_mem_filter hline, rfl⟩
  rw [combine] at hcombine
  split at hcombine
  · split at hcombine
    · cases hcombine
    · exact Except.ok.inj hcombine ▸ fun l hl => .inr (hfilter _ l hl)
  · split at hcombine
    · exact Except.ok.inj hcombine ▸ fun l hl => .inr (hfilter _ l hl)
    · split at hcombine
      · split at hcombine
        · cases hcombine
        · exact Except.ok.inj hcombine ▸ fun l hl => .inr (hfilter _ l hl)
      · split at hcombine
        · cases hcombine
        · obtain rfl := Except.ok.inj hcombine
          intro l hl
          obtain ⟨i, -, rfl⟩ := List.mem_map.1 hl
          rw [List.getD_eq_getElem?_getD]
          cases hget : ((scanned.filter (·.selected)).map (·.text))[i - 1]? with
          | none => exact .inl rfl
          | some l => exact .inr (hfilter _ l (List.mem_of_getElem? hget))

/-- Selecting begins with lines of the file: a selected line begins one of them, or is empty. -/
theorem isPrefix_of_selected {text : Bytes} {labels comments : List Bytes} {scanned : List SourceLine}
    (hscan : scanLines text labels comments = .ok scanned) {spec : Option LineSpec}
    {haveLabels union : Bool} {total : Nat} {selected : List Bytes}
    (hcombine : combine scanned spec haveLabels union total = .ok selected) :
    ∀ l ∈ selected, l = [] ∨ ∃ line ∈ physicalLines text, l <+: line := by
  intro l hl
  apply (exists_of_mem_combine hcombine l hl).imp_right
  rintro ⟨line, hline, rfl⟩
  exact isPrefix_of_scanLines hscan line hline

/-! ## Normal form -/

theorem tidy_squeezeFrom {ls : List Bytes} (h : TidyLines ls) (started pending : Bool) :
    TidyLines (squeezeFrom started pending ls) := by
  induction ls generalizing started pending with
  | nil => simp [squeezeFrom, TidyLines]
  | cons l rest ih =>
    have hrest := ih fun l hl => h l (List.mem_cons_of_mem _ hl)
    have hline : Tidy (trimEnd isBlank l) := (h l List.mem_cons_self).start (isPrefix_trimEnd _ _)
    simp only [squeezeFrom]
    split
    · exact hrest _ _
    · split
      · exact List.forall_mem_cons.2 ⟨tidy_nil, List.forall_mem_cons.2 ⟨hline, hrest _ _⟩⟩
      · exact List.forall_mem_cons.2 ⟨hline, hrest _ _⟩

theorem tidy_squeeze {ls : List Bytes} (h : TidyLines ls) : TidyLines (squeeze ls) :=
  tidy_squeezeFrom h false false

theorem isPrefix_commonStart (a b : Bytes) : commonStart a b <+: a := by
  fun_induction commonStart a b with
  | case1 as b bs ih => exact List.cons_prefix_cons.2 ⟨rfl, ih⟩
  | case2 => exact List.nil_prefix
  | case3 => exact List.nil_prefix

theorem isBlank_of_commonIndentation {ls : List Bytes} {shared : Bytes}
    (h : commonIndentation ls = some shared) : ∀ c ∈ shared, isBlank c := by
  induction ls generalizing shared with
  | nil => cases h
  | cons l rest ih =>
    have hindent : ∀ c ∈ indentation l, isBlank c := fun c hc => List.mem_takeWhile_imp hc
    rw [commonIndentation] at h
    split at h
    · exact ih h
    · split at h
      · exact Option.some.inj h ▸ hindent
      · obtain rfl := Option.some.inj h
        exact fun c hc => hindent c ((isPrefix_commonStart _ _).subset hc)

theorem lt_of_isBlank {c : UInt8} (h : isBlank c) : c < 0x80 := by
  rw [isBlank, Bool.or_eq_true, beq_iff_eq, beq_iff_eq] at h
  rcases h with rfl | rfl <;> decide

theorem exists_dedent_eq (ls : List Bytes) :
    ∃ shared, (∀ c ∈ shared, isBlank c = true) ∧ dedent ls = ls.map (withoutStart shared) := by
  rw [dedent]
  split
  · exact ⟨[], List.forall_mem_nil _, (List.map_id' ls).symm⟩
  · next shared hshared => exact ⟨shared, isBlank_of_commonIndentation hshared, rfl⟩

theorem tidy_dedent {ls : List Bytes} (h : TidyLines ls) : TidyLines (dedent ls) := by
  obtain ⟨shared, hblank, heq⟩ := exists_dedent_eq ls
  rw [heq]
  intro l hl
  obtain ⟨l, hmem, rfl⟩ := List.mem_map.1 hl
  have hline := h l hmem
  rcases withoutStart_cases shared l with hcut | ⟨-, hkept⟩
  · rw [hcut] at hline
    exact hline.of_ended_append (ended_of_ascii fun c hc => lt_of_isBlank (hblank c hc))
  · rwa [hkept]

theorem tidy_textLines {s : Bytes} (h : Tidy s) : TidyLines (textLines s) :=
  Tidy.splitOn (by decide) (h.start (isPrefix_withoutEnd _ _))

theorem tidy_unlines {ls : List Bytes} (h : TidyLines ls) : Tidy (unlines ls) :=
  Tidy.joinWith (tidy_of_isAscii (by decide)) h

/-! ## Comments of brace languages -/

theorem cut?_eq_some {pattern s before after : Bytes} (h : cut? pattern s = some (before, after)) :
    s = before ++ (pattern ++ after) := by
  induction s generalizing before with
  | nil =>
    rw [cut?] at h
    split at h
    · next hempty =>
      obtain ⟨rfl, rfl⟩ := Prod.mk.inj (Option.some.inj h)
      simpa using hempty
    · cases h
  | cons c rest ih =>
    rw [cut?] at h
    split at h
    · next after' hcut =>
      obtain ⟨rfl, rfl⟩ := Prod.mk.inj (Option.some.inj h)
      exact (List.isPrefixOf?_eq_some_iff_append_eq.1 hcut).symm
    · obtain ⟨⟨before', after'⟩, hrest, heq⟩ := Option.map_eq_some_iff.1 h
      obtain ⟨rfl, rfl⟩ := Prod.mk.inj heq
      rw [ih hrest]
      rfl

theorem drop_length_takeWhile (p : UInt8 → Bool) (s : Bytes) :
    s.drop (s.takeWhile p).length = s.dropWhile p := by
  induction s with
  | nil => rfl
  | cons c rest ih =>
    by_cases hc : p c <;> simp [hc, ih]

theorem take_length_takeWhile (p : UInt8 → Bool) (s : Bytes) :
    s.take (s.takeWhile p).length = s.takeWhile p := (List.prefix_iff_eq_take.1 (List.takeWhile_prefix p)).symm

theorem notMem_takeWhile_newline {s : Bytes} : 10 ∉ s.takeWhile (!isNewline ·) := by
  intro h
  have hnot := List.mem_takeWhile_imp h
  exact absurd hnot (by decide)

theorem eq_newline_of_dropWhile {s rest : Bytes} {c : UInt8}
    (h : s.dropWhile (!isNewline ·) = c :: rest) : c = 10 := by
  have hc := List.head?_dropWhile_not (!isNewline ·) s
  rw [h] at hc
  have hnewline : isNewline c = true := by simpa using hc
  exact eq_of_beq hnewline

theorem head?_dropWhile_newline {s : Bytes} : ∀ c ∈ (s.dropWhile (!isNewline ·)).head?, c = 10 := by
  intro c hc
  obtain ⟨t, ht⟩ := List.head?_eq_some_iff.1 hc
  exact eq_newline_of_dropWhile ht

/-- What is left at the end of a line does not begin inside a character. -/
theorem fresh_dropWhile_newline (s : Bytes) : Fresh (s.dropWhile (!isNewline ·)) := by
  intro c rest h
  rw [eq_newline_of_dropWhile h]
  decide

/-- How a piece of a source that begins with `c :: rest` goes together with the number of its bytes. A
comment ends before a line feed, or behind its sign or with the source; a literal is what it takes. -/
def Piece.Fits (c : UInt8) (rest : Bytes) (n : Nat) : Piece → Prop
  | .newline => c = 10 ∧ n = 0
  | .lineComment _ => rest.drop n = rest.dropWhile (!isNewline ·)
  | .blockComment _ => rest.drop n = [] ∨ Behind (rest.drop n) rest
  | .literal text => text ++ rest.drop n = c :: rest
  | .byte d => d = c ∧ n = 0

theorem fits_of_firstPiece {raw : Bool} {c : UInt8} {rest : Bytes} {piece : Piece} {n : Nat}
    (h : firstPiece raw c rest = (piece, n)) : piece.Fits c rest n := by
  have hliteral : ∀ n, (c :: rest.take n) ++ rest.drop n = c :: rest := fun n =>
    congrArg (c :: ·) (List.take_append_drop n rest)
  unfold firstPiece at h
  split at h
  · next hc =>
    obtain ⟨rfl, rfl⟩ := Prod.mk.inj h
    exact ⟨hc, rfl⟩
  · split at h
    · obtain ⟨rfl, rfl⟩ := Prod.mk.inj h
      exact drop_length_takeWhile _ rest
    · split at h
      · next hc =>
        obtain ⟨rfl, rfl⟩ := Prod.mk.inj h
        obtain ⟨rest, rfl⟩ : ∃ r, rest = 42 :: r := by
          cases rest with
          | nil => cases hc.2
          | cons d r => exact ⟨r, congrArg (· :: r) (Option.some.inj hc.2)⟩
        split
        · next inside after hcut =>
          right
          have hsign : bytes "*/" = [42, 47] := by decide
          have hcut : rest = inside ++ ([42, 47] ++ after) := hsign ▸ cut?_eq_some hcut
          have hrest : 42 :: rest = (42 :: inside ++ [42, 47]) ++ after := by simp [hcut]
          have hdrop : (42 :: rest).drop (inside.length + 3) = after := by
            rw [hrest]
            exact List.drop_left' (by simp)
          rw [hdrop]
          exact ⟨42 :: inside ++ [42], 47, by decide, [], by simp [hrest]⟩
        · exact .inl (List.drop_length ..)
      · split at h
        · obtain ⟨rfl, rfl⟩ := Prod.mk.inj h
          exact hliteral _
        · split at h
          · obtain ⟨rfl, rfl⟩ := Prod.mk.inj h
            exact hliteral _
          · obtain ⟨rfl, rfl⟩ := Prod.mk.inj h
            exact ⟨rfl, rfl⟩

/-- The end of a line of a tidy text is tidy, and so is the next line. -/
theorem tidy_dropWhile_newline {p s : Bytes} (h : Tidy (p ++ s)) :
    Tidy (s.dropWhile (!isNewline ·)) ∧ Tidy ((s.dropWhile (!isNewline ·)).drop 1) := by
  have hsuffix : s.dropWhile (!isNewline ·) <:+ p ++ s :=
    (List.dropWhile_suffix _).trans (List.suffix_append p s)
  have hend := h.piece hsuffix.isInfix (fresh_dropWhile_newline s)
  refine ⟨hend, ?_⟩
  cases hcut : s.dropWhile (!isNewline ·) with
  | nil => exact tidy_nil
  | cons c rest =>
    rw [hcut] at hend
    exact hend.of_cons (eq_newline_of_dropWhile hcut ▸ by decide)

/-- What follows a block comment in a tidy text is tidy. -/
theorem tidy_drop_comment {c : UInt8} {rest p : Bytes} {n : Nat} (h : Tidy (p ++ c :: rest))
    (hend : rest.drop n = [] ∨ Behind (rest.drop n) rest) : Tidy (rest.drop n) := by
  rcases hend with hnil | hbehind
  · rw [hnil]
    exact tidy_nil
  · have hsuffix : rest <:+ p ++ c :: rest :=
      (List.suffix_cons c rest).trans (List.suffix_append p _)
    exact (hbehind.within hsuffix.isInfix).tidy h

/-- The text written so far and the rest of the source stay tidy together. -/
theorem tidy_stripCommentsFrom (raw : Bool) (out line s : Bytes) (h : Tidy (out ++ (line ++ s))) :
    Tidy (stripCommentsFrom raw out line s) := by
  fun_induction stripCommentsFrom raw out line s with
  | case1 => simpa using h
  | case2 out line c rest n after hpiece ih =>
    obtain ⟨rfl, rfl⟩ : c = 10 ∧ n = 0 := fits_of_firstPiece hpiece
    exact ih (by simpa [after] using h)
  | case3 out line c rest n after text _ hpiece ih =>
    have hout : Tidy out := h.start (List.prefix_append _ _)
    have hcontext : Tidy ((out ++ line ++ [c]) ++ rest) := by simpa using h
    have hafter : after = rest.dropWhile (!isNewline ·) := fits_of_firstPiece hpiece
    rw [hafter] at ih ⊢
    exact ih (hout.append (tidy_dropWhile_newline hcontext).2)
  | case4 out line c rest n after text _ hpiece ih =>
    have hcontext : Tidy ((out ++ line ++ [c]) ++ rest) := by simpa using h
    have hafter : after = rest.dropWhile (!isNewline ·) := fits_of_firstPiece hpiece
    have hwritten : out ++ trimEnd isBlank line <+: out ++ line :=
      (List.prefix_append_right_inj out).2 (isPrefix_trimEnd _ _)
    rw [hafter] at ih ⊢
    refine ih ?_
    rw [← List.append_assoc] at h ⊢
    exact ((h.start (List.prefix_append _ _)).start hwritten).append
      (tidy_dropWhile_newline hcontext).1
  | case5 out line c rest n after text tail _ hpiece ih =>
    have hout : Tidy out := h.start (List.prefix_append _ _)
    rw [← List.append_assoc] at h
    have hafter : Tidy after := tidy_drop_comment h (fits_of_firstPiece hpiece)
    have hnext : after.drop (tail.length + 1) = (after.dropWhile (!isNewline ·)).drop 1 := by
      rw [← List.drop_drop, drop_length_takeWhile]
    rw [hnext] at ih ⊢
    exact ih (hout.append (tidy_dropWhile_newline (p := []) hafter).2)
  | case6 out line c rest n after text tail _ count out' line' hout apart hpiece ih =>
    rw [← List.append_assoc] at h
    have hafter : Tidy after := tidy_drop_comment h (fits_of_firstPiece hpiece)
    have hwritten : Tidy (out ++ line) := h.start (List.prefix_append _ _)
    have hwritten' : Tidy (out' ++ line') := by
      split at hout
      · obtain ⟨rfl, rfl⟩ := Prod.mk.inj hout
        exact hwritten
      · obtain ⟨rfl, rfl⟩ := Prod.mk.inj hout
        have htrimmed : out ++ trimEnd isBlank line <+: out ++ line :=
          (List.prefix_append_right_inj out).2 (isPrefix_trimEnd _ _)
        rw [List.append_nil]
        refine (hwritten.start htrimmed).append (tidy_of_ascii fun c hc => ?_)
        rw [List.eq_of_mem_replicate hc]
        decide
    refine ih ?_
    split
    · rw [← List.append_assoc, ← List.append_assoc]
      exact (hwritten'.append (tidy_of_isAscii (by decide))).append hafter
    · rw [← List.append_assoc]
      exact hwritten'.append hafter
  | case7 out line c rest n after text hpiece ih =>
    have htext : text ++ rest.drop n = c :: rest := fits_of_firstPiece hpiece
    refine ih ?_
    rw [List.append_assoc, htext]
    exact h
  | case8 out line c rest n after d hpiece ih =>
    obtain ⟨rfl, rfl⟩ : d = c ∧ n = 0 := fits_of_firstPiece hpiece
    exact ih (by simpa [after] using h)

theorem tidy_stripComments (raw : Bool) {source : Bytes} (h : Tidy source) :
    Tidy (stripComments raw source) := tidy_stripCommentsFrom raw [] [] source h

end Bindery.Listing
