import Bindery.Proofs.Listing.Selection
import Bindery.Proofs.Text.Space

/-!
# The pieces of a source

A source of a brace language is cut from left to right. `Starts` says what its first piece can be: a line
comment goes on to the end of its line, a block comment to the first closing sign behind the opening one,
or to the end of the source; literals are as long as their quotes make them, and everything else is taken
byte by byte. There is one cut of this kind for every source (`splits_iff`).
-/

namespace Bindery.Listing

open Text

def Piece.text : Piece → Bytes
  | .newline => [10]
  | .lineComment text => text
  | .blockComment text => text
  | .literal text => text
  | .byte c => [c]

def Piece.isComment : Piece → Bool
  | .lineComment _ => true
  | .blockComment _ => true
  | _ => false

def joined (ps : List Piece) : Bytes := ps.flatMap Piece.text

/-- The bytes of the pieces that are no comments. -/
def kept (ps : List Piece) : Bytes := joined (ps.filter (!·.isComment))

def literals (ps : List Piece) : List Bytes :=
  ps.filterMap fun
    | .literal text => some text
    | _ => none

/-! ## Where a pattern stands first -/

/-- Behind `before`, a pattern stands for the first time. -/
def FirstAfter (pattern before : Bytes) : Prop :=
  ∀ x y, before ++ pattern = x ++ (pattern ++ y) → y = []

theorem firstAfter_nil (pattern : Bytes) : FirstAfter pattern [] := by
  intro x y h
  have hlength := congrArg List.length h
  simp only [List.nil_append, List.length_append] at hlength
  apply List.eq_nil_of_length_eq_zero
  omega

theorem firstAfter_cons {pattern before : Bytes} {c : UInt8} :
    FirstAfter pattern (c :: before) ↔
      FirstAfter pattern before ∧ ¬ pattern <+: c :: before ++ pattern := by
  constructor
  · intro h
    constructor
    · intro x y heq
      exact h (c :: x) y (by rw [List.cons_append, heq, List.cons_append])
    · rintro ⟨y, hy⟩
      have hnil := h [] y hy.symm
      have hlength := congrArg List.length hy
      rw [hnil] at hlength
      simp only [List.length_append, List.length_cons, List.length_nil] at hlength
      omega
  · rintro ⟨hbefore, hnot⟩ x y heq
    rcases x with - | ⟨d, x⟩
    · exact absurd ⟨y, heq.symm⟩ hnot
    · rw [List.cons_append, List.cons_append] at heq
      obtain ⟨rfl, htail⟩ := List.cons.inj heq
      exact hbefore x y htail

theorem isPrefixOf?_eq_none_iff {pattern s : Bytes} :
    pattern.isPrefixOf? s = none ↔ ¬ pattern <+: s := by
  constructor
  · rintro h ⟨t, ht⟩
    rw [List.isPrefixOf?_eq_some_iff_append_eq.2 ht] at h
    cases h
  · intro h
    cases hs : pattern.isPrefixOf? s with
    | none => rfl
    | some t => exact absurd ⟨t, List.isPrefixOf?_eq_some_iff_append_eq.1 hs⟩ h

theorem firstAfter_of_cut {pattern s before after : Bytes} (h : cut? pattern s = some (before, after)) :
    FirstAfter pattern before := by
  induction s generalizing before with
  | nil =>
    rw [cut?] at h
    split at h
    · cases h
      exact firstAfter_nil pattern
    · cases h
  | cons c rest ih =>
    have hs := cut?_eq_some h
    rw [cut?] at h
    split at h
    · cases h
      exact firstAfter_nil pattern
    · next hnone =>
      obtain ⟨⟨before', after'⟩, hrest, heq⟩ := Option.map_eq_some_iff.1 h
      obtain ⟨rfl, rfl⟩ := Prod.mk.inj heq
      refine firstAfter_cons.2 ⟨ih hrest, fun hleads => isPrefixOf?_eq_none_iff.1 hnone ?_⟩
      rw [hs, ← List.append_assoc]
      exact hleads.trans (List.prefix_append _ _)

theorem cut?_append (pattern after : Bytes) :
    cut? pattern (pattern ++ after) = some ([], after) := by
  have hleads : pattern.isPrefixOf? (pattern ++ after) = some after :=
    List.isPrefixOf?_eq_some_iff_append_eq.2 rfl
  cases hs : pattern ++ after with
  | nil =>
    obtain ⟨rfl, rfl⟩ := List.append_eq_nil_iff.1 hs
    rfl
  | cons c rest =>
    rw [hs] at hleads
    rw [cut?, hleads]

theorem FirstAfter.cut_eq {pattern before : Bytes} (h : FirstAfter pattern before) (after : Bytes) :
    cut? pattern (before ++ (pattern ++ after)) = some (before, after) := by
  induction before with
  | nil => exact cut?_append pattern after
  | cons c before ih =>
    obtain ⟨hbefore, hnot⟩ := firstAfter_cons.1 h
    have hnone : pattern.isPrefixOf? (c :: (before ++ (pattern ++ after))) = none := by
      apply isPrefixOf?_eq_none_iff.2
      intro hleads
      apply hnot
      apply List.prefix_of_prefix_length_le hleads
      · rw [List.cons_append, ← List.append_assoc]
        exact List.cons_prefix_cons.2 ⟨rfl, List.prefix_append _ _⟩
      · rw [List.length_append]
        omega
    rw [List.cons_append, cut?, hnone, ih hbefore]
    rfl

/-- Cutting around a pattern takes the first place where it stands. -/
theorem cut?_eq_some_iff {pattern s before after : Bytes} :
    cut? pattern s = some (before, after) ↔
      s = before ++ (pattern ++ after) ∧ FirstAfter pattern before := by
  constructor
  · exact fun h => ⟨cut?_eq_some h, firstAfter_of_cut h⟩
  · rintro ⟨rfl, hfirst⟩
    exact hfirst.cut_eq after

theorem cut?_eq_none_iff {pattern s : Bytes} (hne : pattern ≠ []) :
    cut? pattern s = none ↔ ¬ pattern <:+: s := by
  induction s with
  | nil => simp [cut?, hne]
  | cons c rest ih =>
    rw [cut?, List.infix_cons_iff, not_or, ← ih]
    split
    · next after hafter =>
      have hleads : pattern <+: c :: rest := ⟨after, List.isPrefixOf?_eq_some_iff_append_eq.1 hafter⟩
      simp [hleads]
    · next hnone => simp [isPrefixOf?_eq_none_iff.1 hnone]

/-! ## Cutting a source -/

/-- A source that is not empty starts with a piece, and goes on with the rest. -/
inductive Starts (raw : Bool) : Bytes → Piece → Bytes → Prop
  | newline (rest : Bytes) : Starts raw (10 :: rest) .newline rest
  | lineComment {text rest : Bytes} (h : 10 ∉ text) (hrest : ∀ c ∈ rest.head?, c = 10) :
      Starts raw (47 :: 47 :: (text ++ rest)) (.lineComment (47 :: 47 :: text)) rest
  | blockComment {inside : Bytes} (h : FirstAfter [42, 47] inside) (rest : Bytes) :
      Starts raw (47 :: 42 :: (inside ++ 42 :: 47 :: rest))
        (.blockComment (47 :: 42 :: (inside ++ [42, 47]))) rest
  | openComment {inside : Bytes} (h : ¬ [42, 47] <:+: inside) :
      Starts raw (47 :: 42 :: inside) (.blockComment (47 :: 42 :: inside)) []
  | string {quote : UInt8} {text rest : Bytes} (hquote : quote = 34 ∨ quote = 96 ∧ raw = true)
      (h : stringTail quote (text ++ rest) = text.length) :
      Starts raw (quote :: (text ++ rest)) (.literal (quote :: text)) rest
  | character {text rest : Bytes} (h : (charTail? 11 (text ++ rest)).getD 0 = text.length) :
      Starts raw (39 :: (text ++ rest)) (.literal (39 :: text)) rest
  | byte {c : UInt8} {rest : Bytes} (hnewline : c ≠ 10) (hdouble : c ≠ 34) (hsingle : c ≠ 39)
      (hraw : ¬ (c = 96 ∧ raw = true)) (hcomment : c = 47 → ∀ d ∈ rest.head?, d ≠ 47 ∧ d ≠ 42) :
      Starts raw (c :: rest) (.byte c) rest

/-- A source cut into pieces. -/
inductive Splits (raw : Bool) : Bytes → List Piece → Prop
  | nil : Splits raw [] []
  | cons {s rest : Bytes} {p : Piece} {ps : List Piece} (h : Starts raw s p rest)
      (hrest : Splits raw rest ps) : Splits raw s (p :: ps)

section

variable {raw : Bool} {c : UInt8} {s rest : Bytes} {p : Piece} {ps : List Piece}

theorem Starts.eq_append (h : Starts raw s p rest) : s = p.text ++ rest := by
  cases h <;> simp [Piece.text]

theorem Splits.eq_joined (h : Splits raw s ps) : s = joined ps := by
  induction h with
  | nil => rfl
  | cons h _ ih => rw [h.eq_append, ih, joined, joined, List.flatMap_cons]

theorem stringTail_le (quote : UInt8) (s : Bytes) : stringTail quote s ≤ s.length := by
  fun_induction stringTail quote s with
  | case1 => simp
  | case2 => simp
  | case3 _ _ _ _ ih => simp only [List.length_cons]; omega
  | case4 => simp
  | case5 => simp
  | case6 _ _ _ _ _ ih => simp only [List.length_cons]; omega

theorem exists_of_charTail? {budget n : Nat} {s : Bytes} (h : charTail? budget s = some n) :
    ∃ inside rest, s = inside ++ 39 :: rest ∧ n = inside.length + 1 ∧ n ≤ budget := by
  induction budget using Nat.strongRecOn generalizing s n with
  | ind budget ih =>
    rcases budget with - | budget
    · cases h
    rcases s with - | ⟨c, s⟩
    · cases h
    unfold charTail? at h
    split at h
    · split at h
      · next budget' d s =>
        obtain ⟨m, hm, rfl⟩ := Option.map_eq_some_iff.1 h
        obtain ⟨inside, rest, rfl, rfl, hle⟩ := ih budget' (by omega) hm
        exact ⟨c :: d :: inside, rest, rfl, rfl, by omega⟩
      · cases h
    split at h
    · next hc =>
      cases h
      exact ⟨[], s, by rw [hc]; rfl, rfl, by omega⟩
    split at h
    · cases h
    · obtain ⟨m, hm, rfl⟩ := Option.map_eq_some_iff.1 h
      obtain ⟨inside, rest, rfl, rfl, hle⟩ := ih budget (by omega) hm
      exact ⟨c :: inside, rest, rfl, rfl, by omega⟩

theorem charTail?_le {budget n : Nat} {s : Bytes} (h : charTail? budget s = some n) : n ≤ s.length := by
  obtain ⟨inside, rest, rfl, rfl, -⟩ := exists_of_charTail? h
  simp only [List.length_append, List.length_cons]
  omega

/-- The first piece, with the bytes that decide about it by their numbers. -/
theorem firstPiece_eq (raw : Bool) (c : UInt8) (rest : Bytes) : firstPiece raw c rest =
    if c = 10 then (.newline, 0)
    else if c = 47 ∧ rest.head? = some 47 then
      (.lineComment (c :: rest.take (rest.takeWhile (!isNewline ·)).length),
        (rest.takeWhile (!isNewline ·)).length)
    else if c = 47 ∧ rest.head? = some 42 then
      let n :=
        match cut? [42, 47] (rest.drop 1) with
        | some (inside, _) => inside.length + 3
        | none => rest.length
      (.blockComment (c :: rest.take n), n)
    else if c = 34 ∨ (c = 96 ∧ raw) then
      (.literal (c :: rest.take (stringTail c rest)), stringTail c rest)
    else if c = 39 then
      (.literal (c :: rest.take ((charTail? 11 rest).getD 0)), (charTail? 11 rest).getD 0)
    else (.byte c, 0) := rfl

theorem starts_string {quote : UInt8} (hquote : quote = 34 ∨ quote = 96 ∧ raw = true) (rest : Bytes) :
    Starts raw (quote :: rest) (.literal (quote :: rest.take (stringTail quote rest)))
      (rest.drop (stringTail quote rest)) := by
  have hle := stringTail_le quote rest
  generalize hn : stringTail quote rest = n at hle ⊢
  have h : Starts raw (quote :: (rest.take n ++ rest.drop n)) (.literal (quote :: rest.take n))
      (rest.drop n) :=
    .string hquote (by rw [List.take_append_drop, List.length_take, Nat.min_eq_left hle, hn])
  rwa [List.take_append_drop] at h

theorem starts_character (rest : Bytes) :
    Starts raw (39 :: rest) (.literal (39 :: rest.take ((charTail? 11 rest).getD 0)))
      (rest.drop ((charTail? 11 rest).getD 0)) := by
  have hle : (charTail? 11 rest).getD 0 ≤ rest.length := by
    cases h : charTail? 11 rest with
    | none => exact Nat.zero_le _
    | some n => exact charTail?_le h
  generalize hn : (charTail? 11 rest).getD 0 = n at hle ⊢
  have h : Starts raw (39 :: (rest.take n ++ rest.drop n)) (.literal (39 :: rest.take n)) (rest.drop n) :=
    .character (by rw [List.take_append_drop, List.length_take, Nat.min_eq_left hle, hn])
  rwa [List.take_append_drop] at h

/-- The first piece that is cut off is one that the source starts with. -/
theorem starts_firstPiece (raw : Bool) (c : UInt8) (rest : Bytes) :
    Starts raw (c :: rest) (firstPiece raw c rest).1 (rest.drop (firstPiece raw c rest).2) := by
  rw [firstPiece_eq]
  split
  · next hc => exact hc ▸ .newline rest
  next hnewline =>
  split
  · next hc =>
    obtain ⟨rfl, hhead⟩ := hc
    obtain ⟨r, rfl⟩ := List.head?_eq_some_iff.1 hhead
    have htext : r.take (r.takeWhile (!isNewline ·)).length = r.takeWhile (!isNewline ·) :=
      (List.prefix_iff_eq_take.1 (List.takeWhile_prefix _)).symm
    have hstarts := @Starts.lineComment raw (r.takeWhile (!isNewline ·)) (r.dropWhile (!isNewline ·))
      notMem_takeWhile_newline head?_dropWhile_newline
    rw [List.takeWhile_append_dropWhile] at hstarts
    have hslash : isNewline 47 = false := by decide
    simpa [hslash, htext, drop_length_takeWhile] using hstarts
  next hline =>
  split
  · next hc =>
    obtain ⟨rfl, hhead⟩ := hc
    obtain ⟨r, rfl⟩ := List.head?_eq_some_iff.1 hhead
    rw [List.drop_one, List.tail_cons]
    cases hcut : cut? [42, 47] r with
    | none =>
      have hstarts := @Starts.openComment raw _ ((cut?_eq_none_iff (by simp)).1 hcut)
      simpa using hstarts
    | some cut =>
      obtain ⟨hr, hfirst⟩ := cut?_eq_some_iff.1 hcut
      have hstarts := @Starts.blockComment raw _ hfirst cut.2
      have hcomment : r = (cut.1 ++ [42, 47]) ++ cut.2 := by rw [hr, List.append_assoc]
      have hlength : cut.1.length + 2 = (cut.1 ++ [42, 47]).length := by simp
      have htake : r.take (cut.1.length + 2) = cut.1 ++ [42, 47] := by
        rw [hlength, hcomment, List.take_left]
      have hdrop : r.drop (cut.1.length + 2) = cut.2 := by
        rw [hlength, hcomment, List.drop_left]
      dsimp only
      rw [List.take_succ_cons, List.drop_succ_cons, htake, hdrop, hr]
      exact hstarts
  next hblock =>
  split
  · next hc => exact starts_string hc rest
  next hstring =>
  split
  · next hc => exact hc ▸ starts_character rest
  next hcharacter =>
  refine .byte hnewline (fun hc => hstring (.inl hc)) hcharacter (fun hc => hstring (.inr hc)) ?_
  intro hc d hd
  constructor
  · rintro rfl
    exact hline ⟨hc, hd⟩
  · rintro rfl
    exact hblock ⟨hc, hd⟩

theorem takeWhile_newline_append {text rest : Bytes} (h : 10 ∉ text) (hrest : ∀ c ∈ rest.head?, c = 10) :
    (text ++ rest).takeWhile (!isNewline ·) = text := by
  have htext : ∀ c ∈ text, (!isNewline c) = true := by
    intro c hc
    have hne : c ≠ 10 := by
      rintro rfl
      exact h hc
    show (!(c == 10)) = true
    simpa using hne
  have hend : rest.takeWhile (!isNewline ·) = [] := by
    cases rest with
    | nil => rfl
    | cons c rest =>
      rw [hrest c rfl]
      rfl
  rw [List.takeWhile_append_of_pos htext, hend, List.append_nil]

/-- A source starts with no other piece than the one that is cut off. -/
theorem firstPiece_of_starts (h : Starts raw (c :: rest) p s) :
    ∃ n, firstPiece raw c rest = (p, n) ∧ rest.drop n = s := by
  cases h with
  | newline => exact ⟨0, by simp [firstPiece_eq], rfl⟩
  | @lineComment text _ h hrest =>
    have htext : (47 :: text ++ s).takeWhile (!isNewline ·) = 47 :: text := by
      apply takeWhile_newline_append _ hrest
      simpa using h
    rw [List.cons_append] at htext
    refine ⟨text.length + 1, ?_, by simp⟩
    simp [firstPiece_eq, htext]
  | @blockComment inside h =>
    have hcut : cut? [42, 47] (inside ++ 42 :: 47 :: s) = some (inside, s) :=
      cut?_eq_some_iff.2 ⟨rfl, h⟩
    refine ⟨inside.length + 3, ?_, by simp [List.drop_append]⟩
    have htake : inside.take (inside.length + 2) = inside := List.take_of_length_le (Nat.le_add_right _ _)
    simp [firstPiece_eq, hcut, List.take_append, htake]
  | @openComment inside h =>
    have hcut : cut? [42, 47] inside = none := (cut?_eq_none_iff (by simp)).2 h
    refine ⟨inside.length + 1, ?_, by simp⟩
    simp [firstPiece_eq, hcut]
  | @string _ text _ hquote h =>
    refine ⟨text.length, ?_, by simp⟩
    rcases hquote with rfl | ⟨rfl, rfl⟩
    · simp [firstPiece_eq, h]
    · simp [firstPiece_eq, h]
  | @character text _ h =>
    refine ⟨text.length, ?_, by simp⟩
    simp [firstPiece_eq, h]
  | byte hnewline hdouble hsingle hraw hcomment =>
    refine ⟨0, ?_, rfl⟩
    have hline : ¬ (c = 47 ∧ s.head? = some 47) := fun h => (hcomment h.1 47 h.2).1 rfl
    have hblock : ¬ (c = 47 ∧ s.head? = some 42) := fun h => (hcomment h.1 42 h.2).2 rfl
    rw [firstPiece_eq, if_neg hnewline, if_neg hline, if_neg hblock, if_neg (not_or.2 ⟨hdouble, hraw⟩),
      if_neg hsingle]

/-- **There is one cut of a source into pieces.** -/
theorem splits_iff : Splits raw s ps ↔ ps = pieces raw s := by
  constructor
  · intro h
    induction h with
    | nil => rw [pieces]
    | @cons s rest p ps h _ ih =>
      rcases s with - | ⟨c, s⟩
      · cases h
      · obtain ⟨n, hfirst, hrest⟩ := firstPiece_of_starts h
        rw [pieces, hfirst, ih, ← hrest]
  · rintro rfl
    fun_induction pieces raw s with
    | case1 => exact .nil
    | case2 c rest p n hfirst ih =>
      have hstarts := starts_firstPiece raw c rest
      rw [hfirst] at hstarts
      exact .cons hstarts ih

end

end Bindery.Listing
