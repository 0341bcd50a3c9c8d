import Bindery.Markdown.Block
import Bindery.Proofs.Listing.Selection
import Bindery.Proofs.Text.Space
import Bindery.Proofs.Text.Split

/-!
# Fenced code

How the lines of a fenced block are read: they are code up to the first line that closes the fence, and
what follows is read as if it stood behind a finished block.
-/

namespace Bindery.Markdown

open Text (bytes)

/-- A line that closes a fence: up to three spaces, at least as many marks as the fence has, and white
space. -/
def ClosesFence (mark : UInt8) (length : Nat) (l : Bytes) : Prop :=
  ∃ indent run rest, l = List.replicate indent 32 ++ (List.replicate run mark ++ rest) ∧ indent ≤ 3 ∧
    length ≤ run ∧ ∀ c ∈ rest, isSpace c = true

namespace Builder

/-- The state behind a code block at the outermost level. -/
def withCode (b : Builder) (info text : Bytes) : Builder :=
  { b with
    entries := { block := .code info text, blank := b.blankAt 0 } :: b.entries
    leaf := .none
    leafBlank := b.blankAt 0
    lastBlank := none }

/-- The state behind a paragraph at the outermost level and a blank line. -/
def withParagraph (b : Builder) (text : Bytes) : Builder :=
  { b with
    entries := { block := .paragraph text, blank := b.blankAt 0 } :: b.entries
    leaf := .none
    leafBlank := b.blankAt 0
    lastBlank := some 0 }

/-- The state inside a code block at the outermost level, with the lines so far backwards. -/
def withFence (b : Builder) (mark : UInt8) (length : Nat) (info : Bytes) (ls : List Bytes) : Builder :=
  { b with
    leaf := .fence mark length 0 info ls
    leafBlank := b.blankAt 0 }

end Builder

section

variable {mark : UInt8} {length : Nat} {info l s : Bytes} {b : Builder}

/-! ## Fences -/

theorem fence?_eq_some (h : fence? s = some (mark, length, info)) :
    (mark = 96 ∨ mark = 126) ∧ 3 ≤ length ∧ ∃ rest, s = mark :: rest := by
  cases s with
  | nil => cases h
  | cons c rest =>
    simp only [fence?, Option.ite_none_right_eq_some, Option.some.injEq, Prod.mk.injEq] at h
    obtain ⟨⟨hmark, hlength, -⟩, rfl, rfl, -⟩ := h
    exact ⟨hmark, hlength, rest, rfl⟩

/-- A line that is not indented as far as code is starts with spaces alone: a tab goes beyond that. -/
theorem eq_of_widthFrom_le (l : Bytes) (column : Nat) (h : column + LineRest.widthFrom column l ≤ 3) :
    l = List.replicate (LineRest.widthFrom column l) 32 ++ l.dropWhile Text.isBlank := by
  induction l generalizing column with
  | nil => rfl
  | cons c l ih =>
    rw [LineRest.widthFrom] at h ⊢
    by_cases hspace : c = 32
    · subst hspace
      rw [if_pos rfl] at h ⊢
      rw [Nat.add_comm 1, List.replicate_succ, List.cons_append]
      exact congrArg _ (ih (column + 1) (by omega))
    · rw [if_neg hspace] at h ⊢
      by_cases htab : c = 9
      · rw [if_pos htab] at h
        dsimp only at h
        omega
      · rw [if_neg htab, List.dropWhile_cons_of_neg (by simpa [Text.isBlank] using ⟨hspace, htab⟩)]
        rfl

theorem widthFrom_replicate (column n : Nat) (hmark : mark = 96 ∨ mark = 126) (s : Bytes) :
    LineRest.widthFrom column (List.replicate n 32 ++ mark :: s) = n := by
  induction n generalizing column with
  | zero => rcases hmark with rfl | rfl <;> rfl
  | succ n ih =>
    rw [List.replicate_succ, List.cons_append, LineRest.widthFrom, if_pos rfl, ih, Nat.add_comm]

/-- What is left of a line closes a fence, as the reader tests it. -/
def closing (mark : UInt8) (length : Nat) (l : LineRest) : Bool :=
  let run := (l.body.takeWhile (· == mark)).length
  l.indent ≤ 3 && run ≥ length && isBlankLine (l.body.drop run)

theorem closing_iff (hmark : mark = 96 ∨ mark = 126) (hlength : 0 < length) (l : Bytes) :
    closing mark length { text := l } = true ↔ ClosesFence mark length l := by
  have hindent : ({ text := l } : LineRest).indent = LineRest.widthFrom 0 l := Nat.zero_add _
  have hbody : ({ text := l } : LineRest).body = l.dropWhile Text.isBlank := rfl
  rw [closing, Bool.and_eq_true, Bool.and_eq_true, decide_eq_true_iff, decide_eq_true_iff, hindent, hbody]
  rw [Listing.drop_length_takeWhile]
  constructor
  · rintro ⟨⟨hle, hrun⟩, hrest⟩
    refine ⟨LineRest.widthFrom 0 l, _, _, ?_, hle, hrun, List.all_eq_true.1 hrest⟩
    have hmarks : ∀ c ∈ (l.dropWhile Text.isBlank).takeWhile (· == mark), c = mark := by
      intro c hc
      have heq := List.mem_takeWhile_imp hc
      exact eq_of_beq heq
    rw [← List.eq_replicate_of_mem hmarks, List.takeWhile_append_dropWhile]
    exact eq_of_widthFrom_le l 0 (by omega)
  · rintro ⟨indent, run, rest, rfl, hle, hrun, hrest⟩
    obtain ⟨more, rfl⟩ := Nat.exists_eq_succ_of_ne_zero (Nat.ne_of_gt (Nat.lt_of_lt_of_le hlength hrun))
    have hmark' : Text.isBlank mark = false := by rcases hmark with rfl | rfl <;> rfl
    have hspaces : ∀ c ∈ List.replicate indent (32 : UInt8), Text.isBlank c = true := fun c hc => by
      rw [List.eq_of_mem_replicate hc]
      rfl
    have hmarks : ∀ c ∈ List.replicate (more + 1) mark, (c == mark) = true := fun c hc => by
      rw [List.eq_of_mem_replicate hc, beq_self_eq_true]
    have hends : rest.takeWhile (· == mark) = [] ∧ rest.dropWhile (· == mark) = rest := by
      cases rest with
      | nil => exact ⟨rfl, rfl⟩
      | cons c rest =>
        have hc : ¬ (c == mark) = true := by
          have hspace := hrest c List.mem_cons_self
          rw [beq_iff_eq]
          rintro rfl
          rcases hmark with rfl | rfl <;> cases hspace
        exact ⟨List.takeWhile_cons_of_neg hc, List.dropWhile_cons_of_neg hc⟩
    rw [List.replicate_succ, List.cons_append, widthFrom_replicate _ _ hmark,
      List.dropWhile_append_of_pos hspaces, List.dropWhile_cons_of_neg (by simp [hmark']),
      ← List.cons_append, ← List.replicate_succ, List.takeWhile_append_of_pos hmarks,
      List.dropWhile_append_of_pos hmarks, hends.1, hends.2, List.append_nil, List.length_replicate]
    exact ⟨⟨hle, hrun⟩, List.all_eq_true.2 hrest⟩

theorem ClosesFence.ne_nil (hlength : 0 < length) (h : ClosesFence mark length l) : l ≠ [] := by
  rintro rfl
  obtain ⟨indent, run, rest, hnil, -, hrun, -⟩ := h
  have hempty := congrArg List.length hnil
  simp only [List.length_append, List.length_replicate, List.length_nil] at hempty
  omega

namespace Builder

theorem line_opens (hframes : b.frames = []) (hleaf : b.leaf = .none)
    (hfence : fence? l = some (mark, length, info)) (ending : Bytes) :
    b.line l ending = { b.withFence mark length info [] with lastBlank := none } := by
  obtain ⟨hmark, -, rest, rfl⟩ := fence?_eq_some hfence
  have hblank : isBlankLine (mark :: rest) = false := by
    rcases hmark with rfl | rfl <;> rfl
  have hbody : ({ text := mark :: rest } : LineRest).body = mark :: rest := by
    rcases hmark with rfl | rfl <;> rfl
  have hindent : ({ text := mark :: rest } : LineRest).indent = 0 := by
    rcases hmark with rfl | rfl <;> rfl
  have hheading : heading? (mark :: rest) = none := by
    rcases hmark with rfl | rfl <;> rfl
  have hquote : mark ≠ 62 := by
    rcases hmark with rfl | rfl <;> decide
  obtain ⟨tables, frames, entries, leaf, leafBlank, definitions, lastBlank⟩ := b
  obtain rfl : frames = [] := hframes
  obtain rfl : leaf = .none := hleaf
  simp only [line, List.reverse_nil, matched, List.length_nil, beq_self_eq_true, Bool.not_true,
    Bool.false_eq_true, if_false, hblank]
  rw [step]
  simp [LineRest.isBlank, hblank, hbody, hindent, hheading, hquote, hfence, leaveList, enter, closeLeaf,
    closeFrames, openLeaf, withFence]

variable {ls : List Bytes}

theorem line_inside (hframes : b.frames = []) (hmark : mark = 96 ∨ mark = 126) (hlength : 0 < length)
    (hl : ¬ ClosesFence mark length l) (last : Option Nat) (ending : Bytes) :
    ∃ last', ({ b.withFence mark length info ls with lastBlank := last }).line l ending =
      { b.withFence mark length info (l :: ls) with lastBlank := last' } := by
  have hopen : closing mark length { text := l } = false := by
    rw [← Bool.not_eq_true, closing_iff hmark hlength]
    exact hl
  rw [closing] at hopen
  obtain ⟨tables, frames, entries, leaf, leafBlank, definitions, lastBlank⟩ := b
  obtain rfl : frames = [] := hframes
  have hcontent : (({ text := l } : LineRest).skip 0).content = l := rfl
  simp only [line, withFence, List.reverse_nil, matched, List.length_nil, beq_self_eq_true, Bool.not_true,
    Bool.false_eq_true, if_false, hopen, hcontent]
  split
  · exact ⟨_, rfl⟩
  · exact ⟨_, rfl⟩

theorem line_closes (hframes : b.frames = []) (hmark : mark = 96 ∨ mark = 126) (hlength : 0 < length)
    (hl : ClosesFence mark length l) (last : Option Nat) (ending : Bytes) :
    ({ b.withFence mark length info ls with lastBlank := last }).line l ending =
      b.withCode info (ls.reverse.flatMap (· ++ [10])) := by
  have hclosing := (closing_iff hmark hlength l).2 hl
  rw [closing] at hclosing
  have hblank : isBlankLine l = false := by
    obtain ⟨indent, run, rest, rfl, -, hrun, -⟩ := hl
    obtain ⟨more, rfl⟩ := Nat.exists_eq_succ_of_ne_zero (Nat.ne_of_gt (Nat.lt_of_lt_of_le hlength hrun))
    have hspace : isSpace mark = false := by rcases hmark with rfl | rfl <;> rfl
    simp [isBlankLine, List.replicate_succ, hspace]
  obtain ⟨tables, frames, entries, leaf, leafBlank, definitions, lastBlank⟩ := b
  obtain rfl : frames = [] := hframes
  simp only [line, withFence, List.reverse_nil, matched, List.length_nil, beq_self_eq_true, Bool.not_true,
    Bool.false_eq_true, if_false, hclosing, if_true, hblank, closeLeaf]
  rfl

theorem lines_cons (b : Builder) (h : l ≠ [] ∨ ls ≠ []) :
    ∃ ending, b.lines (l :: ls) = (b.line l ending).lines ls := by
  cases ls with
  | nil =>
    have hl : l ≠ [] := h.resolve_right (not_not_intro rfl)
    exact ⟨[], by simp [lines, hl]⟩
  | cons m ls => exact ⟨[10], rfl⟩

/-- Inside a fenced block, lines are code up to the first one that closes the fence. -/
theorem lines_inside (hframes : b.frames = []) (hmark : mark = 96 ∨ mark = 126) (hlength : 0 < length)
    {inside outside : List Bytes} (hinside : ∀ l ∈ inside, ¬ ClosesFence mark length l)
    {closing : Bytes} (hclosing : ClosesFence mark length closing) (last : Option Nat) :
    ({ b.withFence mark length info ls with lastBlank := last }).lines (inside ++ closing :: outside) =
      (b.withCode info ((ls.reverse ++ inside).flatMap (· ++ [10]))).lines outside := by
  induction inside generalizing ls last with
  | nil =>
    obtain ⟨ending, hline⟩ := lines_cons { b.withFence mark length info ls with lastBlank := last }
      (.inl (hclosing.ne_nil hlength) : closing ≠ [] ∨ outside ≠ [])
    rw [List.nil_append, hline, line_closes hframes hmark hlength hclosing, List.append_nil]
  | cons l inside ih =>
    obtain ⟨hl, hinside⟩ := List.forall_mem_cons.1 hinside
    obtain ⟨ending, hline⟩ := lines_cons { b.withFence mark length info ls with lastBlank := last }
      (.inr (by simp) : l ≠ [] ∨ inside ++ closing :: outside ≠ [])
    obtain ⟨last', hcode⟩ := line_inside hframes hmark hlength hl last ending
    rw [List.cons_append, hline, hcode, ih hinside, List.reverse_cons, List.append_assoc]
    rfl

/-- **How a fenced block is read.** At the outermost level, with no block open, the lines behind a fence
are code up to the first one that closes it; those behind that line are read as if they stood behind a
finished block. -/
theorem lines_fenced (hframes : b.frames = []) (hleaf : b.leaf = .none) {opening : Bytes}
    (hopening : fence? opening = some (mark, length, info)) {inside outside : List Bytes}
    (hinside : ∀ l ∈ inside, ¬ ClosesFence mark length l) {closing : Bytes}
    (hclosing : ClosesFence mark length closing) :
    b.lines (opening :: (inside ++ closing :: outside)) =
      (b.withCode info (inside.flatMap (· ++ [10]))).lines outside := by
  obtain ⟨hmark, hlength, -⟩ := fence?_eq_some hopening
  obtain ⟨ending, hline⟩ := lines_cons b (.inr (by simp) : opening ≠ [] ∨ inside ++ closing :: outside ≠ [])
  rw [hline, line_opens hframes hleaf hopening]
  exact lines_inside hframes hmark (Nat.lt_of_lt_of_le (by decide) hlength) hinside hclosing none

/-! ## A line of text -/

section

variable {c : UInt8} {rest : Bytes}

theorem ne_of_isLetter (hc : Text.isLetter c = true) {d : UInt8} (hd : Text.isLetter d = false) : c ≠ d := by
  rintro rfl
  rw [hd] at hc
  cases hc

theorem le_of_isLetter (hc : Text.isLetter c = true) : 65 ≤ c.toNat := by
  simp only [Text.isLetter, Bool.or_eq_true, Bool.and_eq_true, decide_eq_true_eq, UInt8.le_iff_toNat_le] at hc
  change 97 ≤ c.toNat ∧ _ ∨ 65 ≤ c.toNat ∧ _ at hc
  omega

theorem isSpace_of_isLetter (hc : Text.isLetter c = true) : isSpace c = false := by
  have hle := le_of_isLetter hc
  rw [← Bool.not_eq_true, isSpace, Bool.or_eq_true, Bool.and_eq_true, decide_eq_true_eq, decide_eq_true_eq,
    beq_iff_eq]
  rintro (rfl | ⟨-, hthirteen⟩)
  · exact absurd hle (by decide)
  · have hlow : c.toNat ≤ 13 := UInt8.le_iff_toNat_le.1 hthirteen
    omega

theorem isDigit_of_isLetter (hc : Text.isLetter c = true) : Text.isDigit c = false := by
  have hle := le_of_isLetter hc
  rw [← Bool.not_eq_true, Text.isDigit, Bool.and_eq_true, decide_eq_true_eq, decide_eq_true_eq]
  rintro ⟨-, hnine⟩
  have hlow : c.toNat ≤ 57 := UInt8.le_iff_toNat_le.1 hnine
  omega

theorem definition?_text (hc : Text.isLetter c = true) (rest : Bytes) : definition? (c :: rest) = none := by
  rw [definition?, List.dropWhile_cons_of_neg (by simp [isSpace_of_isLetter hc])]
  split
  · next heq => exact absurd (List.cons.inj heq).1 (ne_of_isLetter hc rfl)
  · rfl

/-- What a line that begins with a letter holds as a paragraph. -/
theorem paragraphParts_text (b : Builder) (hc : Text.isLetter c = true) (hsingle : 10 ∉ c :: rest) :
    b.paragraphParts [c :: rest] = ([], some (trimEnd (c :: rest)), none) := by
  have hspace := isSpace_of_isLetter hc
  obtain ⟨more, hmore⟩ : ∃ more, trimEnd (c :: rest) = c :: more := by
    obtain ⟨w, hsplit, hw, -⟩ := Text.exists_trimEnd isSpace (c :: rest)
    cases htrim : Text.trimEnd isSpace (c :: rest) with
    | nil =>
      rw [htrim, List.nil_append] at hsplit
      have hfalse := hw c (hsplit ▸ List.mem_cons_self)
      rw [hspace] at hfalse
      cases hfalse
    | cons d more =>
      rw [htrim, List.cons_append] at hsplit
      rw [trimEnd, htrim, (List.cons.inj hsplit).1]
      exact ⟨more, rfl⟩
  have hline : Text.lines (c :: more) = [c :: more] := by
    refine Text.splitOn_of_notMem fun hmem => hsingle ?_
    rw [← hmore] at hmem
    exact (Text.isPrefix_trimEnd _ _).subset hmem
  have htext : paragraphText [c :: rest] = c :: more := hmore
  have hwhite : isBlankLine (c :: more) = false := by simp [isBlankLine, hspace]
  have htable : table? [] [c :: more] = none := by simp [table?]
  simp [paragraphParts, htext, hmore, leadingDefinitions, definition?_text hc, hwhite, hline, htable]

/-- A line of text that begins with a letter, and a blank line behind it, are a paragraph. -/
theorem line_text (hframes : b.frames = []) (hleaf : b.leaf = .none) (hc : Text.isLetter c = true)
    (hsingle : 10 ∉ c :: rest) (ending ending' : Bytes) :
    (b.line (c :: rest) ending).line [] ending' = b.withParagraph (trimEnd (c :: rest)) := by
  have hne : ∀ d, Text.isLetter d = false → c ≠ d := fun d hd => ne_of_isLetter hc hd
  have hspace := isSpace_of_isLetter hc
  have hdigit := isDigit_of_isLetter hc
  have hblank : Text.isBlank c = false := by
    rw [Text.isBlank, Bool.or_eq_false_iff, beq_eq_false_iff_ne, beq_eq_false_iff_ne]
    exact ⟨hne _ rfl, hne _ rfl⟩
  have hbody : ({ text := c :: rest } : LineRest).body = c :: rest :=
    List.dropWhile_cons_of_neg (by simp [hblank])
  have hindent : ({ text := c :: rest } : LineRest).indent = 0 := by
    simp [LineRest.indent, LineRest.widthFrom, hne 32 rfl, hne 9 rfl]
  have hheading : heading? (c :: rest) = none := by
    simp [heading?, hne 35 rfl]
  have hfence : fence? (c :: rest) = none := by
    simp [fence?, hne 96 rfl, hne 126 rfl]
  have hhtml : ∀ more, htmlBlock? false (c :: more) = none := by
    intro more
    rw [htmlBlock?]
    rintro rest heq
    exact hne 60 rfl (List.cons.inj heq).1
  have hrule : isRule (c :: rest) = false := by
    rw [isRule, Bool.and_eq_false_iff, Bool.and_eq_false_iff]
    left
    left
    simp only [Bool.or_eq_false_iff, beq_eq_false_iff_ne]
    exact ⟨⟨hne _ rfl, hne _ rfl⟩, hne _ rfl⟩
  have hmarker : marker? (c :: rest) = none := by
    simp [marker?, hne 45 rfl, hne 43 rfl, hne 42 rfl, hne 46 rfl, hne 41 rfl, hdigit]
  obtain ⟨tables, frames, entries, leaf, leafBlank, definitions, lastBlank⟩ := b
  obtain rfl : frames = [] := hframes
  obtain rfl : leaf = .none := hleaf
  have hwhite : isBlankLine (c :: rest) = false := by simp [isBlankLine, hspace]
  have hfirst : (Builder.mk tables [] entries .none leafBlank definitions lastBlank).line (c :: rest) ending =
      Builder.mk tables [] entries (.paragraph [c :: rest]) (lastBlank.any (· ≤ 0)) definitions none := by
    simp only [line, List.reverse_nil, matched, List.length_nil, beq_self_eq_true, Bool.not_true,
      Bool.false_eq_true, if_false, hwhite]
    rw [step]
    simp [LineRest.isBlank, hwhite, hbody, hindent, hne 62 rfl, hheading, hfence, hhtml, hrule, hmarker,
      paragraph?, leaveList, enter, closeLeaf, closeFrames, openLeaf, blankAt]
  rw [hfirst]
  simp only [line, List.reverse_nil, matched, List.length_nil, beq_self_eq_true, Bool.not_true,
    Bool.false_eq_true, if_false]
  rw [step]
  simp [LineRest.isBlank, isBlankLine, enter, closeLeaf, paragraphParts_text _ hc hsingle, closeFrames, add,
    withParagraph, blankAt]

end

end Builder

end

end Bindery.Markdown
