import Mathlib.Data.List.Basic
import Bindery.Proofs.Directive.Scanner

/-!
# What a text becomes

A replacement asks its handler about the directives of a text one after the other, each once, and puts the
answers between the pieces of the text that stand between the directives. Nothing else is written but line
feeds around the output of a block directive. How many there are depends before a block on all that was
written so far, and behind it on the text that is still to be read; either way an empty line comes to
stand between a block and what is not white space. `Interleaved` says all this of a result.
-/

namespace Bindery

open Text

def isSpacing (c : UInt8) : Bool := isBlank c || isNewline c

/-- How many line feeds the run of spacing at the start of a text holds. -/
def newlinesAfter (s : Bytes) : Nat := newlines (s.takeWhile isSpacing)

/-- How many line feeds the run of spacing at the end of a text holds. -/
def newlinesBefore (s : Bytes) : Nat := newlines (s.reverse.takeWhile isSpacing)

/-- Behind `out`, a text from an offset on becomes `result`, with outputs in the place of its directives. -/
inductive Interleaved (text : Bytes) : Bytes → Nat → List (Invocation × Bytes) → Bytes → Prop
  | rest {out : Bytes} {offset : Nat} : Interleaved text out offset [] (text.drop offset)
  | inline {out output result : Bytes} {offset : Nat} {inv : Invocation} {more : List (Invocation × Bytes)}
    (hinline : inv.directive.isBlock = false)
    (h : Interleaved text (out ++ text.extract offset inv.start ++ output) inv.stop more result) :
    Interleaved text out offset ((inv, output) :: more)
      (text.extract offset inv.start ++ output ++ result)
  | block {out front output result : Bytes} {offset before after : Nat} {inv : Invocation}
    {more : List (Invocation × Bytes)} (hblock : inv.directive.isBlock = true)
    (hbefore : before ≤ 2) (hafter : after ≤ 2)
    (hfront : front = out ++ text.extract offset inv.start ++ List.replicate before 10)
    (hset : ¬ White front → 2 ≤ newlinesBefore front)
    (hoff : ¬ White (text.drop inv.stop) → 2 ≤ newlinesAfter (List.replicate after 10 ++ result))
    (h : Interleaved text (front ++ trimBoth isNewline output ++ List.replicate after 10) inv.stop more
      result) :
    Interleaved text out offset ((inv, output) :: more)
      (text.extract offset inv.start ++ List.replicate before 10 ++ trimBoth isNewline output ++
        List.replicate after 10 ++ result)

/-- What a replacement makes of a text from an offset on, behind `out`, if these are the outputs. -/
def interleave (text out : Bytes) (offset : Nat) : List (Invocation × Bytes) → Bytes
  | [] => out ++ text.drop offset
  | (inv, output) :: more =>
    interleave text
      (place (out ++ text.extract offset inv.start) inv.directive.isBlock output (text.drop inv.stop))
      inv.stop more

/-! ## Line feeds around a block -/

theorem length_takeWhile_isNewline (s : Bytes) :
    (s.takeWhile isNewline).length ≤ newlinesAfter s := by
  unfold newlinesAfter newlines
  induction s with
  | nil => exact Nat.le_refl 0
  | cons c s ih =>
    by_cases hc : isNewline c = true
    · have hspacing : isSpacing c = true := by rw [isSpacing, hc, Bool.or_true]
      obtain rfl : c = 10 := eq_of_beq hc
      rw [List.takeWhile_cons_of_pos hc, List.takeWhile_cons_of_pos hspacing, List.length_cons,
        List.count_cons_self]
      exact Nat.succ_le_succ ih
    · rw [List.takeWhile_cons_of_neg hc]
      exact Nat.zero_le _

theorem leadingNewlines_le (s : Bytes) : leadingNewlines s ≤ newlinesAfter s := by
  unfold leadingNewlines
  induction s with
  | nil => exact Nat.le_refl 0
  | cons c s ih =>
    by_cases hc : isBlank c = true
    · have hspacing : isSpacing c = true := by rw [isSpacing, hc, Bool.true_or]
      have hnewline : c ≠ 10 := by
        rintro rfl
        exact absurd hc (by decide)
      rw [List.dropWhile_cons_of_pos hc, newlinesAfter, newlines,
        List.takeWhile_cons_of_pos hspacing, List.count_cons_of_ne hnewline]
      exact ih
    · rw [List.dropWhile_cons_of_neg hc]
      exact length_takeWhile_isNewline (c :: s)

theorem trailingNewlines_le (s : Bytes) : trailingNewlines s ≤ newlinesBefore s :=
  leadingNewlines_le s.reverse

theorem newlinesAfter_replicate_append (n : Nat) (s : Bytes) :
    newlinesAfter (List.replicate n 10 ++ s) = n + newlinesAfter s := by
  unfold newlinesAfter newlines
  induction n with
  | zero => simp
  | succ n ih =>
    have hspacing : isSpacing 10 = true := by decide
    rw [List.replicate_succ, List.cons_append, List.takeWhile_cons_of_pos hspacing, List.count_cons_self,
      ih]
    omega

theorem newlinesBefore_append_replicate (s : Bytes) (n : Nat) :
    newlinesBefore (s ++ List.replicate n 10) = n + newlinesBefore s := by
  have hafter := newlinesAfter_replicate_append n s.reverse
  rw [newlinesBefore, List.reverse_append, List.reverse_replicate]
  exact hafter

/-- The run at the start of a text does not reach over a backslash. -/
theorem newlinesAfter_append_backslash (piece rest result : Bytes) :
    newlinesAfter (piece ++ 92 :: rest) ≤ newlinesAfter (piece ++ result) := by
  unfold newlinesAfter newlines
  induction piece with
  | nil =>
    have hspacing : ¬ isSpacing 92 = true := by decide
    rw [List.nil_append, List.takeWhile_cons_of_neg hspacing]
    exact Nat.zero_le _
  | cons c piece ih =>
    rw [List.cons_append, List.cons_append]
    by_cases hc : isSpacing c = true
    · rw [List.takeWhile_cons_of_pos hc, List.takeWhile_cons_of_pos hc, List.count_cons, List.count_cons]
      omega
    · rw [List.takeWhile_cons_of_neg hc]
      exact Nat.zero_le _

theorem exists_gapBefore (out : Bytes) : ∃ n ≤ 2, gapBefore out = List.replicate n 10 ∧
    (¬ White (out ++ List.replicate n 10) → 2 ≤ newlinesBefore (out ++ List.replicate n 10)) := by
  rw [gapBefore]
  split
  · next hwhite =>
    refine ⟨0, Nat.zero_le 2, rfl, fun hout => absurd ?_ hout⟩
    rw [List.replicate_zero, List.append_nil]
    exact white_of_isWhite hwhite
  · refine ⟨2 - trailingNewlines out, Nat.sub_le _ _, rfl, fun _ => ?_⟩
    have hrun := trailingNewlines_le out
    rw [newlinesBefore_append_replicate]
    omega

theorem exists_gapAfter (out after : Bytes) : ∃ n ≤ 2, gapAfter out after = List.replicate n 10 ∧
    (¬ White after → 2 ≤ n + newlinesAfter after) := by
  rw [gapAfter]
  split
  · next hwhite =>
    split
    · exact ⟨1, by decide, rfl, fun hafter => absurd (white_of_isWhite hwhite) hafter⟩
    · exact ⟨0, by decide, rfl, fun hafter => absurd (white_of_isWhite hwhite) hafter⟩
  · refine ⟨2 - leadingNewlines after, Nat.sub_le _ _, rfl, fun _ => ?_⟩
    have hrun := leadingNewlines_le after
    omega

theorem exists_place_block (out output rest : Bytes) : ∃ before ≤ 2, ∃ after ≤ 2,
    place out true output rest =
      out ++ List.replicate before 10 ++ trimBoth isNewline output ++ List.replicate after 10 ∧
    (¬ White (out ++ List.replicate before 10) →
      2 ≤ newlinesBefore (out ++ List.replicate before 10)) ∧
    (¬ White rest → 2 ≤ after + newlinesAfter rest) := by
  obtain ⟨before, hbefore, hfront, hset⟩ := exists_gapBefore out
  obtain ⟨after, hafter, hback, hoff⟩ :=
    exists_gapAfter (out ++ List.replicate before 10 ++ trimBoth isNewline output) rest
  refine ⟨before, hbefore, after, hafter, ?_, hset, hoff⟩
  rw [← hback, ← hfront]
  rfl

/-! ## Along the scan -/

theorem start_of_scanFrom {s before : Bytes} {offset line : Nat} {inv : Invocation} {after : Cursor}
    (h : scanFrom s offset line = .found before inv after) : inv.start = offset + before.length := by
  induction s generalizing offset line before with
  | nil => cases h
  | cons c rest ih =>
    rcases scanFrom_cons_found h with hread | ⟨front, line', rfl, hmore⟩
    · obtain ⟨rfl, -⟩ := readDirective?_pieces hread
      exact (readDirective?_eq_found hread).2.1
    · rw [ih hmore, List.length_cons]
      omega

/-- What a step passes is the piece of the text up to the directive, and the directive begins with a
backslash. -/
theorem Cursor.In.piece {text before : Bytes} {c after : Cursor} {inv : Invocation} (h : c.In text)
    (hnext : c.next = .found before inv after) :
    before = text.extract c.offset inv.start ∧
      ∃ rest, text.drop c.offset = text.extract c.offset inv.start ++ 92 :: rest := by
  obtain ⟨hbegins, -⟩ := scanFrom_pieces hnext
  have hstart := start_of_scanFrom hnext
  have hright := h.right_next
  rw [hnext] at hright
  obtain ⟨-, -, hstands, -⟩ := hright
  have hbefore : before = text.extract c.offset inv.start := by
    rw [List.extract_eq_take_drop, hstart, Nat.add_sub_cancel_left, ← h.rest]
    exact List.prefix_iff_eq_take.1 hbegins
  refine ⟨hbefore, text.drop (inv.start + 1), ?_⟩
  have hhead : text.drop inv.start = 92 :: text.drop (inv.start + 1) := by
    obtain ⟨hlt, hget⟩ := List.getElem?_eq_some_iff.1 hstands.named.1
    rw [List.drop_eq_getElem_cons hlt, hget]
  calc text.drop c.offset
      = (text.drop c.offset).take before.length ++ (text.drop c.offset).drop before.length :=
        (List.take_append_drop _ _).symm
    _ = text.extract c.offset inv.start ++ 92 :: text.drop (inv.start + 1) := by
        rw [List.drop_drop, ← hstart, hhead, ← hbefore, ← h.rest, ← List.prefix_iff_eq_take.1 hbegins]

section

variable {m : Type → Type} [Monad m] [LawfulMonad m] [MonadExceptOf Fault m]

/-- A replacement asks about the directives that a scan finds, in their order, and puts the answers in
their places; a malformed directive ends it. -/
theorem Cursor.In.replace_eq {text : Bytes} {c : Cursor} (h : c.In text)
    (handler : Invocation → m Bytes) (out : Bytes) :
    c.replace handler out = (do
      let outputs ← c.scan.1.mapM handler
      match c.scan.2 with
      | none => pure (interleave text out c.offset (c.scan.1.zip outputs))
      | some bad => throw bad.toFault) := by
  fun_induction Cursor.scan c generalizing out with
  | case1 c hnext =>
    rw [replace_of_done hnext, List.mapM_nil, pure_bind, h.rest]
    rfl
  | case2 c bad hnext => rw [replace_of_malformed hnext, List.mapM_nil, pure_bind]
  | case3 c before inv after hnext _ more ending hscan ih =>
    have hright := h.right_next
    rw [hnext] at hright
    obtain ⟨-, -, -, hoffset, hafter⟩ := hright
    rw [hscan] at ih
    rw [replace_of_found hnext, List.mapM_cons, bind_assoc]
    refine bind_congr fun output => ?_
    rw [ih hafter, bind_assoc]
    refine bind_congr fun outputs => ?_
    rw [pure_bind, hafter.rest, hoffset, (h.piece hnext).1]
    rfl

end

/-- The outputs are interleaved with the text, and the run of spacing that the rest of the text begins
with is kept. -/
theorem Cursor.In.interleaved {text : Bytes} {c : Cursor} (h : c.In text) {outputs : List Bytes}
    (hlength : outputs.length = c.scan.1.length) (out : Bytes) :
    ∃ result, interleave text out c.offset (c.scan.1.zip outputs) = out ++ result ∧
      Interleaved text out c.offset (c.scan.1.zip outputs) result ∧
      newlinesAfter (text.drop c.offset) ≤ newlinesAfter result := by
  fun_induction Cursor.scan c generalizing outputs out with
  | case1 c hnext => exact ⟨_, rfl, .rest, Nat.le_refl _⟩
  | case2 c bad hnext => exact ⟨_, rfl, .rest, Nat.le_refl _⟩
  | case3 c before inv after hnext _ more ending hscan ih =>
    obtain ⟨output, outputs, rfl⟩ := List.exists_cons_of_length_eq_add_one hlength
    have hright := h.right_next
    rw [hnext] at hright
    obtain ⟨-, -, -, hoffset, hafter⟩ := hright
    obtain ⟨-, rest, hpiece⟩ := h.piece hnext
    rw [hscan, hoffset] at ih
    have hmore : outputs.length = more.length := Nat.succ.inj hlength
    -- The gap behind a block is counted on the text that follows it, whose first bytes stay if they are
    -- spacing: the text goes on with them, up to the backslash of the next directive.
    have hkept : ∀ result, newlinesAfter (text.drop c.offset) ≤
        newlinesAfter (text.extract c.offset inv.start ++ result) := by
      intro result
      rw [hpiece]
      exact newlinesAfter_append_backslash _ _ _
    rw [List.zip_cons_cons, interleave]
    cases hblock : inv.directive.isBlock with
    | false =>
      obtain ⟨result, hresult, hinter, -⟩ := ih hafter hmore
        (place (out ++ text.extract c.offset inv.start) false output (text.drop inv.stop))
      rw [hresult]
      refine ⟨text.extract c.offset inv.start ++ output ++ result, ?_, .inline hblock hinter, ?_⟩
      · simp [place]
      · rw [List.append_assoc]
        exact hkept _
    | true =>
      obtain ⟨before, hbefore, behind, hbehind, hplace, hset, hoff⟩ := exists_place_block
        (out ++ text.extract c.offset inv.start) output (text.drop inv.stop)
      obtain ⟨result, hresult, hinter, hrun⟩ := ih hafter hmore
        (place (out ++ text.extract c.offset inv.start) true output (text.drop inv.stop))
      rw [hresult]
      rw [hplace] at hinter ⊢
      refine ⟨_, ?_, .block hblock hbefore hbehind rfl hset ?_ hinter, ?_⟩
      · simp
      · intro hnot
        rw [newlinesAfter_replicate_append]
        have hcount := hoff hnot
        omega
      · simp only [List.append_assoc]
        exact hkept _

theorem scan_of_unnamed {text : Bytes} (h : Unnamed text 0 text.length) : scan text = ([], none) := by
  obtain ⟨limit, -, hends, hfound⟩ := exists_occurrences_scan text
  refine Prod.ext ?_ ?_
  · apply List.eq_nil_iff_forall_not_mem.2
    intro inv hinv
    have hnamed := (hfound.sound inv hinv).1.named
    exact h _ _ (Nat.zero_le _) hnamed.lt_length hnamed
  · cases hending : (scan text).2 with
    | none => rfl
    | some bad =>
      rw [hending] at hends
      exact absurd hends.named (h _ _ (Nat.zero_le _) hends.named.lt_length)

/-- **Replacing**: a text whose scan meets no fault becomes its own pieces between the outputs, each of
which the handler is asked for once and in order; a text without directives stays as it is. -/
theorem replaceM_interleaves {m : Type → Type} [Monad m] [LawfulMonad m] [MonadExceptOf Fault m]
    (text : Bytes) (handler : Invocation → m Bytes) :
    ((scan text).2 = none →
      Occurrences text 0 text.length (scan text).1 ∧
      replaceM text handler = (do
        let outputs ← (scan text).1.mapM handler
        pure (interleave text [] 0 ((scan text).1.zip outputs))) ∧
      ∀ outputs : List Bytes, outputs.length = (scan text).1.length →
        Interleaved text [] 0 ((scan text).1.zip outputs)
          (interleave text [] 0 ((scan text).1.zip outputs))) ∧
    (Unnamed text 0 text.length → replaceM text handler = pure text) := by
  have hstart : Cursor.In { rest := text } text := ⟨Nat.zero_le _, rfl, rfl⟩
  have hreplace : replaceM text handler = (do
      let outputs ← (scan text).1.mapM handler
      match (scan text).2 with
      | none => pure (interleave text [] 0 ((scan text).1.zip outputs))
      | some bad => throw bad.toFault) := hstart.replace_eq handler []
  constructor
  · intro hscan
    rw [hscan] at hreplace
    obtain ⟨limit, -, hends, hfound⟩ := exists_occurrences_scan text
    rw [hscan] at hends
    obtain rfl : limit = text.length := hends
    refine ⟨hfound, hreplace, fun outputs hlength => ?_⟩
    obtain ⟨result, hresult, hinter, -⟩ := hstart.interleaved hlength []
    have hresult' : interleave text [] 0 ((scan text).1.zip outputs) = result := hresult
    rw [hresult']
    exact hinter
  · intro hunnamed
    rw [hreplace, scan_of_unnamed hunnamed]
    exact pure_bind _ _

/-- A block directly behind an inline directive that writes nothing, and text on the line of the block. -/
theorem replaceM_interleaves_neighbours :
    let text := bytes "a\t\\meta{t}\\rel.input{c} \n b"
    let handler : Invocation → Except Fault Bytes := fun inv =>
      .ok (if inv.directive.isBlock then bytes "\n  c\n\n" else [])
    (scan text).2 = none ∧ Unnamed (bytes "\\metadata") 0 9 ∧
      replaceM text handler = .ok (bytes "a\t\n\n  c\n \n b") ∧
      replaceM (bytes "\\metadata") handler = .ok (bytes "\\metadata") := by
  intro text handler
  have hscan : scan text =
      ([⟨.metadata, [bytes "t"], 2, 10, 1⟩, ⟨.input, [bytes "c"], 10, 23, 1⟩], none) := by
    decide +kernel
  have hunnamed : Unnamed (bytes "\\metadata") 0 9 := by decide +kernel
  obtain ⟨-, hreplace, -⟩ := (replaceM_interleaves text handler).1 (congrArg Prod.snd hscan)
  have hstays := (replaceM_interleaves (bytes "\\metadata") handler).2 hunnamed
  refine ⟨congrArg Prod.snd hscan, hunnamed, ?_, hstays⟩
  rw [hreplace, hscan]
  rfl

end Bindery
