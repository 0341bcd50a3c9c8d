import Mathlib.Data.List.Chain
import Bindery.Proofs.Listing.Extract
import Bindery.Proofs.Text.Split

/-!
# The normal form of listings

Bringing lines into normal form comes early, and what follows may take comments, indentation and the
layout away again or break lines. The normal form outlasts all this, because every later step either
ends with the same function or turns a line that is not empty into such lines and leaves empty ones as
they are. Of the formatter of the standard layout nothing is assumed.
-/

namespace Bindery.Listing

open Text

/-- Lines without blanks at their ends, of which neither the first nor the last is empty, nor two in a
row. -/
structure NormalForm (ls : List Bytes) : Prop where
  bare : ∀ l ∈ ls, ∀ c ∈ l.getLast?, isBlank c = false
  first : ls.head? ≠ some []
  last : ls.getLast? ≠ some []
  apart : ls.IsChain fun a b => a ≠ [] ∨ b ≠ []

/-- A line with something on it, and no blank at its end. -/
structure Inked (l : Bytes) : Prop where
  ne_nil : l ≠ []
  bare : ∀ c ∈ l.getLast?, isBlank c = false
  single : 10 ∉ l

/-- Inked lines with single empty lines between them, and perhaps one in front. -/
inductive Spaced : List Bytes → Prop
  | nil : Spaced []
  | line {l : Bytes} {rest : List Bytes} (hl : Inked l) (h : Spaced rest) : Spaced (l :: rest)
  | gap {l : Bytes} {rest : List Bytes} (hl : Inked l) (h : Spaced rest) : Spaced ([] :: l :: rest)

/-- Spaced lines that begin with an inked one. -/
structure Formed (ls : List Bytes) : Prop where
  spaced : Spaced ls
  first : ls.head? ≠ some []

/-! ## Inked lines -/

section Inked

variable {l a b : Bytes} {p : UInt8 → Bool}

theorem Inked.append_left (h : Inked b) (ha : 10 ∉ a) : Inked (a ++ b) := by
  refine ⟨List.append_ne_nil_of_right_ne_nil a h.ne_nil, ?_, ?_⟩
  · rw [List.getLast?_append_of_ne_nil a h.ne_nil]
    exact h.bare
  · rw [List.mem_append, not_or]
    exact ⟨ha, h.single⟩

/-- Blanks in front of an inked line are never all of it. -/
theorem Inked.of_blanks_append (h : Inked (a ++ b)) (ha : ∀ c ∈ a, isBlank c = true) : Inked b := by
  have hne : b ≠ [] := by
    rintro rfl
    rw [List.append_nil] at h
    have hlast := List.getLast?_eq_some_getLast h.ne_nil
    exact Bool.false_ne_true ((h.bare _ hlast).symm.trans (ha _ (List.getLast_mem h.ne_nil)))
  refine ⟨hne, ?_, fun hb => h.single (List.mem_append_right a hb)⟩
  rw [← List.getLast?_append_of_ne_nil a hne]
  exact h.bare

theorem Inked.dropWhile (h : Inked l) (hp : ∀ c, p c = true → isBlank c = true) :
    Inked (l.dropWhile p) := by
  rw [← List.takeWhile_append_dropWhile (p := p) (l := l)] at h
  exact h.of_blanks_append fun c hc => hp c (List.mem_takeWhile_imp hc)

theorem inked_trimEnd (h : 10 ∉ l) (hne : trimEnd isBlank l ≠ []) : Inked (trimEnd isBlank l) := by
  refine ⟨hne, ?_, fun hl => h ((isPrefix_trimEnd _ _).subset hl)⟩
  intro c hc
  rw [trimEnd, List.getLast?_reverse] at hc
  have hhead := List.head?_dropWhile_not isBlank l.reverse
  rw [hc] at hhead
  simpa using hhead

end Inked

/-! ## Spaced lines -/

theorem Spaced.append_left {ls more : List Bytes} (hls : ∀ l ∈ ls, Inked l) (h : Spaced more) :
    Spaced (ls ++ more) := by
  induction ls with
  | nil => exact h
  | cons l ls ih =>
    obtain ⟨hl, hls⟩ := List.forall_mem_cons.1 hls
    exact .line hl (ih hls)

/-- Turning every inked line into inked lines keeps the spaces between them. -/
theorem Spaced.flatMap {ls : List Bytes} (h : Spaced ls) {f : Bytes → List Bytes} (hempty : f [] = [[]])
    (hf : ∀ l, Inked l → f l ≠ [] ∧ ∀ x ∈ f l, Inked x) : Spaced (ls.flatMap f) := by
  induction h with
  | nil => exact .nil
  | line hl _ ih =>
    rw [List.flatMap_cons]
    exact ih.append_left (hf _ hl).2
  | @gap l rest hl _ ih =>
    obtain ⟨hne, hlines⟩ := hf l hl
    obtain ⟨x, more, hx⟩ := List.exists_cons_of_ne_nil hne
    rw [hx] at hlines
    obtain ⟨hink, hmore⟩ := List.forall_mem_cons.1 hlines
    rw [List.flatMap_cons, List.flatMap_cons, hempty, hx]
    exact .gap hink (ih.append_left hmore)

theorem Formed.flatMap {ls : List Bytes} (h : Formed ls) {f : Bytes → List Bytes} (hempty : f [] = [[]])
    (hf : ∀ l, Inked l → f l ≠ [] ∧ ∀ x ∈ f l, Inked x) : Formed (ls.flatMap f) := by
  obtain ⟨hspaced, hfirst⟩ := h
  refine ⟨hspaced.flatMap hempty hf, ?_⟩
  cases hspaced with
  | nil => exact hfirst
  | @line l rest hl _ =>
    obtain ⟨hne, hlines⟩ := hf l hl
    obtain ⟨x, more, hx⟩ := List.exists_cons_of_ne_nil hne
    rw [List.flatMap_cons, hx]
    intro hhead
    exact (hlines x (hx ▸ List.mem_cons_self)).ne_nil (Option.some.inj hhead)
  | gap => exact absurd rfl hfirst

theorem Spaced.single {ls : List Bytes} (h : Spaced ls) : ∀ l ∈ ls, 10 ∉ l := by
  induction h with
  | nil => exact nofun
  | line hl _ ih => exact List.forall_mem_cons.2 ⟨hl.single, ih⟩
  | gap hl _ ih =>
    exact List.forall_mem_cons.2 ⟨List.not_mem_nil, List.forall_mem_cons.2 ⟨hl.single, ih⟩⟩

theorem Spaced.bare {ls : List Bytes} (h : Spaced ls) :
    ∀ l ∈ ls, ∀ c ∈ l.getLast?, isBlank c = false := by
  induction h with
  | nil => exact nofun
  | line hl _ ih => exact List.forall_mem_cons.2 ⟨hl.bare, ih⟩
  | gap hl _ ih => exact List.forall_mem_cons.2 ⟨nofun, List.forall_mem_cons.2 ⟨hl.bare, ih⟩⟩

theorem Spaced.last {ls : List Bytes} (h : Spaced ls) : ls.getLast? ≠ some [] := by
  induction h with
  | nil => exact nofun
  | line hl _ ih => exact getLast?_cons_ne hl.ne_nil ih
  | gap hl _ ih =>
    rw [List.getLast?_cons_cons]
    exact getLast?_cons_ne hl.ne_nil ih

theorem Spaced.apart {ls : List Bytes} (h : Spaced ls) : ls.IsChain fun a b => a ≠ [] ∨ b ≠ [] := by
  induction h with
  | nil => exact .nil
  | line hl _ ih => exact List.isChain_cons.2 ⟨fun _ _ => .inl hl.ne_nil, ih⟩
  | gap hl _ ih =>
    apply List.IsChain.cons_cons (.inr hl.ne_nil)
    exact List.isChain_cons.2 ⟨fun _ _ => .inl hl.ne_nil, ih⟩

theorem Formed.normalForm {ls : List Bytes} (h : Formed ls) : NormalForm ls :=
  ⟨h.spaced.bare, h.first, h.spaced.last, h.spaced.apart⟩

/-! ## Steps of the clean-up -/

/-- Only behind a line is an empty line held back, so none comes first. -/
theorem spaced_squeezeFrom {ls : List Bytes} (h : ∀ l ∈ ls, 10 ∉ l) (started pending : Bool) :
    Spaced (squeezeFrom started pending ls) ∧
      (pending = false → started = false → (squeezeFrom started pending ls).head? ≠ some []) := by
  induction ls generalizing started pending with
  | nil => exact ⟨.nil, nofun⟩
  | cons l rest ih =>
    obtain ⟨hl, hrest⟩ := List.forall_mem_cons.1 h
    rw [squeezeFrom]
    split
    · refine ⟨(ih hrest _ _).1, ?_⟩
      rintro - rfl
      exact (ih hrest false false).2 rfl rfl
    · next hne =>
      have hinked := inked_trimEnd hl fun hnil => hne (List.isEmpty_iff.2 hnil)
      have hmore := (ih hrest true false).1
      split
      · next hpending => exact ⟨.gap hinked hmore, fun hfalse => absurd hpending (by simp [hfalse])⟩
      · exact ⟨.line hinked hmore, fun _ _ hhead => hinked.ne_nil (Option.some.inj hhead)⟩

theorem formed_squeeze {ls : List Bytes} (h : ∀ l ∈ ls, 10 ∉ l) : Formed (squeeze ls) :=
  ⟨(spaced_squeezeFrom h false false).1, (spaced_squeezeFrom h false false).2 rfl rfl⟩

theorem formed_squeeze_textLines (s : Bytes) : Formed (squeeze (textLines s)) :=
  formed_squeeze fun _ hl => notMem_of_mem_splitOn hl

theorem formed_dedent {ls : List Bytes} (h : Formed ls) : Formed (dedent ls) := by
  obtain ⟨shared, hblank, heq⟩ := exists_dedent_eq ls
  have hcut : ∀ l, Inked l → Inked (withoutStart shared l) := by
    intro l hl
    rcases withoutStart_cases shared l with hcut | ⟨-, hkept⟩
    · rw [hcut] at hl
      exact hl.of_blanks_append hblank
    · rwa [hkept]
  have hempty : withoutStart shared [] = [] := by
    cases shared <;> rfl
  rw [heq, List.map_eq_flatMap]
  refine h.flatMap (by rw [hempty]) fun l hl => ⟨List.cons_ne_nil _ _, ?_⟩
  intro x hx
  rw [List.mem_singleton.1 hx]
  exact hcut l hl

/-- What stays on a line ends with the comma, and what goes on the next line ends as the line did. -/
theorem inked_wrapWithin (bound : Nat) (opened : List Nat) {line : Bytes} (h : Inked line) :
    ∀ l ∈ Python.wrapWithin bound opened line, Inked l := by
  induction bound generalizing opened line with
  | zero => exact List.forall_mem_singleton.2 h
  | succ bound ih =>
    rw [Python.wrapWithin]
    split
    · exact List.forall_mem_singleton.2 h
    · split
      · exact List.forall_mem_singleton.2 h
      · next b hb =>
        obtain ⟨p, q, rfl, hq, hfront, hback⟩ := Python.exists_of_breakFrom hb
        have hkept : trimEnd (· == 32) (p ++ [44]) = p ++ [44] := by
          rw [trimEnd, List.reverse_append]
          simp
        have hkeeps : Inked (p ++ [44]) := by
          refine ⟨by simp, fun c hc => ?_, fun hmem => h.single ?_⟩
          · rw [List.getLast?_concat] at hc
            cases hc
            rfl
          · rw [List.append_cons]
            exact List.mem_append_left q hmem
        have hgoes : Inked q := by
          refine ⟨hq, ?_, fun hmem => h.single (by simp [hmem])⟩
          have hbare := h.bare
          rwa [List.append_cons, List.getLast?_append_of_ne_nil _ hq] at hbare
        rw [hfront, hback, hkept]
        refine List.forall_mem_cons.2 ⟨hkeeps, ih b.open' ?_⟩
        refine (hgoes.dropWhile fun c hc => ?_).append_left fun hmem => ?_
        · rw [eq_of_beq hc]
          rfl
        · exact absurd (List.eq_of_mem_replicate hmem) (by decide)

theorem wrapWithin_ne_nil (bound : Nat) (opened : List Nat) (line : Bytes) :
    Python.wrapWithin bound opened line ≠ [] := by
  cases bound with
  | zero => exact List.cons_ne_nil _ _
  | succ bound =>
    rw [Python.wrapWithin]
    split
    · exact List.cons_ne_nil _ _
    · split <;> exact List.cons_ne_nil _ _

/-! ## Listings -/

theorem formed_cleanPython (o : Options) (ls : List Bytes) : Formed (cleanPython o ls) := by
  unfold cleanPython
  dsimp only
  split
  · exact formed_squeeze_textLines _
  · exact (formed_dedent (formed_squeeze_textLines _)).flatMap rfl fun l hl =>
      ⟨wrapWithin_ne_nil _ _ _, inked_wrapWithin _ _ hl⟩

section

variable (format : Bytes → Option Bytes)

theorem formed_cleanBraces (lang : Language) (o : Options) (ls : List Bytes) :
    Formed (cleanBraces format lang o ls) := by
  unfold cleanBraces
  dsimp only
  split
  · exact formed_squeeze_textLines _
  · split
    · refine formed_dedent ?_
      cases format _ with
      | none => exact formed_squeeze_textLines _
      | some laid => exact formed_squeeze_textLines laid
    · exact formed_dedent (formed_squeeze_textLines _)

theorem formed_clean (lang : Language) (o : Options) {ls : List Bytes} (h : Formed ls) :
    Formed (clean format lang o ls) := by
  unfold clean
  split
  · exact h
  · exact formed_cleanPython o ls
  · exact formed_cleanBraces format lang o ls

theorem single_of_mem_physicalLines {text line : Bytes} (h : line ∈ physicalLines text) : 10 ∉ line := by
  rw [physicalLines] at h
  split at h
  · exact notMem_of_mem_splitOn (List.dropLast_subset _ h)
  · exact notMem_of_mem_splitOn h

end

/-- **Every listing is in normal form**, whatever its language and options, and whatever the formatter
makes of a source. -/
theorem extractWith_normalForm {format : Bytes → Option Bytes} {text out : Bytes} {request : Request}
    (h : extractWith format text request = .ok out) : out ≠ [] ∧ NormalForm (lines out) := by
  obtain ⟨selected, options, hselected, -, hne, rfl⟩ := exists_of_extractWith h
  have hsingle : ∀ l ∈ selected, 10 ∉ l := by
    intro l hl
    rcases hselected l hl with rfl | ⟨line, hline, hbegins⟩
    · exact List.not_mem_nil
    · exact fun hmem => single_of_mem_physicalLines hline (hbegins.subset hmem)
  have hformed := formed_clean format request.language options (formed_squeeze hsingle)
  have hlines : lines (unlines (clean format request.language options (squeeze selected))) =
      clean format request.language options (squeeze selected) :=
    splitOn_joinWith hne hformed.spaced.single
  have hform : NormalForm (lines (unlines (clean format request.language options (squeeze selected)))) := by
    rw [hlines]
    exact hformed.normalForm
  refine ⟨fun hnil => hform.first ?_, hform⟩
  rw [hnil]
  rfl

/-- The formatter puts empty lines and blanks around the source, and in the source a comment stands alone
between empty lines. -/
theorem extractWith_normalForm_formatted :
    let format : Bytes → Option Bytes := fun source =>
      some (bytes "\n \n" ++ source ++ bytes "\t\n\n\t\treturn  \n\n")
    let text := bytes "a\n\n\t\tx() // first\n\n\t// second\n\n\n\t\ty()\n"
    let request : Request := { lines := bytes "2-8", language := Language.ofPath (bytes "f.go") }
    let out := bytes "x()\n\ny()\n\nreturn"
    extractWith format text request = .ok out ∧ out ≠ [] ∧ NormalForm (lines out) := by
  intro format text request out
  have hout : extractWith format text request = .ok out := by decide +kernel
  exact ⟨hout, extractWith_normalForm hout⟩

end Bindery.Listing
