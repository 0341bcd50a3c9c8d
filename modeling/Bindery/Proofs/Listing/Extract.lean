import Bindery.Listing.Extract
import Bindery.Proofs.Listing.Python

/-!
# Listings of tidy sources

A listing is made by cutting and joining a source, whatever its language and whatever is asked for.
-/

namespace Bindery.Listing

open Text

theorem exists_of_bind_eq_ok {ε α β : Type} {x : Except ε α} {f : α → Except ε β} {b : β}
    (h : x >>= f = .ok b) : ∃ a, x = .ok a ∧ f a = .ok b := by
  cases x with
  | error e => cases h
  | ok a => exact ⟨a, rfl, h⟩

theorem tidy_source {ls : List Bytes} (h : TidyLines ls) : Tidy (unlines ls ++ [10]) :=
  (tidy_unlines h).append (tidy_of_isAscii (by decide))

theorem tidy_cleanPython (o : Options) {ls : List Bytes} (h : TidyLines ls) :
    TidyLines (cleanPython o ls) := by
  have hsource := tidy_source h
  obtain ⟨hlogicals, hcomments⟩ := Python.aligned_tokenize hsource
  unfold cleanPython
  dsimp only
  have hspans : Python.Cuts (unlines ls ++ [10])
      ((if o.keepComments then [] else
          (Python.tokenize (unlines ls ++ [10])).2.map (Python.commentSpan (unlines ls ++ [10])))
        ++ (if o.keepDoc then [] else Python.docSpans (Python.tokenize (unlines ls ++ [10])).1)
        ++ (if o.keepHints then [] else Python.hintSpans (Python.tokenize (unlines ls ++ [10])).1)) := by
    refine Python.Cuts.append (Python.Cuts.append ?_ ?_) ?_
    · split
      · exact Python.cuts_nil _
      · intro span hspan
        obtain ⟨c, hc, rfl⟩ := List.mem_map.1 hspan
        exact Python.boundary_commentSpan (hcomments c hc).1 (hcomments c hc).2
    · split
      · exact Python.cuts_nil _
      · exact Python.cuts_docSpansFrom (fun l hl => (hlogicals l hl).1) true
    · split
      · exact Python.cuts_nil _
      · exact Python.cuts_hintSpans hlogicals
  have hout := tidy_squeeze (tidy_textLines (Python.tidy_applyCuts hsource hspans))
  split
  · exact hout
  · intro l hl
    obtain ⟨line, hline, hl⟩ := List.mem_flatMap.1 hl
    exact Python.tidy_wrap (tidy_dedent hout line hline) l hl

/-- A formatter that makes a tidy source into a tidy text. -/
def KeepsTidy (format : Bytes → Option Bytes) : Prop :=
  ∀ source laid, Tidy source → format source = some laid → Tidy laid

theorem keepsTidy_format : KeepsTidy Layout.format? := by
  intro source laid hsource hlaid
  obtain ⟨ls, hls, rfl⟩ := Option.map_eq_some_iff.1 hlaid
  exact tidy_source (Layout.tidy_layout (tidy_textLines hsource) hls)

section

variable {format : Bytes → Option Bytes}

theorem tidy_cleanBraces (hformat : KeepsTidy format) (lang : Language) (o : Options) {ls : List Bytes}
    (h : TidyLines ls) : TidyLines (cleanBraces format lang o ls) := by
  have hsource : Tidy (if o.keepComments then unlines ls ++ [10]
      else stripComments lang.hasRawStrings (unlines ls ++ [10])) := by
    split
    · exact tidy_source h
    · exact tidy_stripComments _ (tidy_source h)
  have hout := tidy_squeeze (tidy_textLines hsource)
  unfold cleanBraces
  dsimp only
  split
  · exact hout
  · split
    · refine tidy_dedent ?_
      cases hlaid : format _ with
      | none => exact hout
      | some laid => exact tidy_squeeze (tidy_textLines (hformat _ _ (tidy_source hout) hlaid))
    · exact tidy_dedent hout

theorem tidy_clean (hformat : KeepsTidy format) (lang : Language) (o : Options) {ls : List Bytes}
    (h : TidyLines ls) : TidyLines (clean format lang o ls) := by
  unfold clean
  split
  · exact h
  · exact tidy_cleanPython o h
  · exact tidy_cleanBraces hformat lang o h

theorem exists_of_extractWith {text out : Bytes} {request : Request}
    (h : extractWith format text request = .ok out) :
    ∃ selected options,
      (∀ l ∈ selected, l = [] ∨ ∃ line ∈ physicalLines text, l <+: line) ∧
      squeeze selected ≠ [] ∧ clean format request.language options (squeeze selected) ≠ [] ∧
      out = unlines (clean format request.language options (squeeze selected)) := by
  unfold extractWith at h
  cases hwhite : isWhite text with
  | true =>
    rw [hwhite] at h
    cases h
  | false =>
    simp only [hwhite, Bool.false_eq_true, if_false] at h
    obtain ⟨lines, -, h⟩ := exists_of_bind_eq_ok h
    obtain ⟨labels, -, h⟩ := exists_of_bind_eq_ok h
    obtain ⟨options, -, h⟩ := exists_of_bind_eq_ok h
    obtain ⟨scanned, hscanned, h⟩ := exists_of_bind_eq_ok h
    obtain ⟨selected, hselected, h⟩ := exists_of_bind_eq_ok h
    refine ⟨selected, options, isPrefix_of_selected hscanned hselected, ?_⟩
    split at h
    · cases h
    · next hne =>
      split at h
      · cases h
      · next hfull =>
        refine ⟨fun hnil => hne (List.isEmpty_iff.2 hnil), fun hnil => hfull ?_, (Except.ok.inj h).symm⟩
        rw [hnil]
        rfl

/-- **The listing of a tidy source is tidy.** -/
theorem tidy_extractWith (hformat : KeepsTidy format) {text : Bytes} (h : Tidy text) {request : Request}
    {out : Bytes} (hout : extractWith format text request = .ok out) : Tidy out := by
  obtain ⟨selected, options, hselected, -, -, rfl⟩ := exists_of_extractWith hout
  have htidy : TidyLines selected := by
    intro l hl
    rcases hselected l hl with rfl | ⟨line, hline, hbegins⟩
    · exact tidy_nil
    · exact (tidy_physicalLines h line hline).start hbegins
  exact tidy_unlines (tidy_clean hformat _ _ (tidy_squeeze htidy))

end

theorem tidy_extract {text : Bytes} (h : Tidy text) {request : Request} {out : Bytes}
    (hout : extract text request = .ok out) : Tidy out := tidy_extractWith keepsTidy_format h hout

end Bindery.Listing
