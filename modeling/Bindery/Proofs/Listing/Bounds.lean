import Bindery.Proofs.Listing.Remark
import Bindery.Proofs.Listing.Signature
import Bindery.Proofs.Listing.Span
import Bindery.Proofs.Listing.Tiling

/-!
# Spans within the source

All spans that are left out of a source stop within it and not before they start. Cutting such spans reads the
source only where it has bytes, and leaves those that lie in none of the spans, in whatever order spans with the
same start are cut (`uncovered_of_within`).
-/

namespace Bindery.Listing.Python

open Text

def Span.Within (source : Bytes) (span : Span) : Prop := span.start ≤ span.stop ∧ span.stop ≤ source.length

instance (source : Bytes) (span : Span) : Decidable (span.Within source) := inferInstanceAs (Decidable (_ ∧ _))

/-! ## Cutting by offsets -/

/-- The bytes from an offset up to a span behind it. -/
def gapAt? (source : Bytes) (position : Nat) (span : Span) : Option Bytes :=
  if span.start > position then slice? source position span.start else some []

/-- The bytes from an offset on that lie in none of the spans, which are ordered by their start, with slices that
exist only between offsets in order and within the source. -/
def cutAt? (source : Bytes) (position : Nat) : List Span → Option Bytes
  | [] => slice? source position source.length
  | span :: rest =>
    if span.stop ≤ position then cutAt? source position rest
    else do
      let before ← gapAt? source position span
      let behind ← cutAt? source span.stop rest
      some (before ++ behind)

section

variable {source : Bytes} {spans arranged : List Span} {position : Nat}

theorem slice?_eq {s : Bytes} {start stop : Nat} (h : start ≤ stop) (hstop : stop ≤ s.length) :
    slice? s start stop = some (slice s start stop) := by
  rw [slice?, if_pos ⟨h, hstop⟩, List.drop_take, slice]

/-- Every offset of the cuts is in its range. -/
theorem cutAt?_eq (hposition : position ≤ source.length) (h : ∀ span ∈ spans, span.Within source) :
    cutAt? source position spans = some (cutFrom source position spans) := by
  induction spans generalizing position with
  | nil => exact slice?_to_end hposition
  | cons span rest ih =>
    obtain ⟨⟨hspan, hstop⟩, hrest⟩ := List.forall_mem_cons.1 h
    rw [cutAt?, cutFrom]
    split
    · exact ih hposition hrest
    · have hbefore : gapAt? source position span = some (slice source position span.start) := by
        rw [gapAt?]
        split
        · next hlt => exact slice?_eq (Nat.le_of_lt hlt) (hspan.trans hstop)
        · -- A span that begins inside of the last one leaves nothing between them.
          next hle => rw [slice, Nat.sub_eq_zero_of_le (Nat.le_of_not_lt hle), List.take_zero]
      rw [hbefore, ih hstop hrest]
      rfl

/-! ## The spans of a source -/

theorem reaches_of_inLine {tokens : List Token} (h : InLine tokens) (hstop : ∀ t ∈ tokens, t.stop ≤ source.length) :
    Reaches (fun start stop => start ≤ stop ∧ stop ≤ source.length) tokens := by
  refine ⟨fun t ht start hlt => ⟨hlt.le, hstop t ht⟩, ?_⟩
  refine List.Pairwise.imp_of_mem ?_ h.1
  intro a b ha hb hab
  have hfirst := h.2 a ha
  have hsecond := h.2 b hb
  have hend := hstop b hb
  omega

/-- Spans of documentation strings and type hints lie in the source. -/
theorem within_lineSpans (source : Bytes) :
    ∀ span ∈ docSpans (tokenize source).1 ++ hintSpans (tokenize source).1, span.Within source := by
  obtain ⟨hconsecutive, hwithin⟩ := consecutive_tokenize source
  have hbounds := hconsecutive.bounds
  have hline : ∀ l ∈ (tokenize source).1, l.start ≤ l.stop ∧ l.stop ≤ source.length := fun l hl =>
    ⟨(hbounds l hl).2.1.le, (hbounds l hl).2.2⟩
  refine List.forall_mem_append.2 ⟨?_, ?_⟩
  · exact @spanning_docSpansFrom (fun start stop => start ≤ stop ∧ stop ≤ source.length) _ hline true
  · apply @spanning_hintSpans (fun start stop => start ≤ stop ∧ stop ≤ source.length)
    intro l hl
    refine ⟨reaches_of_inLine (inLine_tokenize hl).1 ?_, hline l hl⟩
    exact fun t ht => (hwithin l hl t ht).2.trans (hline l hl).2

/-- **Cutting spans within a source leaves the bytes that lie in none of them**, and all spans of comments,
documentation strings and type hints lie within it. -/
theorem uncovered_of_within (source : Bytes) :
    (∀ spans : List Span, (∀ span ∈ spans, span.Within source) →
      applyCuts source spans = uncovered spans source ∧
      ∀ arranged : List Span, arranged.Perm spans → arranged.Pairwise (fun a b => a.start ≤ b.start) →
        cutAt? source 0 arranged = some (uncovered spans source)) ∧
    (∀ c ∈ (tokenize source).2, slice? source c.lineStart c.start = some (slice source c.lineStart c.start)) ∧
    ∀ span ∈ (tokenize source).2.map (commentSpan source) ++
      (docSpans (tokenize source).1 ++ hintSpans (tokenize source).1), span.Within source := by
  obtain ⟨-, -, hcomments, -⟩ := reads_tokenize source
  refine ⟨?_, ?_, ?_⟩
  · intro spans hspans
    refine ⟨applyCuts_eq fun span hspan => (hspans span hspan).1, ?_⟩
    intro arranged hperm hsorted
    rw [cutAt?_eq (Nat.zero_le _) fun span hspan => hspans span (hperm.subset hspan),
      cutFrom_of_perm hperm hsorted fun span hspan => (hspans span hspan).1]
  · intro c hc
    obtain ⟨front, line, text, following, n, rfl, -, -, hlineStart, hstart, -⟩ := hcomments c hc
    apply slice?_eq
    · omega
    · simp only [List.length_append]
      omega
  · apply List.forall_mem_append.2 ⟨_, within_lineSpans source⟩
    intro span hspan
    obtain ⟨c, hc, rfl⟩ := List.mem_map.1 hspan
    exact (commentSpan_cutBy (hcomments c hc)).within

/-- Spans that overlap, one in another, one twice and one empty. -/
def overlappingSpans : List Span := [⟨5, 7⟩, ⟨1, 4⟩, ⟨1, 2⟩, ⟨5, 7⟩, ⟨3, 5⟩, ⟨8, 8⟩]

/-- The same spans by their start, the shorter one of two first. -/
def arrangedSpans : List Span := [⟨1, 2⟩, ⟨1, 4⟩, ⟨3, 5⟩, ⟨5, 7⟩, ⟨5, 7⟩, ⟨8, 8⟩]

theorem uncovered_of_within_overlappingSpans :
    (∀ span ∈ overlappingSpans, span.Within (bytes "x: int y")) ∧ arrangedSpans.Perm overlappingSpans ∧
    arrangedSpans.Pairwise (fun a b => a.start ≤ b.start) ∧
    applyCuts (bytes "x: int y") overlappingSpans = bytes "xy" ∧
    cutAt? (bytes "x: int y") 0 arrangedSpans = some (bytes "xy") := by
  have hwithin : ∀ span ∈ overlappingSpans, span.Within (bytes "x: int y") := by decide
  have hperm : arrangedSpans.Perm overlappingSpans := by decide
  have hsorted : arrangedSpans.Pairwise fun a b => a.start ≤ b.start := by decide
  have hleft : uncovered overlappingSpans (bytes "x: int y") = bytes "xy" := by decide
  obtain ⟨hcut, harranged⟩ := (uncovered_of_within (bytes "x: int y")).1 overlappingSpans hwithin
  rw [hleft] at hcut harranged
  exact ⟨hwithin, hperm, hsorted, hcut, harranged arrangedSpans hperm hsorted⟩

end

end Bindery.Listing.Python
