import Bindery.Listing.Python.Cut
import Bindery.Proofs.Text.Space

/-!
# Cutting spans

Cutting spans out of a source leaves the bytes that lie in none of them (`applyCuts_eq`), as long as no
span ends before it starts. Pieces of the source that no span touches stay as they are and in order
(`inOrder_uncovered`).
-/

namespace Bindery.Listing.Python

open Text

def covered (spans : List Span) (i : Nat) : Bool :=
  spans.any fun span => decide (span.start ≤ i) && decide (i < span.stop)

/-- The bytes of a source from an offset on that lie in none of the spans. -/
def uncoveredFrom (spans : List Span) (source : Bytes) (i : Nat) : Bytes :=
  ((source.zipIdx.drop i).filter fun x => !covered spans x.2).map Prod.fst

def uncovered (spans : List Span) (source : Bytes) : Bytes := uncoveredFrom spans source 0

section

variable {spans : List Span} {source : Bytes} {i j : Nat}

theorem covered_eq_true : covered spans i = true ↔ ∃ span ∈ spans, span.start ≤ i ∧ i < span.stop := by
  simp [covered]

theorem bounds_of_mem_zipIdx {x : UInt8 × Nat} {n : Nat} (h : x ∈ (source.zipIdx.drop i).take n) :
    i ≤ x.2 ∧ x.2 < i + n := by
  obtain ⟨k, hk, rfl⟩ := List.mem_iff_getElem.1 h
  rw [List.length_take] at hk
  simp only [List.getElem_take, List.getElem_drop, List.getElem_zipIdx]
  omega

theorem map_fst_zipIdx (n : Nat) :
    ((source.zipIdx.drop i).take n).map Prod.fst = (source.drop i).take n := by
  rw [List.map_take, List.map_drop, List.zipIdx_map_fst]

theorem drop_zipIdx_eq (h : i ≤ j) : source.zipIdx.drop i =
    (source.zipIdx.drop i).take (j - i) ++ source.zipIdx.drop j := by
  have hdrop : source.zipIdx.drop j = (source.zipIdx.drop i).drop (j - i) := by
    rw [List.drop_drop, Nat.add_sub_cancel' h]
  rw [hdrop, List.take_append_drop]

theorem uncoveredFrom_eq_append (hij : i ≤ j) (h : ∀ k, i ≤ k → k < j → covered spans k = false) :
    uncoveredFrom spans source i = slice source i j ++ uncoveredFrom spans source j := by
  rw [uncoveredFrom, drop_zipIdx_eq hij, List.filter_append, List.map_append, slice, ← map_fst_zipIdx]
  congr 2
  apply List.filter_eq_self.2
  intro x hx
  obtain ⟨hlo, hhi⟩ := bounds_of_mem_zipIdx hx
  rw [h x.2 hlo (by omega)]
  rfl

theorem uncoveredFrom_eq (hij : i ≤ j) (h : ∀ k, i ≤ k → k < j → covered spans k = true) :
    uncoveredFrom spans source i = uncoveredFrom spans source j := by
  rw [uncoveredFrom, drop_zipIdx_eq hij, List.filter_append, List.map_append]
  have hnil : ((source.zipIdx.drop i).take (j - i)).filter (fun x => !covered spans x.2) = [] := by
    apply List.filter_eq_nil_iff.2
    intro x hx
    obtain ⟨hlo, hhi⟩ := bounds_of_mem_zipIdx hx
    rw [h x.2 hlo (by omega)]
    simp
  rw [hnil]
  rfl

theorem uncoveredFrom_congr {others : List Span} (h : ∀ k, i ≤ k → covered spans k = covered others k) :
    uncoveredFrom spans source i = uncoveredFrom others source i := by
  rw [uncoveredFrom, uncoveredFrom]
  congr 1
  apply List.filter_congr
  intro x hx
  rw [← List.take_length (l := source.zipIdx.drop i)] at hx
  rw [h x.2 (bounds_of_mem_zipIdx hx).1]

theorem exists_uncoveredFrom (hij : i ≤ j) :
    ∃ gap, uncoveredFrom spans source i = gap ++ uncoveredFrom spans source j := by
  rw [uncoveredFrom, drop_zipIdx_eq hij, List.filter_append, List.map_append]
  exact ⟨_, rfl⟩

theorem covered_cons_of_le {span : Span} (h : span.stop ≤ i) : covered (span :: spans) i = covered spans i := by
  have hout : ¬ i < span.stop := by omega
  simp [covered, hout]

theorem covered_cons_of_lt {span : Span} (h : ∀ s ∈ spans, span.start ≤ s.start) (hi : i < span.start) :
    covered (span :: spans) i = false := by
  rw [← Bool.not_eq_true, covered_eq_true]
  rintro ⟨s, hs, hlo, -⟩
  rcases List.mem_cons.1 hs with rfl | hs
  · omega
  · have := h s hs
    omega

theorem cutFrom_eq (hsorted : spans.Pairwise fun a b => a.start ≤ b.start)
    (h : ∀ span ∈ spans, span.start ≤ span.stop) :
    cutFrom source i spans = uncoveredFrom spans source i := by
  induction spans generalizing i with
  | nil =>
    have hnone : (source.zipIdx.drop i).filter (fun x => !covered [] x.2) = source.zipIdx.drop i :=
      List.filter_eq_self.2 fun _ _ => rfl
    rw [cutFrom, uncoveredFrom, hnone, List.map_drop, List.zipIdx_map_fst]
  | cons span rest ih =>
    obtain ⟨hspan, hrest⟩ := List.pairwise_cons.1 hsorted
    obtain ⟨hle, hspans⟩ := List.forall_mem_cons.1 h
    have hbehind : uncoveredFrom (span :: rest) source span.stop = uncoveredFrom rest source span.stop :=
      uncoveredFrom_congr fun k hk => covered_cons_of_le hk
    have hinside : ∀ {j}, span.start ≤ j → j ≤ span.stop →
        uncoveredFrom (span :: rest) source j = uncoveredFrom rest source span.stop := by
      intro j hstart hstop
      rw [← hbehind]
      apply uncoveredFrom_eq hstop
      intro k hlo hhi
      exact covered_eq_true.2 ⟨span, List.mem_cons_self, by omega, hhi⟩
    rw [cutFrom]
    split
    · next hstop =>
      rw [ih hrest hspans]
      apply uncoveredFrom_congr
      intro k hk
      exact (covered_cons_of_le (by omega)).symm
    · next hstop =>
      rw [ih hrest hspans]
      rcases Nat.le_total i span.start with hi | hi
      · rw [uncoveredFrom_eq_append hi fun k _ hk => covered_cons_of_lt hspan hk, hinside (Nat.le_refl _) hle]
      · have hnil : slice source i span.start = [] := by
          rw [slice, Nat.sub_eq_zero_of_le hi, List.take_zero]
        rw [hnil, List.nil_append, hinside hi (by omega)]

/-- The order of spans with the same start does not matter. -/
theorem cutFrom_of_perm {arranged : List Span} (hperm : arranged.Perm spans)
    (hsorted : arranged.Pairwise fun a b => a.start ≤ b.start) (h : ∀ span ∈ spans, span.start ≤ span.stop) :
    cutFrom source 0 arranged = uncovered spans source := by
  rw [uncovered, cutFrom_eq hsorted fun span hspan => h span (hperm.subset hspan)]
  apply uncoveredFrom_congr
  intro k _
  rw [Bool.eq_iff_iff, covered_eq_true, covered_eq_true]
  simp only [hperm.mem_iff]

/-- **Cutting leaves the bytes that lie in no span.** -/
theorem applyCuts_eq (h : ∀ span ∈ spans, span.start ≤ span.stop) :
    applyCuts source spans = uncovered spans source := by
  have hsorted := @List.pairwise_mergeSort _ (fun a b : Span => decide (a.start ≤ b.start))
    (by intro a b c; simp only [decide_eq_true_eq]; omega)
    (by intro a b; simp only [Bool.or_eq_true, decide_eq_true_eq]; omega) spans
  exact cutFrom_of_perm (List.mergeSort_perm spans _) (by simpa using hsorted) h

/-- Pieces of a source that no span touches stand in what is left, one behind the other. -/
theorem inOrder_uncovered {tokens : List Token} (hstart : ∀ t ∈ tokens, i ≤ t.start)
    (hordered : tokens.Pairwise fun a b => a.stop ≤ b.start)
    (hslice : ∀ t ∈ tokens, t.start ≤ t.stop ∧ slice source t.start t.stop = t.text)
    (happart : ∀ t ∈ tokens, ∀ span ∈ spans, t.stop ≤ span.start ∨ span.stop ≤ t.start) :
    InOrder (tokens.map Token.text) (uncoveredFrom spans source i) := by
  induction tokens generalizing i with
  | nil => exact .nil _
  | cons t rest ih =>
    obtain ⟨hbehind, hordered⟩ := List.pairwise_cons.1 hordered
    obtain ⟨⟨hle, htext⟩, hslice⟩ := List.forall_mem_cons.1 hslice
    obtain ⟨ht, happart⟩ := List.forall_mem_cons.1 happart
    have huncovered : ∀ k, t.start ≤ k → k < t.stop → covered spans k = false := by
      intro k hlo hhi
      rw [← Bool.not_eq_true, covered_eq_true]
      rintro ⟨span, hspan, hstart, hstop⟩
      rcases ht span hspan with h | h <;> omega
    obtain ⟨gap, hgap⟩ := @exists_uncoveredFrom spans source i t.start (hstart t List.mem_cons_self)
    rw [hgap, uncoveredFrom_eq_append hle huncovered, htext]
    exact .cons gap t.text (ih hbehind hordered hslice happart)

end

end Bindery.Listing.Python
