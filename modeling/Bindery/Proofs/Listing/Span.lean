import Bindery.Listing.Python.Cut

/-!
# Where spans begin and end

A span that is left out goes over a whole logical line, or from one of its tokens to the end of a later one, or
to the start of a later one that closes the span. So whatever holds between tokens in their order holds between
the start and the stop of the spans of a line (`Reaches.hints`).
-/

namespace Bindery.Listing.Python

open Text

variable {R : Nat → Nat → Prop} {tokens rest : List Token} {t : Token}

/-- A relation holds between the offsets of tokens: up to the end of a token from all in front of it, and from
one token to a later one. -/
structure Reaches (R : Nat → Nat → Prop) (tokens : List Token) : Prop where
  within : ∀ t ∈ tokens, ∀ start < t.stop, R start t.stop
  between : tokens.Pairwise fun a b => R a.stop b.start ∧ R a.start b.stop

def Spanning (R : Nat → Nat → Prop) (spans : List Span) : Prop := ∀ span ∈ spans, R span.start span.stop

theorem spanning_nil (R : Nat → Nat → Prop) : Spanning R [] := List.forall_mem_nil _

theorem Spanning.append {spans more : List Span} (h : Spanning R spans) (hmore : Spanning R more) :
    Spanning R (spans ++ more) := List.forall_mem_append.2 ⟨h, hmore⟩

theorem Reaches.suffix (h : Reaches R tokens) (hsuffix : rest <:+ tokens) : Reaches R rest :=
  ⟨fun t ht => h.within t (hsuffix.subset ht), h.between.sublist hsuffix.sublist⟩

/-! ## Signatures -/

/-- What is known of parameters is related. -/
structure Parameters.Spanning (R : Nat → Nat → Prop) (p : Parameters) : Prop where
  annotated : ∀ stop, p.annotated = some stop → ∀ start < stop, R start stop
  spans : Python.Spanning R p.spans

theorem Parameters.Spanning.flush {p : Parameters} (h : p.Spanning R) : p.flush.Spanning R := by
  refine ⟨nofun, ?_⟩
  unfold Parameters.flush
  dsimp only
  split
  · next start stop _ hstop =>
    -- Only a span that stops behind its start is kept, whatever the annotation began with.
    split
    · next hlt => exact h.spans.append (List.forall_mem_singleton.2 (h.annotated stop hstop start hlt))
    · exact h.spans
  · exact h.spans

theorem Parameters.Spanning.read {p : Parameters} (h : p.Spanning R) (ht : ∀ start < t.stop, R start t.stop) :
    (p.read t).Spanning R := by
  unfold Parameters.read
  dsimp only
  split
  · exact ⟨h.flush.annotated, h.flush.spans⟩
  · split
    · exact ⟨h.flush.annotated, h.flush.spans⟩
    · split
      · exact ⟨h.annotated, h.spans⟩
      · refine ⟨fun stop hstop => ?_, h.spans⟩
        dsimp only at hstop
        split at hstop
        · exact Option.some.inj hstop ▸ ht
        · exact h.annotated stop hstop

theorem spanning_parameterHints {p : Parameters} (hp : p.Spanning R) (h : Reaches R tokens) :
    Spanning R (parameterHints p tokens).1 ∧
      ∀ closing rest, (parameterHints p tokens).2 = some (closing, rest) → closing :: rest <:+ tokens := by
  induction tokens generalizing p with
  | nil => exact ⟨hp.flush.spans, nofun⟩
  | cons t rest ih =>
    unfold parameterHints
    split
    · refine ⟨hp.flush.spans, ?_⟩
      rintro closing rest' heq
      cases heq
      exact List.suffix_refl _
    · have hread := hp.read (h.within t List.mem_cons_self)
      obtain ⟨hspans, hclosing⟩ := ih hread (h.suffix (List.suffix_cons t rest))
      exact ⟨hspans, fun closing rest' heq => (hclosing closing rest' heq).trans (List.suffix_cons t rest)⟩

theorem spanning_resultHint {closing : Token} (h : Reaches R (closing :: rest)) :
    Spanning R (resultHint closing rest) := by
  unfold resultHint
  split
  · next arrow rest =>
    split
    · split
      · next colon hcolon =>
        have hmem : colon ∈ arrow :: rest := List.mem_cons_of_mem _ (List.mem_of_find?_eq_some hcolon)
        exact List.forall_mem_singleton.2 ((List.pairwise_cons.1 h.between).1 colon hmem).1
      · exact spanning_nil R
    · exact spanning_nil R
  · exact spanning_nil R

theorem suffix_of_afterParenthesis {inside : List Token} (h : afterParenthesis? tokens = some inside) :
    inside <:+ tokens := by
  induction tokens with
  | nil => cases h
  | cons t rest ih =>
    rw [afterParenthesis?] at h
    split at h
    · cases h
      exact List.suffix_cons t _
    · exact (ih h).trans (List.suffix_cons t rest)

theorem spanning_signatureHints (h : Reaches R tokens) : Spanning R (signatureHints tokens) := by
  unfold signatureHints
  split
  · exact spanning_nil R
  · next inside hinside =>
    have hline := h.suffix (suffix_of_afterParenthesis hinside)
    obtain ⟨hspans, hclosing⟩ := spanning_parameterHints (p := {}) ⟨nofun, spanning_nil R⟩ hline
    split
    · next spans heq =>
      rw [heq] at hspans
      exact hspans
    · next spans closing rest heq =>
      rw [heq] at hspans hclosing
      exact hspans.append (spanning_resultHint (hline.suffix (hclosing closing rest rfl)))

/-! ## Statements -/

theorem suffix_dropAttributes (tokens : List Token) : dropAttributes tokens <:+ tokens := by
  fun_induction dropAttributes tokens with
  | case1 dot name rest _ ih => exact ih.trans ((List.suffix_cons name rest).trans (List.suffix_cons dot _))
  | case2 => exact List.suffix_refl _
  | case3 => exact List.suffix_refl _

/-- The annotation of a statement ends with one of its tokens. -/
theorem exists_of_endBeforeEquals {stop : Nat} (h : endBeforeEquals? t.stop rest = some stop) :
    ∃ last ∈ t :: rest, stop = last.stop := by
  induction rest generalizing t with
  | nil => cases h
  | cons u rest ih =>
    rw [endBeforeEquals?] at h
    split at h
    · cases h
      exact ⟨t, List.mem_cons_self, rfl⟩
    · obtain ⟨last, hlast, heq⟩ := ih h
      exact ⟨last, List.mem_cons_of_mem t hlast, heq⟩

theorem related_annotationSpan {l : LogicalLine} (h : Reaches R l.tokens) (hl : R l.start l.stop) {span : Span}
    (hspan : annotationSpan? l = some span) : R span.start span.stop := by
  unfold annotationSpan? at hspan
  split at hspan
  · cases hspan
  · next first rest htokens =>
    split at hspan
    · cases hspan
    · split at hspan
      · next colon next more hdrop =>
        have hsuffix : colon :: next :: more <:+ l.tokens := by
          rw [← hdrop, htokens]
          exact (suffix_dropAttributes rest).trans (List.suffix_cons first rest)
        have hbetween := (List.pairwise_cons.1 (h.suffix hsuffix).between).1
        split at hspan
        · cases hspan
        · split at hspan
          · cases hspan
          · split at hspan
            · next stop hstop =>
              cases hspan
              obtain ⟨last, hlast, rfl⟩ := exists_of_endBeforeEquals hstop
              exact (hbetween last hlast).2
            · cases hspan
              exact hl
      · cases hspan

/-- Where tokens and lines are related, so are the spans of type hints. -/
theorem spanning_hintSpans {logicals : List LogicalLine}
    (h : ∀ l ∈ logicals, Reaches R l.tokens ∧ R l.start l.stop) : Spanning R (hintSpans logicals) := by
  intro span hspan
  obtain ⟨l, hl, hspan⟩ := List.mem_flatMap.1 hspan
  obtain ⟨htokens, hline⟩ := h l hl
  split at hspan
  · exact spanning_signatureHints htokens span hspan
  · exact related_annotationSpan htokens hline (Option.mem_toList.1 hspan)

/-! ## Documentation strings -/

theorem spanning_docSpansFrom {logicals : List LogicalLine} (h : ∀ l ∈ logicals, R l.start l.stop)
    (expected : Bool) : Spanning R (docSpansFrom expected logicals) := by
  induction logicals generalizing expected with
  | nil => exact spanning_nil R
  | cons l rest ih =>
    obtain ⟨hl, hrest⟩ := List.forall_mem_cons.1 h
    unfold docSpansFrom
    dsimp only
    split
    · exact ih hrest expected
    · split
      · exact List.forall_mem_cons.2 ⟨hl, ih hrest _⟩
      · exact ih hrest _

end Bindery.Listing.Python
