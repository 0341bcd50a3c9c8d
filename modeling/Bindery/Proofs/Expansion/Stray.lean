import Bindery.Proofs.Expansion.Origin
import Bindery.Proofs.Expansion.Reference

/-!
# Stray marks

A mark is a piece of text, so whatever a book reads can hold one that no reference has left. `Cut`
relates a text and the segments that it is cut into, from which the marks in it are read off wherever
they come from. The pass breaks down exactly if the number of a mark is beyond the references that are
pending, and all other marks become links. Expanding documents never breaks down: every directive hands
on a classified fault.
-/

namespace Bindery.Expansion

open Text
open Repository (Fetcher)

/-! ## Cutting a text at its marks -/

/-- A text and what it is cut into: at each place a mark is taken if one stands there, else a byte. -/
inductive Cut : Bytes → List Segment → Prop
  | nil : Cut [] []
  | literal {c : UInt8} {rest : Bytes} {cut : List Segment}
    (hnone : ∀ digits, IsNumber digits → ¬ markOf digits <+: c :: rest) (hrest : Cut rest cut) :
    Cut (c :: rest) (.literal c :: cut)
  | mark {digits rest : Bytes} {cut : List Segment} (hdigits : IsNumber digits)
    (hrest : Cut rest cut) : Cut (markOf digits ++ rest) (.mark digits :: cut)

theorem cut_segments (text : Bytes) : Cut text (segments text) := by
  induction hn : text.length using Nat.strongRecOn generalizing text with
  | ind n ih =>
    cases text with
    | nil => exact .nil
    | cons c rest =>
      cases hmark : markDigits? (c :: rest) with
      | none =>
        have hsegments : segments (c :: rest) = .literal c :: segments rest := by
          rw [segments, segmentsAfter, hmark]
          rfl
        rw [hsegments]
        refine .literal (fun digits hdigits hprefix => ?_) (ih rest.length ?_ rest rfl)
        · rw [markDigits?_eq_some.2 ⟨hdigits, rfl, hprefix⟩] at hmark
          cases hmark
        · rw [← hn]
          exact Nat.lt_succ_self _
      | some found =>
        obtain ⟨digits, length⟩ := found
        obtain ⟨hdigits, -, after, htext⟩ := markDigits?_eq_some.1 hmark
        rw [← htext, segments_markOf hdigits]
        refine .mark hdigits (ih after.length ?_ after rfl)
        rw [← hn, ← htext, List.length_append]
        exact Nat.lt_add_of_pos_left (by simp [markOf, markStart])

/-- The text of a segment, where a mark stands for the text that belongs to its digits. -/
def Segment.fill (f : Bytes → Bytes) : Segment → Bytes
  | .literal c => [c]
  | .mark digits => f digits

/-- A text with something put in the place of each mark. -/
def replaceMarks (f : Bytes → Bytes) (text : Bytes) : Bytes := (segments text).flatMap (Segment.fill f)

theorem Cut.flatMap_fill {text : Bytes} {cut : List Segment} (h : Cut text cut) :
    cut.flatMap (Segment.fill markOf) = text := by
  induction h with
  | nil => rfl
  | literal _ _ ih => rw [List.flatMap_cons, ih, Segment.fill, List.singleton_append]
  | mark _ _ ih => rw [List.flatMap_cons, ih, Segment.fill]

theorem replaceMarks_markOf (text : Bytes) : replaceMarks markOf text = text :=
  (cut_segments text).flatMap_fill

theorem isInfix_of_append {w rest digits : Bytes} (hw : 0xEE ∉ w)
    (h : markOf digits <:+: w ++ rest) : markOf digits <:+: rest := by
  induction w with
  | nil => exact h
  | cons c w ih =>
    obtain ⟨hc, hw⟩ := not_or.1 (mt List.mem_cons.2 hw)
    rcases List.infix_cons_iff.1 h with hprefix | hinfix
    · obtain ⟨hhead, -⟩ := List.cons_prefix_cons.1 hprefix
      exact absurd hhead hc
    · exact ih hw hinfix

/-- Marks do not overlap. -/
theorem isInfix_markOf_append {digits other rest : Bytes} (hdigits : IsNumber digits)
    (hother : IsNumber other) (h : markOf digits <:+: markOf other ++ rest) :
    digits = other ∨ markOf digits <:+: rest := by
  have hmark : markOf other ++ rest =
      0xEE :: ([0x80, 0x80] ++ other ++ 0xEE :: ([0x80, 0x81] ++ rest)) := by
    simp [markOf, markStart, markEnd]
  rw [hmark] at h
  rcases List.infix_cons_iff.1 h with ⟨after, hafter⟩ | hinside
  · left
    have heq : markStart ++ (digits ++ (markEnd ++ after)) =
        markStart ++ (other ++ (markEnd ++ rest)) := by
      simpa [markOf, markStart, markEnd] using hafter
    rw [← takeWhile_isDigit hdigits after, List.append_cancel_left heq, takeWhile_isDigit hother]
  · right
    -- Digits are not 0xEE, and what follows them begins the last character of the mark.
    have hend : markOf digits <:+: 0xEE :: ([0x80, 0x81] ++ rest) := by
      refine isInfix_of_append (fun hmem => ?_) hinside
      rcases List.mem_append.1 hmem with hmem | hmem
      · exact absurd hmem (by decide)
      · exact absurd (hother.2 _ hmem) (by decide)
    rcases List.infix_cons_iff.1 hend with ⟨after, hafter⟩ | htail
    · simp [markOf, markStart] at hafter
    · exact isInfix_of_append (by decide) htail

/-- The marks that a text is cut at are those that occur in it. -/
theorem Cut.mark_mem_iff {text : Bytes} {cut : List Segment} (h : Cut text cut) {digits : Bytes} :
    .mark digits ∈ cut ↔ IsNumber digits ∧ markOf digits <:+: text := by
  constructor
  · intro hmem
    induction h with
    | nil => cases hmem
    | literal _ _ ih =>
      obtain ⟨hdigits, hinfix⟩ := ih ((List.mem_cons.1 hmem).resolve_left nofun)
      exact ⟨hdigits, hinfix.trans (List.suffix_cons _ _).isInfix⟩
    | mark hfound _ ih =>
      rcases List.mem_cons.1 hmem with heq | hmem
      · cases heq
        exact ⟨hfound, (List.prefix_append _ _).isInfix⟩
      · obtain ⟨hdigits, hinfix⟩ := ih hmem
        exact ⟨hdigits, hinfix.trans (List.suffix_append _ _).isInfix⟩
  · rintro ⟨hdigits, hinfix⟩
    induction h with
    | nil => simp [markOf, markStart] at hinfix
    | literal hnone _ ih =>
      exact List.mem_cons_of_mem _ (ih ((List.infix_cons_iff.1 hinfix).resolve_left (hnone _ hdigits)))
    | mark hfound _ ih =>
      rcases isInfix_markOf_append hdigits hfound hinfix with rfl | hrest
      · exact List.mem_cons_self
      · exact List.mem_cons_of_mem _ (ih hrest)

theorem mark_mem_segments {text digits : Bytes} :
    .mark digits ∈ segments text ↔ IsNumber digits ∧ markOf digits <:+: text :=
  (cut_segments text).mark_mem_iff

def Segment.digits? : Segment → Option Bytes
  | .literal _ => none
  | .mark digits => some digits

/-- The digits of the marks in a text, in order. -/
def marksIn (text : Bytes) : List Bytes := (segments text).filterMap Segment.digits?

theorem mem_marksIn {text digits : Bytes} :
    digits ∈ marksIn text ↔ IsNumber digits ∧ markOf digits <:+: text := by
  rw [← mark_mem_segments, marksIn, List.mem_filterMap]
  constructor
  · rintro ⟨segment, hsegment, hdigits⟩
    cases segment with
    | literal c => cases hdigits
    | mark found =>
      obtain rfl := Option.some.inj hdigits
      exact hsegment
  · exact fun hmem => ⟨_, hmem, rfl⟩

theorem marksIn_fill {form : Form} (h : form.AllTidy) :
    marksIn (form.fill mark) = form.numbers.map ofNat := by
  have hliteral : ∀ text : Bytes, (text.map Segment.literal).filterMap Segment.digits? = [] := by
    intro text
    rw [List.filterMap_map]
    exact List.filterMap_eq_nil_iff.2 fun _ _ => rfl
  rw [marksIn, segments_fill h, List.filterMap_append, hliteral, List.append_nil, Form.numbers,
    List.map_map]
  induction form.places with
  | nil => rfl
  | cons p places ih =>
    rw [List.flatMap_cons, List.filterMap_append, ih, placeSegments, List.filterMap_append, hliteral]
    rfl

/-! ## Replacing whatever marks there are -/

section

variable {s : Setting} {draft : Draft}

theorem annotate_ne_crashed (fault : Fault) (file name : Bytes) (line : Nat) :
    s.annotate fault file name line ≠ .crashed := by
  obtain ⟨r, cause, heq, -⟩ := s.annotate_eq fault file name line
  rw [heq]
  exact nofun

/-- References break the program down exactly if the text holds a mark beyond them. -/
theorem resolveReferences_crashes_iff {text : Bytes} :
    resolveReferences s draft text = .error .crashed ↔
      ∃ digits, IsNumber digits ∧ markOf digits <:+: text ∧
        draft.pending.length ≤ Double.digitsValue digits := by
  constructor
  · intro h
    rcases fault_of_resolveReferences h with ⟨-, digits, hmem, hbeyond⟩ | ⟨p, -, refusal, -, hfault⟩
    · obtain ⟨hdigits, hinfix⟩ := mark_mem_segments.1 hmem
      exact ⟨digits, hdigits, hinfix, hbeyond⟩
    · exact absurd hfault.symm (annotate_ne_crashed _ _ _ _)
  · rintro ⟨digits, hdigits, hinfix, hbeyond⟩
    have hcrash : resolveSegment s draft (.mark digits) = .error .crashed := by
      rw [resolveSegment, List.getElem?_eq_none hbeyond]
    have hany : ((segments text).map (resolveSegment s draft)).any isCrash = true := by
      refine List.any_eq_true.2 ⟨_, List.mem_map_of_mem (mark_mem_segments.2 ⟨hdigits, hinfix⟩), ?_⟩
      rw [hcrash]
      rfl
    rw [resolveReferences, if_pos hany]

/-- A text that holds links for marks: each is the link of the reference that is pending under the
number of the mark. -/
def LinksMarks (draft : Draft) (raw text : Bytes) : Prop :=
  ∃ link : Bytes → Bytes, text = replaceMarks link raw ∧
    ∀ digits ∈ marksIn raw, ∃ p reference,
      draft.pending[Double.digitsValue digits]? = some p ∧
        draft.registry.lookup p.label = .ok reference ∧ link digits = reference.link

theorem resolveSegment_eq_ok {digits piece : Bytes}
    (h : resolveSegment s draft (.mark digits) = .ok piece) :
    ∃ p reference, draft.pending[Double.digitsValue digits]? = some p ∧
      draft.registry.lookup p.label = .ok reference ∧ piece = reference.link := by
  rw [resolveSegment] at h
  split at h
  · cases h
  · next p hp =>
    split at h
    · next reference hlookup => exact ⟨p, reference, hp, hlookup, (Except.ok.inj h).symm⟩
    · cases h

/-- What the mark with some digits becomes, if it can be resolved. -/
def resolved (s : Setting) (draft : Draft) (digits : Bytes) : Bytes :=
  (resolveSegment s draft (.mark digits)).toOption.getD []

/-- When all segments are resolved, marks have become what they can. -/
theorem pieces_eq {cut : List Segment} {pieces : List Bytes}
    (h : cut.map (resolveSegment s draft) = pieces.map .ok) :
    pieces = cut.map (Segment.fill (resolved s draft)) :=
  calc pieces = (pieces.map .ok).map fun r : Except Fault Bytes => r.toOption.getD [] := by
        rw [List.map_map]
        exact (List.map_id pieces).symm
    _ = (cut.map (resolveSegment s draft)).map fun r => r.toOption.getD [] := by rw [h]
    _ = cut.map (Segment.fill (resolved s draft)) := by
      rw [List.map_map]
      refine List.map_congr_left fun segment _ => ?_
      cases segment <;> rfl

theorem linksMarks_of_ok {raw text : Bytes} (h : resolveReferences s draft raw = .ok text) :
    LinksMarks draft raw text := by
  simp only [resolveReferences] at h
  split at h
  · cases h
  · cases hresults : ((segments raw).map (resolveSegment s draft)).mapM id with
    | error fault =>
      rw [hresults] at h
      cases h
    | ok pieces =>
      rw [hresults] at h
      obtain rfl : pieces.flatten = text := Except.ok.inj h
      have hpieces := eq_map_of_mapM_id hresults
      refine ⟨resolved s draft, ?_, fun digits hdigits => ?_⟩
      · rw [replaceMarks, List.flatMap_def, ← pieces_eq hpieces]
      · have hmem := List.mem_map_of_mem (f := resolveSegment s draft)
          (mark_mem_segments.2 (mem_marksIn.1 hdigits))
        rw [hpieces] at hmem
        obtain ⟨piece, -, hpiece⟩ := List.mem_map.1 hmem
        obtain ⟨p, reference, hp, hlookup, rfl⟩ := resolveSegment_eq_ok hpiece.symm
        refine ⟨p, reference, hp, hlookup, ?_⟩
        rw [resolved, ← hpiece]
        rfl

/-- What the last steps of a pass have made of a text if they succeed. -/
theorem linked_of_finish {node : Node} {raw : Bytes} {expanded : Expanded}
    (h : (finish s node raw draft).mapError s.withLanguage = .ok expanded) :
    LinksMarks draft raw expanded.text ∧
      expanded.labels = (draft.registry.scanNative expanded.text).2 := by
  cases hresolve : resolveReferences s draft raw with
  | error fault =>
    rw [finish_of_unresolved hresolve] at h
    cases h
  | ok text =>
    rw [finish_of_resolved hresolve] at h
    split at h
    · cases h
    · next labels hlabels =>
      obtain rfl := Except.ok.inj h
      refine ⟨linksMarks_of_ok hresolve, ?_⟩
      rw [hlabels]

/-! ## What a pass can fail with -/

theorem withLanguage_eq_crashed {fault : Fault} : s.withLanguage fault = .crashed ↔ fault = .crashed := by
  constructor
  · intro h
    unfold Setting.withLanguage at h
    split at h
    · rfl
    · split at h
      · next g hg =>
        obtain ⟨⟨r, cause, rfl⟩, -⟩ := Fault.classifiedPart?_eq_some hg
        cases h
      · cases h
  · rintro rfl
    rfl

theorem finish_eq_crashed (node : Node) {raw : Bytes} :
    finish s node raw draft = .error .crashed ↔ resolveReferences s draft raw = .error .crashed := by
  cases h : resolveReferences s draft raw with
  | error fault =>
    rw [finish_of_unresolved h, Except.error.injEq, Except.error.injEq]
  | ok text =>
    rw [finish_of_resolved h]
    refine iff_of_false ?_ nofun
    split
    · next refusal _ _ => cases refusal <;> exact nofun
    · exact nofun

end

/-! ## Documents -/

/-- The conduct of steps that fail with classified faults. -/
def classifying : Conduct where
  given _ := True
  ok _ _ _ := True
  fail _ _ fault := ∃ r cause, fault = .classified r cause
  refl _ := trivial
  trans _ _ := trivial
  fail_trans _ h := h

section Classifying

variable {α : Type} {s : Setting} {path : Bytes}

theorem classifying_throw (r : Report) (cause : Option Fault) :
    classifying.Always (throw (.classified r cause) : Pass α) :=
  Conduct.always_throw fun _ => ⟨r, cause, rfl⟩

theorem classifying_ask (request : Request) : classifying.Always (Pass.ask request) :=
  Conduct.always_ask fun _ _ _ => trivial

theorem classifying_mapFault (x : Pass α) (name : Bytes) (line : Nat) :
    classifying.Always (Pass.mapFault (s.annotate · path name line) x) := by
  intro d trace r hrun _
  obtain ⟨r', -, rfl⟩ := Pass.runs_mapFault.1 hrun
  rcases r' with fault | ⟨a, d'⟩
  · obtain ⟨report, cause, heq, -⟩ := s.annotate_eq fault path name line
    exact ⟨report, cause, heq⟩
  · exact ⟨trivial, trivial⟩

/-- Directives classify whatever their effect fails with. -/
theorem classifying_perform (input : Bytes → Pass Bytes) (directive : Directive) (args : List Bytes)
    (line : Nat) : classifying.Always (perform s path input directive args line) := by
  rw [perform_eq]
  refine Conduct.Always.bind (classifying_ask _) fun _ => ?_
  refine Conduct.Always.bind (classifying_mapFault _ _ _) fun output => ?_
  refine Conduct.Always.bind (classifying_ask _) fun _ => ?_
  exact Conduct.Always.bind (classifying_ask _) fun _ => Conduct.always_pure output

theorem classifying_expand (input : Bytes → Pass Bytes) (t : Template) (line : Nat) (out : Bytes) :
    classifying.Always (t.expand (perform s path input) line out) := by
  have htexts : classifying.Texts (fun _ _ _ => True) (fun _ => True) (perform s path input) := by
    refine ⟨fun _ => trivial, fun _ _ => trivial, fun _ _ => trivial, ?_, fun _ _ => ⟨_, _, rfl⟩⟩
    exact fun _ d directive args line _ => classifying_perform input directive args line d
  exact fun d => htexts.expand t (Template.all_of_forall (fun _ => trivial) t) line out d d trivial

theorem classifying_declareMetadata (text : Bytes) :
    classifying.Always (declareMetadata s path text) := by
  rw [declareMetadata]
  split
  · exact classifying_throw _ _
  · exact Conduct.always_pure _
  · exact classifying_ask _

/-- **Documents** fail with classified faults, whatever the documents do that they include. -/
theorem classifying_expandFile (chain : List Bytes) (path : Bytes) (depth : Nat) :
    classifying.Always (expandFile s chain path depth) := by
  have hmodify : ∀ f : Draft → Draft, classifying.Always (modify f : Pass PUnit) := fun f =>
    Conduct.always_modify fun _ => trivial
  rw [expandFile_eq]
  split
  · exact classifying_throw _ _
  · split
    · exact classifying_throw _ _
    · split
      · exact classifying_throw _ _
      · refine Conduct.Always.bind (classifying_ask _) fun _ => ?_
        refine Conduct.Always.bind (classifying_declareMetadata _) fun _ => ?_
        refine Conduct.Always.bind Conduct.always_get fun outer => ?_
        refine Conduct.Always.bind (hmodify _) fun _ => ?_
        refine Conduct.Always.bind (classifying_expand _ _ _ _) fun out => ?_
        refine Conduct.Always.bind Conduct.always_get fun inner => ?_
        refine Conduct.Always.bind (hmodify _) fun _ => ?_
        exact Conduct.Always.bind (classifying_ask _) fun _ => Conduct.always_pure _

end Classifying

/-! ## Passes -/

section

variable {fetch : Fetcher} {services : Services} {s : Setting} {root : Bytes} {node : Node}
  {raw : Bytes} {draft : Draft}

theorem not_crashed_of_failed {fault : Fault}
    (h : manuscript fetch services (s, root) = .error fault) :
    alone fetch services (s, root) = .error (s.withLanguage fault) ∧
      alone fetch services (s, root) ≠ .error .crashed := by
  obtain ⟨trace, r, hr, hruns, -, halone⟩ := runs_alone fetch services s root
  obtain rfl : r = .error fault := hr.symm.trans h
  obtain ⟨report, cause, rfl⟩ := classifying_expandFile [] root 0 _ trace _ hruns fun _ _ => trivial
  refine ⟨halone, fun hcrashed => ?_⟩
  cases withLanguage_eq_crashed.1 (Except.error.inj (halone.symm.trans hcrashed))

theorem alone_of_expanded (h : manuscript fetch services (s, root) = .ok ((node, raw), draft)) :
    alone fetch services (s, root) = (finish s node raw draft).mapError s.withLanguage := by
  obtain ⟨_, r, hr, -, -, halone⟩ := runs_alone fetch services s root
  obtain rfl : r = .ok ((node, raw), draft) := hr.symm.trans h
  exact halone

/-- What is pending when the root document is expanded was left by references. -/
theorem sited_pending (h : manuscript fetch services (s, root) = .ok ((node, raw), draft)) :
    ∀ p ∈ draft.pending, Sited s (conversation fetch services (s, root)) p.file .reference p.line := by
  obtain ⟨trace, r, hr, -, -, -, hmet⟩ := traced_manuscript fetch services s root
  obtain rfl : r = .ok ((node, raw), draft) := hr.symm.trans h
  obtain ⟨⟨-, hpending⟩, -⟩ := hmet
  exact fun p hp => (hpending p hp).resolve_left (by simp)

theorem crashes_iff (h : manuscript fetch services (s, root) = .ok ((node, raw), draft)) :
    alone fetch services (s, root) = .error .crashed ↔
      ∃ digits, IsNumber digits ∧ markOf digits <:+: raw ∧
        draft.pending.length ≤ Double.digitsValue digits := by
  rw [← resolveReferences_crashes_iff (s := s), ← finish_eq_crashed node,
    alone_of_expanded h]
  cases finish s node raw draft with
  | error fault => simp [Except.mapError, withLanguage_eq_crashed]
  | ok expanded => simp [Except.mapError]

theorem linksMarks_of_alone (h : manuscript fetch services (s, root) = .ok ((node, raw), draft))
    {expanded : Expanded} (hok : alone fetch services (s, root) = .ok expanded) :
    LinksMarks draft raw expanded.text := by
  rw [alone_of_expanded h] at hok
  exact (linked_of_finish hok).1

/-- In a plain book, marks are those that references have left, and each has left one at most. -/
theorem marks_of_plain (hroot : Path.isAbsolute s.resolver.root = true)
    (hplain : ∀ text ∈ readings fetch services (s, root), Plain text)
    (h : manuscript fetch services (s, root) = .ok ((node, raw), draft)) :
    ∃ numbers : List Nat, marksIn raw = numbers.map ofNat ∧ numbers.Pairwise (· < ·) ∧
      ∀ k ∈ numbers, ∃ p, (referring (conversation fetch services (s, root)))[k]? = some p ∧
        p.output = mark k ∧ draft.pending[k]? = some p.pending := by
  obtain ⟨form, hform, rfl, -, hrecorded, hledger⟩ :=
    exists_form_of_manuscript hroot (fun text htext => (hplain text htext).tidy) h
  refine ⟨form.numbers, marksIn_fill hform, hledger.ascending, fun k hk => ?_⟩
  obtain ⟨p, hp⟩ : ∃ p, (referring (conversation fetch services (s, root)))[k]? = some p :=
    ⟨_, List.getElem?_eq_getElem (hledger.bounds k hk).2⟩
  refine ⟨p, hp, by simpa using hrecorded.marks k p hp, ?_⟩
  rw [hrecorded.pending, List.nil_append, List.getElem?_map, hp]
  rfl

theorem not_crashed_of_plain (hroot : Path.isAbsolute s.resolver.root = true)
    (hplain : ∀ text ∈ readings fetch services (s, root), Plain text) :
    alone fetch services (s, root) ≠ .error .crashed := by
  cases h : manuscript fetch services (s, root) with
  | error fault => exact (not_crashed_of_failed h).2
  | ok result =>
    obtain ⟨⟨node, raw⟩, draft⟩ := result
    rw [ne_eq, crashes_iff h]
    rintro ⟨digits, hdigits, hinfix, hbeyond⟩
    obtain ⟨numbers, hnumbers, -, hleft⟩ := marks_of_plain hroot hplain h
    have hmem : digits ∈ numbers.map ofNat := by
      rw [← hnumbers]
      exact mem_marksIn.2 ⟨hdigits, hinfix⟩
    obtain ⟨k, hk, rfl⟩ := List.mem_map.1 hmem
    obtain ⟨p, -, -, hpending⟩ := hleft k hk
    rw [digitsValue_ofNat] at hbeyond
    rw [List.getElem?_eq_none hbeyond] at hpending
    cases hpending

end

/-- **Marks.** A pass whose documents cannot be expanded fails with a fault and does not break down.

If they can, the pass breaks down exactly if the text holds a mark whose number is beyond the references
that are pending, all of which references in opened documents have left. If it succeeds, its text is that
text with a link in the place of each mark, whoever wrote it: the link of the reference that is pending
under the number of the mark. All else is kept.

A plain book never breaks the pass down. There all marks were left by references, in the order of their
numbers, and each reference has left one at most. -/
theorem expand_marks (fetch : Fetcher) (services : Services) (s : Setting) (root : Bytes) :
    (∀ fault, manuscript fetch services (s, root) = .error fault →
      alone fetch services (s, root) = .error (s.withLanguage fault) ∧
        alone fetch services (s, root) ≠ .error .crashed) ∧
    (∀ node raw draft, manuscript fetch services (s, root) = .ok ((node, raw), draft) →
      (alone fetch services (s, root) = .error .crashed ↔
        ∃ digits, IsNumber digits ∧ markOf digits <:+: raw ∧
          draft.pending.length ≤ Double.digitsValue digits) ∧
      (∀ p ∈ draft.pending,
        Sited s (conversation fetch services (s, root)) p.file .reference p.line) ∧
      replaceMarks markOf raw = raw ∧
      ∀ expanded, alone fetch services (s, root) = .ok expanded →
        LinksMarks draft raw expanded.text) ∧
    (Path.isAbsolute s.resolver.root = true →
      (∀ text ∈ readings fetch services (s, root), Plain text) →
      alone fetch services (s, root) ≠ .error .crashed ∧
      ∀ node raw draft, manuscript fetch services (s, root) = .ok ((node, raw), draft) →
        ∃ numbers : List Nat, marksIn raw = numbers.map ofNat ∧ numbers.Pairwise (· < ·) ∧
          ∀ k ∈ numbers, ∃ p, (referring (conversation fetch services (s, root)))[k]? = some p ∧
            p.output = mark k ∧ draft.pending[k]? = some p.pending) :=
  ⟨fun _ h => not_crashed_of_failed h,
    fun _ raw _ h => ⟨crashes_iff h, sited_pending h, replaceMarks_markOf raw,
      fun _ hok => linksMarks_of_alone h hok⟩,
    fun hroot hplain => ⟨not_crashed_of_plain hroot hplain,
      fun _ _ _ h => marks_of_plain hroot hplain h⟩⟩

/-- A book without references whose text holds what looks like a mark. -/
def straySetting : Setting where
  tree :=
    { entries :=
        [([bytes "b"], .directory),
          ([bytes "b", bytes "book.md"],
            .file (bytes "Set in " ++ markOf (bytes "7") ++ bytes " glyphs.\n"))] }
  resolver := { root := bytes "/b" }

/-- The digits of all marks in the text of a book, and how many references are pending. -/
def markDigits (result : Except Fault ((Node × Bytes) × Draft)) : Option (List Bytes × Nat) :=
  result.toOption.map fun r => (marksIn r.1.2, r.2.pending.length)

/-- The stray mark breaks the pass down, a malformed book does not, and the plain book that refers to
what it defines later has one mark, which its reference has left and which becomes the link. -/
theorem expand_marks_stray :
    alone (fun _ _ => .error .other) {} (straySetting, bytes "/b/book.md") = .error .crashed ∧
    ((∃ fault, strayed = .error (strayedSetting.withLanguage fault)) ∧ strayed ≠ .error .crashed) ∧
    Path.isAbsolute forwardSetting.resolver.root = true ∧
    (∀ text ∈ readings (fun _ _ => .error .other) {} (forwardSetting, bytes "/b/book.md"),
      Plain text) ∧
    alone (fun _ _ => .error .other) {} (forwardSetting, bytes "/b/book.md") ≠ .error .crashed ∧
    ∃ draft raw expanded,
      alone (fun _ _ => .error .other) {} (forwardSetting, bytes "/b/book.md") = .ok expanded ∧
      LinksMarks draft raw expanded.text ∧
      ∃ k p, marksIn raw = [ofNat k] ∧ draft.pending[k]? = some p := by
  have hplain : ∀ text ∈ readings (fun _ _ => .error .other) {} (forwardSetting, bytes "/b/book.md"),
      Plain text := by decide +kernel
  have htext : (text? (alone (fun _ _ => .error .other) {}
      (forwardSetting, bytes "/b/book.md"))).isSome = true := by decide +kernel
  have hstray : markDigits (manuscript (fun _ _ => .error .other) {}
      (straySetting, bytes "/b/book.md")) = some ([bytes "7"], 0) := by decide +kernel
  have hforward : markDigits (manuscript (fun _ _ => .error .other) {}
      (forwardSetting, bytes "/b/book.md")) = some ([bytes "0"], 1) := by decide +kernel
  have hmalformed : (manuscript (fun _ _ => .error .other) {}
      (strayedSetting, bytes "/b/book.md")).isOk = false := by decide +kernel
  obtain ⟨-, hwritten, -⟩ := expand_marks (fun _ _ => .error .other) {} straySetting (bytes "/b/book.md")
  obtain ⟨hfails, -, -⟩ := expand_marks (fun _ _ => .error .other) {} strayedSetting (bytes "/b/book.md")
  obtain ⟨-, hlinked, hsafe⟩ :=
    expand_marks (fun _ _ => .error .other) {} forwardSetting (bytes "/b/book.md")
  obtain ⟨hholds, hmarks⟩ := hsafe rfl hplain
  refine ⟨?_, ?_, rfl, hplain, hholds, ?_⟩
  · cases hresult : manuscript (fun _ _ => .error .other) {} (straySetting, bytes "/b/book.md") with
    | error fault =>
      rw [hresult] at hstray
      cases hstray
    | ok result =>
      rw [hresult] at hstray
      obtain ⟨hdigits, hpending⟩ := Prod.mk.inj (Option.some.inj hstray)
      have hmem : bytes "7" ∈ marksIn result.1.2 := by simp [hdigits]
      obtain ⟨hnumber, hinfix⟩ := mem_marksIn.1 hmem
      refine (hwritten _ _ _ hresult).1.2 ⟨bytes "7", hnumber, hinfix, ?_⟩
      rw [hpending]
      exact Nat.zero_le _
  · cases hresult : manuscript (fun _ _ => .error .other) {} (strayedSetting, bytes "/b/book.md") with
    | error fault =>
      obtain ⟨hfault, hholds⟩ := hfails fault hresult
      exact ⟨⟨fault, hfault⟩, hholds⟩
    | ok result =>
      rw [hresult] at hmalformed
      cases hmalformed
  · cases hresult : manuscript (fun _ _ => .error .other) {} (forwardSetting, bytes "/b/book.md") with
    | error fault =>
      rw [((expand_marks _ {} forwardSetting _).1 fault hresult).1] at htext
      cases htext
    | ok result =>
      obtain ⟨⟨node, raw⟩, draft⟩ := result
      obtain ⟨numbers, hnumbers, -, hleft⟩ := hmarks node raw draft hresult
      rw [hresult] at hforward
      obtain ⟨hdigits, -⟩ := Prod.mk.inj (Option.some.inj hforward)
      obtain ⟨k, others, rfl, hk, -⟩ := List.map_eq_cons_iff.1 (hnumbers.symm.trans hdigits)
      obtain ⟨p, -, -, hpending⟩ := hleft k List.mem_cons_self
      cases hok : alone (fun _ _ => .error .other) {} (forwardSetting, bytes "/b/book.md") with
      | error fault =>
        rw [hok] at htext
        cases htext
      | ok expanded =>
        refine ⟨draft, raw, expanded, rfl, (hlinked node raw draft hresult).2.2.2 expanded hok, k,
          p.pending, ?_, hpending⟩
        rw [hk]
        exact hdigits

end Bindery.Expansion
