import Bindery.Proofs.Listing.Level

/-!
# Annotations among parameters

Reading parameters finds runs of tokens (`hintsFrom`): a colon that can begin an annotation, and what
follows it up to the next comma or equals sign. The spans that are found frame these runs
(`spans_read`), so a token lies outside of the spans exactly when it belongs to none of the runs
(`outside_iff`).
-/

namespace Bindery.Listing.Python

open Text

/-! ## Tokens between parameters -/

/-- A comma, equals sign or colon between the brackets of the parameters, and in none inside of them. -/
def Token.isComma (t : Token) : Bool := t.depth == 1 && t.kind == .operator && t.text == bytes ","

@[inherit_doc Token.isComma]
def Token.isEquals (t : Token) : Bool := t.depth == 1 && t.kind == .operator && t.text == bytes "="

@[inherit_doc Token.isComma]
def Token.isColon (t : Token) : Bool := t.depth == 1 && t.kind == .operator && t.text == bytes ":"

/-- The word that begins a function without a name. -/
def Token.isLambda (t : Token) : Bool := t.depth == 1 && t.kind == .name && t.text == bytes "lambda"

def Token.endsHint (t : Token) : Bool := t.isComma || t.isEquals

/-- The annotation that tokens behind its colon begin with. -/
def hintOf (ts : List Token) : List Token := ts.takeWhile (!·.endsHint)

/-- The annotations among the tokens of parameters, each with its colon. With `awaiting`, a colon can
begin one: since the last comma there was no equals sign, no colon and no `lambda`. -/
def hintsFrom : Bool → List Token → List (List Token)
  | _, [] => []
  | awaiting, t :: rest =>
    if t.isComma then hintsFrom true rest
    else if t.isEquals then hintsFrom false rest
    else if awaiting && t.isColon then
      if hintOf rest = [] then hintsFrom false rest else (t :: hintOf rest) :: hintsFrom false rest
    else hintsFrom (awaiting && !t.isLambda) rest

/-- The bytes from the first to the last token of a run. -/
def spanOf (ts : List Token) : Span where
  start := (ts.head?.map Token.start).getD 0
  stop := (ts.getLast?.map Token.stop).getD 0

def InLine (ts : List Token) : Prop :=
  ts.Pairwise (fun a b => a.stop ≤ b.start) ∧ ∀ t ∈ ts, t.start < t.stop

section

variable {p : Parameters} {t : Token} {ts us rest : List Token} {awaiting : Bool}

theorem InLine.cons (h : InLine (t :: ts)) : t.start < t.stop ∧ (∀ u ∈ ts, t.stop ≤ u.start) ∧ InLine ts := by
  obtain ⟨hordered, hlength⟩ := h
  rw [List.pairwise_cons] at hordered
  rw [List.forall_mem_cons] at hlength
  exact ⟨hlength.1, hordered.1, hordered.2, hlength.2⟩

/-! ## Reading -/

/-- The span of an annotation that began at an offset and goes on over tokens, where `annotated` is the end of
what was read of it. -/
def openSpan (start : Nat) (annotated : Option Nat) (ts : List Token) : List Span :=
  match ((hintOf ts).getLast?.map Token.stop).or annotated with
  | some stop => [{ start, stop }]
  | none => []

theorem openSpan_cons {start : Nat} {annotated : Option Nat} (h : t.endsHint = false) :
    openSpan start annotated (t :: ts) = openSpan start (some t.stop) ts := by
  have hcons : hintOf (t :: ts) = t :: hintOf ts := List.takeWhile_cons_of_pos (by simp [h])
  rw [openSpan, openSpan, hcons]
  rcases List.eq_nil_or_concat (hintOf ts) with hts | ⟨init, u, hts⟩
  · rw [hts]
    rfl
  · rw [hts, List.concat_eq_append, ← List.cons_append, List.getLast?_concat, List.getLast?_concat]
    rfl

theorem openSpan_of_endsHint {start : Nat} {annotated : Option Nat} (h : t.endsHint = true) :
    openSpan start annotated (t :: ts) = openSpan start annotated [] := by
  have hcons : hintOf (t :: ts) = [] := List.takeWhile_cons_of_neg (by simp [h])
  rw [openSpan, openSpan, hcons]
  rfl

theorem openSpan_none :
    openSpan t.start none ts = if hintOf ts = [] then [] else [spanOf (t :: hintOf ts)] := by
  rcases List.eq_nil_or_concat (hintOf ts) with hts | ⟨init, u, hts⟩
  · rw [openSpan, hts]
    rfl
  · rw [openSpan, hts, List.concat_eq_append, spanOf, ← List.cons_append, List.getLast?_concat,
      List.getLast?_concat, if_neg (by simp)]
    rfl

theorem hintsFrom_cons_comma (h : t.isComma = true) : hintsFrom awaiting (t :: ts) = hintsFrom true ts := by
  rw [hintsFrom, if_pos h]

theorem hintsFrom_cons_equals (h : t.isComma = false) (h' : t.isEquals = true) :
    hintsFrom awaiting (t :: ts) = hintsFrom false ts := by
  rw [hintsFrom, if_neg (by simp [h]), if_pos h']

theorem hintsFrom_cons_endsHint (h : t.endsHint = true) :
    hintsFrom awaiting (t :: ts) = hintsFrom t.isComma ts := by
  by_cases hcomma : t.isComma = true
  · rw [hintsFrom_cons_comma hcomma, hcomma]
  · rw [Bool.not_eq_true] at hcomma
    rw [Token.endsHint, hcomma, Bool.false_or] at h
    rw [hintsFrom_cons_equals hcomma h, hcomma]

theorem hintsFrom_cons (h : t.endsHint = false) (hcolon : awaiting = true → t.isColon = false) :
    hintsFrom awaiting (t :: ts) = hintsFrom (awaiting && !t.isLambda) ts := by
  rw [Token.endsHint, Bool.or_eq_false_iff] at h
  have hno : (awaiting && t.isColon) = false := by
    cases awaiting with
    | false => rfl
    | true => exact hcolon rfl
  rw [hintsFrom, if_neg (by simp [h.1]), if_neg (by simp [h.2]), if_neg (by simp [hno])]

theorem hintsFrom_cons_colon (h : t.endsHint = false) (hcolon : t.isColon = true) :
    hintsFrom true (t :: ts) =
      if hintOf ts = [] then hintsFrom false ts else (t :: hintOf ts) :: hintsFrom false ts := by
  rw [Token.endsHint, Bool.or_eq_false_iff] at h
  rw [hintsFrom, if_neg (by simp [h.1]), if_neg (by simp [h.2]), if_pos (by simp [hcolon])]

theorem read_eq (p : Parameters) (t : Token) : p.read t =
    if t.isComma then { p.flush with inDefault := false, inLambda := false }
    else if t.isEquals then { p.flush with inDefault := true }
    else if t.isColon && !p.inDefault && !p.inLambda && p.annotation.isNone then
      { p with annotation := some t.start }
    else
      { p with
        inLambda := p.inLambda || t.isLambda
        annotated := if p.annotation.isSome then some t.stop else p.annotated } := rfl

/-- What is known of an annotation that is being read, with tokens to follow. -/
structure Parameters.Open (p : Parameters) (ts : List Token) : Prop where
  annotated : p.annotation = none → p.annotated = none
  lt_annotated : ∀ start stop, p.annotation = some start → p.annotated = some stop → start < stop
  lt_stop : ∀ start, p.annotation = some start → ∀ t ∈ ts, start < t.stop

/-- The spans of an annotation that is being read, and of those that follow. -/
def Parameters.spansIn (p : Parameters) (ts : List Token) : List Span :=
  match p.annotation with
  | some start => openSpan start p.annotated ts ++ (hintsFrom false ts).map spanOf
  | none => (hintsFrom (!p.inDefault && !p.inLambda) ts).map spanOf

theorem spans_flush (h : p.Open ts) : p.flush.spans = p.spans ++ p.spansIn [] := by
  rw [Parameters.flush, Parameters.spansIn]
  cases hstart : p.annotation with
  | none => simp [hintsFrom]
  | some start =>
    cases hstop : p.annotated with
    | none => simp [openSpan, hintOf, hintsFrom]
    | some stop =>
      have hlt := h.lt_annotated start stop hstart hstop
      simp [openSpan, hintOf, hintsFrom, hlt]

theorem spansIn_of_endsHint (h : t.endsHint = true) :
    p.spansIn (t :: ts) = p.spansIn [] ++ (hintsFrom t.isComma ts).map spanOf := by
  rw [Parameters.spansIn, Parameters.spansIn]
  cases p.annotation with
  | none =>
    dsimp only
    rw [hintsFrom_cons_endsHint h]
    rfl
  | some start =>
    dsimp only
    rw [hintsFrom_cons_endsHint h, openSpan_of_endsHint h]
    simp [hintsFrom]

theorem spans_read (hts : InLine ts) (h : p.Open ts) :
    (ts.foldl Parameters.read p).flush.spans = p.spans ++ p.spansIn ts := by
  induction ts generalizing p with
  | nil => exact spans_flush h
  | cons t ts ih =>
    obtain ⟨hlength, hbehind, hts⟩ := hts.cons
    have hclosed : ∀ q : Parameters, q.annotation = none → q.annotated = none → q.Open ts := by
      intro q hstarted hannotated
      refine ⟨fun _ => hannotated, ?_, ?_⟩
      · intro start stop hstart
        rw [hstarted] at hstart
        cases hstart
      · intro start hstart
        rw [hstarted] at hstart
        cases hstart
    rw [List.foldl_cons, read_eq]
    by_cases hends : t.endsHint = true
    · rw [spansIn_of_endsHint hends, ← List.append_assoc, ← spans_flush h]
      by_cases hcomma : t.isComma = true
      · rw [if_pos hcomma, ih hts (hclosed _ rfl rfl), hcomma]
        rfl
      · rw [Token.endsHint, Bool.or_eq_true] at hends
        have hequals := hends.resolve_left hcomma
        rw [Bool.not_eq_true] at hcomma
        rw [if_neg (by simp [hcomma]), if_pos hequals, ih hts (hclosed _ rfl rfl), hcomma]
        rfl
    rw [Bool.not_eq_true] at hends
    have hno : t.isComma = false ∧ t.isEquals = false := Bool.or_eq_false_iff.1 hends
    rw [if_neg (by simp [hno.1]), if_neg (by simp [hno.2])]
    cases hstarted : p.annotation with
    | some start =>
      have hstart := List.forall_mem_cons.1 (h.lt_stop start hstarted)
      rw [if_neg (by simp), if_pos (by simp), ih hts ⟨?_, ?_, ?_⟩]
      · rw [Parameters.spansIn, Parameters.spansIn, hstarted]
        dsimp only
        rw [openSpan_cons hends, hintsFrom_cons hends (by simp), Bool.false_and]
      · rintro ⟨⟩
      · rintro _ _ ⟨⟩ ⟨⟩
        exact hstart.1
      · rintro _ ⟨⟩
        exact hstart.2
    | none =>
      have hnone := h.annotated hstarted
      by_cases hcolon : (t.isColon && !p.inDefault && !p.inLambda) = true
      · rw [if_pos (by simpa using hcolon), ih hts ⟨?_, ?_, ?_⟩]
        · rw [Parameters.spansIn, Parameters.spansIn, hstarted]
          rw [Bool.and_eq_true, Bool.and_eq_true] at hcolon
          dsimp only
          rw [hcolon.1.2, hcolon.2, hnone, openSpan_none, Bool.and_true, hintsFrom_cons_colon hends hcolon.1.1]
          split <;> rfl
        · rintro ⟨⟩
        · rintro _ _ ⟨⟩ hstop
          rw [hnone] at hstop
          cases hstop
        · rintro _ ⟨⟩ u hu
          exact hlength.trans_le ((hbehind u hu).trans (hts.2 u hu).le)
      · rw [if_neg (by simpa using hcolon), if_neg (by simp), ih hts (hclosed _ ?_ ?_)]
        · rw [Parameters.spansIn, Parameters.spansIn, hstarted]
          dsimp only
          rw [hintsFrom_cons hends, Bool.not_or, Bool.and_assoc]
          intro hawaiting
          rw [Bool.and_assoc, hawaiting, Bool.and_true, Bool.not_eq_true] at hcolon
          exact hcolon
        · rfl
        · exact hnone

/-! ## Runs -/

theorem hintOf_append (h : t.endsHint = true) : hintOf (ts ++ t :: us) = hintOf ts := by
  induction ts with
  | nil => exact List.takeWhile_cons_of_neg (by simp [h])
  | cons u ts ih =>
    rw [hintOf] at ih
    rw [hintOf, hintOf, List.cons_append, List.takeWhile_cons, List.takeWhile_cons, ih]
    rfl

theorem hintOf_eq (h : ∀ t ∈ ts, t.endsHint = false) : hintOf ts = ts :=
  List.takeWhile_eq_self_iff.2 (by simpa using h)

/-- What ends an annotation separates the annotations in front of it from those behind. -/
theorem hintsFrom_append (h : t.endsHint = true) :
    hintsFrom awaiting (ts ++ t :: us) = hintsFrom awaiting ts ++ hintsFrom t.isComma us := by
  fun_induction hintsFrom awaiting ts with
  | case1 awaiting => exact hintsFrom_cons_endsHint h
  | case2 awaiting u ts hcomma ih => rw [List.cons_append, hintsFrom_cons_comma hcomma, ih]
  | case3 awaiting u ts hcomma hequals ih =>
    rw [List.cons_append, hintsFrom_cons_equals (by simpa using hcomma) hequals, ih]
  | case4 awaiting u ts hcomma hequals hcolon hnil ih =>
    rw [Bool.and_eq_true] at hcolon
    rw [List.cons_append, hcolon.1, hintsFrom_cons_colon (by simp [Token.endsHint, hcomma, hequals]) hcolon.2,
      hintOf_append h, if_pos hnil, ih]
  | case5 awaiting u ts hcomma hequals hcolon hnil ih =>
    rw [Bool.and_eq_true] at hcolon
    rw [List.cons_append, hcolon.1, hintsFrom_cons_colon (by simp [Token.endsHint, hcomma, hequals]) hcolon.2,
      hintOf_append h, if_neg hnil, ih, List.cons_append]
  | case6 awaiting u ts hcomma hequals hcolon ih =>
    rw [List.cons_append, hintsFrom_cons (by simp [Token.endsHint, hcomma, hequals]) (by simpa using hcolon), ih]

/-- An annotation is a run of the tokens without an end of an annotation in it. -/
theorem infix_of_mem_hintsFrom {run : List Token} (h : run ∈ hintsFrom awaiting ts) :
    run ≠ [] ∧ run <:+: ts ∧ ∀ t ∈ run, t.endsHint = false := by
  have hcons : ∀ {u ts}, (run ≠ [] ∧ run <:+: ts ∧ ∀ t ∈ run, t.endsHint = false) →
      run ≠ [] ∧ run <:+: u :: ts ∧ ∀ t ∈ run, t.endsHint = false := fun h =>
    ⟨h.1, List.infix_cons h.2.1, h.2.2⟩
  fun_induction hintsFrom awaiting ts with
  | case1 => cases h
  | case2 _ _ _ _ ih => exact hcons (ih h)
  | case3 _ _ _ _ _ ih => exact hcons (ih h)
  | case4 _ _ _ _ _ _ _ ih => exact hcons (ih h)
  | case5 awaiting u ts hcomma hequals hcolon hnil ih =>
    rcases List.mem_cons.1 h with rfl | h
    · refine ⟨List.cons_ne_nil _ _, ?_, List.forall_mem_cons.2 ⟨by simp [Token.endsHint, hcomma, hequals], ?_⟩⟩
      · exact (List.prefix_cons_inj u).2 (List.takeWhile_prefix _) |>.isInfix
      · intro t ht
        simpa using List.mem_takeWhile_imp ht
    · exact hcons (ih h)
  | case6 _ _ _ _ _ _ ih => exact hcons (ih h)

/-- Tokens in which a colon would begin an annotation. -/
def Exposed (ts : List Token) : Prop :=
  ∃ names colon next behind, ts = names ++ colon :: next :: behind ∧
    (∀ t ∈ names, t.endsHint = false ∧ t.isColon = false ∧ t.isLambda = false) ∧
    colon.isColon = true ∧ next.endsHint = false

/-- Tokens in which a colon would begin an annotation behind a comma, as the colon of a `lambda` with
several parameters does. -/
def Loose (ts : List Token) : Prop :=
  ∃ front comma rest, ts = front ++ comma :: rest ∧ comma.isComma = true ∧ Exposed rest

theorem Token.endsHint_of_isColon (h : t.isColon = true) : t.endsHint = false := by
  rw [isColon, Bool.and_eq_true, beq_iff_eq] at h
  have hcomma : (bytes ":" == bytes ",") = false := by decide
  have hequals : (bytes ":" == bytes "=") = false := by decide
  rw [endsHint, isComma, isEquals, h.2, hcomma, hequals, Bool.and_false]
  rfl

theorem hintsFrom_append_names
    (h : ∀ t ∈ ts, t.endsHint = false ∧ t.isColon = false ∧ t.isLambda = false) :
    hintsFrom true (ts ++ us) = hintsFrom true us := by
  induction ts with
  | nil => rfl
  | cons t ts ih =>
    obtain ⟨⟨hends, hcolon, hlambda⟩, hts⟩ := List.forall_mem_cons.1 h
    rw [List.cons_append, hintsFrom_cons hends fun _ => hcolon, hlambda]
    exact ih hts

theorem Exposed.ne_nil (h : Exposed ts) : hintsFrom true ts ≠ [] := by
  obtain ⟨names, colon, next, behind, rfl, hnames, hcolon, hnext⟩ := h
  have hcons : hintOf (next :: behind) = next :: hintOf behind := List.takeWhile_cons_of_pos (by simp [hnext])
  rw [hintsFrom_append_names hnames, hintsFrom_cons_colon (Token.endsHint_of_isColon hcolon) hcolon, hcons]
  simp

theorem Loose.cons (h : Loose ts) : Loose (t :: ts) := by
  obtain ⟨front, comma, rest, rfl, h⟩ := h
  exact ⟨t :: front, comma, rest, rfl, h⟩

theorem Loose.ne_nil (h : Loose ts) : hintsFrom awaiting ts ≠ [] := by
  obtain ⟨front, comma, rest, rfl, hcomma, hrest⟩ := h
  rw [hintsFrom_append (by rw [Token.endsHint, hcomma, Bool.true_or]), hcomma]
  exact List.append_ne_nil_of_right_ne_nil _ hrest.ne_nil

theorem exposed_or_loose (h : hintsFrom awaiting ts ≠ []) : (awaiting = true ∧ Exposed ts) ∨ Loose ts := by
  fun_induction hintsFrom awaiting ts with
  | case1 => exact absurd rfl h
  | case2 awaiting u ts hcomma ih =>
    right
    rcases ih h with ⟨-, hts⟩ | hts
    · exact ⟨[], u, ts, rfl, hcomma, hts⟩
    · exact hts.cons
  | case3 awaiting u ts hcomma hequals ih =>
    rcases ih h with ⟨hfalse, -⟩ | hts
    · cases hfalse
    · exact .inr hts.cons
  | case4 awaiting u ts hcomma hequals hcolon hnil ih =>
    rcases ih h with ⟨hfalse, -⟩ | hts
    · cases hfalse
    · exact .inr hts.cons
  | case5 awaiting u ts hcomma hequals hcolon hne ih =>
    rw [Bool.and_eq_true] at hcolon
    left
    refine ⟨hcolon.1, ?_⟩
    cases ts with
    | nil => exact absurd rfl hne
    | cons next behind =>
      refine ⟨[], u, next, behind, rfl, by simp, hcolon.2, ?_⟩
      by_contra hnext
      exact hne (List.takeWhile_cons_of_neg (by simpa using hnext))
  | case6 awaiting u ts hcomma hequals hcolon ih =>
    rcases ih h with ⟨hawaiting, names, colon, next, behind, rfl, hnames, hts⟩ | hts
    · rw [Bool.and_eq_true] at hawaiting
      rw [hawaiting.1, Bool.true_and, Bool.not_eq_true] at hcolon
      refine .inl ⟨hawaiting.1, u :: names, colon, next, behind, rfl, List.forall_mem_cons.2 ⟨?_, hnames⟩, hts⟩
      exact ⟨by simp [Token.endsHint, hcomma, hequals], hcolon, by simpa using hawaiting.2⟩
    · exact .inr hts.cons

/-- Behind an equals sign no annotation begins unless a colon stands behind a comma. -/
theorem hintsFrom_false_eq_nil : hintsFrom false ts = [] ↔ ¬ Loose ts := by
  constructor
  · intro h hloose
    exact hloose.ne_nil h
  · intro h
    by_contra hne
    rcases exposed_or_loose hne with ⟨hfalse, -⟩ | hloose
    · cases hfalse
    · exact h hloose

/-! ## Spans and runs -/

/-- A span takes in the tokens of a run and no other of the tokens. -/
def Span.Frames (ts : List Token) (span : Span) (run : List Token) : Prop :=
  (∀ t ∈ run, span.start ≤ t.start ∧ t.stop ≤ span.stop) ∧
    ∀ t ∈ ts, t ∉ run → t.stop ≤ span.start ∨ span.stop ≤ t.start

theorem InLine.append (h : InLine (ts ++ us)) : InLine ts ∧ InLine us ∧ ∀ t ∈ ts, ∀ u ∈ us, t.stop ≤ u.start := by
  obtain ⟨hordered, hlength⟩ := h
  obtain ⟨hts, hus, hcross⟩ := List.pairwise_append.1 hordered
  obtain ⟨hts', hus'⟩ := List.forall_mem_append.1 hlength
  exact ⟨⟨hts, hts'⟩, ⟨hus, hus'⟩, hcross⟩

theorem InLine.nodup (h : InLine ts) : ts.Nodup := by
  apply h.1.imp_of_mem
  rintro t u ht hu hle rfl
  exact absurd (h.2 t ht) (Nat.not_lt.2 hle)

theorem InLine.start_le (h : InLine (t :: ts)) : ∀ u ∈ t :: ts, t.start ≤ u.start :=
  List.forall_mem_cons.2 ⟨le_rfl, fun u hu => h.cons.1.le.trans (h.cons.2.1 u hu)⟩

theorem InLine.le_stop (h : InLine (ts ++ [t])) : ∀ u ∈ ts ++ [t], u.stop ≤ t.stop := by
  intro u hu
  rcases List.mem_append.1 hu with hu | hu
  · exact (h.append.2.2 u hu t (List.mem_singleton_self t)).trans (h.append.2.1.2 t (List.mem_singleton_self t)).le
  · rw [List.mem_singleton.1 hu]

theorem frames_of_between {span : Span} {run : List Token} (hfront : ∀ t ∈ ts, t.stop ≤ span.start)
    (hrun : ∀ t ∈ run, span.start ≤ t.start ∧ t.stop ≤ span.stop) (hbehind : ∀ t ∈ us, span.stop ≤ t.start) :
    span.Frames (ts ++ (run ++ us)) run := by
  refine ⟨hrun, ?_⟩
  intro t ht hnot
  rcases List.mem_append.1 ht with ht | ht
  · exact .inl (hfront t ht)
  · exact .inr (hbehind t ((List.mem_append.1 ht).resolve_left hnot))

theorem frames_spanOf {run : List Token} (h : InLine ts) (hrun : run <:+: ts) (hne : run ≠ []) :
    (spanOf run).Frames ts run := by
  obtain ⟨front, behind, rfl⟩ := hrun
  rw [List.append_assoc] at h ⊢
  obtain ⟨-, hinner, hfront⟩ := h.append
  obtain ⟨hline, -, hbehind⟩ := hinner.append
  obtain ⟨first, rest, hfirst⟩ := List.exists_cons_of_ne_nil hne
  obtain ⟨init, last, hlast⟩ := (List.eq_nil_or_concat run).resolve_left hne
  rw [List.concat_eq_append] at hlast
  have hstart : (spanOf run).start = first.start := by
    rw [hfirst]
    rfl
  have hstop : (spanOf run).stop = last.stop := by
    rw [spanOf, hlast, List.getLast?_concat]
    rfl
  apply frames_of_between
  · rw [hstart]
    exact fun t ht => hfront t ht first (by simp [hfirst])
  · rw [hstart, hstop]
    intro t ht
    constructor
    · rw [hfirst] at hline ht
      exact hline.start_le t ht
    · rw [hlast] at hline ht
      exact hline.le_stop t ht
  · rw [hstop]
    exact fun t ht => hbehind last (by simp [hlast]) t ht

/-- A token that has nothing in common with spans. -/
def Token.outside (spans : List Span) (t : Token) : Bool :=
  spans.all fun span => t.stop ≤ span.start || span.stop ≤ t.start

/-- Outside of spans are the tokens that are in none of the runs, and the others are inside as a whole. -/
theorem outside_iff {spans : List Span} {runs : List (List Token)} (hts : InLine ts)
    (h : List.Forall₂ (Span.Frames ts) spans runs) (ht : t ∈ ts) :
    (t.outside spans = true ↔ t ∉ runs.flatten) ∧
      (t ∈ runs.flatten → ∃ span ∈ spans, span.start ≤ t.start ∧ t.stop ≤ span.stop) := by
  induction h with
  | nil => simp [Token.outside]
  | @cons span run spans runs hframes _ ih =>
    obtain ⟨hinside, hapart⟩ := hframes
    have hspan : (t.stop ≤ span.start ∨ span.stop ≤ t.start) ↔ t ∉ run := by
      constructor
      · intro houtside hrun
        have hlength := hts.2 t ht
        have hends := hinside t hrun
        omega
      · exact hapart t ht
    rw [Token.outside, List.all_cons, Bool.and_eq_true, Bool.or_eq_true, decide_eq_true_iff, decide_eq_true_iff,
      hspan, ← Token.outside, ih.1, List.flatten_cons, List.mem_append, not_or]
    refine ⟨Iff.rfl, ?_⟩
    rintro (hrun | hruns)
    · exact ⟨span, by simp, hinside t hrun⟩
    · obtain ⟨other, hother, hends⟩ := ih.2 hruns
      exact ⟨other, List.mem_cons_of_mem _ hother, hends⟩

/-- Reading up to the closing bracket finds the spans of the annotations in front of it. -/
theorem parameterHints_append (hparameters : ∀ t ∈ ts, t.depth ≠ 0) (ht : t.text = bytes ")")
    (hdepth : t.depth = 0) (p : Parameters) :
    parameterHints p (ts ++ t :: us) = ((ts.foldl Parameters.read p).flush.spans, some (t, us)) := by
  induction ts generalizing p with
  | nil => simp [parameterHints, ht, hdepth]
  | cons u ts ih =>
    obtain ⟨hu, hts⟩ := List.forall_mem_cons.1 hparameters
    rw [List.cons_append, parameterHints, if_neg (by simp [hu]), List.foldl_cons]
    exact ih hts (p.read u)

/-- The spans among parameters are those of the annotations in front of the closing bracket. -/
theorem parameterHints_eq (hparameters : ∀ t ∈ ts, t.depth ≠ 0) (ht : t.text = bytes ")")
    (hdepth : t.depth = 0) (hts : InLine ts) :
    parameterHints {} (ts ++ t :: us) = ((hintsFrom true ts).map spanOf, some (t, us)) := by
  rw [parameterHints_append hparameters ht hdepth, spans_read hts]
  · rfl
  · exact ⟨fun _ => rfl, nofun, nofun⟩

end

end Bindery.Listing.Python
