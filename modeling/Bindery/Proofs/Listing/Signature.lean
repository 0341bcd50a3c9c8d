import Bindery.Proofs.Listing.Hint
import Mathlib.Data.List.Flatten
import Mathlib.Data.List.Forall2
import Mathlib.Data.List.Perm.Basic

/-!
# Type hints of signatures

A signature is the head of a function: its parameters between round brackets, each with an annotation and
a default if it has them, and an annotation of the result. Leaving out the spans of the hints leaves the
tokens of the signature without its annotations if and only if no annotation holds a comma or equals sign
of its own, the result no colon, and no default a colon behind a comma (`filter_signatureHints`): such a
comma, as in a `lambda` with two parameters, is taken for the end of the default.
-/

namespace Bindery.Listing.Python

open Text

/-! ## Grammar -/

def Token.Is (t : Token) (text : String) : Prop := t.kind = .operator ∧ t.text = bytes text

instance (t : Token) (text : String) : Decidable (t.Is text) := inferInstanceAs (Decidable (_ ∧ _))

abbrev Sign (text : String) := { t : Token // t.Is text }

/-- A sign and what stands behind it, with brackets that match. -/
structure Clause (text : String) where
  sign : Sign text
  body : List Token
  ne_nil : body ≠ []
  balanced : Balanced body

def Clause.tokens {text : String} (c : Clause text) : List Token := c.sign.1 :: c.body

/-- A parameter: its stars, name, annotation and default. -/
structure Parameter where
  stars : Option { t : Token // t.Is "*" ∨ t.Is "**" }
  name : { t : Token // t.kind = .name ∧ t.text ≠ bytes "lambda" }
  hint : Option (Clause ":")
  value : Option (Clause "=")

/-- The head of a function on its line: parameters with a comma behind them, perhaps one without, and the
tokens after the colon. -/
structure Signature where
  words : { ts : List Token // ts.map Token.text = [bytes "def"] ∨ ts.map Token.text = [bytes "async", bytes "def"] }
  name : Token
  names : ∀ t ∈ words.1 ++ [name], t.kind = .name
  opening : Sign "("
  parameters : List (Parameter × Sign ",")
  last : Option Parameter
  closing : Sign ")"
  result : Option (Clause "->")
  colon : Sign ":"
  body : List Token

namespace Parameter

def tokens (p : Parameter) : List Token :=
  (p.stars.toList.map Subtype.val ++ [p.name.1]) ++ p.hint.toList.flatMap Clause.tokens ++
    p.value.toList.flatMap Clause.tokens

/-- The parameter without its annotation. -/
def bare (p : Parameter) : Parameter := { p with hint := none }

end Parameter

namespace Signature

def inside (s : Signature) : List Token :=
  s.parameters.flatMap (fun x => x.1.tokens ++ [x.2.1]) ++ s.last.toList.flatMap Parameter.tokens

def tokens (s : Signature) : List Token :=
  (s.words.1 ++ [s.name]) ++ s.opening.1 ::
    (s.inside ++ s.closing.1 :: (s.result.toList.flatMap Clause.tokens ++ s.colon.1 :: s.body))

/-- The signature without annotations. -/
def bare (s : Signature) : Signature :=
  { s with
    parameters := s.parameters.map fun x => (x.1.bare, x.2)
    last := s.last.map Parameter.bare
    result := none }

def every (s : Signature) : List Parameter := s.parameters.map Prod.fst ++ s.last.toList

/-- The tokens of the annotations, with their signs. -/
def hints (s : Signature) : List Token :=
  s.every.flatMap (fun p => p.hint.toList.flatMap Clause.tokens) ++ s.result.toList.flatMap Clause.tokens

end Signature

/-- A colon outside of brackets. -/
def Token.endsResult (t : Token) : Bool := t.text == bytes ":" && t.depth == 0

/-- Annotations and defaults that can be told apart: outside of brackets no annotation of a parameter has
a comma or equals sign, that of the result has no colon, and no default has a colon behind a comma. -/
structure Signature.Clear (s : Signature) : Prop where
  hints : ∀ p ∈ s.every, ∀ c ∈ p.hint, ∀ t ∈ c.body, t.endsHint = false
  values : ∀ p ∈ s.every, ∀ c ∈ p.value, ¬ Loose c.body
  result : ∀ c ∈ s.result, ∀ t ∈ c.body, t.endsResult = false

section

variable {t : Token} {ts us : List Token} {text : String} {d e : Nat}

/-! ## Levels -/

theorem Balanced.append (hts : Balanced ts) (hus : Balanced us) : Balanced (ts ++ us) := by
  induction hts with
  | nil => exact hus
  | cons hopens hcloses _ ih => exact .cons hopens hcloses ih
  | group hopens hcloses hinside _ _ ih =>
    rw [List.cons_append, List.append_assoc]
    exact .group hopens hcloses hinside ih

theorem Balanced.flatMap {α : Type} {f : α → List Token} {xs : List α} (h : ∀ x ∈ xs, Balanced (f x)) :
    Balanced (xs.flatMap f) := by
  induction xs with
  | nil => exact .nil
  | cons x xs ih =>
    obtain ⟨hx, hxs⟩ := List.forall_mem_cons.1 h
    rw [List.flatMap_cons]
    exact hx.append (ih hxs)

theorem Balanced.plain (h : ∀ t ∈ ts, t.opens = false ∧ t.closes = false) : Balanced ts := by
  induction ts with
  | nil => exact .nil
  | cons t ts ih =>
    obtain ⟨ht, hts⟩ := List.forall_mem_cons.1 h
    exact .cons ht.1 ht.2 (ih hts)

theorem Balanced.names (h : ∀ t ∈ ts, t.kind = .name) : Balanced ts :=
  .plain fun t ht => by simp [Token.opens, Token.closes, h t ht]

/-- Whether an operator is not a bracket. -/
def isPlain (text : String) : Bool :=
  (bytes text).head?.all fun c => !isOpening c && !isClosing c

theorem Token.Is.plain (h : t.Is text) (hplain : isPlain text = true) :
    t.opens = false ∧ t.closes = false := by
  rw [Token.opens, Token.closes, h.2]
  rw [isPlain] at hplain
  cases hhead : (bytes text).head? with
  | none => simp
  | some c =>
    rw [hhead] at hplain
    simpa [h.1] using hplain

theorem Clause.balanced_tokens (hplain : isPlain text = true) (c : Clause text) : Balanced c.tokens :=
  .cons (c.sign.2.plain hplain).1 (c.sign.2.plain hplain).2 c.balanced

theorem Parameter.balanced_front (p : Parameter) : Balanced (p.stars.toList.map Subtype.val ++ [p.name.1]) := by
  apply Balanced.append
  · cases p.stars with
    | none => exact .nil
    | some star =>
      have hstar : star.1.opens = false ∧ star.1.closes = false := by
        rcases star.2 with h | h
        · exact h.plain (by decide)
        · exact h.plain (by decide)
      exact .cons hstar.1 hstar.2 .nil
  · exact .names (by simpa using p.name.2.1)

theorem Parameter.balanced_hint (p : Parameter) : Balanced (p.hint.toList.flatMap Clause.tokens) :=
  .flatMap fun c _ => c.balanced_tokens (by decide)

theorem Parameter.balanced (p : Parameter) : Balanced p.tokens :=
  (p.balanced_front.append p.balanced_hint).append (.flatMap fun c _ => c.balanced_tokens (by decide))

theorem Signature.balanced_inside (s : Signature) : Balanced s.inside := by
  apply Balanced.append
  · apply Balanced.flatMap
    intro x _
    have hcomma := x.2.2.plain (by decide)
    exact x.1.balanced.append (.cons hcomma.1 hcomma.2 .nil)
  · exact .flatMap fun p _ => p.balanced

/-- Behind tokens whose brackets match a token stands at the level they began at. -/
theorem Balanced.level (hts : Balanced ts) (h : Levelled d (ts ++ t :: us) e) (hcloses : t.closes = false) :
    t.depth = d := by
  obtain ⟨m, hfront, hrest⟩ := levelled_append.1 h
  obtain ⟨rfl, -⟩ := hts.levelled hfront
  cases hrest with
  | cons hdepth => simpa [hcloses] using hdepth

/-- The signs of a parameter are those that are looked for between the brackets. -/
structure Parameter.Signs (p : Parameter) : Prop where
  hint : ∀ c ∈ p.hint, c.sign.1.isColon = true
  value : ∀ c ∈ p.value, c.sign.1.isEquals = true

theorem Parameter.signs {p : Parameter} (h : Levelled 1 p.tokens e) : p.Signs := by
  constructor
  · intro c hc
    have hplain := c.sign.2.plain (by decide)
    rw [Parameter.tokens, List.append_assoc, Option.mem_def.1 hc] at h
    have hdepth := p.balanced_front.level h hplain.2
    simp [Token.isColon, hdepth, c.sign.2.1, c.sign.2.2]
  · intro c hc
    have hplain := c.sign.2.plain (by decide)
    rw [Parameter.tokens, Option.mem_def.1 hc] at h
    have hdepth := (p.balanced_front.append p.balanced_hint).level h hplain.2
    simp [Token.isEquals, hdepth, c.sign.2.1, c.sign.2.2]

theorem signs_of_levelled {xs : List (Parameter × Sign ",")}
    (h : Levelled 1 (xs.flatMap (fun x => x.1.tokens ++ [x.2.1]) ++ us) e) :
    (∀ x ∈ xs, x.1.Signs ∧ x.2.1.isComma = true) ∧ Levelled 1 us e := by
  induction xs with
  | nil => exact ⟨by simp, h⟩
  | cons x xs ih =>
    rw [List.flatMap_cons, List.append_assoc, List.append_assoc] at h
    have hplain := x.2.2.plain (by decide)
    have hdepth := x.1.balanced.level h hplain.2
    obtain ⟨m, hx, hrest⟩ := levelled_append.1 h
    obtain ⟨rfl, -⟩ := x.1.balanced.levelled hx
    cases hrest with
    | cons _ hrest =>
      rw [if_neg (by simp [hplain.1]), hdepth] at hrest
      obtain ⟨hxs, hus⟩ := ih hrest
      refine ⟨List.forall_mem_cons.2 ⟨⟨Parameter.signs hx, ?_⟩, hxs⟩, hus⟩
      simp [Token.isComma, hdepth, x.2.2.1, x.2.2.2]

/-! ## Annotations of parameters -/

theorem Token.ordinary_of_name (hkind : t.kind = .name) (htext : t.text ≠ bytes "lambda") :
    t.endsHint = false ∧ t.isColon = false ∧ t.isLambda = false := by
  simp [endsHint, isComma, isEquals, isColon, isLambda, hkind, htext]

theorem Token.Is.ordinary (h : t.Is text)
    (htext : bytes text ≠ bytes "," ∧ bytes text ≠ bytes "=" ∧ bytes text ≠ bytes ":") :
    t.endsHint = false ∧ t.isColon = false ∧ t.isLambda = false := by
  simp [endsHint, isComma, isEquals, isColon, isLambda, h.1, h.2, htext]

theorem Parameter.ordinary_front (p : Parameter) :
    ∀ t ∈ p.stars.toList.map Subtype.val ++ [p.name.1],
      t.endsHint = false ∧ t.isColon = false ∧ t.isLambda = false := by
  intro t ht
  rcases List.mem_append.1 ht with ht | ht
  · obtain ⟨star, -, rfl⟩ := List.mem_map.1 ht
    rcases star.2 with h | h
    · exact h.ordinary (by decide)
    · exact h.ordinary (by decide)
  · rw [List.mem_singleton.1 ht]
    exact Token.ordinary_of_name p.name.2.1 p.name.2.2

theorem Token.isComma_of_isEquals (h : t.isEquals = true) : t.isComma = false := by
  rw [isEquals, Bool.and_eq_true, beq_iff_eq] at h
  have htext : (bytes "=" == bytes ",") = false := by decide
  rw [isComma, h.2, htext, Bool.and_false]

theorem Parameter.hintsFrom_tokens {p : Parameter} (h : p.Signs) :
    hintsFrom true p.tokens = hintsFrom true (p.hint.toList.flatMap Clause.tokens) ++
      p.value.toList.flatMap fun c => hintsFrom false c.body := by
  rw [tokens, List.append_assoc]
  cases hvalue : p.value with
  | none =>
    rw [hintsFrom_append_names p.ordinary_front]
    simp
  | some c =>
    have hequals := h.value c hvalue
    have htokens : (some c).toList.flatMap Clause.tokens = c.sign.1 :: c.body := List.flatMap_singleton _ _
    have hvalues : (some c).toList.flatMap (fun c => hintsFrom false c.body) = hintsFrom false c.body :=
      List.flatMap_singleton _ _
    rw [htokens, hvalues, hintsFrom_append_names p.ordinary_front,
      hintsFrom_append (by rw [Token.endsHint, hequals, Bool.or_true]), Token.isComma_of_isEquals hequals]

theorem hintsFrom_parameters {xs : List (Parameter × Sign ",")} (h : ∀ x ∈ xs, x.2.1.isComma = true) :
    hintsFrom true (xs.flatMap (fun x => x.1.tokens ++ [x.2.1]) ++ us) =
      xs.flatMap (fun x => hintsFrom true x.1.tokens) ++ hintsFrom true us := by
  induction xs with
  | nil => rfl
  | cons x xs ih =>
    obtain ⟨hx, hxs⟩ := List.forall_mem_cons.1 h
    rw [List.flatMap_cons, List.append_assoc, List.append_assoc, List.singleton_append,
      hintsFrom_append (by rw [Token.endsHint, hx, Bool.true_or]), hx, ih hxs, List.flatMap_cons,
      List.append_assoc]

theorem Signature.signs {s : Signature} (h : Levelled 1 s.inside e) :
    (∀ p ∈ s.every, p.Signs) ∧ ∀ x ∈ s.parameters, x.2.1.isComma = true := by
  obtain ⟨hparameters, hlast⟩ := signs_of_levelled h
  refine ⟨?_, fun x hx => (hparameters x hx).2⟩
  intro p hp
  rcases List.mem_append.1 hp with hp | hp
  · obtain ⟨x, hx, rfl⟩ := List.mem_map.1 hp
    exact (hparameters x hx).1
  · rw [Option.mem_toList] at hp
    rw [hp] at hlast
    exact Parameter.signs (by simpa using hlast)

/-- What is found among the parameters is what is found in each annotation and each default. -/
theorem Signature.hintsFrom_inside {s : Signature} (h : Levelled 1 s.inside e) :
    hintsFrom true s.inside = s.every.flatMap fun p =>
      hintsFrom true (p.hint.toList.flatMap Clause.tokens) ++
        p.value.toList.flatMap fun c => hintsFrom false c.body := by
  obtain ⟨hsigns, hcommas⟩ := Signature.signs h
  have hevery : hintsFrom true s.inside = s.every.flatMap fun p => hintsFrom true p.tokens := by
    rw [inside, hintsFrom_parameters hcommas, every, List.flatMap_append, List.flatMap_map]
    cases s.last with
    | none => rfl
    | some p => simp
  rw [hevery]
  exact List.flatMap_congr fun p hp => Parameter.hintsFrom_tokens (hsigns p hp)

theorem hintsFrom_hint {hint : Option (Clause ":")} (hsign : ∀ c ∈ hint, c.sign.1.isColon = true)
    (h : ∀ c ∈ hint, ∀ t ∈ c.body, t.endsHint = false) :
    (hintsFrom true (hint.toList.flatMap Clause.tokens)).flatten = hint.toList.flatMap Clause.tokens := by
  cases hint with
  | none => rfl
  | some c =>
    have hcolon := hsign c rfl
    have hbody : hintsFrom false c.body = [] := by
      rw [hintsFrom_false_eq_nil]
      rintro ⟨front, comma, rest, hsplit, hcomma, -⟩
      have hends := h c rfl comma (by simp [hsplit])
      rw [Token.endsHint, hcomma] at hends
      cases hends
    have htokens : (some c).toList.flatMap Clause.tokens = c.sign.1 :: c.body := List.flatMap_singleton _ _
    rw [htokens, hintsFrom_cons_colon (Token.endsHint_of_isColon hcolon) hcolon, hintOf_eq (h c rfl),
      if_neg c.ne_nil, hbody, List.flatten_singleton]

/-! ## The annotation of the result -/

/-- The runs of the annotation of the result. -/
def Signature.resultRuns (s : Signature) : List (List Token) :=
  s.result.toList.map fun c => c.sign.1 :: c.body.takeWhile (!·.endsResult)

/-- The runs of all annotations that are found. -/
def Signature.runs (s : Signature) : List (List Token) := hintsFrom true s.inside ++ s.resultRuns

theorem exists_endsResult (h : t.endsResult = true) :
    ∃ u behind, ts ++ t :: us = ts.takeWhile (!·.endsResult) ++ u :: behind ∧ u.endsResult = true ∧
      (ts ++ t :: us).find? Token.endsResult = some u := by
  induction ts with
  | nil => exact ⟨t, us, rfl, h, List.find?_cons_of_pos h⟩
  | cons v ts ih =>
    by_cases hv : v.endsResult = true
    · refine ⟨v, ts ++ t :: us, ?_, hv, List.find?_cons_of_pos hv⟩
      rw [List.takeWhile_cons_of_neg (by simp [hv])]
      rfl
    · obtain ⟨u, behind, hsplit, hu, hfind⟩ := ih
      refine ⟨u, behind, ?_, hu, ?_⟩
      · rw [List.takeWhile_cons_of_pos (by simp [hv]), List.cons_append, hsplit, List.cons_append]
      · rw [List.cons_append, List.find?_cons_of_neg hv, hfind]

theorem resultHint_arrow {closing arrow : Token} (h : arrow.text = bytes "->")
    (hfind : us.find? Token.endsResult = some t) :
    resultHint closing (arrow :: us) = [{ start := closing.stop, stop := t.start }] := by
  have hfind : us.find? (fun t => t.text == bytes ":" && t.depth == 0) = some t := hfind
  rw [resultHint, if_pos (by simp [h]), hfind]

theorem resultHint_of_ne {closing : Token} (h : t.text ≠ bytes "->") : resultHint closing (t :: us) = [] :=
  if_neg (by simpa using h)

/-- The span behind the closing bracket frames the annotation of the result. -/
theorem Signature.frames_resultHint {s : Signature} (hts : InLine s.tokens) (hcolon : s.colon.1.depth = 0) :
    List.Forall₂ (Span.Frames s.tokens)
      (resultHint s.closing.1 (s.result.toList.flatMap Clause.tokens ++ s.colon.1 :: s.body)) s.resultRuns := by
  rw [resultRuns]
  cases hresult : s.result with
  | none =>
    show List.Forall₂ _ (resultHint s.closing.1 (s.colon.1 :: s.body)) []
    rw [resultHint_of_ne]
    · exact .nil
    · rw [s.colon.2.2]
      decide
  | some c =>
    have hends : s.colon.1.endsResult = true := by simp [Token.endsResult, s.colon.2.2, hcolon]
    obtain ⟨u, behind, hsplit, -, hfind⟩ := @exists_endsResult s.colon.1 c.body s.body hends
    have htokens : (some c).toList.flatMap Clause.tokens ++ s.colon.1 :: s.body =
        (c.sign.1 :: c.body.takeWhile (!·.endsResult)) ++ u :: behind := by
      rw [Option.toList_some, List.flatMap_singleton, Clause.tokens, List.cons_append, hsplit, List.cons_append]
    have hspan : resultHint s.closing.1 ((some c).toList.flatMap Clause.tokens ++ s.colon.1 :: s.body) =
        [{ start := s.closing.1.stop, stop := u.start }] := by
      rw [Option.toList_some, List.flatMap_singleton, Clause.tokens, List.cons_append]
      exact resultHint_arrow c.sign.2.2 hfind
    have hwhole : s.tokens = ((s.words.1 ++ [s.name]) ++ s.opening.1 :: s.inside ++ [s.closing.1]) ++
        ((c.sign.1 :: c.body.takeWhile (!·.endsResult)) ++ u :: behind) := by
      rw [Signature.tokens, hresult, htokens]
      simp
    rw [hspan, Option.toList_some, List.map_singleton]
    refine .cons ?_ .nil
    rw [hwhole] at hts ⊢
    obtain ⟨hfront, hrest, hcross⟩ := hts.append
    obtain ⟨-, hbehind, hrun⟩ := hrest.append
    apply frames_of_between
    · exact hfront.le_stop
    · intro t ht
      constructor
      · exact hcross s.closing.1 (by simp) t (List.mem_append_left _ ht)
      · exact hrun t ht u (by simp)
    · exact hbehind.start_le

/-! ## Spans and runs of a signature -/

/-- The levels of what stands outside of the brackets of the parameters, and of what is between them. -/
theorem Signature.levels {s : Signature} (h : Levelled 0 s.tokens d) :
    s.opening.1.depth = 0 ∧ (∃ e, Levelled 1 s.inside e) ∧ (∀ t ∈ s.inside, t.depth ≠ 0) ∧
      s.closing.1.depth = 0 ∧ s.colon.1.depth = 0 := by
  have hopens : s.opening.1.opens = true := by
    rw [Token.opens, s.opening.2.1, s.opening.2.2]
    decide
  have hcloses : s.closing.1.closes = true := by
    rw [Token.closes, s.closing.2.1, s.closing.2.2]
    decide
  have hcolon := s.colon.2.plain (by decide)
  have hnames := Balanced.names s.names
  have hopening := hnames.level h (Token.closes_of_opens hopens)
  obtain ⟨m, hwords, h⟩ := levelled_append.1 h
  obtain ⟨rfl, -⟩ := hnames.levelled hwords
  cases h with
  | cons _ h =>
    rw [if_pos hopens, hopening] at h
    obtain ⟨m, hinside, h⟩ := levelled_append.1 h
    obtain ⟨rfl, hdepths⟩ := s.balanced_inside.levelled hinside
    refine ⟨hopening, ⟨_, hinside⟩, fun t ht => Nat.one_le_iff_ne_zero.1 (hdepths t ht), ?_⟩
    cases h with
    | cons hdepth h =>
      rw [if_pos hcloses] at hdepth
      rw [if_neg (by simp [Token.opens_of_closes hcloses]), hdepth] at h
      exact ⟨hdepth, (Balanced.flatMap fun c _ => c.balanced_tokens (by decide)).level h hcolon.2⟩

theorem afterParenthesis?_append (h : ∀ t ∈ ts, t.text ≠ bytes "(") (ht : t.text = bytes "(")
    (hdepth : t.depth = 0) : afterParenthesis? (ts ++ t :: us) = some us := by
  induction ts with
  | nil => simp [afterParenthesis?, ht, hdepth]
  | cons u ts ih =>
    obtain ⟨hu, hts⟩ := List.forall_mem_cons.1 h
    rw [List.cons_append, afterParenthesis?, if_neg (by simp [hu])]
    exact ih hts

theorem Signature.frames {s : Signature} (hts : InLine s.tokens) (h : Levelled 0 s.tokens d)
    (hnames : ∀ t ∈ s.words.1 ++ [s.name], t.text ≠ bytes "(") :
    List.Forall₂ (Span.Frames s.tokens) (signatureHints s.tokens) s.runs := by
  obtain ⟨hopening, -, hdepths, hclosing, hcolon⟩ := s.levels h
  have hinside : s.inside <:+: s.tokens := by
    refine ⟨(s.words.1 ++ [s.name]) ++ [s.opening.1], s.closing.1 :: (s.result.toList.flatMap Clause.tokens ++
      s.colon.1 :: s.body), ?_⟩
    simp [tokens]
  have hline : InLine s.inside :=
    ⟨hts.1.sublist hinside.sublist, fun t ht => hts.2 t (hinside.subset ht)⟩
  have hspans : signatureHints s.tokens = (hintsFrom true s.inside).map spanOf ++
      resultHint s.closing.1 (s.result.toList.flatMap Clause.tokens ++ s.colon.1 :: s.body) := by
    rw [signatureHints, tokens, afterParenthesis?_append hnames s.opening.2.2 hopening]
    dsimp only
    rw [parameterHints_eq hdepths s.closing.2.2 hclosing hline]
  rw [hspans, runs]
  apply List.rel_append _ (s.frames_resultHint hts hcolon)
  rw [List.forall₂_map_left_iff, List.forall₂_same]
  intro run hrun
  obtain ⟨hne, hwithin, -⟩ := infix_of_mem_hintsFrom hrun
  exact frames_spanOf hts (hwithin.trans hinside) hne

/-! ## What is left out -/

theorem Parameter.perm (p : Parameter) :
    p.tokens.Perm (p.bare.tokens ++ p.hint.toList.flatMap Clause.tokens) := by
  apply List.perm_iff_count.2
  intro t
  simp only [tokens, bare, Option.toList_none, List.flatMap_nil, List.count_append, List.count_nil]
  omega

theorem Parameter.bare_sublist (p : Parameter) : p.bare.tokens.Sublist p.tokens := by
  rw [tokens, tokens]
  simp only [bare, Option.toList_none, List.flatMap_nil, List.append_nil]
  exact (List.sublist_append_left _ _).append_right _

theorem Signature.bare_inside (s : Signature) : s.bare.inside =
    s.parameters.flatMap (fun x => x.1.bare.tokens ++ [x.2.1]) ++
      s.last.toList.flatMap fun p => p.bare.tokens := by
  rw [inside, bare, List.flatMap_map]
  cases s.last <;> rfl

/-- The tokens of a signature are those without annotations and those of the annotations. -/
theorem Signature.perm (s : Signature) : s.tokens.Perm (s.bare.tokens ++ s.hints) := by
  have hparameters : (s.parameters.flatMap fun x => x.1.tokens ++ [x.2.1]).Perm
      (s.parameters.flatMap (fun x => x.1.bare.tokens ++ [x.2.1]) ++
        s.parameters.flatMap fun x => x.1.hint.toList.flatMap Clause.tokens) := by
    apply (List.Perm.flatMap_left _ fun x _ => _).trans (List.flatMap_append_perm _ _ _).symm
    intro x _
    apply List.perm_iff_count.2
    intro t
    have hcount := x.1.perm.count_eq t
    simp only [List.count_append] at hcount ⊢
    omega
  have hlast : (s.last.toList.flatMap Parameter.tokens).Perm
      (s.last.toList.flatMap (fun p => p.bare.tokens) ++
        s.last.toList.flatMap fun p => p.hint.toList.flatMap Clause.tokens) :=
    (List.Perm.flatMap_left _ fun p _ => p.perm).trans (List.flatMap_append_perm _ _ _).symm
  apply List.perm_iff_count.2
  intro t
  have hparameters := hparameters.count_eq t
  have hlast := hlast.count_eq t
  rw [hints, every, List.flatMap_append, List.flatMap_map, tokens, tokens, bare_inside, inside]
  simp only [bare, List.count_append, List.count_cons, Option.toList_none, List.flatMap_nil,
    List.count_nil] at hparameters hlast ⊢
  omega

theorem Signature.bare_sublist (s : Signature) : s.bare.tokens.Sublist s.tokens := by
  have hinside : s.bare.inside.Sublist s.inside := by
    rw [bare_inside, inside]
    apply List.Sublist.append
    · exact List.Sublist.flatMap_right _ fun x _ => x.1.bare_sublist.append_right _
    · exact List.Sublist.flatMap_right _ fun p _ => p.bare_sublist
  exact .append_left (.cons_cons _ (hinside.append (.cons_cons _ (List.sublist_append_right _ _)))) _

theorem Signature.mem_bare {s : Signature} {p : Parameter} {c : Clause "="} (hp : p ∈ s.every)
    (hc : c ∈ p.value) (ht : t ∈ c.body) : t ∈ s.bare.tokens := by
  have hvalue : t ∈ p.bare.tokens := List.mem_append_right _
    (List.mem_flatMap.2 ⟨c, Option.mem_toList.2 hc, List.mem_cons_of_mem _ ht⟩)
  have hinside : t ∈ s.bare.inside := by
    rw [bare_inside]
    rcases List.mem_append.1 hp with hp | hp
    · obtain ⟨x, hx, rfl⟩ := List.mem_map.1 hp
      exact List.mem_append_left _ (List.mem_flatMap.2 ⟨x, hx, List.mem_append_left _ hvalue⟩)
    · exact List.mem_append_right _ (List.mem_flatMap.2 ⟨p, hp, hvalue⟩)
  exact List.mem_append_right _ (List.mem_cons_of_mem _ (List.mem_append_left _ hinside))

/-- What is filtered of tokens that differ is a sublist of them if its tokens are. -/
theorem filter_eq_of_sublist {p : Token → Bool} (hnodup : ts.Nodup) (h : us.Sublist ts)
    (hp : ∀ t ∈ ts, p t = true ↔ t ∈ us) : ts.filter p = us := by
  induction h with
  | slnil => rfl
  | cons t hsub ih =>
    obtain ⟨hnot, hnodup⟩ := List.nodup_cons.1 hnodup
    obtain ⟨ht, hts⟩ := List.forall_mem_cons.1 hp
    rw [List.filter_cons_of_neg fun hkeep => hnot (hsub.subset (ht.1 hkeep))]
    exact ih hnodup hts
  | cons_cons t hsub ih =>
    obtain ⟨hnot, hnodup⟩ := List.nodup_cons.1 hnodup
    obtain ⟨ht, hts⟩ := List.forall_mem_cons.1 hp
    rw [List.filter_cons_of_pos (ht.2 List.mem_cons_self), ih hnodup]
    intro u hu
    rw [hts u hu, List.mem_cons, or_iff_right]
    rintro rfl
    exact hnot hu

/-- What is found outside of the annotations is found in a default with a colon behind a comma. -/
theorem Signature.mem_runs {s : Signature} (h : Levelled 1 s.inside e) (ht : t ∈ s.runs.flatten) :
    t ∈ s.hints ∨ ∃ p ∈ s.every, ∃ c ∈ p.value, t ∈ c.body ∧ Loose c.body := by
  obtain ⟨run, hrun, ht⟩ := List.mem_flatten.1 ht
  rcases List.mem_append.1 hrun with hrun | hrun
  · rw [Signature.hintsFrom_inside h] at hrun
    obtain ⟨p, hp, hrun⟩ := List.mem_flatMap.1 hrun
    rcases List.mem_append.1 hrun with hrun | hrun
    · left
      apply List.mem_append_left
      exact List.mem_flatMap.2 ⟨p, hp, (infix_of_mem_hintsFrom hrun).2.1.subset ht⟩
    · obtain ⟨c, hc, hrun⟩ := List.mem_flatMap.1 hrun
      refine .inr ⟨p, hp, c, Option.mem_toList.1 hc, (infix_of_mem_hintsFrom hrun).2.1.subset ht, ?_⟩
      by_contra hloose
      rw [hintsFrom_false_eq_nil.2 hloose] at hrun
      cases hrun
  · left
    apply List.mem_append_right
    obtain ⟨c, hc, rfl⟩ := List.mem_map.1 hrun
    refine List.mem_flatMap.2 ⟨c, hc, ?_⟩
    exact ((List.takeWhile_sublist _).cons_cons c.sign.1).subset ht

theorem Signature.runs_of_clear {s : Signature} (h : Levelled 1 s.inside e) (hclear : s.Clear) :
    s.runs.flatten = s.hints := by
  obtain ⟨hsigns, -⟩ := Signature.signs h
  rw [runs, hints, List.flatten_append, Signature.hintsFrom_inside h]
  congr 1
  · rw [← List.flatMap_id, List.flatMap_assoc]
    apply List.flatMap_congr
    intro p hp
    have hvalue : (p.value.toList.flatMap fun c => hintsFrom false c.body) = [] := by
      rw [List.flatMap_eq_nil_iff]
      intro c hc
      exact hintsFrom_false_eq_nil.2 (hclear.values p hp c (Option.mem_toList.1 hc))
    rw [hvalue, List.append_nil, List.flatMap_id,
      hintsFrom_hint (hsigns p hp).hint (hclear.hints p hp)]
  · rw [resultRuns]
    cases hresult : s.result with
    | none => rfl
    | some c =>
      have hbody : c.body.takeWhile (!·.endsResult) = c.body :=
        List.takeWhile_eq_self_iff.2 (by simpa using hclear.result c hresult)
      simp [hbody, Clause.tokens]

theorem Signature.clear_of_runs {s : Signature} (hnodup : s.tokens.Nodup) (h : Levelled 1 s.inside e)
    (hdepths : ∀ t ∈ s.inside, t.depth ≠ 0)
    (hruns : ∀ t ∈ s.tokens, t ∈ s.runs.flatten ↔ t ∈ s.hints) : s.Clear := by
  have hmem : ∀ t ∈ s.hints, t ∈ s.runs.flatten := fun t ht =>
    (hruns t (s.perm.mem_iff.2 (List.mem_append_right _ ht))).2 ht
  obtain ⟨-, hhints, hdisjoint⟩ := List.nodup_append.1 (s.perm.nodup_iff.1 hnodup)
  refine ⟨?_, ?_, ?_⟩
  · -- A comma or equals sign is in no run of the parameters, and those of the result are other tokens.
    intro p hp c hc t ht
    by_contra hends
    have hhint : t ∈ s.every.flatMap fun p => p.hint.toList.flatMap Clause.tokens :=
      List.mem_flatMap.2 ⟨p, hp, List.mem_flatMap.2 ⟨c, Option.mem_toList.2 hc, List.mem_cons_of_mem _ ht⟩⟩
    obtain ⟨run, hrun, hmem⟩ := List.mem_flatten.1 (hmem t (List.mem_append_left _ hhint))
    rcases List.mem_append.1 hrun with hrun | hrun
    · exact hends ((infix_of_mem_hintsFrom hrun).2.2 t hmem)
    · obtain ⟨c, hc, rfl⟩ := List.mem_map.1 hrun
      have hresult : t ∈ s.result.toList.flatMap Clause.tokens :=
        List.mem_flatMap.2 ⟨c, hc, ((List.takeWhile_sublist _).cons_cons c.sign.1).subset hmem⟩
      exact (List.nodup_append.1 hhints).2.2 t hhint t hresult rfl
  · -- What begins behind such a colon is a part of the default.
    intro p hp c hc hloose
    have hsome : hintsFrom false c.body ≠ [] := hloose.ne_nil
    obtain ⟨run, hrun⟩ := List.exists_mem_of_ne_nil _ hsome
    obtain ⟨hne, hwithin, -⟩ := infix_of_mem_hintsFrom hrun
    obtain ⟨t, ht⟩ := List.exists_mem_of_ne_nil _ hne
    have hbare := s.mem_bare hp hc (hwithin.subset ht)
    have hfound : t ∈ s.runs.flatten := by
      refine List.mem_flatten.2 ⟨run, List.mem_append_left _ ?_, ht⟩
      rw [Signature.hintsFrom_inside h]
      exact List.mem_flatMap.2 ⟨p, hp, List.mem_append_right _
        (List.mem_flatMap.2 ⟨c, Option.mem_toList.2 hc, hrun⟩)⟩
    exact hdisjoint t hbare t ((hruns t (s.bare_sublist.subset hbare)).1 hfound) rfl
  · -- The run of the result ends in front of such a colon, and runs of parameters are inside of brackets.
    intro c hc t ht
    by_contra hends
    rw [Bool.not_eq_false] at hends
    have hhint : t ∈ s.hints := List.mem_append_right _
      (List.mem_flatMap.2 ⟨c, Option.mem_toList.2 hc, List.mem_cons_of_mem _ ht⟩)
    obtain ⟨run, hrun, hmem⟩ := List.mem_flatten.1 (hmem t hhint)
    rcases List.mem_append.1 hrun with hrun | hrun
    · rw [Token.endsResult, Bool.and_eq_true, beq_iff_eq, beq_iff_eq] at hends
      exact hdepths t ((infix_of_mem_hintsFrom hrun).2.1.subset hmem) hends.2
    · obtain ⟨c, -, rfl⟩ := List.mem_map.1 hrun
      rcases List.mem_cons.1 hmem with rfl | hmem
      · have hne : (bytes "->" == bytes ":") = false := by decide
        rw [Token.endsResult, c.sign.2.2, hne] at hends
        cases hends
      · simpa [hends] using List.mem_takeWhile_imp hmem

/-! ## Logical lines -/

theorem Lexed.name_inv {n : Nat} {text following : Bytes} (h : Lexed (.token .name n) text following) :
    ∀ c ∈ text.head?, isNameStart c = true := by
  cases h with
  | name hc => simpa using hc

/-- The tokens of a logical line stand one behind the other, and none of its names is a bracket. -/
theorem inLine_tokenize {source : Bytes} {l : LogicalLine} (hl : l ∈ (tokenize source).1) :
    InLine l.tokens ∧ ∀ t ∈ l.tokens, t.kind = .name → t.text ≠ bytes "(" := by
  obtain ⟨hstands, hordered, -, -⟩ := reads_tokenize source
  have hmem : ∀ t ∈ l.tokens, t.Stands source := fun t ht => hstands t (List.mem_flatMap.2 ⟨l, hl, ht⟩)
  refine ⟨⟨(List.pairwise_flatMap.1 hordered).1 l hl, ?_⟩, ?_⟩
  · intro t ht
    obtain ⟨before, following, n, -, hstart, hstop, -, hlexed⟩ := hmem t ht
    have hlength := List.length_pos_of_ne_nil hlexed.ne_nil
    omega
  · intro t ht hkind htext
    obtain ⟨before, following, n, -, -, -, -, hlexed⟩ := hmem t ht
    rw [hkind, htext] at hlexed
    have hname : isNameStart 40 = true := hlexed.name_inv 40 (by decide)
    revert hname
    decide

/-- **Leaving out type hints keeps a signature if its annotations and defaults can be told apart**, and only
then. Each token is cut as a whole or not at all. Other tokens than those of the annotations are cut only
from defaults that have a colon behind a comma, such as a `lambda` with two parameters. -/
theorem filter_signatureHints {source : Bytes} {l : LogicalLine} {s : Signature}
    (hl : l ∈ (tokenize source).1) (hs : l.tokens = s.tokens) :
    let spans := signatureHints l.tokens
    (l.tokens.filter (Token.outside spans) = s.bare.tokens ↔ s.Clear) ∧
    ∀ t ∈ l.tokens, t.outside spans = false →
      (∃ span ∈ spans, span.start ≤ t.start ∧ t.stop ≤ span.stop) ∧
      (t ∈ s.hints ∨ ∃ p ∈ s.every, ∃ c ∈ p.value, t ∈ c.body ∧ Loose c.body) := by
  obtain ⟨hline, hnames⟩ := inLine_tokenize hl
  obtain ⟨d, hlevel⟩ := levelled_tokenize source l hl
  rw [hs] at hline hnames hlevel ⊢
  intro spans
  obtain ⟨-, ⟨e, hinside⟩, hdepths, -⟩ := s.levels hlevel
  have hframes : List.Forall₂ (Span.Frames s.tokens) spans s.runs :=
    s.frames hline hlevel fun t ht => hnames t (List.mem_append_left _ ht) (s.names t ht)
  have hnodup := hline.nodup
  have hdisjoint := (List.nodup_append.1 (s.perm.nodup_iff.1 hnodup)).2.2
  have hbare : ∀ t ∈ s.tokens, t ∈ s.bare.tokens ↔ t ∉ s.hints := by
    intro t ht
    constructor
    · intro hleft hhint
      exact hdisjoint t hleft t hhint rfl
    · exact fun hnot => (List.mem_append.1 (s.perm.mem_iff.1 ht)).resolve_right hnot
  refine ⟨⟨?_, ?_⟩, ?_⟩
  · intro hfilter
    apply Signature.clear_of_runs hnodup hinside hdepths
    intro t ht
    have hmem : t ∈ s.tokens.filter (Token.outside spans) ↔ t ∉ s.runs.flatten := by
      rw [List.mem_filter, (outside_iff hline hframes ht).1, and_iff_right ht]
    rw [hfilter, hbare t ht] at hmem
    exact (not_iff_not.1 hmem).symm
  · intro hclear
    apply filter_eq_of_sublist hnodup s.bare_sublist
    intro t ht
    rw [(outside_iff hline hframes ht).1, Signature.runs_of_clear hinside hclear, hbare t ht]
  · intro t ht hcut
    have hrun : t ∈ s.runs.flatten := by
      by_contra hnot
      rw [(outside_iff hline hframes ht).1.2 hnot] at hcut
      cases hcut
    exact ⟨(outside_iff hline hframes ht).2 hrun, Signature.mem_runs hinside hrun⟩

end

/-! ## A default that is cut -/

/-- A token with its text from an offset on. -/
def tokenAt (kind : TokenKind) (text : String) (start depth : Nat) : Token where
  kind
  text := bytes text
  start
  stop := start + (bytes text).length
  depth

/-- The signature `def f(a: int) -> str:`. -/
def annotatedSignature : Signature where
  words := ⟨[tokenAt .name "def" 0 0], by decide⟩
  name := tokenAt .name "f" 4 0
  names := by decide
  opening := ⟨tokenAt .operator "(" 5 0, by decide⟩
  parameters := []
  last := some
    { stars := none
      name := ⟨tokenAt .name "a" 6 1, by decide⟩
      hint := some
        { sign := ⟨tokenAt .operator ":" 7 1, by decide⟩
          body := [tokenAt .name "int" 9 1]
          ne_nil := by decide
          balanced := .names (by decide) }
      value := none }
  closing := ⟨tokenAt .operator ")" 12 0, by decide⟩
  result := some
    { sign := ⟨tokenAt .operator "->" 14 0, by decide⟩
      body := [tokenAt .name "str" 17 0]
      ne_nil := by decide
      balanced := .names (by decide) }
  colon := ⟨tokenAt .operator ":" 20 0, by decide⟩
  body := []

/-- The signature `def f(a=lambda x, y: x):`. -/
def lambdaSignature : Signature where
  words := ⟨[tokenAt .name "def" 0 0], by decide⟩
  name := tokenAt .name "f" 4 0
  names := by decide
  opening := ⟨tokenAt .operator "(" 5 0, by decide⟩
  parameters := []
  last := some
    { stars := none
      name := ⟨tokenAt .name "a" 6 1, by decide⟩
      hint := none
      value := some
        { sign := ⟨tokenAt .operator "=" 7 1, by decide⟩
          body := [tokenAt .name "lambda" 8 1, tokenAt .name "x" 15 1, tokenAt .operator "," 16 1,
            tokenAt .name "y" 18 1, tokenAt .operator ":" 19 1, tokenAt .name "x" 21 1]
          ne_nil := by decide
          balanced := .plain (by decide) } }
  closing := ⟨tokenAt .operator ")" 22 0, by decide⟩
  result := none
  colon := ⟨tokenAt .operator ":" 23 0, by decide⟩
  body := []

theorem filter_signatureHints_lambda :
    let annotated : LogicalLine := { start := 0, stop := 22, tokens := annotatedSignature.tokens }
    let defaulted : LogicalLine := { start := 0, stop := 25, tokens := lambdaSignature.tokens }
    annotated ∈ (tokenize (bytes "def f(a: int) -> str:\n")).1 ∧
    annotated.tokens.filter (Token.outside (signatureHints annotated.tokens)) = annotatedSignature.bare.tokens ∧
    defaulted ∈ (tokenize (bytes "def f(a=lambda x, y: x):\n")).1 ∧
    defaulted.tokens.filter (Token.outside (signatureHints defaulted.tokens)) ≠ lambdaSignature.bare.tokens := by
  intro annotated defaulted
  have hannotated : annotated ∈ (tokenize (bytes "def f(a: int) -> str:\n")).1 := by decide +kernel
  have hdefaulted : defaulted ∈ (tokenize (bytes "def f(a=lambda x, y: x):\n")).1 := by decide +kernel
  refine ⟨hannotated, (filter_signatureHints hannotated rfl).1.2 ⟨by decide, ?_, by decide⟩, hdefaulted, ?_⟩
  · intro p hp c hc
    rw [List.mem_singleton.1 hp] at hc
    cases hc
  · intro hkept
    have hclear := (filter_signatureHints hdefaulted rfl).1.1 hkept
    apply hclear.values _ (List.mem_singleton_self _) _ rfl
    refine ⟨[tokenAt .name "lambda" 8 1, tokenAt .name "x" 15 1], tokenAt .operator "," 16 1, _, rfl, by decide, ?_⟩
    exact ⟨[tokenAt .name "y" 18 1], tokenAt .operator ":" 19 1, _, _, rfl, by decide, by decide, by decide⟩

end Bindery.Listing.Python
