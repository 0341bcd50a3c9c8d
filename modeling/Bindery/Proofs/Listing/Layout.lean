import Mathlib.Data.Option.Basic
import Bindery.Listing.Layout
import Bindery.Proofs.Listing.Selection

/-!
# Lines in the standard layout

Every token of a line begins with ASCII, so the tokens of a tidy line are tidy. The layout puts tokens
and ASCII in a row, and lines laid out are tidy again.
-/

namespace Bindery.Listing.Layout

open Text

/-! ## Tokens -/

def TidyTokens (ts : List Token) : Prop := ∀ t ∈ ts, Tidy t.text

theorem tidyTokens_cons {t : Token} {ts : List Token} :
    TidyTokens (t :: ts) ↔ Tidy t.text ∧ TidyTokens ts := List.forall_mem_cons

theorem TidyTokens.subset {ts us : List Token} (h : TidyTokens ts) (hsub : us ⊆ ts) :
    TidyTokens us := fun t ht => h t (hsub ht)

theorem exists_cons_of_mem_signs : ∀ s ∈ signs, ∃ a u, s = a :: u ∧ a < 0x80 := by
  have h : signs.all (fun s => s.head?.any (· < 0x80)) = true := by decide
  intro s hs
  have hs := List.all_eq_true.1 h s hs
  cases s with
  | nil => cases hs
  | cons a u => exact ⟨a, u, rfl, by simpa using hs⟩

/-- The first token begins a line, and begins with ASCII. -/
theorem firstToken?_text {c : UInt8} {rest : Bytes} {t : Token} {n : Nat}
    (h : firstToken? c rest = some (t, n)) : t.text <+: c :: rest ∧ Fresh t.text := by
  have hcons : ∀ {more : Bytes}, c < 0x80 → more <+: rest →
      c :: more <+: c :: rest ∧ Fresh (c :: more) := fun hc hmore =>
    ⟨List.cons_prefix_cons.2 ⟨rfl, hmore⟩, fresh_cons (not_isContinuation_of_lt hc) _⟩
  unfold firstToken? at h
  split at h
  · next hc =>
    obtain ⟨rfl, -⟩ := Prod.mk.inj (Option.some.inj h)
    refine hcons ?_ (List.takeWhile_prefix _)
    rcases Bool.or_eq_true _ _ ▸ hc with hc | hc
    · exact lt_of_isLetter hc
    · rw [eq_of_beq hc]
      decide
  · split at h
    · next hc =>
      obtain ⟨rfl, -⟩ := Prod.mk.inj (Option.some.inj h)
      exact hcons (lt_of_isDigit hc) (List.takeWhile_prefix _)
    · split at h
      · next hc =>
        obtain ⟨k, -, heq⟩ := Option.map_eq_some_iff.1 h
        obtain ⟨rfl, -⟩ := Prod.mk.inj heq
        refine hcons ?_ (List.take_prefix _ _)
        rcases hc with rfl | rfl | rfl <;> decide
      · split at h
        · next hc =>
          obtain ⟨rfl, -⟩ := Prod.mk.inj (Option.some.inj h)
          exact hcons (hc.1 ▸ by decide) List.prefix_rfl
        · split at h
          · cases h
          · obtain ⟨s, hs, heq⟩ := Option.map_eq_some_iff.1 h
            obtain ⟨rfl, -⟩ := Prod.mk.inj heq
            obtain ⟨a, u, rfl, ha⟩ := exists_cons_of_mem_signs s (List.mem_of_find?_eq_some hs)
            have hstart := List.find?_some hs
            exact ⟨List.isPrefixOf_iff_prefix.1 hstart, fresh_cons (not_isContinuation_of_lt ha) _⟩

theorem tidy_tokens {line : Bytes} (h : Tidy line) (s : Bytes) (hs : s <:+ line) :
    ∀ ts, tokens? s = some ts → TidyTokens ts := by
  fun_induction tokens? s with
  | case1 =>
    rintro ts heq
    cases heq
    simp [TidyTokens]
  | case2 c rest _ ih => exact ih ((List.suffix_cons c rest).trans hs)
  | case3 c rest _ _ => simp
  | case4 c rest _ t n hfirst ih =>
    rintro ts heq
    obtain ⟨more, hmore, rfl⟩ := Option.map_eq_some_iff.1 heq
    obtain ⟨hstart, hfresh⟩ := firstToken?_text hfirst
    have hrest : rest.drop n <:+ line :=
      ((List.drop_suffix n rest).trans (List.suffix_cons c rest)).trans hs
    exact tidyTokens_cons.2
      ⟨h.piece (hstart.isInfix.trans hs.isInfix) hfresh, ih hrest more hmore⟩

/-! ## Expressions -/

/-- What was laid out is tidy, and so are the tokens left. -/
def Laid : Option (Bytes × List Token) → Prop
  | none => True
  | some (s, rest) => Tidy s ∧ TidyTokens rest

theorem Laid.map {r : Option (Bytes × List Token)} (h : Laid r) {f : Bytes → Bytes}
    (hf : ∀ s, Tidy s → Tidy (f s)) : Laid (r.map fun (s, rest) => (f s, rest)) := by
  cases r with
  | none => trivial
  | some p => exact ⟨hf _ h.1, h.2⟩

/-- All that lays out a part of an expression, with a bound for the depth. -/
structure TidyExpressions (fuel : Nat) : Prop where
  operand : ∀ ts, TidyTokens ts → Laid (operand? fuel ts)
  suffixes : ∀ done ts, Tidy done → TidyTokens ts → Laid (suffixes? fuel done ts)
  call : ∀ done ts, Tidy done → TidyTokens ts → Laid (call? fuel done ts)
  arguments : ∀ done alone ts, Tidy done → TidyTokens ts → Laid (arguments? fuel done alone ts)
  expression : ∀ ts, TidyTokens ts →
    Laid ((expression? fuel ts).map fun (s, _, rest) => (s, rest))
  expressionTail : ∀ level done ts, Tidy done → TidyTokens ts →
    Laid (expressionTail? fuel level done ts)

namespace TidyExpressions

variable {fuel : Nat} (ih : TidyExpressions fuel)

include ih

theorem operand_succ {ts : List Token} (hts : TidyTokens ts) : Laid (operand? (fuel + 1) ts) := by
  rcases ts with - | ⟨t, rest⟩
  · trivial
  · obtain ⟨ht, hrest⟩ := tidyTokens_cons.1 hts
    unfold operand?
    cases t with
    | literal text => exact ⟨ht, hrest⟩
    | word text =>
      simp only
      split
      · trivial
      · exact ih.suffixes text rest ht hrest
    | sign text =>
      simp only
      split
      · exact (ih.operand rest hrest).map fun s hs => Tidy.append ht hs
      · trivial
    | comment text => trivial

theorem suffixes_succ {done : Bytes} {ts : List Token} (hdone : Tidy done) (hts : TidyTokens ts) :
    Laid (suffixes? (fuel + 1) done ts) := by
  unfold suffixes?
  split
  · next s name more =>
    obtain ⟨-, hmore⟩ := tidyTokens_cons.1 hts
    obtain ⟨hname, hmore⟩ := tidyTokens_cons.1 hmore
    split
    · exact ih.suffixes _ more ((hdone.append (tidy_bytes rfl)).append hname) hmore
    · split
      · exact ih.call done _ hdone hts
      · exact ⟨hdone, hts⟩
  · split
    · exact ih.call done _ hdone hts
    · exact ⟨hdone, hts⟩
  · exact ⟨hdone, hts⟩

theorem call_succ {done : Bytes} {ts : List Token} (hdone : Tidy done) (hts : TidyTokens ts) :
    Laid (call? (fuel + 1) done ts) := by
  have hrest : TidyTokens (ts.drop 1) := hts.subset (List.drop_subset 1 ts)
  unfold call?
  split
  · next s more hdrop =>
    rw [hdrop] at hrest
    split
    · exact ih.suffixes _ more (hdone.append (tidy_bytes rfl)) (tidyTokens_cons.1 hrest).2
    · exact ih.arguments _ true _ (hdone.append (tidy_bytes rfl)) hrest
  · exact ih.arguments _ true _ (hdone.append (tidy_bytes rfl)) hrest

theorem arguments_succ {done : Bytes} {alone : Bool} {ts : List Token} (hdone : Tidy done)
    (hts : TidyTokens ts) : Laid (arguments? (fuel + 1) done alone ts) := by
  have hexpression := ih.expression ts hts
  unfold arguments?
  split
  · trivial
  · next s simple rest heq =>
    rw [heq] at hexpression
    obtain ⟨hs, hrest⟩ := hexpression
    split
    · next c more =>
      have hmore := (tidyTokens_cons.1 hrest).2
      split
      · exact ih.suffixes _ more ((hdone.append hs).append (tidy_bytes rfl)) hmore
      · split
        · exact ih.arguments _ false more ((hdone.append hs).append (tidy_bytes rfl)) hmore
        · trivial
    · trivial

theorem expression_succ {ts : List Token} (hts : TidyTokens ts) :
    Laid ((expression? (fuel + 1) ts).map fun (s, _, rest) => (s, rest)) := by
  have hoperand := ih.operand ts hts
  unfold expression?
  split
  · trivial
  · next s rest heq =>
    rw [heq] at hoperand
    obtain ⟨hs, hrest⟩ := hoperand
    split
    · next t more =>
      obtain ⟨ht, hmore⟩ := tidyTokens_cons.1 hrest
      split
      · exact ⟨hs, hrest⟩
      · have htail := ih.expressionTail (precedence t) _ more
          (((hs.append (tidy_bytes (s := " ") rfl)).append ht).append (tidy_bytes (s := " ") rfl)) hmore
        split
        · trivial
        · next htail' =>
          rw [htail'] at htail
          exact htail
    · exact ⟨hs, by simp [TidyTokens]⟩

theorem expressionTail_succ {level : Nat} {done : Bytes} {ts : List Token} (hdone : Tidy done)
    (hts : TidyTokens ts) : Laid (expressionTail? (fuel + 1) level done ts) := by
  have hoperand := ih.operand ts hts
  unfold expressionTail?
  split
  · trivial
  · next s rest heq =>
    rw [heq] at hoperand
    obtain ⟨hs, hrest⟩ := hoperand
    split
    · next t more =>
      obtain ⟨ht, hmore⟩ := tidyTokens_cons.1 hrest
      split
      · exact ⟨hdone.append hs, hrest⟩
      · split
        · exact ih.expressionTail _ _ more
            ((((hdone.append hs).append (tidy_bytes rfl)).append ht).append (tidy_bytes rfl)) hmore
        · trivial
    · exact ⟨hdone.append hs, by simp [TidyTokens]⟩

end TidyExpressions

theorem tidyExpressions (fuel : Nat) : TidyExpressions fuel := by
  induction fuel with
  | zero =>
    constructor
    all_goals intros; trivial
  | succ fuel ih =>
    -- Each function calls the others with less fuel only.
    exact
      { operand := fun _ => ih.operand_succ
        suffixes := fun _ _ => ih.suffixes_succ
        call := fun _ _ => ih.call_succ
        arguments := fun _ _ _ => ih.arguments_succ
        expression := fun _ => ih.expression_succ
        expressionTail := fun _ _ _ => ih.expressionTail_succ }

theorem tidy_wholeExpression {ts : List Token} (h : TidyTokens ts) {s : Bytes}
    (hs : wholeExpression? ts = some s) : Tidy s := by
  have hexpression := (tidyExpressions (4 * ts.length + 4)).expression ts h
  unfold wholeExpression? at hs
  split at hs
  · next hlaid =>
    cases hs
    rw [hlaid] at hexpression
    exact hexpression.1
  · cases hs

/-! ## Statements -/

theorem subset_of_cutAt {text : Bytes} {ts before after : List Token}
    (h : cutAt? text ts = some (before, after)) : before ⊆ ts ∧ after ⊆ ts := by
  induction ts generalizing before with
  | nil => cases h
  | cons t rest ih =>
    rw [cutAt?] at h
    split at h
    · obtain ⟨rfl, rfl⟩ := Prod.mk.inj (Option.some.inj h)
      exact ⟨List.nil_subset _, List.subset_cons_self _ _⟩
    · obtain ⟨⟨before', after'⟩, hrest, heq⟩ := Option.map_eq_some_iff.1 h
      obtain ⟨rfl, rfl⟩ := Prod.mk.inj heq
      obtain ⟨hbefore, hafter⟩ := ih hrest
      exact ⟨List.cons_subset_cons t hbefore, List.subset_cons_of_subset t hafter⟩

/-- The sign of an assignment, and what stands before and behind it. -/
theorem tidy_assigned {ts target value : List Token} {op : Bytes} (h : TidyTokens ts)
    (hassigned : ([bytes ":=", bytes "=", bytes "+=", bytes "-="].findSome? fun op =>
      (cutAt? op ts).map fun (target, value) => (op, target, value)) = some (op, target, value)) :
    Tidy op ∧ TidyTokens target ∧ TidyTokens value := by
  obtain ⟨op', hop, hmap⟩ := List.exists_of_findSome?_eq_some hassigned
  obtain ⟨⟨before, after⟩, hcut, heq⟩ := Option.map_eq_some_iff.1 hmap
  obtain ⟨rfl, rfl, rfl⟩ : op' = op ∧ before = target ∧ after = value := by simpa using heq
  obtain ⟨htarget, hvalue⟩ := subset_of_cutAt hcut
  have hsigns : ∀ op ∈ [bytes ":=", bytes "=", bytes "+=", bytes "-="], isAscii op = true := by decide
  exact ⟨tidy_of_isAscii (hsigns op' hop), h.subset htarget, h.subset hvalue⟩

theorem tidy_map_wholeExpression {ts : List Token} (h : TidyTokens ts) {f : Bytes → Bytes}
    (hf : ∀ s, Tidy s → Tidy (f s)) {s : Bytes} (hs : (wholeExpression? ts).map f = some s) :
    Tidy s := by
  obtain ⟨s', hs', rfl⟩ := Option.map_eq_some_iff.1 hs
  exact hf s' (tidy_wholeExpression h hs')

theorem tidy_declared {w : Bytes} (hw : Tidy w) {t : Token} (ht : Tidy t.text) :
    Tidy (w ++ bytes " " ++ t.text) := (hw.append (tidy_bytes rfl)).append ht

theorem tidy_simple {ts : List Token} (h : TidyTokens ts) {s : Bytes} (hs : simple? ts = some s) :
    Tidy s := by
  unfold simple? at hs
  split at hs
  · cases hs
  · next w rest =>
    obtain ⟨hw, hrest⟩ : Tidy w ∧ TidyTokens rest := tidyTokens_cons.1 h
    split at hs
    · -- return
      split at hs
      · cases hs
        exact hw
      · exact tidy_map_wholeExpression hrest (fun _ => (hw.append (tidy_bytes rfl)).append) hs
    · split at hs
      · split at hs
        · cases hs
          exact hw
        · cases hs
      · split at hs
        · -- var and const
          split at hs
          · next name sign value =>
            simp only [tidyTokens_cons] at hrest
            split at hs
            · refine tidy_map_wholeExpression hrest.2.2 (fun _ => ?_) hs
              exact ((tidy_declared hw hrest.1).append (tidy_bytes rfl)).append
            · cases hs
          · next name type =>
            simp only [tidyTokens_cons] at hrest
            split at hs
            · cases hs
              exact ((tidy_declared hw hrest.1).append (tidy_bytes rfl)).append hrest.2.1
            · cases hs
          · next name type sign value _ =>
            simp only [tidyTokens_cons] at hrest
            split at hs
            · refine tidy_map_wholeExpression hrest.2.2.2 (fun _ => ?_) hs
              exact ((((tidy_declared hw hrest.1).append (tidy_bytes rfl)).append hrest.2.1).append
                (tidy_bytes rfl)).append
            · cases hs
          · cases hs
        · dsimp only at hs
          generalize hassigned : List.findSome? _ _ = assigned at hs
          cases assigned with
          | some cut =>
            obtain ⟨op, target, value⟩ := cut
            obtain ⟨hop, htarget, hvalue⟩ := tidy_assigned h hassigned
            obtain ⟨t, ht, hs⟩ := Option.bind_eq_some_iff.1 hs
            obtain ⟨v, hv, hs⟩ := Option.bind_eq_some_iff.1 hs
            cases hs
            have ht : Tidy t := tidy_wholeExpression htarget ht
            have hv : Tidy v := tidy_wholeExpression hvalue hv
            exact (((ht.append (tidy_bytes rfl)).append hop).append (tidy_bytes rfl)).append hv
          | none =>
            simp only at hs
            split at hs
            · next sign hlast =>
              split at hs
              · have hsign : Tidy sign := h _ (List.mem_of_getLast? hlast)
                refine tidy_map_wholeExpression (h.subset (List.dropLast_subset _)) ?_ hs
                exact fun _ ht => ht.append hsign
              · split at hs
                · exact tidy_wholeExpression h hs
                · cases hs
            · cases hs
  · cases hs

theorem laid_parameters {done : Bytes} (hdone : Tidy done) {ts : List Token} (h : TidyTokens ts) :
    Laid (parameters? done ts) := by
  fun_induction parameters? done ts with
  | case1 =>
    exact ⟨hdone.append (tidy_bytes rfl), (tidyTokens_cons.1 h).2⟩
  | case4 done name s rest _ _ _ ih =>
    simp only [tidyTokens_cons] at h
    exact ih ((hdone.append h.1).append (tidy_bytes rfl)) h.2.2
  | case5 done name s rest =>
    simp only [tidyTokens_cons] at h
    exact ⟨(hdone.append h.1).append (tidy_bytes rfl), h.2.2⟩
  | case8 done name type s rest _ _ _ _ ih =>
    simp only [tidyTokens_cons] at h
    exact ih ((((hdone.append h.1).append (tidy_bytes rfl)).append h.2.1).append (tidy_bytes rfl)) h.2.2.2
  | case9 done name type s rest =>
    simp only [tidyTokens_cons] at h
    exact ⟨(((hdone.append h.1).append (tidy_bytes rfl)).append h.2.1).append (tidy_bytes rfl), h.2.2.2⟩
  | _ => trivial

/-! ## Lines -/

def Line.Tidy (l : Line) : Prop := Text.Tidy l.text ∧ ∀ r, l.remark = some r → Text.Tidy r

theorem Line.tidy_of_text {l : Line} (h : Text.Tidy l.text) (hremark : l.remark = none) : l.Tidy :=
  ⟨h, by simp [hremark]⟩

theorem tidy_functionBody {head : Bytes} (hhead : Tidy head) {rest : List Token}
    (hrest : TidyTokens rest) {l : Line} (hl : functionBody? head rest = some l) : l.Tidy := by
  obtain ⟨-, -, hl⟩ := Option.bind_eq_some_iff.1 hl
  dsimp only at hl
  split at hl
  · cases hl
    exact Line.tidy_of_text (hhead.append (tidy_bytes rfl)) rfl
  · obtain ⟨-, -, hl⟩ := Option.bind_eq_some_iff.1 hl
    split at hl
    · cases hl
      exact Line.tidy_of_text (hhead.append (tidy_bytes rfl)) rfl
    · obtain ⟨s, hs, hl⟩ := Option.bind_eq_some_iff.1 hl
      cases hl
      have hinside : TidyTokens (rest.drop 1).dropLast :=
        hrest.subset (List.Subset.trans (List.dropLast_subset _) (List.drop_subset _ _))
      exact Line.tidy_of_text
        (((hhead.append (tidy_bytes rfl)).append (tidy_simple hinside hs)).append (tidy_bytes rfl)) rfl

theorem tidy_function {ts : List Token} (h : TidyTokens ts) {l : Line} (hl : function? ts = some l) :
    l.Tidy := by
  unfold function? at hl
  split at hl
  · next name s rest =>
    simp only [tidyTokens_cons] at h
    obtain ⟨-, -, hl⟩ := Option.bind_eq_some_iff.1 hl
    obtain ⟨⟨head, rest⟩, hparameters, hl⟩ := Option.bind_eq_some_iff.1 hl
    have hstart : Tidy (bytes "func " ++ name.text ++ bytes "(") :=
      (Tidy.append (tidy_bytes rfl) h.1).append (tidy_bytes rfl)
    have hlaid := laid_parameters hstart h.2.2
    rw [hparameters] at hlaid
    obtain ⟨hhead, hrest⟩ := hlaid
    dsimp only at hl
    split at hl
    · obtain ⟨htype, hmore⟩ := tidyTokens_cons.1 hrest
      exact tidy_functionBody ((hhead.append (tidy_bytes rfl)).append htype) hmore hl
    · exact tidy_functionBody hhead hrest hl
  · cases hl

theorem tidy_bareLine {ts : List Token} (h : TidyTokens ts) {l : Line} (hl : bareLine? ts = some l) :
    l.Tidy := by
  unfold bareLine? at hl
  split at hl
  · cases hl
  · split at hl
    · cases hl
      exact Line.tidy_of_text (tidyTokens_cons.1 h).1 rfl
    · cases hl
  · cases hl
    exact Line.tidy_of_text (tidyTokens_cons.1 h).1 rfl
  · next w rest =>
    obtain ⟨hw, hrest⟩ : Tidy w ∧ TidyTokens rest := tidyTokens_cons.1 h
    split at hl
    · -- package
      split at hl
      · split at hl
        · cases hl
          exact Line.tidy_of_text (tidy_declared hw (tidyTokens_cons.1 hrest).1) rfl
        · cases hl
      · cases hl
    · split at hl
      · -- import
        split at hl
        · split at hl
          · cases hl
            exact Line.tidy_of_text (tidy_declared hw (tidyTokens_cons.1 hrest).1) rfl
          · cases hl
        · cases hl
      · split at hl
        · exact tidy_function hrest hl
        · split at hl
          · -- for and if
            obtain ⟨-, -, hl⟩ := Option.bind_eq_some_iff.1 hl
            dsimp only at hl
            split at hl
            · obtain ⟨-, -, hl⟩ := Option.bind_eq_some_iff.1 hl
              cases hl
              exact Line.tidy_of_text (tidy_bytes rfl) rfl
            · obtain ⟨s, hs, hl⟩ := Option.bind_eq_some_iff.1 hl
              cases hl
              have hs := tidy_wholeExpression (hrest.subset (List.dropLast_subset _)) hs
              exact Line.tidy_of_text (((hw.append (tidy_bytes rfl)).append hs).append (tidy_bytes rfl)) rfl
          · obtain ⟨s, hs, rfl⟩ := Option.map_eq_some_iff.1 hl
            exact Line.tidy_of_text (tidy_simple h hs) rfl
  · cases hl

theorem tidy_line {ts : List Token} (h : TidyTokens ts) {l : Line} (hl : line? ts = some l) :
    l.Tidy := by
  unfold line? at hl
  split at hl
  · next t us remark hfront hlast =>
    obtain ⟨l', hl', rfl⟩ := Option.map_eq_some_iff.1 hl
    have hremark : Tidy remark := h _ (List.mem_of_getLast? hlast)
    refine ⟨(tidy_bareLine (h.subset ?_) hl').1, fun r hr => ?_⟩
    · rw [← hfront]
      exact List.dropLast_subset _
    · cases hr
      exact hremark
  · exact tidy_bareLine h hl

theorem tidy_lines {ls : List Bytes} (h : TidyLines ls) {gap : Bool} {laid : List Line}
    (hlaid : lines? gap ls = some laid) : ∀ l ∈ laid, l.Tidy := by
  induction ls generalizing gap laid with
  | nil =>
    cases hlaid
    simp
  | cons text rest ih =>
    obtain ⟨htext, hrest⟩ : Tidy text ∧ TidyLines rest := List.forall_mem_cons.1 h
    rw [lines?] at hlaid
    split at hlaid
    · exact ih hrest hlaid
    · obtain ⟨ts, hts, hlaid⟩ := Option.bind_eq_some_iff.1 hlaid
      obtain ⟨l, hl, hlaid⟩ := Option.bind_eq_some_iff.1 hlaid
      obtain ⟨more, hmore, hlaid⟩ := Option.bind_eq_some_iff.1 hlaid
      cases hlaid
      have hline := tidy_line (tidy_tokens htext text List.suffix_rfl ts hts) hl
      exact List.forall_mem_cons.2 ⟨hline, ih hrest hmore⟩

theorem tidy_layoutFrom {laid : List Line} (h : ∀ l ∈ laid, l.Tidy) (declarations : Bool)
    (depth : Nat) (previous : Option Kind) (fresh : Bool) :
    TidyLines (layoutFrom declarations depth previous fresh laid) := by
  induction laid generalizing depth previous fresh with
  | nil => simp [layoutFrom, TidyLines]
  | cons l rest ih =>
    obtain ⟨hl, hrest⟩ := List.forall_mem_cons.1 h
    have hmore := ih hrest
    have htext : ∀ depth : Nat,
        Tidy (List.replicate depth 9 ++ l.text ++ (l.remark.map (32 :: ·)).getD []) := by
      intro depth
      refine Tidy.append (Tidy.append (tidy_of_ascii fun c hc => ?_) hl.1) ?_
      · rw [List.eq_of_mem_replicate hc]
        decide
      · cases hremark : l.remark with
        | none => exact tidy_nil
        | some r => exact Tidy.append (a := [32]) (tidy_of_isAscii (by decide)) (hl.2 r hremark)
    have hlines : ∀ {apart : Bool} {text : Bytes} {more : List Bytes}, Tidy text → TidyLines more →
        TidyLines (if apart then [] :: text :: more else text :: more) := by
      intro apart text more htext hmore
      split
      · exact List.forall_mem_cons.2 ⟨tidy_nil, List.forall_mem_cons.2 ⟨htext, hmore⟩⟩
      · exact List.forall_mem_cons.2 ⟨htext, hmore⟩
    rw [layoutFrom]
    exact hlines (htext _) (hmore _ _ _)

theorem tidy_layout {ls : List Bytes} (h : TidyLines ls) {out : List Bytes}
    (hout : layout? ls = some out) : TidyLines out := by
  obtain ⟨laid, hlaid, hout⟩ := Option.bind_eq_some_iff.1 hout
  obtain ⟨-, -, hout⟩ := Option.bind_eq_some_iff.1 hout
  cases hout
  exact tidy_layoutFrom (tidy_lines h hlaid) _ _ _ _

end Bindery.Listing.Layout
