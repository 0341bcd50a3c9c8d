import Bindery.Proofs.Listing.Token

/-!
# Bracket levels of tokens

The depth of a token is the number of brackets open around it, counted from the start of its logical line
(`levelled_tokenize`). Tokens whose brackets match leave the level as it was and stay at it or above.
-/

namespace Bindery.Listing.Python

open Text

def Token.opens (t : Token) : Bool := t.kind == .operator && (t.text.head?.map isOpening).getD false

def Token.closes (t : Token) : Bool := t.kind == .operator && (t.text.head?.map isClosing).getD false

/-- Tokens that lead from one bracket level to another. -/
inductive Levelled : Nat → List Token → Nat → Prop
  | nil (d : Nat) : Levelled d [] d
  | cons {d e : Nat} {t : Token} {ts : List Token} (h : t.depth = if t.closes then d - 1 else d)
      (hrest : Levelled (if t.opens then t.depth + 1 else t.depth) ts e) : Levelled d (t :: ts) e

/-- Tokens whose brackets match. -/
inductive Balanced : List Token → Prop
  | nil : Balanced []
  | cons {t : Token} {ts : List Token} (hopens : t.opens = false) (hcloses : t.closes = false)
      (h : Balanced ts) : Balanced (t :: ts)
  | group {opening closing : Token} {inside ts : List Token} (hopens : opening.opens = true)
      (hcloses : closing.closes = true) (hinside : Balanced inside) (h : Balanced ts) :
      Balanced (opening :: (inside ++ closing :: ts))

section

variable {d e : Nat} {t : Token} {ts us : List Token}

theorem Token.closes_of_opens (h : t.opens = true) : t.closes = false := by
  rw [opens, Bool.and_eq_true] at h
  rw [closes, Bool.and_eq_false_iff]
  right
  cases hhead : t.text.head? with
  | none => rfl
  | some c =>
    rw [hhead] at h
    have hc : isOpening c = true := h.2
    rw [isOpening, Bool.or_eq_true, Bool.or_eq_true, beq_iff_eq, beq_iff_eq, beq_iff_eq] at hc
    rcases hc with (rfl | rfl) | rfl <;> rfl

theorem Token.opens_of_closes (h : t.closes = true) : t.opens = false := by
  rw [← Bool.not_eq_true]
  intro hopens
  rw [closes_of_opens hopens] at h
  cases h

theorem levelled_append : Levelled d (ts ++ us) e ↔ ∃ m, Levelled d ts m ∧ Levelled m us e := by
  induction ts generalizing d with
  | nil =>
    constructor
    · intro h
      exact ⟨d, .nil d, h⟩
    · rintro ⟨m, hnil, h⟩
      cases hnil
      exact h
  | cons t ts ih =>
    constructor
    · intro h
      cases h with
      | cons hdepth hrest =>
        obtain ⟨m, hts, hus⟩ := ih.1 hrest
        exact ⟨m, .cons hdepth hts, hus⟩
    · rintro ⟨m, hts, hus⟩
      cases hts with
      | cons hdepth hrest => exact .cons hdepth (ih.2 ⟨m, hrest, hus⟩)

theorem Balanced.levelled (h : Balanced ts) (hlevel : Levelled d ts e) : e = d ∧ ∀ t ∈ ts, d ≤ t.depth := by
  induction h generalizing d e with
  | nil =>
    cases hlevel
    exact ⟨rfl, by simp⟩
  | @cons t ts hopens hcloses _ ih =>
    cases hlevel with
    | cons hdepth hrest =>
      rw [if_neg (by simp [hcloses])] at hdepth
      rw [if_neg (by simp [hopens]), hdepth] at hrest
      obtain ⟨he, hts⟩ := ih hrest
      exact ⟨he, List.forall_mem_cons.2 ⟨hdepth.ge, hts⟩⟩
  | @group opening closing inside ts hopens hcloses _ _ ihinside ih =>
    cases hlevel with
    | cons hdepth hrest =>
      rw [if_neg (by simp [Token.closes_of_opens hopens])] at hdepth
      rw [if_pos hopens, hdepth] at hrest
      obtain ⟨m, hinside, hrest⟩ := levelled_append.1 hrest
      obtain ⟨rfl, hdepths⟩ := ihinside hinside
      cases hrest with
      | cons hclosing hrest =>
        rw [if_pos hcloses, Nat.add_sub_cancel] at hclosing
        rw [if_neg (by simp [Token.opens_of_closes hcloses]), hclosing] at hrest
        obtain ⟨he, hts⟩ := ih hrest
        refine ⟨he, List.forall_mem_cons.2 ⟨hdepth.ge, List.forall_mem_append.2 ⟨?_, ?_⟩⟩⟩
        · exact fun t ht => Nat.le_of_succ_le (hdepths t ht)
        · exact List.forall_mem_cons.2 ⟨hclosing.ge, hts⟩

end

/-! ## Levels of logical lines -/

/-- Between two lexemes, the finished lines began and ended at the outermost level and the present one led from
there to the present level. -/
structure State.Levels (s : State) : Prop where
  tokens : Levelled 0 s.tokens.reverse s.depth
  logicals : ∀ l ∈ s.logicals, Levelled 0 l.tokens 0

theorem State.Levels.step {s : State} (h : s.Levels) (c : UInt8) (rest : Bytes) (lexeme : Lexeme) :
    (s.step c rest lexeme).Levels := by
  cases lexeme with
  | newline =>
    rw [State.step]
    dsimp only
    split
    · next hdepth =>
      have htokens := h.tokens
      rw [hdepth.1] at htokens
      refine ⟨?_, List.forall_mem_cons.2 ⟨htokens, h.logicals⟩⟩
      show Levelled 0 [] s.depth
      rw [hdepth.1]
      exact .nil 0
    · exact ⟨h.tokens, h.logicals⟩
  | continuation => exact ⟨h.tokens, h.logicals⟩
  | blank => exact ⟨h.tokens, h.logicals⟩
  | comment => exact ⟨h.tokens, h.logicals⟩
  | token kind n =>
    refine ⟨?_, h.logicals⟩
    show Levelled 0 (s.tokenOf kind (c :: rest.take n) :: s.tokens).reverse _
    rw [List.reverse_cons, levelled_append]
    refine ⟨s.depth, h.tokens, ?_⟩
    by_cases hkind : kind = .operator
    · subst hkind
      have hopens : (s.tokenOf .operator (c :: rest.take n)).opens = isOpening c := rfl
      have hcloses : (s.tokenOf .operator (c :: rest.take n)).closes = isClosing c := rfl
      have hdepth : (s.tokenOf .operator (c :: rest.take n)).depth =
          if isClosing c then s.depth - 1 else s.depth := by simp [tokenOf]
      have hlevel : Levelled s.depth [s.tokenOf .operator (c :: rest.take n)] _ :=
        .cons (by rw [hcloses, hdepth]) (.nil _)
      rw [hopens, hdepth] at hlevel
      simpa [State.step] using hlevel
    · have hopens : (s.tokenOf kind (c :: rest.take n)).opens = false := by
        simp [Token.opens, tokenOf, hkind]
      have hcloses : (s.tokenOf kind (c :: rest.take n)).closes = false := by
        simp [Token.closes, tokenOf, hkind]
      have hdepth : (s.tokenOf kind (c :: rest.take n)).depth = s.depth := by simp [tokenOf, hkind]
      have hlevel : Levelled s.depth [s.tokenOf kind (c :: rest.take n)] _ :=
        .cons (by rw [hcloses, hdepth]; rfl) (.nil _)
      rw [hopens, hdepth] at hlevel
      simpa [State.step, hkind] using hlevel

theorem State.Levels.run {s : State} (h : s.Levels) (source : Bytes) : (s.run source).Levels := by
  fun_induction State.run s source with
  | case1 => exact h
  | case2 s c rest lexeme ih => exact ih (h.step c rest lexeme)

/-- Every logical line begins at the outermost level. -/
theorem levelled_tokenize (source : Bytes) : ∀ l ∈ (tokenize source).1, ∃ d, Levelled 0 l.tokens d := by
  have hstart : State.Levels {} := ⟨.nil 0, by simp⟩
  have hrun := hstart.run source
  intro l hl
  rcases List.mem_append.1 hl with hl | hl
  · exact ⟨0, hrun.logicals l (List.mem_reverse.1 hl)⟩
  · split at hl
    · rw [List.mem_singleton.1 hl]
      exact ⟨_, hrun.tokens⟩
    · cases hl

theorem levelled_logicals {ls : List LogicalLine} (h : ∀ l ∈ ls, Levelled 0 l.tokens 0) :
    Levelled 0 (ls.flatMap LogicalLine.tokens) 0 := by
  induction ls with
  | nil => exact .nil 0
  | cons l ls ih =>
    obtain ⟨hl, hls⟩ := List.forall_mem_cons.1 h
    exact levelled_append.2 ⟨0, hl, ih hls⟩

/-- The tokens of a source lead from the outermost level to the last one. -/
theorem exists_levelled_tokensOf (source : Bytes) : ∃ d, Levelled 0 (tokensOf source) d := by
  have hstart : State.Levels {} := ⟨.nil 0, by simp⟩
  have hrun := hstart.run source
  rw [tokensOf_eq]
  refine ⟨_, levelled_append.2 ⟨0, levelled_logicals ?_, hrun.tokens⟩⟩
  exact fun l hl => hrun.logicals l (List.mem_reverse.1 hl)

end Bindery.Listing.Python
