import Bindery.Proofs.Text.Tidy

/-!
# White space in texts

Texts that are compared up to white space, and pieces that stand in a text one behind the other. A
well-formed text can be cut behind every byte of ASCII, and deleting white space commutes with such a
cut (`unspaced_append`): no character is made or lost there.
-/

namespace Bindery.Text

theorem not_of_head?_dropWhile {p : UInt8 → Bool} {s : Bytes} :
    ∀ c ∈ (s.dropWhile p).head?, p c = false := by
  intro c hc
  have h := List.head?_dropWhile_not p s
  rw [Option.mem_def.1 hc] at h
  simpa using h

theorem exists_trimEnd (p : UInt8 → Bool) (s : Bytes) : ∃ w, s = trimEnd p s ++ w ∧
    (∀ c ∈ w, p c = true) ∧ (∀ c ∈ (trimEnd p s).getLast?, p c = false) ∧
    w.length = (s.reverse.takeWhile p).length := by
  refine ⟨(s.reverse.takeWhile p).reverse, ?_, ?_, ?_, List.length_reverse⟩
  · rw [trimEnd, ← List.reverse_append, List.takeWhile_append_dropWhile, List.reverse_reverse]
  · intro c hc
    exact List.mem_takeWhile_imp (List.mem_reverse.1 hc)
  · rw [trimEnd, List.getLast?_reverse]
    exact not_of_head?_dropWhile

/-! ## White bytes -/

theorem trimStart_white_append {w : Bytes} (h : White w) (s : Bytes) :
    trimStart (w ++ s) = trimStart s := by
  induction h with
  | nil => rfl
  | @cons c w hc _ ih =>
    rw [List.append_assoc]
    rcases hc with ⟨a, rfl, ha⟩ | ⟨a, b, rfl, hab⟩ | ⟨a, b, c, rfl, habc⟩
    · rw [List.singleton_append, trimStart.eq_def]
      simp [ha, ih]
    · have ha : isSpace1 a = false := by
        simp only [isSpace2, Bool.and_eq_true, beq_iff_eq] at hab
        rw [hab.1]
        decide
      rw [trimStart.eq_def]
      simp [ha, hab, ih]
    · have ha : isSpace1 a = false ∧ ∀ b, isSpace2 a b = false := by
        have : a = 0xE1 ∨ a = 0xE2 ∨ a = 0xE3 := by
          simp only [isSpace3, Bool.and_eq_true, Bool.or_eq_true, beq_iff_eq] at habc
          grind
        rcases this with rfl | rfl | rfl <;> simp [isSpace2] <;> decide
      rw [trimStart.eq_def]
      simp [ha.1, ha.2, habc, ih]

theorem isWhite_iff {s : Bytes} : isWhite s = true ↔ White s := by
  constructor
  · exact white_of_isWhite
  · intro h
    have hs := trimStart_white_append h []
    rw [List.append_nil] at hs
    rw [isWhite, hs]
    rfl

theorem IsWideSpace.le {w : Bytes} (h : IsWideSpace w) : ∀ c ∈ w, 0x80 ≤ c := by
  rcases h with ⟨x, y, rfl, h⟩ | ⟨x, y, z, rfl, h⟩
  · intro c hc
    simp only [isSpace2, Bool.and_eq_true, Bool.or_eq_true, beq_iff_eq] at h
    grind
  · intro c hc
    obtain ⟨hy, hz⟩ := isContinuation_of_isSpace3 h
    simp only [isSpace3, isContinuation, Bool.and_eq_true, Bool.or_eq_true, beq_iff_eq,
      decide_eq_true_eq] at h hy hz
    grind

/-- The bytes of white space are white themselves or not of ASCII. -/
theorem White.isSpace1_or {w : Bytes} (h : White w) : ∀ c ∈ w, isSpace1 c = true ∨ 0x80 ≤ c := by
  induction h with
  | nil => simp
  | cons hc _ ih =>
    intro b hb
    rcases List.mem_append.1 hb with hb | hb
    · rcases hc with ⟨a, rfl, ha⟩ | hwide
      · rw [List.mem_singleton.1 hb]
        exact .inl ha
      · exact .inr (IsWideSpace.le hwide b hb)
    · exact ih b hb

theorem White.notMem {w : Bytes} (h : White w) {c : UInt8} (hc : c < 0x80) (hspace : isSpace1 c = false) :
    c ∉ w := by
  intro hmem
  rcases h.isSpace1_or c hmem with h | h
  · rw [hspace] at h
    cases h
  · exact absurd hc (UInt8.not_lt.2 h)

theorem white_of_isBlank {w : Bytes} (h : ∀ c ∈ w, isBlank c = true) : White w := by
  induction w with
  | nil => exact .nil
  | cons c w ih =>
    obtain ⟨hc, hw⟩ := List.forall_mem_cons.1 h
    have hspace : isSpace1 c = true := by
      rw [isBlank, Bool.or_eq_true, beq_iff_eq, beq_iff_eq] at hc
      rcases hc with rfl | rfl <;> decide
    exact White.cons (c := [c]) (.inl ⟨c, rfl, hspace⟩) (ih hw)

theorem White.fresh {w : Bytes} (h : White w) : Fresh w := by
  cases h with
  | nil => exact fresh_nil
  | cons hc =>
    rcases hc with ⟨a, rfl, ha⟩ | hwide
    · exact fresh_cons (not_isContinuation_of_lt (lt_of_isSpace1 ha)) _
    · obtain ⟨y, u, rfl, -, hy, -, -⟩ := hwide.eq_cons
      exact fresh_cons hy _

theorem White.exists_prefix {w : Bytes} (h : White w) (hne : w ≠ []) : ∃ c, IsSpace c ∧ c <+: w := by
  cases h with
  | nil => exact absurd rfl hne
  | cons hc => exact ⟨_, hc, List.prefix_append _ _⟩

theorem White.exists_suffix {w : Bytes} (h : White w) (hne : w ≠ []) : ∃ c, IsSpace c ∧ c <:+ w := by
  induction h with
  | nil => exact absurd rfl hne
  | @cons c w hc hw ih =>
    by_cases hnil : w = []
    · refine ⟨c, hc, ?_⟩
      simp only [hnil, List.append_nil, List.suffix_refl]
    · obtain ⟨d, hd, hsuffix⟩ := ih hnil
      exact ⟨d, hd, hsuffix.trans (List.suffix_append _ _)⟩

/-- White space can be cut where a character begins. -/
theorem White.of_append {a b : Bytes} (h : White (a ++ b)) (hb : Fresh b) : White a ∧ White b := by
  generalize hs : a ++ b = s at h
  induction h generalizing a with
  | nil =>
    obtain ⟨rfl, rfl⟩ := List.append_eq_nil_iff.1 hs
    exact ⟨.nil, .nil⟩
  | @cons c w hc hw ih =>
    rcases List.append_eq_append_iff.1 hs with ⟨u, rfl, rfl⟩ | ⟨u, rfl, hu⟩
    · -- The cut is inside of the first character, so it is at one of its ends.
      rcases a with - | ⟨x, a⟩
      · exact ⟨.nil, .cons hc hw⟩
      · rcases u with - | ⟨y, u⟩
        · rw [List.append_nil] at hc
          exact ⟨hc.white, hw⟩
        · have hled : Led (x :: a ++ y :: u) := by
            rcases hc with ⟨z, hz, -⟩ | hwide
            · simp at hz
            · exact hwide.led
          have hy := hled (x :: a) y u rfl (by simp)
          rw [hb y (u ++ w) rfl] at hy
          cases hy
    · obtain ⟨hu, hb⟩ := ih hu.symm
      exact ⟨.cons hc hu, hb⟩

theorem Fresh.of_append {a b : Bytes} (h : Fresh (a ++ b)) : Fresh a := by
  rintro c q rfl
  exact h c (q ++ b) rfl

theorem Fresh.append {a b : Bytes} (h : Fresh a) (hne : a ≠ []) : Fresh (a ++ b) := by
  obtain ⟨c, q, rfl⟩ := List.exists_cons_of_ne_nil hne
  exact fresh_cons (h c q rfl) _

/-! ## Deleting white space -/

/-- A text without its white-space characters. -/
def unspaced (s : Bytes) : Bytes :=
  ((runes s).filter fun r => !isSpaceRune r.1).flatMap Prod.snd

theorem not_continues {x : UInt8} (hx : isContinuation x = false) {lo hi : UInt8} (hlo : 0x80 ≤ lo)
    (hhi : hi < 0xC0) : (decide (lo ≤ x) && decide (x ≤ hi)) = false := by
  rw [isContinuation, Bool.and_eq_false_iff, decide_eq_false_iff_not, decide_eq_false_iff_not] at hx
  rw [Bool.and_eq_false_iff, decide_eq_false_iff_not, decide_eq_false_iff_not]
  exact hx.imp (fun hx h => hx (UInt8.le_trans hlo h)) fun hx h => hx (UInt8.lt_of_le_of_lt h hhi)

/-- Reading a character does not depend on what follows if a character begins there. -/
theorem firstRune_append {u t : Bytes} (hu : u ≠ []) (ht : Fresh t) :
    firstRune (u ++ t) = firstRune u := by
  obtain rfl | ⟨x, q, rfl⟩ : t = [] ∨ ∃ x q, t = x :: q := by cases t <;> simp
  · rw [List.append_nil]
  have hx : isContinuation x = false := ht x q rfl
  -- None of the tests for a byte that continues a character accepts `x`.
  have hplain : (decide (0x80 ≤ x) && decide (x ≤ 0xBF)) = false := not_continues hx (by decide) (by decide)
  have hthree : ∀ a : UInt8, (decide ((if a = 0xE0 then 0xA0 else 0x80) ≤ x) &&
      decide (x ≤ if a = 0xED then 0x9F else 0xBF)) = false := fun a =>
    not_continues hx (by split <;> decide) (by split <;> decide)
  have hfour : ∀ a : UInt8, (decide ((if a = 0xF0 then 0x90 else 0x80) ≤ x) &&
      decide (x ≤ if a = 0xF4 then 0x8F else 0xBF)) = false := fun a =>
    not_continues hx (by split <;> decide) (by split <;> decide)
  rcases u with - | ⟨a, - | ⟨b, - | ⟨c, - | ⟨d, u⟩⟩⟩⟩
  · exact absurd rfl hu
  · rcases q with - | ⟨y, - | ⟨z, q⟩⟩ <;>
      simp only [firstRune, List.cons_append, List.nil_append, hplain, hthree, hfour, Bool.false_and,
        Bool.false_eq_true, if_false]
  · rcases q with - | ⟨y, q⟩ <;>
      simp only [firstRune, List.cons_append, List.nil_append, hplain, Bool.false_and, Bool.and_false,
        Bool.false_eq_true, if_false]
  · simp only [firstRune, List.cons_append, List.nil_append, hplain, Bool.and_false, Bool.false_eq_true,
      if_false]
  · rfl

theorem firstRune_le {s : Bytes} : (firstRune s).2 ≤ s.length := by
  fun_cases firstRune s <;> simp_all

theorem runes_eq {s : Bytes} (h : s ≠ []) :
    runes s = ((firstRune s).1, s.take (firstRune s).2) :: runes (s.drop (firstRune s).2) := by
  obtain ⟨c, rest, rfl⟩ := List.exists_cons_of_ne_nil h
  obtain ⟨r, first, rest', -, hcut, hrunes, rfl, hfirst⟩ := runes_cons c rest
  have hrest : rest' = (c :: rest).drop (firstRune (c :: rest)).2 := by
    apply @List.append_cancel_left _ first
    rw [← hcut, hfirst, List.take_append_drop]
  rw [hrunes, hrest, hfirst]

theorem runes_append (u : Bytes) {t : Bytes} (ht : Fresh t) : runes (u ++ t) = runes u ++ runes t := by
  induction hn : u.length using Nat.strongRecOn generalizing u with
  | ind n ih =>
    by_cases hu : u = []
    · rw [hu]
      rfl
    · have hle : (firstRune u).2 ≤ u.length := firstRune_le
      have hpos := firstRune_pos hu
      have hshorter : (u.drop (firstRune u).2).length < n := by
        rw [List.length_drop]
        omega
      rw [runes_eq (List.append_ne_nil_of_left_ne_nil hu t), firstRune_append hu ht,
        List.take_append_of_le_length hle, List.drop_append_of_le_length hle, ih _ hshorter _ rfl,
        runes_eq hu, List.cons_append]

theorem unspaced_append (u : Bytes) {t : Bytes} (ht : Fresh t) :
    unspaced (u ++ t) = unspaced u ++ unspaced t := by
  rw [unspaced, runes_append u ht, List.filter_append, List.flatMap_append]
  rfl

theorem IsSpace.firstRune {c : Bytes} (h : IsSpace c) :
    ∃ r, isSpaceRune r = true ∧ ∀ t, Text.firstRune (c ++ t) = (r, c.length) := by
  rcases h with ⟨a, rfl, ha⟩ | ⟨a, b, rfl, hab⟩ | ⟨a, b, c, rfl, habc⟩
  · refine ⟨a.toNat, ?_, fun t => ?_⟩
    · simp only [isSpace1, Bool.or_eq_true, beq_iff_eq, Bool.and_eq_true, decide_eq_true_eq] at ha
      simp only [isSpaceRune, Bool.or_eq_true, beq_iff_eq, Bool.and_eq_true, decide_eq_true_eq]
      rcases ha with rfl | ⟨hlo, hhi⟩
      · decide
      · rw [UInt8.le_iff_toNat_le] at hlo hhi
        have : 9 ≤ a.toNat ∧ a.toNat ≤ 13 := ⟨hlo, hhi⟩
        omega
    · simp [Text.firstRune, lt_of_isSpace1 ha]
  · simp only [isSpace2, Bool.and_eq_true, Bool.or_eq_true, beq_iff_eq] at hab
    obtain ⟨rfl, rfl | rfl⟩ := hab
    · exact ⟨0x85, by decide, fun t => rfl⟩
    · exact ⟨0xA0, by decide, fun t => rfl⟩
  · simp only [isSpace3, Bool.and_eq_true, Bool.or_eq_true, beq_iff_eq, decide_eq_true_eq] at habc
    rcases habc with ((⟨⟨rfl, rfl⟩, rfl⟩ | ⟨⟨rfl, rfl⟩, hc⟩) | ⟨⟨rfl, rfl⟩, rfl⟩) | ⟨⟨rfl, rfl⟩, rfl⟩
    · exact ⟨0x1680, by decide, fun t => rfl⟩
    · have hlo : 0x80 ≤ c ∧ c ≤ 0xBF := by grind
      refine ⟨0x2000 + c.toNat % 64, ?_, fun t => ?_⟩
      · simp only [isSpaceRune, Bool.or_eq_true, beq_iff_eq, Bool.and_eq_true, decide_eq_true_eq]
        rcases hc with ((⟨-, hhi⟩ | rfl) | rfl) | rfl
        · rw [UInt8.le_iff_toNat_le] at hhi
          have h1 := UInt8.le_iff_toNat_le.1 hlo.1
          have : c.toNat ≤ 138 := hhi
          have : 128 ≤ c.toNat := h1
          omega
        all_goals decide
      · simp [Text.firstRune, hlo]
    · exact ⟨0x205F, by decide, fun t => rfl⟩
    · exact ⟨0x3000, by decide, fun t => rfl⟩

theorem White.unspaced_append {w : Bytes} (h : White w) (t : Bytes) : unspaced (w ++ t) = unspaced t := by
  induction h with
  | nil => rfl
  | @cons c w hc _ ih =>
    obtain ⟨r, hr, hfirst⟩ := hc.firstRune
    have hne : c ++ (w ++ t) ≠ [] := by
      rcases hc with ⟨_, rfl, -⟩ | ⟨_, _, rfl, -⟩ | ⟨_, _, _, rfl, -⟩ <;> simp
    rw [← ih, List.append_assoc, unspaced, runes_eq hne, hfirst, List.drop_left, List.filter_cons_of_neg]
    · rfl
    · simp [hr]

theorem unspaced_append_white (u : Bytes) {w s : Bytes} (hw : White w) (hs : Fresh s) :
    unspaced (u ++ (w ++ s)) = unspaced u ++ unspaced s := by
  have hfresh : Fresh (w ++ s) := by
    by_cases hnil : w = []
    · rwa [hnil]
    · exact hw.fresh.append hnil
  rw [unspaced_append u hfresh, hw.unspaced_append]

/-! ## Characters of well-formed text -/

/-- A text in which no byte goes on with a character behind one of ASCII. -/
def Whole (s : Bytes) : Prop := ∀ p a t, s = p ++ a :: t → a < 0x80 → Fresh t

theorem Whole.of_append {p s : Bytes} (h : Whole (p ++ s)) : Whole s := by
  rintro q a t rfl ha
  exact h (p ++ q) a t (List.append_assoc _ _ _).symm ha

theorem Whole.drop {s : Bytes} (h : Whole s) (n : Nat) : Whole (s.drop n) := by
  rw [← List.take_append_drop n s] at h
  exact h.of_append

theorem White.whole {w : Bytes} (h : White w) : Whole w := by
  induction h with
  | nil =>
    intro p a t heq
    simp at heq
  | @cons c w hc hw ih =>
    intro p a t heq ha
    rcases List.append_eq_append_iff.1 heq with ⟨u, rfl, hu⟩ | ⟨u, hcut, ht⟩
    · exact ih u a t hu ha
    · rcases u with - | ⟨b, u⟩
      · exact ih [] a t ht.symm ha
      · obtain ⟨rfl, rfl⟩ := List.cons.inj ht
        -- Only a character of ASCII has a byte of ASCII.
        rcases hc with ⟨d, rfl, -⟩ | hwide
        · rcases p with - | ⟨e, p⟩
          · obtain ⟨-, rfl⟩ := List.cons.inj hcut
            exact hw.fresh
          · simp at hcut
        · have hmem : a ∈ c := by simp [hcut]
          exact absurd ha (UInt8.not_lt.2 (IsWideSpace.le hwide a hmem))

/-- Two texts of which one ends in ASCII or the other begins with it. -/
def Parted (a b : Bytes) : Prop := ∀ x ∈ a.getLast?, ∀ y ∈ b.head?, x < 0x80 ∨ y < 0x80

theorem Parted.append_left {a b : Bytes} (h : Parted a b) (ha : a ≠ []) (front : Bytes) :
    Parted (front ++ a) b := by
  intro x hx
  rw [List.getLast?_append_of_ne_nil _ ha] at hx
  exact h x hx

theorem Parted.fresh {a b : Bytes} (h : Parted a b) (ha : a ≠ []) (htidy : Tidy (a ++ b)) : Fresh b := by
  rintro y q rfl
  obtain ⟨p, x, rfl⟩ := (List.eq_nil_or_concat a).resolve_left ha
  rw [List.concat_eq_append] at h htidy
  by_contra hcontinues
  rw [Bool.not_eq_false] at hcontinues
  rcases h x List.getLast?_concat y rfl with hx | hy
  · exact (htidy (p ++ [x]) y q rfl hcontinues).1 (ended_concat hx p)
  · rw [not_isContinuation_of_lt hy] at hcontinues
    cases hcontinues

theorem Parted.within {front a b behind : Bytes} (h : Parted (front ++ a) (b ++ behind)) : Parted a b := by
  intro x hx y hy
  apply h x _ y
  · rw [List.head?_append, Option.mem_def.1 hy]
    rfl
  · rw [List.getLast?_append, Option.mem_def.1 hx]
    rfl

theorem White.of_parted {a b : Bytes} (h : White (a ++ b)) (hp : Parted a b) : White a ∧ White b := by
  apply h.of_append
  rintro y q rfl
  rcases List.eq_nil_or_concat a with rfl | ⟨a, x, rfl⟩
  · exact h.fresh y q rfl
  · rw [List.concat_eq_append] at h hp
    rcases hp x (by simp) y rfl with hx | hy
    · exact h.whole a x (y :: q) (by simp) hx y q rfl
    · exact not_isContinuation_of_lt hy

/-- Well-formed text begins with a character, and so does what follows ASCII. -/
theorem whole_of_isUtf8 {s : Bytes} (h : isUtf8 s = true) : Fresh s ∧ Whole s := by
  induction hn : s.length using Nat.strongRecOn generalizing s with
  | ind n ih =>
    by_cases hs : s = []
    · subst hs
      refine ⟨fresh_nil, ?_⟩
      intro p a t heq
      simp at heq
    · rw [isUtf8, runes_eq hs, List.all_cons, Bool.and_eq_true] at h
      obtain ⟨a, w, htake, hw, hcases⟩ := take_firstRune_cases hs h.1
      have hcut : s = a :: w ++ s.drop (firstRune s).2 := by
        rw [← htake, List.take_append_drop]
      have hshorter : (s.drop (firstRune s).2).length < n := by
        have hpos := congrArg List.length hcut
        rw [List.length_append, List.length_cons] at hpos
        omega
      obtain ⟨hfresh, hwhole⟩ := ih _ hshorter h.2 rfl
      generalize s.drop (firstRune s).2 = rest at hcut hfresh hwhole
      subst hcut
      refine ⟨fresh_cons ?_ _, ?_⟩
      · rcases hcases with ⟨-, ha⟩ | ⟨-, ha⟩ | ⟨-, ha⟩ | ⟨-, ha⟩
        · exact not_isContinuation_of_lt ha
        all_goals exact not_isContinuation_of_le (UInt8.le_trans (by decide) ha)
      · intro p b t heq hb
        rcases List.append_eq_append_iff.1 heq with ⟨u, rfl, hu⟩ | ⟨u, hu, ht⟩
        · exact hwhole u b t hu hb
        · -- A byte of ASCII in the first character is all of it.
          rcases u with - | ⟨x, u⟩
          · exact hwhole [] b t ht.symm hb
          · obtain ⟨rfl, rfl⟩ := List.cons.inj ht
            rcases p with - | ⟨y, p⟩
            · obtain ⟨rfl, rfl⟩ := List.cons.inj hu
              have hnil : w = [] := by
                rcases hcases with ⟨hw, -⟩ | ⟨-, ha⟩ | ⟨-, ha⟩ | ⟨-, ha⟩
                · exact hw
                all_goals exact absurd hb (UInt8.not_lt.2 (UInt8.le_trans (by decide) ha))
              rwa [hnil]
            · obtain ⟨rfl, rfl⟩ := List.cons.inj hu
              have hcontinues := hw b (by simp)
              rw [not_isContinuation_of_lt hb] at hcontinues
              cases hcontinues

/-! ## Pieces in order -/

/-- Pieces that stand in a text one behind the other. -/
inductive InOrder : List Bytes → Bytes → Prop
  | nil (s : Bytes) : InOrder [] s
  | cons (gap piece : Bytes) {rest : Bytes} {pieces : List Bytes} (h : InOrder pieces rest) :
      InOrder (piece :: pieces) (gap ++ (piece ++ rest))

theorem InOrder.append_left {pieces : List Bytes} {s : Bytes} (h : InOrder pieces s) (front : Bytes) :
    InOrder pieces (front ++ s) := by
  cases h with
  | nil => exact .nil _
  | cons gap piece h =>
    rw [← List.append_assoc]
    exact .cons _ piece h

end Bindery.Text
