import Mathlib.Data.Nat.Digits.Defs
import Bindery.Proofs.Text.Space
import Bindery.Text.Number

/-!
# Trimmed texts and the numbers in them

White space around a text makes no difference to what is left of it (`trim_between`), and nothing is
dropped from a text that begins and ends with a visible byte of ASCII (`trim_of_visible`). So a number can
be described by how it is written: a `Numeral` is an optional plus sign and decimal digits, for a number
from 1 to the largest there is.
-/

namespace Bindery.Text

/-! ## White space around a text -/

theorem IsSpace.led {c : Bytes} (h : IsSpace c) : Led c := by
  rcases h with ⟨a, rfl, -⟩ | hwide
  · intro r y u heq hne
    obtain ⟨x, r, rfl⟩ := List.exists_cons_of_ne_nil hne
    simp at heq
  · exact hwide.led

/-- A character that begins a text does not reach over a place where another begins. -/
theorem Led.prefix_of_fresh {c s t : Bytes} (hc : Led c) (h : c <+: s ++ t) (ht : Fresh t) (hs : s ≠ []) :
    c <+: s := by
  rcases List.prefix_or_prefix_of_prefix h (List.prefix_append s t) with h' | ⟨r, rfl⟩
  · exact h'
  · cases r with
    | nil => simp
    | cons y u =>
      obtain ⟨q, hq⟩ := (List.prefix_append_right_inj s).1 h
      have hy := hc s y u rfl hs
      rw [ht y (u ++ q) hq.symm] at hy
      cases hy

theorem trimStart_append {s w : Bytes} (hw : Fresh w) (hs : trimStart s ≠ []) :
    trimStart (s ++ w) = trimStart s ++ w := by
  obtain ⟨v, hv, hwhite⟩ := exists_white_trimStart s
  have hskip : trimStart (s ++ w) = trimStart (trimStart s ++ w) := by
    conv_lhs => rw [hv, List.append_assoc, trimStart_white_append hwhite]
  obtain ⟨u, hu, huwhite⟩ := exists_white_trimStart (trimStart s ++ w)
  by_cases hnil : u = []
  · rw [hskip]
    simpa [hnil] using hu.symm
  · obtain ⟨c, hspace, hc⟩ := huwhite.exists_prefix hnil
    have hfront : c <+: trimStart s ++ w := hc.trans ⟨_, hu.symm⟩
    obtain ⟨more, hmore⟩ := hspace.led.prefix_of_fresh hfront hw hs
    exact absurd hmore.symm (trimStart_ne_append hspace s more)

theorem isSpace1_of_isContinuation {c : UInt8} (h : isContinuation c = true) : isSpace1 c = false := by
  by_contra hspace
  rw [Bool.not_eq_false] at hspace
  rw [not_isContinuation_of_lt (lt_of_isSpace1 hspace)] at h
  cases h

theorem isSpace2_of_isContinuation {a b : UInt8} (h : isContinuation a = true) : isSpace2 a b = false := by
  rw [isSpace2, Bool.and_eq_false_iff]
  left
  rw [beq_eq_false_iff_ne]
  rintro rfl
  exact absurd h (by decide)

/-- White space at the end is dropped, whatever stands in front of it. -/
theorem trimStartReversed_white_append {w : Bytes} (h : White w) (s : Bytes) :
    trimStartReversed (w.reverse ++ s) = trimStartReversed s := by
  induction h generalizing s with
  | nil => rfl
  | @cons c w hc _ ih =>
    rw [List.reverse_append, List.append_assoc, ih]
    rcases hc with ⟨a, rfl, ha⟩ | ⟨a, b, rfl, hab⟩ | ⟨a, b, c, rfl, habc⟩
    · rw [trimStartReversed.eq_def]
      simp [ha]
    · rw [trimStartReversed.eq_def]
      simp [isSpace1_of_isContinuation (isContinuation_of_isSpace2 hab), hab]
    · obtain ⟨hb, hc⟩ := isContinuation_of_isSpace3 habc
      rw [trimStartReversed.eq_def]
      simp [isSpace1_of_isContinuation hc, isSpace2_of_isContinuation hb, habc]

theorem trim_white_append {v : Bytes} (hv : White v) (s : Bytes) : trim (v ++ s) = trim s := by
  rw [trim, trimStart_white_append hv, ← trim]

theorem trim_append_white (s : Bytes) {w : Bytes} (hw : White w) : trim (s ++ w) = trim s := by
  by_cases hs : trimStart s = []
  · have hwhite : White s := white_of_isWhite (List.isEmpty_iff.2 hs)
    have hnil : trimStart (s ++ w) = [] := List.isEmpty_iff.1 (isWhite_iff.2 (hwhite.append hw))
    rw [trim, trim, hs, hnil]
  · rw [trim, trimStart_append hw.fresh hs, List.reverse_append, trimStartReversed_white_append hw, ← trim]

theorem trim_between {v w : Bytes} (hv : White v) (s : Bytes) (hw : White w) :
    trim (v ++ s ++ w) = trim s := by
  rw [trim_append_white _ hw, trim_white_append hv]

theorem trim_trim (s : Bytes) : trim (trim s) = trim s := by
  obtain ⟨v, w, hs, hv, hw⟩ := exists_white_trim s
  conv_rhs => rw [hs, trim_between hv _ hw]

theorem trim_eq_nil_iff {s : Bytes} : trim s = [] ↔ White s := by
  constructor
  · intro h
    by_contra hwhite
    rw [← isWhite_iff, Bool.not_eq_true] at hwhite
    exact trim_ne_nil hwhite h
  · intro h
    have hnil := trim_white_append h []
    rw [List.append_nil] at hnil
    rw [hnil]
    rfl

/-- A byte of ASCII that is not white space. -/
def Visible (c : UInt8) : Prop := c < 0x80 ∧ isSpace1 c = false

theorem White.not_visible {w : Bytes} (h : White w) {c : UInt8} (hc : c ∈ w) : ¬ Visible c :=
  fun hvisible => h.notMem hvisible.1 hvisible.2 hc

theorem trim_of_visible {s : Bytes} (hfront : ∀ c ∈ s.head?, Visible c)
    (hback : ∀ c ∈ s.getLast?, Visible c) : trim s = s := by
  obtain ⟨v, w, hs, hv, hw⟩ := exists_white_trim s
  have hvnil : v = [] := by
    cases v with
    | nil => rfl
    | cons c v =>
      rw [hs] at hfront
      exact absurd (hfront c rfl) (hv.not_visible List.mem_cons_self)
  have hwnil : w = [] := by
    rcases List.eq_nil_or_concat w with rfl | ⟨w, c, rfl⟩
    · rfl
    · rw [hs] at hback
      exact absurd (hback c (by simp)) (hw.not_visible (by simp))
  rw [hvnil, hwnil, List.nil_append, List.append_nil] at hs
  exact hs.symm

/-! ## Numbers -/

/-- The number that decimal digits stand for, by the place of each. -/
def positional (digits : Bytes) : Nat := Nat.ofDigits 10 (digits.reverse.map fun c => c.toNat - 48)

theorem digitsValue_eq_positional (s : Bytes) : Double.digitsValue s = positional s := by
  rw [positional, Nat.ofDigits_eq_foldr, List.foldr_map, List.foldr_reverse, Double.digitsValue]
  congr 1
  funext n c
  simp only [Nat.cast_id]
  omega

/-- Decimal digits for a number from 1 to the largest there is. -/
structure Decimal (s : Bytes) (n : Nat) : Prop where
  ne_nil : s ≠ []
  digits : ∀ c ∈ s, isDigit c = true
  value : positional s = n
  one_le : 1 ≤ n
  le_max : n ≤ maxInt

/-- A number in decimal digits, with or without a plus sign. -/
inductive Numeral : Bytes → Nat → Prop
  | unsigned {s : Bytes} {n : Nat} (h : Decimal s n) : Numeral s n
  | signed {s : Bytes} {n : Nat} (h : Decimal s n) : Numeral (43 :: s) n

theorem visible_of_isDigit {c : UInt8} (h : isDigit c = true) : Visible c := by
  refine ⟨lt_of_isDigit h, ?_⟩
  by_contra hspace
  rw [Bool.not_eq_false] at hspace
  simp only [isDigit, isSpace1, Bool.and_eq_true, Bool.or_eq_true, beq_iff_eq, decide_eq_true_eq] at h hspace
  rcases hspace with rfl | ⟨-, hspace⟩
  · exact absurd h.1 (by decide)
  · exact absurd (UInt8.le_trans h.1 hspace) (by decide)

namespace Numeral

variable {s : Bytes} {n : Nat}

theorem ne_nil (h : Numeral s n) : s ≠ [] := by
  cases h with
  | unsigned h => exact h.ne_nil
  | signed h => exact List.cons_ne_nil _ _

theorem bounds (h : Numeral s n) : 1 ≤ n ∧ n ≤ maxInt := by
  cases h with
  | unsigned h => exact ⟨h.one_le, h.le_max⟩
  | signed h => exact ⟨h.one_le, h.le_max⟩

theorem sign_or_digit (h : Numeral s n) : ∀ c ∈ s, c = 43 ∨ isDigit c = true := by
  cases h with
  | unsigned h => exact fun c hc => .inr (h.digits c hc)
  | signed h => exact List.forall_mem_cons.2 ⟨.inl rfl, fun c hc => .inr (h.digits c hc)⟩

theorem visible (h : Numeral s n) : ∀ c ∈ s, Visible c := by
  intro c hc
  rcases h.sign_or_digit c hc with rfl | hc
  · exact ⟨by decide, by decide⟩
  · exact visible_of_isDigit hc

theorem trim_eq (h : Numeral s n) : trim s = s :=
  trim_of_visible (fun c hc => h.visible c (List.mem_of_head? hc))
    fun c hc => h.visible c (List.mem_of_getLast? hc)

theorem notMem (h : Numeral s n) {c : UInt8} (hsign : c ≠ 43) (hdigit : isDigit c = false) : c ∉ s := by
  intro hc
  rcases h.sign_or_digit c hc with hc | hc
  · exact hsign hc
  · rw [hdigit] at hc
    cases hc

end Numeral

theorem readInt_of_takeSign {s digits : Bytes} {n : Nat} (hsign : Double.takeSign s = (false, digits))
    (h : Decimal digits n) : readInt s = .ok n := by
  have hnum : (digits.isEmpty || !digits.all isDigit) = false := by
    simpa [h.ne_nil] using h.digits
  simp only [readInt, hsign, hnum, digitsValue_eq_positional, h.value, h.le_max]
  rfl

theorem takeSign_cases (s : Bytes) : (∃ rest, s = 43 :: rest ∧ Double.takeSign s = (false, rest)) ∨
    (∃ rest, s = 45 :: rest ∧ Double.takeSign s = (true, rest)) ∨ Double.takeSign s = (false, s) := by
  fun_cases Double.takeSign s with
  | case1 rest => exact .inl ⟨rest, rfl, rfl⟩
  | case2 rest => exact .inr (.inl ⟨rest, rfl, rfl⟩)
  | case3 => exact .inr (.inr rfl)

/-- The numbers from 1 on that are read are those that are written as such. -/
theorem readInt_eq_ok_iff {s : Bytes} {n : Nat} (hpos : 1 ≤ n) : readInt s = .ok n ↔ Numeral s n := by
  constructor
  · intro h
    have hdecimal : ∀ digits, Double.takeSign s = (false, digits) → Decimal digits n := by
      intro digits hsign
      simp only [readInt, hsign, digitsValue_eq_positional, Bool.false_eq_true, if_false] at h
      split at h
      · cases h
      · next hnum =>
        split at h
        · next hle =>
          obtain rfl : positional digits = n := by simpa using h
          simp only [Bool.or_eq_true, Bool.not_eq_true', not_or, Bool.not_eq_false] at hnum
          exact ⟨by simpa using hnum.1, List.all_eq_true.1 hnum.2, rfl, hpos, hle⟩
        · cases h
    rcases takeSign_cases s with ⟨rest, rfl, hsign⟩ | ⟨rest, rfl, hsign⟩ | hsign
    · exact .signed (hdecimal rest hsign)
    · -- Behind a minus sign there is no number from 1 on.
      simp only [readInt, hsign, if_true] at h
      split at h
      · cases h
      · split at h
        · have heq := Except.ok.inj h
          omega
        · cases h
    · exact .unsigned (hdecimal s hsign)
  · intro h
    cases h with
    | signed h => exact readInt_of_takeSign rfl h
    | unsigned h =>
      refine readInt_of_takeSign ?_ h
      rcases takeSign_cases s with ⟨rest, rfl, -⟩ | ⟨rest, rfl, -⟩ | hsign
      · exact absurd (h.digits 43 List.mem_cons_self) (by decide)
      · exact absurd (h.digits 45 List.mem_cons_self) (by decide)
      · exact hsign

end Bindery.Text
