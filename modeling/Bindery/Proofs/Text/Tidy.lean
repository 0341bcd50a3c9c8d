import Mathlib.Data.List.Basic
import Mathlib.Data.List.TakeWhile
import Bindery.Text.Utf8

/-!
# Texts that can be joined

U+E000 begins the marks of pending references, so it must not occur in a text by chance. It can arise
where two texts are joined, if one ends inside a character and the other goes on there. `Tidy` excludes
this as far as cutting and joining need it: no byte that goes on with a character stands at the start, or
behind ASCII or white space. Tidy texts are kept by joining, by cutting off ends, and by cutting behind
ASCII and white space. Well-formed text without U+E000 is tidy (`Plain.tidy`).
-/

namespace Bindery.Text

/-- Whether a byte goes on with a character. -/
def isContinuation (c : UInt8) : Bool := 0x80 ≤ c && c < 0xC0

/-- The encoding of U+E000. -/
def firstPrivate : Bytes := [0xEE, 0x80, 0x80]

/-- A white-space character beyond ASCII. -/
def IsWideSpace (w : Bytes) : Prop :=
  (∃ a b, w = [a, b] ∧ isSpace2 a b) ∨ ∃ a b c, w = [a, b, c] ∧ isSpace3 a b c

/-- A text that is empty, or ends in ASCII or in white space. -/
def Ended (p : Bytes) : Prop :=
  p = [] ∨ (∃ q a, p = q ++ [a] ∧ a < 0x80) ∨ ∃ w, IsWideSpace w ∧ w <:+ p

/-- A text without U+E000 in which no byte goes on with a character that has ended. -/
def Tidy (s : Bytes) : Prop :=
  ∀ p c q, s = p ++ c :: q → isContinuation c → ¬ Ended p ∧ ¬ firstPrivate <:+ p ++ [c]

def isAscii (s : Bytes) : Bool := s.all fun c => decide (c < 0x80)

theorem lt_of_isAscii {s : Bytes} (h : isAscii s = true) : ∀ c ∈ s, c < 0x80 := fun c hc =>
  of_decide_eq_true (List.all_eq_true.1 h c hc)

/-- A text that does not begin inside a character. -/
def Fresh (s : Bytes) : Prop := ∀ c q, s = c :: q → isContinuation c = false

theorem not_isContinuation_of_lt {c : UInt8} (h : c < 0x80) : isContinuation c = false := by
  rw [isContinuation, Bool.and_eq_false_iff]
  exact .inl (decide_eq_false (UInt8.not_le.2 h))

theorem fresh_nil : Fresh [] := nofun

theorem fresh_cons {c : UInt8} (h : isContinuation c = false) (s : Bytes) : Fresh (c :: s) := by
  rintro c' q heq
  cases heq
  exact h

/-! ## Ends of characters -/

theorem ended_concat {a : UInt8} (h : a < 0x80) (p : Bytes) : Ended (p ++ [a]) :=
  .inr (.inl ⟨p, a, rfl, h⟩)

theorem ended_singleton {a : UInt8} (h : a < 0x80) : Ended [a] := ended_concat h []

theorem ended_append {r : Bytes} (h : Ended r) (hne : r ≠ []) (p : Bytes) : Ended (p ++ r) := by
  rcases h with rfl | ⟨q, a, rfl, ha⟩ | ⟨w, hw, hsuffix⟩
  · exact absurd rfl hne
  · exact .inr (.inl ⟨p ++ q, a, (List.append_assoc _ _ _).symm, ha⟩)
  · exact .inr (.inr ⟨w, hw, hsuffix.trans (List.suffix_append p r)⟩)

theorem ended_of_ascii {p : Bytes} (h : ∀ c ∈ p, c < 0x80) : Ended p := by
  rcases List.eq_nil_or_concat p with rfl | ⟨q, a, rfl⟩
  · exact .inl rfl
  · rw [List.concat_eq_append] at h ⊢
    exact ended_concat (h a (by simp)) q

theorem isContinuation_of_isSpace2 {a b : UInt8} (h : isSpace2 a b) : isContinuation b = true := by
  simp only [isSpace2, Bool.and_eq_true, Bool.or_eq_true, beq_iff_eq] at h
  rcases h.2 with rfl | rfl <;> decide

theorem isContinuation_of_isSpace3 {a b c : UInt8} (h : isSpace3 a b c) :
    isContinuation b = true ∧ isContinuation c = true := by
  simp only [isSpace3, Bool.and_eq_true, Bool.or_eq_true, beq_iff_eq, decide_eq_true_eq] at h
  rcases h with ((⟨⟨-, rfl⟩, rfl⟩ | ⟨⟨-, rfl⟩, hc⟩) | ⟨⟨-, rfl⟩, rfl⟩) | ⟨⟨-, rfl⟩, rfl⟩
  · decide
  · refine ⟨by decide, ?_⟩
    rcases hc with ((⟨hlo, hhi⟩ | rfl) | rfl) | rfl
    · rw [isContinuation, Bool.and_eq_true, decide_eq_true_eq, decide_eq_true_eq]
      exact ⟨hlo, UInt8.lt_of_le_of_lt hhi (by decide)⟩
    all_goals decide
  · decide
  · decide

/-- A text whose bytes go on with one character, the first apart. -/
def Led (w : Bytes) : Prop := ∀ r y u, w = r ++ y :: u → r ≠ [] → isContinuation y

theorem IsWideSpace.led {w : Bytes} (h : IsWideSpace w) : Led w := by
  intro r y u heq hne
  obtain ⟨x, r, rfl⟩ := List.exists_cons_of_ne_nil hne
  rcases h with ⟨a, b, rfl, hspace⟩ | ⟨a, b, c, rfl, hspace⟩
  · have hb := isContinuation_of_isSpace2 hspace
    rcases r with - | ⟨z, r⟩ <;> simp_all
  · obtain ⟨hb, hc⟩ := isContinuation_of_isSpace3 hspace
    rcases r with - | ⟨z, - | ⟨z', r⟩⟩ <;> simp_all

theorem led_firstPrivate : Led firstPrivate := by
  intro r y u heq hne
  obtain ⟨x, r, rfl⟩ := List.exists_cons_of_ne_nil hne
  rcases r with - | ⟨z, - | ⟨z', r⟩⟩
  · have hy : y = 0x80 := by simp_all [firstPrivate]
    rw [hy]
    rfl
  · obtain ⟨-, -, hy, -⟩ : 0xEE = x ∧ 0x80 = z ∧ 0x80 = y ∧ u = [] := by
      simpa [firstPrivate] using heq
    rw [← hy]
    rfl
  · simp [firstPrivate] at heq

/-- A character that ends a text does not reach over a place where another begins. -/
theorem Led.suffix_of_fresh {w a t : Bytes} (hw : Led w) (h : w <:+ a ++ t) (ht : Fresh t)
    (hne : t ≠ []) : w <:+ t := by
  rcases List.suffix_or_suffix_of_suffix h (List.suffix_append a t) with h | ⟨r, hr⟩
  · exact h
  · obtain ⟨y, u, rfl⟩ := List.exists_cons_of_ne_nil hne
    by_cases hr' : r = []
    · subst hr'
      exact hr ▸ List.suffix_rfl
    · exact absurd (hw r y u hr.symm hr') (by simp [ht y u rfl])

/-! ## Cutting and joining -/

theorem tidy_nil : Tidy [] := by
  intro p c q h
  simp at h

theorem tidy_of_ascii {s : Bytes} (h : ∀ c ∈ s, c < 0x80) : Tidy s := by
  rintro p c q rfl hc
  rw [not_isContinuation_of_lt (h c (by simp))] at hc
  cases hc

theorem tidy_of_isAscii {s : Bytes} (h : isAscii s = true) : Tidy s := tidy_of_ascii (lt_of_isAscii h)

theorem tidy_bytes {s : String} (h : isAscii (bytes s) = true) : Tidy (bytes s) :=
  tidy_of_isAscii h

theorem lt_of_isLetter {c : UInt8} (h : isLetter c) : c < 0x80 := by
  simp only [isLetter, Bool.or_eq_true, Bool.and_eq_true, decide_eq_true_eq] at h
  rcases h with ⟨-, h⟩ | ⟨-, h⟩
  · exact UInt8.lt_of_le_of_lt h (by decide)
  · exact UInt8.lt_of_le_of_lt h (by decide)

theorem lt_of_isDigit {c : UInt8} (h : isDigit c) : c < 0x80 := by
  simp only [isDigit, Bool.and_eq_true, decide_eq_true_eq] at h
  exact UInt8.lt_of_le_of_lt h.2 (by decide)

namespace Tidy

variable {s t a b : Bytes}

theorem fresh (h : Tidy s) : Fresh s := by
  rintro c q rfl
  by_contra hc
  exact (h [] c q rfl (by simpa using hc)).1 (.inl rfl)

theorem start (h : Tidy s) (ht : t <+: s) : Tidy t := by
  obtain ⟨r, rfl⟩ := ht
  rintro p c q rfl hc
  exact h p c (q ++ r) (by simp) hc

theorem of_append (h : Tidy (a ++ b)) (hb : Fresh b) : Tidy b := by
  rintro p c q rfl hc
  have hne : p ≠ [] := by
    rintro rfl
    rw [hb c q rfl] at hc
    cases hc
  obtain ⟨hended, hprivate⟩ := h (a ++ p) c q (by simp) hc
  refine ⟨fun hp => hended (ended_append hp hne a), fun hp => hprivate ?_⟩
  rw [List.append_assoc]
  exact hp.trans (List.suffix_append a _)

/-- What follows the end of a character in a tidy text is tidy. -/
theorem of_ended_append (h : Tidy (a ++ b)) (ha : Ended a) : Tidy b := by
  refine h.of_append ?_
  rintro c q rfl
  by_contra hc
  exact (h a c q rfl (by simpa using hc)).1 ha

theorem of_cons (h : Tidy (c :: s)) (hc : c < 0x80) : Tidy s :=
  of_ended_append (a := [c]) h (ended_singleton hc)

theorem piece (h : Tidy s) (ht : t <:+: s) (hfresh : Fresh t) : Tidy t := by
  obtain ⟨p, q, rfl⟩ := ht
  exact (h.start (List.prefix_append _ _)).of_append hfresh

theorem drop (h : Tidy s) (n : Nat) (hfresh : Fresh (s.drop n)) : Tidy (s.drop n) :=
  h.piece (List.drop_suffix n s).isInfix hfresh

theorem append (ha : Tidy a) (hb : Tidy b) : Tidy (a ++ b) := by
  intro p c q h hc
  have hfresh : ∀ q, b ≠ c :: q := by
    rintro q rfl
    rw [hb.fresh c q rfl] at hc
    cases hc
  rcases List.append_eq_append_iff.1 h with ⟨t, rfl, hb'⟩ | ⟨t, rfl, ht⟩
  · -- The byte stands in the second text, behind `t`.
    have hne : t ≠ [] := by
      rintro rfl
      exact hfresh q hb'
    obtain ⟨x, u, rfl⟩ := List.exists_cons_of_ne_nil hne
    have ht : Fresh (x :: u) := fresh_cons (hb.fresh x (u ++ c :: q) hb') u
    obtain ⟨hended, hprivate⟩ := hb (x :: u) c q hb' hc
    refine ⟨?_, ?_⟩
    · rintro (hnil | ⟨r, y, hr, hy⟩ | ⟨w, hw, hsuffix⟩)
      · simp at hnil
      · have hlast : [y] <:+ a ++ x :: u := hr ▸ List.suffix_append r [y]
        have hsuffix : [y] <:+ x :: u :=
          List.suffix_of_suffix_length_le hlast (List.suffix_append a _) (by simp)
        obtain ⟨r', hr'⟩ := hsuffix
        exact hended (hr' ▸ ended_concat hy r')
      · exact hended (.inr (.inr ⟨w, hw, hw.led.suffix_of_fresh hsuffix ht hne⟩))
    · intro hsuffix
      rw [List.append_assoc] at hsuffix
      refine hprivate (led_firstPrivate.suffix_of_fresh hsuffix ?_ (by simp))
      exact fresh_cons (ht x u rfl) _
  · rcases t with - | ⟨x, t⟩
    · exact absurd ht.symm (hfresh q)
    · obtain ⟨rfl, rfl⟩ := List.cons.inj ht
      exact ha p c t rfl hc

theorem not_isInfix (h : Tidy s) : ¬ firstPrivate <:+: s := by
  rintro ⟨p, q, rfl⟩
  exact (h (p ++ [0xEE, 0x80]) 0x80 q (by simp [firstPrivate]) (by decide)).2
    ⟨p, by simp [firstPrivate]⟩

theorem dropWhile (h : Tidy s) {p : UInt8 → Bool} (hp : ∀ c, p c → c < 0x80) :
    Tidy (s.dropWhile p) := by
  have hcut := List.takeWhile_append_dropWhile (p := p) (l := s)
  refine of_ended_append (hcut.symm ▸ h) (ended_of_ascii fun c hc => hp c ?_)
  exact List.mem_takeWhile_imp hc

theorem joinWith {sep : Bytes} (hsep : Tidy sep) {parts : List Bytes} (h : ∀ p ∈ parts, Tidy p) :
    Tidy (joinWith sep parts) := by
  fun_induction Text.joinWith sep parts with
  | case1 => exact tidy_nil
  | case2 piece => exact h piece (by simp)
  | case3 piece more _ ih =>
    refine ((h piece (by simp)).append hsep).append (ih fun p hp => h p ?_)
    exact List.mem_cons_of_mem _ hp

end Tidy

/-- A text that stands in another right behind a byte of ASCII. -/
def Behind (t s : Bytes) : Prop := ∃ p a, a < 0x80 ∧ p ++ a :: t <+: s

namespace Behind

variable {s t u : Bytes}

theorem within (h : Behind t u) (hu : u <:+: s) : Behind t s := by
  obtain ⟨p, a, ha, v, rfl⟩ := h
  obtain ⟨x, y, rfl⟩ := hu
  exact ⟨x ++ p, a, ha, v ++ y, by simp⟩

theorem isInfix (h : Behind t s) : t <:+: s := by
  obtain ⟨p, a, -, v, rfl⟩ := h
  exact ⟨p ++ [a], v, by simp⟩

theorem tidy (h : Behind t s) (hs : Tidy s) : Tidy t := by
  obtain ⟨p, a, ha, v, rfl⟩ := h
  have hs' : Tidy ((p ++ [a]) ++ (t ++ v)) := by simpa using hs
  exact (hs'.of_ended_append (ended_concat ha p)).start (List.prefix_append _ _)

end Behind

theorem isPrefix_trimEnd (p : UInt8 → Bool) (s : Bytes) : trimEnd p s <+: s := by
  rw [trimEnd, ← List.reverse_suffix, List.reverse_reverse]
  exact List.dropWhile_suffix p

theorem isPrefix_withoutEnd (ending s : Bytes) : withoutEnd ending s <+: s := by
  rw [withoutEnd, beforeEnd?]
  cases h : ending.reverse.isPrefixOf? s.reverse with
  | none => simp
  | some rest =>
    have hsplit := List.isPrefixOf?_eq_some_iff_append_eq.1 h
    rw [Option.map_some, Option.getD_some, ← List.reverse_suffix, List.reverse_reverse, ← hsplit]
    exact List.suffix_append _ _

theorem withoutStart_cases (start s : Bytes) :
    s = start ++ withoutStart start s ∨ ¬ start <+: s ∧ withoutStart start s = s := by
  rw [withoutStart, afterStart?]
  cases hcut : start.isPrefixOf? s with
  | none =>
    right
    refine ⟨?_, rfl⟩
    rintro ⟨rest, hrest⟩
    rw [List.isPrefixOf?_eq_some_iff_append_eq.2 hrest] at hcut
    cases hcut
  | some rest => exact .inl (List.isPrefixOf?_eq_some_iff_append_eq.1 hcut).symm

/-- Of the pieces of a text, the first begins it, and each other follows a separator. -/
theorem splitOn_pieces {sep : UInt8} {s first : Bytes} {more : List Bytes}
    (h : splitOn sep s = first :: more) :
    first <+: s ∧ ∀ piece ∈ more, ∃ p, p ++ sep :: piece <+: s := by
  induction s generalizing first more with
  | nil =>
    simp only [splitOn, List.cons.injEq] at h
    obtain ⟨rfl, rfl⟩ := h
    simp
  | cons c rest ih =>
    rw [splitOn] at h
    split at h
    · simp only [List.cons.injEq] at h
      obtain ⟨rfl, rfl⟩ := h
      simp
    · next first' more' hrest =>
      obtain ⟨hfirst, hmore⟩ := ih hrest
      have hmore' : ∀ piece ∈ more', ∃ p, p ++ sep :: piece <+: c :: rest := by
        intro piece hpiece
        obtain ⟨p, hp⟩ := hmore piece hpiece
        exact ⟨c :: p, List.cons_prefix_cons.2 ⟨rfl, hp⟩⟩
      split at h
      · next hc =>
        obtain ⟨rfl, rfl⟩ := List.cons.inj h
        refine ⟨List.nil_prefix, fun piece hpiece => ?_⟩
        rcases List.mem_cons.1 hpiece with rfl | hpiece
        · exact ⟨[], List.cons_prefix_cons.2 ⟨hc.symm, hfirst⟩⟩
        · exact hmore' piece hpiece
      · obtain ⟨rfl, rfl⟩ := List.cons.inj h
        exact ⟨List.cons_prefix_cons.2 ⟨rfl, hfirst⟩, hmore'⟩

theorem Tidy.splitOn {sep : UInt8} (hsep : sep < 0x80) {s : Bytes} (h : Tidy s) :
    ∀ piece ∈ splitOn sep s, Tidy piece := by
  intro piece hpiece
  cases hsplit : Text.splitOn sep s with
  | nil => simp [hsplit] at hpiece
  | cons first more =>
    rw [hsplit] at hpiece
    obtain ⟨hfirst, hmore⟩ := splitOn_pieces hsplit
    rcases List.mem_cons.1 hpiece with rfl | hpiece
    · exact h.start hfirst
    · obtain ⟨p, hp⟩ := hmore piece hpiece
      exact Behind.tidy ⟨p, sep, hsep, hp⟩ h

/-! ## White space -/

/-- White space, or nothing. -/
structure Space (w : Bytes) : Prop where
  ended : Ended w
  fresh : Fresh w
  notMem : 0xEE ∉ w

theorem space_nil : Space [] := ⟨.inl rfl, fresh_nil, List.not_mem_nil⟩

theorem Space.append {v w : Bytes} (hv : Space v) (hw : Space w) : Space (v ++ w) := by
  by_cases hvnil : v = []
  · simpa [hvnil] using hw
  by_cases hwnil : w = []
  · simpa [hwnil] using hv
  obtain ⟨c, v, rfl⟩ := List.exists_cons_of_ne_nil hvnil
  refine ⟨ended_append hw.ended hwnil _, fresh_cons (hv.fresh c v rfl) _, ?_⟩
  exact fun hmem => (List.mem_append.1 hmem).elim hv.notMem hw.notMem

theorem space_of_ascii {w : Bytes} (h : ∀ c ∈ w, c < 0x80) : Space w := by
  refine ⟨ended_of_ascii h, ?_, fun hmem => absurd (h _ hmem) (by decide)⟩
  rintro c q rfl
  exact not_isContinuation_of_lt (h c List.mem_cons_self)

theorem lt_of_isSpace1 {a : UInt8} (h : isSpace1 a) : a < 0x80 := by
  simp only [isSpace1, Bool.or_eq_true, beq_iff_eq, Bool.and_eq_true, decide_eq_true_eq] at h
  rcases h with rfl | ⟨-, h⟩
  · decide
  · exact UInt8.lt_of_le_of_lt h (by decide)

theorem space_singleton {a : UInt8} (h : isSpace1 a) : Space [a] :=
  space_of_ascii fun c hc => by
    rw [List.mem_singleton.1 hc]
    exact lt_of_isSpace1 h

theorem IsWideSpace.space {w : Bytes} (h : IsWideSpace w) : Space w := by
  refine ⟨.inr (.inr ⟨w, h, List.suffix_rfl⟩), ?_, ?_⟩
  · rintro c q rfl
    rcases h with ⟨a, b, heq, hspace⟩ | ⟨a, b, c', heq, hspace⟩
    · obtain ⟨rfl, -⟩ := List.cons.inj heq
      simp only [isSpace2, Bool.and_eq_true, beq_iff_eq] at hspace
      rw [hspace.1]
      decide
    · obtain ⟨rfl, -⟩ := List.cons.inj heq
      simp only [isSpace3, Bool.and_eq_true, Bool.or_eq_true, beq_iff_eq] at hspace
      rcases hspace with ((⟨⟨rfl, -⟩, -⟩ | ⟨⟨rfl, -⟩, -⟩) | ⟨⟨rfl, -⟩, -⟩) | ⟨⟨rfl, -⟩, -⟩ <;> decide
  · intro hmem
    rcases h with ⟨a, b, rfl, hspace⟩ | ⟨a, b, c, rfl, hspace⟩
    · simp only [isSpace2, Bool.and_eq_true, Bool.or_eq_true, beq_iff_eq] at hspace
      obtain ⟨rfl, rfl | rfl⟩ := hspace <;> exact absurd hmem (by decide)
    · obtain ⟨hb, hc⟩ := isContinuation_of_isSpace3 hspace
      have ha : a ≠ 0xEE := by
        rintro rfl
        simp [isSpace3] at hspace
      simp only [List.mem_cons, List.not_mem_nil, or_false] at hmem
      rcases hmem with h | h | h
      · exact ha h.symm
      · exact absurd hb (by rw [← h]; decide)
      · exact absurd hc (by rw [← h]; decide)

theorem isWideSpace_two {a b : UInt8} (h : isSpace2 a b) : IsWideSpace [a, b] := .inl ⟨a, b, rfl, h⟩

theorem isWideSpace_three {a b c : UInt8} (h : isSpace3 a b c) : IsWideSpace [a, b, c] :=
  .inr ⟨a, b, c, rfl, h⟩

def IsSpace (w : Bytes) : Prop := (∃ c, w = [c] ∧ isSpace1 c) ∨ IsWideSpace w

/-- White-space characters, one after the other. -/
inductive White : Bytes → Prop
  | nil : White []
  | cons {c w : Bytes} (hc : IsSpace c) (hw : White w) : White (c ++ w)

theorem White.append {v w : Bytes} (hv : White v) (hw : White w) : White (v ++ w) := by
  induction hv with
  | nil => exact hw
  | cons hc _ ih =>
    rw [List.append_assoc]
    exact .cons hc ih

theorem IsSpace.white {c : Bytes} (h : IsSpace c) : White c := by
  simpa using White.cons h .nil

theorem IsSpace.space {c : Bytes} (h : IsSpace c) : Space c := by
  rcases h with ⟨a, rfl, ha⟩ | hwide
  · exact space_singleton ha
  · exact hwide.space

theorem White.space {w : Bytes} (h : White w) : Space w := by
  induction h with
  | nil => exact space_nil
  | cons hc _ ih => exact hc.space.append ih

theorem exists_white_trimStart (s : Bytes) : ∃ w, s = w ++ trimStart s ∧ White w := by
  have extend : ∀ {a rest : Bytes}, IsSpace a → (∃ w, rest = w ++ trimStart rest ∧ White w) →
      ∃ w, a ++ rest = w ++ trimStart rest ∧ White w := by
    rintro a rest ha ⟨w, hrest, hw⟩
    exact ⟨a ++ w, by rw [List.append_assoc, ← hrest], .cons ha hw⟩
  have unchanged : ∀ s : Bytes, ∃ w, s = w ++ s ∧ White w := fun s => ⟨[], rfl, .nil⟩
  fun_induction trimStart s with
  | case1 => exact unchanged _
  | case2 a rest ha ih => exact extend (.inl ⟨a, rfl, ha⟩) ih
  | case3 => exact unchanged _
  | case4 a _ b rest hab ih => exact extend (.inr (isWideSpace_two hab)) ih
  | case5 => exact unchanged _
  | case6 a _ b _ c rest habc ih => exact extend (.inr (isWideSpace_three habc)) ih
  | case7 => exact unchanged _

theorem white_of_isWhite {s : Bytes} (h : isWhite s = true) : White s := by
  obtain ⟨w, hs, hw⟩ := exists_white_trimStart s
  rw [List.isEmpty_iff.1 h, List.append_nil] at hs
  rwa [hs]

theorem exists_white_trimStartReversed (s : Bytes) :
    ∃ w, s.reverse = (trimStartReversed s).reverse ++ w ∧ White w := by
  have extend : ∀ {a rest : Bytes}, IsSpace a →
      (∃ w, rest.reverse = (trimStartReversed rest).reverse ++ w ∧ White w) →
      ∃ w, rest.reverse ++ a = (trimStartReversed rest).reverse ++ w ∧ White w := by
    rintro a rest ha ⟨w, hrest, hw⟩
    exact ⟨w ++ a, by rw [← List.append_assoc, ← hrest], hw.append ha.white⟩
  have unchanged : ∀ s : Bytes, ∃ w, s.reverse = s.reverse ++ w ∧ White w :=
    fun s => ⟨[], by simp, .nil⟩
  fun_induction trimStartReversed s with
  | case1 => exact unchanged _
  | case2 c rest hc ih => simpa using extend (.inl ⟨c, rfl, hc⟩) ih
  | case3 => exact unchanged _
  | case4 c _ b rest hbc ih => simpa using extend (.inr (isWideSpace_two hbc)) ih
  | case5 => exact unchanged _
  | case6 c _ b _ a rest habc ih => simpa using extend (.inr (isWideSpace_three habc)) ih
  | case7 => exact unchanged _

theorem exists_white_trim (s : Bytes) : ∃ v w, s = v ++ trim s ++ w ∧ White v ∧ White w := by
  obtain ⟨v, hs, hv⟩ := exists_white_trimStart s
  obtain ⟨w, ht, hw⟩ := exists_white_trimStartReversed (Text.trimStart s).reverse
  rw [List.reverse_reverse] at ht
  refine ⟨v, w, ?_, hv, hw⟩
  rw [trim, List.append_assoc, ← ht, ← hs]

theorem white_of_newlines {w : Bytes} (h : ∀ c ∈ w, isNewline c = true) : White w := by
  induction w with
  | nil => exact .nil
  | cons c w ih =>
    obtain ⟨hc, hw⟩ := List.forall_mem_cons.1 h
    have hc : c = 10 := eq_of_beq hc
    exact White.cons (c := [c]) (.inl ⟨c, rfl, by rw [hc]; decide⟩) (ih hw)

theorem exists_white_trimNewlines (s : Bytes) :
    ∃ v w, s = v ++ trimBoth isNewline s ++ w ∧ White v ∧ White w := by
  have hcut : s.dropWhile isNewline = trimBoth isNewline s ++
      ((s.dropWhile isNewline).reverse.takeWhile isNewline).reverse := by
    rw [trimBoth, trimEnd, ← List.reverse_append, List.takeWhile_append_dropWhile,
      List.reverse_reverse]
  refine ⟨s.takeWhile isNewline, ((s.dropWhile isNewline).reverse.takeWhile isNewline).reverse,
    ?_, ?_, ?_⟩
  · rw [List.append_assoc, ← hcut, List.takeWhile_append_dropWhile]
  · exact white_of_newlines fun c hc => List.mem_takeWhile_imp hc
  · exact white_of_newlines fun c hc => List.mem_takeWhile_imp (List.mem_reverse.1 hc)

theorem trimStart_ne_append {w : Bytes} (h : IsSpace w) (s more : Bytes) :
    trimStart s ≠ w ++ more := by
  intro heq
  fun_induction trimStart s with
  | case1 => rcases h with ⟨_, rfl, -⟩ | ⟨_, _, rfl, -⟩ | ⟨_, _, _, rfl, -⟩ <;> cases heq
  | case2 _ _ _ ih => exact ih heq
  | case4 _ _ _ _ _ ih => exact ih heq
  | case6 _ _ _ _ _ _ _ ih => exact ih heq
  -- What is left is not white space of one byte, of two or of three.
  | case3 => rcases h with ⟨_, rfl, _⟩ | ⟨_, _, rfl, _⟩ | ⟨_, _, _, rfl, _⟩ <;> grind
  | case5 => rcases h with ⟨_, rfl, _⟩ | ⟨_, _, rfl, _⟩ | ⟨_, _, _, rfl, _⟩ <;> grind
  | case7 => rcases h with ⟨_, rfl, _⟩ | ⟨_, _, rfl, _⟩ | ⟨_, _, _, rfl, _⟩ <;> grind

/-- A text that is empty without the white space at its end is empty or begins with white space. -/
theorem isSpace_of_trimStartReversed {s : Bytes} (h : trimStartReversed s = []) :
    s = [] ∨ ∃ w more, s.reverse = w ++ more ∧ IsSpace w := by
  have extend : ∀ {last rest : Bytes}, IsSpace last →
      (rest = [] ∨ ∃ w more, rest.reverse = w ++ more ∧ IsSpace w) →
      ∃ w more, rest.reverse ++ last = w ++ more ∧ IsSpace w := by
    rintro last rest hlast (rfl | ⟨w, more, hrest, hw⟩)
    · exact ⟨last, [], by simp, hlast⟩
    · exact ⟨w, more ++ last, by rw [hrest, List.append_assoc], hw⟩
  fun_induction trimStartReversed s with
  | case1 => exact .inl rfl
  | case2 c rest hc ih => simpa using extend (.inl ⟨c, rfl, hc⟩) (ih h)
  | case3 => cases h
  | case4 c _ b rest hbc ih => simpa using extend (.inr (isWideSpace_two hbc)) (ih h)
  | case5 => cases h
  | case6 c _ b _ a rest habc ih => simpa using extend (.inr (isWideSpace_three habc)) (ih h)
  | case7 => cases h

theorem trim_ne_nil {s : Bytes} (h : isWhite s = false) : trim s ≠ [] := by
  intro hnil
  rw [trim, List.reverse_eq_nil_iff] at hnil
  rcases isSpace_of_trimStartReversed hnil with hs | ⟨w, more, hs, hw⟩
  · rw [List.reverse_eq_nil_iff] at hs
    rw [isWhite, hs] at h
    cases h
  · rw [List.reverse_reverse] at hs
    exact trimStart_ne_append hw s more hs

/-! ## Well-formed text -/

/-- Well-formed UTF-8 without U+E000. -/
def Plain (s : Bytes) : Prop := isUtf8 s = true ∧ ∀ r ∈ runes s, r.1 ≠ 0xE000

instance (s : Bytes) : Decidable (Plain s) := inferInstanceAs (Decidable (_ ∧ _))

theorem runesAfter_eq (skip : Nat) (s : Bytes) : runesAfter skip s = runesAfter 0 (s.drop skip) := by
  induction skip generalizing s with
  | zero => rfl
  | succ skip ih =>
    cases s with
    | nil => rfl
    | cons c rest => exact ih rest

theorem not_isContinuation_of_le {a : UInt8} (h : 0xC0 ≤ a) : isContinuation a = false := by
  rw [isContinuation, Bool.and_eq_false_iff]
  exact .inr (decide_eq_false (UInt8.not_lt.2 h))

theorem IsWideSpace.eq_cons {w : Bytes} (h : IsWideSpace w) :
    ∃ y u, w = y :: u ∧ u ≠ [] ∧ isContinuation y = false ∧ y < 0xE4 ∧
      (u.length = 1 → y < 0xE0) := by
  rcases h with ⟨a, b, rfl, hspace⟩ | ⟨a, b, c, rfl, hspace⟩
  · simp only [isSpace2, Bool.and_eq_true, beq_iff_eq] at hspace
    rw [hspace.1]
    exact ⟨_, _, rfl, by simp, by decide, by decide, fun _ => by decide⟩
  · have ha : a = 0xE1 ∨ a = 0xE2 ∨ a = 0xE3 := by
      simp only [isSpace3, Bool.and_eq_true, Bool.or_eq_true, beq_iff_eq] at hspace
      rcases hspace with ((h | h) | h) | h
      · exact .inl h.1.1
      · exact .inr (.inl h.1.1)
      · exact .inr (.inl h.1.1)
      · exact .inr (.inr h.1.1)
    refine ⟨a, [b, c], rfl, by simp, ?_, ?_, by simp⟩
    · rcases ha with rfl | rfl | rfl <;> decide
    · rcases ha with rfl | rfl | rfl <;> decide

/-- Behind the first byte of a character no other begins. -/
theorem eq_of_suffix_character {a y : UInt8} {u v : Bytes} (hv : ∀ c ∈ v, isContinuation c)
    (hy : isContinuation y = false) (h : y :: u <:+ a :: v) : y :: u = a :: v := by
  rcases List.suffix_cons_iff.1 h with h | h
  · exact h
  · have hcontinues := hv y (h.subset List.mem_cons_self)
    rw [hy] at hcontinues
    cases hcontinues

/-- A character is tidy if no beginning of it is white space, and it is not U+E000. -/
theorem tidy_character {a : UInt8} {w : Bytes} (ha : 0xC0 ≤ a) (hw : ∀ c ∈ w, isContinuation c)
    (hspace : ∀ p c q, w = p ++ c :: q → ¬ IsWideSpace (a :: p))
    (hprivate : ∀ q, a :: w ≠ firstPrivate ++ q) : Tidy (a :: w) := by
  intro p c q h hc
  rcases p with - | ⟨x, p⟩
  · obtain ⟨rfl, -⟩ := List.cons.inj h
    rw [not_isContinuation_of_le ha] at hc
    cases hc
  · obtain ⟨rfl, rfl⟩ := List.cons.inj h
    have hp : ∀ c ∈ p, isContinuation c := fun c hc => hw c (List.mem_append_left _ hc)
    refine ⟨?_, fun hsuffix => ?_⟩
    · rintro (hnil | ⟨r, b, hr, hb⟩ | ⟨u, hu, hsuffix⟩)
      · cases hnil
      · have hmem : b ∈ a :: p := hr ▸ List.mem_append_right r List.mem_cons_self
        rcases List.mem_cons.1 hmem with rfl | hmem
        · exact absurd hb (UInt8.not_lt.2 (UInt8.le_trans (by decide) ha))
        · exact absurd (hp b hmem) (by simp [not_isContinuation_of_lt hb])
      · obtain ⟨y, v, rfl, -, hy, -⟩ := hu.eq_cons
        exact hspace p c q rfl (eq_of_suffix_character hp hy hsuffix ▸ hu)
    · have hpc : ∀ x ∈ p ++ [c], isContinuation x := by
        intro x hx
        rcases List.mem_append.1 hx with hx | hx
        · exact hp x hx
        · rwa [List.mem_singleton.1 hx]
      have heq := eq_of_suffix_character hpc (by decide) hsuffix
      refine hprivate q ?_
      rw [firstPrivate, heq]
      simp

/-- What is read as one character is a byte of ASCII, or begins with a byte that tells how many others
go on with it. -/
theorem take_firstRune_cases {s : Bytes} (hs : s ≠ [])
    (hgood : ((firstRune s).1 != replacement || (s.take (firstRune s).2).length == 3) = true) :
    ∃ a w, s.take (firstRune s).2 = a :: w ∧ (∀ c ∈ w, isContinuation c = true) ∧
      (w = [] ∧ a < 0x80 ∨ w.length = 1 ∧ 0xC0 ≤ a ∨ w.length = 2 ∧ 0xE0 ≤ a ∨
        w.length = 3 ∧ 0xF0 ≤ a) := by
  have hcontinues : ∀ {b lo hi : UInt8}, 0x80 ≤ lo → hi < 0xC0 → (lo ≤ b && b ≤ hi) = true →
      isContinuation b = true := by
    intro b lo hi hlo hhi hb
    simp only [Bool.and_eq_true, decide_eq_true_eq] at hb
    simp only [isContinuation, Bool.and_eq_true, decide_eq_true_eq]
    exact ⟨UInt8.le_trans hlo hb.1, UInt8.lt_of_le_of_lt hb.2 hhi⟩
  revert hgood
  fun_cases firstRune s with
  | case1 => exact absurd rfl hs
  | case2 a rest ha => exact fun _ => ⟨a, [], rfl, by simp, .inl ⟨rfl, ha⟩⟩
  | case4 a _ _ _ hlo _ b rest hb =>
    intro _
    have hb : isContinuation b = true := hcontinues (by decide) (by decide) hb
    refine ⟨a, [b], rfl, by simpa using hb, .inr (.inl ⟨rfl, ?_⟩)⟩
    exact UInt8.le_trans (by decide) (UInt8.not_lt.1 hlo)
  | case7 a _ _ _ _ hlo _ lo hi b c rest hbc =>
    intro _
    rw [Bool.and_eq_true] at hbc
    have hb : isContinuation b = true := by
      refine hcontinues ?_ ?_ hbc.1
      · show 0x80 ≤ if a = 0xE0 then 0xA0 else 0x80
        split <;> decide
      · show (if a = 0xED then 0x9F else 0xBF) < 0xC0
        split <;> decide
    have hc : isContinuation c = true := hcontinues (by decide) (by decide) hbc.2
    exact ⟨a, [b, c], rfl, by simpa using ⟨hb, hc⟩, .inr (.inr (.inl ⟨rfl, UInt8.not_lt.1 hlo⟩))⟩
  | case10 a _ _ _ _ _ hlo _ lo hi b c d rest hbcd =>
    intro _
    simp only [Bool.and_eq_true] at hbcd
    have hb : isContinuation b = true := by
      refine hcontinues ?_ ?_ hbcd.1.1
      · show 0x80 ≤ if a = 0xF0 then 0x90 else 0x80
        split <;> decide
      · show (if a = 0xF4 then 0x8F else 0xBF) < 0xC0
        split <;> decide
    have hc : isContinuation c = true := hcontinues (by decide) (by decide) hbcd.1.2
    have hd : isContinuation d = true := hcontinues (by decide) (by decide) hbcd.2
    exact ⟨a, [b, c, d], rfl, by simpa using ⟨hb, hc, hd⟩,
      .inr (.inr (.inr ⟨rfl, UInt8.not_lt.1 hlo⟩))⟩
  | _ =>
    intro hgood
    simp at hgood

/-- What is read as one character, and is not U+E000, is tidy. -/
theorem tidy_take_firstRune (s : Bytes)
    (hgood : ((firstRune s).1 != replacement || (s.take (firstRune s).2).length == 3) = true)
    (hprivate : (firstRune s).1 ≠ 0xE000) : Tidy (s.take (firstRune s).2) := by
  by_cases hs : s = []
  · rw [hs]
    exact tidy_nil
  obtain ⟨a, w, htake, hw, hcases⟩ := take_firstRune_cases hs hgood
  rw [htake]
  have hnot : ∀ q, a :: w ≠ firstPrivate ++ q := by
    intro q hq
    obtain ⟨r, rfl⟩ : firstPrivate <+: s := by
      have hprefix : firstPrivate ++ q <+: s := hq ▸ htake ▸ List.take_prefix _ s
      exact (List.prefix_append _ q).trans hprefix
    exact hprivate rfl
  rcases hcases with ⟨rfl, ha⟩ | hcases
  · exact tidy_of_ascii (by simpa using ha)
  have ha : 0xC0 ≤ a := by
    rcases hcases with ⟨-, ha⟩ | ⟨-, ha⟩ | ⟨-, ha⟩
    · exact ha
    · exact UInt8.le_trans (by decide) ha
    · exact UInt8.le_trans (by decide) ha
  refine tidy_character ha hw ?_ hnot
  intro p c q hp hspace
  obtain ⟨y, u, heq, hne, -, hlt, hshort⟩ := hspace.eq_cons
  obtain ⟨rfl, rfl⟩ := List.cons.inj heq
  have hlength : w.length = p.length + (q.length + 1) := by rw [hp, List.length_append, List.length_cons]
  have hpos := List.length_pos_of_ne_nil hne
  rcases hcases with ⟨hw, -⟩ | ⟨hw, ha⟩ | ⟨-, ha⟩
  · omega
  · exact absurd (hshort (by omega)) (UInt8.not_lt.2 ha)
  · exact absurd hlt (UInt8.not_lt.2 (UInt8.le_trans (by decide) ha))

theorem firstRune_pos {s : Bytes} (h : s ≠ []) : 0 < (firstRune s).2 := by
  fun_cases firstRune s <;> simp_all

/-- The first character of a text is read from its first bytes, and the others from the rest. -/
theorem runes_cons (c : UInt8) (rest : Bytes) : ∃ r first rest', first ≠ [] ∧
    c :: rest = first ++ rest' ∧ runes (c :: rest) = (r, first) :: runes rest' ∧
    r = (firstRune (c :: rest)).1 ∧ first = (c :: rest).take (firstRune (c :: rest)).2 := by
  obtain ⟨width, hwidth⟩ := Nat.exists_eq_add_of_lt (firstRune_pos (s := c :: rest) (by simp))
  rw [Nat.zero_add] at hwidth
  refine ⟨_, _, (c :: rest).drop (firstRune (c :: rest)).2, ?_,
    (List.take_append_drop _ _).symm, ?_, rfl, rfl⟩
  · simp [hwidth]
  · have hrest : rest.drop ((firstRune (c :: rest)).2 - 1) =
        (c :: rest).drop (firstRune (c :: rest)).2 := by simp [hwidth]
    rw [runes, runes, ← hrest, ← runesAfter_eq, runesAfter]

theorem Plain.tidy {s : Bytes} (h : Plain s) : Tidy s := by
  induction hn : s.length using Nat.strongRecOn generalizing s with
  | ind n ih =>
    cases s with
    | nil => exact tidy_nil
    | cons c rest =>
      obtain ⟨hutf8, hprivate⟩ := h
      obtain ⟨r, first, rest', hne, hcut, hrunes, rfl, hfirst⟩ := runes_cons c rest
      rw [isUtf8, hrunes, List.all_cons, Bool.and_eq_true] at hutf8
      rw [hrunes, List.forall_mem_cons] at hprivate
      have htidy : Tidy first := by
        rw [hfirst] at hutf8 ⊢
        exact tidy_take_firstRune _ hutf8.1 hprivate.1
      have hshorter : rest'.length < n := by
        have := List.length_pos_of_ne_nil hne
        rw [← hn, hcut, List.length_append]
        omega
      rw [hcut]
      exact htidy.append (ih _ hshorter ⟨hutf8.2, hprivate.2⟩ rfl)

end Bindery.Text
