import Mathlib.Data.List.Basic
import Mathlib.Data.List.Infix
import Bindery.Proofs.Directive.Grammar
import Bindery.Proofs.Text.Split

/-!
# Counting braces

Whether the braces of a text match can be told by counting, without a grammar: opening braces go up,
closing ones down, and a brace behind a backslash does not count. The braces match if the depth never
falls below zero and ends there. `Balanced` is the grammar of these texts, up to a backslash at their end
(`balanced_iff`). Counting does not depend on where it starts, as long as no backslash stands right before
it, so a group that is opened anywhere in a balanced text is closed in it (`Balanced.not_leftOpen`).
-/

namespace Bindery

open Text

namespace Brace

def weight (escaped : Bool) (c : UInt8) : Int :=
  if escaped then 0 else if c = 123 then 1 else if c = 125 then -1 else 0

/-- The depth at the end of a text; `escaped` says that a backslash stands before the text. -/
def depthFrom (escaped : Bool) : Bytes → Int
  | [] => 0
  | c :: rest => weight escaped c + depthFrom (c == 92) rest

/-- How many groups a text leaves open, or how many more it closes. -/
def depth (s : Bytes) : Int := depthFrom false s

/-- The braces that count match: no group is closed before it is opened, and none is left open. -/
structure Matched (s : Bytes) : Prop where
  level : depth s = 0
  opened : ∀ p, p <+: s → 0 ≤ depth p

instance (s : Bytes) : Decidable (Matched s) :=
  decidable_of_iff (depth s = 0 ∧ ∀ p ∈ s.inits, 0 ≤ depth p)
    ⟨fun ⟨hlevel, hopened⟩ => ⟨hlevel, fun p hp => hopened p ((List.mem_inits p s).2 hp)⟩,
      fun h => ⟨h.level, fun p hp => h.opened p ((List.mem_inits p s).1 hp)⟩⟩

section Depth

variable {c : UInt8} {s : Bytes}

@[simp] theorem depth_nil : depth [] = 0 := rfl

@[simp] theorem depth_backslash_nil : depth [92] = 0 := rfl

@[simp] theorem depth_open (s : Bytes) : depth (123 :: s) = 1 + depth s := rfl

@[simp] theorem depth_close (s : Bytes) : depth (125 :: s) = -1 + depth s := rfl

theorem depth_byte (hc : c ≠ 92 ∧ c ≠ 123 ∧ c ≠ 125) (s : Bytes) : depth (c :: s) = depth s := by
  have hback : (c == 92) = false := beq_eq_false_iff_ne.2 hc.1
  simp [depth, depthFrom, weight, hc, hback]

theorem depth_escaped (hc : c = 123 ∨ c = 125) (s : Bytes) : depth (92 :: c :: s) = depth s := by
  rcases hc with rfl | rfl <;> simp [depth, depthFrom, weight]

theorem depth_backslash (hc : c ≠ 123 ∧ c ≠ 125) (s : Bytes) :
    depth (92 :: c :: s) = depth (c :: s) := by
  simp [depth, depthFrom, weight, hc]

/-- Counting goes on behind anything but a backslash as if it started there. -/
theorem depth_append {a : Bytes} (ha : a.getLast? ≠ some 92) (b : Bytes) :
    depth (a ++ b) = depth a + depth b := by
  -- Only the empty text leaves open whether a backslash stands before the next byte.
  suffices hfrom : ∀ escaped, (a = [] → escaped = false) →
      depthFrom escaped (a ++ b) = depthFrom escaped a + depth b from hfrom false fun _ => rfl
  induction a with
  | nil =>
    intro escaped hescaped
    rw [hescaped rfl]
    simp [depthFrom, depth]
  | cons c a ih =>
    intro escaped _
    have hrest : a.getLast? ≠ some 92 := by
      intro hlast
      apply ha
      cases a with
      | nil => cases hlast
      | cons d a => rwa [List.getLast?_cons_cons]
    have hback : a = [] → (c == 92) = false := by
      rintro rfl
      rw [beq_eq_false_iff_ne]
      rintro rfl
      exact ha rfl
    rw [List.cons_append, depthFrom, depthFrom, ih hrest (c == 92) hback, Int.add_assoc]

end Depth

/-! ## The grammar and the count -/

/-- A text in which the depth falls by a number, and never further. -/
structure Falls (n : Nat) (s : Bytes) : Prop where
  total : depth s = -n
  lowest : ∀ p, p <+: s → -n ≤ depth p

namespace Falls

variable {n m : Nat} {c : UInt8} {a s : Bytes}

/-- The first bytes of a text can be left out if they change the depth by the same everywhere. -/
theorem of_append (h : Falls n (a ++ s))
    (hdepth : ∀ p, p <+: s → depth (a ++ p) = m - n + depth p) : Falls m s := by
  refine ⟨?_, fun p hp => ?_⟩
  · have htotal := h.total
    rw [hdepth s List.prefix_rfl] at htotal
    omega
  · have hlowest := h.lowest (a ++ p) ((List.prefix_append_right_inj a).2 hp)
    rw [hdepth p hp] at hlowest
    omega

theorem of_escaped (hc : c = 123 ∨ c = 125) (h : Falls n (92 :: c :: s)) : Falls n s := by
  apply of_append (a := [92, c]) h
  intro p _
  rw [List.cons_append, List.singleton_append, depth_escaped hc]
  omega

theorem of_byte (hc : c ≠ 92 ∧ c ≠ 123 ∧ c ≠ 125) (h : Falls n (c :: s)) : Falls n s := by
  apply of_append (a := [c]) h
  intro p _
  rw [List.singleton_append, depth_byte hc]
  omega

theorem of_backslash (hc : c ≠ 123 ∧ c ≠ 125) (h : Falls n (92 :: c :: s)) : Falls n (c :: s) := by
  refine ⟨by rw [← h.total, depth_backslash hc], fun p hp => ?_⟩
  cases p with
  | nil => exact h.lowest [] List.nil_prefix
  | cons d p =>
    obtain ⟨rfl, -⟩ := List.cons_prefix_cons.1 hp
    rw [← depth_backslash hc]
    exact h.lowest _ (List.cons_prefix_cons.2 ⟨rfl, hp⟩)

theorem of_open (h : Falls n (123 :: s)) : Falls (n + 1) s := by
  apply of_append (a := [123]) h
  intro p _
  rw [List.singleton_append, depth_open]
  omega

theorem of_close (h : Falls n (125 :: s)) : ∃ m, n = m + 1 ∧ Falls m s := by
  have hlowest := h.lowest [125] (List.prefix_append [125] s)
  rw [depth_close, depth_nil] at hlowest
  obtain ⟨m, rfl⟩ : ∃ m, n = m + 1 := ⟨n - 1, by omega⟩
  refine ⟨m, rfl, ?_⟩
  apply of_append (a := [125]) h
  intro p _
  rw [List.singleton_append, depth_close]
  omega

end Falls

theorem getLast?_ne_of_cons {b c : UInt8} {s : Bytes} (h : (c :: s).getLast? ≠ some b) :
    s.getLast? ≠ some b := by
  cases s with
  | nil => exact nofun
  | cons d s => rwa [List.getLast?_cons_cons] at h

theorem closes_of_falls {n : Nat} {s : Bytes} (h : Falls n s) (hlast : s.getLast? ≠ some 92) :
    Closes n s := by
  induction hk : s.length using Nat.strongRecOn generalizing s n with
  | ind k ih =>
    subst hk
    cases s with
    | nil =>
      have htotal := h.total
      rw [depth_nil] at htotal
      obtain rfl : n = 0 := by omega
      exact .zero .nil
    | cons c rest =>
      have hrest := getLast?_ne_of_cons hlast
      have hshort : rest.length < (c :: rest).length := Nat.lt_succ_self _
      by_cases hback : c = 92
      · subst hback
        cases rest with
        | nil => exact absurd rfl hlast
        | cons d rest =>
          by_cases hd : d = 123 ∨ d = 125
          · exact .escaped hd (ih _ (Nat.lt_of_succ_lt hshort) (h.of_escaped hd)
              (getLast?_ne_of_cons hrest) rfl)
          · rw [not_or] at hd
            exact .backslash hd (ih _ hshort (h.of_backslash hd) hrest rfl)
      · by_cases hopen : c = 123
        · subst hopen
          cases ih _ hshort h.of_open hrest rfl with
          | succ hinner hmore => exact .group hinner hmore
        · by_cases hclose : c = 125
          · subst hclose
            obtain ⟨m, rfl, hfalls⟩ := h.of_close
            exact .succ .nil (ih _ hshort hfalls hrest rfl)
          · have hbyte : c ≠ 92 ∧ c ≠ 123 ∧ c ≠ 125 := ⟨hback, hopen, hclose⟩
            exact .byte hbyte (ih _ hshort (h.of_byte hbyte) hrest rfl)

theorem prefix_append_cases {p a s : Bytes} (h : p <+: a ++ s) :
    p <+: a ∨ ∃ q, p = a ++ q ∧ q <+: s := by
  obtain ⟨t, ht⟩ := h
  rcases List.append_eq_append_iff.1 ht with ⟨r, rfl, -⟩ | ⟨r, rfl, rfl⟩
  · exact .inl (List.prefix_append p r)
  · exact .inr ⟨r, rfl, List.prefix_append r t⟩

theorem Matched.append {a s : Bytes} (h : Matched s) (ha : ∀ p, p <+: a → 0 ≤ depth p)
    (hdepth : ∀ p, p <+: s → depth (a ++ p) = depth p) : Matched (a ++ s) := by
  refine ⟨by rw [hdepth s List.prefix_rfl, h.level], fun p hp => ?_⟩
  rcases prefix_append_cases hp with hp | ⟨q, rfl, hq⟩
  · exact ha p hp
  · rw [hdepth q hq]
    exact h.opened q hq

theorem Matched.group {inner : Bytes} (h : Matched inner) (hlast : inner.getLast? ≠ some 92)
    {s : Bytes} (hs : Matched s) : Matched (123 :: (inner ++ 125 :: s)) := by
  have hdepth : ∀ q, depth (123 :: (inner ++ q)) = 1 + depth q := fun q => by
    rw [depth_open, depth_append hlast, h.level, Int.zero_add]
  have hmatched : Matched ((123 :: (inner ++ [125])) ++ s) := by
    refine hs.append (fun p hp => ?_) fun p _ => ?_
    · rcases prefix_append_cases (a := 123 :: inner) hp with hp | ⟨q, rfl, hq⟩
      · cases p with
        | nil => exact Int.le_refl 0
        | cons c p =>
          obtain ⟨rfl, hinner⟩ := List.cons_prefix_cons.1 hp
          have hopened := h.opened p hinner
          rw [depth_open]
          omega
      · rw [List.cons_append, hdepth]
        rcases List.prefix_cons_iff.1 hq with rfl | ⟨r, rfl, hr⟩
        · exact Int.le_of_lt Int.zero_lt_one
        · rw [List.prefix_nil.1 hr]
          exact Int.le_refl 0
    · have hcut : 123 :: (inner ++ [125]) ++ p = 123 :: (inner ++ 125 :: p) := by simp
      rw [hcut, hdepth, depth_close]
      omega
  simpa using hmatched

theorem depth_nonneg_of_singleton {c : UInt8} (hc : 0 ≤ depth [c]) : ∀ p, p <+: [c] → 0 ≤ depth p := by
  intro p hp
  rcases List.prefix_cons_iff.1 hp with rfl | ⟨q, rfl, hq⟩
  · exact Int.le_refl 0
  · rwa [List.prefix_nil.1 hq]

theorem matched_of_balanced {s : Bytes} (h : Balanced s) : Matched s ∧ s.getLast? ≠ some 92 := by
  induction h with
  | nil => exact ⟨⟨rfl, fun p hp => by rw [List.prefix_nil.1 hp]; exact Int.le_refl 0⟩, nofun⟩
  | @escaped c s hc _ ih =>
    obtain ⟨hs, hlast⟩ := ih
    have hc' : c ≠ 92 := by rcases hc with rfl | rfl <;> decide
    refine ⟨hs.append (a := [92, c]) (fun p hp => ?_) fun p _ => depth_escaped hc p, ?_⟩
    · rcases prefix_append_cases (a := [92]) hp with hback | ⟨q, rfl, hq⟩
      · exact depth_nonneg_of_singleton (c := 92) (Int.le_refl 0) p hback
      · rcases List.prefix_cons_iff.1 hq with rfl | ⟨r, rfl, hr⟩
        · exact Int.le_refl 0
        · rw [List.prefix_nil.1 hr, List.singleton_append, depth_escaped hc]
          exact Int.le_refl 0
    · rw [List.getLast?_cons_cons]
      exact getLast?_cons_ne hc' hlast
  | @byte c s hc _ ih =>
    obtain ⟨hs, hlast⟩ := ih
    have hlevel : 0 ≤ depth [c] := by
      rw [depth_byte hc]
      exact Int.le_refl 0
    exact ⟨hs.append (a := [c]) (depth_nonneg_of_singleton hlevel) fun p _ => depth_byte hc p,
      getLast?_cons_ne hc.1 hlast⟩
  | @backslash c s hc _ ih =>
    obtain ⟨hs, hlast⟩ := ih
    refine ⟨⟨by rw [depth_backslash hc, hs.level], fun p hp => ?_⟩, by rwa [List.getLast?_cons_cons]⟩
    rcases List.prefix_cons_iff.1 hp with rfl | ⟨q, rfl, hq⟩
    · exact Int.le_refl 0
    · cases q with
      | nil => exact Int.le_refl 0
      | cons d q =>
        obtain ⟨rfl, -⟩ := List.cons_prefix_cons.1 hq
        rw [depth_backslash hc]
        exact hs.opened _ hq
  | @group inner s _ _ ihinner ih =>
    obtain ⟨hs, hlast⟩ := ih
    refine ⟨ihinner.1.group ihinner.2 hs, ?_⟩
    have hlast' := getLast?_cons_ne (a := 125) (by decide) hlast
    have hcut : 123 :: (inner ++ 125 :: s) = (123 :: inner) ++ 125 :: s := rfl
    rw [hcut, List.getLast?_append_of_ne_nil _ (List.cons_ne_nil _ _)]
    exact hlast'

/-- **Balanced** texts are those whose braces match by the count, and that do not end in a backslash. -/
theorem balanced_iff {s : Bytes} : Balanced s ↔ Matched s ∧ s.getLast? ≠ some 92 := by
  constructor
  · exact matched_of_balanced
  · rintro ⟨h, hlast⟩
    have hfalls : Falls 0 s := ⟨h.level, h.opened⟩
    cases closes_of_falls hfalls hlast with
    | zero h => exact h

/-! ## Groups that are not closed -/

/-- Behind a group that is not closed the depth stays up to the end of the text. -/
theorem depth_nonneg_of_takeGroup {n : Nat} {s : Bytes} (h : takeGroup n s = none) :
    0 ≤ n + depth s := by
  fun_induction takeGroup n s with
  | case1 n => exact Int.natCast_nonneg n
  | case2 n rest ih | case3 n rest ih =>
    rw [depth_escaped (by decide)]
    exact ih (Option.map_eq_none_iff.1 h)
  | case4 n rest _ _ ih =>
    have hinner := ih (Option.map_eq_none_iff.1 h)
    change 0 ≤ n + depth (123 :: rest)
    rw [depth_open]
    omega
  | case5 => cases h
  | case6 rest n _ _ _ ih =>
    have houter := ih (Option.map_eq_none_iff.1 h)
    change 0 ≤ ((n + 1 : Nat) : Int) + depth (125 :: rest)
    rw [depth_close]
    omega
  | case7 n c rest hopen hclose hc hc' ih =>
    have hrest := ih (Option.map_eq_none_iff.1 h)
    by_cases hback : c = 92
    · subst hback
      cases rest with
      | nil => simp
      | cons d rest =>
        rw [depth_backslash]
        · exact hrest
        · constructor
          · rintro rfl
            exact hopen _ rfl rfl
          · rintro rfl
            exact hclose _ rfl rfl
    · rwa [depth_byte ⟨hback, hc, hc'⟩]

/-- Somewhere behind the first byte of a text stands a brace that counts, and the group that it opens is
not closed. -/
def LeftOpen (s : Bytes) : Prop :=
  ∃ front c rest, s = front ++ c :: 123 :: rest ∧ c ≠ 92 ∧ takeGroup 0 rest = none

theorem LeftOpen.append {s : Bytes} (h : LeftOpen s) (a : Bytes) : LeftOpen (a ++ s) := by
  obtain ⟨front, c, rest, rfl, hc, hrest⟩ := h
  exact ⟨a ++ front, c, rest, by rw [List.append_assoc], hc, hrest⟩

theorem LeftOpen.of_suffix {s t : Bytes} (h : LeftOpen s) (hs : s <:+ t) : LeftOpen t := by
  obtain ⟨a, rfl⟩ := hs
  exact h.append a

end Brace

/-- **Where braces match**, every group that a brace opens is closed. -/
theorem Balanced.not_leftOpen {s : Bytes} (h : Balanced s) : ¬ Brace.LeftOpen s := by
  rintro ⟨front, c, rest, rfl, hc, hrest⟩
  obtain ⟨hmatched, -⟩ := Brace.balanced_iff.1 h
  have hcut : front ++ c :: 123 :: rest = (front ++ [c]) ++ 123 :: rest := by simp
  rw [hcut] at hmatched
  have hlast : (front ++ [c]).getLast? ≠ some 92 := by
    rw [List.getLast?_concat]
    exact fun heq => hc (Option.some.inj heq)
  have hlevel := hmatched.level
  rw [Brace.depth_append hlast, Brace.depth_open] at hlevel
  have hfront := hmatched.opened _ (List.prefix_append (front ++ [c]) _)
  have hbehind := Brace.depth_nonneg_of_takeGroup hrest
  omega

end Bindery
