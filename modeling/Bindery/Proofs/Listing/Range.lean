import Mathlib.Data.List.Forall2
import Mathlib.Data.List.Pairwise
import Mathlib.Data.List.Sort
import Bindery.Proofs.Listing.Choice
import Bindery.Proofs.Text.Split
import Bindery.Proofs.Text.Trim

/-!
# Ranges of lines

Reading a selection of lines splits it at commas and each element at its first dash, and trims every piece.
`Spells` says which texts are accepted in the end, and as what. What is read is then looked through in three
ways: line by line for each number asked about, for the largest number, and for all of its numbers in order.
They agree on every selection (`parseLines_selects`), although its ranges may overlap and come in any order.
The numbers are collected by counting in a word, which comes to an end as long as the largest word is not
among them.
-/

namespace Bindery.Listing

open Text

/-! ## How selections are written -/

/-- A number with white space around it. -/
inductive Padded : Bytes → Nat → Prop
  | mk {v s w : Bytes} {n : Nat} (hv : White v) (hs : Numeral s n) (hw : White w) : Padded (v ++ s ++ w) n

/-- A single line, or a range of lines that is not reversed. -/
inductive Element : Bytes → LineRange → Prop
  | line {s : Bytes} {n : Nat} (h : Padded s n) : Element s ⟨n, n⟩
  | range {s t : Bytes} {n m : Nat} (hs : Padded s n) (ht : Padded t m) (hle : n ≤ m) :
      Element (s ++ 45 :: t) ⟨n, m⟩

/-- A text that selects lines: white space, or elements between commas. -/
inductive Spells : Bytes → Option LineSpec → Prop
  | blank {s : Bytes} (h : White s) : Spells s none
  | elements {parts : List Bytes} {s : LineSpec} (hne : parts ≠ []) (h : List.Forall₂ Element parts s) :
      Spells (joinWith [44] parts) (some s)

theorem Padded.around {v s w : Bytes} {n : Nat} (hv : White v) (h : Padded s n) (hw : White w) :
    Padded (v ++ s ++ w) n := by
  obtain ⟨hv', hs, hw'⟩ := h
  simpa only [List.append_assoc] using Padded.mk (hv.append hv') hs (hw'.append hw)

theorem Padded.of_numeral {s : Bytes} {n : Nat} (h : Numeral s n) : Padded s n := by
  simpa using Padded.mk .nil h .nil

theorem Padded.not_white {s : Bytes} {n : Nat} (h : Padded s n) : ¬ White s := by
  obtain ⟨-, hs, -⟩ := h
  obtain ⟨c, hc⟩ := List.exists_mem_of_ne_nil _ hs.ne_nil
  exact fun hwhite => hwhite.not_visible (by simp [hc]) (hs.visible c hc)

theorem Padded.comma_notMem {s : Bytes} {n : Nat} (h : Padded s n) : 44 ∉ s := by
  obtain ⟨hv, hs, hw⟩ := h
  have hcomma : Visible 44 := ⟨by decide, by decide⟩
  simp only [List.mem_append, not_or]
  exact ⟨⟨fun hmem => hv.not_visible hmem hcomma, hs.notMem (by decide) (by decide)⟩,
    fun hmem => hw.not_visible hmem hcomma⟩

theorem Element.not_white {s : Bytes} {r : LineRange} (h : Element s r) : ¬ White s := by
  cases h with
  | line h => exact h.not_white
  | range hs ht hle =>
    have hdash : Visible 45 := ⟨by decide, by decide⟩
    exact fun hwhite => hwhite.not_visible (by simp) hdash

theorem Element.comma_notMem {s : Bytes} {r : LineRange} (h : Element s r) : 44 ∉ s := by
  cases h with
  | line h => exact h.comma_notMem
  | range hs ht hle =>
    rw [List.mem_append, List.mem_cons, not_or, not_or]
    exact ⟨hs.comma_notMem, by decide, ht.comma_notMem⟩

/-! ## Reading a selection -/

theorem parseLineNumber_eq_ok_iff {spec s : Bytes} {n : Nat} : parseLineNumber spec s = .ok n ↔ Padded s n := by
  constructor
  · intro h
    have hpos := (bounds_of_parseLineNumber h).1
    simp only [parseLineNumber] at h
    split at h
    · cases h
    · next m hread =>
      split at h
      · cases h
      · next hm =>
        obtain rfl := Except.ok.inj h
        have hm : ((m.toNat : Nat) : Int) = m := by omega
        obtain ⟨v, w, hs, hv, hw⟩ := exists_white_trim s
        rw [hs]
        exact .mk hv ((readInt_eq_ok_iff hpos).1 (hm ▸ hread)) hw
  · rintro ⟨hv, hs, hw⟩
    have hpos := hs.bounds.1
    have htrim : trim (_ ++ _ ++ _) = _ := (trim_between hv _ hw).trans hs.trim_eq
    have hone : ¬ ((n : Nat) : Int) < 1 := by omega
    simp only [parseLineNumber, htrim, (readInt_eq_ok_iff hpos).2 hs, if_neg hone, Int.toNat_natCast]

theorem element_of_parseLineRange {spec part : Bytes} {r : LineRange} (h : parseLineRange spec part = .ok r) :
    Element part r := by
  obtain ⟨v, w, hpart, hv, hw⟩ := exists_white_trim part
  simp only [parseLineRange] at h
  split at h
  · cases h
  · split at h
    · obtain ⟨n, hn, h⟩ := exists_of_bind_eq_ok h
      obtain rfl := Except.ok.inj h
      rw [hpart]
      exact .line (.around hv (parseLineNumber_eq_ok_iff.1 hn) hw)
    · next from' to' hcut =>
      obtain ⟨n, hn, h⟩ := exists_of_bind_eq_ok h
      obtain ⟨m, hm, h⟩ := exists_of_bind_eq_ok h
      split at h
      · cases h
      · next hle =>
        obtain rfl := Except.ok.inj h
        have hfrom : Padded (v ++ from') n := by
          simpa using Padded.around hv (parseLineNumber_eq_ok_iff.1 hn) .nil
        have hto : Padded (to' ++ w) m := by
          simpa using Padded.around .nil (parseLineNumber_eq_ok_iff.1 hm) hw
        have hparts : part = (v ++ from') ++ 45 :: (to' ++ w) := by
          rw [hpart, (cutByte?_eq_some_iff.1 hcut).1]
          simp only [List.append_assoc, List.cons_append]
        rw [hparts]
        exact .range hfrom hto (Nat.not_lt.1 hle)

theorem trim_range {v a w v' b w' : Bytes} {n m : Nat} (hv : White v) (ha : Numeral a n) (hb : Numeral b m)
    (hw' : White w') : trim (v ++ a ++ w ++ 45 :: (v' ++ b ++ w')) = a ++ w ++ 45 :: (v' ++ b) := by
  have hsplit : v ++ a ++ w ++ 45 :: (v' ++ b ++ w') = v ++ (a ++ w ++ 45 :: (v' ++ b)) ++ w' := by
    simp only [List.append_assoc, List.cons_append]
  rw [hsplit, trim_between hv _ hw']
  refine trim_of_visible (fun c hc => ha.visible c ?_) (fun c hc => hb.visible c ?_)
  · rw [List.append_assoc, List.head?_append_of_ne_nil _ ha.ne_nil] at hc
    exact List.mem_of_head? hc
  · rw [← List.cons_append, ← List.append_assoc, List.getLast?_append_of_ne_nil _ hb.ne_nil] at hc
    exact List.mem_of_getLast? hc

theorem parseLineRange_of_element {spec part : Bytes} {r : LineRange} (h : Element part r) :
    parseLineRange spec part = .ok r := by
  cases h with
  | @line s n h =>
    obtain ⟨hv, hs, hw⟩ := h
    have htrim : trim (_ ++ _ ++ _) = _ := (trim_between hv _ hw).trans hs.trim_eq
    have hcut : cutByte? 45 _ = none :=
      cutByte?_eq_none_iff.2 (hs.notMem (by decide) (by decide))
    simp only [parseLineRange, htrim, hcut, List.isEmpty_eq_false_iff.2 hs.ne_nil,
      parseLineNumber_eq_ok_iff.2 (.of_numeral hs)]
    rfl
  | @range s t n m hs ht hle =>
    cases hs with | @mk v a w _ hv ha hw =>
    cases ht with | @mk v' b w' _ hv' hb hw' =>
    have hdash : Visible 45 := ⟨by decide, by decide⟩
    have hcut : cutByte? 45 (a ++ w ++ 45 :: (v' ++ b)) = some (a ++ w, v' ++ b) := by
      rw [cutByte?_eq_some_iff, List.mem_append, not_or]
      exact ⟨rfl, ha.notMem (by decide) (by decide), fun hmem => hw.not_visible hmem hdash⟩
    have hfrom : Padded (a ++ w) n := by simpa using Padded.around .nil (.of_numeral ha) hw
    have hto : Padded (v' ++ b) m := by simpa using Padded.around hv' (.of_numeral hb) .nil
    have hne : (a ++ w ++ 45 :: (v' ++ b)).isEmpty = false := by simp
    simp only [parseLineRange, trim_range hv ha hb hw', hcut, hne, parseLineNumber_eq_ok_iff.2 hfrom,
      parseLineNumber_eq_ok_iff.2 hto]
    exact if_neg (Nat.not_lt.2 hle)

/-- An element is read as it is written. -/
theorem parseLineRange_eq_ok_iff {spec part : Bytes} {r : LineRange} :
    parseLineRange spec part = .ok r ↔ Element part r :=
  ⟨element_of_parseLineRange, parseLineRange_of_element⟩

theorem Element.iff_of_trim_eq {a b : Bytes} (h : trim a = trim b) {r : LineRange} :
    Element a r ↔ Element b r := by
  have hparse : parseLineRange [] a = parseLineRange [] b := by rw [parseLineRange, parseLineRange, h]
  calc Element a r ↔ parseLineRange [] a = .ok r := parseLineRange_eq_ok_iff.symm
    _ ↔ parseLineRange [] b = .ok r := by rw [hparse]
    _ ↔ Element b r := parseLineRange_eq_ok_iff

/-! ### The elements of a list -/

theorem mapM_eq_ok_iff {ε α β : Type} {f : α → Except ε β} {xs : List α} {ys : List β} :
    xs.mapM f = .ok ys ↔ List.Forall₂ (fun x y => f x = .ok y) xs ys := by
  induction xs generalizing ys with
  | nil =>
    rw [List.forall₂_nil_left_iff]
    exact ⟨fun h => (Except.ok.inj h).symm, fun h => h ▸ rfl⟩
  | cons x rest ih =>
    rw [List.mapM_cons, List.forall₂_cons_left_iff]
    constructor
    · intro h
      obtain ⟨y, hy, h⟩ := exists_of_bind_eq_ok h
      obtain ⟨more, hmore, h⟩ := exists_of_bind_eq_ok h
      exact ⟨y, more, hy, ih.1 hmore, (Except.ok.inj h).symm⟩
    · rintro ⟨y, more, hy, hmore, rfl⟩
      rw [hy, ih.2 hmore]
      rfl

/-- White space around a list is white space around its first and its last element. -/
theorem map_trim_splitOn_between {sep : UInt8} (hsep : Visible sep) {v w : Bytes} (hv : White v) (s : Bytes)
    (hw : White w) : (splitOn sep (v ++ s ++ w)).map trim = (splitOn sep s).map trim := by
  obtain ⟨front, last, hs, happend⟩ := exists_splitOn_append sep (v ++ s)
  obtain ⟨first, more, hs'⟩ := exists_splitOn sep s
  rw [happend w fun hmem => hw.not_visible hmem hsep, List.map_append, List.map_singleton,
    trim_append_white _ hw, ← List.map_singleton, ← List.map_append, ← hs,
    splitOn_append (fun hmem => hv.not_visible hmem hsep) hs', hs', List.map_cons, List.map_cons,
    trim_white_append hv]

theorem forall₂_element_map_trim {parts : List Bytes} {s : LineSpec} :
    List.Forall₂ Element (parts.map trim) s ↔ List.Forall₂ Element parts s := by
  rw [List.forall₂_map_left_iff]
  simp only [Element.iff_of_trim_eq (trim_trim _)]

theorem parseLines_eq_ok_some_iff {spec : Bytes} {s : LineSpec} :
    parseLines spec = .ok (some s) ↔ ¬ White spec ∧ List.Forall₂ Element (splitOn 44 spec) s := by
  obtain ⟨v, w, hspec, hv, hw⟩ := exists_white_trim spec
  have hcomma : Visible 44 := ⟨by decide, by decide⟩
  have hparts : List.Forall₂ Element (splitOn 44 spec) s ↔
      List.Forall₂ Element (splitOn 44 (trim spec)) s := by
    rw [← forall₂_element_map_trim, hspec, map_trim_splitOn_between hcomma hv _ hw, forall₂_element_map_trim,
      ← hspec]
  rw [hparts, ← trim_eq_nil_iff]
  simp only [parseLines]
  split
  · next hnil => simp [List.isEmpty_iff.1 hnil]
  · next hne =>
    rw [List.isEmpty_iff] at hne
    have hread : ∀ ranges, (splitOn 44 (trim spec)).mapM (parseLineRange (trim spec)) = .ok ranges ↔
        List.Forall₂ Element (splitOn 44 (trim spec)) ranges := by
      intro ranges
      simp only [mapM_eq_ok_iff, parseLineRange_eq_ok_iff]
    rw [and_iff_right hne]
    constructor
    · intro h
      obtain ⟨ranges, hranges, h⟩ := exists_of_bind_eq_ok h
      obtain rfl := Option.some.inj (Except.ok.inj h)
      exact (hread ranges).1 hranges
    · intro h
      rw [(hread s).2 h]
      rfl

theorem parseLines_eq_ok_none_iff {spec : Bytes} : parseLines spec = .ok none ↔ White spec := by
  rw [← trim_eq_nil_iff]
  simp only [parseLines]
  split
  · next hnil => simp [List.isEmpty_iff.1 hnil]
  · next hne =>
    rw [List.isEmpty_iff] at hne
    refine iff_of_false (fun h => ?_) hne
    obtain ⟨ranges, -, h⟩ := exists_of_bind_eq_ok h
    cases h

/-- The texts that are accepted, and what is read of each. -/
theorem parseLines_eq_ok_iff {spec : Bytes} {r : Option LineSpec} : parseLines spec = .ok r ↔ Spells spec r := by
  constructor
  · intro h
    cases r with
    | none => exact .blank (parseLines_eq_ok_none_iff.1 h)
    | some s =>
      rw [← joinWith_splitOn 44 spec]
      exact .elements (splitOn_ne_nil 44 spec) (parseLines_eq_ok_some_iff.1 h).2
  · intro h
    cases h with
    | blank h => exact parseLines_eq_ok_none_iff.2 h
    | @elements parts s hne h =>
      have hcomma : ∀ part ∈ parts, 44 ∉ part :=
        ((List.forall₂_and_left _ _).1 (h.imp fun _ _ hr => ⟨hr.comma_notMem, hr⟩)).1
      have hsplit := splitOn_joinWith hne hcomma
      refine parseLines_eq_ok_some_iff.2 ⟨fun hwhite => ?_, hsplit.symm ▸ h⟩
      -- A text of white space has no comma, so it would be the only element.
      have hblank : Visible 44 := ⟨by decide, by decide⟩
      rw [splitOn_of_notMem fun hmem => hwhite.not_visible hmem hblank] at hsplit
      rw [← hsplit] at h
      obtain ⟨r, -, hr, -⟩ := List.forall₂_cons_left_iff.1 h
      exact hr.not_white (hsplit ▸ hwhite)

/-! ## Looking through a selection -/

/-- Collecting the lines up to `last` from a counter in a word on, each that was not collected before. It is
over when the counter is beyond `last`. -/
inductive Counts (last : Int64) : Int64 → List Int → List Int → Prop
  | past {i : Int64} {seen : List Int} (h : last < i) : Counts last i seen seen
  | old {i : Int64} {seen out : List Int} (h : i ≤ last) (hmem : i.toInt ∈ seen)
      (hrest : Counts last (i + 1) seen out) : Counts last i seen out
  | new {i : Int64} {seen out : List Int} (h : i ≤ last) (hmem : i.toInt ∉ seen)
      (hrest : Counts last (i + 1) (seen ++ [i.toInt]) out) : Counts last i seen out

/-- Collecting the lines of all ranges, one range after the other. -/
inductive Collects : LineSpec → List Int → List Int → Prop
  | nil {seen : List Int} : Collects [] seen seen
  | cons {r : LineRange} {s : LineSpec} {seen mid out : List Int}
      (hr : Counts (.ofNat r.last) (.ofNat r.first) seen mid) (hs : Collects s mid out) :
      Collects (r :: s) seen out

/-- That the ways to look through a selection agree. -/
structure LineSpec.Coherent (s : LineSpec) : Prop where
  mem_indices_iff : ∀ n : Int, (∃ i ∈ s.indices, (i : Int) = n) ↔ s.contains n = true
  ascending : s.indices.Pairwise (· < ·)
  max_eq : s.max = s.indices.getLast?.getD 0
  /-- Collecting comes to an end, and sorts into the numbers that are listed. -/
  collects : (∃ out, Collects s [] out) ∧
    ∀ out, Collects s [] out → out.mergeSort = s.indices.map fun i : Nat => (i : Int)

section

variable {last i : Int64} {seen out : List Int}

theorem toInt_succ (h : i < .maxValue) : (i + 1).toInt = i.toInt + 1 := by
  rw [Int64.lt_iff_toInt_lt, Int64.toInt_maxValue] at h
  have hlow := i.le_toInt
  rw [Int64.toInt_add, Int64.toInt_one]
  exact Int.bmod_eq_of_le_mul_two (by omega) (by omega)

theorem Counts.last_lt (h : Counts last i seen out) : last < .maxValue := by
  induction h with
  | past h => exact Int64.lt_of_lt_of_le h (Int64.le_maxValue _)
  | old _ _ _ ih => exact ih
  | new _ _ _ ih => exact ih

theorem exists_counts (hlast : last < .maxValue) (i : Int64) (seen : List Int) :
    ∃ out, Counts last i seen out := by
  induction hn : (last.toInt + 1 - i.toInt).toNat generalizing i seen with
  | zero =>
    refine ⟨seen, .past (Int64.lt_iff_toInt_lt.2 ?_)⟩
    omega
  | succ n ih =>
    have hle : i ≤ last := Int64.le_iff_toInt_le.2 (by omega)
    have hsucc := toInt_succ (Int64.lt_of_le_of_lt hle hlast)
    by_cases hmem : i.toInt ∈ seen
    · obtain ⟨out, hout⟩ := ih (i + 1) seen (by omega)
      exact ⟨out, .old hle hmem hout⟩
    · obtain ⟨out, hout⟩ := ih (i + 1) (seen ++ [i.toInt]) (by omega)
      exact ⟨out, .new hle hmem hout⟩

theorem Counts.nodup (h : Counts last i seen out) (hseen : seen.Nodup) : out.Nodup := by
  induction h with
  | past => exact hseen
  | old _ _ _ ih => exact ih hseen
  | new _ hmem _ ih =>
    refine ih (List.nodup_append.2 ⟨hseen, List.nodup_singleton _, fun a ha b hb => ?_⟩)
    rw [List.mem_singleton.1 hb]
    rintro rfl
    exact hmem ha

theorem Counts.mem_iff (h : Counts last i seen out) (n : Int) :
    n ∈ out ↔ n ∈ seen ∨ i.toInt ≤ n ∧ n ≤ last.toInt := by
  induction h with
  | @past i seen h =>
    rw [Int64.lt_iff_toInt_lt] at h
    refine (or_iff_left ?_).symm
    omega
  | @old i seen out h hmem hrest ih =>
    rw [ih, toInt_succ (Int64.lt_of_le_of_lt h hrest.last_lt)]
    rw [Int64.le_iff_toInt_le] at h
    constructor
    · rintro (hn | hn)
      · exact .inl hn
      · right; omega
    · rintro (hn | hn)
      · exact .inl hn
      · by_cases heq : n = i.toInt
        · exact .inl (heq ▸ hmem)
        · right; omega
  | @new i seen out h hmem hrest ih =>
    rw [ih, toInt_succ (Int64.lt_of_le_of_lt h hrest.last_lt), List.mem_append, List.mem_singleton, or_assoc]
    rw [Int64.le_iff_toInt_le] at h
    refine or_congr_right ?_
    omega

end

section

variable {s : LineSpec} {seen out : List Int}

theorem toInt_ofNat_of_le {n : Nat} (h : n ≤ maxInt) : (Int64.ofNat n).toInt = n := by
  have hlt : n < 2 ^ 63 := Nat.lt_of_le_of_lt h (by decide)
  exact Int64.toInt_ofNat_of_lt hlt

theorem exists_collects (h : ∀ r ∈ s, r.last < maxInt) (seen : List Int) : ∃ out, Collects s seen out := by
  induction s generalizing seen with
  | nil => exact ⟨seen, .nil⟩
  | cons r s ih =>
    obtain ⟨hr, hs⟩ := List.forall_mem_cons.1 h
    have hlast : Int64.ofNat r.last < .maxValue := by
      have hmax : ((maxInt : Nat) : Int) = 2 ^ 63 - 1 := by decide
      rw [Int64.lt_iff_toInt_lt, toInt_ofNat_of_le hr.le, Int64.toInt_maxValue]
      omega
    obtain ⟨mid, hmid⟩ := exists_counts hlast (.ofNat r.first) seen
    obtain ⟨out, hout⟩ := ih hs mid
    exact ⟨out, .cons hmid hout⟩

theorem Collects.nodup (h : Collects s seen out) (hseen : seen.Nodup) : out.Nodup := by
  induction h with
  | nil => exact hseen
  | cons hr _ ih => exact ih (hr.nodup hseen)

theorem LineSpec.contains_int_eq_true {n : Int} :
    s.contains n = true ↔ ∃ r ∈ s, (r.first : Int) ≤ n ∧ n ≤ r.last := by
  simp [LineSpec.contains, List.any_eq_true]

theorem Collects.mem_iff (h : Collects s seen out) (hs : Ranged s) (n : Int) :
    n ∈ out ↔ n ∈ seen ∨ s.contains n = true := by
  induction h with
  | nil => simp [LineSpec.contains]
  | @cons r s seen mid out hr _ ih =>
    obtain ⟨⟨-, hle, hlast⟩, hs⟩ := List.forall_mem_cons.1 hs
    rw [ih hs, hr.mem_iff, toInt_ofNat_of_le (hle.trans hlast), toInt_ofNat_of_le hlast, or_assoc,
      LineSpec.contains_int_eq_true, LineSpec.contains_int_eq_true, List.exists_mem_cons_iff]

/-! ### The numbers in order -/

theorem getLast?_of_ascending {l : List Nat} (h : l.Pairwise (· < ·)) {m : Nat} (hm : m ∈ l)
    (hle : ∀ n ∈ l, n ≤ m) : l.getLast? = some m := by
  have hne := List.ne_nil_of_mem hm
  have hlast := (h.imp Nat.le_of_lt).rel_getLast hm
  rw [List.getLast?_eq_some_getLast hne, Nat.le_antisymm (hle _ (List.getLast_mem hne)) hlast]

theorem LineSpec.exists_last_eq_max (hne : s ≠ []) : ∃ r ∈ s, r.last = s.max := by
  by_contra h
  push Not at h
  have hle := LineSpec.max_le_iff.1 (Nat.le_refl s.max)
  obtain ⟨r, hr⟩ := List.exists_mem_of_ne_nil s hne
  have hpred : s.max ≤ s.max - 1 := LineSpec.max_le_iff.2 fun r hr => by
    have := hle r hr
    have := h r hr
    omega
  have := hle r hr
  have := h r hr
  omega

theorem LineSpec.ascending_indices (s : LineSpec) : s.indices.Pairwise (· < ·) :=
  (List.pairwise_lt_range' 1).filter _

theorem Ranged.mem_indices_iff (hs : Ranged s) (n : Int) :
    (∃ i ∈ s.indices, (i : Int) = n) ↔ s.contains n = true := by
  constructor
  · rintro ⟨i, hi, rfl⟩
    exact (LineSpec.mem_indices.1 hi).2
  · intro h
    obtain ⟨r, hr, hfirst, -⟩ := LineSpec.contains_int_eq_true.1 h
    have hpos := (hs r hr).1
    obtain ⟨i, rfl⟩ := Int.eq_ofNat_of_zero_le (show 0 ≤ n by omega)
    exact ⟨i, LineSpec.mem_indices.2 ⟨by omega, h⟩, rfl⟩

theorem Ranged.getLast?_indices (hs : Ranged s) (hne : s ≠ []) : s.indices.getLast? = some s.max := by
  refine getLast?_of_ascending s.ascending_indices ?_ fun n hn =>
    LineSpec.le_max_of_contains (LineSpec.mem_indices.1 hn).2
  obtain ⟨r, hr, hlast⟩ := LineSpec.exists_last_eq_max hne
  obtain ⟨hpos, hle, -⟩ := hs r hr
  rw [← hlast]
  exact LineSpec.mem_indices.2 ⟨hpos.trans hle, LineSpec.contains_eq_true.2 ⟨r, hr, hle, Nat.le_refl _⟩⟩

theorem Collects.mergeSort_eq (h : Collects s [] out) (hs : Ranged s) :
    out.mergeSort = s.indices.map fun i : Nat => (i : Int) := by
  have hsorted : out.mergeSort.Pairwise (· < ·) := by
    have hle : out.mergeSort.Pairwise (· ≤ ·) := by simpa using List.pairwise_mergeSort' (· ≤ ·) out
    have hnodup : out.mergeSort.Nodup := (List.mergeSort_perm out _).nodup_iff.2 (h.nodup List.nodup_nil)
    exact (hle.and hnodup).imp fun hab => lt_of_le_of_ne hab.1 hab.2
  have hindices : (s.indices.map fun i : Nat => (i : Int)).Pairwise (· < ·) :=
    s.ascending_indices.map _ fun _ _ hlt => by exact_mod_cast hlt
  refine hsorted.eq_of_mem_iff hindices fun n => ?_
  rw [List.mem_mergeSort, h.mem_iff hs, List.mem_map, hs.mem_indices_iff]
  simp

/-- The ways to look through a selection agree if the largest word is not among its numbers. -/
theorem Ranged.coherent (hs : Ranged s) (hmax : s.max < maxInt) : s.Coherent where
  mem_indices_iff := hs.mem_indices_iff
  ascending := s.ascending_indices
  max_eq := by
    by_cases hne : s = []
    · subst hne
      rfl
    · rw [hs.getLast?_indices hne]
      rfl
  collects := by
    refine ⟨exists_collects (fun r hr => ?_) [], fun out h => h.mergeSort_eq hs⟩
    exact (LineSpec.max_le_iff.1 (Nat.le_refl _) r hr).trans_lt hmax

end

theorem Spells.ne_nil {spec : Bytes} {s : LineSpec} (h : Spells spec (some s)) : s ≠ [] := by
  cases h with
  | elements hne h =>
    rintro rfl
    exact hne (List.forall₂_nil_right_iff.1 h)

/-- **A selection is read as it is written, and every way to look through it finds the same lines.** The texts
that are accepted are white space and lists of elements between commas. A number is contained in what is read
exactly when it is listed, the numbers are listed in ascending order, and the largest is the last of them. A
blank selection lists none. -/
theorem parseLines_selects (spec : Bytes) :
    (∀ r, parseLines spec = .ok r ↔ Spells spec r) ∧
    ∀ r, parseLines spec = .ok r → (r.getD []).max < maxInt →
      (r.getD []).Coherent ∧ ((r.getD []).indices = [] ↔ r = none) := by
  refine ⟨fun r => parseLines_eq_ok_iff, fun r hread hmax => ?_⟩
  cases r with
  | none => exact ⟨Ranged.coherent (List.forall_mem_nil _) hmax, iff_of_true rfl rfl⟩
  | some s =>
    have hs := ranged_of_parseLines hread
    have hlast := hs.getLast?_indices (parseLines_eq_ok_iff.1 hread).ne_nil
    have hne : s.indices ≠ [] := by
      intro hnil
      rw [hnil] at hlast
      cases hlast
    exact ⟨hs.coherent hmax, iff_of_false hne (Option.some_ne_none s)⟩

/-- Ranges that overlap and come in no order, with a sign, a leading zero and white space. -/
theorem parseLines_selects_overlapping :
    parseLines " 6, 1 -\t+03,2\n" = .ok (some [⟨6, 6⟩, ⟨1, 3⟩, ⟨2, 2⟩]) ∧
      LineSpec.max [⟨6, 6⟩, ⟨1, 3⟩, ⟨2, 2⟩] < maxInt ∧
      Spells " 6, 1 -\t+03,2\n" (some [⟨6, 6⟩, ⟨1, 3⟩, ⟨2, 2⟩]) ∧
      LineSpec.Coherent [⟨6, 6⟩, ⟨1, 3⟩, ⟨2, 2⟩] := by
  have hread : parseLines " 6, 1 -\t+03,2\n" = .ok (some [⟨6, 6⟩, ⟨1, 3⟩, ⟨2, 2⟩]) := by decide
  have hmax : LineSpec.max [⟨6, 6⟩, ⟨1, 3⟩, ⟨2, 2⟩] < maxInt := by decide
  exact ⟨hread, hmax, ((parseLines_selects _).1 _).1 hread, ((parseLines_selects _).2 _ hread hmax).1⟩

end Bindery.Listing
