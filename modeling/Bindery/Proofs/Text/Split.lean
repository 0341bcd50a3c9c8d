import Bindery.Text.Basic

/-!
# Splitting texts

A text is split at a separator into pieces that do not hold it, and joining the pieces gives the text
back. What stands before the first separator and what stands after it are therefore told by the whole
(`append_cons_inj`).
-/

namespace Bindery.Text

theorem splitOn_cons {sep : UInt8} {rest first : Bytes} {more : List Bytes}
    (h : splitOn sep rest = first :: more) (c : UInt8) : splitOn sep (c :: rest) =
      if c = sep then [] :: first :: more else (c :: first) :: more := by
  rw [splitOn, h]

theorem exists_splitOn (sep : UInt8) (s : Bytes) : ∃ first more, splitOn sep s = first :: more := by
  induction s with
  | nil => exact ⟨[], [], rfl⟩
  | cons c rest ih =>
    obtain ⟨first, more, h⟩ := ih
    by_cases hc : c = sep
    · exact ⟨[], first :: more, by rw [splitOn_cons h, if_pos hc]⟩
    · exact ⟨c :: first, more, by rw [splitOn_cons h, if_neg hc]⟩

theorem splitOn_ne_nil (sep : UInt8) (s : Bytes) : splitOn sep s ≠ [] := by
  obtain ⟨first, more, h⟩ := exists_splitOn sep s
  rw [h]
  exact List.cons_ne_nil _ _

theorem splitOn_cons_self (sep : UInt8) (s : Bytes) : splitOn sep (sep :: s) = [] :: splitOn sep s := by
  obtain ⟨first, more, h⟩ := exists_splitOn sep s
  rw [splitOn_cons h, if_pos rfl, h]

theorem splitOn_append_cons (sep : UInt8) (a b : Bytes) :
    splitOn sep (a ++ sep :: b) = splitOn sep a ++ splitOn sep b := by
  induction a with
  | nil => exact splitOn_cons_self sep b
  | cons c a ih =>
    obtain ⟨first, more, ha⟩ := exists_splitOn sep a
    have happend : splitOn sep (a ++ sep :: b) = first :: (more ++ splitOn sep b) := by
      rw [ih, ha, List.cons_append]
    rw [List.cons_append, splitOn_cons happend, splitOn_cons ha]
    split <;> rfl

theorem splitOn_append {sep : UInt8} {a : Bytes} (h : sep ∉ a) {s first : Bytes} {more : List Bytes}
    (hs : splitOn sep s = first :: more) : splitOn sep (a ++ s) = (a ++ first) :: more := by
  induction a with
  | nil => simpa using hs
  | cons c a ih =>
    obtain ⟨hc, ha⟩ := not_or.1 (mt List.mem_cons.2 h)
    rw [List.cons_append, splitOn_cons (ih ha), if_neg (Ne.symm hc), List.cons_append]

theorem splitOn_of_notMem {sep : UInt8} {s : Bytes} (h : sep ∉ s) : splitOn sep s = [s] := by
  have happend : splitOn sep (s ++ []) = (s ++ []) :: [] := splitOn_append h rfl
  simpa using happend

theorem splitOn_joinWith {sep : UInt8} {parts : List Bytes} (hne : parts ≠ [])
    (h : ∀ c ∈ parts, sep ∉ c) : splitOn sep (joinWith [sep] parts) = parts := by
  induction parts with
  | nil => exact absurd rfl hne
  | cons c parts ih =>
    have hc : sep ∉ c := h c List.mem_cons_self
    cases parts with
    | nil => exact splitOn_of_notMem hc
    | cons d parts =>
      have hrec := ih (by simp) fun x hx => h x (List.mem_cons_of_mem _ hx)
      rw [joinWith, List.append_assoc, List.singleton_append]
      rw [splitOn_append hc (splitOn_cons_self sep _), hrec, List.append_nil]
      simp

theorem joinWith_splitOn (sep : UInt8) (s : Bytes) : joinWith [sep] (splitOn sep s) = s := by
  induction s with
  | nil => rfl
  | cons c rest ih =>
    obtain ⟨first, more, hs⟩ := exists_splitOn sep rest
    rw [splitOn_cons hs, ← ih, hs]
    split
    · next hc =>
      rw [hc]
      rfl
    · cases more with
      | nil => rfl
      | cons second more => rfl

theorem notMem_of_mem_splitOn {sep : UInt8} {s piece : Bytes} (h : piece ∈ splitOn sep s) :
    sep ∉ piece := by
  induction s generalizing piece with
  | nil =>
    obtain rfl : piece = [] := List.mem_singleton.1 h
    exact List.not_mem_nil
  | cons c rest ih =>
    obtain ⟨first, more, hs⟩ := exists_splitOn sep rest
    have hfirst : sep ∉ first := ih (by simp [hs])
    have hmore : ∀ p ∈ more, sep ∉ p := fun p hp => ih (by simp [hs, hp])
    rw [splitOn_cons hs] at h
    split at h
    · rcases List.mem_cons.1 h with rfl | h
      · exact List.not_mem_nil
      · rcases List.mem_cons.1 h with rfl | h
        · exact hfirst
        · exact hmore _ h
    · next hc =>
      rcases List.mem_cons.1 h with rfl | h
      · simp only [List.mem_cons, not_or]
        exact ⟨Ne.symm hc, hfirst⟩
      · exact hmore _ h

theorem getLast?_cons_ne {α : Type} {a b : α} {l : List α} (ha : a ≠ b) (h : l.getLast? ≠ some b) :
    (a :: l).getLast? ≠ some b := by
  cases l with
  | nil =>
    intro hlast
    exact ha (Option.some.inj hlast)
  | cons c l => rwa [List.getLast?_cons_cons]

theorem joinWith_append_singleton {sep : Bytes} {parts : List Bytes} (hne : parts ≠ []) (last : Bytes) :
    joinWith sep (parts ++ [last]) = joinWith sep parts ++ sep ++ last := by
  induction parts with
  | nil => exact absurd rfl hne
  | cons c parts ih =>
    cases parts with
    | nil => simp [joinWith]
    | cons d parts =>
      have hrec := ih (by simp)
      simp only [List.cons_append, joinWith] at hrec ⊢
      rw [hrec]
      simp only [List.append_assoc]

theorem exists_splitOn_append (sep : UInt8) (a : Bytes) :
    ∃ front last, splitOn sep a = front ++ [last] ∧
      ∀ b, sep ∉ b → splitOn sep (a ++ b) = front ++ [last ++ b] := by
  induction a with
  | nil => exact ⟨[], [], rfl, fun b hb => splitOn_of_notMem hb⟩
  | cons c a ih =>
    obtain ⟨front, last, ha, happend⟩ := ih
    by_cases hc : c = sep
    · subst hc
      refine ⟨[] :: front, last, by rw [splitOn_cons_self, ha]; rfl, fun b hb => ?_⟩
      rw [List.cons_append, splitOn_cons_self, happend b hb]
      rfl
    · cases front with
      | nil =>
        refine ⟨[], c :: last, ?_, fun b hb => ?_⟩
        · rw [splitOn_cons ha, if_neg hc, List.nil_append]
        · rw [List.cons_append, splitOn_cons (happend b hb), if_neg hc, List.cons_append, List.nil_append]
      | cons first front =>
        refine ⟨(c :: first) :: front, last, (splitOn_cons ha c).trans (if_neg hc), fun b hb => ?_⟩
        exact (splitOn_cons (happend b hb) c).trans (if_neg hc)

/-- What stands before the first separator tells it, and the rest. -/
theorem append_cons_inj {sep : UInt8} {a a' b b' : Bytes} (h : sep ∉ a) (h' : sep ∉ a') :
    a ++ sep :: b = a' ++ sep :: b' ↔ a = a' ∧ b = b' := by
  constructor
  · intro heq
    have hsplit := congrArg (splitOn sep) heq
    rw [splitOn_append h (splitOn_cons_self sep b), splitOn_append h' (splitOn_cons_self sep b')] at hsplit
    obtain rfl : a = a' := by simpa using (List.cons.inj hsplit).1
    simpa using heq
  · rintro ⟨rfl, rfl⟩
    rfl

/-! ## The first separator -/

theorem cutByte?_eq_none_iff {sep : UInt8} {s : Bytes} : cutByte? sep s = none ↔ sep ∉ s := by
  induction s with
  | nil => simp [cutByte?]
  | cons c rest ih =>
    rw [cutByte?, List.mem_cons, not_or]
    by_cases hc : c = sep
    · simp [hc]
    · simp [hc, Ne.symm hc, ih]

theorem cutByte?_eq_some_iff {sep : UInt8} {s a b : Bytes} :
    cutByte? sep s = some (a, b) ↔ s = a ++ sep :: b ∧ sep ∉ a := by
  constructor
  · intro h
    induction s generalizing a with
    | nil => cases h
    | cons c rest ih =>
      rw [cutByte?] at h
      split at h
      · next hc =>
        obtain ⟨rfl, rfl⟩ := Prod.mk.inj (Option.some.inj h)
        exact ⟨by rw [hc, List.nil_append], List.not_mem_nil⟩
      · next hc =>
        obtain ⟨⟨a, b⟩, hrest, heq⟩ := Option.map_eq_some_iff.1 h
        obtain ⟨rfl, rfl⟩ := Prod.mk.inj heq
        obtain ⟨rfl, hmem⟩ := ih hrest
        exact ⟨rfl, mt List.mem_cons.1 (not_or.2 ⟨Ne.symm hc, hmem⟩)⟩
  · rintro ⟨rfl, hmem⟩
    induction a with
    | nil => rw [List.nil_append, cutByte?, if_pos rfl]
    | cons c a ih =>
      obtain ⟨hc, ha⟩ := not_or.1 (mt List.mem_cons.2 hmem)
      rw [List.cons_append, cutByte?, if_neg (Ne.symm hc), ih ha]
      rfl

end Bindery.Text
