import Mathlib.Data.List.Pairwise
import Bindery.Proofs.Directive.Depth

/-!
# Directives are counted once

Occurrences in one text do not overlap, and neither do the arguments of an occurrence, so there is one way
only from a text through arguments to what stands at an offset of it. A directive at any depth is therefore
counted at one line.
-/

namespace Bindery

open Text

/-! ## Groups -/

/-- Groups in a row before another one are cut off in one way only. -/
theorem Groups.cut_unique {front : List Bytes} {before before' gap gap' rest rest' : Bytes}
    (h : Groups front before) (h' : Groups front before') (hgap : ∀ c ∈ gap, isGap c)
    (hgap' : ∀ c ∈ gap', isGap c)
    (heq : before ++ (gap ++ 123 :: rest) = before' ++ (gap' ++ 123 :: rest')) :
    before = before' ∧ gap = gap' ∧ rest = rest' := by
  have htaken : takeGroups front.length (before ++ (gap ++ 123 :: rest)) =
      .ok (front, gap ++ 123 :: rest) := takeGroups_iff.2 ⟨rfl, before, h, rfl⟩
  have htaken' : takeGroups front.length (before' ++ (gap' ++ 123 :: rest')) =
      .ok (front, gap' ++ 123 :: rest') := takeGroups_iff.2 ⟨rfl, before', h', rfl⟩
  rw [heq, htaken'] at htaken
  have hafter : gap' ++ 123 :: rest' = gap ++ 123 :: rest := by simpa using htaken
  have hrest : 123 :: rest = 123 :: rest' := by
    rw [← dropWhile_isGap hgap rest, ← hafter, dropWhile_isGap hgap']
  rw [hafter] at heq
  obtain rfl := List.append_cancel_right heq
  rw [hrest] at hafter
  exact ⟨rfl, (List.append_cancel_right hafter).symm, (List.cons.inj hrest).2⟩

theorem Groups.length_lt {front others : List Bytes} {before all gap arg rest tail : Bytes}
    (h : Groups front before) (hall : Groups (front ++ arg :: others) all) (hgap : ∀ c ∈ gap, isGap c)
    (heq : before ++ (gap ++ 123 :: rest) = all ++ tail) :
    (before ++ gap).length + 1 + arg.length < all.length := by
  obtain ⟨before', gap', after, hfront, hgap', rfl⟩ := hall.exists_of_append
  have hcut : before ++ (gap ++ 123 :: rest) =
      before' ++ (gap' ++ 123 :: (arg ++ 125 :: after ++ tail)) := by simpa using heq
  obtain ⟨rfl, rfl, -⟩ := h.cut_unique hfront hgap hgap' hcut
  simp only [List.length_append, List.length_cons]
  omega

/-! ## Arguments -/

theorem ArgumentAt.lt_stop {text arg : Bytes} {inv : Invocation} {offset : Nat}
    (h : ArgumentAt text inv arg offset) (hstands : StandsIn text inv) :
    offset + arg.length < inv.stop := by
  obtain ⟨front, others, before, gap, after, hargs, hfront, hgap, htext, rfl⟩ := h
  obtain ⟨-, groups, hgroups, hspan⟩ := hstands.written
  have hlength := congrArg List.length hspan
  rw [List.extract_eq_take_drop] at hspan hlength
  rw [← List.take_append_drop (inv.stop - inv.start) (text.drop inv.start), hspan] at htext
  have hrow : before ++ (gap ++ 123 :: (arg ++ 125 :: after)) =
      123 :: groups ++ (text.drop inv.start).drop (inv.stop - inv.start) := by
    simpa using htext.symm
  have hlt := hfront.length_lt (hargs ▸ hgroups) hgap hrow
  have hstop := hstands.stop_le
  have hle := hstands.start_lt_stop
  simp only [List.length_append, List.length_cons, List.length_take, List.length_drop] at hlength hlt ⊢
  omega

theorem ArgumentAt.within {text arg : Bytes} {inv : Invocation} {offset i : Nat}
    (h : ArgumentAt text inv arg offset) (hstands : StandsIn text inv) (hi : i < arg.length) :
    inv.start < offset + i ∧ offset + i < inv.stop := by
  have hstart := h.start_lt
  have hstop := h.lt_stop hstands
  omega

/-- Two arguments of an occurrence are the same, or one ends before the other begins. -/
theorem ArgumentAt.eq_or_lt {text arg arg' : Bytes} {inv : Invocation} {offset offset' : Nat}
    (h : ArgumentAt text inv arg offset) (h' : ArgumentAt text inv arg' offset') :
    (arg = arg' ∧ offset = offset') ∨ offset + arg.length < offset' ∨
      offset' + arg'.length < offset := by
  obtain ⟨front, others, before, gap, after, hargs, hfront, hgap, htext, rfl⟩ := h
  obtain ⟨front', others', before', gap', after', hargs', hfront', hgap', htext', rfl⟩ := h'
  have hrow : before ++ (gap ++ 123 :: (arg ++ 125 :: after)) =
      before' ++ (gap' ++ 123 :: (arg' ++ 125 :: after')) := by
    simpa using htext.symm.trans htext'
  rw [hargs] at hargs'
  simp only [List.length_append, List.length_cons]
  -- Either the arguments come after the same groups, or one is among the groups before the other.
  rcases List.append_eq_append_iff.1 hargs' with ⟨between, rfl, hrest⟩ | ⟨between, rfl, hrest⟩
  · rcases between with - | ⟨first, between⟩
    · rw [List.append_nil] at hfront'
      obtain ⟨rfl, rfl, -⟩ := hfront.cut_unique hfront' hgap hgap' hrow
      exact .inl ⟨(List.cons.inj hrest).1, rfl⟩
    · obtain ⟨rfl, -⟩ := List.cons.inj hrest
      have hlt := hfront.length_lt hfront' hgap hrow
      rw [List.length_append] at hlt
      omega
  · rcases between with - | ⟨first, between⟩
    · rw [List.append_nil] at hfront
      obtain ⟨rfl, rfl, -⟩ := hfront.cut_unique hfront' hgap hgap' hrow
      exact .inl ⟨(List.cons.inj hrest).1.symm, rfl⟩
    · obtain ⟨rfl, -⟩ := List.cons.inj hrest
      have hlt := hfront'.length_lt hfront hgap' hrow.symm
      rw [List.length_append] at hlt
      omega

/-! ## Directives -/

/-- Occurrences in one text that share a byte are the same. -/
theorem eq_of_mem_scan {text : Bytes} {inv inv' : Invocation} {i : Nat} (h : inv ∈ (scan text).1)
    (h' : inv' ∈ (scan text).1) (hi : inv.start ≤ i ∧ i < inv.stop)
    (hi' : inv'.start ≤ i ∧ i < inv'.stop) : inv = inv' := by
  obtain ⟨_, -, -, hfound⟩ := exists_occurrences_scan text
  by_contra hne
  have hordered : (scan text).1.Pairwise fun a b => a.stop ≤ b.start ∨ b.stop ≤ a.start :=
    hfound.ordered.imp Or.inl
  have : Std.Symm fun a b : Invocation => a.stop ≤ b.start ∨ b.stop ≤ a.start := ⟨fun _ _ => Or.symm⟩
  have hapart := hordered.forall h h' hne
  omega

/-- **A directive is counted once**: what stands at an offset is counted at one line. -/
theorem Counted.unique {text : Bytes} {i line line' missed missed' : Nat} {d d' : Directive}
    (h : Counted text i d line missed) (h' : Counted text i d' line' missed') :
    d = d' ∧ line = line' ∧ missed = missed' := by
  induction h generalizing d' line' missed' with
  | @here text inv h =>
    have hspan := (standsIn_of_mem_scan h).start_lt_stop
    generalize hi : inv.start = i at h'
    cases h' with
    | @here _ inv' h' =>
      have hspan' := (standsIn_of_mem_scan h').start_lt_stop
      obtain rfl := eq_of_mem_scan h h' ⟨hi.le, hi ▸ hspan⟩ ⟨le_rfl, hspan'⟩
      exact ⟨rfl, rfl, rfl⟩
    | @inside _ arg' inv' _ _ _ _ _ h' harg' hinner' =>
      have hwithin' := harg'.within (standsIn_of_mem_scan h') hinner'.stands.1.lt_length
      obtain rfl := eq_of_mem_scan h h' ⟨hi.le, hi ▸ hspan⟩ ⟨hwithin'.1.le, hwithin'.2⟩
      omega
  | @inside text arg inv offset i line missed d h harg hinner ih =>
    have hlt := hinner.stands.1.lt_length
    have hwithin := harg.within (standsIn_of_mem_scan h) hlt
    generalize hp : offset + i = p at h'
    cases h' with
    | @here _ inv' h' =>
      have hspan' := (standsIn_of_mem_scan h').start_lt_stop
      obtain rfl := eq_of_mem_scan h h' ⟨hp ▸ hwithin.1.le, hp ▸ hwithin.2⟩ ⟨le_rfl, hspan'⟩
      omega
    | @inside _ arg' inv' offset' i' _ _ _ h' harg' hinner' =>
      have hlt' := hinner'.stands.1.lt_length
      have hwithin' := harg'.within (standsIn_of_mem_scan h') hlt'
      obtain rfl := eq_of_mem_scan h h' ⟨hp ▸ hwithin.1.le, hp ▸ hwithin.2⟩
        ⟨hwithin'.1.le, hwithin'.2⟩
      rcases harg.eq_or_lt harg' with ⟨rfl, rfl⟩ | hapart | hapart
      · obtain rfl : i = i' := by omega
        obtain ⟨rfl, rfl, rfl⟩ := ih hinner'
        exact ⟨rfl, rfl, rfl⟩
      · omega
      · omega

end Bindery
