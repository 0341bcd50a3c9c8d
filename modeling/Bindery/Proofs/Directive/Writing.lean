import Mathlib.Data.List.Basic
import Bindery.Proofs.Directive.Brace
import Bindery.Proofs.Directive.Scanner

/-!
# Writing directives

A directive is written as a backslash, its name and its arguments in braces, with white space between the
groups. The scanner undoes this: whatever text stands in front, as long as it names no directive itself,
and whatever follows, it finds the directive that was written and goes on right behind it.
-/

namespace Bindery

open Text Brace

def writeGroups : List (Bytes × Bytes) → Bytes
  | [] => []
  | (gap, arg) :: more => gap ++ 123 :: (arg ++ 125 :: writeGroups more)

/-- A directive with its arguments. The first group stands directly after the name, the others behind
white space. -/
def Directive.write (d : Directive) (first : Bytes) (others : List (Bytes × Bytes)) : Bytes :=
  92 :: (d.name ++ writeGroups (([], first) :: others))

theorem groups_writeGroups {groups : List (Bytes × Bytes)}
    (hgaps : ∀ gap ∈ groups.map Prod.fst, ∀ c ∈ gap, isGap c)
    (hargs : ∀ arg ∈ groups.map Prod.snd, Balanced arg) :
    Groups (groups.map Prod.snd) (writeGroups groups) := by
  induction groups with
  | nil => exact .nil
  | cons group groups ih =>
    obtain ⟨hgap, hgaps⟩ := List.forall_mem_cons.1 hgaps
    obtain ⟨harg, hargs⟩ := List.forall_mem_cons.1 hargs
    exact .cons hgap harg (ih hgaps hargs)

theorem Directive.writes_write {d : Directive} {first : Bytes} {others : List (Bytes × Bytes)}
    (harity : others.length + 1 = d.arity)
    (hgaps : ∀ gap ∈ others.map Prod.fst, ∀ c ∈ gap, isGap c)
    (hargs : ∀ arg ∈ first :: others.map Prod.snd, Balanced arg) :
    Writes d (first :: others.map Prod.snd) (d.write first others) := by
  have hgroups : Groups (first :: others.map Prod.snd) (writeGroups (([], first) :: others)) := by
    have hgaps' : ∀ gap ∈ (([], first) :: others).map Prod.fst, ∀ c ∈ gap, isGap c :=
      List.forall_mem_cons.2 ⟨nofun, hgaps⟩
    exact groups_writeGroups hgaps' hargs
  exact ⟨by simpa using harity, _, hgroups, rfl⟩

/-! ## Reading back -/

theorem Directive.takeName_name (d : Directive) (rest : Bytes) :
    takeName false (d.name ++ 123 :: rest) = (d.name, 123 :: rest) := by
  have hname : (takeName false (d.name ++ 123 :: rest)).1 = d.name := by
    rw [takeName_append_cons (by decide)]
    cases d <;> decide
  have hcut := takeName_append false (d.name ++ 123 :: rest)
  rw [hname] at hcut
  exact Prod.ext hname (List.append_cancel_left hcut)

theorem readDirective?_of_writes {d : Directive} {args : List Bytes} {s : Bytes}
    (h : Writes d args s) {rest after : Bytes} (hs : 92 :: rest = s ++ after) (offset line : Nat) :
    readDirective? rest offset line =
      some (.found [] { directive := d, args, start := offset, stop := offset + s.length, line }
        { rest := after, offset := offset + s.length, line := line + newlines s }) := by
  obtain ⟨hlength, groups, hgroups, rfl⟩ := h
  obtain rfl : rest = d.name ++ 123 :: (groups ++ after) := by simpa using hs
  have htaken : takeGroups d.arity (123 :: (groups ++ after)) = .ok (args, after) :=
    takeGroups_iff.2 ⟨hlength, _, hgroups, rfl⟩
  have hused : (d.name ++ 123 :: (groups ++ after)).length + 1 - after.length =
      (92 :: (d.name ++ 123 :: groups)).length := by
    simp only [List.length_append, List.length_cons]
    omega
  have hconsumed : (92 :: (d.name ++ 123 :: (groups ++ after))).take
      (92 :: (d.name ++ 123 :: groups)).length = 92 :: (d.name ++ 123 :: groups) := by
    rw [hs, List.take_left]
  simp only [readDirective?, d.takeName_name, Directive.ofName?_name, htaken, hused, hconsumed]

theorem readDirective?_of_unnamed {rest : Bytes} (h : ∀ d : Directive, ¬ LongestName d.name rest)
    (offset line : Nat) : readDirective? rest offset line = none := by
  have hname : Directive.ofName? (takeName false rest).1 = none := by
    rw [Option.eq_none_iff_forall_ne_some]
    exact fun d hd => h d (longestName_name_iff.2 hd)
  simp [readDirective?, hname]

theorem unnamed_cons {c : UInt8} {s : Bytes} (h : Unnamed (c :: s) 0 (c :: s).length) :
    (c = 92 → ∀ d : Directive, ¬ LongestName d.name s) ∧ Unnamed s 0 s.length := by
  constructor
  · rintro rfl d hd
    exact h 0 d (Nat.le_refl 0) (Nat.succ_pos _) ⟨rfl, hd⟩
  · intro k d _ hk hd
    exact h (k + 1) d (Nat.zero_le _) (Nat.succ_lt_succ hk) hd

/-- Text that names no directive is passed, up to the backslash of a directive that is read. -/
theorem scanFrom_append {front rest : Bytes} (hfront : Unnamed front 0 front.length) {offset line : Nat}
    {inv : Invocation} {after : Cursor}
    (hread : readDirective? rest (offset + front.length) (line + newlines front) =
      some (.found [] inv after)) :
    scanFrom (front ++ 92 :: rest) offset line = .found front inv after := by
  induction front generalizing offset line with
  | nil =>
    have hread' : readDirective? rest offset line = some (.found [] inv after) := hread
    have hbackslash : (92 : UInt8) = '\\' := by decide
    rw [List.nil_append, scanFrom, if_pos hbackslash, hread', Option.getD_some]
  | cons c front ih =>
    obtain ⟨hname, hmore⟩ := unnamed_cons hfront
    have hoffset : offset + 1 + front.length = offset + (c :: front).length := by
      rw [List.length_cons]
      omega
    have hline : (if c = '\n' then line + 1 else line) + newlines front = line + newlines (c :: front) := by
      simp only [newlines, List.count_cons, beq_iff_eq]
      split
      · next hc =>
        rw [if_pos (show c = 10 from hc)]
        omega
      · next hc =>
        rw [if_neg (show ¬ c = 10 from hc)]
        rfl
    have honward : scanFrom (front ++ 92 :: rest) (offset + 1) (if c = '\n' then line + 1 else line) =
        .found front inv after := ih hmore (by rw [hoffset, hline, hread])
    rw [List.cons_append, scanFrom, honward]
    split
    · next hc =>
      have hnone : readDirective? (front ++ 92 :: rest) offset line = none := by
        apply readDirective?_of_unnamed
        intro d hd
        exact hname hc d ((longestName_append_iff (by decide) rest).1 hd)
      rw [hnone]
      rfl
    · rfl

/-- **Scanning undoes writing**: a directive that is written with arguments in which braces match, behind
a text that names none, is the next one that the scanner finds, with its place; it goes on behind it. -/
theorem next_of_write {d : Directive} {first front : Bytes} {others : List (Bytes × Bytes)}
    (harity : others.length + 1 = d.arity)
    (hgaps : ∀ gap ∈ others.map Prod.fst, ∀ c ∈ gap, isGap c)
    (hargs : ∀ arg ∈ first :: others.map Prod.snd, Matched arg ∧ arg.getLast? ≠ some 92)
    (hfront : Unnamed front 0 front.length) (suffix : Bytes) :
    (Scanner.ofText (front ++ d.write first others ++ suffix)).next =
      (.ok (some
          { directive := d
            args := first :: others.map Prod.snd
            start := front.length
            stop := front.length + (d.write first others).length
            line := 1 + newlines front }),
        .active
          { rest := suffix
            offset := front.length + (d.write first others).length
            line := 1 + newlines front + newlines (d.write first others) }) := by
  have hwrites := Directive.writes_write harity hgaps fun arg harg => balanced_iff.2 (hargs arg harg)
  have hrest : 92 :: (d.name ++ writeGroups (([], first) :: others) ++ suffix) =
      d.write first others ++ suffix := rfl
  have hread := readDirective?_of_writes hwrites hrest (0 + front.length) (1 + newlines front)
  have hscan := scanFrom_append hfront hread
  have htext : front ++ d.write first others ++ suffix = front ++ (d.write first others ++ suffix) :=
    List.append_assoc _ _ _
  rw [Nat.zero_add] at hscan
  have hnext : Cursor.next { rest := front ++ (d.write first others ++ suffix) } = _ := hscan
  rw [htext, Scanner.ofText, Scanner.next, hnext]

/-- In front stand half a name, an unknown command and a backslash, and in the arguments a directive and
braces that do not count. -/
theorem next_of_write_nested :
    let front := bytes "a \\rel. \\metadata\x7b\n\\"
    let others := [(bytes " \r\n\t", bytes "\\meta\x7bt\x7d"), ([], bytes "\\\\\x7b\n")]
    Unnamed front 0 front.length ∧
      (Scanner.ofText (front ++ Directive.definition.write (bytes "x\\\x7d") others ++ bytes "\x7d")).next.1 =
        .ok (some
          { directive := .definition
            args := [bytes "x\\\x7d", bytes "\\meta\x7bt\x7d", bytes "\\\\\x7b\n"]
            start := 20
            stop := 56
            line := 2 }) := by
  intro front others
  have hfront : Unnamed front 0 front.length := by decide +kernel
  have hnext : (Scanner.ofText (front ++ Directive.definition.write (bytes "x\\\x7d") others ++
      bytes "\x7d")).next = _ :=
    next_of_write rfl (by decide +kernel) (by decide +kernel) hfront (bytes "\x7d")
  exact ⟨hfront, congrArg Prod.fst hnext⟩

end Bindery
