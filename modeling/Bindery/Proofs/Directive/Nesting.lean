import Mathlib.Data.List.Basic
import Bindery.Proofs.Directive.Brace
import Bindery.Proofs.Directive.Depth

/-!
# Where braces can be missing

A directive whose braces are not balanced has a brace that opens a group and is not closed up to the end of
the text. The arguments of a directive are balanced, so no such brace stands in them, however deep they
are read: only a document itself can end in unbalanced braces.
-/

namespace Bindery

open Text Brace

/-! ## Unbalanced directives -/

/-- Reading groups fails for braces at one that is opened there and not closed. -/
theorem takeGroups_unbalanced {n : Nat} {s : Bytes} (h : takeGroups n s = .error .unbalanced) :
    ∃ front rest, s = front ++ 123 :: rest ∧ front.getLast? ≠ some 92 ∧ takeGroup 0 rest = none := by
  induction n generalizing s with
  | zero => cases h
  | succ n ih =>
    rw [takeGroups] at h
    split at h
    · next rest hrest =>
      obtain ⟨gap, hgap, hs⟩ : ∃ gap, (∀ c ∈ gap, isGap c) ∧ s = gap ++ 123 :: rest :=
        ⟨s.takeWhile isGap, fun c hc => List.mem_takeWhile_imp hc,
          by rw [← hrest, List.takeWhile_append_dropWhile]⟩
      split at h
      · next hgroup =>
        refine ⟨gap, rest, hs, fun hlast => ?_, hgroup⟩
        exact absurd (hgap 92 (List.mem_of_getLast? hlast)) (by decide)
      · next arg after hgroup =>
        split at h
        · next reason hmore =>
          cases h
          obtain ⟨front, rest', rfl, hlast, hopen⟩ := ih hmore
          refine ⟨gap ++ 123 :: arg ++ 125 :: front, rest', ?_, ?_, hopen⟩
          · rw [hs, takeGroup_eq_some hgroup]
            simp
          · rw [List.getLast?_append_of_ne_nil _ (List.cons_ne_nil _ _)]
            exact getLast?_cons_ne (by decide) hlast
        · cases h
    · cases h

theorem Directive.getLast?_name (d : Directive) : d.name ≠ [] ∧ d.name.getLast? ≠ some 92 := by
  cases d <;> decide

theorem readDirective?_unbalanced {rest : Bytes} {offset line : Nat} {m : Malformed}
    (h : readDirective? rest offset line = some (.malformed m)) (hm : m.reason = .unbalanced) :
    LeftOpen rest := by
  unfold readDirective? at h
  have hsplit := takeName_append false rest
  generalize takeName false rest = cut at h hsplit
  obtain ⟨name, tail⟩ := cut
  simp only at h hsplit
  split at h
  · cases h
  · next d hd =>
    obtain ⟨hne, hlast⟩ := d.getLast?_name
    rw [Directive.name_of_ofName? hd] at hne hlast
    split at h
    · split at h
      · next reason hgroups =>
        simp only [Option.some.injEq, ScanStep.malformed.injEq] at h
        subst h
        obtain rfl : reason = .unbalanced := hm
        obtain ⟨front, rest', htail, hfront, hopen⟩ := takeGroups_unbalanced hgroups
        -- The byte before the brace is the last one of the name, or of what was read behind it.
        have hbehind : (name ++ front).getLast? ≠ some 92 := by
          cases front with
          | nil => rwa [List.append_nil]
          | cons c front => rwa [List.getLast?_append_of_ne_nil _ (List.cons_ne_nil _ _)]
        obtain ⟨before, c, hcut⟩ : ∃ before c, name ++ front = before ++ [c] := by
          rcases List.eq_nil_or_concat (name ++ front) with hnil | ⟨before, c, hcut⟩
          · exact absurd (List.append_eq_nil_iff.1 hnil).1 hne
          · exact ⟨before, c, by rw [hcut, List.concat_eq_append]⟩
        rw [hcut, List.getLast?_concat] at hbehind
        refine ⟨before, c, rest', ?_, fun hc => hbehind (congrArg some hc), hopen⟩
        rw [← hsplit, htail, ← List.append_assoc, hcut]
        simp
      · simp at h
    · simp only [Option.some.injEq, ScanStep.malformed.injEq] at h
      subst h
      cases hm

theorem scanFrom_unbalanced {s : Bytes} {offset line : Nat} {m : Malformed}
    (h : scanFrom s offset line = .malformed m) (hm : m.reason = .unbalanced) : LeftOpen s := by
  induction s generalizing offset line with
  | nil => cases h
  | cons c rest ih =>
    rcases scanFrom_cons_malformed h with hread | ⟨line', hmore⟩
    · exact (readDirective?_unbalanced hread hm).of_suffix (List.suffix_cons c rest)
    · exact (ih hmore).of_suffix (List.suffix_cons c rest)

theorem Cursor.leftOpen_of_scan {c : Cursor} {m : Malformed} (h : c.scan.2 = some m)
    (hm : m.reason = .unbalanced) : LeftOpen c.rest := by
  fun_induction Cursor.scan c with
  | case1 => cases h
  | case2 c bad hnext =>
    obtain rfl := Option.some.inj h
    exact scanFrom_unbalanced hnext hm
  | case3 c before inv after hnext _ more ending hscan ih =>
    rw [hscan] at ih
    obtain ⟨-, -, hsuffix, -⟩ := scanFrom_pieces hnext
    exact (ih h).of_suffix hsuffix

theorem Balanced.reason_ne_unbalanced {s : Bytes} (h : Balanced s) {m : Malformed}
    (hm : (scan s).2 = some m) : m.reason ≠ .unbalanced := by
  intro hreason
  exact h.not_leftOpen (Cursor.leftOpen_of_scan hm hreason)

/-! ## Arguments -/

theorem Groups.balanced {args : List Bytes} {s : Bytes} (h : Groups args s) :
    ∀ arg ∈ args, Balanced arg := by
  induction h with
  | nil => exact nofun
  | cons _ harg _ ih => exact List.forall_mem_cons.2 ⟨harg, ih⟩

theorem balanced_of_mem_scan {text arg : Bytes} {inv : Invocation} (h : inv ∈ (scan text).1)
    (harg : arg ∈ inv.args) : Balanced arg := by
  obtain ⟨-, groups, hgroups, -⟩ := (standsIn_of_mem_scan h).written
  exact hgroups.balanced arg harg

/-- A text that is read as an argument of a directive in a text, or in one of its arguments, and so on. -/
inductive ArgumentIn (text : Bytes) : Bytes → Prop
  | here {inv : Invocation} {arg : Bytes} (h : inv ∈ (scan text).1) (harg : arg ∈ inv.args) :
    ArgumentIn text arg
  | inside {outer arg : Bytes} {inv : Invocation} (houter : ArgumentIn text outer)
    (h : inv ∈ (scan outer).1) (harg : arg ∈ inv.args) : ArgumentIn text arg

theorem ArgumentIn.balanced {text arg : Bytes} (h : ArgumentIn text arg) : Balanced arg := by
  cases h with
  | here h harg => exact balanced_of_mem_scan h harg
  | inside _ h harg => exact balanced_of_mem_scan h harg

theorem MalformedIn.of_unbalanced {text : Bytes} {m : Malformed} (h : MalformedIn text m)
    (hm : m.reason = .unbalanced) : (scan text).2 = some m := by
  induction h with
  | here h => exact h
  | inside h harg _ ih =>
    exact absurd hm ((balanced_of_mem_scan h harg).reason_ne_unbalanced (ih hm))

theorem Malformed.Reason.eq_unbalanced {r : Malformed.Reason} (h : r.message = bytes "unbalanced braces") :
    r = .unbalanced := by
  cases r with
  | noArguments => exact absurd h (by decide)
  | missingGroup => exact absurd h (by decide)
  | unbalanced => rfl

/-- What a scan ends in is one of the answers of the scanner, and its only fault. -/
theorem Scanner.scan_of_answer {text : Bytes} {n : Nat} {m : Malformed}
    (h : (Scanner.ofText text).answer n = .error m) : (scan text).2 = some m := by
  rw [Scanner.ofText, Scanner.answer_active] at h
  change (Scanner.answers (scan text))[n]?.getD (.ok none) = .error m at h
  have hmem : .error m ∈ Scanner.answers (scan text) := by
    cases hget : (Scanner.answers (scan text))[n]? with
    | none =>
      rw [hget] at h
      cases h
    | some answer =>
      rw [hget] at h
      exact h ▸ List.mem_of_getElem? hget
  rcases List.mem_append.1 hmem with hmem | hmem
  · obtain ⟨inv, -, hinv⟩ := List.mem_map.1 hmem
    cases hinv
  · obtain ⟨bad, hbad, heq⟩ := List.mem_map.1 hmem
    obtain rfl : bad = m := Except.error.inj heq
    exact Option.mem_toList.1 hbad

/-- **Brace faults** are those of a document itself: scanning an argument of a directive, at any depth,
never tells of unbalanced braces, and of all that is malformed in a template only what ends the scan of
its text can have them. -/
theorem brace_faults_at_top (text : Bytes) :
    (∀ arg, ArgumentIn text arg → ∀ n m, (Scanner.ofText arg).answer n = .error m →
        m.reason.message ≠ bytes "unbalanced braces") ∧
      ∀ line, (Template.ofText text).Each (fun _ _ => True)
        (fun m => m.reason.message = bytes "unbalanced braces" → (scan text).2 = some m) line := by
  constructor
  · intro arg harg n m hm hmessage
    exact harg.balanced.reason_ne_unbalanced (Scanner.scan_of_answer hm)
      (Malformed.Reason.eq_unbalanced hmessage)
  · intro line
    refine (Template.each_ofText text line).imp ?_ ?_ _ _
    · exact fun _ _ _ => trivial
    · intro m hm hmessage
      exact hm.of_unbalanced (Malformed.Reason.eq_unbalanced hmessage)

/-- The argument ends behind an escaped brace: it is read to its end, and only the text is unbalanced. -/
theorem brace_faults_at_top_escaped :
    let text := bytes "\\meta\x7b\\definition\x7ba\\\x7b\x7d\x7d\\meta\x7b\\\x7d"
    let arg := bytes "\\definition\x7ba\\\x7b\x7d"
    ArgumentIn text arg ∧
      (Scanner.ofText arg).answer 0 = .error { reason := .missingGroup, directive := .definition, line := 1 } ∧
      Malformed.Reason.missingGroup.message ≠ bytes "unbalanced braces" ∧
      (scan text).2 = some { reason := .unbalanced, directive := .metadata, line := 1 } := by
  intro text arg
  have harg : ArgumentIn text arg := by
    have hmem : { directive := .metadata, args := [arg], start := 0, stop := 23, line := 1 } ∈
        (scan text).1 := by decide +kernel
    exact .here hmem (List.mem_singleton_self arg)
  have hanswer : (Scanner.ofText arg).answer 0 =
      .error { reason := .missingGroup, directive := .definition, line := 1 } := by decide +kernel
  have hmessage := (brace_faults_at_top text).1 arg harg 0 _ hanswer
  exact ⟨harg, hanswer, hmessage, by decide +kernel⟩

end Bindery
