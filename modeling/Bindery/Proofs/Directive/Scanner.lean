import Mathlib.Data.List.Basic
import Bindery.Proofs.Directive.Grammar

/-!
# The scanner finds what is written

Where directives stand in a text is said without the scanner: a backslash with the name of a directive
after it, and then its groups. What one step of the scanner finds is right about the text from its
place on, so the list of all that it finds is sound, in order and complete. The scanner that is asked
again and again hands out this list, and nothing after it.
-/

namespace Bindery

open Text

/-! ## Where directives stand -/

/-- The backslash at an offset is followed by the name of a directive, and by no longer name. -/
def NamesAt (text : Bytes) (i : Nat) (d : Directive) : Prop :=
  text[i]? = some 92 ∧ LongestName d.name (text.drop (i + 1))

/-- A directive with its arguments as it is written: the first group directly after the name. -/
def Writes (d : Directive) (args : List Bytes) (s : Bytes) : Prop :=
  args.length = d.arity ∧ ∃ groups, Groups args (123 :: groups) ∧ s = 92 :: (d.name ++ 123 :: groups)

/-- An occurrence is what stands in the text, from its first byte to its last. -/
structure StandsIn (text : Bytes) (inv : Invocation) : Prop where
  start_lt_stop : inv.start < inv.stop
  stop_le : inv.stop ≤ text.length
  named : NamesAt text inv.start inv.directive
  written : Writes inv.directive inv.args (text.extract inv.start inv.stop)
  line : inv.line = 1 + newlines (text.take inv.start)

/-- A directive is named at an offset, but none is written there. -/
structure MalformedAt (text : Bytes) (i : Nat) (m : Malformed) : Prop where
  named : NamesAt text i m.directive
  unwritten : ∀ args s, Writes m.directive args s → ¬ s <+: text.drop i
  line : m.line = 1 + newlines (text.take i)

/-- No directive is named from one offset up to another. -/
def Unnamed (text : Bytes) (i j : Nat) : Prop := ∀ k d, i ≤ k → k < j → ¬ NamesAt text k d

instance (text : Bytes) (i : Nat) (d : Directive) : Decidable (NamesAt text i d) :=
  decidable_of_iff (text[i]? = some 92 ∧ Directive.ofName? (takeName false (text.drop (i + 1))).1 = some d)
    (and_congr_right' longestName_name_iff.symm)

instance (text : Bytes) (i j : Nat) : Decidable (Unnamed text i j) :=
  decidable_of_iff (∀ k < j, i ≤ k → ∀ d ∈ Directive.all, ¬ NamesAt text k d)
    ⟨fun h k d hi hj => h k hj hi d d.mem_all, fun h k hj hi d _ => h k d hi hj⟩

theorem NamesAt.lt_length {text : Bytes} {i : Nat} {d : Directive} (h : NamesAt text i d) :
    i < text.length :=
  (List.getElem?_eq_some_iff.1 h.1).1

theorem Groups.ne_nil {args : List Bytes} {s : Bytes} (h : Groups args s) (hargs : args ≠ []) :
    s ≠ [] := by
  cases h with
  | nil => exact absurd rfl hargs
  | cons => simp

/-! ## Reading one directive -/

section Read

variable {rest : Bytes} {offset line : Nat}

theorem readDirective?_eq_none (h : readDirective? rest offset line = none) (d : Directive) :
    ¬ LongestName d.name rest := by
  intro hname
  rw [longestName_name_iff] at hname
  simp [readDirective?, hname] at h

theorem readDirective?_eq_found {before : Bytes} {inv : Invocation} {after : Cursor}
    (h : readDirective? rest offset line = some (.found before inv after)) :
    LongestName inv.directive.name rest ∧ inv.start = offset ∧ inv.line = line ∧
      ∃ s, Writes inv.directive inv.args s ∧ 92 :: rest = s ++ after.rest ∧
        inv.stop = offset + s.length ∧
        after = { rest := after.rest, offset := inv.stop, line := line + newlines s } := by
  unfold readDirective? at h
  have hsplit := takeName_append false rest
  generalize hcut : takeName false rest = cut at h hsplit
  obtain ⟨name, tail⟩ := cut
  simp only at h hsplit
  split at h
  · cases h
  · next d hd =>
    have hname : LongestName d.name rest := longestName_name_iff.2 (by rwa [hcut])
    split at h
    · next tail groups =>
      split at h
      · simp at h
      · next args after' hgroups =>
        simp only [Option.some.injEq, ScanStep.found.injEq] at h
        obtain ⟨-, rfl, rfl⟩ := h
        obtain ⟨hlength, used, hused, htail⟩ := takeGroups_iff.1 hgroups
        have hne : used ≠ [] := hused.ne_nil (by
          rintro rfl
          exact d.arity_ne_zero hlength.symm)
        obtain ⟨b, groups', rfl⟩ := List.exists_cons_of_ne_nil hne
        obtain ⟨rfl, rfl⟩ := List.cons.inj htail
        have hrest : 92 :: rest = 92 :: (d.name ++ 123 :: groups') ++ after' := by
          rw [Directive.name_of_ofName? hd, ← hsplit]
          simp
        have hused : rest.length + 1 - after'.length =
            (92 :: (d.name ++ 123 :: groups')).length := by
          have := congrArg List.length hrest
          simp only [List.length_cons, List.length_append] at this ⊢
          omega
        refine ⟨hname, rfl, rfl, _, ⟨hlength, groups', ‹_›, rfl⟩, hrest, by rw [← hused], ?_⟩
        rw [hused, hrest, List.take_left]
    · simp at h

/-- Where reading fails a directive is named and none is written. -/
theorem readDirective?_eq_malformed {m : Malformed}
    (h : readDirective? rest offset line = some (.malformed m)) :
    LongestName m.directive.name rest ∧ m.line = line ∧
      ∀ args s, Writes m.directive args s → ¬ s <+: 92 :: rest := by
  unfold readDirective? at h
  have hsplit := takeName_append false rest
  generalize hcut : takeName false rest = cut at h hsplit
  obtain ⟨name, tail⟩ := cut
  simp only at h hsplit
  split at h
  · cases h
  · next d hd =>
    have hname : LongestName d.name rest := longestName_name_iff.2 (by rwa [hcut])
    -- What is written would be the name with its groups, and these begin the rest of the text.
    have hwritten : ∀ args s, Writes d args s → s <+: 92 :: rest →
        ∃ groups, tail = 123 :: groups ∧ ∃ after, takeGroups d.arity tail = .ok (args, after) := by
      rintro args s ⟨hlength, groups, hgroups, rfl⟩ ⟨after, hafter⟩
      obtain rfl : tail = 123 :: groups ++ after := by
        rw [Directive.name_of_ofName? hd, ← hsplit, List.cons_append, List.append_assoc] at hafter
        exact (List.append_cancel_left (List.cons.inj hafter).2).symm
      exact ⟨_, rfl, after, takeGroups_iff.2 ⟨hlength, _, hgroups, rfl⟩⟩
    split at h
    · split at h
      · next reason hgroups =>
        simp only [Option.some.injEq, ScanStep.malformed.injEq] at h
        subst h
        refine ⟨hname, rfl, fun args s hs hprefix => ?_⟩
        obtain ⟨_, -, after, hok⟩ := hwritten args s hs hprefix
        simp [hgroups] at hok
      · simp at h
    · next hbrace =>
      simp only [Option.some.injEq, ScanStep.malformed.injEq] at h
      subst h
      refine ⟨hname, rfl, fun args s hs hprefix => ?_⟩
      obtain ⟨groups, htail, -⟩ := hwritten args s hs hprefix
      exact hbrace groups htail

end Read

/-! ## Steps -/

/-- A cursor that stands in a text: what follows, and the line, fit its offset. -/
structure Cursor.In (c : Cursor) (text : Bytes) : Prop where
  offset_le : c.offset ≤ text.length
  rest : c.rest = text.drop c.offset
  line : c.line = 1 + newlines (text.take c.offset)

/-- What a step from an offset of the text on has to say: what the first named directive after it is,
if there is one. -/
def ScanStep.Right (text : Bytes) (offset : Nat) : ScanStep → Prop
  | .done => Unnamed text offset text.length
  | .found _ inv after =>
    offset ≤ inv.start ∧ Unnamed text offset inv.start ∧ StandsIn text inv ∧
      after.offset = inv.stop ∧ after.In text
  | .malformed m => ∃ i, offset ≤ i ∧ Unnamed text offset i ∧ MalformedAt text i m

/-- A step that is right one byte further on is right here, where no directive is named. -/
theorem ScanStep.Right.push {text : Bytes} {offset : Nat} {step : ScanStep} (c : UInt8)
    (h : step.Right text (offset + 1)) (hoffset : ∀ d, ¬ NamesAt text offset d) :
    (step.push c).Right text offset := by
  have hmore : ∀ j, Unnamed text (offset + 1) j → Unnamed text offset j := by
    intro j hj k d hk hkj
    rcases Nat.eq_or_lt_of_le hk with rfl | hk
    · exact hoffset d
    · exact hj k d hk hkj
  cases step with
  | done => exact hmore _ h
  | found before inv after =>
    obtain ⟨hstart, hunnamed, hrest⟩ := h
    exact ⟨Nat.le_of_succ_le hstart, hmore _ hunnamed, hrest⟩
  | malformed m =>
    obtain ⟨i, hi, hunnamed, hm⟩ := h
    exact ⟨i, Nat.le_of_succ_le hi, hmore _ hunnamed, hm⟩

theorem readDirective?_ne_done {rest : Bytes} {offset line : Nat} :
    readDirective? rest offset line ≠ some .done := by
  unfold readDirective?
  simp only
  split
  · simp
  · split
    · split <;> simp
    · simp

/-- What is read at a backslash is right about the text. -/
theorem right_of_readDirective? {text rest : Bytes} {offset line : Nat} {step : ScanStep}
    (hrest : text.drop offset = 92 :: rest) (hline : line = 1 + newlines (text.take offset))
    (h : readDirective? rest offset line = some step) : step.Right text offset := by
  have hbackslash : text[offset]? = some 92 := by rw [← List.head?_drop, hrest, List.head?_cons]
  have htail : text.drop (offset + 1) = rest := by rw [← List.tail_drop, hrest, List.tail_cons]
  have hunnamed : Unnamed text offset offset := fun k d hk hk' => absurd hk' (Nat.not_lt_of_le hk)
  cases step with
  | done => exact absurd h readDirective?_ne_done
  | malformed m =>
    obtain ⟨hname, hm, hunwritten⟩ := readDirective?_eq_malformed h
    exact ⟨offset, Nat.le_refl _, hunnamed, ⟨hbackslash, htail ▸ hname⟩, hrest ▸ hunwritten,
      hm.trans hline⟩
  | found before inv after =>
    obtain ⟨hname, rfl, hinv, s, hs, hcut, hstop, hafter⟩ := readDirective?_eq_found h
    have hspan : (text.drop inv.start).take s.length = s := by rw [hrest, hcut, List.take_left]
    have hlength : inv.start + s.length + after.rest.length = text.length := by
      have hdrop := congrArg List.length (hrest.trans hcut)
      have hlt := (List.getElem?_eq_some_iff.1 hbackslash).1
      simp only [List.length_drop, List.length_append] at hdrop
      omega
    have hne : s ≠ [] := by
      obtain ⟨-, groups, -, rfl⟩ := hs
      simp
    have hpos := List.length_pos_iff.2 hne
    have hextract : text.extract inv.start inv.stop = s := by
      rw [List.extract_eq_take_drop, hstop, Nat.add_sub_cancel_left, hspan]
    have htake : text.take inv.stop = text.take inv.start ++ s := by
      rw [hstop, List.take_add, hspan]
    refine ⟨Nat.le_refl _, hunnamed, ⟨by omega, by omega, ⟨hbackslash, htail ▸ hname⟩, ?_, ?_⟩,
      ?_, ?_⟩
    · rwa [hextract]
    · rw [hinv, hline]
    · rw [hafter]
    · rw [hafter]
      refine ⟨by simp only; omega, ?_, ?_⟩
      · rw [hstop, ← List.drop_drop, hrest, hcut, List.drop_left]
      · simp only [htake, hline, newlines, List.count_append]
        omega

/-- **One step** finds the first directive that is named. -/
theorem Cursor.In.right_next {text : Bytes} {c : Cursor} (h : c.In text) :
    c.next.Right text c.offset := by
  obtain ⟨rest, offset, line⟩ := c
  obtain ⟨hle, hrest, hline⟩ := h
  simp only [Cursor.next] at hle hrest hline ⊢
  -- The rest of the text shrinks while the offset grows.
  induction rest generalizing offset line with
  | nil =>
    intro k d hk hk'
    have hend := congrArg List.length hrest
    rw [List.length_nil, List.length_drop] at hend
    omega
  | cons b rest ih =>
    have hget : text[offset]? = some b := by rw [← List.head?_drop, ← hrest, List.head?_cons]
    have htail : rest = text.drop (offset + 1) := by rw [← List.tail_drop, ← hrest, List.tail_cons]
    have honward := ih (offset + 1) (if b = '\n' then line + 1 else line)
      (List.getElem?_eq_some_iff.1 hget).1 htail ?_
    · rw [scanFrom]
      split
      · next hb =>
        cases hread : readDirective? rest offset line with
        | none =>
          exact honward.push b fun d hd => readDirective?_eq_none hread d (htail ▸ hd.2)
        | some step =>
          subst hb
          exact right_of_readDirective? hrest.symm hline hread
      · next hb =>
        exact honward.push b fun d hd => hb (Option.some.inj (hget.symm.trans hd.1))
    · rw [List.take_add_one, hget, hline]
      simp only [newlines, List.count_append, Option.toList_some, List.count_singleton]
      split
      · next hb =>
        have hb' : (b == 10) = true := beq_iff_eq.2 hb
        simp [hb', Nat.add_assoc]
      · next hb =>
        have hb' : (b == 10) = false := beq_eq_false_iff_ne.2 hb
        simp [hb']

/-! ## Whole texts -/

/-- Where the scan of a text ends: at its end, or at the directive that is malformed. -/
def EndsAt (text : Bytes) : Option Malformed → Nat → Prop
  | none, limit => limit = text.length
  | some m, limit => MalformedAt text limit m

/-- A list of occurrences that is sound, in order and complete from one offset up to another. -/
structure Occurrences (text : Bytes) (first limit : Nat) (invs : List Invocation) : Prop where
  sound : ∀ inv ∈ invs, StandsIn text inv ∧ first ≤ inv.start ∧ inv.stop ≤ limit
  ordered : invs.Pairwise fun a b => a.stop ≤ b.start
  complete : ∀ i d, first ≤ i → i < limit → NamesAt text i d →
    ∃ inv ∈ invs, inv.start ≤ i ∧ i < inv.stop

theorem Occurrences.nil {text : Bytes} {first limit : Nat} (h : Unnamed text first limit) :
    Occurrences text first limit [] :=
  ⟨by simp, .nil, fun i d hi hi' hd => absurd hd (h i d hi hi')⟩

theorem Occurrences.cons {text : Bytes} {first limit : Nat} {inv : Invocation}
    {invs : List Invocation} (hinv : StandsIn text inv) (hfirst : first ≤ inv.start)
    (hlimit : inv.stop ≤ limit) (hunnamed : Unnamed text first inv.start)
    (h : Occurrences text inv.stop limit invs) : Occurrences text first limit (inv :: invs) := by
  refine ⟨?_, ?_, ?_⟩
  · intro a ha
    rcases List.mem_cons.1 ha with rfl | ha
    · exact ⟨hinv, hfirst, hlimit⟩
    · obtain ⟨hstands, hstart, hstop⟩ := h.sound a ha
      exact ⟨hstands, hfirst.trans (hinv.start_lt_stop.le.trans hstart), hstop⟩
  · exact .cons (fun a ha => (h.sound a ha).2.1) h.ordered
  · intro i d hi hi' hd
    rcases Nat.lt_or_ge i inv.start with hlt | hge
    · exact absurd hd (hunnamed i d hi hlt)
    rcases Nat.lt_or_ge i inv.stop with hlt | hge'
    · exact ⟨inv, List.mem_cons_self, hge, hlt⟩
    · obtain ⟨a, ha, hspan⟩ := h.complete i d hge' hi' hd
      exact ⟨a, List.mem_cons_of_mem _ ha, hspan⟩

/-- A scan lists the directives from its place on up to where it ends. -/
theorem Cursor.In.occurrences_scan {text : Bytes} {c : Cursor} (h : c.In text) :
    ∃ limit, c.offset ≤ limit ∧ limit ≤ text.length ∧ EndsAt text c.scan.2 limit ∧
      Occurrences text c.offset limit c.scan.1 := by
  fun_induction Cursor.scan c with
  | case1 c hnext =>
    have hright := h.right_next
    rw [hnext] at hright
    exact ⟨text.length, h.offset_le, Nat.le_refl _, rfl, .nil hright⟩
  | case2 c m hnext =>
    have hright := h.right_next
    rw [hnext] at hright
    obtain ⟨i, hi, hunnamed, hm⟩ := hright
    exact ⟨i, hi, hm.named.lt_length.le, hm, .nil hunnamed⟩
  | case3 c before inv after hnext _ more ending hscan ih =>
    have hright := h.right_next
    rw [hnext] at hright
    obtain ⟨hstart, hunnamed, hstands, hoffset, hafter⟩ := hright
    obtain ⟨limit, hle, hlimit, hends, hmore⟩ := ih hafter
    rw [hscan] at hends hmore
    rw [hoffset] at hle hmore
    exact ⟨limit, hstart.trans (hstands.start_lt_stop.le.trans hle), hlimit, hends,
      .cons hstands hstart hle hunnamed hmore⟩

/-- The directives of a text, up to where its scan ends. -/
theorem exists_occurrences_scan (text : Bytes) :
    ∃ limit, limit ≤ text.length ∧ EndsAt text (scan text).2 limit ∧
      Occurrences text 0 limit (scan text).1 := by
  have hstart : Cursor.In { rest := text } text := ⟨Nat.zero_le _, rfl, rfl⟩
  obtain ⟨limit, -, hlimit, hends, hfound⟩ := hstart.occurrences_scan
  exact ⟨limit, hlimit, hends, hfound⟩

theorem standsIn_of_mem_scan {text : Bytes} {inv : Invocation} (h : inv ∈ (scan text).1) :
    StandsIn text inv := by
  obtain ⟨_, -, -, hfound⟩ := exists_occurrences_scan text
  exact (hfound.sound inv h).1

/-! ## Asking again and again -/

namespace Scanner

/-- What the scanner says when it is asked once more after a number of times. -/
def answer : Scanner → Nat → Except Malformed (Option Invocation)
  | s, 0 => s.next.1
  | s, n + 1 => s.next.2.answer n

/-- The answers of a scan: its directives, and the malformed one that ended it. -/
def answers (found : List Invocation × Option Malformed) :
    List (Except Malformed (Option Invocation)) :=
  found.1.map (fun inv => .ok (some inv)) ++ found.2.toList.map .error

theorem answer_finished (n : Nat) : finished.answer n = .ok none := by
  induction n with
  | zero => rfl
  | succ n ih => exact ih

/-- The scanner hands out what a scan finds, and then nothing. -/
theorem answer_active (c : Cursor) (n : Nat) :
    (active c).answer n = (answers c.scan)[n]?.getD (.ok none) := by
  fun_induction Cursor.scan c generalizing n with
  | case1 c hnext =>
    cases n <;> simp [answer, next, hnext, answers, answer_finished]
  | case2 c m hnext =>
    cases n <;> simp [answer, next, hnext, answers, answer_finished]
  | case3 c before inv after hnext _ more ending hscan ih =>
    rw [hscan] at ih
    cases n with
    | zero => simp [answer, next, hnext, answers]
    | succ n => simp [answer, next, hnext, ih, answers]

end Scanner

/-- **The scanner** finds what is written: the answers to asking again and again are the occurrences of
directives in the text, in order, sound and complete up to the end of the text or to the first
malformed directive, then the fault of that one, and from then on nothing. -/
theorem answer_ofText (text : Bytes) :
    (∀ n, (Scanner.ofText text).answer n = (Scanner.answers (scan text))[n]?.getD (.ok none)) ∧
      ∃ limit, limit ≤ text.length ∧ EndsAt text (scan text).2 limit ∧
        Occurrences text 0 limit (scan text).1 :=
  ⟨Scanner.answer_active _, exists_occurrences_scan text⟩

end Bindery
