import Mathlib.Data.List.Basic
import Bindery.Proofs.Directive

/-!
# How directives are written

The grammar of directives, apart from how they are found: dotted names, groups in which braces match,
and groups in a row. The functions that cut names and groups off a text are exact for this grammar, so
a text that begins with a directive begins with one directive only.
-/

namespace Bindery

open Text

/-! ## Names -/

/-- A letter, and letters and digits after it. -/
def IsWord (w : Bytes) : Prop :=
  ∃ c rest, w = c :: rest ∧ isLetter c ∧ ∀ d ∈ rest, isLetter d ∨ isDigit d

/-- Words with dots between them. -/
inductive DottedName : Bytes → Prop
  | word {w : Bytes} (h : IsWord w) : DottedName w
  | dot {w rest : Bytes} (h : IsWord w) (hrest : DottedName rest) : DottedName (w ++ 46 :: rest)

/-- The longest dotted name that a text begins with. -/
structure LongestName (name s : Bytes) : Prop where
  dotted : DottedName name
  start : name <+: s
  longest : ∀ other, DottedName other → other <+: s → other.length ≤ name.length

/-- How a dotted name goes on after its first letter. -/
inductive NameTail : Bytes → Prop
  | nil : NameTail []
  | byte {c : UInt8} {t : Bytes} (hc : isLetter c ∨ isDigit c) (h : NameTail t) : NameTail (c :: t)
  | dot {c : UInt8} {t : Bytes} (hc : isLetter c) (h : NameTail t) : NameTail (46 :: c :: t)

theorem NameTail.bytes_append {t rest : Bytes} (ht : ∀ d ∈ t, isLetter d ∨ isDigit d)
    (h : NameTail rest) : NameTail (t ++ rest) := by
  induction t with
  | nil => exact h
  | cons d t ih =>
    obtain ⟨hd, ht⟩ := List.forall_mem_cons.1 ht
    exact .byte hd (ih ht)

theorem dottedName_cons {c : UInt8} {t : Bytes} (hc : isLetter c) (h : NameTail t) :
    DottedName (c :: t) := by
  -- The word that `c` begins grows from its end.
  suffices hgrow : ∀ w, IsWord w → DottedName (w ++ t) from
    hgrow [c] ⟨c, [], rfl, hc, by simp⟩
  induction h with
  | nil =>
    intro w hw
    rw [List.append_nil]
    exact .word hw
  | @byte d t hd _ ih =>
    rintro w ⟨a, rest, rfl, ha, hrest⟩
    have hgrown := ih (a :: (rest ++ [d])) ⟨a, _, rfl, ha, by
      intro x hx
      rcases List.mem_append.1 hx with hx | hx
      · exact hrest x hx
      · rwa [List.mem_singleton.1 hx]⟩
    simpa using hgrown
  | @dot d t hd _ ih =>
    intro w hw
    exact .dot hw (ih [d] ⟨d, [], rfl, hd, by simp⟩)

theorem dottedName_iff {n : Bytes} :
    DottedName n ↔ ∃ c t, n = c :: t ∧ isLetter c ∧ NameTail t := by
  constructor
  · intro h
    induction h with
    | word h =>
      obtain ⟨c, rest, rfl, hc, hrest⟩ := h
      have htail := NameTail.nil.bytes_append hrest
      rw [List.append_nil] at htail
      exact ⟨c, rest, rfl, hc, htail⟩
    | dot h _ ih =>
      obtain ⟨c, rest, rfl, hc, hrest⟩ := h
      obtain ⟨d, t, rfl, hd, ht⟩ := ih
      exact ⟨c, _, rfl, hc, NameTail.bytes_append hrest (.dot hd ht)⟩
  · rintro ⟨c, t, rfl, hc, ht⟩
    exact dottedName_cons hc ht

theorem takeName_byte {c : UInt8} (hc : isLetter c ∨ isDigit c) (s : Bytes) :
    takeName true (c :: s) = (c :: (takeName true s).1, (takeName true s).2) := by
  rw [takeName]
  rcases hc with hc | hc <;> simp [hc]

theorem takeName_dot {c : UInt8} (hc : isLetter c) (s : Bytes) :
    takeName true (46 :: c :: s) = (46 :: c :: (takeName true s).1, (takeName true s).2) := by
  have hinside : (46 : UInt8) == '.' := by decide
  rw [takeName, takeName_byte (.inl hc)]
  simp [hc, hinside]

theorem takeName_letter {c : UInt8} (hc : isLetter c) (s : Bytes) :
    takeName false (c :: s) = (c :: (takeName true s).1, (takeName true s).2) := by
  rw [takeName]
  simp [hc]

theorem nameTail_takeName (s : Bytes) : NameTail (takeName true s).1 := by
  induction hn : s.length using Nat.strongRecOn generalizing s with
  | ind n ih =>
    cases s with
    | nil => exact .nil
    | cons c s =>
      by_cases hc : isLetter c ∨ isDigit c
      · rw [takeName_byte hc]
        exact .byte hc (ih s.length (by simp [← hn]) s rfl)
      · by_cases hdot : ∃ d rest, c = 46 ∧ s = d :: rest ∧ isLetter d
        · obtain ⟨d, rest, rfl, rfl, hd⟩ := hdot
          rw [takeName_dot hd]
          exact .dot hd (ih rest.length (by rw [← hn, List.length_cons, List.length_cons]; omega) rest rfl)
        · have hstop : takeName true (c :: s) = ([], c :: s) := by
            simp only [not_or, Bool.not_eq_true] at hc
            cases s with
            | nil => simp [takeName, hc]
            | cons d rest =>
              have hd : c = '.' → isLetter d = false := fun heq =>
                Bool.eq_false_iff.2 fun hd => hdot ⟨d, rest, heq, rfl, hd⟩
              rw [takeName]
              simpa [hc] using hd
          rw [hstop]
          exact .nil

/-- Nothing that goes on with the name is left out. -/
theorem NameTail.prefix_takeName {t s : Bytes} (h : NameTail t) (hs : t <+: s) :
    t <+: (takeName true s).1 := by
  induction h generalizing s with
  | nil => exact List.nil_prefix
  | @byte c t hc _ ih =>
    obtain ⟨rest, rfl⟩ := hs
    rw [List.cons_append, takeName_byte hc]
    exact List.cons_prefix_cons.2 ⟨rfl, ih (List.prefix_append t rest)⟩
  | @dot c t hc _ ih =>
    obtain ⟨rest, rfl⟩ := hs
    rw [List.cons_append, List.cons_append, takeName_dot hc]
    exact List.cons_prefix_cons.2 ⟨rfl, List.cons_prefix_cons.2 ⟨rfl, ih (List.prefix_append t rest)⟩⟩

/-- A byte that goes on with no name. -/
def EndsName (b : UInt8) : Prop := isLetter b = false ∧ isDigit b = false ∧ b ≠ '.'

instance (b : UInt8) : Decidable (EndsName b) := inferInstanceAs (Decidable (_ ∧ _ ∧ _))

theorem takeName_append_cons {b : UInt8} (hb : EndsName b) (started : Bool) (s rest : Bytes) :
    (takeName started (s ++ b :: rest)).1 = (takeName started s).1 := by
  obtain ⟨hletter, hdigit, hdot⟩ := hb
  induction s generalizing started with
  | nil =>
    have hdot' : (b == '.') = false := beq_eq_false_iff_ne.2 hdot
    simp [takeName, hletter, hdigit, hdot']
  | cons c s ih =>
    have hhead : ((s ++ b :: rest).head?.map isLetter).getD false =
        (s.head?.map isLetter).getD false := by
      cases s with
      | nil => exact hletter
      | cons d s => rfl
    rw [List.cons_append, takeName, takeName, hhead]
    split
    · simp [ih]
    · rfl

theorem takeName_of_not_letter {c : UInt8} (hc : ¬ isLetter c) (s : Bytes) :
    takeName false (c :: s) = ([], c :: s) := by
  simp [takeName, hc]

/-- **Names** are cut off at their longest. -/
theorem longestName_iff {name s : Bytes} :
    LongestName name s ↔ name ≠ [] ∧ (takeName false s).1 = name := by
  have hstart : (takeName false s).1 <+: s := ⟨_, takeName_append false s⟩
  constructor
  · rintro ⟨hdotted, hname, hlongest⟩
    obtain ⟨c, t, rfl, hc, ht⟩ := dottedName_iff.1 hdotted
    obtain ⟨rest, rfl⟩ := hname
    rw [List.cons_append, takeName_letter hc] at hstart ⊢
    have hmore := ht.prefix_takeName (List.prefix_append t rest)
    have hless := hlongest _ (dottedName_cons hc (nameTail_takeName _)) hstart
    have hsame := hmore.eq_of_length_le (by simpa using hless)
    exact ⟨by simp, by rw [← hsame]⟩
  · rintro ⟨hne, rfl⟩
    cases s with
    | nil => exact absurd rfl hne
    | cons c s =>
      by_cases hc : isLetter c
      · rw [takeName_letter hc] at hstart ⊢
        refine ⟨dottedName_cons hc (nameTail_takeName s), hstart, fun other hother hprefix => ?_⟩
        obtain ⟨d, t, rfl, -, ht⟩ := dottedName_iff.1 hother
        obtain ⟨rfl, ht'⟩ := List.cons_prefix_cons.1 hprefix
        exact Nat.succ_le_succ (ht.prefix_takeName ht').length_le
      · rw [takeName_of_not_letter hc] at hne
        exact absurd rfl hne

/-- The longest name before a byte that ends names is not longer than without it. -/
theorem longestName_append_iff {name s : Bytes} {b : UInt8} (hb : EndsName b) (rest : Bytes) :
    LongestName name (s ++ b :: rest) ↔ LongestName name s := by
  rw [longestName_iff, longestName_iff, takeName_append_cons hb]

/-- The name of a directive is the longest one if and only if the directive is read off it. -/
theorem longestName_name_iff {d : Directive} {s : Bytes} :
    LongestName d.name s ↔ Directive.ofName? (takeName false s).1 = some d := by
  rw [longestName_iff]
  constructor
  · rintro ⟨-, h⟩
    rw [h, Directive.ofName?_name]
  · intro h
    refine ⟨?_, (Directive.name_of_ofName? h).symm⟩
    cases d <;> decide

/-! ## Groups -/

/-- A text in which braces match. A brace behind a backslash does not count, and no backslash stands at
the end, where it would keep the brace behind it from counting. -/
inductive Balanced : Bytes → Prop
  | nil : Balanced []
  | escaped {c : UInt8} {s : Bytes} (hc : c = 123 ∨ c = 125) (h : Balanced s) : Balanced (92 :: c :: s)
  | byte {c : UInt8} {s : Bytes} (hc : c ≠ 92 ∧ c ≠ 123 ∧ c ≠ 125) (h : Balanced s) :
    Balanced (c :: s)
  | backslash {c : UInt8} {s : Bytes} (hc : c ≠ 123 ∧ c ≠ 125) (h : Balanced (c :: s)) :
    Balanced (92 :: c :: s)
  | group {inner s : Bytes} (hinner : Balanced inner) (h : Balanced s) :
    Balanced (123 :: (inner ++ 125 :: s))

/-- A text that closes a number of groups: balanced texts with closing braces between them. -/
inductive Closes : Nat → Bytes → Prop
  | zero {s : Bytes} (h : Balanced s) : Closes 0 s
  | succ {n : Nat} {inner s : Bytes} (hinner : Balanced inner) (h : Closes n s) :
    Closes (n + 1) (inner ++ 125 :: s)

namespace Closes

variable {n : Nat} {s : Bytes}

theorem escaped {c : UInt8} (hc : c = 123 ∨ c = 125) (h : Closes n s) : Closes n (92 :: c :: s) := by
  cases h with
  | zero h => exact .zero (.escaped hc h)
  | succ hinner h => exact .succ (.escaped hc hinner) h

theorem byte {c : UInt8} (hc : c ≠ 92 ∧ c ≠ 123 ∧ c ≠ 125) (h : Closes n s) : Closes n (c :: s) := by
  cases h with
  | zero h => exact .zero (.byte hc h)
  | succ hinner h => exact .succ (.byte hc hinner) h

theorem backslash {c : UInt8} (hc : c ≠ 123 ∧ c ≠ 125) (h : Closes n (c :: s)) :
    Closes n (92 :: c :: s) := by
  generalize heq : c :: s = t at h
  cases h with
  | zero h =>
    subst heq
    exact .zero (.backslash hc h)
  | @succ n inner rest hinner h =>
    cases inner with
    | nil => exact absurd (List.cons.inj heq).1 hc.2
    | cons d inner =>
      obtain ⟨rfl, rfl⟩ := List.cons.inj heq
      exact .succ (.backslash hc hinner) h

theorem group {inner : Bytes} (hinner : Balanced inner) (h : Closes n s) :
    Closes n (123 :: (inner ++ 125 :: s)) := by
  cases h with
  | zero h => exact .zero (.group hinner h)
  | @succ n inner' rest hinner' h =>
    have hgroup := Closes.succ (.group hinner hinner') h
    simpa using hgroup

end Closes

/-- What stands before the brace that ends a group closes the groups that are open. -/
theorem closes_of_takeGroup {depth : Nat} {s arg after : Bytes}
    (h : takeGroup depth s = some (arg, after)) : Closes depth arg := by
  fun_induction takeGroup depth s generalizing arg after with
  | case1 => simp at h
  | case2 depth rest ih | case3 depth rest ih =>
    obtain ⟨⟨s, t⟩, hs, he⟩ := Option.map_eq_some_iff.1 h
    obtain ⟨rfl, rfl⟩ := Prod.mk.inj he
    exact .escaped (by decide) (ih hs)
  | case4 depth rest _ _ ih =>
    obtain ⟨⟨s, t⟩, hs, he⟩ := Option.map_eq_some_iff.1 h
    obtain ⟨rfl, rfl⟩ := Prod.mk.inj he
    cases ih hs with
    | succ hinner hrest => exact .group hinner hrest
  | case5 =>
    obtain ⟨rfl, rfl⟩ := Prod.mk.inj (Option.some.inj h)
    exact .zero .nil
  | case6 rest depth _ _ _ ih =>
    obtain ⟨⟨s, t⟩, hs, he⟩ := Option.map_eq_some_iff.1 h
    obtain ⟨rfl, rfl⟩ := Prod.mk.inj he
    exact .succ .nil (ih hs)
  | case7 depth c rest hopen hclose hc hc' ih =>
    obtain ⟨⟨s, t⟩, hs, he⟩ := Option.map_eq_some_iff.1 h
    obtain ⟨rfl, rfl⟩ := Prod.mk.inj he
    by_cases hback : c = 92
    · have hrest := takeGroup_eq_some hs
      subst hback
      cases s with
      | nil => exact absurd hrest (hclose _ rfl)
      | cons d s =>
        refine .backslash ⟨?_, ?_⟩ (ih hs)
        · rintro rfl
          exact hopen _ rfl hrest
        · rintro rfl
          exact hclose _ rfl hrest
    · exact .byte ⟨hback, hc, hc'⟩ (ih hs)

theorem takeGroup_open (depth : Nat) (s : Bytes) :
    takeGroup depth (123 :: s) =
      (takeGroup (depth + 1) s).map fun cut => (123 :: cut.1, cut.2) := by
  have hopen : (123 : UInt8) = '{' := by decide
  cases depth <;> simp [takeGroup, if_pos hopen]

theorem takeGroup_close (depth : Nat) (s : Bytes) :
    takeGroup (depth + 1) (125 :: s) =
      (takeGroup depth s).map fun cut => (125 :: cut.1, cut.2) := by
  have hopen : (125 : UInt8) ≠ '{' := by decide
  have hclose : (125 : UInt8) = '}' := by decide
  simp [takeGroup, hopen, if_pos hclose]

theorem takeGroup_end (s : Bytes) : takeGroup 0 (125 :: s) = some ([], s) := by
  have hopen : (125 : UInt8) ≠ '{' := by decide
  have hclose : (125 : UInt8) = '}' := by decide
  simp [takeGroup, hopen, if_pos hclose]

theorem takeGroup_byte {c : UInt8} {s : Bytes} {depth : Nat} (hc : c ≠ 123 ∧ c ≠ 125)
    (hs : c = 92 → s.head? ≠ some 123 ∧ s.head? ≠ some 125) :
    takeGroup depth (c :: s) = (takeGroup depth s).map fun cut => (c :: cut.1, cut.2) := by
  have hopen : ∀ rest, c = 92 → s = 123 :: rest → False := by
    rintro rest rfl rfl
    exact (hs rfl).1 rfl
  have hclose : ∀ rest, c = 92 → s = 125 :: rest → False := by
    rintro rest rfl rfl
    exact (hs rfl).2 rfl
  have hbrace : c ≠ '{' ∧ c ≠ '}' := hc
  cases depth with
  | zero => rw [takeGroup.eq_4 c s hopen hclose, if_neg hbrace.1, if_neg hbrace.2]
  | succ depth => rw [takeGroup.eq_5 c s depth hopen hclose, if_neg hbrace.1, if_neg hbrace.2]

/-- Balanced text never ends a group: it becomes part of the group around it. -/
theorem Balanced.takeGroup_append {b : Bytes} (h : Balanced b) (depth : Nat) (rest : Bytes) :
    takeGroup depth (b ++ rest) = (takeGroup depth rest).map fun cut => (b ++ cut.1, cut.2) := by
  induction h generalizing depth rest with
  | nil => simp
  | escaped hc _ ih =>
    rcases hc with rfl | rfl <;>
      simp [takeGroup, ih, Function.comp_def]
  | byte hc _ ih =>
    rw [List.cons_append, takeGroup_byte hc.2 fun h => absurd h hc.1, ih]
    simp [Function.comp_def]
  | backslash hc _ ih =>
    rw [List.cons_append, takeGroup_byte (by decide) fun _ => by simpa using hc, ih]
    simp [Function.comp_def]
  | @group inner s _ _ ihinner ih =>
    have hcut : 123 :: (inner ++ 125 :: s) ++ rest = 123 :: (inner ++ 125 :: (s ++ rest)) := by simp
    rw [hcut, takeGroup_open, ihinner, takeGroup_close, ih]
    simp [Function.comp_def]

/-- **A group** is the balanced text before its closing brace. -/
theorem takeGroup_zero_iff {s arg after : Bytes} :
    takeGroup 0 s = some (arg, after) ↔ Balanced arg ∧ s = arg ++ 125 :: after := by
  constructor
  · intro h
    refine ⟨?_, takeGroup_eq_some h⟩
    cases closes_of_takeGroup h with
    | zero h => exact h
  · rintro ⟨h, rfl⟩
    rw [h.takeGroup_append, takeGroup_end]
    simp

/-- Groups in a row, each in braces of its own, with nothing but white space between them. -/
inductive Groups : List Bytes → Bytes → Prop
  | nil : Groups [] []
  | cons {gap arg rest : Bytes} {args : List Bytes} (hgap : ∀ c ∈ gap, isGap c)
    (harg : Balanced arg) (h : Groups args rest) :
    Groups (arg :: args) (gap ++ 123 :: (arg ++ 125 :: rest))

theorem dropWhile_isGap {gap : Bytes} (hgap : ∀ c ∈ gap, isGap c) (rest : Bytes) :
    (gap ++ 123 :: rest).dropWhile isGap = 123 :: rest := by
  rw [List.dropWhile_append_of_pos hgap]
  exact List.dropWhile_cons_of_neg (by decide)

/-- **Groups in a row** are cut off exactly: as many as asked for, and no more. -/
theorem takeGroups_iff {n : Nat} {s after : Bytes} {args : List Bytes} :
    takeGroups n s = .ok (args, after) ↔
      args.length = n ∧ ∃ used, Groups args used ∧ s = used ++ after := by
  induction n generalizing s args with
  | zero =>
    simp only [takeGroups, Except.ok.injEq, Prod.mk.injEq, List.length_eq_zero_iff]
    constructor
    · rintro ⟨rfl, rfl⟩
      exact ⟨rfl, [], .nil, rfl⟩
    · rintro ⟨rfl, used, h, rfl⟩
      cases h
      exact ⟨rfl, rfl⟩
  | succ n ih =>
    constructor
    · intro h
      rw [takeGroups] at h
      split at h
      · next rest hrest =>
        split at h
        · cases h
        · next arg after' hgroup =>
          split at h
          · cases h
          · next args' after'' hrec =>
            simp only [Except.ok.injEq, Prod.mk.injEq] at h
            obtain ⟨rfl, rfl⟩ := h
            obtain ⟨hbalanced, rfl⟩ := takeGroup_zero_iff.1 hgroup
            obtain ⟨hlength, used, hused, rfl⟩ := ih.1 hrec
            have hgap : ∀ c ∈ s.takeWhile isGap, isGap c := fun c hc => List.mem_takeWhile_imp hc
            refine ⟨by simp [hlength], _, .cons hgap hbalanced hused, ?_⟩
            calc s = s.takeWhile isGap ++ s.dropWhile isGap :=
                  List.takeWhile_append_dropWhile.symm
              _ = _ := by simp [hrest]
      · cases h
    · rintro ⟨hlength, used, h, rfl⟩
      cases h with
      | nil => simp at hlength
      | @cons gap arg rest args hgap harg h =>
        have hrec := ih.2 ⟨by simpa using hlength, rest, h, rfl⟩
        have hgroup : takeGroup 0 (arg ++ 125 :: (rest ++ after)) = some (arg, rest ++ after) :=
          takeGroup_zero_iff.2 ⟨harg, rfl⟩
        have hskip : (gap ++ 123 :: (arg ++ 125 :: rest) ++ after).dropWhile isGap =
            123 :: (arg ++ 125 :: (rest ++ after)) := by
          simpa using dropWhile_isGap hgap (arg ++ 125 :: (rest ++ after))
        rw [takeGroups, hskip]
        simp only [hgroup, hrec]

/-- Groups in a row are cut at each of them. -/
theorem Groups.exists_of_append {front others : List Bytes} {arg s : Bytes}
    (h : Groups (front ++ arg :: others) s) :
    ∃ before gap after, Groups front before ∧ (∀ c ∈ gap, isGap c) ∧
      s = before ++ (gap ++ 123 :: (arg ++ 125 :: after)) := by
  induction front generalizing s with
  | nil =>
    cases h with
    | @cons gap _ rest _ hgap _ _ => exact ⟨[], gap, rest, .nil, hgap, rfl⟩
  | cons first front ih =>
    cases h with
    | @cons gap _ rest _ hgap hfirst h =>
      obtain ⟨before, gap', after, hfront, hgap', rfl⟩ := ih h
      exact ⟨_, gap', after, .cons hgap hfirst hfront, hgap', by simp⟩

end Bindery
