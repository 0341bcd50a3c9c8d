import Bindery.Directive.Basic

/-!
# Finding directives

The scanner walks a text and finds the occurrences of directives in order. A backslash that is not
followed by the name of a directive is left alone, and scanning goes on right after it. The first
malformed directive ends the scan.
-/

namespace Bindery

open Text

/-! ## Names and groups -/

/-- Splits a dotted name off the front: letters, digits after the first letter, and dots that stand
between a name byte and a letter. `started` says whether a byte of the name was read before. -/
def takeName (started : Bool) : Bytes → Bytes × Bytes
  | [] => ([], [])
  | c :: rest =>
    let inside :=
      isLetter c || (started && isDigit c)
        || (c == '.' && started && (rest.head?.map isLetter).getD false)
    if inside then
      let (name, after) := takeName true rest
      (c :: name, after)
    else ([], c :: rest)

/-- The content of a brace group and the text after its closing brace. The text starts after the
opening brace; `depth` counts the inner groups that are open. Escaped braces do not count. -/
def takeGroup : Nat → Bytes → Option (Bytes × Bytes)
  | _, [] => none
  | depth, 92 :: 123 :: rest => (takeGroup depth rest).map fun (s, after) => (92 :: 123 :: s, after)
  | depth, 92 :: 125 :: rest => (takeGroup depth rest).map fun (s, after) => (92 :: 125 :: s, after)
  | depth, c :: rest =>
    if c = '{' then (takeGroup (depth + 1) rest).map fun (s, after) => (c :: s, after)
    else if c = '}' then
      match depth with
      | 0 => some ([], rest)
      | depth + 1 => (takeGroup depth rest).map fun (s, after) => (c :: s, after)
    else (takeGroup depth rest).map fun (s, after) => (c :: s, after)

/-- A number of brace groups with white space between them, and the text after the last. -/
def takeGroups : Nat → Bytes → Except Malformed.Reason (List Bytes × Bytes)
  | 0, s => .ok ([], s)
  | n + 1, s =>
    match s.dropWhile isGap with
    | 123 :: rest =>
      match takeGroup 0 rest with
      | none => .error .unbalanced
      | some (arg, after) =>
        match takeGroups n after with
        | .error reason => .error reason
        | .ok (args, after) => .ok (arg :: args, after)
    | _ => .error .missingGroup

/-! ## Steps -/

/-- A place in a text: what follows it, its offset and its line. -/
structure Cursor where
  rest : Bytes
  offset : Nat := 0
  line : Nat := 1
  deriving DecidableEq, Repr

/-- What the scanner finds from a place on. -/
inductive ScanStep where
  /-- No directive follows. -/
  | done
  /-- The next directive, the text before it, and the place after it. -/
  | found (before : Bytes) (inv : Invocation) (after : Cursor)
  /-- The next directive is malformed. -/
  | malformed (m : Malformed)
  deriving DecidableEq, Repr

namespace ScanStep

/-- Puts a byte in front of the text before a directive. -/
def push (c : UInt8) : ScanStep → ScanStep
  | .found before inv after => .found (c :: before) inv after
  | step => step

end ScanStep

/-- Reads the directive whose backslash stands before `rest`, if `rest` starts with the name of
one. -/
def readDirective? (rest : Bytes) (offset line : Nat) : Option ScanStep :=
  let (name, after) := takeName false rest
  match Directive.ofName? name with
  | none => none
  | some directive =>
    some <|
      match after with
      | 123 :: _ =>
        match takeGroups directive.arity after with
        | .error reason => .malformed { reason, directive, line }
        | .ok (args, after) =>
          -- The backslash counts as well.
          let used := (rest.length + 1) - after.length
          let consumed := (92 :: rest).take used
          .found [] { directive, args, start := offset, stop := offset + used, line }
            { rest := after, offset := offset + used, line := line + newlines consumed }
      | _ => .malformed { reason := .noArguments, directive, line }

/-- The next directive from a place on. -/
def scanFrom : Bytes → Nat → Nat → ScanStep
  | [], _, _ => .done
  | c :: rest, offset, line =>
    let onward := scanFrom rest (offset + 1) (if c = '\n' then line + 1 else line)
    if c = '\\' then (readDirective? rest offset line).getD (onward.push c)
    else onward.push c

def Cursor.next (c : Cursor) : ScanStep := scanFrom c.rest c.offset c.line

/-! ## Each step consumes text -/

theorem length_takeName (started : Bool) (s : Bytes) :
    (takeName started s).1.length + (takeName started s).2.length = s.length := by
  induction s generalizing started with
  | nil => simp [takeName]
  | cons c rest ih =>
    simp only [takeName]
    split
    · have := ih true
      simp only [List.length_cons]
      omega
    · simp

theorem length_takeGroup {depth : Nat} {s arg after : Bytes}
    (h : takeGroup depth s = some (arg, after)) : arg.length + after.length < s.length := by
  fun_induction takeGroup depth s generalizing arg after with
  | case1 => simp at h
  | case2 depth rest ih | case3 depth rest ih =>
    obtain ⟨⟨s, t⟩, hs, he⟩ := Option.map_eq_some_iff.1 h
    have := ih hs
    obtain ⟨rfl, rfl⟩ := Prod.mk.inj he
    simp only [List.length_cons]
    omega
  | case4 _ _ _ _ ih | case6 _ _ _ _ _ ih | case7 _ _ _ _ _ _ _ ih =>
    obtain ⟨⟨s, t⟩, hs, he⟩ := Option.map_eq_some_iff.1 h
    have := ih hs
    obtain ⟨rfl, rfl⟩ := Prod.mk.inj he
    simp only [List.length_cons]
    omega
  | case5 c rest =>
    obtain ⟨rfl, rfl⟩ := Prod.mk.inj (Option.some.inj h)
    simp

theorem length_dropWhile_le (p : UInt8 → Bool) (s : Bytes) :
    (s.dropWhile p).length ≤ s.length :=
  (List.dropWhile_suffix p).length_le

/-- The arguments and the rest are together shorter than the text they were read from. -/
theorem length_takeGroups {n : Nat} {s after : Bytes} {args : List Bytes}
    (h : takeGroups n s = .ok (args, after)) :
    (∀ arg ∈ args, arg.length < s.length) ∧ after.length ≤ s.length := by
  induction n generalizing s args after with
  | zero =>
    simp only [takeGroups, Except.ok.injEq, Prod.mk.injEq] at h
    simp [← h.1, ← h.2]
  | succ n ih =>
    rw [takeGroups] at h
    split at h
    · rename_i rest hrest
      have hgap := length_dropWhile_le isGap s
      rw [hrest, List.length_cons] at hgap
      split at h
      · cases h
      · rename_i arg after' hgroup
        have hg := length_takeGroup hgroup
        split at h
        · cases h
        · rename_i args' after'' hrec
          simp only [Except.ok.injEq, Prod.mk.injEq] at h
          obtain ⟨rfl, rfl⟩ := h
          obtain ⟨h1, h2⟩ := ih hrec
          refine ⟨?_, by omega⟩
          intro a ha
          rcases List.mem_cons.1 ha with rfl | ha
          · omega
          · have := h1 a ha
            omega
    · cases h

theorem readDirective?_found {rest before : Bytes} {offset line : Nat} {inv : Invocation}
    {after : Cursor} (h : readDirective? rest offset line = some (.found before inv after)) :
    (∀ arg ∈ inv.args, arg.length < rest.length) ∧ after.rest.length ≤ rest.length := by
  unfold readDirective? at h
  have hname := length_takeName false rest
  generalize hn : takeName false rest = split at h hname
  obtain ⟨name, tail⟩ := split
  simp only at h hname
  split at h
  · cases h
  · rename_i directive _
    split at h
    · rename_i tail _ htail
      split at h
      · simp at h
      · rename_i args after' hgroups
        obtain ⟨h1, h2⟩ := length_takeGroups hgroups
        simp only [Option.some.injEq, ScanStep.found.injEq] at h
        obtain ⟨-, rfl, rfl⟩ := h
        refine ⟨?_, ?_⟩
        · intro arg ha
          have := h1 arg ha
          simp only [List.length_cons] at this hname ⊢
          omega
        · simp only [List.length_cons] at h2 hname ⊢
          omega
    · simp at h

/-- A step is read behind the first byte, or it is one from the next byte on. -/
theorem scanFrom_cons {c : UInt8} {rest : Bytes} {offset line : Nat} {step : ScanStep}
    (h : scanFrom (c :: rest) offset line = step) :
    readDirective? rest offset line = some step ∨
      ∃ line', (scanFrom rest (offset + 1) line').push c = step := by
  rw [scanFrom] at h
  split at h
  · cases hread : readDirective? rest offset line with
    | none =>
      rw [hread] at h
      exact .inr ⟨_, h⟩
    | some found =>
      rw [hread] at h
      exact .inl (congrArg some h)
  · exact .inr ⟨_, h⟩

theorem scanFrom_cons_found {c : UInt8} {rest before : Bytes} {offset line : Nat} {inv : Invocation}
    {after : Cursor} (h : scanFrom (c :: rest) offset line = .found before inv after) :
    readDirective? rest offset line = some (.found before inv after) ∨
      ∃ front line', before = c :: front ∧ scanFrom rest (offset + 1) line' = .found front inv after := by
  rcases scanFrom_cons h with hread | ⟨line', hpush⟩
  · exact .inl hread
  · right
    cases hstep : scanFrom rest (offset + 1) line' with
    | done | malformed =>
      rw [hstep] at hpush
      cases hpush
    | found front =>
      rw [hstep] at hpush
      obtain ⟨rfl, rfl, rfl⟩ := ScanStep.found.inj hpush
      exact ⟨front, line', rfl, hstep⟩

theorem scanFrom_cons_malformed {c : UInt8} {rest : Bytes} {offset line : Nat} {m : Malformed}
    (h : scanFrom (c :: rest) offset line = .malformed m) :
    readDirective? rest offset line = some (.malformed m) ∨
      ∃ line', scanFrom rest (offset + 1) line' = .malformed m := by
  rcases scanFrom_cons h with hread | ⟨line', hpush⟩
  · exact .inl hread
  · right
    cases hstep : scanFrom rest (offset + 1) line' with
    | done | found =>
      rw [hstep] at hpush
      cases hpush
    | malformed bad =>
      rw [hstep] at hpush
      exact ⟨line', hstep.trans hpush⟩

/-- After a directive less text is left, and each of its arguments is shorter than the text. -/
theorem scanFrom_found {s before : Bytes} {offset line : Nat} {inv : Invocation} {after : Cursor}
    (h : scanFrom s offset line = .found before inv after) :
    (∀ arg ∈ inv.args, arg.length < s.length) ∧ after.rest.length < s.length := by
  induction s generalizing offset line before with
  | nil => cases h
  | cons c rest ih =>
    rw [List.length_cons]
    rcases scanFrom_cons_found h with hread | ⟨front, line', -, hmore⟩
    · obtain ⟨hargs, hrest⟩ := readDirective?_found hread
      exact ⟨fun arg ha => Nat.lt_succ_of_lt (hargs arg ha), Nat.lt_succ_of_le hrest⟩
    · obtain ⟨hargs, hrest⟩ := ih hmore
      exact ⟨fun arg ha => Nat.lt_succ_of_lt (hargs arg ha), Nat.lt_succ_of_lt hrest⟩

theorem Cursor.next_found {c after : Cursor} {before : Bytes} {inv : Invocation}
    (h : c.next = .found before inv after) :
    (∀ arg ∈ inv.args, arg.length < c.rest.length) ∧ after.rest.length < c.rest.length :=
  scanFrom_found h

/-! ## Whole texts -/

/-- The directives of a text in order, and the malformed one that ended the scan. -/
def Cursor.scan (c : Cursor) : List Invocation × Option Malformed :=
  match h : c.next with
  | .done => ([], none)
  | .malformed m => ([], some m)
  | .found _ inv after =>
    have := (Cursor.next_found h).2
    let (more, ending) := after.scan
    (inv :: more, ending)
termination_by c.rest.length

/-- The directives of a text in order, and the malformed one that ended the scan. -/
def scan (text : Bytes) : List Invocation × Option Malformed := Cursor.scan { rest := text }

/-- A scanner that is asked for one directive after the other. Once it has reached the end or a
malformed directive it has nothing more to say. -/
inductive Scanner where
  | active (place : Cursor)
  | finished
  deriving DecidableEq, Repr

namespace Scanner

def ofText (text : Bytes) : Scanner := .active { rest := text }

/-- The next directive, if there is one, and the scanner after it. -/
def next : Scanner → Except Malformed (Option Invocation) × Scanner
  | .finished => (.ok none, .finished)
  | .active place =>
    match place.next with
    | .done => (.ok none, .finished)
    | .malformed m => (.error m, .finished)
    | .found _ inv after => (.ok (some inv), .active after)

end Scanner

end Bindery
