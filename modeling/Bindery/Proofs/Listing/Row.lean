import Bindery.Proofs.Listing.NormalForm
import Bindery.Proofs.Listing.Wrap

/-!
# Breaks and strings

The lines of a source that was cut are wrapped one by one, and each is searched for places to be broken as
if no string were open in front of it. The tokeniser agrees with that on every line that does not start
inside a string: there it stands between two lexemes, so wrapping breaks no string (`cleanPython_breaks`).
-/

namespace Bindery.Listing

open Text

namespace Python

def InString (source : Bytes) (offset : Nat) : Prop :=
  ∃ t ∈ tokensOf source, t.kind = .string ∧ t.start < offset ∧ offset < t.stop

/-- What is shown of a line of a source: where that line starts, and the text with its offset. -/
structure Row where
  line : Nat
  start : Nat
  text : Bytes

/-- A row stands on its line of a source, between blanks. -/
def Row.Stands (source : Bytes) (row : Row) : Prop :=
  ∃ front lead gap tail, source = front ++ (lead ++ (row.text ++ (gap ++ tail))) ∧
    (∀ x ∈ front.getLast?, x = 10) ∧ (∀ c ∈ lead, isBlank c = true) ∧ (∀ c ∈ gap, isBlank c = true) ∧
    (∀ x ∈ tail.head?, x = 10) ∧ row.line = front.length ∧ row.start = front.length + lead.length

/-- A row ends before the line of another one starts. -/
def Row.Above (a b : Row) : Prop := a.start + a.text.length < b.line

/-! ## Lines outside of strings -/

section

variable {source rest : Bytes} {s : State} {row : Row}

theorem State.At.mem_tokensOf (h : s.At source rest) {t : Token} (ht : t ∈ s.found) :
    t ∈ tokensOf source := by
  obtain ⟨more, hmore⟩ := h.tokensOf_eq
  rw [hmore]
  exact List.mem_append_left more ht

/-- Of lexemes with more than one byte only strings hold the end of a line. -/
theorem Lexed.isString {lexeme : Lexeme} {text following : Bytes} (h : Lexed lexeme text following)
    (hnewline : 10 ∈ text) (hmore : 0 < lexeme.more) : ∃ n, lexeme = .token .string n := by
  cases lexeme with
  | newline | continuation | blank => cases hmore
  | comment n =>
    cases h with
    | comment hline _ => exact absurd ((List.mem_cons.1 hnewline).resolve_left (by decide)) hline
  | token kind n =>
    obtain rfl := isString_of_mem_newline h hnewline
    exact ⟨n, rfl⟩

/-- Behind the end of a line the tokeniser stands between two lexemes, or inside a string. -/
theorem State.At.exists_behind_line (u : Bytes) (hout : ¬ InString source (s.offset + u.length + 1))
    (h : s.At source (u ++ 10 :: rest)) :
    ∃ s' : State, s'.At source rest ∧ s'.offset = s.offset + u.length + 1 := by
  induction hlength : u.length using Nat.strongRecOn generalizing u s with
  | ind length ih =>
  cases u with
  | nil =>
    refine ⟨_, h.step, ?_⟩
    rw [← hlength]
    exact offset_step s 10 rest .newline
  | cons c u =>
    have hstep := h.step
    have hoffset := offset_step s c (u ++ 10 :: rest) (firstLexeme c (u ++ 10 :: rest))
    have hlexed := lexed_firstLexeme c (u ++ 10 :: rest)
    rw [List.append_eq] at hstep
    generalize firstLexeme c (u ++ 10 :: rest) = lexeme at hstep hoffset hlexed
    rw [List.length_cons, List.length_take, List.length_append, List.length_cons] at hoffset
    rw [List.length_cons] at hlength hout
    rcases Nat.lt_or_ge u.length lexeme.more with hmore | hmore
    · -- The lexeme holds the end of the line: it ends there too, or goes on, which only a string does.
      have hdrop : (u ++ 10 :: rest).drop lexeme.more = rest.drop (lexeme.more - (u.length + 1)) := by
        rw [List.append_cons, List.drop_append, List.length_append, List.length_singleton,
          List.drop_eq_nil_of_le (by rw [List.length_append, List.length_singleton]; exact hmore),
          List.nil_append]
      rw [hdrop] at hstep
      by_cases hends : min lexeme.more (u.length + (rest.length + 1)) = u.length + 1
      · have hrest : rest.drop (lexeme.more - (u.length + 1)) = rest := by
          rcases rest with - | ⟨x, rest⟩
          · exact List.drop_nil
          · rw [List.length_cons] at hends
            rw [Nat.sub_eq_zero_of_le (by omega), List.drop_zero]
        rw [hrest] at hstep
        exact ⟨_, hstep, by omega⟩
      · have hnewline : 10 ∈ c :: (u ++ 10 :: rest).take lexeme.more := by
          obtain ⟨n, hn⟩ : ∃ n, lexeme.more - u.length = n + 1 := ⟨lexeme.more - u.length - 1, by omega⟩
          rw [List.take_append, List.take_of_length_le hmore.le, hn, List.take_succ_cons]
          simp
        obtain ⟨n, rfl⟩ := hlexed.isString hnewline (by omega)
        refine absurd ⟨s.tokenOf .string (c :: (u ++ 10 :: rest).take n), ?_, rfl, ?_, ?_⟩ hout
        · exact hstep.mem_tokensOf (by rw [found_step_token]; simp)
        · show s.offset < _
          omega
        · show _ < s.offset + _
          rw [List.length_cons, List.length_take, List.length_append, List.length_cons]
          dsimp only [Lexeme.more] at hmore hends
          omega
    · rw [List.drop_append_of_le_length hmore] at hstep
      have hplace : (s.step c (u ++ 10 :: rest) lexeme).offset + (u.drop lexeme.more).length + 1 =
          s.offset + length + 1 := by
        rw [List.length_drop]
        omega
      have hshort : (u.drop lexeme.more).length < length := by
        rw [List.length_drop]
        omega
      rw [hlength, ← hplace] at hout
      rw [← hplace]
      exact ih _ hshort _ hout hstep rfl

/-- A row whose line does not start inside a string starts between two lexemes. -/
theorem Row.Stands.exists_at (h : row.Stands source) (hout : ¬ InString source row.line) :
    ∃ (s : State) (tail : Bytes), s.At source (row.text ++ tail) ∧ s.offset = row.start ∧
      ∀ x ∈ tail.head?, isSkipped x = true := by
  obtain ⟨front, lead, gap, tail, rfl, hfront, hlead, hgap, htail, hline, hstart⟩ := h
  rw [hline] at hout
  obtain ⟨s, hs, hoffset⟩ : ∃ s : State,
      s.At (front ++ (lead ++ (row.text ++ (gap ++ tail)))) (lead ++ (row.text ++ (gap ++ tail))) ∧
        s.offset = front.length := by
    rcases List.eq_nil_or_concat' front with rfl | ⟨u, x, rfl⟩
    · exact ⟨{}, State.at_start _, rfl⟩
    · obtain rfl : x = 10 := hfront x List.getLast?_concat
      have hlength : (u ++ [10]).length = ({} : State).offset + u.length + 1 := by simp
      rw [hlength, ← List.append_cons] at hout ⊢
      exact (State.at_start _).exists_behind_line u hout
  obtain ⟨s', hs', hoffset', -⟩ := hs.blanks hlead
  refine ⟨s', gap ++ tail, hs', by rw [hoffset', hoffset, hstart], ?_⟩
  cases gap with
  | nil =>
    intro x hx
    rw [htail x hx]
    rfl
  | cons c gap =>
    intro x hx
    cases hx
    simp [isSkipped, hgap c List.mem_cons_self]

/-- A row is wrapped into segments. Unless its line starts inside a string, they are broken at tokens. -/
theorem Row.Stands.exists_segments (h : row.Stands source) (hinked : Inked row.text) :
    ∃ ps, Shows 0 row.text (wrap row.text) ps ∧ (¬ InString source row.line →
      ∀ before p q after, ps = before ++ p :: q :: after → BreaksAtToken source row.start before p q) := by
  have hlast : row.text.getLast? ≠ some 32 := by
    intro hspace
    have hblank := hinked.bare 32 hspace
    cases hblank
  by_cases hout : InString source row.line
  · obtain ⟨p, ps, hshows, -⟩ := @Rounds.exists_segments source [] 0 _ _ (rounds_wrap row.text) 0 row.text
      (List.nil_append row.text).symm (nested_nil 0) hinked.single hlast
    exact ⟨p :: ps, hshows, fun hnot => absurd hout hnot⟩
  · obtain ⟨s, tail, hs, hoffset, htail⟩ := h.exists_at hout
    obtain ⟨p, ps, hshows, htokens⟩ := (rounds_wrap row.text).exists_segments
      (List.nil_append row.text).symm (nested_nil 0) hinked.single hlast
    have hnone : s.offset = row.start + extent [] := hoffset
    exact ⟨p :: ps, hshows, fun _ => htokens hs htail hnone (columns_nil _ _)⟩

end

end Python

/-! ## Rows of a source -/

section

variable {ls : List Bytes}

def filled (ls : List Bytes) : List Bytes := ls.filter (!·.isEmpty)

theorem filled_cons_nil (ls : List Bytes) : filled ([] :: ls) = filled ls := rfl

theorem filled_cons_of_ne_nil {l : Bytes} (hl : l ≠ []) (ls : List Bytes) :
    filled (l :: ls) = l :: filled ls := by
  rw [filled, List.filter_cons_of_pos (by simpa using hl)]
  rfl

theorem filled_squeezeFrom (started pending : Bool) (ls : List Bytes) :
    filled (squeezeFrom started pending ls) = filled (ls.map (trimEnd isBlank)) := by
  induction ls generalizing started pending with
  | nil => rfl
  | cons l ls ih =>
    rw [squeezeFrom, List.map_cons]
    split
    · next hempty => rw [List.isEmpty_iff.1 hempty, filled_cons_nil, ih]
    · next hne =>
      have hne : trimEnd isBlank l ≠ [] := fun hnil => hne (List.isEmpty_iff.2 hnil)
      split
      · rw [filled_cons_nil, filled_cons_of_ne_nil hne, filled_cons_of_ne_nil hne, ih]
      · rw [filled_cons_of_ne_nil hne, filled_cons_of_ne_nil hne, ih]

theorem filled_map_filled {f : Bytes → Bytes} (hf : f [] = []) (ls : List Bytes) :
    filled ((filled ls).map f) = filled (ls.map f) := by
  induction ls with
  | nil => rfl
  | cons l ls ih =>
    by_cases hl : l = []
    · rw [hl, filled_cons_nil, List.map_cons, hf, filled_cons_nil, ih]
    · rw [filled_cons_of_ne_nil hl, List.map_cons, List.map_cons]
      by_cases hfl : f l = []
      · rw [hfl, filled_cons_nil, filled_cons_nil, ih]
      · rw [filled_cons_of_ne_nil hfl, filled_cons_of_ne_nil hfl, ih]

theorem filled_flatMap_wrap (h : ∀ l ∈ ls, l = [] ∨ Inked l) :
    filled (ls.flatMap Python.wrap) = (filled ls).flatMap Python.wrap := by
  induction ls with
  | nil => rfl
  | cons l ls ih =>
    obtain ⟨hl, hls⟩ := List.forall_mem_cons.1 h
    rw [List.flatMap_cons, filled, List.filter_append, ← filled, ← filled, ih hls]
    rcases hl with rfl | hl
    · rfl
    · have hwrap : filled (Python.wrap l) = Python.wrap l :=
        List.filter_eq_self.2 fun x hx => by simpa using (inked_wrapWithin _ _ hl x hx).ne_nil
      rw [hwrap, filled_cons_of_ne_nil hl.ne_nil, List.flatMap_cons]

theorem exists_dedent (ls : List Bytes) : ∃ f : Bytes → Bytes, dedent ls = ls.map f ∧ f [] = [] ∧
    ∀ l, ∃ lead, (∀ c ∈ lead, isBlank c = true) ∧ l = lead ++ f l := by
  obtain ⟨shared, hblank, heq⟩ := exists_dedent_eq ls
  refine ⟨withoutStart shared, heq, by cases shared <;> rfl, fun l => ?_⟩
  rcases withoutStart_cases shared l with hcut | ⟨-, hkept⟩
  · exact ⟨shared, hblank, hcut⟩
  · exact ⟨[], List.forall_mem_nil _, hkept.symm⟩

section

variable {f : Bytes → Bytes} {source front : Bytes}

theorem exists_row (hf : ∀ l, ∃ lead, (∀ c ∈ lead, isBlank c = true) ∧ l = lead ++ f l) {l after : Bytes}
    (hsource : source = front ++ (l ++ after)) (hfront : ∀ x ∈ front.getLast?, x = 10)
    (hafter : ∀ x ∈ after.head?, x = 10) :
    ∃ row : Python.Row, row.text = f (trimEnd isBlank l) ∧ row.Stands source ∧ row.line = front.length ∧
      row.start + row.text.length ≤ front.length + l.length := by
  obtain ⟨gap, hgap, hblank, -⟩ := exists_trimEnd isBlank l
  obtain ⟨lead, hlead, htext⟩ := hf (trimEnd isBlank l)
  refine ⟨⟨front.length, front.length + lead.length, f (trimEnd isBlank l)⟩, rfl, ?_, rfl, ?_⟩
  · refine ⟨front, lead, gap, after, ?_, hfront, hlead, hblank, hafter, rfl, rfl⟩
    rw [← List.append_assoc lead, ← htext, ← List.append_assoc _ gap, ← hgap]
    exact hsource
  · have hlength := congrArg List.length hgap
    have hlength' := congrArg List.length htext
    rw [List.length_append] at hlength hlength'
    dsimp only
    omega

theorem exists_rows (hf : ∀ l, ∃ lead, (∀ c ∈ lead, isBlank c = true) ∧ l = lead ++ f l) {tail : Bytes}
    (htail : ∀ x ∈ tail.head?, x = 10) (ls : List Bytes) (hsource : source = front ++ (unlines ls ++ tail))
    (hfront : ∀ x ∈ front.getLast?, x = 10) :
    ∃ rows : List Python.Row, rows.map (·.text) = filled (ls.map fun l => f (trimEnd isBlank l)) ∧
      (∀ row ∈ rows, row.Stands source ∧ front.length ≤ row.line) ∧ rows.Pairwise Python.Row.Above := by
  induction ls generalizing front with
  | nil => exact ⟨[], rfl, nofun, .nil⟩
  | cons l ls ih =>
    obtain ⟨after, hline, hafter, more, hmore, hstands, habove⟩ : ∃ after, source = front ++ (l ++ after) ∧
        (∀ x ∈ after.head?, x = 10) ∧
        ∃ rows : List Python.Row, rows.map (·.text) = filled (ls.map fun l => f (trimEnd isBlank l)) ∧
          (∀ row ∈ rows, row.Stands source ∧ front.length + l.length < row.line) ∧
          rows.Pairwise Python.Row.Above := by
      cases ls with
      | nil => exact ⟨tail, hsource, htail, [], rfl, nofun, .nil⟩
      | cons m ls =>
        have hsplit : source = (front ++ l ++ [10]) ++ (unlines (m :: ls) ++ tail) := by
          have hjoin : unlines (l :: m :: ls) = l ++ [10] ++ unlines (m :: ls) := rfl
          rw [hsource, hjoin]
          simp only [List.append_assoc]
        obtain ⟨rows, htexts, hstands, habove⟩ := ih hsplit (by simp)
        refine ⟨10 :: (unlines (m :: ls) ++ tail), ?_, by simp, rows, htexts, fun row hrow => ?_, habove⟩
        · rw [hsplit]
          simp only [List.append_assoc, List.singleton_append]
        · obtain ⟨hrow, hle⟩ := hstands row hrow
          rw [List.length_append, List.length_append, List.length_singleton] at hle
          exact ⟨hrow, hle⟩
    have hbelow : ∀ row ∈ more, row.Stands source ∧ front.length ≤ row.line := fun row hrow =>
      ⟨(hstands row hrow).1, by have := (hstands row hrow).2; omega⟩
    obtain ⟨row, htext, hrow, hstart, hends⟩ := exists_row hf hline hfront hafter
    rw [List.map_cons, ← htext]
    by_cases hnil : row.text = []
    · exact ⟨more, by rw [hnil, filled_cons_nil, hmore], hbelow, habove⟩
    · refine ⟨row :: more, ?_, List.forall_mem_cons.2 ⟨⟨hrow, hstart.ge⟩, hbelow⟩, ?_⟩
      · rw [filled_cons_of_ne_nil hnil, List.map_cons, hmore]
      · exact List.pairwise_cons.2 ⟨fun other hother => hends.trans_lt (hstands other hother).2, habove⟩

end

theorem exists_textLines (s : Bytes) :
    ∃ tail, s = unlines (textLines s) ++ tail ∧ ∀ x ∈ tail.head?, x = 10 := by
  have hsplit : unlines (textLines s) = withoutEnd [10] s := joinWith_splitOn 10 _
  rw [hsplit, withoutEnd, beforeEnd?]
  cases hend : [(10 : UInt8)].reverse.isPrefixOf? s.reverse with
  | none => exact ⟨[], by simp, by simp⟩
  | some rest =>
    refine ⟨[10], ?_, by simp⟩
    have heq := List.isPrefixOf?_eq_some_iff_append_eq.1 hend
    rw [← List.reverse_reverse s, ← heq]
    simp

/-- The source of lines without the spans that are not kept. -/
def cutSource (o : Options) (ls : List Bytes) : Bytes :=
  let source := unlines ls ++ [10]
  let (logicals, comments) := Python.tokenize source
  Python.applyCuts source
    ((if o.keepComments then [] else comments.map (Python.commentSpan source))
      ++ (if o.keepDoc then [] else Python.docSpans logicals)
      ++ (if o.keepHints then [] else Python.hintSpans logicals))

theorem cleanPython_eq (o : Options) (ls : List Bytes) (hlayout : o.verbatim = false) :
    cleanPython o ls = (dedent (squeeze (textLines (cutSource o ls)))).flatMap Python.wrap := by
  unfold cleanPython
  exact if_neg (by simp [hlayout])

theorem Spaced.inked {ls : List Bytes} (h : Spaced ls) : ∀ l ∈ ls, l = [] ∨ Inked l := by
  induction h with
  | nil => exact nofun
  | line hl _ ih => exact List.forall_mem_cons.2 ⟨.inr hl, ih⟩
  | gap hl _ ih => exact List.forall_mem_cons.2 ⟨.inl rfl, List.forall_mem_cons.2 ⟨.inr hl, ih⟩⟩

/-- **Where wrapping breaks a source.** The lines of a listing with something on them show, one below the
other, rows of the source that was cut, each wrapped into segments. If the line of a row does not start
inside a string, all breaks between its segments are at tokens, and none is inside a string. -/
theorem cleanPython_breaks {o : Options} (hlayout : o.verbatim = false) (ls : List Bytes) :
    ∃ rows : List Python.Row, (∀ row ∈ rows, row.Stands (cutSource o ls)) ∧ rows.Pairwise Python.Row.Above ∧
      filled (cleanPython o ls) = rows.flatMap (fun row => Python.wrap row.text) ∧
      ∀ row ∈ rows, ∃ ps, Python.Shows 0 row.text (Python.wrap row.text) ps ∧
        (¬ Python.InString (cutSource o ls) row.line → ∀ before p q after, ps = before ++ p :: q :: after →
          Python.BreaksAtToken (cutSource o ls) row.start before p q ∧
          ¬ Python.InString (cutSource o ls) (row.start + Python.extent before + p.text.length)) := by
  obtain ⟨f, hdedent, hnil, hf⟩ := exists_dedent (squeeze (textLines (cutSource o ls)))
  obtain ⟨tail, hsource, htail⟩ := exists_textLines (cutSource o ls)
  have hstart : cutSource o ls = [] ++ (unlines (textLines (cutSource o ls)) ++ tail) := hsource
  obtain ⟨rows, htexts, hstands, habove⟩ := exists_rows hf htail _ hstart (by simp)
  have hinked := (formed_dedent (formed_squeeze_textLines (cutSource o ls))).spaced.inked
  have hfilled : filled (dedent (squeeze (textLines (cutSource o ls)))) = rows.map (·.text) := by
    rw [htexts, hdedent, ← filled_map_filled hnil, squeeze, filled_squeezeFrom, filled_map_filled hnil,
      List.map_map]
    rfl
  refine ⟨rows, fun row hrow => (hstands row hrow).1, habove, ?_, fun row hrow => ?_⟩
  · rw [cleanPython_eq o ls hlayout, filled_flatMap_wrap hinked, hfilled, List.flatMap_map]
  · have hmem : row.text ∈ filled (dedent (squeeze (textLines (cutSource o ls)))) :=
      hfilled ▸ List.mem_map_of_mem hrow
    obtain ⟨hmem, hne⟩ := List.mem_filter.1 hmem
    have hink := (hinked row.text hmem).resolve_left fun hnil => by simp [hnil] at hne
    obtain ⟨ps, hshows, htokens⟩ := (hstands row hrow).1.exists_segments hink
    refine ⟨ps, hshows, fun hout before p q after hsplit => ?_⟩
    have hbreak := htokens hout before p q after hsplit
    refine ⟨hbreak, ?_⟩
    rintro ⟨t, ht, hstring, hstart, hstop⟩
    rcases hbreak.outside t ht hstring with hlt | hle
    · omega
    · omega

/-- The call on the first line is broken at a token. The second line starts inside a string, and its break
is inside that string. -/
theorem cleanPython_breaks_query :
    let ls := [
      bytes "run(connection, \"alpha, beta, gamma\", [delta, epsilon], zeta, eta, theta, iota, query=\"\"\"",
      bytes "insert into letters (alpha, beta, gamma, delta, epsilon, zeta, eta, theta, iota)",
      bytes "\"\"\")"]
    cleanPython {} ls = [
      bytes "run(connection, \"alpha, beta, gamma\", [delta, epsilon], zeta, eta, theta,",
      bytes "    iota, query=\"\"\"",
      bytes "insert into letters (alpha, beta, gamma, delta, epsilon, zeta, eta, theta,",
      bytes "                     iota)",
      bytes "\"\"\")"] ∧
    Python.InString (cutSource {} ls) (90 + 74) ∧
    ∃ rows : List Python.Row, (∀ row ∈ rows, row.Stands (cutSource {} ls)) ∧
      rows.Pairwise Python.Row.Above ∧
      filled (cleanPython {} ls) = rows.flatMap (fun row => Python.wrap row.text) ∧
      ∀ row ∈ rows, ∃ ps, Python.Shows 0 row.text (Python.wrap row.text) ps ∧
        (¬ Python.InString (cutSource {} ls) row.line → ∀ before p q after, ps = before ++ p :: q :: after →
          Python.BreaksAtToken (cutSource {} ls) row.start before p q ∧
          ¬ Python.InString (cutSource {} ls) (row.start + Python.extent before + p.text.length)) := by
  intro ls
  refine ⟨by decide +kernel, ?_, cleanPython_breaks rfl ls⟩
  unfold Python.InString
  decide +kernel

end

end Bindery.Listing
