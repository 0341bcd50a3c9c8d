import Mathlib.Data.List.Basic
import Bindery.Proofs.Directive.Scanner
import Bindery.Proofs.Expansion.Conversation

/-!
# Directives at every depth

An argument of a directive is read like a text of its own, and the lines in it are counted from the
line of the directive. `Counted` follows this count through the arguments to the directives at every
depth, and tells how many lines it misses: the newlines between a directive and the argument that is
read. What a template consists of is `Counted` in its text, and `Conduct` is carried from the
directives that are counted to the expansion of the text.
-/

namespace Bindery

open Text

/-! ## Arguments -/

/-- An argument of an occurrence begins at an offset of the text. -/
def ArgumentAt (text : Bytes) (inv : Invocation) (arg : Bytes) (offset : Nat) : Prop :=
  ∃ front others before gap after, inv.args = front ++ arg :: others ∧ Groups front before ∧
    (∀ c ∈ gap, isGap c) ∧
    text.drop inv.start =
      92 :: (inv.directive.name ++ (before ++ gap)) ++ 123 :: (arg ++ 125 :: after) ∧
    offset = inv.start + (92 :: (inv.directive.name ++ (before ++ gap))).length + 1

theorem ArgumentAt.drop_eq {text arg : Bytes} {inv : Invocation} {offset : Nat}
    (h : ArgumentAt text inv arg offset) : ∃ after, text.drop offset = arg ++ 125 :: after := by
  obtain ⟨_, _, before, gap, after, -, -, -, htext, rfl⟩ := h
  refine ⟨after, ?_⟩
  rw [Nat.add_assoc, ← List.drop_drop, htext, ← List.drop_drop, List.drop_left]
  rfl

theorem ArgumentAt.start_lt {text arg : Bytes} {inv : Invocation} {offset : Nat}
    (h : ArgumentAt text inv arg offset) : inv.start < offset := by
  obtain ⟨_, _, _, _, _, -, -, -, -, rfl⟩ := h
  omega

theorem StandsIn.exists_argumentAt {text arg : Bytes} {inv : Invocation} (h : StandsIn text inv)
    (harg : arg ∈ inv.args) : ∃ offset, ArgumentAt text inv arg offset := by
  obtain ⟨front, others, hargs⟩ := List.append_of_mem harg
  obtain ⟨-, groups, hgroups, hspan⟩ := h.written
  rw [hargs] at hgroups
  obtain ⟨before, gap, after, hfront, hgap, hcut⟩ := hgroups.exists_of_append
  rw [List.extract_eq_take_drop] at hspan
  have htext := List.take_append_drop (inv.stop - inv.start) (text.drop inv.start)
  rw [hspan, hcut] at htext
  exact ⟨_, front, others, before, gap, _, hargs, hfront, hgap, by simpa using htext.symm, rfl⟩

/-! ## Lines -/

/-- A directive stands at an offset of a text, at any depth, and is counted at a line. `missed` lines
are not counted: those between a directive and the argument that it is counted through. -/
inductive Counted : Bytes → Nat → Directive → Nat → Nat → Prop
  | here {text : Bytes} {inv : Invocation} (h : inv ∈ (scan text).1) :
    Counted text inv.start inv.directive inv.line 0
  | inside {text arg : Bytes} {inv : Invocation} {offset i line missed : Nat} {d : Directive}
    (h : inv ∈ (scan text).1) (harg : ArgumentAt text inv arg offset)
    (hinner : Counted arg i d line missed) :
    Counted text (offset + i) d (inv.line + line - 1)
      (newlines (text.extract inv.start offset) + missed)

theorem StandsIn.line_pos {text : Bytes} {inv : Invocation} (h : StandsIn text inv) :
    0 < inv.line := by
  rw [h.line]
  omega

/-- **Where a directive is counted**: its backslash and its name stand at the offset, and its line and
the lines that are missed make up the line of the backslash. -/
theorem Counted.stands {text : Bytes} {i line missed : Nat} {d : Directive}
    (h : Counted text i d line missed) :
    NamesAt text i d ∧ 0 < line ∧ line + missed = 1 + newlines (text.take i) := by
  induction h with
  | here h =>
    have hstands := standsIn_of_mem_scan h
    exact ⟨hstands.named, hstands.line_pos, hstands.line⟩
  | @inside text arg inv offset i line missed d h harg _ ih =>
    obtain ⟨hnames, hpos, hline⟩ := ih
    have hstands := standsIn_of_mem_scan h
    have hinv := hstands.line_pos
    obtain ⟨after, hdrop⟩ := harg.drop_eq
    have hi := hnames.lt_length
    refine ⟨⟨?_, ?_⟩, by omega, ?_⟩
    · rw [← List.getElem?_drop, hdrop, List.getElem?_append_left hi]
      exact hnames.1
    · have hrest : text.drop (offset + i + 1) = arg.drop (i + 1) ++ 125 :: after := by
        rw [Nat.add_assoc, ← List.drop_drop, hdrop, List.drop_append_of_le_length hi]
      rw [hrest]
      exact (longestName_append_iff (by decide) after).2 hnames.2
    · have hcut : text.take offset = text.take inv.start ++ text.extract inv.start offset := by
        rw [List.extract_eq_take_drop, ← List.take_add, Nat.add_sub_cancel' harg.start_lt.le]
      have htake : text.take (offset + i) = text.take offset ++ arg.take i := by
        rw [List.take_add, hdrop, List.take_append_of_le_length hi.le]
      rw [htake, hcut]
      simp only [newlines, List.count_append] at hline ⊢
      have hfirst := hstands.line
      simp only [newlines] at hfirst
      omega

/-- A malformed directive that a text ends in, or one of its arguments at any depth. -/
inductive MalformedIn : Bytes → Malformed → Prop
  | here {text : Bytes} {m : Malformed} (h : (scan text).2 = some m) : MalformedIn text m
  | inside {text arg : Bytes} {inv : Invocation} {m : Malformed} (h : inv ∈ (scan text).1)
    (harg : arg ∈ inv.args) (hinner : MalformedIn arg m) : MalformedIn text m

/-! ## Templates -/

namespace Template

mutual

/-- All directives of a template, at every depth, are such that `P` of the line that they are counted
at, and what is malformed in it is such that `M`. -/
def Each (P : Directive → Nat → Prop) (M : Malformed → Prop) (line : Nat) : Template → Prop
  | .text _ => True
  | .malformed bad => M bad
  | .directive _ inv args _ rest =>
    P inv.directive (line + inv.line) ∧ EachOf P M (line + inv.line - 1) args ∧ rest.Each P M line
termination_by structural t => t

def EachOf (P : Directive → Nat → Prop) (M : Malformed → Prop) (line : Nat) : List Template → Prop
  | [] => True
  | t :: ts => t.Each P M line ∧ EachOf P M line ts
termination_by structural ts => ts

end

variable {P Q : Directive → Nat → Prop} {M N : Malformed → Prop}

mutual

theorem Each.imp (hP : ∀ d l, P d l → Q d l) (hM : ∀ m, M m → N m) : (t : Template) → (line : Nat) →
    t.Each P M line → t.Each Q N line
  | .text _, _, _ => trivial
  | .malformed bad, _, h => hM bad h
  | .directive _ _ args _ rest, line, ⟨hhere, hargs, hrest⟩ =>
    ⟨hP _ _ hhere, EachOf.imp hP hM args _ hargs, Each.imp hP hM rest line hrest⟩
termination_by structural t => t

theorem EachOf.imp (hP : ∀ d l, P d l → Q d l) (hM : ∀ m, M m → N m) : (ts : List Template) →
    (line : Nat) → EachOf P M line ts → EachOf Q N line ts
  | [], _, _ => trivial
  | t :: ts, line, ⟨ht, hts⟩ => ⟨Each.imp hP hM t line ht, EachOf.imp hP hM ts line hts⟩
termination_by structural ts => ts

end

theorem eachOf_map {args : List Bytes} {line : Nat}
    (h : ∀ arg ∈ args, (ofText arg).Each P M line) : EachOf P M line (args.map ofText) := by
  induction args with
  | nil => trivial
  | cons arg args ih =>
    obtain ⟨harg, hargs⟩ := List.forall_mem_cons.1 h
    exact ⟨harg, ih hargs⟩

/-- What a template consists of is counted in its text. -/
theorem each_ofText (text : Bytes) (line : Nat) :
    (ofText text).Each (fun d l => ∃ i n missed, Counted text i d n missed ∧ l = line + n)
      (MalformedIn text) line := by
  induction hn : text.length using Nat.strongRecOn generalizing text line with
  | ind n ih =>
    -- The scan of the text goes on from a place, and finds what is left of the list.
    suffices hfrom : ∀ c : Cursor, c.scan.1 ⊆ (scan text).1 → c.scan.2 = (scan text).2 →
        (∀ inv ∈ c.scan.1, ∀ arg ∈ inv.args, arg.length < text.length) →
        (ofCursor c).Each (fun d l => ∃ i n missed, Counted text i d n missed ∧ l = line + n)
          (MalformedIn text) line from
      hfrom { rest := text } (List.Subset.refl _) rfl fun inv hinv arg harg =>
        (Cursor.args_of_mem_scan hinv arg harg).2
    intro c
    induction hlength : c.rest.length using Nat.strongRecOn generalizing c with
    | ind k ih' =>
      intro hfound hending hshort
      cases hnext : c.next with
      | done =>
        rw [ofCursor_of_done hnext]
        trivial
      | malformed bad =>
        rw [ofCursor_of_malformed hnext]
        exact .here (by rw [← hending, Cursor.scan_of_malformed hnext])
      | found before inv after =>
        have hscan : c.scan.1 = inv :: after.scan.1 := Cursor.scan_of_found hnext
        have hinv : inv ∈ (scan text).1 := hfound (hscan ▸ List.mem_cons_self)
        have hstands := standsIn_of_mem_scan hinv
        have hpos := hstands.line_pos
        rw [ofCursor_of_found hnext]
        refine ⟨⟨_, _, _, .here hinv, rfl⟩, eachOf_map fun arg harg => ?_, ?_⟩
        · obtain ⟨offset, hoffset⟩ := hstands.exists_argumentAt harg
          have hlt := hshort inv (hscan ▸ List.mem_cons_self) arg harg
          refine (ih arg.length (hn ▸ hlt) arg (line + inv.line - 1) rfl).imp ?_ ?_ _ _
          · rintro d l ⟨i, n, missed, hcounted, rfl⟩
            exact ⟨_, _, _, .inside hinv hoffset hcounted, by omega⟩
          · intro m hm
            exact .inside hinv harg hm
        · refine ih' after.rest.length (hlength ▸ (Cursor.next_found hnext).2) after rfl ?_ ?_ ?_
          · exact fun i hi => hfound (hscan ▸ List.mem_cons_of_mem _ hi)
          · rw [← hending, Cursor.scan_eq_of_found hnext]
          · exact fun i hi => hshort i (hscan ▸ List.mem_cons_of_mem _ hi)

end Template

namespace Expansion.Conduct

variable {C : Conduct} {P : Directive → Nat → Prop} {M : Malformed → Prop}
  {perform : Directive → List Bytes → Nat → Pass Bytes}

mutual

/-- Expanding a template behaves if performing its directives does, where they are counted. -/
theorem holds_expand_each
    (hperform : ∀ directive line, P directive line → ∀ args d,
      C.Holds d (perform directive args line) fun _ _ => True)
    (hmalformed : ∀ bad, M bad → ∀ d, C.fail d [] bad.toFault) : (t : Template) → (line : Nat) →
    t.Each P M line → ∀ out d, C.Holds d (t.expand perform line out) fun _ _ => True
  | .text rest, _, _, _, _ => holds_pure trivial
  | .malformed bad, _, h, _, d => holds_throw (hmalformed bad h d)
  | .directive before inv args after rest, line, ⟨hhere, hargs, hrest⟩, out, d => by
    rw [Template.expand]
    refine (holds_expandAll_each hperform hmalformed args _ hargs d).bind fun args d₁ _ _ _ => ?_
    refine (hperform _ _ hhere args d₁).bind fun output d₂ _ _ _ => ?_
    exact holds_expand_each hperform hmalformed rest line hrest _ d₂
termination_by structural t => t

theorem holds_expandAll_each
    (hperform : ∀ directive line, P directive line → ∀ args d,
      C.Holds d (perform directive args line) fun _ _ => True)
    (hmalformed : ∀ bad, M bad → ∀ d, C.fail d [] bad.toFault) : (ts : List Template) →
    (line : Nat) → Template.EachOf P M line ts →
    ∀ d, C.Holds d (Template.expandAll perform line ts) fun _ _ => True
  | [], _, _, _ => holds_pure trivial
  | t :: ts, line, ⟨ht, hts⟩, d => by
    rw [Template.expandAll]
    refine (holds_expand_each hperform hmalformed t line ht [] d).bind fun first d₁ _ _ _ => ?_
    refine (holds_expandAll_each hperform hmalformed ts line hts d₁).bind fun others _ _ _ _ => ?_
    exact holds_pure trivial
termination_by structural ts => ts

end

end Expansion.Conduct

end Bindery
