import Mathlib.Data.List.Basic
import Bindery.Expansion.Template
import Bindery.Proofs.Text.Tidy

/-!
# What the scanner reads

The scanner only ever cuts the text it is given: the arguments of a directive are pieces of the text,
and what follows a directive is an end of it. Two readings of a document are shown to be one: the
template, which finds all directives at every depth before any is performed, and the replacement of
one directive after the other, which reads an argument when it gets to it.
-/

namespace Bindery

open Text

/-! ## Pieces of the text -/

theorem takeGroup_eq_some {depth : Nat} {s arg after : Bytes}
    (h : takeGroup depth s = some (arg, after)) : s = arg ++ 125 :: after := by
  fun_induction takeGroup depth s generalizing arg after with
  | case1 => simp at h
  | case2 depth rest ih | case3 depth rest ih =>
    obtain ⟨⟨s, t⟩, hs, he⟩ := Option.map_eq_some_iff.1 h
    obtain ⟨rfl, rfl⟩ := Prod.mk.inj he
    simp [ih hs]
  | case4 _ _ _ _ ih | case6 _ _ _ _ _ ih | case7 _ _ _ _ _ _ _ ih =>
    obtain ⟨⟨s, t⟩, hs, he⟩ := Option.map_eq_some_iff.1 h
    obtain ⟨rfl, rfl⟩ := Prod.mk.inj he
    simp [ih hs]
  | case5 c rest =>
    obtain ⟨rfl, rfl⟩ := Prod.mk.inj (Option.some.inj h)
    rfl

theorem takeName_append (started : Bool) (s : Bytes) :
    (takeName started s).1 ++ (takeName started s).2 = s := by
  induction s generalizing started with
  | nil => rfl
  | cons c rest ih =>
    simp only [takeName]
    split
    · simp [ih]
    · rfl

/-- The arguments stand behind opening braces, and what is left behind the last closing one. -/
theorem takeGroups_pieces {n : Nat} {s after : Bytes} {args : List Bytes}
    (h : takeGroups n s = .ok (args, after)) :
    (∀ arg ∈ args, Behind arg s) ∧ after <:+ s ∧ (n ≠ 0 → Behind after s) := by
  induction n generalizing s args after with
  | zero =>
    simp only [takeGroups, Except.ok.injEq, Prod.mk.injEq] at h
    simp [← h.1, ← h.2]
  | succ n ih =>
    rw [takeGroups] at h
    split at h
    · next rest hrest =>
      split at h
      · cases h
      · next arg after' hgroup =>
        split at h
        · cases h
        · next args' after'' hrec =>
          simp only [Except.ok.injEq, Prod.mk.injEq] at h
          obtain ⟨rfl, rfl⟩ := h
          obtain ⟨hargs, hsuffix, hbehind⟩ := ih hrec
          have hs : (123 :: (arg ++ 125 :: after')) <:+ s := by
            rw [← takeGroup_eq_some hgroup, ← hrest]
            exact List.dropWhile_suffix isGap
          have hafter' : after' <:+ s := (List.suffix_append (123 :: (arg ++ [125])) after').trans
            (by simpa using hs)
          have hafter : Behind after' s :=
            Behind.within ⟨123 :: arg, 125, by decide, List.prefix_rfl⟩ hs.isInfix
          refine ⟨?_, hsuffix.trans hafter', fun _ => ?_⟩
          · intro a ha
            rcases List.mem_cons.1 ha with rfl | ha
            · refine Behind.within ⟨[], 123, by decide, ?_⟩ hs.isInfix
              exact List.cons_prefix_cons.2 ⟨rfl, List.prefix_append a _⟩
            · exact (hargs a ha).within hafter'.isInfix
          · rcases Nat.eq_zero_or_pos n with rfl | hn
            · simp only [takeGroups, Except.ok.injEq, Prod.mk.injEq] at hrec
              exact hrec.2 ▸ hafter
            · exact (hbehind hn.ne').within hafter'.isInfix
    · cases h

theorem Directive.arity_ne_zero (d : Directive) : d.arity ≠ 0 := by
  cases d <;> decide

theorem readDirective?_pieces {rest before : Bytes} {offset line : Nat} {inv : Invocation}
    {after : Cursor} (h : readDirective? rest offset line = some (.found before inv after)) :
    before = [] ∧ (∀ arg ∈ inv.args, Behind arg rest) ∧ after.rest <:+ rest ∧
      Behind after.rest rest := by
  unfold readDirective? at h
  have hname := takeName_append false rest
  generalize takeName false rest = cut at h hname
  obtain ⟨name, tail⟩ := cut
  simp only at h hname
  have htail : tail <:+ rest := hname ▸ List.suffix_append name tail
  split at h
  · cases h
  · split at h
    · split at h
      · simp at h
      · next args after' hgroups =>
        obtain ⟨hargs, hsuffix, hbehind⟩ := takeGroups_pieces hgroups
        simp only [Option.some.injEq, ScanStep.found.injEq] at h
        obtain ⟨rfl, rfl, rfl⟩ := h
        exact ⟨rfl, fun arg ha => (hargs arg ha).within htail.isInfix, hsuffix.trans htail,
          (hbehind (Directive.arity_ne_zero _)).within htail.isInfix⟩
    · simp at h

/-- The text before a directive begins the text. Its arguments and what follows it stand behind
braces. -/
theorem scanFrom_pieces {s before : Bytes} {offset line : Nat} {inv : Invocation} {after : Cursor}
    (h : scanFrom s offset line = .found before inv after) :
    before <+: s ∧ (∀ arg ∈ inv.args, Behind arg s) ∧ after.rest <:+ s ∧ Behind after.rest s := by
  induction s generalizing offset line before with
  | nil => cases h
  | cons c rest ih =>
    have hrest : rest <:+ c :: rest := List.suffix_cons c rest
    rcases scanFrom_cons_found h with hread | ⟨front, line', rfl, hmore⟩
    · obtain ⟨rfl, hargs, hsuffix, hbehind⟩ := readDirective?_pieces hread
      exact ⟨List.nil_prefix, fun arg ha => (hargs arg ha).within hrest.isInfix,
        hsuffix.trans hrest, hbehind.within hrest.isInfix⟩
    · obtain ⟨hbefore, hargs, hsuffix, hbehind⟩ := ih hmore
      exact ⟨List.cons_prefix_cons.2 ⟨rfl, hbefore⟩,
        fun arg ha => (hargs arg ha).within hrest.isInfix, hsuffix.trans hrest,
        hbehind.within hrest.isInfix⟩

namespace Cursor

theorem scan_of_done {c : Cursor} (h : c.next = .done) : c.scan = ([], none) := by
  rw [scan]
  split <;> simp_all

theorem scan_of_malformed {c : Cursor} {bad : Malformed} (h : c.next = .malformed bad) :
    c.scan = ([], some bad) := by
  rw [scan]
  split <;> simp_all

theorem scan_eq_of_found {c after : Cursor} {before : Bytes} {inv : Invocation}
    (h : c.next = .found before inv after) : c.scan = (inv :: after.scan.1, after.scan.2) := by
  rw [scan]
  split
  · next h' => simp [h] at h'
  · next h' => simp [h] at h'
  · next h' =>
    simp only [h, ScanStep.found.injEq] at h'
    obtain ⟨-, rfl, rfl⟩ := h'
    rfl

theorem scan_of_found {c after : Cursor} {before : Bytes} {inv : Invocation}
    (h : c.next = .found before inv after) : c.scan.1 = inv :: after.scan.1 :=
  congrArg Prod.fst (scan_eq_of_found h)

/-- **Arguments** of the directives that a scan finds are pieces of the text, and shorter than it. -/
theorem args_of_mem_scan {c : Cursor} {inv : Invocation} (h : inv ∈ c.scan.1) :
    ∀ arg ∈ inv.args, arg <:+: c.rest ∧ arg.length < c.rest.length := by
  fun_induction scan c with
  | case1 => simp at h
  | case2 => simp at h
  | case3 c before first after hnext _ more ending hscan ih =>
    obtain ⟨-, hpieces, hsuffix, -⟩ := scanFrom_pieces hnext
    obtain ⟨hshort, hafter⟩ := next_found hnext
    intro arg harg
    rcases List.mem_cons.1 h with rfl | h
    · exact ⟨(hpieces arg harg).isInfix, hshort arg harg⟩
    · rw [hscan] at ih
      obtain ⟨hpiece, hlength⟩ := ih h arg harg
      exact ⟨hpiece.trans hsuffix.isInfix, Nat.lt_trans hlength hafter⟩

section Replace

variable {m : Type → Type} [Monad m] [MonadExceptOf Fault m]

theorem replace_of_done {handler : Invocation → m Bytes} {out : Bytes} {c : Cursor}
    (h : c.next = .done) : c.replace handler out = pure (out ++ c.rest) := by
  rw [replace]
  split <;> simp_all

theorem replace_of_malformed {handler : Invocation → m Bytes} {out : Bytes} {c : Cursor}
    {bad : Malformed} (h : c.next = .malformed bad) : c.replace handler out = throw bad.toFault := by
  rw [replace]
  split <;> simp_all

theorem replace_of_found {handler : Invocation → m Bytes} {out before : Bytes} {c after : Cursor}
    {inv : Invocation} (h : c.next = .found before inv after) :
    c.replace handler out = (do
      let output ← handler inv
      after.replace handler (place (out ++ before) inv.directive.isBlock output after.rest)) := by
  rw [replace]
  split
  · next h' => simp [h] at h'
  · next h' => simp [h] at h'
  · next h' =>
    simp only [h, ScanStep.found.injEq] at h'
    obtain ⟨rfl, rfl, rfl⟩ := h'
    rfl

/-- A replacement only asks its handler about directives that a scan of the text finds: what was put
in the place of one is never read. -/
theorem replace_congr {f g : Invocation → m Bytes} {c : Cursor} (out : Bytes)
    (h : ∀ inv ∈ c.scan.1, f inv = g inv) : c.replace f out = c.replace g out := by
  induction hn : c.rest.length using Nat.strongRecOn generalizing c out with
  | ind n ih =>
    cases hnext : c.next with
    | done => rw [replace_of_done hnext, replace_of_done hnext]
    | malformed bad => rw [replace_of_malformed hnext, replace_of_malformed hnext]
    | found before inv after =>
      rw [scan_of_found hnext] at h
      have hafter := (next_found hnext).2
      rw [replace_of_found hnext, replace_of_found hnext, h inv List.mem_cons_self]
      refine bind_congr fun output => ?_
      exact ih after.rest.length (hn ▸ hafter) _
        (fun i hi => h i (List.mem_cons_of_mem _ hi)) rfl

end Replace

end Cursor

/-- A replacement of a text only asks its handler about directives that stand in the text. -/
theorem replaceM_congr {m : Type → Type} [Monad m] [MonadExceptOf Fault m] {text : Bytes}
    {f g : Invocation → m Bytes} (h : ∀ inv ∈ (scan text).1, f inv = g inv) :
    replaceM text f = replaceM text g :=
  Cursor.replace_congr [] h

/-! ## Templates -/

namespace Template

section

variable {m : Type → Type} [Monad m] [MonadExceptOf Fault m]

theorem ofCursor_of_done {c : Cursor} (h : c.next = .done) : ofCursor c = .text c.rest := by
  rw [ofCursor]
  split <;> simp_all

theorem ofCursor_of_malformed {c : Cursor} {bad : Malformed} (h : c.next = .malformed bad) :
    ofCursor c = .malformed bad := by
  rw [ofCursor]
  split <;> simp_all

theorem ofCursor_of_found {c after : Cursor} {before : Bytes} {inv : Invocation}
    (h : c.next = .found before inv after) :
    ofCursor c = .directive before inv (inv.args.map ofText) after.rest (ofCursor after) := by
  rw [ofCursor]
  split
  · next h' => simp [h] at h'
  · next h' => simp [h] at h'
  · next h' =>
    simp only [h, ScanStep.found.injEq] at h'
    obtain ⟨rfl, rfl, rfl⟩ := h'
    have hargs : inv.args.attach.map (fun arg => ofText arg.1) = inv.args.map ofText :=
      List.attach_map_val
    exact congrArg (Template.directive before inv · after.rest (ofCursor after)) hargs

/-- What a directive becomes: its arguments are expanded from left to right, and then it is
performed. -/
def invoke (argument : Nat → Bytes → m Bytes) (perform : Directive → List Bytes → Nat → m Bytes)
    (line : Nat) (inv : Invocation) : m Bytes := do
  let args ← inv.args.mapM (argument (line + inv.line - 1))
  perform inv.directive args (line + inv.line)

variable [LawfulMonad m]

theorem expandAll_map (perform : Directive → List Bytes → Nat → m Bytes) (line : Nat)
    (args : List Bytes) :
    expandAll perform line (args.map ofText) =
      args.mapM fun arg => (ofText arg).expand perform line [] := by
  induction args with
  | nil => rfl
  | cons arg args ih => rw [List.map_cons, expandAll, List.mapM_cons, ih]

theorem expand_ofCursor (perform : Directive → List Bytes → Nat → m Bytes) (line : Nat)
    (out : Bytes) (c : Cursor) :
    (ofCursor c).expand perform line out =
      c.replace (invoke (fun line arg => (ofText arg).expand perform line []) perform line) out := by
  induction hn : c.rest.length using Nat.strongRecOn generalizing c out with
  | ind n ih =>
    cases hnext : c.next with
    | done => rw [ofCursor_of_done hnext, Cursor.replace_of_done hnext, expand]
    | malformed bad =>
      rw [ofCursor_of_malformed hnext, Cursor.replace_of_malformed hnext, expand]
    | found before inv after =>
      rw [ofCursor_of_found hnext, Cursor.replace_of_found hnext, expand, expandAll_map, invoke,
        bind_assoc]
      refine bind_congr fun args => bind_congr fun output => ?_
      exact ih after.rest.length (hn ▸ (Cursor.next_found hnext).2) _ after rfl

/-- **The two readings agree**: expanding the template of a text is replacing its directives one
after the other, with arguments expanded when their directive is reached. -/
theorem expand_ofText (perform : Directive → List Bytes → Nat → m Bytes) (line : Nat)
    (text : Bytes) :
    (ofText text).expand perform line [] =
      replaceM text (invoke (fun line arg => (ofText arg).expand perform line []) perform line) :=
  expand_ofCursor perform line [] { rest := text }

end

end Template

end Bindery
