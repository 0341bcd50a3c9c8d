import Bindery.Proofs.Directive
import Bindery.Proofs.Expansion.Printing

/-!
# The ledger of references

A reference leaves a mark, and the mark travels through arguments, captions, definitions and included
documents. The `Ledger` of a text tells which marks are in it: they stand in the order in which the
references were made, and a mark that is missing was in an argument that some directive does not print.
Expansion keeps the ledger of every text (`Written`), and it keeps a record of what was referred to and
what was defined (`Recorded`).
-/

namespace Bindery

open Text

/-! ## Templates -/

theorem Template.allOf_map {L : Bytes → Prop} {args : List Bytes}
    (h : ∀ arg ∈ args, (ofText arg).All L) : AllOf L (args.map ofText) := by
  induction args with
  | nil => trivial
  | cons arg args ih =>
    obtain ⟨harg, hargs⟩ := List.forall_mem_cons.1 h
    exact ⟨harg, ih hargs⟩

/-- The literal text of a tidy document is tidy, also in the arguments of directives. -/
theorem Template.all_tidy {c : Cursor} (h : Tidy c.rest) : (ofCursor c).All Tidy := by
  induction hn : c.rest.length using Nat.strongRecOn generalizing c with
  | ind n ih =>
    cases hnext : c.next with
    | done =>
      rw [ofCursor_of_done hnext]
      exact h
    | malformed bad =>
      rw [ofCursor_of_malformed hnext]
      trivial
    | found before inv after =>
      obtain ⟨hbefore, hargs, -, hafter⟩ := scanFrom_pieces hnext
      obtain ⟨hshort, hshorter⟩ := Cursor.next_found hnext
      rw [ofCursor_of_found hnext]
      refine ⟨h.start hbefore, allOf_map fun arg harg => ?_, ?_⟩
      · exact ih arg.length (hn ▸ hshort arg harg) ((hargs arg harg).tidy h) rfl
      · exact ih after.rest.length (hn ▸ hshorter) (hafter.tidy h) rfl

/-- The places of the arguments that a directive prints. -/
def Directive.printed : Directive → List Nat
  | .code | .relativeCode => [1]
  | .gitCode | .definition => [2]
  | .figure => [1, 3]
  | .input | .reference | .metadata => []

namespace Expansion

/-! ## The ledger of a text -/

/-- A mark stands in an argument that the directive does not print. -/
def Performance.Drops (p : Performance) (k : Nat) : Prop :=
  ∃ i arg, p.args[i]? = some arg ∧ i ∉ p.directive.printed ∧ mark k <:+: arg

/-- Which marks are in a text that was written between two numbers of references: they stand there in
order, and those that do not were dropped by a directive of the whole conversation. -/
structure Ledger (whole : List Exchange) (m n : Nat) (ks : List Nat) : Prop where
  le : m ≤ n
  ascending : ks.Pairwise (· < ·)
  bounds : ∀ k ∈ ks, m ≤ k ∧ k < n
  complete : ∀ k, m ≤ k → k < n → k ∈ ks ∨ ∃ p ∈ performances whole, p.Drops k

namespace Ledger

variable {whole : List Exchange} {l m n : Nat} {ks ls : List Nat}

theorem nil (whole : List Exchange) (n : Nat) : Ledger whole n n [] :=
  ⟨Nat.le_refl n, .nil, by simp, fun k _ _ => by omega⟩

theorem singleton (whole : List Exchange) (n : Nat) : Ledger whole n (n + 1) [n] := by
  refine ⟨Nat.le_succ n, List.pairwise_singleton _ n, by simp, fun k hlo hhi => .inl ?_⟩
  rw [List.mem_singleton]
  omega

theorem append (h : Ledger whole l m ks) (h' : Ledger whole m n ls) :
    Ledger whole l n (ks ++ ls) := by
  have hle := h.le
  have hle' := h'.le
  refine ⟨Nat.le_trans hle hle', ?_, ?_, ?_⟩
  · refine List.pairwise_append.2 ⟨h.ascending, h'.ascending, fun k hk j hj => ?_⟩
    exact Nat.lt_of_lt_of_le (h.bounds k hk).2 (h'.bounds j hj).1
  · intro k hk
    rcases List.mem_append.1 hk with hk | hk
    · have := h.bounds k hk
      omega
    · have := h'.bounds k hk
      omega
  · intro k hlo hhi
    by_cases hk : k < m
    · exact (h.complete k hlo hk).imp_left (List.mem_append_left ls)
    · exact (h'.complete k (Nat.not_lt.1 hk) hhi).imp_left (List.mem_append_right ks)

/-- Marks can be left out that a directive drops. -/
theorem sublist (h : Ledger whole m n ks) (hsub : ls.Sublist ks)
    (hdrop : ∀ k ∈ ks, k ∈ ls ∨ ∃ p ∈ performances whole, p.Drops k) : Ledger whole m n ls := by
  refine ⟨h.le, h.ascending.sublist hsub, fun k hk => h.bounds k (hsub.subset hk), ?_⟩
  intro k hlo hhi
  rcases h.complete k hlo hhi with hk | hk
  · exact hdrop k hk
  · exact .inr hk

end Ledger

/-- Items at ascending places come in the order of the whole list. -/
theorem flatMap_getElem?_sublist {α : Type} {is : List Nat} (h : is.Pairwise (· < ·))
    {kss : List (List α)} {n : Nat} (hn : ∀ i ∈ is, n ≤ i) :
    (is.flatMap fun i => kss[i]?.getD []).Sublist (kss.drop n).flatten := by
  induction is generalizing n with
  | nil => exact List.nil_sublist _
  | cons i is ih =>
    obtain ⟨hi, his⟩ := List.forall_mem_cons.1 hn
    obtain ⟨hlater, hsorted⟩ := List.pairwise_cons.1 h
    have hdrop : (kss.drop i).flatten = kss[i]?.getD [] ++ (kss.drop (i + 1)).flatten := by
      rw [List.drop_eq_getElem?_toList_append, List.flatten_append]
      cases kss[i]? <;> simp
    have hfrom : (kss.drop i).flatten.Sublist (kss.drop n).flatten := by
      have hskip : (kss.drop n).drop (i - n) = kss.drop i := by
        rw [List.drop_drop, Nat.add_sub_cancel' hi]
      rw [← List.take_append_drop (i - n) (kss.drop n), hskip, List.flatten_append]
      exact List.sublist_append_right _ _
    rw [hdrop] at hfrom
    rw [List.flatMap_cons]
    exact ((List.Sublist.refl _).append (ih hsorted hlater)).trans hfrom

section Args

variable {α : Type} {R : Bytes → List α → Prop} {args : List Bytes} {kss : List (List α)}

/-- What each argument has to do with its items, the arguments that are missing have, too. -/
theorem rel_arg (hnil : R [] []) (h : List.Forall₂ R args kss) (i : Nat) :
    R (args[i]?.getD []) (kss[i]?.getD []) := by
  induction h generalizing i with
  | nil => exact hnil
  | cons hfirst _ ih =>
    cases i with
    | zero => exact hfirst
    | succ i => exact ih i

theorem exists_arg_of_mem (h : List.Forall₂ R args kss) {k : α} (hk : k ∈ kss.flatten) :
    ∃ (i : Nat) (arg : Bytes), args[i]? = some arg ∧ k ∈ kss[i]?.getD [] ∧
      R arg (kss[i]?.getD []) := by
  induction h with
  | nil => simp at hk
  | @cons arg ks args kss hfirst _ ih =>
    rw [List.flatten_cons, List.mem_append] at hk
    rcases hk with hk | hk
    · exact ⟨0, arg, rfl, hk, hfirst⟩
    · obtain ⟨i, arg', harg, hmem, hrel⟩ := ih hk
      exact ⟨i + 1, arg', harg, hmem, hrel⟩

end Args

theorem Directive.pairwise_printed (directive : Directive) :
    directive.printed.Pairwise (· < ·) := by
  cases directive <;> decide

/-- **Arguments** are printed, or their marks dropped. -/
theorem Ledger.printed {whole : List Exchange} {m n : Nat} {args : List Bytes}
    {kss : List (List Nat)} (hargs : List.Forall₂ Marked args kss)
    (h : Ledger whole m n kss.flatten) {p : Performance} (hp : p ∈ performances whole)
    (hpargs : p.args = args) :
    Ledger whole m n (p.directive.printed.flatMap fun i => kss[i]?.getD []) := by
  refine h.sublist ?_ fun k hk => ?_
  · exact flatMap_getElem?_sublist (Directive.pairwise_printed _) (n := 0) fun _ _ => Nat.zero_le _
  · obtain ⟨i, arg, harg, hmem, hmarked⟩ := exists_arg_of_mem hargs hk
    by_cases hi : i ∈ p.directive.printed
    · exact .inl (List.mem_flatMap.2 ⟨i, hi, hmem⟩)
    · exact .inr ⟨p, hp, i, arg, hpargs ▸ harg, hi, hmarked.isInfix_of_mem hmem⟩

/-! ## Records -/

def TidyTitles (r : Label.Registry) : Prop := ∀ e ∈ r.titles, Tidy e.2

/-- A text that was written between two drafts, with the marks of the references made there. -/
structure Written (whole : List Exchange) (d d' : Draft) (text : Bytes) : Prop where
  before : TidyTitles d.registry
  after : TidyTitles d'.registry
  marked : ∃ ks, Marked text ks ∧ Ledger whole d.pending.length d'.pending.length ks

theorem written_nil {whole : List Exchange} {d : Draft} (hd : TidyTitles d.registry) :
    Written whole d d [] := ⟨hd, hd, [], marked_nil, .nil whole _⟩

/-- What was written depends on references and titles alone. -/
theorem Written.congr {whole : List Exchange} {d₁ d₂ d d' : Draft} {text : Bytes}
    (h : Written whole d₁ d₂ text) (hpending : d₁.pending = d.pending)
    (htitles : d₁.registry.titles = d.registry.titles) (hpending' : d₂.pending = d'.pending)
    (htitles' : d₂.registry.titles = d'.registry.titles) : Written whole d d' text := by
  obtain ⟨hd₁, hd₂, hmarked⟩ := h
  unfold TidyTitles at hd₁ hd₂
  rw [htitles] at hd₁
  rw [htitles'] at hd₂
  rw [hpending, hpending'] at hmarked
  exact ⟨hd₁, hd₂, hmarked⟩

theorem rows_written {whole : List Exchange} {d d' : Draft} {args : List Bytes}
    (h : Conduct.Rows (Written whole) d d' args) :
    TidyTitles d.registry ∧ TidyTitles d'.registry ∧ ∃ kss, List.Forall₂ Marked args kss ∧
      Ledger whole d.pending.length d'.pending.length kss.flatten := by
  induction h with
  | nil hnil => exact ⟨hnil.before, hnil.after, [], .nil, .nil whole _⟩
  | cons hfirst _ ih =>
    obtain ⟨ks, hmarked, hledger⟩ := hfirst.marked
    obtain ⟨-, hd'', kss, hothers, hrest⟩ := ih
    exact ⟨hfirst.before, hd'', ks :: kss, .cons hmarked hothers, hledger.append hrest⟩

def referring (trace : List Exchange) : List Performance :=
  (performances trace).filter (·.directive == .reference)

def defining (trace : List Exchange) : List Performance :=
  (performances trace).filter (·.directive == .definition)

/-- A reference as it is kept until all definitions are known. -/
def Performance.pending (p : Performance) : Pending :=
  { label := trim (p.arg 0), file := p.path, line := p.line }

/-- A definition prints a number, between its title and its label. -/
def Performance.PrintsNumber (p : Performance) (number : Nat) : Prop :=
  ∃ title, p.output = bytes "[**" ++ title ++ bytes " " ++ ofNat number ++ bytes "**]\x7b#def:"
    ++ trim (p.arg 1) ++ bytes "\x7d: " ++ trim (p.arg 2)

/-- An entry of the registry is what a definition has made. -/
structure Defines (e : Label.Entry) (p : Performance) : Prop where
  kind : e.kind = trim (p.arg 0)
  key : e.key = trim (p.arg 1)
  isKey_kind : Label.isKey e.kind = true
  isKey_key : Label.isKey e.key = true
  number : p.PrintsNumber e.number

/-- What a conversation adds to a draft: the references and the definitions it tells of. -/
structure Recorded (d : Draft) (trace : List Exchange) (d' : Draft) : Prop where
  pending : d'.pending = d.pending ++ (referring trace).map Performance.pending
  marks : ∀ (i : Nat) (p : Performance), (referring trace)[i]? = some p →
    p.output = mark (d.pending.length + i)
  definitions : ∃ entries, d'.registry.definitions = d.registry.definitions ++ entries ∧
    List.Forall₂ Defines entries (defining trace)
  sound : d.registry.Sound → d'.registry.Sound

theorem recorded_of_silent {d d' : Draft} {trace : List Exchange} (h : silent.ok d trace d') :
    Recorded d trace d' := by
  obtain ⟨hperformances, hpending, hdefinitions, -, hsound⟩ := h
  have hreferring : referring trace = [] := by rw [referring, hperformances]; rfl
  have hdefining : defining trace = [] := by rw [defining, hperformances]; rfl
  refine ⟨?_, ?_, ⟨[], ?_, ?_⟩, hsound⟩
  · rw [hreferring, hpending, List.map_nil, List.append_nil]
  · rw [hreferring]
    exact fun i p hp => by simp at hp
  · rw [hdefinitions, List.append_nil]
  · rw [hdefining]
    exact .nil

theorem referring_append (trace trace' : List Exchange) :
    referring (trace ++ trace') = referring trace ++ referring trace' := by
  rw [referring, performances_append, List.filter_append]
  rfl

theorem defining_append (trace trace' : List Exchange) :
    defining (trace ++ trace') = defining trace ++ defining trace' := by
  rw [defining, performances_append, List.filter_append]
  rfl

theorem Recorded.trans {d d' d'' : Draft} {first rest : List Exchange} (h : Recorded d first d')
    (h' : Recorded d' rest d'') : Recorded d (first ++ rest) d'' := by
  obtain ⟨entries, hentries, hdefines⟩ := h.definitions
  obtain ⟨entries', hentries', hdefines'⟩ := h'.definitions
  refine ⟨?_, ?_, ⟨entries ++ entries', ?_, ?_⟩, fun hd => h'.sound (h.sound hd)⟩
  · rw [h'.pending, h.pending, referring_append, List.map_append, List.append_assoc]
  · intro i p hp
    rw [referring_append] at hp
    by_cases hi : i < (referring first).length
    · rw [List.getElem?_append_left hi] at hp
      exact h.marks i p hp
    · rw [List.getElem?_append_right (Nat.not_lt.1 hi)] at hp
      rw [h'.marks _ p hp, h.pending, List.length_append, List.length_map]
      congr 1
      omega
  · rw [hentries', hentries, List.append_assoc]
  · rw [defining_append]
    exact List.rel_append hdefines hdefines'

/-- The conduct of steps of a pass whose whole conversation is given: they read tidy texts, and keep the
record. -/
def recording (whole : List Exchange) : Conduct where
  given e := (∀ text ∈ e.readings, Tidy text) ∧ e ∈ whole
  ok := Recorded
  fail _ _ _ := True
  refl d := recorded_of_silent (silent.refl d)
  trans := Recorded.trans
  fail_trans _ _ := trivial

theorem Prints.recording {α : Type} {x : Pass α} {Q : α → Prop} (h : Prints x Q)
    (whole : List Exchange) (d : Draft) :
    (recording whole).Holds d x fun a d' =>
      Q a ∧ d'.pending = d.pending ∧ d'.registry.titles = d.registry.titles := by
  intro trace r hrun hgiven
  have hmet := h d trace r hrun fun e he => (hgiven e he).1
  rcases r with fault | ⟨a, d'⟩
  · trivial
  · exact ⟨recorded_of_silent hmet.1, hmet.2, hmet.1.2.1, hmet.1.2.2.2.1⟩

/-! ## Directives -/

/-- The exchange that begins a directive. -/
def opening (p : Performance) : Exchange := ⟨.note (.reached p.path p.line p.directive p.args), ()⟩

/-- The exchanges that end a directive. -/
def closing (p : Performance) : List Exchange :=
  [⟨.count (.directive p.directive.name), ()⟩,
    ⟨.note (.performed p.path p.line p.directive p.args p.output), ()⟩]

theorem performances_closing (p : Performance) : performances (closing p) = [p] := rfl

theorem runs_perform {s : Setting} {path : Bytes} {input : Bytes → Pass Bytes} {directive : Directive}
    {args : List Bytes} {line : Nat} {d d' : Draft} {trace : List Exchange} {output : Bytes}
    (h : (perform s path input directive args line).Runs d trace (.ok (output, d'))) :
    ∃ first, trace = opening { path, line, directive, args, output } ::
        (first ++ closing { path, line, directive, args, output }) ∧
      (effect s path input directive args line).Runs d first (.ok (output, d')) := by
  rw [perform_eq] at h
  obtain ⟨trace, rfl, hreached⟩ := Pass.runs_note_bind.1 h
  obtain ⟨out, d₁, first, rest, rfl, hmapped, hrest⟩ := Pass.runs_bind_ok.1 hreached
  obtain ⟨r, heffect, hr⟩ := Pass.runs_mapFault.1 hmapped
  obtain ⟨answer, rest, rfl, hnote⟩ := Pass.runs_ask_bind.1 hrest
  obtain ⟨rest, rfl, hpure⟩ := Pass.runs_note_bind.1 hnote
  obtain ⟨rfl, hout⟩ := Pass.runs_pure.1 hpure
  cases hout
  refine ⟨first, rfl, ?_⟩
  rcases r with fault | r
  · cases hr
  · cases hr
    exact heffect

/-- A directive that neither defines nor refers to anything adds nothing to the record. -/
theorem recorded_closing {p : Performance} (href : p.directive ≠ .reference)
    (hdef : p.directive ≠ .definition) (d : Draft) : Recorded d (closing p) d := by
  have hreferring : referring (closing p) = [] := by simp [referring, performances_closing, href]
  have hdefining : defining (closing p) = [] := by simp [defining, performances_closing, hdef]
  refine ⟨?_, ?_, ⟨[], ?_, ?_⟩, id⟩
  · rw [hreferring, List.map_nil, List.append_nil]
  · rw [hreferring]
    exact fun i p hp => by simp at hp
  · rw [List.append_nil]
  · rw [hdefining]
    exact .nil

theorem runs_reference {label file : Bytes} {line : Nat} {d d' : Draft} {trace : List Exchange}
    {output : Bytes} (h : (reference label file line).Runs d trace (.ok (output, d'))) :
    trace = [] ∧ output = mark d.pending.length ∧
      d' = { d with pending := d.pending ++ [{ label := trim label, file, line }] } := by
  rw [reference] at h
  split at h
  · obtain ⟨-, hr⟩ := Script.runs_done.1 h
    cases hr
  · obtain ⟨rfl, hr⟩ := Script.runs_done.1 (Pass.runs_get_bind.1 h)
    cases hr
    exact ⟨rfl, rfl, rfl⟩

theorem recorded_reference {p : Performance} (hdirective : p.directive = .reference) {d : Draft}
    (houtput : p.output = mark d.pending.length) :
    Recorded d (closing p) { d with pending := d.pending ++ [p.pending] } := by
  have hreferring : referring (closing p) = [p] := by simp [referring, performances_closing, hdirective]
  have hdefining : defining (closing p) = [] := by simp [defining, performances_closing, hdirective]
  refine ⟨?_, ?_, ⟨[], ?_, ?_⟩, id⟩
  · rw [hreferring, List.map_singleton]
  · rw [hreferring]
    intro i q hq
    obtain ⟨hi, rfl⟩ := List.getElem?_eq_some_iff.1 hq
    have hi : i = 0 := by simpa using hi
    subst hi
    exact houtput
  · rw [List.append_nil]
  · rw [hdefining]
    exact .nil

theorem runs_definition {type label body : Bytes} {d d' : Draft} {trace : List Exchange}
    {output : Bytes} (h : (definition type label body).Runs d trace (.ok (output, d'))) :
    ∃ (title : Bytes) (number : Nat) (registry : Label.Registry),
      trace = [⟨.definitionTitle (trim type), title⟩] ∧ Label.isBuiltin (trim type) = false ∧
      (d.registry.setTitle (trim type) title).define (trim type) (trim label) = .ok (number, registry) ∧
      d' = { d with registry } ∧
      output = bytes "[**" ++ registry.title (trim type) ++ bytes " " ++ ofNat number
        ++ bytes "**]\x7b#def:" ++ trim label ++ bytes "\x7d: " ++ trim body := by
  rw [definition] at h
  split at h
  · obtain ⟨-, hr⟩ := Script.runs_done.1 h
    cases hr
  · next hkind =>
    simp only [Bool.or_eq_true, not_or, Bool.not_eq_true] at hkind
    obtain ⟨title, rest, rfl, hmodify⟩ := Pass.runs_ask_bind.1 h
    obtain ⟨number, d₁, first, rest, rfl, hdefine, hget⟩ :=
      Pass.runs_bind_ok.1 (Pass.runs_modify_bind.1 hmodify)
    have hdefine := Pass.runs_get_bind.1 hdefine
    obtain ⟨rfl, hout⟩ := Script.runs_done.1 (Pass.runs_get_bind.1 hget)
    cases hout
    split at hdefine
    · obtain ⟨-, hr⟩ := Script.runs_done.1 hdefine
      cases hr
    · next registry hregistry =>
      obtain ⟨rfl, hr⟩ := Script.runs_done.1 hdefine
      cases hr
      exact ⟨title, number, registry, rfl, hkind.2, hregistry, rfl, rfl⟩

theorem tidy_registry_title {r : Label.Registry} (hr : TidyTitles r) {kind : Bytes}
    (hkind : Label.isKey kind = true) : Tidy (r.title kind) := by
  rw [Label.Registry.title]
  split
  · next title hlookup =>
    obtain ⟨before, after, htitles, -⟩ := List.lookup_eq_some_iff.1 hlookup
    refine hr (kind, title) ?_
    rw [htitles]
    exact List.mem_append_right _ List.mem_cons_self
  · cases hlookup : Label.builtinTitles.lookup kind with
    | none => exact tidy_title hkind
    | some title =>
      have htable : ∀ e ∈ Label.builtinTitles, isAscii e.2 = true := by decide
      obtain ⟨before, after, htitles, -⟩ := List.lookup_eq_some_iff.1 hlookup
      refine tidy_of_isAscii (htable (kind, title) ?_)
      rw [htitles]
      exact List.mem_append_right _ List.mem_cons_self

theorem tidyTitles_setTitle {r : Label.Registry} (hr : TidyTitles r) {kind title : Bytes}
    (htitle : Tidy title) : TidyTitles (r.setTitle kind title) := by
  rw [Label.Registry.setTitle]
  split
  · exact hr
  · exact List.forall_mem_cons.2 ⟨htitle, hr⟩

theorem definitions_setTitle (r : Label.Registry) (kind title : Bytes) :
    (r.setTitle kind title).definitions = r.definitions := by
  rw [Label.Registry.setTitle]
  split <;> rfl

/-- The title of a type is made of the type, or it is read. -/
theorem tidy_answer {type title : Bytes} (hkind : Label.isKey type = true)
    (h : ∀ text ∈ titleReadings type title, Tidy text) : Tidy title := by
  rw [titleReadings] at h
  split at h
  · next heq =>
    rw [heq]
    exact tidy_title hkind
  · exact h title List.mem_cons_self

theorem recorded_definition {p : Performance} (hdirective : p.directive = .definition) {d : Draft}
    {title : Bytes} {number : Nat} {registry : Label.Registry}
    (hbuiltin : Label.isBuiltin (trim (p.arg 0)) = false)
    (hdefine : (d.registry.setTitle (trim (p.arg 0)) title).define (trim (p.arg 0)) (trim (p.arg 1)) =
      .ok (number, registry)) (hnumber : p.PrintsNumber number) :
    Recorded d (⟨.definitionTitle (trim (p.arg 0)), title⟩ :: closing p) { d with registry } := by
  have hreferring : referring (⟨.definitionTitle (trim (p.arg 0)), title⟩ :: closing p) = [] := by
    change (performances (closing p)).filter _ = []
    simp [performances_closing, hdirective]
  have hdefining : defining (⟨.definitionTitle (trim (p.arg 0)), title⟩ :: closing p) = [p] := by
    change (performances (closing p)).filter _ = [p]
    simp [performances_closing, hdirective]
  obtain ⟨hkind, hkey, -⟩ := Label.Registry.define_eq_ok hdefine
  have hentries := Label.Registry.definitions_define hdefine hbuiltin
  rw [definitions_setTitle] at hentries
  refine ⟨?_, ?_, ⟨_, hentries, ?_⟩, ?_⟩
  · rw [hreferring, List.map_nil, List.append_nil]
  · rw [hreferring]
    exact fun i p hp => by simp at hp
  · rw [hdefining]
    exact .cons ⟨rfl, rfl, hkind, hkey, hnumber⟩ .nil
  · exact fun hsound => (hsound.setTitle _ _).define hdefine

/-- What the effect of a directive gives: the marks of the arguments it prints, and after them those of
references that it has made. -/
def Given (whole : List Exchange) (directive : Directive) (kss : List (List Nat)) (d d' : Draft)
    (output : Bytes) : Prop :=
  TidyTitles d'.registry ∧
    ∃ ls, Marked output ((directive.printed.flatMap fun i => kss[i]?.getD []) ++ ls) ∧
      Ledger whole d.pending.length d'.pending.length ls

section Perform

variable {s : Setting} {path : Bytes} {input : Bytes → Pass Bytes} {whole : List Exchange}
  {args : List Bytes} {kss : List (List Nat)} {d d' : Draft} {line : Nat} {output : Bytes}
  {first : List Exchange}

/-- A silent effect gives the marks of its arguments. -/
theorem given_of_prints {directive : Directive} {x : Pass Bytes}
    (hx : Prints x (Marked · (directive.printed.flatMap fun i => kss[i]?.getD [])))
    (hd : TidyTitles d.registry) (hrun : x.Runs d first (.ok (output, d')))
    (hgiven : ∀ e ∈ first, (recording whole).given e) :
    Recorded d first d' ∧ Given whole directive kss d d' output := by
  obtain ⟨hrecorded, hmarked, hpending, htitles⟩ := hx.recording whole d first _ hrun hgiven
  refine ⟨hrecorded, ?_, [], ?_, ?_⟩
  · unfold TidyTitles
    rw [htitles]
    exact hd
  · rw [List.append_nil]
    exact hmarked
  · rw [hpending]
    exact .nil whole _

/-- What a definition prints in front of its body. -/
theorem tidy_definitionFront {registry : Label.Registry} (hr : TidyTitles registry)
    {kind label : Bytes} (hkind : Label.isKey kind = true) (hlabel : Label.isKey label = true)
    (number : Nat) :
    Tidy (bytes "[**" ++ registry.title kind ++ bytes " " ++ ofNat number ++ bytes "**]\x7b#def:" ++
      label ++ bytes "\x7d: ") := by
  have htitle : Tidy (bytes "[**" ++ registry.title kind ++ bytes " ") :=
    ((tidy_bytes rfl).append (tidy_registry_title hr hkind)).append (tidy_bytes rfl)
  have hnumber := (htitle.append (tidy_ofNat number)).append (tidy_bytes (s := "**]\x7b#def:") rfl)
  exact (hnumber.append (tidy_of_isKey hlabel)).append (tidy_bytes rfl)

/-- A definition gives the marks of its body, behind a title that is made of its type or read. -/
theorem given_definition (hbody : Marked (args[2]?.getD []) (kss[2]?.getD []))
    (hd : TidyTitles d.registry)
    (hrun : (definition (args[0]?.getD []) (args[1]?.getD []) (args[2]?.getD [])).Runs d first
      (.ok (output, d')))
    (hgiven : ∀ e ∈ first, ∀ text ∈ e.readings, Tidy text) :
    Recorded d (first ++ closing { path, line, directive := .definition, args, output }) d' ∧
      Given whole .definition kss d d' output := by
  obtain ⟨title, number, registry, rfl, hbuiltin, hdefine, rfl, houtput⟩ := runs_definition hrun
  refine ⟨recorded_definition (p := ⟨path, line, .definition, args, output⟩) rfl hbuiltin hdefine
    ⟨_, houtput⟩, ?_⟩
  obtain ⟨hkind, hkey, -⟩ := Label.Registry.define_eq_ok hdefine
  have htitle : Tidy title := tidy_answer hkind (hgiven _ List.mem_cons_self)
  have htitles : TidyTitles registry := by
    unfold TidyTitles
    rw [Label.Registry.titles_define hdefine]
    exact tidyTitles_setTitle hd htitle
  refine ⟨htitles, [], ?_, .nil whole _⟩
  rw [List.append_nil, houtput]
  simpa [Directive.printed] using
    hbody.trim.tidy_append (tidy_definitionFront htitles hkind hkey number)

/-- **Directives** keep record and ledger if inclusions do. -/
theorem given_of_effect (hroot : Path.isAbsolute s.resolver.root = true)
    (hs : ∀ text ∈ s.readings, Tidy text)
    (hinput : ∀ name d, TidyTitles d.registry → (recording whole).Holds d (input name)
      fun output d' => Written whole d d' output)
    (directive : Directive) (hargs : List.Forall₂ Marked args kss) (hd : TidyTitles d.registry)
    (hrun : (effect s path input directive args line).Runs d first (.ok (output, d')))
    (hgiven : ∀ e ∈ first, (recording whole).given e) :
    Recorded d (first ++ closing { path, line, directive, args, output }) d' ∧
      Given whole directive kss d d' output := by
  have hprints : ∀ {x : Pass Bytes}, directive ≠ .reference → directive ≠ .definition →
      Prints x (Marked · (directive.printed.flatMap fun i => kss[i]?.getD [])) →
      x.Runs d first (.ok (output, d')) →
      Recorded d (first ++ closing { path, line, directive, args, output }) d' ∧
        Given whole directive kss d d' output := by
    intro x href hdef hx hxrun
    obtain ⟨hrecorded, hout⟩ := given_of_prints hx hd hxrun hgiven
    exact ⟨hrecorded.trans (recorded_closing href hdef d'), hout⟩
  have harg := rel_arg marked_nil hargs
  cases directive with
  | input =>
    obtain ⟨hrecorded, hwritten⟩ := hinput _ d hd first _ hrun hgiven
    exact ⟨hrecorded.trans (recorded_closing (by simp) (by simp) d'), hwritten.after, hwritten.marked⟩
  | code =>
    refine hprints (by decide) (by decide) (prints_localListing hroot hs ?_) hrun
    simpa [Directive.printed] using harg 1
  | relativeCode =>
    refine hprints (by decide) (by decide) (prints_localListing hroot hs ?_) hrun
    simpa [Directive.printed] using harg 1
  | gitCode =>
    refine hprints (by decide) (by decide) (prints_repositoryListing hs ?_) hrun
    simpa [Directive.printed] using harg 2
  | figure =>
    have hprinted : (Directive.figure.printed.flatMap fun i => kss[i]?.getD []) =
        kss[1]?.getD [] ++ kss[3]?.getD [] := by simp [Directive.printed]
    refine hprints (by decide) (by decide) ?_ hrun
    rw [hprinted]
    exact prints_figure hs (harg 1) (harg 3)
  | metadata =>
    refine hprints (by decide) (by decide) (fun d => ?_) hrun
    exact (prints_metadata hs _ d).imp fun _ _ htidy => .text htidy
  | reference =>
    obtain ⟨rfl, rfl, rfl⟩ := runs_reference hrun
    refine ⟨recorded_reference rfl rfl, hd, [d.pending.length], marked_mark _, ?_⟩
    rw [List.length_append]
    exact .singleton whole _
  | definition =>
    exact given_definition (harg 2) hd hrun fun e he => (hgiven e he).1

theorem holds_perform_written (hroot : Path.isAbsolute s.resolver.root = true)
    (hs : ∀ text ∈ s.readings, Tidy text)
    (hinput : ∀ name d, TidyTitles d.registry → (recording whole).Holds d (input name)
      fun output d' => Written whole d d' output)
    {d₀ : Draft} (directive : Directive) (line : Nat) (hrows : Conduct.Rows (Written whole) d₀ d args) :
    (recording whole).Holds d (perform s path input directive args line) fun output d' =>
      Written whole d₀ d' output := by
  intro trace r hrun hgiven
  rcases r with fault | ⟨output, d'⟩
  · trivial
  · obtain ⟨first, rfl, heffect⟩ := runs_perform hrun
    obtain ⟨hd₀, hd, kss, hargs, hledger⟩ := rows_written hrows
    obtain ⟨hrecorded, hd', ls, hmarked, hmade⟩ := given_of_effect hroot hs hinput directive hargs hd
      heffect fun e he => hgiven e (List.mem_cons_of_mem _ (List.mem_append_left _ he))
    have hnoted : { path, line, directive, args, output } ∈ performances whole := by
      have hlast := (hgiven ⟨.note (.performed path line directive args output), ()⟩
        (List.mem_cons_of_mem _ (List.mem_append_right _ (by simp [closing])))).2
      exact List.mem_filterMap.2 ⟨_, hlast, rfl⟩
    have hopening : Recorded d [opening { path, line, directive, args, output }] d :=
      recorded_of_silent ⟨rfl, rfl, rfl, rfl, id⟩
    exact ⟨hopening.trans hrecorded, hd₀, hd', _, hmarked, (hledger.printed hargs hnoted rfl).append hmade⟩

end Perform

/-! ## Documents -/

theorem texts_written {s : Setting} {path : Bytes} {input : Bytes → Pass Bytes}
    {whole : List Exchange} (hroot : Path.isAbsolute s.resolver.root = true)
    (hs : ∀ text ∈ s.readings, Tidy text)
    (hinput : ∀ name d, TidyTitles d.registry → (recording whole).Holds d (input name)
      fun output d' => Written whole d d' output) :
    (recording whole).Texts (Written whole) Tidy (perform s path input) where
  nil h := written_nil h.after
  append := by
    rintro d d' out s ⟨hd, hd', ks, hmarked, hledger⟩ htidy
    exact ⟨hd, hd', ks, hmarked.append_tidy htidy, hledger⟩
  place := by
    rintro d d' d'' out isBlock output after ⟨hd, -, ks, hout, hledger⟩ ⟨-, hd'', ls, houtput, hrest⟩
    exact ⟨hd, hd'', ks ++ ls, hout.place houtput isBlock after, hledger.append hrest⟩
  perform d d' directive args line hrows :=
    holds_perform_written hroot hs hinput directive line hrows
  malformed _ _ := trivial

theorem recorded_modify {d d' : Draft} (hpending : d'.pending = d.pending)
    (hregistry : d'.registry = d.registry) : Recorded d [] d' :=
  recorded_of_silent ⟨rfl, hpending, by rw [hregistry], by rw [hregistry], by rw [hregistry]; exact id⟩

theorem prints_declareMetadata (s : Setting) (path text : Bytes) :
    Prints (declareMetadata s path text) fun _ => True := by
  rw [declareMetadata]
  split
  · exact prints_throw _
  · exact prints_pure trivial
  · exact prints_ask (fun _ => rfl) fun _ _ => trivial

/-- An inclusion keeps record and ledger if the document that it includes does. -/
theorem holds_inclusion_written {s : Setting} {chain : List Bytes} {path : Bytes}
    {whole : List Exchange} {expandChild : Bytes → Pass (Node × Bytes)}
    (hchild : ∀ child, s.Includes path child → ∀ d, TidyTitles d.registry →
      (recording whole).Holds d (expandChild child) fun result d' => Written whole d d' result.2)
    (name : Bytes) (d : Draft) (hd : TidyTitles d.registry) :
    (recording whole).Holds d (inclusionWith s chain path expandChild name) fun output d' =>
      Written whole d d' output := by
  refine Conduct.holds_require_mapError_bind (fun _ => trivial) fun child hresolved => ?_
  refine Conduct.Holds.bind (Q := fun _ d'' => d'' = d)
    (Conduct.holds_ask fun _ _ => ⟨recorded_of_silent ⟨rfl, rfl, rfl, rfl, id⟩, rfl⟩)
    fun _ d'' _ _ heq => ?_
  subst heq
  refine (hchild child ⟨name, hresolved⟩ d'' hd).bind fun result d₁ _ _ hresult => ?_
  obtain ⟨node, text⟩ := result
  refine Conduct.Holds.bind (Q := fun _ d₂ => Written whole d'' d₂ text) ?_
    fun _ _ _ _ htext => Conduct.holds_pure htext
  exact Conduct.holds_modify (recorded_modify rfl rfl) (hresult.congr rfl rfl rfl rfl)

/-- A document that was read keeps record and ledger if the documents that it includes do. -/
theorem holds_document_written {s : Setting} {whole : List Exchange}
    (hroot : Path.isAbsolute s.resolver.root = true) (hs : ∀ text ∈ s.readings, Tidy text)
    {chain : List Bytes} {path text : Bytes} {depth : Nat}
    (hchild : ∀ child, s.Includes path child → ∀ d, TidyTitles d.registry →
      (recording whole).Holds d (expandFile s (chain ++ [path]) child (depth + 1))
        fun result d' => Written whole d d' result.2)
    {d : Draft} (hd : TidyTitles d.registry) :
    (recording whole).Holds d
      (documentWith s chain path depth text (expandText s (chain ++ [path]) path depth 0 text))
      fun result d' => Written whole d d' result.2 := by
  refine Conduct.Holds.bind (Q := fun _ d₁ => d₁ = d ∧ Tidy text)
    (Conduct.holds_ask fun _ hgiven => ⟨recorded_of_silent ⟨rfl, rfl, rfl, rfl, id⟩, rfl, ?_⟩)
    fun _ d₁ _ _ hopened => ?_
  · exact hgiven.1 text List.mem_cons_self
  obtain ⟨rfl, htext⟩ := hopened
  refine ((prints_declareMetadata s path text).recording whole d₁).bind fun _ d₂ _ _ hdeclared => ?_
  obtain ⟨-, hpending, htitles⟩ := hdeclared
  have hd₂ : TidyTitles d₂.registry := by
    unfold TidyTitles
    rw [htitles]
    exact hd
  refine Conduct.Holds.bind (Q := fun _ d₃ => d₃ = d₂) (Conduct.holds_get rfl) fun outer d₃ _ _ heq => ?_
  subst heq
  refine Conduct.Holds.bind (Q := fun _ d₄ => d₄ = { d₃ with children := [] })
    (Conduct.holds_modify (recorded_modify rfl rfl) rfl) fun _ d₄ _ _ heq => ?_
  subst heq
  have htexts : (recording whole).Texts (Written whole) Tidy (perform s path
      (inclusionWith s (chain ++ [path]) path (expandFile s (chain ++ [path]) · (depth + 1)))) :=
    texts_written hroot hs (holds_inclusion_written hchild)
  have hexpand := htexts.expand (.ofText text) (Template.all_tidy htext) 0 []
    { d₃ with children := [] } { d₃ with children := [] } (written_nil hd₂)
  refine hexpand.bind fun out d₅ _ _ hout => ?_
  have hout : Written whole d₁ d₅ out := hout.congr hpending htitles rfl rfl
  refine Conduct.Holds.bind (Q := fun _ d₆ => d₆ = d₅) (Conduct.holds_get rfl) fun inner d₆ _ _ heq => ?_
  subst heq
  refine Conduct.Holds.bind (Q := fun _ d₇ => Written whole d₁ d₇ out)
    (Conduct.holds_modify (recorded_modify rfl rfl) (hout.congr rfl rfl rfl rfl)) fun _ d₇ _ _ hout => ?_
  refine Conduct.Holds.bind (Q := fun _ d₈ => Written whole d₁ d₈ out)
    (Conduct.holds_ask fun _ _ => ⟨recorded_of_silent ⟨rfl, rfl, rfl, rfl, id⟩, hout⟩) fun _ d₈ _ _ hout => ?_
  exact Conduct.holds_pure hout

/-- **Documents** keep record and ledger. -/
theorem holds_expandFile_written {s : Setting} {whole : List Exchange}
    (hroot : Path.isAbsolute s.resolver.root = true) (hs : ∀ text ∈ s.readings, Tidy text)
    (chain : List Bytes) (path : Bytes) (depth : Nat) (d : Draft) (hd : TidyTitles d.registry) :
    (recording whole).Holds d (expandFile s chain path depth) fun result d' =>
      Written whole d d' result.2 := by
  refine expandFile_induction (motive := fun _ _ _ x => ∀ d, TidyTitles d.registry →
    (recording whole).Holds d x fun result d' => Written whole d d' result.2)
    ?_ ?_ ?_ ?_ chain path depth d hd
  · exact fun _ _ _ _ _ _ => Conduct.holds_throw trivial
  · exact fun _ _ _ _ _ _ => Conduct.holds_throw trivial
  · exact fun _ _ _ _ _ _ _ => Conduct.holds_throw trivial
  · exact fun _ _ _ _ _ hchild d hd => holds_document_written hroot hs hchild hd

end Expansion

end Bindery
